import Mathlib.Algebra.GroupWithZero.Nat
import NucKernel.Library.Ranges
import NucKernel.Library.Runs
import Mathlib.Data.List.Range

/-!
# The RAM disk (`brd.c`)

The contents of the disk are kept in pages that are allocated when something is written to them. A
segment of a request is copied to or from at most two pages, and a discard clears whole pages.

## Modelling

- `PAGE_SIZE` is 4096. Bytes are values of any type with a zero, and pages can always be allocated.
- A request lies below the end of `sector_t`: the sum of its start and its length does not wrap.
- `brd_insert_page` finds the page or inserts an empty one; the race of two inserts is left out.
-/

namespace NucKernel.Block

open NucKernel.Library

universe u

variable {α : Type u} [Zero α]

/-! ## The pages -/

def pageSize : ℕ := 4096

/-- The size of a sector, `1 << SECTOR_SHIFT` -/
def sectorSize : ℕ := 512

def pageSectors : ℕ := 8

/-- `struct brd_device`: the pages by their index, and the capacity in sectors -/
structure Brd (α : Type u) where
  pages : ℕ → Option (ℕ → α)
  capacity : ℕ

/-- A byte of a page that may be missing -/
def pageByte : Option (ℕ → α) → ℕ → α
  | some page, i => page i
  | none, _ => 0

/-- The offset of a sector in its page -/
def pageOffset (sector : ℕ) : ℕ := sector % pageSectors * sectorSize

namespace Brd

/-- `brd_lookup_page` -/
def lookupPage (brd : Brd α) (sector : ℕ) : Option (ℕ → α) := brd.pages (sector / pageSectors)

def setPage (brd : Brd α) (sector : ℕ) (page : ℕ → α) : Brd α :=
  { brd with pages := Function.update brd.pages (sector / pageSectors) (some page) }

/-- `brd_insert_page` -/
def insertPage (brd : Brd α) (sector : ℕ) : Brd α :=
  match brd.lookupPage sector with
  | some _ => brd
  | none => brd.setPage sector fun _ => 0

/-- `brd_zero_page` -/
def zeroPage (brd : Brd α) (sector : ℕ) : Brd α :=
  match brd.lookupPage sector with
  | some _ => brd.setPage sector fun _ => 0
  | none => brd

/-! ## The copies -/

/-- The part of `n` bytes from a sector on that lies in its page -/
def copyLen (sector n : ℕ) : ℕ := min n (pageSize - pageOffset sector)

/-- The sector after the first `copy` bytes -/
def nextSector (sector n : ℕ) : ℕ := sector + copyLen sector n / sectorSize

def copyToBrdSetup (brd : Brd α) (sector n : ℕ) : Brd α :=
  let brd := brd.insertPage sector
  if copyLen sector n < n then brd.insertPage (nextSector sector n) else brd

/-- `copy_to_brd`; `none` stands for its `BUG_ON`s. -/
def copyToBrd (brd : Brd α) (src : ℕ → α) (sector n : ℕ) : Option (Brd α) := do
  let copy := copyLen sector n
  let page ← brd.lookupPage sector
  let brd := brd.setPage sector (overwrite page (pageOffset sector) copy src)
  if copy < n then
    let sector := nextSector sector n
    let page ← brd.lookupPage sector
    pure (brd.setPage sector (overwrite page 0 (n - copy) fun i => src (i + copy)))
  else pure brd

/-- `n` bytes of a page, or zeros if there is none -/
def pageBytes (page : Option (ℕ → α)) (offset n : ℕ) : List α :=
  (List.range n).map fun i => pageByte page (offset + i)

def copyFromBrd (brd : Brd α) (sector n : ℕ) : List α :=
  let copy := copyLen sector n
  let bytes := pageBytes (brd.lookupPage sector) (pageOffset sector) copy
  if copy < n then bytes ++ pageBytes (brd.lookupPage (nextSector sector n)) 0 (n - copy)
  else bytes

/-- `discard_from_brd`; the number of rounds is `n / PAGE_SIZE`. -/
def discardLoop (brd : Brd α) (sector : ℕ) : (rounds : ℕ) → Brd α
  | 0 => brd
  | rounds + 1 => discardLoop (brd.zeroPage sector) (sector + pageSize / sectorSize) rounds

def discardFromBrd (brd : Brd α) (sector n : ℕ) : Brd α :=
  brd.discardLoop sector (n / pageSize)

end Brd

/-! ## Requests -/

/-- A segment of a bio that is written: its length and its bytes -/
structure Segment (α : Type u) where
  len : ℕ
  data : ℕ → α

/-- A bio, with its start and its segments. A discard has a length in sectors. -/
inductive Request (α : Type u)
  | read (sector : ℕ) (lens : List ℕ)
  | write (sector : ℕ) (segs : List (Segment α))
  | discard (sector count : ℕ)

namespace Request

/-- `bi_sector` -/
def sector : Request α → ℕ
  | read sector _ => sector
  | write sector _ => sector
  | discard sector _ => sector

/-- `bi_size` -/
def size : Request α → ℕ
  | read _ lens => lens.sum
  | write _ segs => (segs.map Segment.len).sum
  | discard _ count => count * sectorSize

/-- `bio_end_sector(bio) > get_capacity(bdev->bd_disk)` -/
def Beyond (req : Request α) (capacity : ℕ) : Prop :=
  req.sector + req.size / sectorSize > capacity

instance (req : Request α) (capacity : ℕ) : Decidable (req.Beyond capacity) :=
  inferInstanceAs (Decidable (_ < _))

/-- No segment is longer than a page. -/
def Segmented : Request α → Prop
  | read _ lens => ∀ len ∈ lens, len ≤ pageSize
  | write _ segs => ∀ seg ∈ segs, seg.len ≤ pageSize
  | discard _ _ => True

instance : DecidablePred (Segmented (α := α))
  | read _ lens => inferInstanceAs (Decidable (∀ len ∈ lens, len ≤ pageSize))
  | write _ segs => inferInstanceAs (Decidable (∀ seg ∈ segs, seg.len ≤ pageSize))
  | discard _ _ => isTrue trivial

end Request

/-- The loop over the segments of a read, each with `brd_do_bvec` -/
def readLoop (brd : Brd α) : (sector : ℕ) → List ℕ → List α
  | _, [] => []
  | sector, len :: lens =>
    brd.copyFromBrd sector len ++ readLoop brd (sector + len / sectorSize) lens

/-- The loop over the segments of a write, each with `brd_do_bvec` -/
def writeLoop (brd : Brd α) : (sector : ℕ) → List (Segment α) → Option (Brd α)
  | _, [] => some brd
  | sector, seg :: segs => do
    let brd ← (brd.copyToBrdSetup sector seg.len).copyToBrd seg.data sector seg.len
    writeLoop brd (sector + seg.len / sectorSize) segs

/-- How a bio ends: with an error, or with the bytes that were read -/
inductive Reply (α : Type u)
  | eio
  | done (bytes : List α)
  deriving DecidableEq

/-- `brd_make_request`. A bio without segments ends with the error that `err` is set to first. -/
def brdMakeRequest (brd : Brd α) (req : Request α) : Option (Brd α × Reply α) :=
  if req.Beyond brd.capacity then some (brd, .eio)
  else
    match req with
    | .discard sector count => some (brd.discardFromBrd sector (count * sectorSize), .done [])
    | .read sector lens =>
      some (brd, if lens.isEmpty then .eio else .done (readLoop brd sector lens))
    | .write sector segs =>
      (writeLoop brd sector segs).map fun brd => (brd, if segs.isEmpty then .eio else .done [])

/-! ## The disk as an array -/

/-- The bytes of the disk, sector `s` at `512 * s` -/
def contents (brd : Brd α) (a : ℕ) : α := pageByte (brd.pages (a / pageSize)) (a % pageSize)

/-- Segments written to an array of bytes one after the other -/
def writeArray (f : ℕ → α) : (pos : ℕ) → List (Segment α) → ℕ → α
  | _, [] => f
  | pos, seg :: segs => writeArray (overwrite f pos seg.len seg.data) (pos + seg.len) segs

theorem pageOffset_lt (sector : ℕ) : pageOffset sector + sectorSize ≤ pageSize := by
  have hlt : sector % 8 < 8 := Nat.mod_lt _ (by decide)
  simp only [pageOffset, pageSectors, sectorSize, pageSize]
  omega

theorem sector_pos (sector : ℕ) :
    sector * sectorSize = sector / pageSectors * pageSize + pageOffset sector := by
  simp only [pageOffset, pageSectors, sectorSize, pageSize]
  omega

/-- What does not fit into the page starts at the beginning of the next one. -/
theorem nextSector_of_lt {sector n : ℕ} (h : Brd.copyLen sector n < n) :
    Brd.nextSector sector n = (sector / pageSectors + 1) * pageSectors := by
  have hlt : sector % 8 < 8 := Nat.mod_lt _ (by decide)
  simp only [Brd.nextSector, Brd.copyLen, pageOffset, pageSectors, sectorSize, pageSize] at h ⊢
  omega

theorem nextSector_page {sector n : ℕ} (hlt : Brd.copyLen sector n < n) :
    Brd.nextSector sector n / pageSectors = sector / pageSectors + 1 := by
  rw [nextSector_of_lt hlt]
  exact Nat.mul_div_cancel _ (by decide)

theorem next_page_pos {sector n : ℕ} (hlt : Brd.copyLen sector n < n) :
    (sector / pageSectors + 1) * pageSize = sector * sectorSize + Brd.copyLen sector n := by
  have hoff := pageOffset_lt sector
  rw [sector_pos, Nat.succ_mul]
  rw [Brd.copyLen] at hlt ⊢
  omega

theorem copyLen_of_not_lt {sector n : ℕ} (hlt : ¬Brd.copyLen sector n < n) :
    Brd.copyLen sector n = n := by
  rw [Brd.copyLen] at hlt ⊢
  omega

theorem sector_advance (sector : ℕ) {len : ℕ} (h : sectorSize ∣ len) :
    (sector + len / sectorSize) * sectorSize = sector * sectorSize + len := by
  rw [Nat.add_mul, Nat.div_mul_cancel h]

theorem contents_setPage (brd : Brd α) (sector : ℕ) (page : ℕ → α) (a : ℕ) :
    contents (brd.setPage sector page) a =
      if a / pageSize = sector / pageSectors then page (a % pageSize) else contents brd a := by
  by_cases h : a / pageSize = sector / pageSectors
  · simp only [contents, Brd.setPage, h, Function.update_self, if_pos, pageByte]
  · simp only [contents, Brd.setPage, Function.update_of_ne h, if_neg h]

theorem contents_setPage_overwrite {brd : Brd α} {sector : ℕ} {page : ℕ → α}
    (hpage : brd.lookupPage sector = some page) (offset n : ℕ) (hn : offset + n ≤ pageSize)
    (src : ℕ → α) :
    contents (brd.setPage sector (overwrite page offset n src)) =
      overwrite (contents brd) (sector / pageSectors * pageSize + offset) n src := by
  funext a
  have hpos : 0 < pageSize := by decide
  have hdiv := Nat.div_add_mod a pageSize
  have hmod := Nat.mod_lt a hpos
  rw [contents_setPage]
  split
  · -- a position in the page
    rename_i hidx
    have hold : contents brd a = page (a % pageSize) := by
      rw [contents, hidx, show brd.pages (sector / pageSectors) = some page from hpage]
      rfl
    rw [hidx, Nat.mul_comm] at hdiv
    simp only [overwrite, hold]
    split
    · rw [if_pos (by omega), show a - (sector / pageSectors * pageSize + offset) =
        a % pageSize - offset from by omega]
    · rw [if_neg (by omega)]
  · rename_i hidx
    -- positions of other pages
    refine (overwrite_outside _ _ _ _ ?_).symm
    rintro ⟨hlow, hhigh⟩
    refine hidx (Nat.div_eq_of_lt_le (by omega) ?_)
    rw [Nat.succ_mul]
    omega

/-! ## Copies and discards on the array -/

theorem lookupPage_insertPage (brd : Brd α) (sector : ℕ) :
    ∃ page, (brd.insertPage sector).lookupPage sector = some page := by
  rw [Brd.insertPage]
  split
  · rename_i page hpage
    exact ⟨page, hpage⟩
  · exact ⟨_, Function.update_self ..⟩

theorem lookupPage_insertPage_of_some {brd : Brd α} {sector sector' : ℕ} {page : ℕ → α}
    (h : brd.lookupPage sector = some page) :
    (brd.insertPage sector').lookupPage sector = some page := by
  rw [Brd.insertPage]
  split
  · exact h
  · rename_i hnone
    -- only a page that is missing is inserted
    have hne : sector / pageSectors ≠ sector' / pageSectors := by
      intro heq
      rw [Brd.lookupPage, ← heq, ← Brd.lookupPage, h] at hnone
      cases hnone
    exact (Function.update_of_ne hne _ _).trans h

theorem contents_insertPage (brd : Brd α) (sector : ℕ) :
    contents (brd.insertPage sector) = contents brd := by
  funext a
  rw [Brd.insertPage]
  split
  · rfl
  · rename_i hnone
    rw [contents_setPage]
    split
    · -- the new page is as empty as the missing one was
      rename_i hidx
      rw [contents, hidx, show brd.pages (sector / pageSectors) = none from hnone]
      rfl
    · rfl

theorem contents_copyToBrdSetup (brd : Brd α) (sector n : ℕ) :
    contents (brd.copyToBrdSetup sector n) = contents brd := by
  simp only [Brd.copyToBrdSetup]
  split
  · rw [contents_insertPage, contents_insertPage]
  · rw [contents_insertPage]

theorem lookupPage_copyToBrdSetup (brd : Brd α) (sector n : ℕ) :
    (∃ page, (brd.copyToBrdSetup sector n).lookupPage sector = some page) ∧
      (Brd.copyLen sector n < n →
        ∃ page, (brd.copyToBrdSetup sector n).lookupPage (Brd.nextSector sector n) =
          some page) := by
  obtain ⟨page, hpage⟩ := lookupPage_insertPage brd sector
  simp only [Brd.copyToBrdSetup]
  split
  · exact ⟨⟨page, lookupPage_insertPage_of_some hpage⟩, fun _ => lookupPage_insertPage _ _⟩
  · rename_i hall
    exact ⟨⟨page, hpage⟩, fun h => absurd h hall⟩

theorem contents_copyToBrd {brd : Brd α} {sector n : ℕ} (src : ℕ → α) (hn : n ≤ pageSize)
    (hpage : ∃ page, brd.lookupPage sector = some page)
    (hnext : Brd.copyLen sector n < n →
      ∃ page, brd.lookupPage (Brd.nextSector sector n) = some page) :
    ∃ brd', brd.copyToBrd src sector n = some brd' ∧
      contents brd' = overwrite (contents brd) (sector * sectorSize) n src := by
  obtain ⟨page, hpage⟩ := hpage
  have hoff := pageOffset_lt sector
  have hfirst := contents_setPage_overwrite hpage (pageOffset sector) (Brd.copyLen sector n)
    (by rw [Brd.copyLen]; omega) src
  rw [← sector_pos] at hfirst
  rw [Brd.copyToBrd, hpage]
  by_cases hlt : Brd.copyLen sector n < n
  · -- the rest goes to the next page
    obtain ⟨page', hpage'⟩ := hnext hlt
    have hidx := nextSector_page hlt
    have hlook : (brd.setPage sector (overwrite page (pageOffset sector) (Brd.copyLen sector n)
        src)).lookupPage (Brd.nextSector sector n) = some page' := by
      refine (Function.update_of_ne ?_ _ _).trans hpage'
      omega
    have hsecond := contents_setPage_overwrite hlook 0 (n - Brd.copyLen sector n) (by omega)
      fun i => src (i + Brd.copyLen sector n)
    rw [hidx, Nat.add_zero, next_page_pos hlt, hfirst, overwrite_append,
      Nat.add_sub_cancel' hlt.le] at hsecond
    simp only [Option.bind_eq_bind, Option.bind_some, if_pos hlt, hlook]
    exact ⟨_, rfl, hsecond⟩
  · -- all bytes are in one page
    have hall := copyLen_of_not_lt hlt
    rw [hall] at hfirst
    simp only [Option.bind_eq_bind, Option.bind_some, hall, Nat.lt_irrefl, if_false]
    exact ⟨_, rfl, hfirst⟩

theorem pageBytes_eq (brd : Brd α) (sector offset n : ℕ) (h : offset + n ≤ pageSize) :
    Brd.pageBytes (brd.lookupPage sector) offset n =
      (List.range n).map fun i => contents brd (sector / pageSectors * pageSize + offset + i) := by
  apply List.map_congr_left
  intro i hi
  rw [List.mem_range] at hi
  -- the offset stays inside of the page
  have hdiv : (sector / pageSectors * pageSize + offset + i) / pageSize = sector / pageSectors := by
    refine Nat.div_eq_of_lt_le (by omega) ?_
    rw [Nat.succ_mul]
    omega
  have hmod : (sector / pageSectors * pageSize + offset + i) % pageSize = offset + i := by
    rw [Nat.add_assoc, Nat.mul_add_mod_self_right]
    exact Nat.mod_eq_of_lt (by omega)
  rw [contents, hdiv, hmod]
  rfl

theorem copyFromBrd_eq (brd : Brd α) {sector n : ℕ} (hn : n ≤ pageSize) :
    brd.copyFromBrd sector n =
      (List.range n).map fun i => contents brd (sector * sectorSize + i) := by
  have hoff := pageOffset_lt sector
  have hfirst := pageBytes_eq brd sector (pageOffset sector) (Brd.copyLen sector n)
    (by rw [Brd.copyLen]; omega)
  rw [← sector_pos] at hfirst
  simp only [Brd.copyFromBrd]
  rw [hfirst]
  split
  · -- the copy goes on in the next page
    rename_i hlt
    rw [pageBytes_eq _ _ _ _ (by omega), nextSector_page hlt, Nat.add_zero, next_page_pos hlt]
    conv_rhs => rw [← Nat.add_sub_cancel' hlt.le, List.range_add, List.map_append, List.map_map]
    simp [Function.comp_def, Nat.add_assoc]
  · rename_i hlt
    rw [copyLen_of_not_lt hlt]

theorem contents_zeroPage (brd : Brd α) (sector : ℕ) :
    contents (brd.zeroPage sector) =
      overwrite (contents brd) (sector / pageSectors * pageSize) pageSize fun _ => 0 := by
  funext a
  have hdiv := Nat.div_add_mod a pageSize
  have hmod := Nat.mod_lt a (show 0 < pageSize by decide)
  -- the range of the page
  have hiff : (sector / pageSectors * pageSize ≤ a ∧
      a < sector / pageSectors * pageSize + pageSize) ↔ a / pageSize = sector / pageSectors := by
    constructor
    · rintro ⟨hlow, hhigh⟩
      exact Nat.div_eq_of_lt_le (by omega) (by rw [Nat.succ_mul]; omega)
    · intro heq
      rw [heq, Nat.mul_comm] at hdiv
      omega
  rw [Brd.zeroPage]
  simp only [overwrite, hiff]
  split
  · rw [contents_setPage]
  · -- a missing page reads as zeros already
    rename_i hnone
    split
    · rename_i hidx
      rw [contents, hidx, show brd.pages (sector / pageSectors) = none from hnone]
      rfl
    · rfl

theorem contents_discardLoop (brd : Brd α) {sector : ℕ} (hsector : sector % pageSectors = 0)
    (rounds : ℕ) :
    contents (brd.discardLoop sector rounds) =
      overwrite (contents brd) (sector * sectorSize) (rounds * pageSize) fun _ => 0 := by
  induction rounds generalizing brd sector with
  | zero => simp [Brd.discardLoop]
  | succ rounds ih =>
    -- whole pages: the next round starts at a page too
    have hnext : (sector + pageSize / sectorSize) % pageSectors = 0 := by
      simp only [pageSectors, pageSize, sectorSize] at hsector ⊢
      omega
    have hpos : sector / pageSectors * pageSize = sector * sectorSize := by
      rw [sector_pos, pageOffset, hsector]
      omega
    have hend : (sector + pageSize / sectorSize) * sectorSize = sector * sectorSize + pageSize := by
      simp only [pageSize, sectorSize]
      omega
    rw [Brd.discardLoop, ih _ hnext, contents_zeroPage, hpos, hend, overwrite_append,
      Nat.succ_mul, Nat.add_comm pageSize]

/-! ## Refinement -/

/-- The disk with the array it should be, and the last reply; `none` stands for a `BUG_ON`. -/
structure DiskSession (α : Type u) where
  brd : Brd α
  array : ℕ → α
  reply : Option (Reply α)

/-- An empty disk -/
def DiskSession.start (capacity : ℕ) : DiskSession α :=
  ⟨⟨fun _ => none, capacity⟩, fun _ => 0, none⟩

/-- The array after a request -/
def applyArray (f : ℕ → α) : Request α → ℕ → α
  | .read _ _ => f
  | .write sector segs => writeArray f (sector * sectorSize) segs
  | .discard sector count => overwrite f (sector * sectorSize) (count * sectorSize) fun _ => 0

/-- The reply that a request should get. One without segments asks for nothing, and fails. -/
def replyArray (f : ℕ → α) : Request α → Reply α
  | .read sector lens =>
    if lens.isEmpty then .eio
    else .done ((List.range lens.sum).map fun i => f (sector * sectorSize + i))
  | .write _ segs => if segs.isEmpty then .eio else .done []
  | .discard _ _ => .done []

/-- A request whose segments fit into pages -/
def diskStep (s : DiskSession α) (req : Request α) : Option (DiskSession α) :=
  if req.Segmented then
    let result := brdMakeRequest s.brd req
    some
      { brd := (result.map Prod.fst).getD s.brd
        array := if req.Beyond s.brd.capacity then s.array else applyArray s.array req
        reply := result.map Prod.snd }
  else none

/-- The request gets the reply it should get, and a discard leaves all other sectors as they are. -/
def Refines (s : DiskSession α) (req : Request α) (s' : DiskSession α) : Prop :=
  s'.reply = some (if req.Beyond s.brd.capacity then .eio else replyArray s.array req) ∧
    ∀ sector count, req = .discard sector count →
      ∀ a, ¬ (sector ≤ a / sectorSize ∧ a / sectorSize < sector + count) →
        contents s'.brd a = contents s.brd a

/-- Segments are whole sectors, and discards whole pages. -/
def Request.Aligned : Request α → Prop
  | read _ lens => ∀ len ∈ lens, sectorSize ∣ len
  | write _ segs => ∀ seg ∈ segs, sectorSize ∣ seg.len
  | discard sector count => pageSectors ∣ sector ∧ pageSectors ∣ count

instance : DecidablePred (Request.Aligned (α := α))
  | .read _ lens => inferInstanceAs (Decidable (∀ len ∈ lens, sectorSize ∣ len))
  | .write _ segs => inferInstanceAs (Decidable (∀ seg ∈ segs, sectorSize ∣ seg.len))
  | .discard sector count =>
    inferInstanceAs (Decidable (pageSectors ∣ sector ∧ pageSectors ∣ count))

theorem readLoop_eq (brd : Brd α) {sector : ℕ} {lens : List ℕ}
    (hlens : ∀ len ∈ lens, len ≤ pageSize) (haligned : ∀ len ∈ lens, sectorSize ∣ len) :
    readLoop brd sector lens =
      (List.range lens.sum).map fun i => contents brd (sector * sectorSize + i) := by
  induction lens generalizing sector with
  | nil => rfl
  | cons len lens ih =>
    rw [List.forall_mem_cons] at hlens haligned
    -- whole sectors: the next segment starts where this one ends
    have hpos := sector_advance sector haligned.1
    rw [readLoop, copyFromBrd_eq brd hlens.1, ih hlens.2 haligned.2, hpos, List.sum_cons,
      List.range_add, List.map_append, List.map_map]
    simp [Function.comp_def, Nat.add_assoc]

theorem writeLoop_spec (brd : Brd α) (sector : ℕ) {segs : List (Segment α)}
    (hsegs : ∀ seg ∈ segs, seg.len ≤ pageSize) (haligned : ∀ seg ∈ segs, sectorSize ∣ seg.len) :
    ∃ brd', writeLoop brd sector segs = some brd' ∧
      contents brd' = writeArray (contents brd) (sector * sectorSize) segs := by
  induction segs generalizing brd sector with
  | nil => exact ⟨brd, rfl, rfl⟩
  | cons seg segs ih =>
    rw [List.forall_mem_cons] at hsegs haligned
    have hpos := sector_advance sector haligned.1
    -- the pages are there before the bytes are copied
    obtain ⟨hpage, hnext⟩ := lookupPage_copyToBrdSetup brd sector seg.len
    obtain ⟨mid, hmid, hcont⟩ := contents_copyToBrd seg.data hsegs.1 hpage hnext
    obtain ⟨brd', hloop, hcont'⟩ := ih mid (sector + seg.len / sectorSize)
      hsegs.2 haligned.2
    refine ⟨brd', ?_, ?_⟩
    · rw [writeLoop, hmid]
      exact hloop
    · rw [hcont', hpos, hcont, contents_copyToBrdSetup]
      rfl

theorem contents_discard (brd : Brd α) {sector count : ℕ} (hsector : pageSectors ∣ sector)
    (hcount : pageSectors ∣ count) :
    contents (brd.discardFromBrd sector (count * sectorSize)) =
      overwrite (contents brd) (sector * sectorSize) (count * sectorSize) fun _ => 0 := by
  have hbytes : count * sectorSize / pageSize * pageSize = count * sectorSize := by
    simp only [pageSectors, sectorSize, pageSize] at hcount ⊢
    omega
  rw [Brd.discardFromBrd, contents_discardLoop brd (Nat.mod_eq_zero_of_dvd hsector), hbytes]

theorem brdMakeRequest_spec (brd : Brd α) {req : Request α} (hseg : req.Segmented)
    (haligned : req.Aligned) :
    ∃ brd', brdMakeRequest brd req =
        some (brd', if req.Beyond brd.capacity then .eio else replyArray (contents brd) req) ∧
      contents brd' =
        if req.Beyond brd.capacity then contents brd else applyArray (contents brd) req := by
  by_cases hbeyond : req.Beyond brd.capacity
  · -- a request beyond the capacity fails and changes nothing
    refine ⟨brd, ?_, (if_pos hbeyond).symm⟩
    simp only [brdMakeRequest, if_pos hbeyond]
  · simp only [brdMakeRequest, if_neg hbeyond]
    cases req with
    | read sector lens =>
      refine ⟨brd, ?_, rfl⟩
      simp only [replyArray, readLoop_eq brd hseg haligned]
    | write sector segs =>
      obtain ⟨brd', hloop, hcont⟩ := writeLoop_spec brd sector hseg haligned
      refine ⟨brd', ?_, hcont⟩
      simp only [replyArray, hloop, Option.map_some]
    | discard sector count =>
      exact ⟨_, rfl, contents_discard brd haligned.1 haligned.2⟩

/-- **Refinement**: on a disk of any capacity, in every sequence of requests with segments of at
    most a page, all of them whole sectors, and discards of whole pages, every request gets the
    reply of the array of sectors, and a discard changes no sector outside of its range. -/
theorem refines_of_aligned (capacity : ℕ) (reqs : List (Request α))
    (h : Along diskStep (fun _ req _ => req.Aligned) (.start capacity) reqs) :
    Along (diskStep (α := α)) Refines (.start capacity) reqs := by
  -- the disk is the array all along
  refine along_of_along (I := fun s => contents s.brd = s.array) ?_ ?_ rfl h
  · intro s req s' hinv hstep haligned
    obtain ⟨hseg, rfl⟩ := of_guard_eq_some hstep
    obtain ⟨brd', hreq, hcont⟩ := brdMakeRequest_spec s.brd hseg haligned
    simp only [hreq, Option.map_some, Option.getD_some]
    rw [hcont, hinv]
  · intro s req s' hinv hstep haligned
    obtain ⟨hseg, rfl⟩ := of_guard_eq_some hstep
    obtain ⟨brd', hreq, hcont⟩ := brdMakeRequest_spec s.brd hseg haligned
    simp only [Refines, hreq, Option.map_some, Option.getD_some]
    refine ⟨by rw [hinv], ?_⟩
    -- a discard leaves the other sectors alone
    rintro sector count rfl a houtside
    rw [hcont]
    split
    · rfl
    · rw [applyArray, overwrite_outside]
      simp only [sectorSize] at houtside ⊢
      omega

/-- Eight sectors of ones from `sector` on, as one segment -/
def onesPage (sector : ℕ) : Request ℕ := .write sector [⟨4096, fun _ => 1⟩]

/-- A page is written across a page boundary, read back and discarded. -/
theorem refines_of_aligned_page :
    Along diskStep Refines (.start 32)
      [onesPage 4, .read 4 [512, 3584], .discard 0 16, .read 0 [4096]] := by
  apply refines_of_aligned
  decide +kernel

/-- Eight sectors are discarded from the middle of a page on: the four sectors before them are
    cleared too, and the last four of them are not. -/
theorem discard_misses :
    ¬ Along diskStep Refines (.start 32) [onesPage 0, .discard 4 8] ∧
      ¬ Along diskStep Refines (.start 32) [onesPage 8, .discard 4 8, .read 8 [512]] := by
  constructor
  · intro h
    have hoff := ((h _ rfl).2 _ rfl).1.2 4 8 rfl 0 (by decide)
    exact absurd hoff (by decide +kernel)
  · intro h
    have hread := (((h _ rfl).2 _ rfl).2 _ rfl).1.1
    exact absurd hread (by decide +kernel)

end NucKernel.Block
