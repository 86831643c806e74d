import Mathlib.Algebra.Group.Nat.Defs
import NucKernel.Library.Ranges
import NucKernel.Library.Runs

/-!
# The write-back cache of mtdblock

Model of `drivers/mtd/mtdblock.c`, which offers a flash device as 512-byte blocks. A block write is
cut at the erase sectors of the flash: a whole sector is erased and programmed at once, a part of a
sector goes to a cache that holds one sector and is written back when another sector needs it.

## Modelling

- `unsigned long` has 32 bits, so the byte position of a block is taken modulo 2^32. The functions
  are called for any block of the device: the capacity that `mtd_blkdevs.c` gives the disk, which
  may be smaller from 4 GiB on, is not modelled.
- The faults of the medium are inputs: each erase and program of a sector succeeds or fails and
  leaves given contents behind. `mtd_erase` and `mtd_write` return an error, or the callback of the
  erase alone reports the failure in `erase.state`, or `retlen` is too small. Reads succeed, except
  beyond the end of the device.
- `cache_size` is the erase size, or 0 for a device without erase. Allocation of the cache succeeds.
-/

namespace NucKernel.Mtd

open NucKernel.Library

variable {α : Type}

/-! ## The device -/

structure Device where
  /-- `mtd->size` -/
  size : ℕ
  /-- `cache_size` -/
  sectSize : ℕ

inductive CacheState
  | empty
  | clean
  | dirty
deriving DecidableEq

inductive Err
  | einval
  | eio
deriving DecidableEq

inductive Fault (α : Type)
  | erase (left : ℕ → α)
  /-- `mtd_erase` returns 0, and `erase.state` becomes `MTD_ERASE_FAILED`. -/
  | eraseState (left : ℕ → α)
  | program (left : ℕ → α)
  /-- `mtd_write` returns 0, and `retlen` is too small. -/
  | short (left : ℕ → α)

/-- `struct mtdblk_dev` with the flash and what the medium will do next -/
structure Mtdblk (α : Type) where
  flash : ℕ → α
  cacheData : ℕ → α
  cacheOffset : ℕ
  cacheState : CacheState
  count : ℕ
  faults : List (Option (Fault α))

namespace Mtdblk

def store (s : Mtdblk α) (pos len : ℕ) (buf : ℕ → α) : Mtdblk α :=
  { s with flash := overwrite s.flash pos len buf, faults := s.faults.tail }

def setState (s : Mtdblk α) (state : CacheState) : Mtdblk α := { s with cacheState := state }

def cacheWrite (s : Mtdblk α) (offset size : ℕ) (buf : ℕ → α) : Mtdblk α :=
  { s with cacheData := overwrite s.cacheData offset size buf, cacheState := .dirty }

end Mtdblk

def andThen (x : Option Err × Mtdblk α) (f : Mtdblk α → Option Err × Mtdblk α) :
    Option Err × Mtdblk α :=
  match x with
  | (some e, s) => (some e, s)
  | (none, s) => f s

/-- A write to the flash. A fault makes it return the first part of `result`, and leaves the second
    part in the range. -/
def writeFlash (result : Fault α → Option Err × (ℕ → α)) (d : Device) (s : Mtdblk α) (pos len : ℕ)
    (buf : ℕ → α) : Option Err × Mtdblk α :=
  if d.size < pos + len then (some .einval, s)
  else
    match s.faults.head?.join with
    | none => (none, s.store pos len buf)
    | some fault => ((result fault).1, s.store pos len (result fault).2)

def eraseWrite (d : Device) (s : Mtdblk α) (pos len : ℕ) (buf : ℕ → α) : Option Err × Mtdblk α :=
  writeFlash (fun
    | .erase left => (some .eio, left)
    -- erase.state is never tested, and the program comes next
    | .eraseState left => (none, left)
    | .program left => (some .eio, left)
    | .short left => (some .eio, left)) d s pos len buf

/-- `mtd_write`, from a caller that ignores `retlen` -/
def mtdWrite (d : Device) (s : Mtdblk α) (pos len : ℕ) (buf : ℕ → α) : Option Err × Mtdblk α :=
  writeFlash (fun
    -- there is no erase that could fail
    | .erase _ => (none, buf)
    | .eraseState _ => (none, buf)
    | .program left => (some .eio, left)
    | .short left => (none, left)) d s pos len buf

def writeCachedData (d : Device) (s : Mtdblk α) : Option Err × Mtdblk α :=
  if s.cacheState ≠ .dirty then (none, s)
  else
    -- after an error the cache stays dirty, for another attempt
    andThen (eraseWrite d s s.cacheOffset d.sectSize s.cacheData) fun s => (none, s.setState .empty)

def fillCache (d : Device) (s : Mtdblk α) (sectStart : ℕ) : Option Err × Mtdblk α :=
  let s := s.setState .empty
  if d.size < sectStart + d.sectSize then (some .einval, s)
  else (none, { s with
    cacheData := fun i => s.flash (sectStart + i)
    cacheOffset := sectStart
    cacheState := .clean })

/-- Make the cache hold a sector, and write back the one that it holds if this is another one. -/
def loadSector (d : Device) (s : Mtdblk α) (sectStart : ℕ) : Option Err × Mtdblk α :=
  andThen
    (if s.cacheState = .dirty ∧ s.cacheOffset ≠ sectStart then writeCachedData d s
      else (none, s)) fun s =>
  if s.cacheState = .empty ∨ s.cacheOffset ≠ sectStart then fillCache d s sectStart else (none, s)

def writePart (d : Device) (s : Mtdblk α) (sectStart offset size : ℕ) (buf : ℕ → α) :
    Option Err × Mtdblk α :=
  andThen (loadSector d s sectStart) fun s => (none, s.cacheWrite offset size buf)

def sectStart (d : Device) (pos : ℕ) : ℕ := pos / d.sectSize * d.sectSize

def chunk (d : Device) (pos len : ℕ) : ℕ := min (d.sectSize - (pos - sectStart d pos)) len

/-- The loop of `do_cached_write` over the sectors. Every round writes at least one byte, so as many
    rounds as there are bytes are enough. -/
def writeLoop (d : Device) : ℕ → Mtdblk α → ℕ → ℕ → (ℕ → α) → Option Err × Mtdblk α
  | 0, s, _, _, _ => (none, s)
  | rounds + 1, s, pos, len, buf =>
    if len = 0 then (none, s)
    else
      let size := chunk d pos len
      andThen
        -- a whole sector goes to the flash directly, past the cache
        (if size = d.sectSize then eraseWrite d s pos size buf
          else writePart d s (sectStart d pos) (pos - sectStart d pos) size buf) fun s =>
      writeLoop d rounds s (pos + size) (len - size) fun i => buf (i + size)

def doCachedWrite (d : Device) (s : Mtdblk α) (pos len : ℕ) (buf : ℕ → α) :
    Option Err × Mtdblk α :=
  if d.sectSize = 0 then mtdWrite d s pos len buf else writeLoop d len s pos len buf

def mtdRead (d : Device) (s : Mtdblk α) (pos len : ℕ) : Except Err (List α) :=
  if d.size < pos + len then .error .einval
  else .ok ((List.range len).map fun i => s.flash (pos + i))

def readPart (d : Device) (s : Mtdblk α) (pos size : ℕ) : Except Err (List α) :=
  -- of the cached sector the flash may be out of date
  if s.cacheState ≠ .empty ∧ s.cacheOffset = sectStart d pos then
    .ok ((List.range size).map fun i => s.cacheData (pos - sectStart d pos + i))
  else mtdRead d s pos size

def readLoop (d : Device) (s : Mtdblk α) : ℕ → ℕ → ℕ → Except Err (List α)
  | 0, _, _ => .ok []
  | rounds + 1, pos, len =>
    if len = 0 then .ok []
    else do
      let size := chunk d pos len
      let part ← readPart d s pos size
      let rest ← readLoop d s rounds (pos + size) (len - size)
      .ok (part ++ rest)

def doCachedRead (d : Device) (s : Mtdblk α) (pos len : ℕ) : Except Err (List α) :=
  if d.sectSize = 0 then mtdRead d s pos len else readLoop d s len pos len

/-- `block<<9` -/
def blockPos (block : ℕ) : ℕ := block * 512 % 2 ^ 32

/-- `mtdblock_readsect` -/
def readsect (d : Device) (s : Mtdblk α) (block : ℕ) : Except Err (List α) :=
  doCachedRead d s (blockPos block) 512

/-- `mtdblock_writesect` -/
def writesect (d : Device) (s : Mtdblk α) (block : ℕ) (buf : ℕ → α) : Option Err × Mtdblk α :=
  doCachedWrite d s (blockPos block) 512 buf

/-- `mtdblock_flush`: the result of the write-back is ignored, and 0 is returned. -/
def flush (d : Device) (s : Mtdblk α) : Option Err × Mtdblk α := (none, (writeCachedData d s).2)

/-! ## What the users see -/

/-- The contents of the device: the flash, with the cached sector while the device is open -/
def view (d : Device) (s : Mtdblk α) : ℕ → α :=
  if s.count ≠ 0 ∧ s.cacheState ≠ .empty then
    overwrite s.flash s.cacheOffset d.sectSize s.cacheData
  else s.flash

/-- A sector that no block holds: it is written in parts only. -/
def Crosses (d : Device) (sectStart : ℕ) : Prop :=
  ∀ block, ¬ (block * 512 ≤ sectStart ∧ sectStart + d.sectSize ≤ (block + 1) * 512)

/-- The caller of the write gets to know of the fault. -/
def Fault.Reported (d : Device) : Fault α → Prop
  | .erase _ => True
  | .eraseState _ => d.sectSize = 0
  | .program _ => True
  | .short _ => d.sectSize ≠ 0

/-- Between two calls the cache is empty or holds a changed sector of the device that crosses a
    block, and no fault will go unreported. -/
structure Coherent (d : Device) (s : Mtdblk α) : Prop where
  isOpen : s.count ≠ 0
  not_clean : s.cacheState ≠ .clean
  aligned : s.cacheState = .dirty → d.sectSize ∣ s.cacheOffset
  crosses : s.cacheState = .dirty → Crosses d s.cacheOffset
  inside : s.cacheState = .dirty → s.cacheOffset + d.sectSize ≤ d.size
  reported : ∀ fault, some fault ∈ s.faults → fault.Reported d

section Spec

variable {d : Device} {s : Mtdblk α}

theorem view_of_empty (h : s.cacheState = .empty) : view d s = s.flash :=
  if_neg fun hcached => hcached.2 h

theorem view_of_cached (hopen : s.count ≠ 0) (h : s.cacheState ≠ .empty) :
    view d s = overwrite s.flash s.cacheOffset d.sectSize s.cacheData := if_pos ⟨hopen, h⟩

theorem Coherent.dirty_of_ne (hc : Coherent d s) (h : s.cacheState ≠ .empty) :
    s.cacheState = .dirty := by
  have hclean := hc.not_clean
  cases hs : s.cacheState with
  | empty => exact absurd hs h
  | clean => exact absurd hs hclean
  | dirty => rfl

theorem Coherent.empty_of_noErase (hc : Coherent d s) (hS : d.sectSize = 0) :
    s.cacheState = .empty := by
  by_contra hne
  have hcross := hc.crosses (hc.dirty_of_ne hne) (s.cacheOffset / 512)
  rw [hS] at hcross
  exact hcross ⟨by omega, by omega⟩

theorem Coherent.of_empty (hopen : s.count ≠ 0) (h : s.cacheState = .empty)
    (hreported : ∀ fault, some fault ∈ s.faults → fault.Reported d) : Coherent d s := by
  have hdirty : s.cacheState ≠ .dirty := by rw [h]; decide
  exact ⟨hopen, by rw [h]; decide, fun hs => absurd hs hdirty, fun hs => absurd hs hdirty,
    fun hs => absurd hs hdirty, hreported⟩

structure SameCache (s' s : Mtdblk α) : Prop where
  count : s'.count = s.count
  state : s'.cacheState = s.cacheState
  offset : s'.cacheOffset = s.cacheOffset
  data : s'.cacheData = s.cacheData
  faults : s'.faults ⊆ s.faults

theorem SameCache.store (s : Mtdblk α) (pos len : ℕ) (left : ℕ → α) :
    SameCache (s.store pos len left) s :=
  ⟨rfl, rfl, rfl, rfl, fun _ => List.mem_of_mem_tail⟩

theorem Coherent.of_sameCache {s' : Mtdblk α} (hc : Coherent d s) (h : SameCache s' s) :
    Coherent d s' := by
  refine ⟨?_, ?_, ?_, ?_, ?_, fun fault hmem => hc.reported fault (h.faults hmem)⟩
  · rw [h.count]
    exact hc.isOpen
  · rw [h.state]
    exact hc.not_clean
  all_goals rw [h.state, h.offset]
  · exact hc.aligned
  · exact hc.crosses
  · exact hc.inside

/-! ## Writing to the flash -/

section WriteFlash

variable {result : Fault α → Option Err × (ℕ → α)} {pos len : ℕ}

theorem writeFlash_ok (buf : ℕ → α) (h : pos + len ≤ d.size)
    (hfault : s.faults.head?.join = none) :
    writeFlash result d s pos len buf = (none, s.store pos len buf) := by
  rw [writeFlash, if_neg (Nat.not_lt.mpr h), hfault]

/-- A write to the flash changes its range only, and has succeeded if no fault is passed over. -/
theorem writeFlash_cases (d : Device) (s : Mtdblk α) (buf : ℕ → α)
    (hresult : ∀ fault, some fault ∈ s.faults →
      (result fault).1 = none → (result fault).2 = buf) :
    writeFlash result d s pos len buf = (none, s.store pos len buf) ∧ pos + len ≤ d.size ∨
      ∃ e s' left, writeFlash result d s pos len buf = (some e, s') ∧ SameCache s' s ∧
        s'.flash = overwrite s.flash pos len left := by
  unfold writeFlash
  split
  · -- nothing is written beyond the end of the device
    exact Or.inr ⟨.einval, s, fun i => s.flash (pos + i), rfl,
      ⟨rfl, rfl, rfl, rfl, List.Subset.refl _⟩, (overwrite_self _ _ _).symm⟩
  · rename_i hsize
    split
    · exact Or.inl ⟨rfl, Nat.not_lt.mp hsize⟩
    · rename_i fault hfault
      have hmem : some fault ∈ s.faults :=
        List.mem_of_mem_head? (Option.join_eq_some_iff.mp hfault)
      cases hr : (result fault).1 with
      | none =>
        -- the fault is passed over, so nothing is wrong with the contents
        rw [hresult fault hmem hr]
        exact Or.inl ⟨rfl, Nat.not_lt.mp hsize⟩
      | some e => exact Or.inr ⟨e, _, _, rfl, .store s pos len _, rfl⟩

end WriteFlash

theorem eraseWrite_cases (hc : Coherent d s) (hS : d.sectSize ≠ 0) (pos len : ℕ) (buf : ℕ → α) :
    eraseWrite d s pos len buf = (none, s.store pos len buf) ∧ pos + len ≤ d.size ∨
      ∃ e s' left, eraseWrite d s pos len buf = (some e, s') ∧ SameCache s' s ∧
        s'.flash = overwrite s.flash pos len left := by
  refine writeFlash_cases d s buf fun fault hmem hnone => ?_
  cases fault with
  | eraseState left => exact absurd (hc.reported _ hmem) hS
  | erase left => cases hnone
  | program left => cases hnone
  | short left => cases hnone

theorem mtdWrite_cases (hc : Coherent d s) (hS : d.sectSize = 0) (pos len : ℕ) (buf : ℕ → α) :
    mtdWrite d s pos len buf = (none, s.store pos len buf) ∧ pos + len ≤ d.size ∨
      ∃ e s' left, mtdWrite d s pos len buf = (some e, s') ∧ SameCache s' s ∧
        s'.flash = overwrite s.flash pos len left := by
  refine writeFlash_cases d s buf fun fault hmem hnone => ?_
  cases fault with
  | short left => exact absurd hS (hc.reported _ hmem)
  | erase left => rfl
  | eraseState left => rfl
  | program left => cases hnone

theorem writeCachedData_spec (hc : Coherent d s) :
    Coherent d (writeCachedData d s).2 ∧ view d (writeCachedData d s).2 = view d s ∧
      ((writeCachedData d s).1 = none → (writeCachedData d s).2.cacheState = .empty) := by
  unfold writeCachedData
  by_cases hdirty : s.cacheState = .dirty
  · have hview : view d s = overwrite s.flash s.cacheOffset d.sectSize s.cacheData :=
      view_of_cached hc.isOpen (by rw [hdirty]; decide)
    have hS : d.sectSize ≠ 0 := fun hS =>
      absurd (hdirty.symm.trans (hc.empty_of_noErase hS)) (by decide)
    rw [if_neg (not_not_intro hdirty)]
    obtain ⟨hok, -⟩ | ⟨e, s', left, herr, hsame, hflash⟩ :=
      eraseWrite_cases hc hS s.cacheOffset d.sectSize s.cacheData
    · rw [hok]
      have hstored := hc.of_sameCache (.store s s.cacheOffset d.sectSize s.cacheData)
      -- the flash holds now what the cache held
      have hempty : ((s.store s.cacheOffset d.sectSize s.cacheData).setState .empty).cacheState =
          .empty := rfl
      exact ⟨.of_empty hc.isOpen hempty hstored.reported,
        (view_of_empty hempty).trans hview.symm, fun _ => hempty⟩
    · -- the flash is damaged where the cache lies over it
      rw [herr, hview]
      have hc' := hc.of_sameCache hsame
      refine ⟨hc', ?_, fun h => nomatch h⟩
      have hdirty' : s'.cacheState ≠ .empty := by rw [hsame.state, hdirty]; decide
      have hview' := view_of_cached (d := d) hc'.isOpen hdirty'
      rw [hsame.offset, hsame.data, hflash, overwrite_overwrite] at hview'
      exact hview'
  · -- the cache is empty already
    rw [if_pos hdirty]
    refine ⟨hc, rfl, fun _ => ?_⟩
    by_contra hne
    exact hdirty (hc.dirty_of_ne hne)

/-! ## Writing a part of a sector -/

/-- The cache holds a sector of the device, and with it the users see `v`. -/
structure Loaded (d : Device) (s : Mtdblk α) (sectStart : ℕ) (v : ℕ → α) : Prop where
  isOpen : s.count ≠ 0
  offset : s.cacheOffset = sectStart
  inside : sectStart + d.sectSize ≤ d.size
  contents : overwrite s.flash sectStart d.sectSize s.cacheData = v
  reported : ∀ fault, some fault ∈ s.faults → fault.Reported d

theorem Loaded.write {sectStart offset size : ℕ} {v : ℕ → α} (buf : ℕ → α)
    (h : Loaded d s sectStart v) (haligned : d.sectSize ∣ sectStart) (hcross : Crosses d sectStart)
    (hfit : offset + size ≤ d.sectSize) :
    Coherent d (s.cacheWrite offset size buf) ∧
      view d (s.cacheWrite offset size buf) = overwrite v (sectStart + offset) size buf := by
  have hdirty : (s.cacheWrite offset size buf).cacheState = .dirty := rfl
  have hoffset : (s.cacheWrite offset size buf).cacheOffset = sectStart := h.offset
  refine ⟨⟨h.isOpen, by rw [hdirty]; decide, ?_, ?_, ?_, h.reported⟩, ?_⟩
  · intro _
    rw [hoffset]
    exact haligned
  · intro _
    rw [hoffset]
    exact hcross
  · intro _
    rw [hoffset]
    exact h.inside
  · have hview : view d (s.cacheWrite offset size buf) = overwrite s.flash s.cacheOffset
        d.sectSize (overwrite s.cacheData offset size buf) :=
      view_of_cached (s := s.cacheWrite offset size buf) h.isOpen (by rw [hdirty]; decide)
    rw [hview, h.offset, ← h.contents, overwrite_within _ _ _ _ _ hfit]

theorem fillCache_cases (hc : Coherent d s) (hempty : s.cacheState = .empty) (sectStart : ℕ) :
    (∃ s', fillCache d s sectStart = (none, s') ∧ Loaded d s' sectStart (view d s)) ∨
      ∃ e s', fillCache d s sectStart = (some e, s') ∧ Coherent d s' ∧ view d s' = view d s := by
  unfold fillCache
  dsimp only
  split
  · -- the sector is cut off by the end of the device
    right
    refine ⟨.einval, s.setState .empty, rfl, .of_empty hc.isOpen rfl hc.reported, ?_⟩
    rw [view_of_empty hempty]
    exact view_of_empty rfl
  · rename_i hsize
    left
    -- the cache holds what the flash holds
    refine ⟨_, rfl, hc.isOpen, rfl, Nat.not_lt.mp hsize, ?_, hc.reported⟩
    rw [view_of_empty hempty]
    exact overwrite_self _ _ _

/-- What a write of a range does: it replaces the range in the view, or returns an error and leaves
    everything else as it was. -/
structure Wrote (d : Device) (s : Mtdblk α) (pos len : ℕ) (buf : ℕ → α)
    (r : Option Err × Mtdblk α) : Prop where
  coherent : Coherent d r.2
  done : r.1 = none → view d r.2 = overwrite (view d s) pos len buf
  frame : ∀ a, ¬ (pos ≤ a ∧ a < pos + len) → view d r.2 a = view d s a

theorem Wrote.of_done {pos len : ℕ} {buf : ℕ → α} {s' : Mtdblk α} (hc : Coherent d s')
    (h : view d s' = overwrite (view d s) pos len buf) : Wrote d s pos len buf (none, s') :=
  ⟨hc, fun _ => h, fun _ ha => (congrFun h _).trans (overwrite_outside _ _ _ _ ha)⟩

theorem Wrote.of_error {pos len : ℕ} {buf : ℕ → α} {e : Err} {s' : Mtdblk α} (hc : Coherent d s')
    (h : ∀ a, ¬ (pos ≤ a ∧ a < pos + len) → view d s' a = view d s a) :
    Wrote d s pos len buf (some e, s') :=
  ⟨hc, (fun hnone => nomatch hnone), h⟩

theorem loadSector_cases (hc : Coherent d s) (sectStart : ℕ) :
    (∃ s', loadSector d s sectStart = (none, s') ∧ Loaded d s' sectStart (view d s)) ∨
      ∃ e s', loadSector d s sectStart = (some e, s') ∧ Coherent d s' ∧ view d s' = view d s := by
  unfold loadSector
  by_cases hdirty : s.cacheState = .dirty
  · by_cases hoffset : s.cacheOffset = sectStart
    · -- the sector is in the cache already
      left
      have hne : s.cacheState ≠ .empty := by rw [hdirty]; decide
      refine ⟨s, ?_, hc.isOpen, hoffset, ?_, ?_, hc.reported⟩
      · simp [andThen, hoffset, hne]
      · rw [← hoffset]
        exact hc.inside hdirty
      · rw [view_of_cached hc.isOpen hne, hoffset]
    · -- another sector is written back first, which may fail
      rw [if_pos ⟨hdirty, hoffset⟩]
      obtain ⟨hc', hview, hempty⟩ := writeCachedData_spec hc
      obtain ⟨r, s₁, hr⟩ : ∃ r s₁, writeCachedData d s = (r, s₁) := ⟨_, _, rfl⟩
      rw [hr] at hc' hview hempty ⊢
      cases r with
      | none =>
        rw [← hview]
        dsimp only [andThen]
        rw [if_pos (Or.inl (hempty rfl))]
        exact fillCache_cases hc' (hempty rfl) sectStart
      | some e => exact Or.inr ⟨e, s₁, rfl, hc', hview⟩
  · -- the cache is empty
    have hempty : s.cacheState = .empty := by
      by_contra hne
      exact hdirty (hc.dirty_of_ne hne)
    rw [if_neg fun h => hdirty h.1]
    dsimp only [andThen]
    rw [if_pos (Or.inl hempty)]
    exact fillCache_cases hc hempty sectStart

theorem writePart_spec {sectStart offset size : ℕ} (buf : ℕ → α) (hc : Coherent d s)
    (haligned : d.sectSize ∣ sectStart) (hcross : Crosses d sectStart)
    (hfit : offset + size ≤ d.sectSize) :
    Wrote d s (sectStart + offset) size buf (writePart d s sectStart offset size buf) := by
  unfold writePart
  obtain ⟨s', hload, hloaded⟩ | ⟨e, s', hload, hc', hview⟩ := loadSector_cases hc sectStart
  · rw [hload]
    obtain ⟨hcoherent, hwritten⟩ := hloaded.write buf haligned hcross hfit
    exact .of_done hcoherent hwritten
  · rw [hload]
    exact .of_error hc' fun a _ => congrFun hview a

/-! ## Writing a whole sector -/

theorem sectors_disjoint {S a b : ℕ} (ha : S ∣ a) (hb : S ∣ b) (hne : a ≠ b) :
    a + S ≤ b ∨ b + S ≤ a := by
  obtain ⟨i, rfl⟩ := ha
  obtain ⟨j, rfl⟩ := hb
  have hij : i ≠ j := fun h => hne (by rw [h])
  rcases Nat.lt_or_gt_of_ne hij with h | h
  · left
    calc S * i + S = S * (i + 1) := (Nat.mul_succ S i).symm
      _ ≤ S * j := Nat.mul_le_mul_left S h
  · right
    calc S * j + S = S * (j + 1) := (Nat.mul_succ S j).symm
      _ ≤ S * i := Nat.mul_le_mul_left S h

theorem view_store {s' : Mtdblk α} {pos len : ℕ} {left : ℕ → α} (hc : Coherent d s)
    (hsame : SameCache s' s) (hflash : s'.flash = overwrite s.flash pos len left)
    (hdisjoint : s.cacheState = .dirty →
      pos + len ≤ s.cacheOffset ∨ s.cacheOffset + d.sectSize ≤ pos) :
    view d s' = overwrite (view d s) pos len left := by
  by_cases hempty : s.cacheState = .empty
  · rw [view_of_empty hempty, view_of_empty (hsame.state.trans hempty), hflash]
  · have hdirty := hc.dirty_of_ne hempty
    have hempty' : s'.cacheState ≠ .empty := by rw [hsame.state]; exact hempty
    have hopen' : s'.count ≠ 0 := by rw [hsame.count]; exact hc.isOpen
    rw [view_of_cached hc.isOpen hempty, view_of_cached hopen' hempty', hsame.offset, hsame.data,
      hflash]
    exact overwrite_comm _ _ _ _ _ (hdisjoint hdirty)

theorem Wrote.of_cases {pos len : ℕ} {buf : ℕ → α} {r : Option Err × Mtdblk α} (hc : Coherent d s)
    (hcases : r = (none, s.store pos len buf) ∧ pos + len ≤ d.size ∨
      ∃ e s' left, r = (some e, s') ∧ SameCache s' s ∧ s'.flash = overwrite s.flash pos len left)
    (hdisjoint : s.cacheState = .dirty →
      pos + len ≤ s.cacheOffset ∨ s.cacheOffset + d.sectSize ≤ pos) :
    Wrote d s pos len buf r := by
  -- the write has succeeded, or it has damaged its own range
  obtain ⟨rfl, -⟩ | ⟨e, s', left, rfl, hsame, hflash⟩ := hcases
  · have hsame := SameCache.store s pos len buf
    exact .of_done (hc.of_sameCache hsame) (view_store hc hsame rfl hdisjoint)
  · refine .of_error (hc.of_sameCache hsame) fun a ha => ?_
    rw [view_store hc hsame hflash hdisjoint]
    exact overwrite_outside _ _ _ _ ha

/-! ## Writing a block -/

theorem Wrote.andThen {pos n m : ℕ} {buf : ℕ → α} {x : Option Err × Mtdblk α}
    {f : Mtdblk α → Option Err × Mtdblk α} (hx : Wrote d s pos n buf x)
    (hf : Wrote d x.2 (pos + n) m (fun i => buf (i + n)) (f x.2)) :
    Wrote d s pos (n + m) buf (andThen x f) := by
  obtain ⟨r, s'⟩ := x
  cases r with
  -- an error ends the loop
  | some e => exact .of_error hx.coherent fun a ha => hx.frame a (by omega)
  | none =>
    refine ⟨hf.coherent, ?_, ?_⟩
    · intro hnone
      rw [Mtd.andThen, hf.done hnone, hx.done rfl, overwrite_append]
    · intro a ha
      exact (hf.frame a (by omega)).trans (hx.frame a (by omega))

theorem sectStart_spec (hS : 0 < d.sectSize) (pos : ℕ) :
    d.sectSize ∣ sectStart d pos ∧ sectStart d pos ≤ pos ∧ pos < sectStart d pos + d.sectSize := by
  have hmod : pos % d.sectSize < d.sectSize := Nat.mod_lt _ hS
  have hdiv := Nat.div_add_mod' pos d.sectSize
  unfold sectStart
  exact ⟨Nat.dvd_mul_left _ _, by omega, by omega⟩

theorem sectStart_of_dvd {pos : ℕ} (h : d.sectSize ∣ pos) : sectStart d pos = pos :=
  Nat.div_mul_cancel h

theorem chunk_spec {pos len : ℕ} (hS : 0 < d.sectSize) (hlen : len ≠ 0) :
    0 < chunk d pos len ∧ chunk d pos len ≤ len ∧
      pos + chunk d pos len ≤ sectStart d pos + d.sectSize ∧
      (len - chunk d pos len ≠ 0 → d.sectSize ∣ pos + chunk d pos len) := by
  obtain ⟨hdvd, hle, hlt⟩ := sectStart_spec hS pos
  unfold chunk
  refine ⟨by omega, by omega, by omega, ?_⟩
  intro hrest
  -- the piece ends with the sector
  have hnext : pos + min (d.sectSize - (pos - sectStart d pos)) len =
      sectStart d pos + d.sectSize := by omega
  rw [hnext]
  exact Nat.dvd_add hdvd (Nat.dvd_refl _)

/-- The loop is at a byte of a block, at its start or at the start of a sector, with the rest of the
    block to be written. -/
structure AtBlock (d : Device) (block pos len : ℕ) : Prop where
  sect_pos : 0 < d.sectSize
  low : block * 512 ≤ pos
  rest : pos + len = (block + 1) * 512
  start : len ≠ 0 → pos = block * 512 ∨ d.sectSize ∣ pos

theorem AtBlock.next {block pos len : ℕ} (h : AtBlock d block pos len) (hlen : len ≠ 0) :
    AtBlock d block (pos + chunk d pos len) (len - chunk d pos len) := by
  obtain ⟨hpos, hle, -, hnext⟩ := @chunk_spec d pos len h.sect_pos hlen
  have hlow := h.low
  have hrest := h.rest
  exact ⟨h.sect_pos, by omega, by omega, fun hmore => Or.inr (hnext hmore)⟩

/-- A whole sector does not meet the cached one, and a part of a sector belongs to one that crosses
    a block. -/
theorem round_spec {block pos len : ℕ} (buf : ℕ → α) (hc : Coherent d s)
    (h : AtBlock d block pos len) (hlen : len ≠ 0) :
    Wrote d s pos (chunk d pos len) buf
      (if chunk d pos len = d.sectSize then eraseWrite d s pos (chunk d pos len) buf
        else writePart d s (sectStart d pos) (pos - sectStart d pos) (chunk d pos len) buf) := by
  obtain ⟨hdvd, hle, hlt⟩ := sectStart_spec h.sect_pos pos
  obtain ⟨-, hchunk, hfit, -⟩ := @chunk_spec d pos len h.sect_pos hlen
  have hlow := h.low
  have hrest := h.rest
  by_cases hwhole : chunk d pos len = d.sectSize
  · -- a whole sector is written directly
    have hpos : pos = sectStart d pos := by omega
    rw [if_pos hwhole, hwhole]
    refine .of_cases hc (eraseWrite_cases hc (Nat.ne_of_gt h.sect_pos) _ _ buf) fun hdirty => ?_
    -- the sector lies in this block, so it is not one that is cached
    have hne : pos ≠ s.cacheOffset := by
      intro heq
      exact hc.crosses hdirty block ⟨by omega, by omega⟩
    exact sectors_disjoint (hpos ▸ hdvd) (hc.aligned hdirty) hne
  · -- a sector within one block would have been written whole
    have hcross : Crosses d (sectStart d pos) := by
      rintro block' ⟨hfrom, hto⟩
      have hsize : chunk d pos len = min (d.sectSize - (pos - sectStart d pos)) len := rfl
      rcases h.start hlen with hfirst | hnext
      · omega
      · have hsect := sectStart_of_dvd hnext
        omega
    have hplace : sectStart d pos + (pos - sectStart d pos) = pos := by omega
    have hpart := writePart_spec buf hc hdvd hcross
      (show pos - sectStart d pos + chunk d pos len ≤ d.sectSize by omega)
    rw [hplace] at hpart
    rw [if_neg hwhole]
    exact hpart

/-- Induction on the rounds: the part written so far and the rest join to the whole range. -/
theorem writeLoop_spec {block rounds pos len : ℕ} (buf : ℕ → α) (hc : Coherent d s)
    (h : AtBlock d block pos len) (hrounds : len ≤ rounds) :
    Wrote d s pos len buf (writeLoop d rounds s pos len buf) := by
  induction rounds generalizing s pos len buf with
  | zero =>
    obtain rfl : len = 0 := by omega
    exact .of_done hc (overwrite_zero _ _ _).symm
  | succ rounds ih =>
    rw [writeLoop]
    split
    · rename_i hzero
      subst hzero
      exact .of_done hc (overwrite_zero _ _ _).symm
    · rename_i hlen
      obtain ⟨hpos, hle, -, -⟩ := @chunk_spec d pos len h.sect_pos hlen
      have hround := round_spec buf hc h hlen
      -- the rest of the range begins where the piece ends
      have hrest := ih (fun i => buf (i + chunk d pos len)) hround.coherent (h.next hlen) (by omega)
      have hwrote := hround.andThen (f := fun s => writeLoop d rounds s (pos + chunk d pos len)
        (len - chunk d pos len) fun i => buf (i + chunk d pos len)) hrest
      rwa [show chunk d pos len + (len - chunk d pos len) = len from by omega] at hwrote

theorem blockPos_eq {block : ℕ} (h : block < 2 ^ 23) : blockPos block = block * 512 :=
  Nat.mod_eq_of_lt (by omega)

/-- **Block write**: below 4 GiB a block is written, or an error is returned and the other blocks
    are as they were. -/
theorem writesect_spec {block : ℕ} (buf : ℕ → α) (hc : Coherent d s) (hblock : block < 2 ^ 23) :
    Wrote d s (block * 512) 512 buf (writesect d s block buf) := by
  rw [writesect, doCachedWrite, blockPos_eq hblock]
  split
  · rename_i hS
    refine .of_cases hc (mtdWrite_cases hc hS _ _ buf) fun hdirty => ?_
    exact absurd (hdirty.symm.trans (hc.empty_of_noErase hS)) (by decide)
  · rename_i hS
    exact writeLoop_spec buf hc ⟨by omega, Nat.le_refl _, by omega, fun _ => Or.inl rfl⟩
      (Nat.le_refl _)

/-! ## No error without a fault -/

theorem writeCachedData_ok (hc : Coherent d s)
    (hfault : s.cacheState = .dirty → s.faults.head?.join = none) :
    (writeCachedData d s).1 = none := by
  unfold writeCachedData
  split
  · rfl
  · rename_i hdirty
    have hdirty := not_not.mp hdirty
    rw [eraseWrite, writeFlash_ok _ (hc.inside hdirty) (hfault hdirty)]
    rfl

/-- Nothing has failed, and nothing will. -/
structure Quiet (r : Option Err × Mtdblk α) : Prop where
  ok : r.1 = none
  faults : r.2.faults = []

theorem writeFlash_quiet {result : Fault α → Option Err × (ℕ → α)} {pos len : ℕ} (buf : ℕ → α)
    (h : pos + len ≤ d.size) (hfaults : s.faults = []) :
    Quiet (writeFlash result d s pos len buf) := by
  rw [writeFlash_ok buf h (by rw [hfaults]; rfl)]
  exact ⟨rfl, by simp [Mtdblk.store, hfaults]⟩

theorem Quiet.andThen {x : Option Err × Mtdblk α} {f : Mtdblk α → Option Err × Mtdblk α}
    (hx : Quiet x) (hf : Quiet (f x.2)) : Quiet (andThen x f) := by
  obtain ⟨r, s'⟩ := x
  cases hx.ok
  exact hf

theorem writeCachedData_quiet (hc : Coherent d s) (hfaults : s.faults = []) :
    Quiet (writeCachedData d s) := by
  unfold writeCachedData
  split
  · exact ⟨rfl, hfaults⟩
  · rename_i hdirty
    have hok : Quiet (eraseWrite d s s.cacheOffset d.sectSize s.cacheData) :=
      writeFlash_quiet s.cacheData (hc.inside (not_not.mp hdirty)) hfaults
    exact hok.andThen ⟨rfl, hok.faults⟩

theorem loadSector_quiet {sectStart : ℕ} (hc : Coherent d s) (hfaults : s.faults = [])
    (hin : sectStart + d.sectSize ≤ d.size) : Quiet (loadSector d s sectStart) := by
  -- the sector can be read, whatever has been written back before
  have hback : ∀ x : Option Err × Mtdblk α, Quiet x →
      Quiet (andThen x fun s => if s.cacheState = .empty ∨ s.cacheOffset ≠ sectStart then
        fillCache d s sectStart else (none, s)) := by
    intro x hx
    refine hx.andThen ?_
    split
    · rw [fillCache, if_neg (by omega)]
      exact ⟨rfl, hx.faults⟩
    · exact ⟨rfl, hx.faults⟩
  apply hback
  split
  · exact writeCachedData_quiet hc hfaults
  · exact ⟨rfl, hfaults⟩

def InSectors (d : Device) (pos len : ℕ) : Prop :=
  ∀ a, pos ≤ a → a < pos + len → sectStart d a + d.sectSize ≤ d.size

theorem round_quiet {pos len : ℕ} (buf : ℕ → α) (hc : Coherent d s) (hS : 0 < d.sectSize)
    (hlen : len ≠ 0) (hfaults : s.faults = []) (hin : InSectors d pos len) :
    Quiet (if chunk d pos len = d.sectSize then eraseWrite d s pos (chunk d pos len) buf
      else writePart d s (sectStart d pos) (pos - sectStart d pos) (chunk d pos len) buf) := by
  obtain ⟨-, -, hfit, -⟩ := @chunk_spec d pos len hS hlen
  have hsector := hin pos (Nat.le_refl pos) (by omega)
  split
  · exact writeFlash_quiet buf (by omega) hfaults
  · have hload := loadSector_quiet hc hfaults hsector
    exact hload.andThen ⟨rfl, hload.faults⟩

theorem writeLoop_quiet {block rounds pos len : ℕ} (buf : ℕ → α) (hc : Coherent d s)
    (h : AtBlock d block pos len) (hfaults : s.faults = []) (hin : InSectors d pos len) :
    Quiet (writeLoop d rounds s pos len buf) := by
  induction rounds generalizing s pos len buf with
  | zero => exact ⟨rfl, hfaults⟩
  | succ rounds ih =>
    rw [writeLoop]
    split
    · exact ⟨rfl, hfaults⟩
    · -- the bytes of the rest lie in sectors of the device, too
      rename_i hlen
      obtain ⟨hpos, hle, -, -⟩ := @chunk_spec d pos len h.sect_pos hlen
      have hok := round_quiet buf hc h.sect_pos hlen hfaults hin
      refine hok.andThen (ih _ (round_spec buf hc h hlen).coherent (h.next hlen) hok.faults ?_)
      intro a hlow hhigh
      exact hin a (by omega) (by omega)

theorem writesect_quiet {block : ℕ} (buf : ℕ → α) (hc : Coherent d s) (hblock : block < 2 ^ 23)
    (hsize : (block + 1) * 512 ≤ d.size) (hfaults : s.faults = [])
    (hin : InSectors d (block * 512) 512) : (writesect d s block buf).1 = none := by
  rw [writesect, doCachedWrite, blockPos_eq hblock]
  split
  · exact (writeFlash_quiet buf (by omega) hfaults).ok
  · exact (writeLoop_quiet buf hc ⟨by omega, Nat.le_refl _, by omega, fun _ => Or.inl rfl⟩ hfaults
      hin).ok

/-! ## Reading a block -/

theorem map_range_append (v : ℕ → α) (pos n m : ℕ) :
    (List.range n).map (fun i => v (pos + i)) ++ (List.range m).map (fun i => v (pos + n + i)) =
      (List.range (n + m)).map fun i => v (pos + i) := by
  rw [List.range_add, List.map_append, List.map_map]
  simp only [Function.comp_def, Nat.add_assoc]

theorem readPart_spec {pos size : ℕ} (hc : Coherent d s) (hS : 0 < d.sectSize)
    (hfit : pos + size ≤ sectStart d pos + d.sectSize) (hin : pos + size ≤ d.size) :
    readPart d s pos size = .ok ((List.range size).map fun i => view d s (pos + i)) := by
  obtain ⟨hdvd, hle, hlt⟩ := sectStart_spec hS pos
  unfold readPart
  by_cases hempty : s.cacheState = .empty
  · rw [if_neg fun h => h.1 hempty, mtdRead, if_neg (by omega), view_of_empty hempty]
  · rw [view_of_cached hc.isOpen hempty]
    by_cases hoffset : s.cacheOffset = sectStart d pos
    · -- the bytes come from the cache
      rw [if_pos ⟨hempty, hoffset⟩, hoffset]
      congr 1
      apply List.map_congr_left
      intro i hi
      have hi := List.mem_range.mp hi
      rw [overwrite_inside _ _ _ _ (by omega)]
      congr 1
      omega
    · -- another sector is cached, which the range does not meet
      rw [if_neg fun h => hoffset h.2, mtdRead, if_neg (by omega)]
      congr 1
      apply List.map_congr_left
      intro i hi
      have hi := List.mem_range.mp hi
      have hapart := sectors_disjoint (hc.aligned (hc.dirty_of_ne hempty)) hdvd hoffset
      rw [overwrite_outside _ _ _ _ (by omega)]

theorem readLoop_spec {rounds pos len : ℕ} (hc : Coherent d s) (hS : 0 < d.sectSize)
    (hin : pos + len ≤ d.size) (hrounds : len ≤ rounds) :
    readLoop d s rounds pos len = .ok ((List.range len).map fun i => view d s (pos + i)) := by
  induction rounds generalizing pos len with
  | zero =>
    obtain rfl : len = 0 := by omega
    rfl
  | succ rounds ih =>
    rw [readLoop]
    split
    · rename_i hzero
      rw [hzero]
      rfl
    · rename_i hlen
      obtain ⟨hpos, hle, hfit, -⟩ := @chunk_spec d pos len hS hlen
      have hpart := readPart_spec hc hS hfit (show pos + chunk d pos len ≤ d.size by omega)
      dsimp only
      rw [hpart, ih (by omega) (by omega)]
      have hsum := map_range_append (view d s) pos (chunk d pos len) (len - chunk d pos len)
      rw [show chunk d pos len + (len - chunk d pos len) = len from by omega] at hsum
      exact congrArg Except.ok hsum

theorem readsect_spec {block : ℕ} (hc : Coherent d s) (hblock : block < 2 ^ 23)
    (hsize : (block + 1) * 512 ≤ d.size) :
    readsect d s block = .ok ((List.range 512).map fun i => view d s (block * 512 + i)) := by
  rw [readsect, doCachedRead, blockPos_eq hblock]
  split
  · rename_i hS
    rw [mtdRead, if_neg (by omega), view_of_empty (hc.empty_of_noErase hS)]
  · exact @readLoop_spec α d s 512 (block * 512) 512 hc (by omega) (by omega) (Nat.le_refl 512)

end Spec

/-! ## Refinement -/

/-- The device, with the contents that it should have: those of the flash, changed by each write -/
structure BlockSession (α : Type) where
  blk : Mtdblk α
  contents : ℕ → α

inductive BlockCall (α : Type)
  | write (block : ℕ) (buf : ℕ → α)
  | read (block : ℕ)
  | flush

def BlockSession.start (flash : ℕ → α) : BlockSession α :=
  ⟨⟨flash, flash, 0, .empty, 1, []⟩, flash⟩

/-- A call on a block in the range of the device, while the medium has no faults -/
def blockStep (d : Device) (s : BlockSession α) : BlockCall α → Option (BlockSession α)
  | .write block buf =>
    if (block + 1) * 512 ≤ d.size then
      some ⟨{ (writesect d s.blk block buf).2 with faults := [] },
        overwrite s.contents (block * 512) 512 buf⟩
    else none
  | .read block => if (block + 1) * 512 ≤ d.size then some s else none
  | .flush => some ⟨{ (flush d s.blk).2 with faults := [] }, s.contents⟩

/-- A read returns the block as it should be, and a flush brings everything to the flash. -/
def Refines (d : Device) (s : BlockSession α) (c : BlockCall α) (s' : BlockSession α) : Prop :=
  match c with
  | .write _ _ => True
  | .read block =>
    readsect d s.blk block = .ok ((List.range 512).map fun i => s.contents (block * 512 + i))
  | .flush => s'.blk.flash = s.contents

/-- The blocks lie below 4 GiB, and those that are written in sectors of the device. -/
def InRange (d : Device) (_ : BlockSession α) (c : BlockCall α) (_ : BlockSession α) : Prop :=
  match c with
  | .write block _ => block < 2 ^ 23 ∧ InSectors d (block * 512) 512
  | .read block => block < 2 ^ 23
  | .flush => True

structure Faithful (d : Device) (s : BlockSession α) : Prop where
  coherent : Coherent d s.blk
  quiet : s.blk.faults = []
  view_eq : view d s.blk = s.contents

section Sessions

variable {d : Device} {s s' : BlockSession α}

theorem faithful_start (flash : ℕ → α) : Faithful d (.start flash) :=
  ⟨.of_empty Nat.one_ne_zero rfl (fun _ hmem => nomatch hmem), rfl, view_of_empty rfl⟩

theorem flash_flush {s : Mtdblk α} (hc : Coherent d s)
    (hfault : s.cacheState = .dirty → s.faults.head?.join = none) :
    (flush d s).2.flash = view d s := by
  obtain ⟨-, hview, hempty⟩ := writeCachedData_spec hc
  rw [← hview]
  exact (view_of_empty (hempty (writeCachedData_ok hc hfault))).symm

theorem faithful_step (h : Faithful d s) {c : BlockCall α} (hstep : blockStep d s c = some s')
    (hin : InRange d s c s') : Faithful d s' := by
  cases c with
  | write block buf =>
    obtain ⟨hsize, rfl⟩ := of_guard_eq_some hstep
    obtain ⟨hblock, hsectors⟩ := hin
    -- without a fault the error branch of the specification is excluded
    have hwrote := writesect_spec buf h.coherent hblock
    have hok := writesect_quiet buf h.coherent hblock hsize h.quiet hsectors
    refine ⟨hwrote.coherent.of_sameCache ⟨rfl, rfl, rfl, rfl, List.nil_subset _⟩, rfl,
      ?_⟩
    exact (hwrote.done hok).trans (by rw [h.view_eq])
  | read block =>
    obtain ⟨-, rfl⟩ := of_guard_eq_some hstep
    exact h
  | flush =>
    cases hstep
    -- a write-back leaves what is seen as it is
    obtain ⟨hc, hview, -⟩ := writeCachedData_spec h.coherent
    exact ⟨hc.of_sameCache ⟨rfl, rfl, rfl, rfl, List.nil_subset _⟩, rfl,
      hview.trans h.view_eq⟩

theorem refines_step (h : Faithful d s) {c : BlockCall α} (hstep : blockStep d s c = some s')
    (hin : InRange d s c s') : Refines d s c s' := by
  cases c with
  | write block buf => trivial
  | read block =>
    obtain ⟨hsize, -⟩ := of_guard_eq_some hstep
    rw [Refines, readsect_spec h.coherent hin hsize, h.view_eq]
  | flush =>
    cases hstep
    exact (flash_flush h.coherent fun _ => by rw [h.quiet]; rfl).trans h.view_eq

end Sessions

/-- **Refinement**: for every device size and erase size, in every sequence of calls on blocks below
    4 GiB, the written ones in sectors of the device, each read returns the bytes of the latest
    write to its block, or the original contents, and after a flush the flash holds them. -/
theorem refines_of_inRange (d : Device) (flash : ℕ → α) (calls : List (BlockCall α))
    (h : Along (blockStep d) (InRange d) (.start flash) calls) :
    Along (blockStep d) (Refines d) (.start flash) calls := by
  refine along_of_along (I := Faithful d) ?_ ?_ (faithful_start flash) h
  · intro s c s' hs hstep hin
    exact faithful_step hs hstep hin
  · intro s c s' hs hstep hin
    exact refines_step hs hstep hin

/-- Two sectors of 768 bytes, three blocks: the second block lies in both sectors. -/
def twoSectors : Device := ⟨1536, 768⟩

theorem refines_twoSectors :
    Along (blockStep twoSectors) (Refines twoSectors) (.start fun _ => false)
      [.write 1 fun _ => true, .read 1, .flush] := by
  apply refines_of_inRange
  have hin : InSectors twoSectors 512 512 := by
    intro a hlow hhigh
    simp only [sectStart, twoSectors]
    omega
  rintro _ ⟨⟩
  refine ⟨⟨by decide, hin⟩, ?_⟩
  rintro _ ⟨⟩
  refine ⟨show 1 < 2 ^ 23 by decide, ?_⟩
  rintro _ ⟨⟩
  exact ⟨trivial, trivial⟩

def byteOf (r : Except Err (List Bool)) (i : ℕ) : Option Bool :=
  match r with
  | .ok bytes => bytes[i]?
  | .error _ => none

def beyond : Device := ⟨2 ^ 32 + 512, 512⟩

def cutOff : Device := ⟨1024, 768⟩

/-- The block at 4 GiB is mistaken for the first one; and of a block that reaches into a sector that
    is cut off, the first half is written and the second half is not. -/
theorem block_wraps_and_tears :
    ¬ Along (blockStep beyond) (Refines beyond) (.start fun _ => false)
        [.write (2 ^ 23) fun _ => true, .read 0] ∧
      ¬ Along (blockStep cutOff) (Refines cutOff) (.start fun _ => false)
        [.write 1 fun _ => true, .read 1] := by
  constructor
  · intro h
    have hread := ((h _ rfl).2 _ rfl).1
    have hbyte := congrArg (byteOf · 0) hread
    exact absurd hbyte (by decide +kernel)
  · intro h
    have hread := ((h _ rfl).2 _ rfl).1
    have hbyte := congrArg (byteOf · 256) hread
    exact absurd hbyte (by decide +kernel)

end NucKernel.Mtd
