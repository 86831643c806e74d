import Mathlib.Algebra.Group.Int.Defs
import Mathlib.Algebra.Group.Nat.Defs
import NucKernel.Library.Ranges
import NucKernel.Library.Runs

/-!
# The page buffer of the NAND core (`nand_base.c`)

`nand_do_read_ops` reads a page of which the caller wants a part into `databuf`, and keeps its
number in `pagebuf`. The next read of that page is served from `databuf`. `nand_do_write_ops` and
`nand_erase_nand` must forget the page when they change it, and a read must not be served with what
another mode of reading left there.

Two things go wrong. The test for a hit does not look at the mode of the read, so a raw read without
an OOB buffer gets corrected data. And `nand_do_write_ops` computes the byte address of the buffered
page as `pagebuf << page_shift` in an `int`, which is wrong from 2 GiB on.

## Modelling

- pages have the number the source calls `realpage`; the chip they are on does not matter
- what is stored in a page, and what the methods of `chip->ecc` make of it, are parameters. A read
  of a page does not change it
- all calls succeed up to ECC failures, which the methods count: a call that is rejected is not part
  of a run
- the OOB data of a read never come from the buffer, and are left out. What `nand_fill_oob` leaves
  in `oob_poi` for a page is part of the call
- `pagebuf` is `none` where the source has -1. `struct nand_chip` is not in this repository: it is
  taken to be an `int` of 32 bits, as `realpage` is, and its shift to wrap
-/

namespace NucKernel.Nand

open NucKernel.Library

universe u v

variable {C : Type u} {α : Type v}

/-! ## The chip -/

/-- The geometry of a device. A subpage is a quarter of a page, or more. -/
structure Geometry where
  pageShift : ℕ
  subpagesize : ℕ
  pagesPerBlock : ℕ
  two_le_subpagesize : 2 ≤ subpagesize
  subpagesize_dvd : subpagesize ∣ 2 ^ pageShift

namespace Geometry

def writesize (g : Geometry) : ℕ := 2 ^ g.pageShift

def erasesize (g : Geometry) : ℕ := g.pagesPerBlock * g.writesize

theorem writesize_pos (g : Geometry) : 0 < g.writesize := Nat.two_pow_pos _

end Geometry

/-- The arguments of `write_page`, with the OOB buffer it takes from the chip -/
structure PageWrite (α : Type v) where
  column : ℕ
  bytes : ℕ
  wbuf : ℕ → α
  oobPoi : ℕ → α
  oobRequired : Bool
  raw : Bool

/-- What the methods of a chip do with one page. Those that correct the data also return what they
    add to `ecc_stats.failed`. -/
structure Methods (C : Type u) (α : Type v) where
  hasSubpageRead : Bool
  readPage : C → (ℕ → α) × ℕ
  readPageRaw : C → ℕ → α
  readSubpage : C → ℕ → ℕ → (ℕ → α) × ℕ
  writePage : PageWrite α → C → C
  erase : C → C
  /-- The byte 0xff -/
  blank : α

@[ext] structure Chip (C : Type u) (α : Type v) where
  flash : ℕ → C
  pagebuf : Option ℕ
  databuf : ℕ → α

namespace Chip

def setPage (s : Chip C α) (page : ℕ) (c : C) : Chip C α :=
  { s with flash := fun q => if q = page then c else s.flash q }

def setBuffer (s : Chip C α) (pagebuf : Option ℕ) (databuf : ℕ → α) : Chip C α :=
  { s with pagebuf := pagebuf, databuf := databuf }

def setPagebuf (s : Chip C α) (pagebuf : Option ℕ) : Chip C α := { s with pagebuf := pagebuf }

end Chip

inductive OpsMode
  | placeOob
  | autoOob
  | raw
  deriving DecidableEq

/-! ## Reading -/

/-- The request of a read; `oob` if it has an OOB buffer -/
structure ReadOps where
  len : ℕ
  mode : OpsMode
  oob : Bool

def segment (f : ℕ → α) (col bytes : ℕ) : List α := (List.range bytes).map fun i => f (col + i)

section Reads

variable (g : Geometry) (m : Methods C α) (ops : ReadOps)

def fetch (col bytes : ℕ) (c : C) : (ℕ → α) × ℕ :=
  if ops.mode = .raw then (m.readPageRaw c, 0)
  else if bytes ≠ g.writesize ∧ m.hasSubpageRead = true ∧ ops.oob = false then
    m.readSubpage c col bytes
  else m.readPage c

structure Round (C : Type u) (α : Type v) where
  data : List α
  chip : Chip C α
  failed : ℕ

def readRound (s : Chip C α) (failed realpage col bytes : ℕ) : Round C α :=
  -- the test for a hit: the mode of the read is not part of it
  if s.pagebuf ≠ some realpage ∨ ops.oob = true then
    let page := fetch g m ops col bytes (s.flash realpage)
    let failed := failed + page.2
    -- a whole page goes to the buffer of the caller
    let chip := if bytes = g.writesize then s else
      s.setBuffer
        (if m.hasSubpageRead = false ∧ ops.oob = false ∧ failed = 0 ∧ ops.mode ≠ .raw
          then some realpage else none) page.1
    ⟨segment page.1 col bytes, chip, failed⟩
  else ⟨segment s.databuf col bytes, s, failed⟩

/-- The loop of `nand_do_read_ops`: its body runs once at least. -/
def readLoop : ℕ → Chip C α → ℕ → ℕ → ℕ → ℕ → List α × Chip C α
  | 0, s, _, _, _, _ => ([], s)
  | rounds + 1, s, failed, realpage, col, readlen =>
    let bytes := min (g.writesize - col) readlen
    let r := readRound g m ops s failed realpage col bytes
    if readlen - bytes = 0 then (r.data, r.chip)
    else
      let rest := readLoop rounds r.chip r.failed (realpage + 1) 0 (readlen - bytes)
      (r.data ++ rest.1, rest.2)

/-- `nand_do_read_ops`: the data, and the chip after the call -/
def doReadOps (s : Chip C α) (start : ℕ) : List α × Chip C α :=
  readLoop g m ops (ops.len + 1) s 0 (start / g.writesize) (start % g.writesize) ops.len

end Reads

/-! ## Writing and erasing -/

/-- The request of a write, with `oob_poi` for every page -/
structure WriteOps (α : Type v) where
  len : ℕ
  mode : OpsMode
  oob : Bool
  datbuf : ℕ → α
  oobPoi : ℕ → ℕ → α

section Writes

variable (g : Geometry) (m : Methods C α)

/-- The result of an operation on an `int` -/
def asInt (x : ℤ) : ℤ := x.bmod 4294967296

/-- `pagebuf << page_shift` -/
def shifted : Option ℕ → ℤ
  | none => asInt (-2 ^ g.pageShift)
  | some p => asInt ((p * 2 ^ g.pageShift : ℕ) : ℤ)

def dropWritten (dst len : ℕ) (pagebuf : Option ℕ) : Option ℕ :=
  if (dst : ℤ) ≤ shifted g pagebuf ∧ shifted g pagebuf < (dst : ℤ) + len then none else pagebuf

def Partly (column writelen : ℕ) : Prop := column ≠ 0 ∨ writelen < g.writesize - 1

instance (column writelen : ℕ) : Decidable (Partly g column writelen) :=
  inferInstanceAs (Decidable (_ ∨ _))

/-- The bytes written to a page; lengths from `2^31` on, negative as `int`, are left out. -/
def writeBytes (column writelen : ℕ) : ℕ :=
  if Partly g column writelen then min (g.writesize - column) writelen else g.writesize

def writeRound (ops : WriteOps α) (s : Chip C α) (realpage column writelen : ℕ) (buf : ℕ → α) :
    Chip C α :=
  let bytes := writeBytes g column writelen
  let filled := overwrite (fun _ => m.blank) column bytes buf
  let args (wbuf : ℕ → α) : PageWrite α :=
    ⟨column, bytes, wbuf, ops.oobPoi realpage, ops.oob, decide (ops.mode = .raw)⟩
  if Partly g column writelen then
    (s.setBuffer none filled).setPage realpage (m.writePage (args filled) (s.flash realpage))
  else s.setPage realpage (m.writePage (args buf) (s.flash realpage))

/-- The loop of `nand_do_write_ops`; `writelen` is an `uint32_t`. -/
def writeLoop (ops : WriteOps α) : ℕ → Chip C α → ℕ → ℕ → ℕ → (ℕ → α) → Chip C α
  | 0, s, _, _, _, _ => s
  | rounds + 1, s, realpage, column, writelen, buf =>
    let bytes := writeBytes g column writelen
    let s := writeRound g m ops s realpage column writelen buf
    -- a length of one byte less than a page would wrap around here
    let left := (writelen + 2 ^ 32 - bytes) % 2 ^ 32
    if left = 0 then s
    else writeLoop ops rounds s (realpage + 1) 0 left fun i => buf (i + bytes)

/-- `nand_do_write_ops` on an aligned range -/
def doWriteOps (s : Chip C α) (dst : ℕ) (ops : WriteOps α) : Chip C α :=
  if ops.len = 0 then s
  else writeLoop g m ops ops.len (s.setPagebuf (dropWritten g dst ops.len s.pagebuf))
    (dst / g.writesize) (dst % g.writesize) ops.len ops.datbuf

def eraseBlock (s : Chip C α) (page : ℕ) : Chip C α where
  flash q := if page ≤ q ∧ q < page + g.pagesPerBlock then m.erase (s.flash q) else s.flash q
  pagebuf := s.pagebuf.filter fun p => !decide (page ≤ p ∧ p < page + g.pagesPerBlock)
  databuf := s.databuf

def eraseLoop : ℕ → Chip C α → ℕ → Chip C α
  | 0, s, _ => s
  | blocks + 1, s, page => eraseLoop blocks (eraseBlock g m s page) (page + g.pagesPerBlock)

/-- `nand_erase_nand` on a range of blocks -/
def eraseNand (s : Chip C α) (addr len : ℕ) : Chip C α :=
  eraseLoop g m (len / g.erasesize) s (addr / g.writesize)

/-! ## Runs -/

inductive NandCall (α : Type v)
  | read (start : ℕ) (ops : ReadOps)
  | write (dst : ℕ) (ops : WriteOps α)
  | erase (addr len : ℕ)

/-- A call that is not rejected. The length of a write is a `size_t`. -/
def nandStep (s : Chip C α) : NandCall α → Option (Chip C α)
  | .read start ops => some (doReadOps g m ops s start).2
  | .write dst ops =>
    if g.subpagesize ∣ dst ∧ g.subpagesize ∣ ops.len ∧ ops.len < 2 ^ 32
      then some (doWriteOps g m s dst ops) else none
  | .erase addr len =>
    if g.erasesize ∣ addr ∧ g.erasesize ∣ len then some (eraseNand g m s addr len) else none

/-- A read returns what it would return with the buffer invalidated. -/
def Coherent (s : Chip C α) : NandCall α → Prop
  | .read start ops =>
    (doReadOps g m ops s start).1 = (doReadOps g m ops (s.setPagebuf none) start).1
  | _ => True

instance [DecidableEq α] (s : Chip C α) : ∀ c, Decidable (Coherent g m s c)
  | .read _ _ => inferInstanceAs (Decidable (_ = _))
  | .write _ _ => inferInstanceAs (Decidable True)
  | .erase _ _ => inferInstanceAs (Decidable True)

end Writes

/-! ## The buffered page

The invariant of all runs: the buffer holds the corrected data of the page as it is now. -/

/-- A buffered page is what `read_page` would return; with subpage reads nothing is buffered. -/
def Valid (m : Methods C α) (s : Chip C α) : Prop :=
  ∀ p, s.pagebuf = some p → m.hasSubpageRead = false ∧ s.databuf = (m.readPage (s.flash p)).1

theorem valid_none {m : Methods C α} {s : Chip C α} (h : s.pagebuf = none) : Valid m s := by
  intro p hp
  rw [h] at hp
  cases hp

def Touched (g : Geometry) (first stop p : ℕ) : Prop :=
  first ≤ p ∧ (p = first ∨ p * g.writesize < stop)

instance (g : Geometry) (first stop p : ℕ) : Decidable (Touched g first stop p) :=
  inferInstanceAs (Decidable (_ ∧ _))

theorem Touched.of_succ {g : Geometry} {first stop p : ℕ} (h : Touched g (first + 1) stop p)
    (hstop : (first + 1) * g.writesize < stop) : Touched g first stop p := by
  obtain ⟨hle, rfl | hlt⟩ := h
  · exact ⟨by omega, .inr hstop⟩
  · exact ⟨by omega, .inr hlt⟩

section ReadProofs

variable {g : Geometry} {m : Methods C α} {ops : ReadOps} {s : Chip C α}
  {failed realpage col bytes : ℕ}

/-- The page in the buffer is not read raw, unless it is read from the flash anyway. -/
def NoRawHit (ops : ReadOps) (s : Chip C α) (p : ℕ) : Prop :=
  ops.mode = .raw → ops.oob = false → s.pagebuf ≠ some p

theorem readRound_data (hv : Valid m s) (hraw : NoRawHit ops s realpage) :
    (readRound g m ops s failed realpage col bytes).data =
      segment (fetch g m ops col bytes (s.flash realpage)).1 col bytes := by
  rw [readRound]
  split
  · rfl
  · -- a hit: the buffer holds what `read_page` returns, and this is the method of the read
    rename_i hhit
    obtain ⟨hbuf, hoob⟩ : s.pagebuf = some realpage ∧ ops.oob = false := by simpa using hhit
    obtain ⟨hsub, hdata⟩ := hv realpage hbuf
    have hmode : ops.mode ≠ .raw := fun h => hraw h hoob hbuf
    simp [fetch, hmode, hsub, hdata]

theorem readRound_flash :
    (readRound g m ops s failed realpage col bytes).chip.flash = s.flash := by
  rw [readRound]
  split
  · dsimp only
    split <;> rfl
  · rfl

theorem readRound_pagebuf {p : ℕ}
    (h : (readRound g m ops s failed realpage col bytes).chip.pagebuf = some p) :
    (readRound g m ops s failed realpage col bytes).chip = s ∨
      (p = realpage ∧ ops.mode ≠ .raw ∧ m.hasSubpageRead = false ∧
        (readRound g m ops s failed realpage col bytes).chip.databuf =
          (m.readPage (s.flash p)).1) := by
  rw [readRound] at h ⊢
  split at h
  · rename_i hmiss
    rw [if_pos hmiss]
    dsimp only at h ⊢
    split at h
    · exact .inl (by rw [if_pos ‹_›])
    · -- only `read_page` is left of the three methods
      rw [if_neg ‹_›]
      obtain ⟨⟨hsub, hoob, hfail, hmode⟩, hp⟩ := Option.ite_none_right_eq_some.mp h
      obtain rfl := Option.some.inj hp
      exact .inr ⟨rfl, hmode, hsub, by simp [Chip.setBuffer, fetch, hmode, hsub]⟩
  · exact .inl (by rw [if_neg ‹_›])

theorem Valid.readRound (hv : Valid m s) :
    Valid m (readRound g m ops s failed realpage col bytes).chip := by
  intro p hp
  rcases readRound_pagebuf hp with hs | ⟨rfl, -, hsub, hdata⟩
  · rw [hs] at hp ⊢
    exact hv p hp
  · rw [hdata, readRound_flash]
    exact ⟨hsub, rfl⟩

theorem NoRawHit.readRound {p : ℕ} (h : NoRawHit ops s p) :
    NoRawHit ops (readRound g m ops s failed realpage col bytes).chip p := by
  intro hraw hoob hp
  rcases readRound_pagebuf hp with hs | ⟨-, hmode, -⟩
  · rw [hs] at hp
    exact h hraw hoob hp
  · exact hmode hraw

def fetchLoop (g : Geometry) (m : Methods C α) (ops : ReadOps) (flash : ℕ → C) :
    ℕ → ℕ → ℕ → ℕ → List α
  | 0, _, _, _ => []
  | rounds + 1, realpage, col, readlen =>
    let bytes := min (g.writesize - col) readlen
    let data := segment (fetch g m ops col bytes (flash realpage)).1 col bytes
    if readlen - bytes = 0 then data
    else data ++ fetchLoop g m ops flash rounds (realpage + 1) 0 (readlen - bytes)

theorem stop_next (page : ℕ) {readlen : ℕ} (hcol : col < g.writesize)
    (hleft : ¬ readlen - min (g.writesize - col) readlen = 0) :
    (page + 1) * g.writesize + 0 + (readlen - min (g.writesize - col) readlen) =
      page * g.writesize + col + readlen ∧
    (page + 1) * g.writesize < page * g.writesize + col + readlen := by
  rw [Nat.add_mul, Nat.one_mul]
  omega

/-- The buffer stays valid, and no page still to be read is a raw hit. -/
theorem readLoop_spec (rounds f : ℕ) {readlen : ℕ} (hcol : col < g.writesize) (hv : Valid m s)
    (hraw : ∀ p, Touched g realpage (realpage * g.writesize + col + readlen) p →
      NoRawHit ops s p) :
    (readLoop g m ops rounds s f realpage col readlen).1 =
      fetchLoop g m ops s.flash rounds realpage col readlen ∧
    Valid m (readLoop g m ops rounds s f realpage col readlen).2 := by
  induction rounds generalizing s f realpage col readlen with
  | zero => exact ⟨rfl, hv⟩
  | succ rounds ih =>
    have hdata : (readRound g m ops s f realpage col (min (g.writesize - col) readlen)).data = _ :=
      -- the page comes from the flash, or from a buffer that agrees with it
      readRound_data hv (hraw realpage ⟨Nat.le_refl _, .inl rfl⟩)
    simp only [readLoop, fetchLoop]
    split
    · exact ⟨hdata, hv.readRound⟩
    · rename_i hleft
      obtain ⟨hstop, hlt⟩ := stop_next realpage hcol hleft
      obtain ⟨hrest, hvrest⟩ := ih
        (readRound g m ops s f realpage col (min (g.writesize - col) readlen)).failed
        g.writesize_pos hv.readRound
        fun p hp => (hraw p (by rw [hstop] at hp; exact hp.of_succ hlt)).readRound
      refine ⟨?_, hvrest⟩
      rw [hdata, hrest, readRound_flash]

theorem doReadOps_spec {start : ℕ} (hv : Valid m s)
    (hraw : ∀ p, Touched g (start / g.writesize) (start + ops.len) p → NoRawHit ops s p) :
    (doReadOps g m ops s start).1 =
      fetchLoop g m ops s.flash (ops.len + 1) (start / g.writesize) (start % g.writesize)
        ops.len ∧
    Valid m (doReadOps g m ops s start).2 := by
  apply readLoop_spec _ _ (Nat.mod_lt _ g.writesize_pos) hv
  rwa [Nat.div_add_mod']

end ReadProofs

section WriteProofs

variable {g : Geometry} {m : Methods C α} {s : Chip C α} {realpage column writelen : ℕ}

theorem asInt_of_lt {addr : ℕ} (h : addr < 2 ^ 31) : asInt addr = addr := by
  have hlower : -(((4294967296 : ℕ) : ℤ) / 2) ≤ (addr : ℤ) := by omega
  have hupper : (addr : ℤ) < (((4294967296 : ℕ) : ℤ) + 1) / 2 := by omega
  exact Int.bmod_eq_of_le hlower hupper

theorem shifted_some {p : ℕ} (h : p * g.writesize < 2 ^ 31) :
    shifted g (some p) = ((p * g.writesize : ℕ) : ℤ) := asInt_of_lt h

/-- A page that stays buffered at the start of a write is not in its range. -/
theorem dropWritten_eq_some {dst len p : ℕ} (h : dropWritten g dst len (some p) = some p)
    (haddr : p * g.writesize < 2 ^ 31) (hcol : dst % g.writesize = 0) (hlen : len ≠ 0) :
    ¬ Touched g (dst / g.writesize) (dst + len) p := by
  rintro ⟨hle, htouch⟩
  have hdst : dst / g.writesize * g.writesize = dst :=
    Nat.div_mul_cancel (Nat.dvd_of_mod_eq_zero hcol)
  -- from a page boundary on, the pages touched are those whose first byte is in the range
  have hlower : dst ≤ p * g.writesize := by
    rw [← hdst]
    exact Nat.mul_le_mul_right _ hle
  have hupper : p * g.writesize < dst + len := by
    rcases htouch with rfl | hlt
    · omega
    · exact hlt
  -- so the page is dropped
  rw [dropWritten, shifted_some haddr, if_pos (by omega)] at h
  cases h

theorem writeBytes_le (hlen : g.subpagesize ∣ writelen) :
    writeBytes g column writelen ≤ writelen := by
  rw [writeBytes]
  split
  · exact Nat.min_le_right _ _
  · rename_i hwhole
    by_contra hlt
    -- the piece is longer than the range by one byte
    have hsize : g.writesize = writelen + 1 := by
      simp only [Partly, not_or] at hwhole
      omega
    have hone : g.subpagesize ∣ 1 := by
      apply (Nat.dvd_add_right hlen).mp
      rw [← hsize]
      exact g.subpagesize_dvd
    have := Nat.le_of_dvd Nat.one_pos hone
    have := g.two_le_subpagesize
    omega

theorem dvd_writeBytes (hcol : g.subpagesize ∣ column) (hlen : g.subpagesize ∣ writelen) :
    g.subpagesize ∣ writeBytes g column writelen := by
  rw [writeBytes]
  split
  · rcases Nat.le_total (g.writesize - column) writelen with hle | hle
    · rw [Nat.min_eq_left hle]
      exact Nat.dvd_sub g.subpagesize_dvd hcol
    · rwa [Nat.min_eq_right hle]
  · exact g.subpagesize_dvd

theorem writeRound_partly (m : Methods C α) (s : Chip C α) (page : ℕ) (ops : WriteOps α)
    (buf : ℕ → α) (h : Partly g column writelen) :
    (writeRound g m ops s page column writelen buf).pagebuf = none := by
  simp [writeRound, h, Chip.setPage, Chip.setBuffer]

theorem Valid.setPage {page : ℕ} {c : C} (hv : Valid m s) (h : s.pagebuf ≠ some page) :
    Valid m (s.setPage page c) := by
  intro p hp
  have hne : p ≠ page := fun heq => h (heq ▸ hp)
  simpa [Chip.setPage, hne] using hv p hp

theorem writeRound_whole (m : Methods C α) (s : Chip C α) (page : ℕ) (ops : WriteOps α)
    (buf : ℕ → α) (h : ¬ Partly g column writelen) :
    ∃ c, writeRound g m ops s page column writelen buf = s.setPage page c :=
  ⟨_, if_neg h⟩

theorem Valid.writeLoop {ops : WriteOps α} (rounds : ℕ) {buf : ℕ → α} (hv : Valid m s)
    (hcol : g.subpagesize ∣ column) (hlen : g.subpagesize ∣ writelen) (hlt : writelen < 2 ^ 32)
    (hout : column = 0 → ∀ p, s.pagebuf = some p →
      ¬ Touched g realpage (realpage * g.writesize + writelen) p) :
    Valid m (writeLoop g m ops rounds s realpage column writelen buf) := by
  induction rounds generalizing s realpage column writelen buf with
  | zero => exact hv
  | succ rounds ih =>
    have hle : writeBytes g column writelen ≤ writelen := writeBytes_le hlen
    have hleft : (writelen + 2 ^ 32 - writeBytes g column writelen) % 2 ^ 32 =
        writelen - writeBytes g column writelen := by omega
    have hdvd : g.subpagesize ∣ writelen - writeBytes g column writelen :=
      Nat.dvd_sub hlen (dvd_writeBytes hcol hlen)
    have hround : Valid m (writeRound g m ops s realpage column writelen buf) ∧
        ∀ p, (writeRound g m ops s realpage column writelen buf).pagebuf = some p →
          s.pagebuf = some p ∧ ¬ Partly g column writelen := by
      by_cases hpart : Partly g column writelen
      · -- `databuf` is overwritten, but nothing is buffered any more
        have hnone := writeRound_partly m s realpage ops buf hpart
        exact ⟨valid_none hnone, fun p hp => by rw [hnone] at hp; cases hp⟩
      · -- a whole page is written, which is not the one in the buffer
        obtain ⟨c, hc⟩ := writeRound_whole m s realpage ops buf hpart
        have hcol₀ : column = 0 := by
          simp only [Partly, not_or, not_not] at hpart
          exact hpart.1
        rw [hc]
        exact ⟨hv.setPage fun hp => hout hcol₀ realpage hp ⟨Nat.le_refl _, .inl rfl⟩,
          fun p hp => ⟨hp, hpart⟩⟩
    simp only [Nand.writeLoop, hleft]
    split
    · exact hround.1
    · rename_i hmore
      apply ih hround.1 (Nat.dvd_zero _) hdvd (by omega)
      -- a page that is still buffered was not dropped in this round, so the round was a whole page
      intro _ p hp htouch
      obtain ⟨hbuf, hwhole⟩ := hround.2 p hp
      have hbytes : writeBytes g column writelen = g.writesize := if_neg hwhole
      simp only [Partly, not_or, not_not] at hwhole
      have hstop : (realpage + 1) * g.writesize + (writelen - writeBytes g column writelen) =
          realpage * g.writesize + writelen := by
        rw [hbytes, Nat.add_mul, Nat.one_mul]
        omega
      rw [hstop] at htouch
      apply hout hwhole.1 p hbuf (htouch.of_succ _)
      rw [Nat.add_mul, Nat.one_mul]
      omega

theorem Valid.doWriteOps {ops : WriteOps α} {dst : ℕ} (hv : Valid m s)
    (hdst : g.subpagesize ∣ dst) (hlen : g.subpagesize ∣ ops.len) (hlt : ops.len < 2 ^ 32)
    (hlow : dst % g.writesize = 0 → ∀ p, s.pagebuf = some p →
      Touched g (dst / g.writesize) (dst + ops.len) p → p * g.writesize < 2 ^ 31) :
    Valid m (doWriteOps g m s dst ops) := by
  rw [Nand.doWriteOps]
  split
  · exact hv
  · rename_i hne
    -- nothing new is buffered
    have hkept : ∀ p, dropWritten g dst ops.len s.pagebuf = some p → s.pagebuf = some p := by
      intro p hp
      rw [dropWritten] at hp
      split at hp
      · cases hp
      · exact hp
    have hcol : g.subpagesize ∣ dst % g.writesize :=
      (Nat.dvd_mod_iff g.subpagesize_dvd).mpr hdst
    apply Valid.writeLoop _ _ hcol hlen hlt
    · intro hcol₀ p hp htouch
      have hbuf := hkept p hp
      rw [Nat.div_mul_cancel (Nat.dvd_of_mod_eq_zero hcol₀)] at htouch
      -- the test of the range has kept the page, so it is not touched
      have hdrop : dropWritten g dst ops.len (some p) = some p := by
        rw [← hbuf]
        exact hp.trans hbuf.symm
      exact dropWritten_eq_some hdrop (hlow hcol₀ p hbuf htouch) hcol₀ hne htouch
    · intro p hp
      exact hv p (hkept p hp)

theorem Valid.eraseBlock {page : ℕ} (hv : Valid m s) : Valid m (eraseBlock g m s page) := by
  intro p hp
  obtain ⟨hbuf, hout⟩ := Option.filter_eq_some_iff.mp hp
  have hne : ¬ (page ≤ p ∧ p < page + g.pagesPerBlock) := by
    intro hin
    rw [decide_eq_true hin] at hout
    cases hout
  obtain ⟨hsub, hdata⟩ := hv p hbuf
  refine ⟨hsub, ?_⟩
  simpa only [Nand.eraseBlock, if_neg hne] using hdata

theorem Valid.eraseLoop (blocks : ℕ) {page : ℕ} (hv : Valid m s) :
    Valid m (eraseLoop g m blocks s page) := by
  induction blocks generalizing s page with
  | zero => exact hv
  | succ blocks ih => exact ih hv.eraseBlock

end WriteProofs

/-! ## Coherence -/

section Coherence

variable (g : Geometry) (m : Methods C α)

/-- What keeps the buffer from being noticed: a raw read without an OOB buffer is not of the page
    in the buffer, and no write from a page boundary on covers that page while it is at 2 GiB or
    above. -/
def Safe (s : Chip C α) : NandCall α → Prop
  | .read start ops => ops.mode = .raw → ops.oob = false → ∀ p ∈ s.pagebuf,
    ¬ Touched g (start / g.writesize) (start + ops.len) p
  | .write dst ops => dst % g.writesize = 0 → ∀ p ∈ s.pagebuf,
    Touched g (dst / g.writesize) (dst + ops.len) p → p * g.writesize < 2 ^ 31
  | .erase _ _ => True

instance (s : Chip C α) : ∀ c, Decidable (Safe g s c)
  | .read _ _ => inferInstanceAs (Decidable (_ → _))
  | .write _ _ => inferInstanceAs (Decidable (_ → _))
  | .erase _ _ => inferInstanceAs (Decidable True)

variable {g m} {s s' : Chip C α} {c : NandCall α}

theorem noRawHit_of_safe {start : ℕ} {ops : ReadOps} (h : Safe g s (.read start ops)) (p : ℕ)
    (hp : Touched g (start / g.writesize) (start + ops.len) p) : NoRawHit ops s p :=
  fun hmode hoob hbuf => h hmode hoob p hbuf hp

theorem Valid.step (hv : Valid m s) (hs : nandStep g m s c = some s') (hsafe : Safe g s c) :
    Valid m s' := by
  cases c with
  | read start ops =>
    obtain rfl := Option.some.inj hs
    exact (doReadOps_spec hv (noRawHit_of_safe hsafe)).2
  | write dst ops =>
    obtain ⟨⟨hdst, hlen, hlt⟩, rfl⟩ := of_guard_eq_some hs
    exact hv.doWriteOps hdst hlen hlt hsafe
  | erase addr len =>
    obtain ⟨-, rfl⟩ := of_guard_eq_some hs
    exact hv.eraseLoop _

theorem coherent_of_valid (hv : Valid m s) (hsafe : Safe g s c) : Coherent g m s c := by
  cases c with
  | read start ops =>
    have hread := (doReadOps_spec hv (noRawHit_of_safe hsafe)).1
    have hnone : (s.setPagebuf none).pagebuf = none := rfl
    have hfresh : (doReadOps g m ops (s.setPagebuf none) start).1 = _ :=
      (doReadOps_spec (valid_none hnone) fun p _ _ _ hbuf => by rw [hnone] at hbuf; cases hbuf).1
    exact hread.trans hfresh.symm
  | write dst ops => trivial
  | erase addr len => trivial

end Coherence

/-- **The page buffer is not noticed**: in every run of calls that are safe, from a chip without a
    buffered page, each read returns what it would return with the buffer invalidated. -/
theorem coherent_of_safe (g : Geometry) (m : Methods C α) (flash : ℕ → C) (databuf : ℕ → α)
    (calls : List (NandCall α))
    (h : Along (nandStep g m) (fun s c _ => Safe g s c) ⟨flash, none, databuf⟩ calls) :
    Along (nandStep g m) (fun s c _ => Coherent g m s c) ⟨flash, none, databuf⟩ calls := by
  refine along_of_along (I := Valid m) ?_ ?_ (valid_none rfl) h
  · intro s c s' hv hs hsafe
    exact hv.step hs hsafe
  · intro s c s' hv _ hsafe
    exact coherent_of_valid hv hsafe

/-! ## Fixed runs -/

def pages2048 : Geometry where
  pageShift := 11
  subpagesize := 512
  pagesPerBlock := 64
  two_le_subpagesize := by decide
  subpagesize_dvd := by decide

def flatPages : Methods ℕ ℕ where
  hasSubpageRead := false
  readPage c := (fun _ => c, 0)
  readPageRaw c _ := c + 1
  readSubpage c _ _ := (fun _ => c, 0)
  writePage w _ := w.wbuf 0
  erase _ := 255
  blank := 255

def erasedChip : Chip ℕ ℕ := ⟨fun _ => 255, none, fun _ => 0⟩

def readByte (start : ℕ) (mode : OpsMode) : NandCall ℕ := .read start ⟨1, mode, false⟩

def zeroPage (dst : ℕ) : NandCall ℕ :=
  .write dst ⟨2048, .placeOob, false, fun _ => 0, fun _ _ => 255⟩

theorem coherent_of_safe_rewrite :
    Along (nandStep pages2048 flatPages) (fun s c _ => Coherent pages2048 flatPages s c) erasedChip
      [readByte 2048 .placeOob, zeroPage 2048, readByte 2048 .placeOob, readByte 0 .raw] := by
  apply coherent_of_safe
  decide +kernel

/-- A byte of a page is read, and then again as raw data: it comes from the buffer, corrected. And a
    byte of the page at 2 GiB is read, the page is written, and the byte is read again: it is the
    old one. -/
theorem pagebuf_noticed :
    ¬ Along (nandStep pages2048 flatPages) (fun s c _ => Coherent pages2048 flatPages s c)
      erasedChip [readByte 0 .placeOob, readByte 0 .raw] ∧
    ¬ Along (nandStep pages2048 flatPages) (fun s c _ => Coherent pages2048 flatPages s c)
      erasedChip
      [readByte (2 ^ 31) .placeOob, zeroPage (2 ^ 31), readByte (2 ^ 31) .placeOob] := by
  constructor <;> decide +kernel

end NucKernel.Nand
