import Mathlib.Data.Nat.Bitwise
import Mathlib.Data.BitVec
import NucKernel.Library.Spans

/-!
# The bad-block list of a device (`md.c`)

A page of 64-bit words, each a range of at most 512 sectors with a flag that says whether the range
has been acknowledged. `md_clear_badblocks` takes a range of sectors off the list.

## Modelling

- The table is the list of its `count` words. A position before the first entry, where the source
  has `lo == -1`, is written as the number of entries up to it.
- `sector_t` is a 64-bit number, in which the bounds of a range are computed. A signed overflow
  wraps around, and `Wide` is what shifts by the width of their operand or more give (C does not
  say). The bounds and the fields of the entries are then compared as numbers, and `BB_MAKE` cuts
  its arguments to 64 bits.
- `PAGE_SIZE` is 4096, so `MD_MAX_BADBLOCKS` is 512.
-/

namespace NucKernel.Md.BadBlocks

open NucKernel.Library

/-! ## Words of the table -/

def bbLen (x : BitVec 64) : ℕ := (x &&& 0x1FF#64).toNat + 1

def bbOffset (x : BitVec 64) : ℕ := ((x &&& 0x7FFFFFFFFFFFFE00#64) >>> 9).toNat

def bbAck (x : BitVec 64) : Bool := x &&& 0x8000000000000000#64 != 0#64

/-- `BB_MAKE`; the length is signed, as the `int` that some callers pass. -/
def bbMake (a : ℕ) (l : ℤ) (ack : Bool) : BitVec 64 :=
  (BitVec.ofNat 64 a <<< 9) ||| BitVec.ofInt 64 (l - 1) |||
    ((BitVec.ofBool ack).setWidth 64 <<< 63)

def mdMaxBadblocks : ℕ := 4096 / 8

def rangeOf (x : BitVec 64) : Span Bool := ⟨bbOffset x, bbOffset x + bbLen x, bbAck x⟩

theorem bbLen_eq (x : BitVec 64) : bbLen x = x.toNat % 2 ^ 9 + 1 := by
  rw [bbLen, BitVec.toNat_and, show (0x1FF#64).toNat = 2 ^ 9 - 1 from rfl,
    Nat.and_two_pow_sub_one_eq_mod]

theorem bbOffset_eq (x : BitVec 64) : bbOffset x = x.toNat >>> 9 % 2 ^ 54 := by
  rw [bbOffset, BitVec.toNat_ushiftRight, BitVec.toNat_and, Nat.shiftRight_and_distrib,
    show (0x7FFFFFFFFFFFFE00#64).toNat >>> 9 = 2 ^ 54 - 1 from rfl, Nat.and_two_pow_sub_one_eq_mod]

theorem bbLen_pos (x : BitVec 64) : 1 ≤ bbLen x := Nat.le_add_left 1 _

theorem bbLen_le (x : BitVec 64) : bbLen x ≤ 512 := by
  rw [bbLen_eq]
  omega

theorem bbOffset_lt (x : BitVec 64) : bbOffset x < 2 ^ 54 := by
  rw [bbOffset_eq]
  exact Nat.mod_lt _ (by decide)

/-- `struct badblocks`; the words of `page` are the `count` entries. -/
structure Badblocks where
  page : List (BitVec 64)
  shift : ℤ
  changed : Bool
  unackedExist : Bool

/-- The acknowledgement of a bad sector, `none` for a good one -/
def status (p : List (BitVec 64)) (x : ℕ) : Option Bool := labelAt (p.map rangeOf) x

/-- The entries are sorted by start and do not overlap. -/
def Sorted (p : List (BitVec 64)) : Prop := SpansSorted (p.map rangeOf)

/-- The binary search of `md_set_badblocks` and `md_clear_badblocks`; `before` tells whether an
    entry is not behind the place. -/
def searchLoop (p : List (BitVec 64)) (before : ℕ → Bool) : ℕ → ℕ → ℕ → ℕ × ℕ
  | 0, lo, hi => (lo, hi)
  | fuel + 1, lo, hi =>
    if hi - lo > 1 then
      let mid := (lo + hi) / 2
      let a := bbOffset (p.getD mid 0)
      if before a then searchLoop p before fuel mid hi else searchLoop p before fuel lo mid
    else (lo, hi)

def search (p : List (BitVec 64)) (before : ℕ → Bool) : ℕ × ℕ :=
  searchLoop p before p.length 0 p.length

theorem sorted_iff {p : List (BitVec 64)} :
    Sorted p ↔ p.Pairwise fun v w => bbOffset v + bbLen v ≤ bbOffset w := by
  rw [Sorted, SpansSorted, List.pairwise_map]
  rfl

structure SearchInv (p : List (BitVec 64)) (before : ℕ → Bool) (lo hi : ℕ) : Prop where
  lt : lo < hi
  le : hi ≤ p.length
  after : ∀ i, hi ≤ i → i < p.length → before (bbOffset (p.getD i 0)) = false
  notAfter : lo = 0 ∨ before (bbOffset (p.getD lo 0)) = true

theorem searchLoop_inv {p : List (BitVec 64)} {before : ℕ → Bool} (hsorted : Sorted p)
    (hbefore : ∀ a b, a ≤ b → before b = true → before a = true) {fuel lo hi : ℕ}
    (hfuel : hi ≤ lo + fuel) (h : SearchInv p before lo hi) :
    SearchInv p before (searchLoop p before fuel lo hi).1 (searchLoop p before fuel lo hi).2 ∧
      (searchLoop p before fuel lo hi).2 = (searchLoop p before fuel lo hi).1 + 1 := by
  induction fuel generalizing lo hi with
  | zero => exact absurd h.lt (by omega)
  | succ fuel ih =>
    have hle := h.le
    simp only [searchLoop]
    split_ifs with hgap hmid
    · exact ih (by omega) ⟨by omega, h.le, h.after, .inr hmid⟩
    · refine ih (by omega) ⟨by omega, by omega, fun i hi hlen => ?_, h.notAfter⟩
      -- The offsets ascend, so what is behind the middle is behind the place too.
      by_contra hcontra
      refine hmid (hbefore _ _ ?_ (by rwa [Bool.not_eq_false] at hcontra))
      rcases Nat.eq_or_lt_of_le hi with rfl | hlt
      · rfl
      · have hpair := List.pairwise_iff_getElem.mp (sorted_iff.mp hsorted) _ i (by omega) hlen hlt
        rw [List.getD_eq_getElem _ _ (by omega), List.getD_eq_getElem _ _ hlen]
        omega
    · exact ⟨h, by have := h.lt; omega⟩

theorem search_spec {p : List (BitVec 64)} {before : ℕ → Bool} (hsorted : Sorted p)
    (hbefore : ∀ a b, a ≤ b → before b = true → before a = true) (hp : p ≠ []) :
    ∃ front w back, p = front ++ w :: back ∧
      search p before = (front.length, front.length + 1) ∧
      (∀ v ∈ back, before (bbOffset v) = false) ∧
      (front = [] ∨ before (bbOffset w) = true) := by
  have hpos : 0 < p.length := List.length_pos_iff.mpr hp
  obtain ⟨hinv, hnext⟩ := searchLoop_inv hsorted hbefore (Nat.le_add_left _ 0)
    ⟨hpos, le_rfl, fun i hi hlen => absurd hlen (not_lt.mpr hi), .inl rfl⟩
  rw [← search] at hinv hnext
  have hlt : (search p before).1 < p.length := lt_of_lt_of_le hinv.lt hinv.le
  refine ⟨p.take (search p before).1, p[(search p before).1], p.drop ((search p before).1 + 1),
    ?_, ?_, ?_, ?_⟩
  · rw [List.getElem_cons_drop, List.take_append_drop]
  · rw [List.length_take, Nat.min_eq_left hlt.le]
    exact Prod.ext rfl hnext
  · -- what follows the entry is behind the place
    intro v hv
    obtain ⟨i, hi, rfl⟩ := List.mem_iff_getElem.mp hv
    rw [List.length_drop] at hi
    have hafter := hinv.after ((search p before).1 + 1 + i) (by omega) (by omega)
    rwa [List.getD_eq_getElem _ _ (by omega), ← List.getElem_drop] at hafter
  · -- it is the first entry, or it is not behind the place
    rcases hinv.notAfter with h0 | hw
    · exact .inl (by rw [h0, List.take_zero])
    · rw [List.getD_eq_getElem _ _ hlt] at hw
      exact .inr hw

theorem before_target (target : ℕ) :
    ∀ a b : ℕ, a ≤ b → decide (b < target) = true → decide (a < target) = true := by
  intro a b hab hb
  simp only [decide_eq_true_eq] at hb ⊢
  omega

/-! ## Clearing -/

/-- The backward loop of `md_clear_badblocks`. The argument and the second result are `lo + 1`. -/
def trimLoop (p : List (BitVec 64)) (s : ℕ) : ℕ → List (BitVec 64) × ℕ
  | 0 => (p, 0)
  | lo + 1 =>
    let x := p.getD lo 0
    if bbOffset x + bbLen x > s then
      if bbOffset x < s then (p.set lo (bbMake (bbOffset x) (s - bbOffset x) (bbAck x)), lo + 1)
      else trimLoop p s lo
    else (p, lo + 1)

/-- The end of `md_clear_badblocks`, from the backward loop on; `loNext` is `lo + 1`. -/
def discard (p : List (BitVec 64)) (s loNext hi : ℕ) : List (BitVec 64) :=
  let (p, loNext) := trimLoop p s loNext
  if hi > loNext then p.take loNext ++ p.drop hi else p

/-- Shifts that are too wide -/
structure Wide where
  /-- `1 << n` -/
  shlOne : ℕ → BitVec 32
  shr : BitVec 64 → ℕ → BitVec 64

/-- `x >> n` -/
def Wide.shiftRight (wide : Wide) (x : BitVec 64) (n : ℕ) : BitVec 64 :=
  if n < 64 then x >>> n else wide.shr x n

/-- `(1<<n) - 1`, extended to 64 bits -/
def Wide.ones (wide : Wide) (n : ℕ) : BitVec 64 :=
  ((if n < 32 then 1#32 <<< n else wide.shlOne n) - 1#32).signExtend 64

section Pieces

variable {front back : List (BitVec 64)} {x : BitVec 64} {s target : ℕ}

end Pieces

section Empty

variable {p front back : List (BitVec 64)} {x : BitVec 64} {target : ℕ}

end Empty

/-! ## The exact condition -/

/-- The table is sorted and fits its page. -/
structure Badblocks.Valid (bb : Badblocks) : Prop where
  sorted : Sorted bb.page
  length_le : bb.page.length ≤ mdMaxBadblocks

theorem toNat_ones (wide : Wide) {n : ℕ} (hn : n < 32) : (wide.ones n).toNat = 2 ^ n - 1 := by
  have hall : ∀ n : Fin 32, ((1#32 <<< n.val - 1#32).signExtend 64).toNat = 2 ^ n.val - 1 := by
    decide
  rw [Wide.ones, if_pos hn]
  exact hall ⟨n, hn⟩

theorem toNat_shiftRight (wide : Wide) {n : ℕ} (hn : n < 64) (x : BitVec 64) :
    (wide.shiftRight x n).toNat = x.toNat / 2 ^ n := by
  rw [Wide.shiftRight, if_pos hn, BitVec.toNat_ushiftRight, Nat.shiftRight_eq_div_pow]

end NucKernel.Md.BadBlocks
