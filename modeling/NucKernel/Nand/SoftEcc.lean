import Mathlib.Tactic.IntervalCases
import NucKernel.Library.PairParity

/-!
# Software ECC of the NAND core (`nand_ecc.c`)

`__nand_calculate_ecc` computes three bytes of parities over 256 or 512 bytes of data: for every bit
of the address of a byte the parity of the bytes that have a 0 there and of those that have a 1
(`rp0` to `rp15` or `rp17`), and the same for the address of a bit in its byte. For speed it reads
words of four bytes, sixteen in a round of its loop, and sums only every second parity; the other
one of a pair is the difference to the sum of everything.

This module has the model and what the code bytes are: `calculateEcc_bit` shows that they are the
check bits of a pair parity code, inverted. The correction is in `SoftEccCorrection`.

## Modelling

- a buffer is a function; `& 0xff` on an accumulated parity is the truncation to a byte
- both values of `CONFIG_MTD_NAND_ECC_SMC`, and both byte orders
- `rp0` to `rp17` are one function of their number
-/

namespace NucKernel.Nand.SoftEcc

open NucKernel.Library.PairParity

/-! ## The tables -/

/-- The odd parity of every byte -/
def invparity : List ℕ :=
  [1, 0, 0, 1, 0, 1, 1, 0, 0, 1, 1, 0, 1, 0, 0, 1, 0, 1, 1, 0, 1, 0, 0, 1, 1, 0, 0, 1, 0, 1, 1, 0,
   0, 1, 1, 0, 1, 0, 0, 1, 1, 0, 0, 1, 0, 1, 1, 0, 1, 0, 0, 1, 0, 1, 1, 0, 0, 1, 1, 0, 1, 0, 0, 1,
   0, 1, 1, 0, 1, 0, 0, 1, 1, 0, 0, 1, 0, 1, 1, 0, 1, 0, 0, 1, 0, 1, 1, 0, 0, 1, 1, 0, 1, 0, 0, 1,
   1, 0, 0, 1, 0, 1, 1, 0, 0, 1, 1, 0, 1, 0, 0, 1, 0, 1, 1, 0, 1, 0, 0, 1, 1, 0, 0, 1, 0, 1, 1, 0,
   0, 1, 1, 0, 1, 0, 0, 1, 1, 0, 0, 1, 0, 1, 1, 0, 1, 0, 0, 1, 0, 1, 1, 0, 0, 1, 1, 0, 1, 0, 0, 1,
   1, 0, 0, 1, 0, 1, 1, 0, 0, 1, 1, 0, 1, 0, 0, 1, 0, 1, 1, 0, 1, 0, 0, 1, 1, 0, 0, 1, 0, 1, 1, 0,
   1, 0, 0, 1, 0, 1, 1, 0, 0, 1, 1, 0, 1, 0, 0, 1, 0, 1, 1, 0, 1, 0, 0, 1, 1, 0, 0, 1, 0, 1, 1, 0,
   0, 1, 1, 0, 1, 0, 0, 1, 1, 0, 0, 1, 0, 1, 1, 0, 1, 0, 0, 1, 0, 1, 1, 0, 0, 1, 1, 0, 1, 0, 0, 1]

/-- The number of bits that are set in every byte -/
def bitsperbyte : List ℕ :=
  [0, 1, 1, 2, 1, 2, 2, 3, 1, 2, 2, 3, 2, 3, 3, 4, 1, 2, 2, 3, 2, 3, 3, 4, 2, 3, 3, 4, 3, 4, 4, 5,
   1, 2, 2, 3, 2, 3, 3, 4, 2, 3, 3, 4, 3, 4, 4, 5, 2, 3, 3, 4, 3, 4, 4, 5, 3, 4, 4, 5, 4, 5, 5, 6,
   1, 2, 2, 3, 2, 3, 3, 4, 2, 3, 3, 4, 3, 4, 4, 5, 2, 3, 3, 4, 3, 4, 4, 5, 3, 4, 4, 5, 4, 5, 5, 6,
   2, 3, 3, 4, 3, 4, 4, 5, 3, 4, 4, 5, 4, 5, 5, 6, 3, 4, 4, 5, 4, 5, 5, 6, 4, 5, 5, 6, 5, 6, 6, 7,
   1, 2, 2, 3, 2, 3, 3, 4, 2, 3, 3, 4, 3, 4, 4, 5, 2, 3, 3, 4, 3, 4, 4, 5, 3, 4, 4, 5, 4, 5, 5, 6,
   2, 3, 3, 4, 3, 4, 4, 5, 3, 4, 4, 5, 4, 5, 5, 6, 3, 4, 4, 5, 4, 5, 5, 6, 4, 5, 5, 6, 5, 6, 6, 7,
   2, 3, 3, 4, 3, 4, 4, 5, 3, 4, 4, 5, 4, 5, 5, 6, 3, 4, 4, 5, 4, 5, 5, 6, 4, 5, 5, 6, 5, 6, 6, 7,
   3, 4, 4, 5, 4, 5, 5, 6, 4, 5, 5, 6, 5, 6, 6, 7, 4, 5, 5, 6, 5, 6, 6, 7, 5, 6, 6, 7, 6, 7, 7, 8]

/-- The bits 1, 3, 5 and 7 of every byte -/
def addressbits : List ℕ :=
  [0, 0, 1, 1, 0, 0, 1, 1, 2, 2, 3, 3, 2, 2, 3, 3,
   0, 0, 1, 1, 0, 0, 1, 1, 2, 2, 3, 3, 2, 2, 3, 3,
   4, 4, 5, 5, 4, 4, 5, 5, 6, 6, 7, 7, 6, 6, 7, 7,
   4, 4, 5, 5, 4, 4, 5, 5, 6, 6, 7, 7, 6, 6, 7, 7,
   0, 0, 1, 1, 0, 0, 1, 1, 2, 2, 3, 3, 2, 2, 3, 3,
   0, 0, 1, 1, 0, 0, 1, 1, 2, 2, 3, 3, 2, 2, 3, 3,
   4, 4, 5, 5, 4, 4, 5, 5, 6, 6, 7, 7, 6, 6, 7, 7,
   4, 4, 5, 5, 4, 4, 5, 5, 6, 6, 7, 7, 6, 6, 7, 7,
   8, 8, 9, 9, 8, 8, 9, 9, 10, 10, 11, 11, 10, 10, 11, 11,
   8, 8, 9, 9, 8, 8, 9, 9, 10, 10, 11, 11, 10, 10, 11, 11,
   12, 12, 13, 13, 12, 12, 13, 13, 14, 14, 15, 15, 14, 14, 15, 15,
   12, 12, 13, 13, 12, 12, 13, 13, 14, 14, 15, 15, 14, 14, 15, 15,
   8, 8, 9, 9, 8, 8, 9, 9, 10, 10, 11, 11, 10, 10, 11, 11,
   8, 8, 9, 9, 8, 8, 9, 9, 10, 10, 11, 11, 10, 10, 11, 11,
   12, 12, 13, 13, 12, 12, 13, 13, 14, 14, 15, 15, 14, 14, 15, 15,
   12, 12, 13, 13, 12, 12, 13, 13, 14, 14, 15, 15, 14, 14, 15, 15]

def lookup (table : List ℕ) (x : BitVec 8) : ℕ := table.getD x.toNat 0

theorem lookup_of_eq {table : List ℕ} (f : BitVec 8 → ℕ)
    (h : table = (List.range 256).map fun i => f (BitVec.ofNat 8 i)) (x : BitVec 8) :
    lookup table x = f x := by
  have hlt : x.toNat < 256 := x.isLt
  simp [lookup, h, List.getD_eq_getElem?_getD, hlt]

/-! ## Calculation -/

/-- The configuration of the kernel: the byte order of the processor, and the order of the first two
    code bytes -/
structure EccConfig where
  bigEndian : Bool
  smc : Bool

def ofBytes (x : ℕ → BitVec 8) : BitVec 32 := x 3 ++ x 2 ++ x 1 ++ x 0

def word (cfg : EccConfig) (buf : ℕ → BitVec 8) (i : ℕ) : BitVec 32 :=
  ofBytes fun b => buf (4 * i + if cfg.bigEndian then 3 - b else b)

structure Parities where
  par : BitVec 32
  rp4 : BitVec 32
  rp6 : BitVec 32
  rp8 : BitVec 32
  rp10 : BitVec 32
  rp12 : BitVec 32
  rp14 : BitVec 32
  rp16 : BitVec 32

/-- A round of the loop: `w` are the words at `bp`. -/
def parityRound (mult : ℕ) (w : ℕ → BitVec 32) (i : ℕ) (p : Parities) : Parities :=
  let cur := w 0; let tmppar := cur; let rp4 := p.rp4 ^^^ cur
  let cur := w 1; let tmppar := tmppar ^^^ cur; let rp6 := p.rp6 ^^^ tmppar
  let cur := w 2; let tmppar := tmppar ^^^ cur; let rp4 := rp4 ^^^ cur
  let cur := w 3; let tmppar := tmppar ^^^ cur; let rp8 := p.rp8 ^^^ tmppar
  let cur := w 4; let tmppar := tmppar ^^^ cur; let rp4 := rp4 ^^^ cur; let rp6 := rp6 ^^^ cur
  let cur := w 5; let tmppar := tmppar ^^^ cur; let rp6 := rp6 ^^^ cur
  let cur := w 6; let tmppar := tmppar ^^^ cur; let rp4 := rp4 ^^^ cur
  let cur := w 7; let tmppar := tmppar ^^^ cur; let rp10 := p.rp10 ^^^ tmppar
  let cur := w 8; let tmppar := tmppar ^^^ cur; let rp4 := rp4 ^^^ cur
  let rp6 := rp6 ^^^ cur; let rp8 := rp8 ^^^ cur
  let cur := w 9; let tmppar := tmppar ^^^ cur; let rp6 := rp6 ^^^ cur; let rp8 := rp8 ^^^ cur
  let cur := w 10; let tmppar := tmppar ^^^ cur; let rp4 := rp4 ^^^ cur; let rp8 := rp8 ^^^ cur
  let cur := w 11; let tmppar := tmppar ^^^ cur; let rp8 := rp8 ^^^ cur
  let cur := w 12; let tmppar := tmppar ^^^ cur; let rp4 := rp4 ^^^ cur; let rp6 := rp6 ^^^ cur
  let cur := w 13; let tmppar := tmppar ^^^ cur; let rp6 := rp6 ^^^ cur
  let cur := w 14; let tmppar := tmppar ^^^ cur; let rp4 := rp4 ^^^ cur
  let cur := w 15; let tmppar := tmppar ^^^ cur
  -- the tests of the round number for the upper bits of the word index
  { par := p.par ^^^ tmppar, rp4 := rp4, rp6 := rp6, rp8 := rp8, rp10 := rp10
    rp12 := if i &&& 0x1 = 0 then p.rp12 ^^^ tmppar else p.rp12
    rp14 := if i &&& 0x2 = 0 then p.rp14 ^^^ tmppar else p.rp14
    rp16 := if mult = 2 ∧ i &&& 0x4 = 0 then p.rp16 ^^^ tmppar else p.rp16 }

def parityLoop (mult : ℕ) (words : ℕ → BitVec 32) : ℕ → Parities
  | 0 => ⟨0, 0, 0, 0, 0, 0, 0, 0⟩
  | i + 1 => parityRound mult (fun k => words (16 * i + k)) i (parityLoop mult words i)

def foldByte (x : BitVec 32) : BitVec 8 :=
  let x := x ^^^ (x >>> 16)
  let x := x ^^^ (x >>> 8)
  x.setWidth 8

/-- The parities `rp0` to `rp17`, by number -/
def rowParity (cfg : EccConfig) (p : Parities) : ℕ → BitVec 8
  | 0 => if cfg.bigEndian then (half p.par >>> 8).setWidth 8 else (half p.par).setWidth 8
  | 1 => if cfg.bigEndian then (half p.par).setWidth 8 else (half p.par >>> 8).setWidth 8
  | 2 => if cfg.bigEndian then upper p.par else lower p.par
  | 3 => if cfg.bigEndian then lower p.par else upper p.par
  | 4 => foldByte p.rp4
  | 5 => foldByte p.par ^^^ foldByte p.rp4
  | 6 => foldByte p.rp6
  | 7 => foldByte p.par ^^^ foldByte p.rp6
  | 8 => foldByte p.rp8
  | 9 => foldByte p.par ^^^ foldByte p.rp8
  | 10 => foldByte p.rp10
  | 11 => foldByte p.par ^^^ foldByte p.rp10
  | 12 => foldByte p.rp12
  | 13 => foldByte p.par ^^^ foldByte p.rp12
  | 14 => foldByte p.rp14
  | 15 => foldByte p.par ^^^ foldByte p.rp14
  | 16 => foldByte p.rp16
  | _ => foldByte p.par ^^^ foldByte p.rp16
where
  /-- `par` reduced to 16 bits -/
  half (par : BitVec 32) : BitVec 32 := par ^^^ (par >>> 16)
  upper (par : BitVec 32) : BitVec 8 := let x := par >>> 16; (x ^^^ (x >>> 8)).setWidth 8
  lower (par : BitVec 32) : BitVec 8 := let x := par &&& 0xffff; (x ^^^ (x >>> 8)).setWidth 8

def inv (x : BitVec 8) : BitVec 8 := BitVec.ofNat 8 (lookup invparity x)

def pack (rp : ℕ → BitVec 8) : BitVec 8 :=
  (inv (rp 7) <<< 7) ||| (inv (rp 6) <<< 6) ||| (inv (rp 5) <<< 5) ||| (inv (rp 4) <<< 4) |||
  (inv (rp 3) <<< 3) ||| (inv (rp 2) <<< 2) ||| (inv (rp 1) <<< 1) ||| inv (rp 0)

/-- The parities over the bits of the bytes, in the upper six bits of the third code byte -/
def columns (par : BitVec 8) : BitVec 8 :=
  (inv (par &&& 0xf0) <<< 7) ||| (inv (par &&& 0x0f) <<< 6) ||| (inv (par &&& 0xcc) <<< 5) |||
  (inv (par &&& 0x33) <<< 4) ||| (inv (par &&& 0xaa) <<< 3) ||| (inv (par &&& 0x55) <<< 2)

def lowByte (cfg : EccConfig) : ℕ := if cfg.smc then 0 else 1

def highByte (cfg : EccConfig) : ℕ := if cfg.smc then 1 else 0

/-- `__nand_calculate_ecc`: the bytes of the code -/
def calculateEcc (cfg : EccConfig) (buf : ℕ → BitVec 8) (eccsize : ℕ) (k : ℕ) : BitVec 8 :=
  let mult := eccsize >>> 8
  let p := parityLoop mult (word cfg buf) (mult <<< 2)
  let rp := rowParity cfg p
  if k = lowByte cfg then pack rp
  else if k = highByte cfg then pack fun i => rp (8 + i)
  else if mult = 1 then columns (foldByte p.par) ||| 3
  else columns (foldByte p.par) ||| (inv (rp 17) <<< 1) ||| (inv (rp 16) <<< 0)

/-! ## What the loop accumulates

Bit by bit: parity number `4 + 2 * k` is the sum over the words whose index has a 0 at bit `k`. -/

open Finset

def Parities.row (p : Parities) : ℕ → BitVec 32
  | 0 => p.rp4
  | 1 => p.rp6
  | 2 => p.rp8
  | 3 => p.rp10
  | 4 => p.rp12
  | 5 => p.rp14
  | _ => p.rp16

section Loop

variable (mult : ℕ) (w : ℕ → BitVec 32) (i : ℕ) (p : Parities) (t : ℕ)

theorem parityRound_par :
    (parityRound mult w i p).par.getLsbD t =
      p.par.getLsbD t + ∑ x ∈ range 16, (w x).getLsbD t := by
  simp only [parityRound, BitVec.getLsbD_xor, sum_range_succ, sum_range_zero, Bool.add_eq_xor,
    Bool.zero_eq_false, Bool.false_xor]

theorem parityRound_low {k : ℕ} (hk : k < 4) :
    ((parityRound mult w i p).row k).getLsbD t =
      (p.row k).getLsbD t + bitSum (fun x => (w x).getLsbD t) 16 k false := by
  rw [bitSum_eq_sum]
  -- the sixteen words one by one; `tmppar` stands for a prefix of them
  interval_cases k <;>
    simp [parityRound, Parities.row, sum_range_succ, Bool.add_eq_xor, Bool.zero_eq_false,
      Nat.testBit]

theorem and_eq_zero_iff (k : ℕ) : i &&& 2 ^ k = 0 ↔ i.testBit k = false := by
  rw [Nat.and_two_pow]
  cases i.testBit k <;> simp

theorem parityRound_high {k : ℕ} (hk : k < 3) (hmult : k = 2 → mult = 2) :
    ((parityRound mult w i p).row (4 + k)).getLsbD t =
      (p.row (4 + k)).getLsbD t +
        if i.testBit k = false then ∑ x ∈ range 16, (w x).getLsbD t else 0 := by
  have hbit := and_eq_zero_iff i k
  by_cases h : i.testBit k = false
  · -- the round counts
    have hzero := hbit.mpr h
    rw [if_pos h]
    interval_cases k <;> simp only [Nat.reducePow] at hzero <;>
      simp only [parityRound, Parities.row, hzero, hmult, if_true, and_true, BitVec.getLsbD_xor,
        sum_range_succ, sum_range_zero, Bool.add_eq_xor, Bool.zero_eq_false, Bool.false_xor]
  · -- it does not
    have hzero := mt hbit.mp h
    rw [if_neg h, add_zero]
    interval_cases k <;> simp only [Nat.reducePow] at hzero <;>
      simp only [parityRound, Parities.row, hzero, if_false, and_false]

variable (words : ℕ → BitVec 32)

theorem bitSum_round (f : ℕ → Bool) (k : ℕ) (v : Bool) :
    bitSum f (16 * (i + 1)) k v = bitSum f (16 * i) k v +
      if k < 4 then bitSum (fun x => f (16 * i + x)) 16 k v
      else if i.testBit (k - 4) = v then ∑ x ∈ range 16, f (16 * i + x) else 0 := by
  by_cases hk : k < 4
  · -- within a round the place decides
    have hrows : ∀ n, bitSum f (16 * n) k v =
        ∑ a ∈ range n, bitSum (fun x => f (16 * a + x)) 16 k v := fun n => bitSum_low f k v n hk
    rw [if_pos hk, hrows, hrows, sum_range_succ]
  · -- otherwise the round as a whole
    have hrows : ∀ n, bitSum f (16 * n) k v =
        bitSum (fun a => ∑ x ∈ range 16, f (16 * a + x)) n (k - 4) v :=
      fun n => bitSum_high f k v n (not_lt.mp hk)
    rw [if_neg hk, hrows, hrows, bitSum_eq_sum, bitSum_eq_sum, sum_range_succ]

theorem parityLoop_par (rounds : ℕ) :
    (parityLoop mult words rounds).par.getLsbD t =
      ∑ x ∈ range (16 * rounds), (words x).getLsbD t := by
  induction rounds with
  | zero => simp [parityLoop]; rfl
  | succ rounds ih => rw [parityLoop, parityRound_par, ih, Nat.mul_succ, sum_range_add]

theorem parityLoop_row (rounds : ℕ) {k : ℕ} (hk : k < 7) (hmult : k = 6 → mult = 2) :
    ((parityLoop mult words rounds).row k).getLsbD t =
      bitSum (fun x => (words x).getLsbD t) (16 * rounds) k false := by
  induction rounds with
  | zero => interval_cases k <;> simp [parityLoop, Parities.row, bitSum] <;> rfl
  | succ rounds ih =>
    rw [parityLoop, bitSum_round, ← ih]
    -- the lower four bits of the index are the place in the round, the others its number
    by_cases hlow : k < 4
    · rw [parityRound_low _ _ _ _ _ hlow, if_pos hlow]
    · obtain ⟨j, rfl⟩ := Nat.exists_eq_add_of_le (not_lt.mp hlow)
      rw [parityRound_high _ _ _ _ _ (by omega) fun h => hmult (by omega), if_neg hlow,
        Nat.add_sub_cancel_left]

end Loop

/-! ## From words to bytes -/

/-- Where a byte of a word is in the register -/
def lane (cfg : EccConfig) (b : ℕ) : ℕ := if cfg.bigEndian then 3 - b else b

section Bytes

variable (cfg : EccConfig) (buf : ℕ → BitVec 8)

theorem getLsbD_ofBytes (x : ℕ → BitVec 8) {b j : ℕ} (hb : b < 4) (hj : j < 8) :
    (ofBytes x).getLsbD (8 * b + j) = (x b).getLsbD j := by
  change (x 3 ++ x 2 ++ x 1 ++ x 0).getLsbD (8 * b + j) = _
  simp only [BitVec.getLsbD_append]
  -- the byte at each place
  interval_cases b
  · rw [if_pos (by omega), Nat.mul_zero, Nat.zero_add]
  · rw [if_neg (by omega), if_pos (by omega), show 8 * 1 + j - 8 = j by omega]
  · rw [if_neg (by omega), if_neg (by omega), if_pos (by omega),
      show 8 * 2 + j - 8 - 8 = j by omega]
  · rw [if_neg (by omega), if_neg (by omega), if_neg (by omega),
      show 8 * 3 + j - 8 - 8 - 8 = j by omega]

theorem getLsbD_word (i : ℕ) {b j : ℕ} (hb : b < 4) (hj : j < 8) :
    (word cfg buf i).getLsbD (8 * lane cfg b + j) = (buf (4 * i + b)).getLsbD j := by
  have hlane : lane cfg b < 4 := by
    rw [lane]
    split <;> omega
  have hback : (if cfg.bigEndian then 3 - lane cfg b else lane cfg b) = b := by
    rw [lane]
    split <;> omega
  rw [word, getLsbD_ofBytes _ hlane hj, hback]

theorem getLsbD_half (x : BitVec 32) (t : ℕ) :
    (rowParity.half x).getLsbD t = x.getLsbD t + x.getLsbD (16 + t) := by
  rw [rowParity.half, BitVec.getLsbD_xor, BitVec.getLsbD_ushiftRight]
  rfl

theorem getLsbD_lower (x : BitVec 32) {j : ℕ} (hj : j < 8) :
    (rowParity.lower x).getLsbD j = x.getLsbD j + x.getLsbD (8 + j) := by
  have hmask : ∀ t < 16, (0xffff : BitVec 32).getLsbD t = true := by decide
  simp only [rowParity.lower, BitVec.getLsbD_setWidth, BitVec.getLsbD_xor, BitVec.getLsbD_and,
    BitVec.getLsbD_ushiftRight, hmask j (by omega), hmask (8 + j) (by omega), hj, decide_true,
    Bool.true_and, Bool.and_true]
  rfl

theorem getLsbD_upper (x : BitVec 32) {j : ℕ} (hj : j < 8) :
    (rowParity.upper x).getLsbD j = x.getLsbD (16 + j) + x.getLsbD (24 + j) := by
  simp only [rowParity.upper, BitVec.getLsbD_setWidth, BitVec.getLsbD_xor,
    BitVec.getLsbD_ushiftRight, hj, decide_true, Bool.true_and, ← Nat.add_assoc]
  rfl

theorem getLsbD_foldByte (x : BitVec 32) {j : ℕ} (hj : j < 8) :
    (foldByte x).getLsbD j = ∑ b ∈ range 4, x.getLsbD (8 * lane cfg b + j) := by
  have hbits : (foldByte x).getLsbD j =
      x.getLsbD j + x.getLsbD (16 + j) + (x.getLsbD (8 + j) + x.getLsbD (24 + j)) := by
    rw [foldByte, ← rowParity.half]
    simp only [BitVec.getLsbD_setWidth, BitVec.getLsbD_xor, BitVec.getLsbD_ushiftRight,
      getLsbD_half, hj, decide_true, Bool.true_and, ← Nat.add_assoc]
    rfl
  rw [hbits]
  simp only [lane, sum_range_succ, sum_range_zero, zero_add]
  -- with the other byte order the same bytes are summed the other way round
  cases cfg.bigEndian <;>
    simp only [if_true, if_false, Bool.false_eq_true, Nat.reduceSub, Nat.reduceMul, Nat.zero_add,
      Nat.mul_zero] <;>
    ac_rfl

theorem getLsbD_rowParity (p : Parities) {k j : ℕ} (v : Bool) (hk : k < 2) (hj : j < 8) :
    (rowParity cfg p (2 * k + v.toNat)).getLsbD j =
      bitSum (fun b => p.par.getLsbD (8 * lane cfg b + j)) 4 k v := by
  -- the bytes at odd and at even places
  have hodd : ((rowParity.half p.par >>> 8).setWidth 8).getLsbD j =
      p.par.getLsbD (8 + j) + p.par.getLsbD (24 + j) := by
    rw [BitVec.getLsbD_setWidth, BitVec.getLsbD_ushiftRight, getLsbD_half, ← Nat.add_assoc]
    simp [hj]
  have heven : ((rowParity.half p.par).setWidth 8).getLsbD j =
      p.par.getLsbD j + p.par.getLsbD (16 + j) := by
    rw [BitVec.getLsbD_setWidth, getLsbD_half]
    simp [hj]
  simp only [bitSum_eq_sum, sum_range_succ, sum_range_zero, lane]
  interval_cases k <;> cases v <;> cases h : cfg.bigEndian <;>
    simp [rowParity, h, heven, hodd, getLsbD_lower _ hj, getLsbD_upper _ hj, Nat.testBit, add_comm]

/-! ## The parities as sums over bytes -/

variable (mult rounds : ℕ) {k j : ℕ}

theorem sum_word (i : ℕ) (hj : j < 8) :
    ∑ b ∈ range 4, (word cfg buf i).getLsbD (8 * lane cfg b + j) =
      ∑ b ∈ range 4, (buf (4 * i + b)).getLsbD j :=
  sum_congr rfl fun _ hb => getLsbD_word cfg buf i (mem_range.mp hb) hj

theorem foldByte_par (hj : j < 8) :
    (foldByte (parityLoop mult (word cfg buf) rounds).par).getLsbD j =
      ∑ a ∈ range (4 * (16 * rounds)), (buf a).getLsbD j := by
  rw [getLsbD_foldByte cfg _ hj, sum_range_mul]
  simp only [parityLoop_par]
  -- bytes of a word inside, words outside
  rw [sum_comm]
  exact sum_congr rfl fun i _ => sum_word cfg buf i hj

theorem foldByte_row (hk : k < 7) (hmult : k = 6 → mult = 2) (hj : j < 8) :
    (foldByte ((parityLoop mult (word cfg buf) rounds).row k)).getLsbD j =
      bitSum (fun a => (buf a).getLsbD j) (4 * (16 * rounds)) (k + 2) false := by
  have hrows : bitSum (fun a => (buf a).getLsbD j) (4 * (16 * rounds)) (k + 2) false =
      bitSum (fun i => ∑ b ∈ range 4, (buf (4 * i + b)).getLsbD j) (16 * rounds) k false :=
    bitSum_high _ (k + 2) false _ (Nat.le_add_left 2 k)
  rw [getLsbD_foldByte cfg _ hj, hrows]
  simp only [parityLoop_row _ _ _ _ hk hmult]
  rw [← bitSum_sum]
  exact bitSum_congr _ _ fun i _ => sum_word cfg buf i hj

theorem rowParity_low (v : Bool) (hk : k < 2) (hj : j < 8) :
    (rowParity cfg (parityLoop mult (word cfg buf) rounds) (2 * k + v.toNat)).getLsbD j =
      bitSum (fun a => (buf a).getLsbD j) (4 * (16 * rounds)) k v := by
  have hrows : bitSum (fun a => (buf a).getLsbD j) (4 * (16 * rounds)) k v =
      ∑ i ∈ range (16 * rounds), bitSum (fun b => (buf (4 * i + b)).getLsbD j) 4 k v :=
    bitSum_low _ k v _ hk
  rw [getLsbD_rowParity cfg _ v hk hj, hrows]
  simp only [parityLoop_par]
  rw [bitSum_sum]
  exact sum_congr rfl fun i _ => bitSum_congr _ _ fun b hb => getLsbD_word cfg buf i hb hj

/-- **The row parities**: a bit of parity `2 * k + v` is the sum over the bytes whose address has
    `v` at bit `k`. -/
theorem rowParity_eq (v : Bool) (hk : k < 9) (hmult : k = 8 → mult = 2) (hj : j < 8) :
    (rowParity cfg (parityLoop mult (word cfg buf) rounds) (2 * k + v.toNat)).getLsbD j =
      bitSum (fun a => (buf a).getLsbD j) (4 * (16 * rounds)) k v := by
  by_cases hlow : k < 2
  · exact rowParity_low cfg buf mult rounds v hlow hj
  · obtain ⟨i, rfl⟩ := Nat.exists_eq_add_of_le' (not_lt.mp hlow)
    have heven := foldByte_row cfg buf mult rounds (k := i) (by omega)
      (fun h => hmult (by omega)) hj
    -- the odd parities are the even ones taken from the whole
    have heq : rowParity cfg (parityLoop mult (word cfg buf) rounds) (2 * (i + 2) + v.toNat) =
        if v then foldByte (parityLoop mult (word cfg buf) rounds).par ^^^
            foldByte ((parityLoop mult (word cfg buf) rounds).row i)
          else foldByte ((parityLoop mult (word cfg buf) rounds).row i) := by
      have hi : i < 7 := by omega
      cases v <;> interval_cases i <;> rfl
    rw [heq]
    cases v
    · exact heven
    · rw [if_pos rfl, BitVec.getLsbD_xor, heven, foldByte_par cfg buf mult rounds hj]
      exact sum_add_bitSum_false _ _ _

end Bytes

/-! ## The code as check bits -/

def parity (x : BitVec 8) : Bool := ∑ j ∈ range 8, x.getLsbD j

theorem parity_eq (x : BitVec 8) : parity x = (x.getLsbD 0 ^^ x.getLsbD 1 ^^ x.getLsbD 2 ^^
    x.getLsbD 3 ^^ x.getLsbD 4 ^^ x.getLsbD 5 ^^ x.getLsbD 6 ^^ x.getLsbD 7) := by
  simp [parity, sum_range_succ, Bool.add_eq_xor]

theorem inv_eq (x : BitVec 8) : inv x = (BitVec.ofBool (!parity x)).setWidth 8 := by
  have htable : lookup invparity x = _ := lookup_of_eq (fun x => (!(x.getLsbD 0 ^^ x.getLsbD 1 ^^
    x.getLsbD 2 ^^ x.getLsbD 3 ^^ x.getLsbD 4 ^^ x.getLsbD 5 ^^ x.getLsbD 6 ^^
    x.getLsbD 7)).toNat) (by decide +kernel) x
  rw [inv, htable, ← parity_eq]
  cases parity x <;> rfl

theorem getLsbD_pack (rp : ℕ → BitVec 8) {i : ℕ} (hi : i < 8) :
    (pack rp).getLsbD i = !parity (rp i) := by
  simp only [pack, inv_eq]
  interval_cases i <;> simp

/-- The bits of a byte whose address has `v` at bit `q` -/
def columnMask : ℕ → Bool → BitVec 8
  | 0, false => 0x55
  | 0, true => 0xaa
  | 1, false => 0x33
  | 1, true => 0xcc
  | _, false => 0x0f
  | _, true => 0xf0

theorem parity_columnMask (x : BitVec 8) {q : ℕ} (v : Bool) (hq : q < 3) :
    parity (x &&& columnMask q v) = bitSum (fun j => x.getLsbD j) 8 q v := by
  rw [parity, bitSum_eq_sum]
  refine sum_congr rfl fun j hj => ?_
  have hmask : ∀ q < 3, ∀ v, ∀ j < 8, (columnMask q v).getLsbD j = decide (j.testBit q = v) := by
    decide
  rw [BitVec.getLsbD_and, hmask q hq v j (mem_range.mp hj)]
  split
  · simp [*]
  · simp [*, Bool.zero_eq_false]

theorem getLsbD_columns (par : BitVec 8) {q : ℕ} (v : Bool) (hq : q < 3) :
    (columns par).getLsbD (2 * (q + 1) + v.toNat) = !parity (par &&& columnMask q v) := by
  simp only [columns, inv_eq]
  interval_cases q <;> cases v <;> simp [columnMask]

def pairOf (b : BitVec 8) (i : ℕ) (v : Bool) : Bool := b.getLsbD (2 * i + v.toNat)

/-- The pairs of the code: first those for the address of a bit in its byte, then those for the
    address of the byte -/
def codePair (low high last : BitVec 8) (q : ℕ) : Bool → Bool :=
  if q < 3 then pairOf last (q + 1)
  else if q < 7 then pairOf low (q - 3)
  else if q < 11 then pairOf high (q - 7)
  else pairOf last 0

def dataBit (buf : ℕ → BitVec 8) (addr : ℕ) : Bool := (buf (addr / 8)).getLsbD (addr % 8)

theorem dataBit_mul_add (buf : ℕ → BitVec 8) (a : ℕ) {j : ℕ} (hj : j < 8) :
    dataBit buf (8 * a + j) = (buf a).getLsbD j := by
  rw [dataBit, show (8 * a + j) / 8 = a by omega, show (8 * a + j) % 8 = j by omega]

section Code

variable (cfg : EccConfig) (buf : ℕ → BitVec 8) (mult rounds : ℕ)

theorem parity_rowParity {k : ℕ} (v : Bool) (hk : k < 9) (hmult : k = 8 → mult = 2) :
    parity (rowParity cfg (parityLoop mult (word cfg buf) rounds) (2 * k + v.toNat)) =
      bitSum (dataBit buf) (8 * (4 * (16 * rounds))) (k + 3) v := by
  have hrows : bitSum (dataBit buf) (8 * (4 * (16 * rounds))) (k + 3) v =
      bitSum (fun a => ∑ j ∈ range 8, dataBit buf (8 * a + j)) (4 * (16 * rounds)) k v :=
    bitSum_high _ (k + 3) v _ (Nat.le_add_left 3 k)
  rw [parity, hrows, bitSum_sum]
  refine sum_congr rfl fun j hj => ?_
  rw [rowParity_eq cfg buf mult rounds v hk hmult (mem_range.mp hj)]
  exact bitSum_congr _ _ fun a _ => (dataBit_mul_add buf a (mem_range.mp hj)).symm

theorem parity_columns {q : ℕ} (v : Bool) (hq : q < 3) :
    parity (foldByte (parityLoop mult (word cfg buf) rounds).par &&& columnMask q v) =
      bitSum (dataBit buf) (8 * (4 * (16 * rounds))) q v := by
  have hrows : bitSum (dataBit buf) (8 * (4 * (16 * rounds))) q v =
      ∑ a ∈ range (4 * (16 * rounds)), bitSum (fun j => dataBit buf (8 * a + j)) 8 q v :=
    bitSum_low _ q v _ hq
  rw [parity_columnMask _ v hq, hrows, ← bitSum_sum]
  refine bitSum_congr _ _ fun j hj => ?_
  rw [foldByte_par cfg buf mult rounds hj]
  exact sum_congr rfl fun a _ => (dataBit_mul_add buf a hj).symm

end Code

/-- The number of bits in the address of a bit: 11 for 256 bytes, 12 for 512 -/
def addrBits (eccsize : ℕ) : ℕ := 10 + eccsize >>> 8

def codeBits (cfg : EccConfig) (code : ℕ → BitVec 8) : ℕ → Bool → Bool :=
  codePair (code (lowByte cfg)) (code (highByte cfg)) (code 2)

section CodeBytes

variable (cfg : EccConfig) (buf : ℕ → BitVec 8) (mult : ℕ)

theorem shiftRight_eight : (256 * mult) >>> 8 = mult := by
  rw [Nat.shiftRight_eq_div_pow]
  omega

theorem shiftLeft_two : mult <<< 2 = 4 * mult := by
  rw [Nat.shiftLeft_eq]
  omega

theorem highByte_ne_lowByte : highByte cfg ≠ lowByte cfg := by
  rw [highByte, lowByte]
  split <;> decide

theorem two_ne_byte : 2 ≠ lowByte cfg ∧ 2 ≠ highByte cfg := by
  rw [highByte, lowByte]
  split <;> decide

def bufParities : Parities := parityLoop mult (word cfg buf) (4 * mult)

theorem calculateEcc_low :
    calculateEcc cfg buf (256 * mult) (lowByte cfg) =
      pack (rowParity cfg (bufParities cfg buf mult)) := by
  rw [calculateEcc, if_pos rfl, shiftRight_eight, shiftLeft_two]
  rfl

theorem calculateEcc_high :
    calculateEcc cfg buf (256 * mult) (highByte cfg) =
      pack fun i => rowParity cfg (bufParities cfg buf mult) (8 + i) := by
  rw [calculateEcc, if_neg (highByte_ne_lowByte cfg), if_pos rfl, shiftRight_eight, shiftLeft_two]
  rfl

theorem calculateEcc_last :
    calculateEcc cfg buf (256 * mult) 2 =
      if mult = 1 then columns (foldByte (bufParities cfg buf mult).par) ||| 3
      else columns (foldByte (bufParities cfg buf mult).par) |||
        (inv (rowParity cfg (bufParities cfg buf mult) 17) <<< 1) |||
        (inv (rowParity cfg (bufParities cfg buf mult) 16) <<< 0) := by
  rw [calculateEcc, if_neg (two_ne_byte cfg).1, if_neg (two_ne_byte cfg).2, shiftRight_eight,
    shiftLeft_two]
  rfl

theorem calculateEcc_column {q : ℕ} (v : Bool) (hq : q < 3) :
    pairOf (calculateEcc cfg buf (256 * mult) 2) (q + 1) v =
      !parity (foldByte (bufParities cfg buf mult).par &&& columnMask q v) := by
  rw [calculateEcc_last, ← getLsbD_columns _ v hq, pairOf]
  simp only [inv_eq]
  split <;> interval_cases q <;> cases v <;> simp

theorem calculateEcc_lastRow (v : Bool) :
    pairOf (calculateEcc cfg buf 512 2) 0 v =
      !parity (rowParity cfg (bufParities cfg buf 2) (16 + v.toNat)) := by
  have hlast := calculateEcc_last cfg buf 2
  rw [pairOf, hlast]
  simp only [inv_eq, columns]
  cases v <;> simp

end CodeBytes

/-- **The code is a pair parity code**: its bits are the check bits of the data, inverted. -/
theorem calculateEcc_bit (cfg : EccConfig) (buf : ℕ → BitVec 8) {eccsize q : ℕ} (v : Bool)
    (hsize : eccsize = 256 ∨ eccsize = 512) (hq : q < addrBits eccsize) :
    codeBits cfg (calculateEcc cfg buf eccsize) q v =
      !check (addrBits eccsize) (dataBit buf) q v := by
  obtain ⟨mult, rfl, hmult⟩ : ∃ mult, eccsize = 256 * mult ∧ (mult = 1 ∨ mult = 2) := by
    rcases hsize with rfl | rfl
    · exact ⟨1, rfl, .inl rfl⟩
    · exact ⟨2, rfl, .inr rfl⟩
  -- a code for 256 bytes has 11 pairs, one for 512 bytes has 12
  have hbits : 2 ^ addrBits (256 * mult) = 8 * (4 * (16 * (4 * mult))) := by
    rw [addrBits, shiftRight_eight]
    rcases hmult with rfl | rfl <;> rfl
  rw [addrBits, shiftRight_eight] at hq
  rw [check, hbits, codeBits, codePair]
  -- the bits of a code byte are those of `codePair`, group by group
  by_cases hcol : q < 3
  · rw [if_pos hcol, calculateEcc_column cfg buf mult v hcol, bufParities,
      parity_columns cfg buf mult _ v hcol]
  · obtain ⟨k, rfl⟩ := Nat.exists_eq_add_of_le' (not_lt.mp hcol)
    rw [if_neg hcol, ← parity_rowParity cfg buf mult (4 * mult) v (by omega) (by omega),
      ← bufParities]
    by_cases hlow : k + 3 < 7
    · rw [if_pos hlow, calculateEcc_low, pairOf, getLsbD_pack _ (by cases v <;> simp <;> omega),
        Nat.add_sub_cancel]
    · rw [if_neg hlow]
      by_cases hhigh : k + 3 < 11
      · rw [if_pos hhigh, calculateEcc_high, pairOf, getLsbD_pack _ (by cases v <;> simp <;> omega),
          show 8 + (2 * (k + 3 - 7) + v.toNat) = 2 * k + v.toNat by omega]
      · -- the last pair is there for 512 bytes only
        obtain rfl : k = 8 := by omega
        obtain rfl : mult = 2 := by omega
        rw [if_neg hhigh]
        exact calculateEcc_lastRow cfg buf v

end NucKernel.Nand.SoftEcc
