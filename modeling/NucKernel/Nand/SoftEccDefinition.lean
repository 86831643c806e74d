import NucKernel.Nand.SoftEcc

/-!
# The software ECC by its definition

The code of `__nand_calculate_ecc` as a Hamming code is defined, bit by bit over the bytes of the
buffer: a parity for every bit of the address of a byte and of a bit in its byte, and for each of
the two values of that bit. `calculateEcc_eq_hamming` shows that the unrolled computation on words
gives these bits for both byte orders.
-/

namespace NucKernel.Nand.SoftEcc

open NucKernel.Library.PairParity Finset

/-- The parity of the bytes whose address has `v` at bit `k` -/
def rowParityOf (buf : ℕ → BitVec 8) (eccsize k : ℕ) (v : Bool) : Bool :=
  ∑ a ∈ range eccsize with a.testBit k = v, ∑ j ∈ range 8, (buf a).getLsbD j

/-- The parity of the bits whose address in their byte has `v` at bit `k` -/
def columnParityOf (buf : ℕ → BitVec 8) (eccsize k : ℕ) (v : Bool) : Bool :=
  ∑ a ∈ range eccsize, ∑ j ∈ range 8 with j.testBit k = v, (buf a).getLsbD j

/-- A bit of the code. The row parities are in the first two bytes, in the order that
    `CONFIG_MTD_NAND_ECC_SMC` selects; the last byte has the column parities, and behind them the
    last pair of row parities or ones. -/
def hammingBit (cfg : EccConfig) (buf : ℕ → BitVec 8) (eccsize byte bit : ℕ) : Bool :=
  let v := decide (bit % 2 = 1)
  if byte = lowByte cfg then !rowParityOf buf eccsize (bit / 2) v
  else if byte = highByte cfg then !rowParityOf buf eccsize (4 + bit / 2) v
  else if 2 ≤ bit then !columnParityOf buf eccsize (bit / 2 - 1) v
  else if eccsize = 256 then true
  else !rowParityOf buf eccsize 8 v

section Sums

variable {buf : ℕ → BitVec 8} {eccsize : ℕ} (hsize : eccsize = 256 ∨ eccsize = 512)

include hsize

theorem two_pow_addrBits : 2 ^ addrBits eccsize = 8 * eccsize := by
  rcases hsize with rfl | rfl <;> rfl

theorem check_row (k : ℕ) (v : Bool) :
    check (addrBits eccsize) (dataBit buf) (k + 3) v = rowParityOf buf eccsize k v := by
  have hrows : bitSum (dataBit buf) (8 * eccsize) (k + 3) v =
      bitSum (fun a => ∑ j ∈ range 8, dataBit buf (8 * a + j)) eccsize k v :=
    bitSum_high _ (k + 3) v _ (Nat.le_add_left 3 k)
  rw [check, two_pow_addrBits hsize, hrows, bitSum, rowParityOf]
  refine sum_congr rfl fun a _ => sum_congr rfl fun j hj => ?_
  exact dataBit_mul_add buf a (mem_range.mp hj)

theorem check_column {k : ℕ} (hk : k < 3) (v : Bool) :
    check (addrBits eccsize) (dataBit buf) k v = columnParityOf buf eccsize k v := by
  have hrows : bitSum (dataBit buf) (8 * eccsize) k v =
      ∑ a ∈ range eccsize, bitSum (fun j => dataBit buf (8 * a + j)) 8 k v :=
    bitSum_low _ k v _ hk
  rw [check, two_pow_addrBits hsize, hrows, columnParityOf]
  refine sum_congr rfl fun a _ => sum_congr rfl fun j hj => ?_
  exact dataBit_mul_add buf a (mem_range.mp (mem_filter.mp hj).1)

end Sums

theorem calculateEcc_unused (cfg : EccConfig) (buf : ℕ → BitVec 8) {bit : ℕ} (hbit : bit < 2) :
    (calculateEcc cfg buf 256 2).getLsbD bit = true := by
  rw [show (256 : ℕ) = 256 * 1 from rfl, calculateEcc_last, if_pos rfl]
  interval_cases bit <;> simp

theorem pairOf_half (b : BitVec 8) (bit : ℕ) :
    pairOf b (bit / 2) (decide (bit % 2 = 1)) = b.getLsbD bit := by
  have hbit : 2 * (bit / 2) + (decide (bit % 2 = 1)).toNat = bit := by
    by_cases hodd : bit % 2 = 1
    · rw [decide_eq_true hodd, Bool.toNat_true]
      omega
    · rw [decide_eq_false hodd, Bool.toNat_false]
      omega
  rw [pairOf, hbit]

theorem eq_two_of_ne {cfg : EccConfig} {byte : ℕ} (hbyte : byte < 3) (hlow : ¬ byte = lowByte cfg)
    (hhigh : ¬ byte = highByte cfg) : byte = 2 := by
  rw [lowByte] at hlow
  rw [highByte] at hhigh
  split_ifs at hlow hhigh <;> omega

/-- **The code is the one of the definition**, for 256 and 512 bytes, both byte orders and both
    orders of the code bytes. -/
theorem calculateEcc_eq_hamming (cfg : EccConfig) (buf : ℕ → BitVec 8) {eccsize byte bit : ℕ}
    (hsize : eccsize = 256 ∨ eccsize = 512) (hbyte : byte < 3) (hbit : bit < 8) :
    (calculateEcc cfg buf eccsize byte).getLsbD bit = hammingBit cfg buf eccsize byte bit := by
  have hcode (q : ℕ) (v : Bool) (hq : q < addrBits eccsize) :=
    calculateEcc_bit cfg buf v hsize hq
  have hbits : 11 ≤ addrBits eccsize := by rcases hsize with rfl | rfl <;> decide
  simp only [hammingBit]
  split_ifs with hlow hhigh hcol hunused
  · -- the row parities of the two first bytes
    rw [← check_row hsize, ← hcode _ _ (by omega), codeBits, codePair, if_neg (by omega),
      if_pos (by omega), Nat.add_sub_cancel, pairOf_half, ← hlow]
  · rw [← check_row hsize, ← hcode _ _ (by omega), codeBits, codePair, if_neg (by omega),
      if_neg (by omega), if_pos (by omega), show 4 + bit / 2 + 3 - 7 = bit / 2 by omega,
      pairOf_half, ← hhigh]
  · -- the column parities in the last byte
    rw [← check_column hsize (by omega), ← hcode _ _ (by omega), codeBits, codePair,
      if_pos (by omega), show bit / 2 - 1 + 1 = bit / 2 by omega, pairOf_half,
      eq_two_of_ne hbyte hlow hhigh]
  · rw [eq_two_of_ne hbyte hlow hhigh, hunused]
    exact calculateEcc_unused cfg buf (by omega)
  · -- the last pair of row parities
    obtain rfl : eccsize = 512 := hsize.resolve_left hunused
    have hpair : bit / 2 = 0 := by omega
    rw [← check_row hsize, ← hcode _ _ (by decide), codeBits, codePair, if_neg (by decide),
      if_neg (by decide), if_neg (by decide), ← hpair, pairOf_half, eq_two_of_ne hbyte hlow hhigh]

theorem calculateEcc_eq_hamming_one :
    (calculateEcc ⟨true, false⟩ (fun i => if i = 5 then 1 else 0) 256 1).getLsbD 5 =
      hammingBit ⟨true, false⟩ (fun i => if i = 5 then 1 else 0) 256 1 5 :=
  calculateEcc_eq_hamming _ _ (.inl rfl) (by decide) (by decide)

end NucKernel.Nand.SoftEcc
