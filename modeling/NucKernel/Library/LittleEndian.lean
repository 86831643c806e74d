import Mathlib.Data.Nat.Bitwise

/-!
# Byte strings as little-endian numbers

A byte string is read as the number `leValue` whose base-256 digits are its bytes, the lowest
first.
-/

namespace NucKernel.Library

/-- The number whose base-256 digits are `bs`, the first byte being the lowest. -/
def leValue : List UInt8 → ℕ
  | [] => 0
  | b :: bs => 2 ^ 8 * leValue bs + b.toNat

/-- Bit `i` of the number is bit `i % 8` of byte `i / 8`. -/
theorem testBit_leValue (bs : List UInt8) (i : ℕ) :
    (leValue bs).testBit i = (bs.getD (i / 8) 0).toNat.testBit (i % 8) := by
  induction bs generalizing i with
  | nil => simp [leValue]
  | cons b bs ih =>
    rw [leValue, Nat.testBit_two_pow_mul_add _ b.toNat_lt]
    rcases Nat.lt_or_ge i 8 with hi | hi
    · -- the bit is in the first byte
      rw [if_pos hi, Nat.div_eq_of_lt hi, Nat.mod_eq_of_lt hi, List.getD_cons_zero]
    · have hq : i / 8 = (i - 8) / 8 + 1 := by omega
      have hr : i % 8 = (i - 8) % 8 := by omega
      rw [if_neg (Nat.not_lt.mpr hi), ih, hq, hr, List.getD_cons_succ]

end NucKernel.Library
