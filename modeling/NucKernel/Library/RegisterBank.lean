import Mathlib.Data.Nat.Notation

/-!
# Banks of device registers

One register of `w` bits per port, over any type of ports. Drivers update such a bank one bit at a
time by reading a register, setting or clearing the bit and writing the register back; the lemmas
below say what every bit of the bank is afterwards.
-/

namespace NucKernel.Library

universe u

/-- One register of `w` bits per port -/
def Bank (P : Type u) (w : ℕ) := P → BitVec w

/-- The word `0x1 << n` -/
def oneBit (w n : ℕ) : BitVec w := 1#w <<< n

theorem getLsbD_oneBit {w n : ℕ} (m : ℕ) (hn : n < w) :
    (oneBit w n).getLsbD m = decide (m = n) := by
  rw [oneBit, ← BitVec.twoPow_eq, BitVec.getLsbD_twoPow, Bool.eq_iff_iff]
  simp only [Bool.and_eq_true, decide_eq_true_eq]
  exact ⟨fun h => h.2.symm, fun h => ⟨h ▸ hn, h.symm⟩⟩

namespace Bank

variable {P : Type u} [DecidableEq P] {w : ℕ}

/-- Bit `n` of the register of port `p` -/
def bit (b : Bank P w) (p : P) (n : ℕ) : Bool := (b p).getLsbD n

/-- Read the register of port `p`, apply `f` and write it back. -/
def modify (b : Bank P w) (p : P) (f : BitVec w → BitVec w) : Bank P w :=
  fun q => if q = p then f (b q) else b q

/-- The register of port `p` or-ed with a word -/
def orWord (b : Bank P w) (p : P) (v : BitVec w) : Bank P w := b.modify p (· ||| v)

/-- The register of port `p` without the bits of a word -/
def andNotWord (b : Bank P w) (p : P) (v : BitVec w) : Bank P w := b.modify p (· &&& ~~~v)

theorem bit_orWord (b : Bank P w) (p q : P) (v : BitVec w) (m : ℕ) :
    (b.orWord p v).bit q m = (b.bit q m || (decide (q = p) && v.getLsbD m)) := by
  by_cases h : q = p <;> simp [bit, orWord, modify, h]

theorem bit_andNotWord (b : Bank P w) (p q : P) (v : BitVec w) {m : ℕ} (hm : m < w) :
    (b.andNotWord p v).bit q m = (b.bit q m && !(decide (q = p) && v.getLsbD m)) := by
  by_cases h : q = p <;> simp [bit, andNotWord, modify, h, hm]

end Bank

end NucKernel.Library
