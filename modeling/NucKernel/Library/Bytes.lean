import Mathlib.Data.Nat.Notation

/-!
# Statements about single bytes

A property of all bytes is checked on the 256 bit vectors of length eight, where `decide` can
enumerate them.
-/

namespace NucKernel.Library

/-- A statement about one byte holds if it holds of all 256 of them. -/
theorem forall_uint8 {p : UInt8 → Prop} (h : ∀ b : BitVec 8, p ⟨b⟩) (x : UInt8) : p x := by
  obtain ⟨b⟩ := x
  exact h b

end NucKernel.Library
