import Mathlib.Data.Fintype.Card

/-!
# Slot tables

A table of `n` slots, each of them empty or holding a value, as `Fin n → Option α`. The operations
are those of a pool kept in an array: look for the first slot with a property, fill an empty slot,
empty a used one.
-/

namespace NucKernel.Library

universe u

variable {n : ℕ} {α : Type u}

/-- The number of slots in use. -/
def occupied (t : Fin n → Option α) : ℕ := (Finset.univ.filter fun i => (t i).isSome).card

@[simp] theorem occupied_empty : occupied (fun _ : Fin n => (none : Option α)) = 0 := by
  simp [occupied]

theorem occupied_fill {t : Fin n → Option α} {i : Fin n} (h : t i = none) (x : α) :
    occupied (Function.update t i (some x)) = occupied t + 1 := by
  have hset : (Finset.univ.filter fun j => (Function.update t i (some x) j).isSome) =
      insert i (Finset.univ.filter fun j => (t j).isSome) := by
    ext j
    rcases eq_or_ne j i with rfl | hj
    · simp
    · simp [hj]
  unfold occupied
  rw [hset]
  apply Finset.card_insert_of_notMem
  simp [h]

theorem occupied_clear {t : Fin n → Option α} {i : Fin n} {x : α} (h : t i = some x) :
    occupied (Function.update t i none) + 1 = occupied t := by
  -- filling the slot again restores the table
  have hback : Function.update (Function.update t i none) i (some x) = t := by
    rw [Function.update_idem, ← h, Function.update_eq_self]
  rw [← occupied_fill (Function.update_self i none t) x, hback]

theorem occupied_pos {t : Fin n → Option α} {i : Fin n} {x : α} (h : t i = some x) :
    0 < occupied t := by
  have := occupied_clear h
  omega

/-- A value that a changed slot held neither before nor after is in the table as before. -/
theorem exists_update_iff {t : Fin n → Option α} {i : Fin n} {v : Option α} {y : α}
    (hold : t i ≠ some y) (hnew : v ≠ some y) :
    (∃ j, Function.update t i v j = some y) ↔ ∃ j, t j = some y := by
  constructor
  · rintro ⟨j, hj⟩
    rcases eq_or_ne j i with rfl | hji
    · rw [Function.update_self] at hj
      exact absurd hj hnew
    · rw [Function.update_of_ne hji] at hj
      exact ⟨j, hj⟩
  · rintro ⟨j, hj⟩
    have hji : j ≠ i := by
      rintro rfl
      exact hold hj
    exact ⟨j, (Function.update_of_ne hji v t).trans hj⟩

theorem occupied_of_no_free {t : Fin n → Option α}
    (h : Fin.find? (fun i => (t i).isNone) = none) : occupied t = n := by
  have hall : ∀ i, (t i).isSome = true := by
    intro i
    simpa [Option.isNone_eq_false_iff] using Fin.find?_eq_none_iff.mp h i
  simp [occupied, hall]

end NucKernel.Library
