import Mathlib.Data.List.Basic
import Mathlib.Data.List.GetD

/-!
# Buffers as functions

A buffer whose bounds are not taken for granted is a function from positions to values. `load` reads
a number of positions, `store` overwrites as many as a list has: the two sides of a copy.
-/

namespace NucKernel.Library

universe u

variable {α : Type u} {m m' : ℕ → α} {pos n : ℕ} {l : List α}

/-- The `n` values at `pos` -/
def load (m : ℕ → α) (pos n : ℕ) : List α := (List.range n).map fun i => m (pos + i)

/-- The buffer after a list was copied to `pos` -/
def store (m : ℕ → α) (pos : ℕ) (l : List α) : ℕ → α :=
  fun i => if pos ≤ i then l.getD (i - pos) (m i) else m i

@[simp] theorem length_load (m : ℕ → α) (pos n : ℕ) : (load m pos n).length = n := by
  simp [load]

@[simp] theorem load_zero (m : ℕ → α) (pos : ℕ) : load m pos 0 = [] := rfl

theorem getElem?_load {i : ℕ} (hi : i < n) : (load m pos n)[i]? = some (m (pos + i)) := by
  simp [load, hi]

theorem load_congr (h : ∀ i, pos ≤ i → i < pos + n → m i = m' i) :
    load m pos n = load m' pos n := by
  refine List.map_congr_left fun i hi => ?_
  have := List.mem_range.mp hi
  exact h (pos + i) (by omega) (by omega)

theorem load_add (m : ℕ → α) (pos a b : ℕ) :
    load m pos (a + b) = load m pos a ++ load m (pos + a) b := by
  simp only [load, List.range_add, List.map_append, List.map_map]
  congr 1
  exact List.map_congr_left fun i _ => congrArg m (by simp only; omega)

theorem load_succ (m : ℕ → α) (pos n : ℕ) : load m pos (n + 1) = m pos :: load m (pos + 1) n := by
  rw [Nat.add_comm n 1, load_add]
  rfl

theorem take_load (m : ℕ → α) (pos : ℕ) {k n : ℕ} (hk : k ≤ n) :
    (load m pos n).take k = load m pos k := by
  obtain ⟨d, rfl⟩ := Nat.exists_eq_add_of_le hk
  rw [load_add, List.take_append_of_le_length (by simp), List.take_of_length_le (by simp)]

/-- What is read and what is written have nothing in common. -/
theorem store_outside {i : ℕ} (h : i < pos ∨ pos + l.length ≤ i) : store m pos l i = m i := by
  unfold store
  split
  · rw [List.getD_eq_default _ _ (by omega)]
  · rfl

theorem store_inside {i : ℕ} (h : i < l.length) : store m pos l (pos + i) = l.get ⟨i, h⟩ := by
  rw [store, if_pos (by omega), Nat.add_sub_cancel_left, List.getD_eq_getElem _ _ h]
  rfl

theorem store_load_apply (m m' : ℕ → α) (pos pos' n i : ℕ) :
    store m pos (load m' pos' n) i =
      if pos ≤ i ∧ i < pos + n then m' (pos' + (i - pos)) else m i := by
  split
  · rename_i h
    obtain ⟨k, rfl⟩ := Nat.exists_eq_add_of_le h.1
    -- a position of the copy
    have hk : k < (load m' pos' n).length := by
      rw [length_load]
      omega
    rw [store_inside hk, Nat.add_sub_cancel_left]
    simp [load]
  · rename_i h
    rw [store_outside]
    rw [length_load]
    omega

theorem load_store (m : ℕ → α) (pos : ℕ) (l : List α) : load (store m pos l) pos l.length = l := by
  refine List.ext_getElem (by simp) fun i hi hi' => ?_
  simp only [load, List.getElem_map, List.getElem_range]
  exact store_inside hi'

theorem load_store_of_le {n : ℕ} (hn : n ≤ l.length) : load (store m pos l) pos n = l.take n := by
  rw [← take_load _ _ hn, load_store]

theorem load_store_disjoint {pos' : ℕ} (h : pos + n ≤ pos' ∨ pos' + l.length ≤ pos) :
    load (store m pos' l) pos n = load m pos n :=
  load_congr fun i hi hi' => store_outside (by omega)

/-- A buffer that is filled from `pos` on, one copy after the other -/
theorem load_store_append {a : List α} (h : load m pos n = a) (l : List α) :
    load (store m (pos + n) l) pos (n + l.length) = a ++ l := by
  rw [load_add, load_store, load_store_disjoint (Or.inl (Nat.le_refl _)), h]

end NucKernel.Library
