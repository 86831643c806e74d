import Mathlib.Data.Nat.Notation

/-!
# Ranges of a memory

A memory is a function from addresses. `overwrite` replaces a range of it by the contents of a
buffer; the lemmas are what a loop needs that writes a buffer piece by piece, and what a cache needs
that holds one range. `cells` reads a range as a list and `writeList` writes one.
-/

namespace NucKernel.Library

universe u

variable {α : Type u}

/-- The memory with `len` cells from `pos` on replaced by those of a buffer -/
def overwrite (f : ℕ → α) (pos len : ℕ) (buf : ℕ → α) : ℕ → α :=
  fun a => if pos ≤ a ∧ a < pos + len then buf (a - pos) else f a

variable (f : ℕ → α) (pos len : ℕ) (buf : ℕ → α)

theorem overwrite_inside {a : ℕ} (h : pos ≤ a ∧ a < pos + len) :
    overwrite f pos len buf a = buf (a - pos) := if_pos h

theorem overwrite_outside {a : ℕ} (h : ¬ (pos ≤ a ∧ a < pos + len)) :
    overwrite f pos len buf a = f a := if_neg h

@[simp] theorem overwrite_zero : overwrite f pos 0 buf = f := by
  funext a
  exact overwrite_outside f pos 0 buf (by omega)

/-- The cells of a range, written to the range they come from -/
theorem overwrite_self : overwrite f pos len (fun i => f (pos + i)) = f := by
  funext a
  by_cases ha : pos ≤ a ∧ a < pos + len
  · rw [overwrite_inside _ _ _ _ ha, Nat.add_sub_cancel' ha.1]
  · exact overwrite_outside _ _ _ _ ha

theorem overwrite_append (n m : ℕ) :
    overwrite (overwrite f pos n buf) (pos + n) m (fun i => buf (i + n)) =
      overwrite f pos (n + m) buf := by
  funext a
  simp only [overwrite]
  by_cases hfirst : pos ≤ a ∧ a < pos + n
  · rw [if_neg (by omega), if_pos hfirst, if_pos (by omega)]
  · by_cases hsecond : pos + n ≤ a ∧ a < pos + n + m
    · rw [if_pos hsecond, if_pos (by omega), show a - (pos + n) + n = a - pos from by omega]
    · rw [if_neg hsecond, if_neg hfirst, if_neg (by omega)]

/-- Disjoint ranges can be written in either order. -/
theorem overwrite_comm {pos' len' : ℕ} (buf' : ℕ → α)
    (h : pos + len ≤ pos' ∨ pos' + len' ≤ pos) :
    overwrite (overwrite f pos len buf) pos' len' buf' =
      overwrite (overwrite f pos' len' buf') pos len buf := by
  funext a
  simp only [overwrite]
  by_cases ha : pos ≤ a ∧ a < pos + len
  · rw [if_neg (by omega), if_pos ha, if_pos ha]
  · rw [if_neg ha, if_neg ha]

theorem overwrite_within {offset size : ℕ} (cache : ℕ → α) (h : offset + size ≤ len) :
    overwrite (overwrite f pos len cache) (pos + offset) size buf =
      overwrite f pos len (overwrite cache offset size buf) := by
  funext a
  simp only [overwrite]
  by_cases hinner : pos + offset ≤ a ∧ a < pos + offset + size
  · -- the cell is written twice
    rw [if_pos hinner, if_pos (by omega), if_pos (by omega),
      show a - (pos + offset) = a - pos - offset from by omega]
  · rw [if_neg hinner]
    by_cases houter : pos ≤ a ∧ a < pos + len
    · rw [if_pos houter, if_pos houter, if_neg (by omega)]
    · rw [if_neg houter, if_neg houter]

theorem overwrite_overwrite (buf' : ℕ → α) :
    overwrite (overwrite f pos len buf) pos len buf' = overwrite f pos len buf' := by
  funext a
  simp only [overwrite]
  by_cases ha : pos ≤ a ∧ a < pos + len
  · rw [if_pos ha, if_pos ha]
  · rw [if_neg ha, if_neg ha, if_neg ha]

/-! ## Ranges as lists -/

/-- The contents of `len` cells from `pos` on -/
def cells (f : ℕ → α) (pos len : ℕ) : List α := (List.range len).map fun i => f (pos + i)

/-- The memory with a list written from `pos` on -/
def writeList (f : ℕ → α) (pos : ℕ) (xs : List α) : ℕ → α :=
  fun a => if pos ≤ a then xs.getD (a - pos) (f a) else f a

theorem cells_add (n m : ℕ) : cells f pos (n + m) = cells f pos n ++ cells f (pos + n) m := by
  simp only [cells, List.range_add, List.map_append, List.map_map, Function.comp_def, Nat.add_assoc]

/-- What lies before the written range is not changed. -/
theorem cells_writeList_before {start : ℕ} (xs : List α) (h : start + len ≤ pos) :
    cells (writeList f pos xs) start len = cells f start len := by
  refine List.map_congr_left fun i hi => ?_
  have hlt := List.mem_range.mp hi
  exact if_neg (by omega)

theorem cells_writeList (xs : List α) : cells (writeList f pos xs) pos xs.length = xs := by
  refine List.ext_getElem (by simp [cells]) fun i hi hx => ?_
  simp only [cells, List.getElem_map, List.getElem_range, writeList, Nat.le_add_right, if_true,
    Nat.add_sub_cancel_left]
  rw [List.getD_eq_getElem?_getD, List.getElem?_eq_getElem hx, Option.getD_some]

end NucKernel.Library
