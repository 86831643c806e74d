import Mathlib.Data.List.Basic

/-!
# Reading and writing parts of a list

A list that stands for the contents of a device: a slice is read from a position on, and cells from
a position on are combined with new ones. Both are described for a list that is made of two others.
-/

namespace NucKernel.Library.Splice

variable {α : Type*}

/-- The `n` elements from position `pos` on, or fewer at the end of the list -/
def slice (l : List α) (pos n : ℕ) : List α := (l.drop pos).take n

/-- Each cell from `pos` on takes one element of `d`; `prog` says what becomes of the old one. -/
def overwrite (prog : α → α → α) (l : List α) (pos : ℕ) (d : List α) : List α :=
  l.mapIdx fun i old => if pos ≤ i then (d[i - pos]?).elim old (prog old) else old

variable (prog : α → α → α) (a b d e l : List α) (pos n : ℕ)

theorem length_slice (h : pos + n ≤ l.length) : (slice l pos n).length = n := by
  simp only [slice, List.length_take, List.length_drop]
  omega

theorem slice_append_of_le (h : a.length ≤ pos) :
    slice (a ++ b) pos n = slice b (pos - a.length) n := by
  rw [slice, slice, List.drop_append, List.drop_eq_nil_of_le h, List.nil_append]

theorem slice_append_inside (h : pos + n ≤ a.length) : slice (a ++ b) pos n = slice a pos n := by
  rw [slice, slice, List.drop_append_of_le_length (by omega), List.take_append_of_le_length]
  rw [List.length_drop]
  omega

/-- A slice that goes beyond the first list -/
theorem slice_append_across (h : pos ≤ a.length) (hn : a.length ≤ pos + n) :
    slice (a ++ b) pos n =
      slice a pos (a.length - pos) ++ slice b 0 (n - (a.length - pos)) := by
  have hall : ∀ k, a.length - pos ≤ k → (a.drop pos).take k = a.drop pos := fun k hk =>
    List.take_of_length_le (by rw [List.length_drop]; exact hk)
  rw [slice, slice, slice, List.drop_append_of_le_length h, List.take_append, List.drop_zero,
    List.length_drop, hall n (by omega), hall _ (Nat.le_refl _)]

@[simp] theorem length_overwrite : (overwrite prog l pos d).length = l.length := by
  simp [overwrite]

@[simp] theorem overwrite_nil : overwrite prog l pos [] = l := by
  apply List.ext_getElem?
  intro i
  cases h : l[i]? <;> simp [overwrite, h]

theorem overwrite_append_of_le (h : a.length ≤ pos) :
    overwrite prog (a ++ b) pos d = a ++ overwrite prog b (pos - a.length) d := by
  -- the first list has no cell behind the position
  have hfirst : (a.mapIdx fun i old => if pos ≤ i then (d[i - pos]?).elim old (prog old) else old) =
      a := by
    apply List.ext_getElem (by simp)
    intro i hi _
    rw [List.length_mapIdx] at hi
    simp [show ¬ pos ≤ i by omega]
  rw [overwrite, List.mapIdx_append, hfirst, overwrite]
  congr 2
  funext i old
  have hpos : pos ≤ i + a.length ↔ pos - a.length ≤ i := by omega
  have hidx : i + a.length - pos = i - (pos - a.length) := by omega
  simp only [hpos, hidx]

/-- A write that begins in the first list: the second one gets what does not fit. -/
theorem overwrite_append_inside (h : pos ≤ a.length) :
    overwrite prog (a ++ b) pos d = overwrite prog a pos (d.take (a.length - pos)) ++
      overwrite prog b 0 (d.drop (a.length - pos)) := by
  rw [overwrite, List.mapIdx_append]
  congr 1
  · -- cells of the first list
    apply List.ext_getElem (by simp)
    intro i hi _
    rw [List.length_mapIdx] at hi
    by_cases hpos : pos ≤ i
    · simp [overwrite, hpos, List.getElem?_take, show i - pos < a.length - pos by omega]
    · simp [overwrite, hpos]
  · -- cells of the second list
    rw [overwrite]
    congr 1
    funext i old
    have hidx : i + a.length - pos = a.length - pos + (i - 0) := by omega
    simp [show pos ≤ i + a.length by omega, List.getElem?_drop, hidx]

/-- Two writes one behind the other are one write. -/
theorem overwrite_overwrite :
    overwrite prog (overwrite prog l pos d) (pos + d.length) e = overwrite prog l pos (d ++ e) := by
  apply List.ext_getElem (by simp)
  intro i hi _
  rw [length_overwrite, length_overwrite] at hi
  simp only [overwrite, List.getElem_mapIdx]
  by_cases hpos : pos ≤ i
  · by_cases hsnd : pos + d.length ≤ i
    · -- the cell belongs to the second write
      have hnone : d[i - pos]? = none := List.getElem?_eq_none (by omega)
      simp [hpos, hsnd, hnone, List.getElem?_append_right (show d.length ≤ i - pos by omega),
        show i - pos - d.length = i - (pos + d.length) by omega]
    · simp [hpos, hsnd, List.getElem?_append_left (show i - pos < d.length by omega)]
  · simp [hpos, show ¬ pos + d.length ≤ i by omega]

end NucKernel.Library.Splice
