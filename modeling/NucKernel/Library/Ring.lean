import Mathlib.Data.List.Rotate
import Mathlib.Data.Nat.ModEq

/-!
# Ring storage

A ring of `size` cells is a memory `mem : ℕ → α` read at positions modulo `size`. The queue it
holds is given by the position of its oldest element and its length. Two facts carry every
implementation that copies contiguous segments:

- `ringList_append` - copying a segment to the free end appends it to the queue
- `ringList_split` - a segment at the oldest end is a prefix of the queue

Rings that move one element at a time use them as `ringList_push` and `ringList_pop`.
-/

namespace NucKernel.Library

universe u

variable {α : Type u}

/-- The `n` elements stored from position `tail` on. -/
def ringList (mem : ℕ → α) (size tail n : ℕ) : List α :=
  (List.range n).map fun i => mem ((tail + i) % size)

/-- The memory after `n` elements of `src` were copied to positions `pos, pos + 1, ...`. -/
def copyInto (mem : ℕ → α) (pos : ℕ) (src : ℕ → α) (n : ℕ) : ℕ → α :=
  fun j => if pos ≤ j ∧ j < pos + n then src (j - pos) else mem j

@[simp] theorem ringList_length (mem : ℕ → α) (size tail n : ℕ) :
    (ringList mem size tail n).length = n := by
  simp [ringList]

@[simp] theorem ringList_zero (mem : ℕ → α) (size tail : ℕ) : ringList mem size tail 0 = [] := rfl

theorem ringList_take (mem : ℕ → α) {size tail n k : ℕ} (hk : k ≤ n) :
    (ringList mem size tail n).take k = ringList mem size tail k := by
  rw [ringList, ← List.map_take, List.take_range, Nat.min_eq_left hk, ringList]

theorem ringList_drop (mem : ℕ → α) (size tail n k : ℕ) :
    (ringList mem size tail n).drop k = ringList mem size ((tail + k) % size) (n - k) := by
  apply List.ext_getElem
  · simp
  · intro i _ _
    simp [ringList, Nat.add_assoc]

/-- Positions less than one revolution apart are different cells. -/
theorem ring_pos_ne {size tail i j : ℕ} (hij : i < j) (hj : j < size) :
    (tail + i) % size ≠ (tail + j) % size := by
  intro h
  have hmod : tail + i ≡ tail + j [MOD size] := h
  have := Nat.ModEq.eq_of_lt_of_lt (Nat.ModEq.add_left_cancel' tail hmod) (by omega) hj
  omega

theorem ring_pos_ne_tail {size tail i : ℕ} (htail : tail < size) (hi : i + 1 < size) :
    (tail + (i + 1)) % size ≠ tail := by
  have hne := @ring_pos_ne size tail 0 (i + 1) (by omega) hi
  rw [Nat.add_zero, Nat.mod_eq_of_lt htail] at hne
  exact hne.symm

theorem ring_pos_tail_succ (size tail i : ℕ) :
    ((tail + 1) % size + i) % size = (tail + (i + 1)) % size := by
  rw [Nat.mod_add_mod, Nat.add_assoc, Nat.add_comm 1]

theorem ring_pos_head_succ (size tail n : ℕ) :
    ((tail + n) % size + 1) % size = (tail + (n + 1)) % size := by
  rw [Nat.mod_add_mod, Nat.add_assoc]

theorem ringList_congr {mem mem' : ℕ → α} {size tail n : ℕ}
    (h : ∀ i < n, mem ((tail + i) % size) = mem' ((tail + i) % size)) :
    ringList mem size tail n = ringList mem' size tail n := by
  apply List.map_congr_left
  intro i hi
  exact h i (List.mem_range.mp hi)

/-- The distance from `tail` to the position after the queue is the length of the queue. -/
theorem ring_distance {size tail n : ℕ} (htail : tail < size) (hn : n < size) :
    ((tail + n) % size + size - tail) % size = n := by
  have hmod : (tail + n) % size + size - tail ≡ n [MOD size] := by
    refine Nat.ModEq.add_right_cancel' tail ?_
    rw [Nat.sub_add_cancel (by omega), Nat.add_comm n]
    exact Nat.add_modEq_right.trans (Nat.mod_modEq _ _)
  exact Nat.ModEq.eq_of_lt_of_lt ((Nat.mod_modEq _ _).trans hmod) (Nat.mod_lt _ (by omega)) hn

theorem ring_pos_segment {size tail n k c : ℕ} (hseg : (tail + n) % size + c ≤ size) (hk : k < c) :
    (tail + (n + k)) % size = (tail + n) % size + k := by
  rw [← Nat.add_assoc, ← Nat.mod_add_mod]
  exact Nat.mod_eq_of_lt (by omega)

/-- Copying a segment of `c` elements to the free end of the ring appends it to the queue. -/
theorem ringList_append (mem src : ℕ → α) {size tail n c : ℕ}
    (hseg : (tail + n) % size + c ≤ size) (hroom : n + c ≤ size) :
    ringList (copyInto mem ((tail + n) % size) src c) size tail (n + c) =
      ringList mem size tail n ++ (List.range c).map src := by
  rw [ringList, List.range_add, List.map_append, List.map_map]
  congr 1
  · -- the occupied cells are not overwritten
    apply List.map_congr_left
    intro i hi
    rw [List.mem_range] at hi
    refine if_neg ?_
    rintro ⟨hle, hlt⟩
    obtain ⟨k, hk⟩ := Nat.exists_eq_add_of_le hle
    have hkc : k < c := by omega
    rw [← ring_pos_segment hseg hkc] at hk
    exact ring_pos_ne (by omega) (by omega) hk
  · -- the new cells hold the segment
    apply List.map_congr_left
    intro k hk
    rw [List.mem_range] at hk
    simp only [Function.comp_apply, ring_pos_segment hseg hk, copyInto]
    rw [if_pos ⟨by omega, by omega⟩]
    congr 1
    omega

/-- A segment of `c` elements at the oldest end is a prefix of the queue. -/
theorem ringList_split (mem : ℕ → α) {size tail c : ℕ} (n : ℕ)
    (hseg : tail + c ≤ size) :
    ringList mem size tail (c + n) =
      (List.range c).map (fun i => mem (tail + i)) ++ ringList mem size ((tail + c) % size) n := by
  rw [ringList, List.range_add, List.map_append, List.map_map]
  congr 1
  · -- the segment does not cross the end of the ring
    apply List.map_congr_left
    intro i hi
    rw [List.mem_range] at hi
    rw [Nat.mod_eq_of_lt (by omega)]
  · apply List.map_congr_left
    intro i _
    simp only [Function.comp_apply, Nat.mod_add_mod, Nat.add_assoc]

/-- An element stored at the free end of the ring -/
theorem ringList_push (mem : ℕ → α) {size tail n : ℕ} (a : α) (hroom : n < size) :
    ringList (Function.update mem ((tail + n) % size) a) size tail (n + 1) =
      ringList mem size tail n ++ [a] := by
  have hpos : (tail + n) % size < size := Nat.mod_lt _ (by omega)
  -- a single cell is a segment of length one
  have hone : Function.update mem ((tail + n) % size) a =
      copyInto mem ((tail + n) % size) (fun _ => a) 1 := by
    funext j
    by_cases hj : j = (tail + n) % size
    · rw [hj, Function.update_self, copyInto, if_pos (by omega)]
    · rw [Function.update_of_ne hj, copyInto, if_neg (by omega)]
  rw [hone, ringList_append mem _ (by omega) (by omega)]
  rfl

/-- The element at the oldest end is the head of the queue. -/
theorem ringList_pop (mem : ℕ → α) {size tail : ℕ} (n : ℕ) (htail : tail < size) :
    ringList mem size tail (n + 1) = mem tail :: ringList mem size ((tail + 1) % size) n := by
  rw [Nat.add_comm, ringList_split mem n (by omega)]
  rfl

/-- One revolution from anywhere meets every cell once. -/
theorem ringList_perm (mem : ℕ → α) (size tail : ℕ) :
    (ringList mem size tail size).Perm ((List.range size).map mem) := by
  -- the positions are a rotation of `0, ..., size - 1`
  have hrotate : (List.range size).rotate tail =
      (List.range size).map fun i => (tail + i) % size := by
    apply List.ext_getElem
    · simp
    · intro i _ _
      simp [List.getElem_rotate, Nat.add_comm]
  have hperm := ((List.range size).rotate_perm tail).map mem
  rw [hrotate, List.map_map] at hperm
  exact hperm

end NucKernel.Library
