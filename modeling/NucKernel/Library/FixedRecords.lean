import Mathlib.Data.List.Flatten
import Mathlib.Tactic.Common

/-!
# Streams of fixed-size records

Facts about the concatenation of records that all have length `n`: its length, and how a cut at a
record boundary splits it.
-/

namespace NucKernel.Library

universe u

variable {α : Type u} {n : ℕ}

theorem length_flatten_fixed {rs : List (List α)} (h : ∀ r ∈ rs, r.length = n) :
    rs.flatten.length = rs.length * n := by
  induction rs with
  | nil => simp
  | cons r rs ih =>
    have hr := h r (List.mem_cons_self ..)
    have hrs := ih fun r' hr' => h r' (List.mem_cons_of_mem _ hr')
    simp only [List.flatten_cons, List.length_append, List.length_cons, hr, hrs]
    rw [Nat.succ_mul, Nat.add_comm]

/-- Cutting a stream of whole records after `k` whole records leaves whole records on both sides. -/
theorem flatten_split_fixed {rs : List (List α)} (h : ∀ r ∈ rs, r.length = n) {a b : List α}
    (hab : a ++ b = rs.flatten) {k : ℕ} (hk : a.length = k * n) (hn : 0 < n) :
    a = (rs.take k).flatten ∧ b = (rs.drop k).flatten := by
  have htot := length_flatten_fixed h
  have hle : k ≤ rs.length := by
    have hlen : a.length ≤ rs.length * n := by
      rw [← htot, ← hab]
      simp
    rw [hk] at hlen
    exact Nat.le_of_mul_le_mul_right hlen hn
  have htake : (rs.take k).flatten.length = k * n := by
    rw [length_flatten_fixed fun r hr => h r (List.mem_of_mem_take hr), List.length_take,
      Nat.min_eq_left hle]
  have hsplit : (rs.take k).flatten ++ (rs.drop k).flatten = rs.flatten := by
    rw [← List.flatten_append, List.take_append_drop]
  exact List.append_inj (hab.trans hsplit.symm) (hk.trans htake.symm)

end NucKernel.Library
