import Mathlib.Data.List.Basic

/-!
# Greedy scans of a sample stream

`skipCount p n l` drops the shortest prefix of `l` in which `n` samples satisfy `p`. It is the
specification-level reading of a counter that counts matching samples and ignores the others.
-/

namespace NucKernel.Library

universe u

variable {α : Type u} (p : α → Bool)

/-- Drop samples until `n` of them have satisfied `p`; `none` if the stream ends before. -/
def skipCount : ℕ → List α → Option (List α)
  | 0, l => some l
  | _ + 1, [] => none
  | n + 1, a :: l => if p a then skipCount n l else skipCount (n + 1) l

@[simp] theorem skipCount_zero (l : List α) : skipCount p 0 l = some l := by
  cases l <;> rfl

@[simp] theorem skipCount_nil (n : ℕ) : skipCount p (n + 1) [] = none := rfl

theorem skipCount_hit {a : α} (h : p a = true) (n : ℕ) (l : List α) :
    skipCount p (n + 1) (a :: l) = skipCount p n l := by
  simp [skipCount, h]

theorem skipCount_miss {a : α} (h : p a = false) (n : ℕ) (l : List α) :
    skipCount p (n + 1) (a :: l) = skipCount p (n + 1) l := by
  simp [skipCount, h]

/-- A scan consumes at least the samples it counts. -/
theorem skipCount_length {n : ℕ} {l l' : List α} (h : skipCount p n l = some l') :
    l'.length + n ≤ l.length := by
  induction l generalizing n with
  | nil =>
    cases n with
    | zero => simp at h; simp [← h]
    | succ n => simp at h
  | cons a l ih =>
    cases n with
    | zero => simp at h; simp [← h]
    | succ n =>
      by_cases ha : p a = true
      · -- the sample counts
        rw [skipCount_hit p ha] at h
        have := ih h
        simp only [List.length_cons]
        omega
      · -- the sample is skipped
        rw [skipCount_miss p (by simpa using ha)] at h
        have := ih h
        simp only [List.length_cons]
        omega

/-- A run of `n` matching samples satisfies a scan for `n` of them exactly. -/
theorem skipCount_replicate {a : α} (h : p a = true) (n : ℕ) (l : List α) :
    skipCount p n (List.replicate n a ++ l) = some l := by
  induction n with
  | zero => simp
  | succ n ih => rw [List.replicate_succ, List.cons_append, skipCount_hit p h, ih]

end NucKernel.Library
