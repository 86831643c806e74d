import Mathlib.Order.Nat

/-!
# Lowest element of an interval

`Lowest P a b r` is the specification of a search of `[a, b)` for the lowest number with `P`: `r`
is that number, or `none` if the interval has none. The rules follow the ways a search proceeds:
it stops at a hit, skips a stretch without hits, or goes on in a second interval.
-/

namespace NucKernel.Library

/-- `r` is the lowest number of `[a, b)` with `P`, `none` if there is none. -/
def Lowest (P : ℕ → Prop) (a b : ℕ) : Option ℕ → Prop
  | none => ∀ q, a ≤ q → q < b → ¬ P q
  | some p => a ≤ p ∧ p < b ∧ P p ∧ ∀ q, a ≤ q → q < p → ¬ P q

namespace Lowest

variable {P Q : ℕ → Prop} {a b c : ℕ} {r r' : Option ℕ}

theorem of_le (h : b ≤ a) : Lowest P a b none :=
  fun _ ha hb => absurd (lt_of_lt_of_le hb h) (not_lt.mpr ha)

theorem hit (hb : a < b) (h : P a) : Lowest P a b (some a) :=
  ⟨le_rfl, hb, h, fun _ ha hq => absurd hq (not_lt.mpr ha)⟩

/-- A stretch without hits may be skipped, also past the end of the interval. -/
theorem skip (hac : a ≤ c) (hskip : ∀ q, a ≤ q → q < c → q < b → ¬ P q) (h : Lowest P c b r) :
    Lowest P a b r := by
  cases r with
  | none =>
    intro q ha hb
    rcases lt_or_ge q c with hq | hq
    · -- the number is skipped
      exact hskip q ha hq hb
    · exact h q hq hb
  | some p =>
    obtain ⟨hc, hb, hp, hleast⟩ := h
    refine ⟨hac.trans hc, hb, hp, fun q ha hq => ?_⟩
    rcases lt_or_ge q c with hqc | hqc
    · exact hskip q ha hqc (hq.trans hb)
    · exact hleast q hqc hq

/-- A search that found nothing goes on where it stopped. -/
theorem append_none (hac : a ≤ c) (h : Lowest P a c none) (h' : Lowest P c b r) :
    Lowest P a b r :=
  skip hac (fun q ha hq _ => h q ha hq) h'

/-- What is found in an initial part of the interval is the lowest of all of it. -/
theorem mono_some {p : ℕ} (hcb : c ≤ b) (h : Lowest P a c (some p)) : Lowest P a b (some p) :=
  ⟨h.1, lt_of_lt_of_le h.2.1 hcb, h.2.2⟩

theorem extend_iff (hcb : c ≤ b) (h : Lowest P a c r) :
    Lowest P a b r ↔ (r = none → ∀ q, a ≤ q → c ≤ q → q < b → ¬ P q) := by
  cases r with
  | none =>
    constructor
    · intro hall _ q ha _ hb
      exact hall q ha hb
    · intro hrest q ha hb
      rcases lt_or_ge q c with hq | hq
      · exact h q ha hq
      · exact hrest rfl q ha hq hb
  | some p => exact ⟨fun _ hp => by simp at hp, fun _ => mono_some hcb h⟩

theorem eq_none_iff (h : Lowest P a b r) : r = none ↔ ∀ q, a ≤ q → q < b → ¬ P q := by
  cases r with
  | none => exact ⟨fun _ => h, fun _ => rfl⟩
  | some p =>
    constructor
    · intro hp
      simp at hp
    · intro hall
      exact absurd h.2.2.1 (hall p h.1 h.2.1)

/-- The search may be carried out in coordinates that start at `k`. -/
theorem shift {k : ℕ} (hPQ : ∀ q, a ≤ q → q < b → (P (k + q) ↔ Q q)) (h : Lowest Q a b r) :
    Lowest P (k + a) (k + b) (r.map (k + ·)) := by
  cases r with
  | none =>
    intro q ha hb
    obtain ⟨q, rfl⟩ := Nat.exists_eq_add_of_le (show k ≤ q by omega)
    rw [hPQ q (by omega) (by omega)]
    exact h q (by omega) (by omega)
  | some p =>
    obtain ⟨ha, hb, hp, hleast⟩ := h
    rw [Option.map_some]
    refine ⟨by omega, by omega, (hPQ p ha hb).mpr hp, fun q hq hqp => ?_⟩
    obtain ⟨q, rfl⟩ := Nat.exists_eq_add_of_le (show k ≤ q by omega)
    rw [hPQ q (by omega) (by omega)]
    exact hleast q (by omega) (by omega)

end Lowest

end NucKernel.Library
