import Mathlib.Algebra.Group.Int.Defs

/-!
# Binary search by a three-way comparison

`bsearchFrom cmp lo hi` looks for an index with `cmp i = 0` between `lo` and `hi`, where `cmp i` is
negative if the index looked for is smaller than `i`. What it finds it has compared
(`bsearchFrom_sound`); if the signs of `cmp` are in order, it finds what there is
(`bsearchFrom_eq_some`).
-/

namespace NucKernel.Library

/-- The half-open interval from `lo` to `hi` is halved until it is empty. -/
def bsearchFrom (cmp : ℕ → ℤ) (lo hi : ℕ) : Option ℕ :=
  if lo < hi then
    let mid := lo + (hi - lo) / 2
    if cmp mid < 0 then bsearchFrom cmp lo mid
    else if 0 < cmp mid then bsearchFrom cmp (mid + 1) hi
    else some mid
  else none
termination_by hi - lo
decreasing_by all_goals omega

variable {cmp : ℕ → ℤ} {lo hi i : ℕ}

theorem bsearchFrom_sound (h : bsearchFrom cmp lo hi = some i) : lo ≤ i ∧ i < hi ∧ cmp i = 0 := by
  fun_induction bsearchFrom cmp lo hi with
  | case1 lo hi hlt mid hneg ih =>
    have := ih h
    omega
  | case2 lo hi hlt mid hneg hpos ih =>
    have := ih h
    omega
  | case3 lo hi hlt mid hneg hpos =>
    obtain rfl := Option.some.inj h
    omega
  | case4 lo hi hlt => cases h

/-- The index is found if `cmp` is positive before it and negative behind it. -/
theorem bsearchFrom_eq_some (hlo : lo ≤ i) (hhi : i < hi) (hzero : cmp i = 0)
    (hbefore : ∀ j < i, 0 < cmp j) (hbehind : ∀ j, i < j → j < hi → cmp j < 0) :
    bsearchFrom cmp lo hi = some i := by
  fun_induction bsearchFrom cmp lo hi with
  | case1 lo hi hlt mid hneg ih =>
    -- the middle is not before the index, where `cmp` is positive
    have hmid : i < mid := by
      rcases Nat.lt_trichotomy mid i with hmid | hmid | hmid
      · have := hbefore mid hmid
        omega
      · rw [hmid] at hneg
        omega
      · exact hmid
    exact ih hlo hmid fun j hj hj' => hbehind j hj (by omega)
  | case2 lo hi hlt mid hneg hpos ih =>
    have hmid : mid < i := by
      rcases Nat.lt_trichotomy mid i with hmid | hmid | hmid
      · exact hmid
      · rw [hmid] at hpos
        omega
      · have := hbehind mid hmid (by omega)
        omega
    exact ih hmid hhi hbehind
  | case3 lo hi hlt mid hneg hpos =>
    congr 1
    rcases Nat.lt_trichotomy mid i with hmid | hmid | hmid
    · have := hbefore mid hmid
      omega
    · exact hmid
    · have := hbehind mid hmid (by omega)
      omega
  | case4 lo hi hlt => omega

end NucKernel.Library
