import Mathlib.Data.Nat.Notation

/-!
# Counting loops that may fail

`forLoop body n` runs `body 0`, `body 1` and so on until `n` passes are done, and stops without a
result where a pass has none. An invariant that mentions the number of passes proves what a loop
does (`forLoop_inv`); a pass that fails after the passes before it makes the loop fail
(`forLoop_eq_none`).
-/

namespace NucKernel.Library

universe u

variable {σ : Type u} {body : ℕ → σ → Option σ}

/-- The loop `for (i = 0; i < n; i++)` -/
def forLoop (body : ℕ → σ → Option σ) : ℕ → σ → Option σ
  | 0, s => some s
  | n + 1, s => (forLoop body n s).bind (body n)

theorem forLoop_succ (body : ℕ → σ → Option σ) (n : ℕ) (s : σ) :
    forLoop body (n + 1) s = (forLoop body n s).bind (body n) := rfl

/-- **Invariant rule**: what holds at first and is carried from pass to pass holds at the end, and
    there is an end. -/
theorem forLoop_inv (inv : ℕ → σ → Prop) {n : ℕ}
    (hstep : ∀ k < n, ∀ s, inv k s → ∃ s', body k s = some s' ∧ inv (k + 1) s') {s : σ}
    (hs : inv 0 s) : ∃ s', forLoop body n s = some s' ∧ inv n s' := by
  induction n with
  | zero => exact ⟨s, rfl, hs⟩
  | succ n ih =>
    obtain ⟨mid, hmid, hinv⟩ := ih fun k hk => hstep k (Nat.lt_succ_of_lt hk)
    obtain ⟨s', hs', hinv'⟩ := hstep n (Nat.lt_succ_self n) mid hinv
    exact ⟨s', by rw [forLoop_succ, hmid, Option.bind_some, hs'], hinv'⟩

theorem forLoop_eq_some (f : ℕ → σ) {n : ℕ} (hstep : ∀ k < n, body k (f k) = some (f (k + 1))) :
    forLoop body n (f 0) = some (f n) := by
  obtain ⟨s', hs', rfl⟩ := forLoop_inv (fun k s => s = f k)
    (fun k hk s hs => ⟨f (k + 1), hs ▸ hstep k hk, rfl⟩) rfl
  exact hs'

/-- A pass without a result ends the loop. -/
theorem forLoop_eq_none {k n : ℕ} (hkn : k < n) (hfail : ∀ s, body k s = none) (s : σ) :
    forLoop body n s = none := by
  induction n with
  | zero => exact absurd hkn (Nat.not_lt_zero k)
  | succ n ih =>
    rw [forLoop_succ]
    rcases Nat.lt_or_ge k n with hk | hk
    · -- the failing pass comes before the last one
      rw [ih hk, Option.bind_none]
    · obtain rfl : k = n := Nat.le_antisymm (Nat.le_of_lt_succ hkn) hk
      cases forLoop body k s with
      | none => rfl
      | some mid => exact hfail mid

end NucKernel.Library
