import Mathlib.Data.List.Basic
import Mathlib.Data.Nat.Init

/-!
# Runs of a partial step function

A component is given by `step : σ → ι → Option σ`: `step s i = some s'` when input `i` takes the
component from `s` to `s'`, and `none` when it has stopped or when the input has no defined effect.
This module contains what every driver model below needs about whole runs:

- `runFrom` - the state a list of inputs leads to
- `Reaches` - the states some list of inputs leads to
- `Along` - a property of single steps, required of every step of a run
- `Admitted` - a condition on inputs, required of every input of a run, also of one that stops it
- `inv_of_along` / `along_of_along` - an invariant kept by the steps that meet a condition
- `along_iff` - two step properties that agree wherever the invariant holds agree on whole runs
-/

namespace NucKernel.Library

universe u v

variable {σ : Type u} {ι : Type v} {step : σ → ι → Option σ}

/-! ## Runs -/

/-- Feed a list of inputs to a partial step function. -/
def runFrom (step : σ → ι → Option σ) : σ → List ι → Option σ
  | s, [] => some s
  | s, i :: is => (step s i).bind fun s' => runFrom step s' is

/-- `P s i s'` holds at every step `s -i→ s'` that the run over the given inputs takes. -/
def Along (step : σ → ι → Option σ) (P : σ → ι → σ → Prop) : σ → List ι → Prop
  | _, [] => True
  | s, i :: is => ∀ s', step s i = some s' → P s i s' ∧ Along step P s' is

/-- A decidable step property can be checked along a concrete run. -/
instance Along.decidable (step : σ → ι → Option σ) (P : σ → ι → σ → Prop)
    [∀ s i s', Decidable (P s i s')] : ∀ s is, Decidable (Along step P s is)
  | _, [] => isTrue trivial
  | s, i :: is =>
    match h : step s i with
    | none => isTrue fun s' hs' => by rw [h] at hs'; cases hs'
    | some s' =>
      have := Along.decidable step P s' is
      decidable_of_iff (P s i s' ∧ Along step P s' is)
        ⟨fun hp t ht => by rw [h] at ht; cases ht; exact hp, fun hp => hp s' h⟩

/-- A step that is taken only if `p` holds -/
theorem of_guard_eq_some {p : Prop} [Decidable p] {s t : σ}
    (h : (if p then some s else none) = some t) : p ∧ s = t := by
  obtain ⟨hp, hst⟩ := Option.ite_none_right_eq_some.mp h
  exact ⟨hp, Option.some.inj hst⟩

@[simp] theorem runFrom_nil (s : σ) : runFrom step s [] = some s := rfl

theorem runFrom_cons {s t : σ} {i : ι} {is : List ι} :
    runFrom step s (i :: is) = some t ↔ ∃ s', step s i = some s' ∧ runFrom step s' is = some t := by
  simp [runFrom, Option.bind_eq_some_iff]

theorem runFrom_append {s t : σ} {is js : List ι} :
    runFrom step s (is ++ js) = some t ↔
      ∃ s', runFrom step s is = some s' ∧ runFrom step s' js = some t := by
  induction is generalizing s with
  | nil => simp
  | cons i is ih =>
    rw [List.cons_append, runFrom_cons]
    simp only [ih, runFrom_cons]
    constructor
    · rintro ⟨a, ha, b, hb, hc⟩
      exact ⟨b, ⟨a, ha, hb⟩, hc⟩
    · rintro ⟨b, ⟨a, ha, hb⟩, hc⟩
      exact ⟨a, ha, b, hb, hc⟩

/-- Some inputs lead from `s` to `t`. -/
def Reaches (step : σ → ι → Option σ) (s t : σ) : Prop := ∃ is, runFrom step s is = some t

theorem Reaches.refl (s : σ) : Reaches step s s := ⟨[], rfl⟩

theorem Reaches.head {s s' t : σ} {i : ι} (hstep : step s i = some s') (h : Reaches step s' t) :
    Reaches step s t := by
  obtain ⟨is, hrun⟩ := h
  exact ⟨i :: is, runFrom_cons.mpr ⟨s', hstep, hrun⟩⟩

theorem Reaches.single {s t : σ} {i : ι} (hstep : step s i = some t) : Reaches step s t :=
  .head hstep (.refl t)

theorem Reaches.trans {s t u : σ} (h₁ : Reaches step s t) (h₂ : Reaches step t u) :
    Reaches step s u := by
  obtain ⟨is, his⟩ := h₁
  obtain ⟨js, hjs⟩ := h₂
  exact ⟨is ++ js, runFrom_append.mpr ⟨t, his, hjs⟩⟩

theorem Reaches.inv {I : σ → Prop} (hkeep : ∀ s i s', I s → step s i = some s' → I s') {s t : σ}
    (h : Reaches step s t) (hs : I s) : I t := by
  obtain ⟨is, hrun⟩ := h
  induction is generalizing s with
  | nil =>
    obtain rfl : s = t := by simpa using hrun
    exact hs
  | cons i is ih =>
    obtain ⟨s', hs', hrest⟩ := runFrom_cons.mp hrun
    exact ih (hkeep s i s' hs hs') hrest

/-- The states of a loop, by the number of its rounds -/
theorem Reaches.iterate {f : ℕ → σ} {a b : ℕ} (hab : a ≤ b)
    (hround : ∀ k, a ≤ k → k < b → Reaches step (f k) (f (k + 1))) :
    Reaches step (f a) (f b) := by
  induction b, hab using Nat.le_induction with
  | base => exact .refl _
  | succ b hab ih =>
    exact (ih fun k hk hkb => hround k hk (by omega)).trans (hround b hab (by omega))

/-- A component without choices has one run: of two states it reaches, one comes first. -/
theorem Reaches.comparable {step : σ → Unit → Option σ} {s t u : σ} (ht : Reaches step s t)
    (hu : Reaches step s u) : Reaches step t u ∨ Reaches step u t := by
  obtain ⟨is, his⟩ := ht
  induction is generalizing s with
  | nil =>
    obtain rfl : s = t := by simpa using his
    exact .inl hu
  | cons i is ih =>
    obtain ⟨s', hs', hrest⟩ := runFrom_cons.mp his
    obtain ⟨js, hjs⟩ := hu
    cases js with
    | nil =>
      obtain rfl : s = u := by simpa using hjs
      -- the second run is shorter
      exact .inr (.head hs' ⟨is, hrest⟩)
    | cons j js =>
      obtain ⟨s'', hs'', hrest'⟩ := runFrom_cons.mp hjs
      -- both runs take the same step
      obtain rfl : s' = s'' := Option.some.inj (hs'.symm.trans hs'')
      exact ih ⟨js, hrest'⟩ hrest

/-! ## Step properties along a run -/

theorem Along.last {P : σ → ι → σ → Prop} {s t t' : σ} {is : List ι} {i : ι}
    (h : Along step P s (is ++ [i])) (hrun : runFrom step s is = some t)
    (hstep : step t i = some t') : P t i t' := by
  induction is generalizing s with
  | nil =>
    obtain rfl : s = t := by simpa using hrun
    exact (h t' hstep).1
  | cons j is ih =>
    obtain ⟨s', hs', hrest⟩ := runFrom_cons.mp hrun
    exact ih (h s' hs').2 hrest

/-- A property that follows from an invariant of all steps holds along every run. -/
theorem along_of_inv {I : σ → Prop} {P : σ → ι → σ → Prop}
    (hkeep : ∀ s i s', I s → step s i = some s' → I s' ∧ P s i s') {s : σ} (is : List ι)
    (h₀ : I s) : Along step P s is := by
  induction is generalizing s with
  | nil => trivial
  | cons i is ih =>
    intro s' hs'
    obtain ⟨hI, hP⟩ := hkeep s i s' h₀ hs'
    exact ⟨hP, ih hI⟩

/-- **Invariant rule**: an invariant kept by every step that meets the condition `C` holds at the
    end of every run whose steps all meet it. -/
theorem inv_of_along {I : σ → Prop} {C : σ → ι → σ → Prop}
    (hkeep : ∀ s i s', I s → step s i = some s' → C s i s' → I s')
    {s t : σ} {is : List ι} (h₀ : I s) (hC : Along step C s is)
    (hrun : runFrom step s is = some t) : I t := by
  induction is generalizing s with
  | nil =>
    obtain rfl : s = t := by simpa using hrun
    exact h₀
  | cons i is ih =>
    obtain ⟨s', hs', hrest⟩ := runFrom_cons.mp hrun
    obtain ⟨hCi, hCrest⟩ := hC s' hs'
    exact ih (hkeep s i s' h₀ hs' hCi) hCrest hrest

/-- A step property that holds wherever the invariant and the condition do, holds along every run
    whose steps all meet the condition. -/
theorem along_of_along {I : σ → Prop} {P C : σ → ι → σ → Prop}
    (hkeep : ∀ s i s', I s → step s i = some s' → C s i s' → I s')
    (hP : ∀ s i s', I s → step s i = some s' → C s i s' → P s i s')
    {s : σ} {is : List ι} (h₀ : I s) (hC : Along step C s is) : Along step P s is := by
  induction is generalizing s with
  | nil => trivial
  | cons i is ih =>
    intro s' hs'
    obtain ⟨hCi, hrest⟩ := hC s' hs'
    exact ⟨hP s i s' h₀ hs' hCi, ih (hkeep s i s' h₀ hs' hCi) hrest⟩

/-- Every input of the run meets the condition `C` in the state in which it is given. Unlike with
    `Along` this includes an input that has no result. -/
def Admitted (step : σ → ι → Option σ) (C : σ → ι → Prop) : σ → List ι → Prop
  | _, [] => True
  | s, i :: is => C s i ∧ ∀ s', step s i = some s' → Admitted step C s' is

/-- A decidable condition can be checked for the inputs of a concrete run. -/
instance Admitted.decidable (step : σ → ι → Option σ) (C : σ → ι → Prop)
    [∀ s i, Decidable (C s i)] : ∀ s is, Decidable (Admitted step C s is)
  | _, [] => isTrue trivial
  | s, i :: is =>
    match h : step s i with
    | none =>
      decidable_of_iff (C s i) ⟨fun hC => ⟨hC, fun s' hs' => by rw [h] at hs'; cases hs'⟩, And.left⟩
    | some s' =>
      have := Admitted.decidable step C s' is
      decidable_of_iff (C s i ∧ Admitted step C s' is)
        ⟨fun hC => ⟨hC.1, fun t ht => by rw [h] at ht; cases ht; exact hC.2⟩,
          fun hC => ⟨hC.1, hC.2 s' h⟩⟩

theorem Admitted.of_forall {C : ι → Prop} {s : σ} {is : List ι} (h : ∀ i ∈ is, C i) :
    Admitted step (fun _ => C) s is := by
  induction is generalizing s with
  | nil => trivial
  | cons i is ih =>
    exact ⟨h i (List.mem_cons_self ..), fun _ _ => ih fun j hj => h j (List.mem_cons_of_mem i hj)⟩

/-- If every input that meets `C` can be taken where the invariant holds, and keeps it, then all of
    such a run is taken. -/
theorem admitted_along {I : σ → Prop} {C : σ → ι → Prop} {P : σ → ι → σ → Prop}
    (htake : ∀ s i, I s → C s i → ∃ s', step s i = some s' ∧ I s' ∧ P s i s') {s : σ}
    {is : List ι} (h₀ : I s) (hC : Admitted step C s is) :
    (∃ t, runFrom step s is = some t) ∧ Along step P s is := by
  induction is generalizing s with
  | nil => exact ⟨⟨s, rfl⟩, trivial⟩
  | cons i is ih =>
    obtain ⟨hCi, hrest⟩ := hC
    obtain ⟨s', hs', hI, hP⟩ := htake s i h₀ hCi
    obtain ⟨⟨t, ht⟩, halong⟩ := ih hI (hrest s' hs')
    refine ⟨⟨t, runFrom_cons.mpr ⟨s', hs', ht⟩⟩, fun s'' hs'' => ?_⟩
    -- the step has one result
    obtain rfl : s' = s'' := Option.some.inj (hs'.symm.trans hs'')
    exact ⟨hP, halong⟩

/-- The same, for a condition on the inputs alone -/
theorem runs_along {I : σ → Prop} {C : ι → Prop} {P : σ → ι → σ → Prop}
    (htake : ∀ s i, I s → C i → ∃ s', step s i = some s' ∧ I s' ∧ P s i s') {s : σ} {is : List ι}
    (h₀ : I s) (hC : ∀ i ∈ is, C i) : (∃ t, runFrom step s is = some t) ∧ Along step P s is :=
  admitted_along htake h₀ (Admitted.of_forall hC)

theorem Admitted.inv {I : σ → Prop} {C : σ → ι → Prop}
    (htake : ∀ s i, I s → C s i → ∃ s', step s i = some s' ∧ I s') {s t : σ} {is : List ι}
    (h₀ : I s) (hC : Admitted step C s is) (hrun : runFrom step s is = some t) : I t := by
  induction is generalizing s with
  | nil =>
    cases hrun
    exact h₀
  | cons i is ih =>
    obtain ⟨s', hs', hrest⟩ := runFrom_cons.mp hrun
    obtain ⟨s'', hs'', hI⟩ := htake s i h₀ hC.1
    obtain rfl : s' = s'' := Option.some.inj (hs'.symm.trans hs'')
    exact ih hI (hC.2 s' hs') hrest

/-- **Exactness rule**: if `P` and `C` agree on every step taken from a state with the invariant,
    and the steps that meet `C` keep it, then `P` holds along a run exactly when `C` does. -/
theorem along_iff {I : σ → Prop} {P C : σ → ι → σ → Prop}
    (hiff : ∀ s i s', I s → step s i = some s' → (P s i s' ↔ C s i s'))
    (hkeep : ∀ s i s', I s → step s i = some s' → C s i s' → I s')
    {s : σ} {is : List ι} (h₀ : I s) : Along step P s is ↔ Along step C s is := by
  induction is generalizing s with
  | nil => exact Iff.rfl
  | cons i is ih =>
    constructor
    · intro h s' hs'
      obtain ⟨hP, hrest⟩ := h s' hs'
      have hC := (hiff s i s' h₀ hs').mp hP
      exact ⟨hC, (ih (hkeep s i s' h₀ hs' hC)).mp hrest⟩
    · intro h s' hs'
      obtain ⟨hC, hrest⟩ := h s' hs'
      exact ⟨(hiff s i s' h₀ hs').mpr hC, (ih (hkeep s i s' h₀ hs' hC)).mpr hrest⟩

end NucKernel.Library
