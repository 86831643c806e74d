import Mathlib.Data.List.Induction
import NucKernel.Hid.Report

/-!
# Array fields of HID reports (`hid-core.c`)

The values of an array field name the usages (the keys) that are pressed. `hid_input_field` compares
the values of a report with those of the report before: a usage that is no longer named is released,
one that is newly named is pressed. A report with an ErrorRollOver value is ignored as a whole.

A value within the logical range is used as an index into `field->usage`, whose size is that of the
usages in the descriptor or of the report, but not that of the logical range. Beyond its end the
function reads what follows in memory, which is `field->value` first.

## Modelling

- `hid` is the first member of a usage, so that the `hid` directly behind `field->usage` is
  `field->value[0]`. With each report comes what is read further behind.
- An event of value 0 releases a usage, any other presses it. The allocation succeeds.
-/

namespace NucKernel.Hid

/-! ## The field -/

/-- A field with the `hid` of each of its usages -/
structure ArrayField extends Field where
  logicalMaximum : ℤ
  isVariable : Bool
  usage : List (BitVec 32)

/-- `HID_UP_KEYBOARD + 1` -/
def errorRollOver : BitVec 32 := 0x00070001

/-- `search`: 0 if the value is found -/
def search : List (BitVec 32) → BitVec 32 → ℤ
  | [], _ => -1
  | a :: array, value => if a = value then 0 else search array value

theorem search_ne_zero (array : List (BitVec 32)) (value : BitVec 32) :
    search array value ≠ 0 ↔ value ∉ array := by
  induction array with
  | nil => simp [search]
  | cons a array ih =>
    rw [search, List.mem_cons]
    split_ifs with h
    · simp [h]
    · simp [ih, Ne.symm h]

/-- `hid_process_event` for a usage of the field -/
structure Event where
  usage : ℕ
  value : BitVec 32
  deriving DecidableEq

namespace ArrayField

variable (f : ArrayField) (behind : ℕ → BitVec 32)

def InRange (v : BitVec 32) : Prop := f.logicalMinimum ≤ v.toInt ∧ v.toInt ≤ f.logicalMaximum

instance (v : BitVec 32) : Decidable (f.InRange v) := inferInstanceAs (Decidable (_ ∧ _))

def index (v : BitVec 32) : ℕ := (v.toInt - f.logicalMinimum).toNat

/-- `field->usage[v - min].hid` -/
def hidOf (v : BitVec 32) : BitVec 32 := f.usage.getD (f.index v) (behind (f.index v))

def values (data : ℕ → UInt8) : List (BitVec 32) :=
  (List.range f.reportCount).map (f.toField.input data)

def eventsAt (old new : List (BitVec 32)) (n : ℕ) : List Event :=
  if f.isVariable then [⟨n, new.getD n 0⟩]
  else
    (if f.InRange (old.getD n 0) ∧ f.hidOf behind (old.getD n 0) ≠ 0 ∧
        search new (old.getD n 0) ≠ 0 then [⟨f.index (old.getD n 0), 0⟩] else []) ++
    (if f.InRange (new.getD n 0) ∧ f.hidOf behind (new.getD n 0) ≠ 0 ∧
        search old (new.getD n 0) ≠ 0 then [⟨f.index (new.getD n 0), 1⟩] else [])

/-- What lies behind `field->usage`: `hid_register_field` puts `field->value` there. -/
def behindUsage (old : List (BitVec 32)) (i : ℕ) : BitVec 32 :=
  if i = f.usage.length then old.getD 0 (behind i) else behind i

/-- `hid_input_field`: the events, and `field->value` afterwards -/
def hidInputField (data : ℕ → UInt8) (old : List (BitVec 32)) : List Event × List (BitVec 32) :=
  let new := f.values data
  let behind := f.behindUsage behind old
  if ¬ f.isVariable ∧ new.any (fun v => f.InRange v ∧ f.hidOf behind v = errorRollOver) then
    ([], old)
  else ((List.range f.reportCount).flatMap (f.eventsAt behind old new), new)

end ArrayField

/-! ## Runs -/

/-- A report, and what is read far beyond `field->usage` when it arrives -/
structure Arrival where
  data : ℕ → UInt8
  behind : ℕ → BitVec 32

structure State where
  value : List (BitVec 32)
  pressed : ℕ → Bool

def pressEvent (pressed : ℕ → Bool) (e : Event) : ℕ → Bool :=
  Function.update pressed e.usage (e.value ≠ 0)

namespace ArrayField

variable (f : ArrayField)

def step (st : State) (r : Arrival) : State :=
  let o := f.hidInputField r.behind r.data st.value
  ⟨o.2, o.1.foldl pressEvent st.pressed⟩

def run (reports : List Arrival) : State :=
  reports.foldl f.step ⟨List.replicate f.reportCount 0, fun _ => false⟩

/-- The usages that some values name -/
def Names (values : List (BitVec 32)) (i : ℕ) : Prop :=
  ∃ v ∈ values, f.InRange v ∧ f.index v = i ∧ ∃ hid, f.usage[i]? = some hid ∧ hid ≠ 0

def RollsOver (data : ℕ → UInt8) : Prop :=
  ∃ v ∈ f.values data, f.InRange v ∧ f.usage[f.index v]? = some errorRollOver

instance (data : ℕ → UInt8) : Decidable (f.RollsOver data) :=
  decidable_of_iff ((f.values data).any fun v => f.InRange v ∧
    f.usage[f.index v]? = some errorRollOver) (by simp [RollsOver])

/-- The last report that is not ignored -/
def lastGood (reports : List Arrival) : Option Arrival :=
  (reports.filter fun r => ¬ f.RollsOver r.data).getLast?

/-- There is a usage for every value of the logical range. -/
def Covered : Prop := f.logicalMaximum - f.logicalMinimum < f.usage.length

/-! ## One report -/

variable {f}

theorem Covered.getElem? (h : f.Covered) {v : BitVec 32} (hv : f.InRange v)
    (behind : ℕ → BitVec 32) : f.usage[f.index v]? = some (f.hidOf behind v) := by
  have hlt : f.index v < f.usage.length := by
    have := h
    rw [Covered] at this
    rw [InRange] at hv
    rw [index]
    omega
  rw [hidOf, List.getD_eq_getElem _ _ hlt, List.getElem?_eq_getElem hlt]

theorem index_inj {v w : BitVec 32} (hv : f.InRange v) (hw : f.InRange w)
    (h : f.index v = f.index w) : v = w := by
  apply BitVec.eq_of_toInt_eq
  rw [InRange] at hv hw
  rw [index, index] at h
  omega

theorem names_index (hcov : f.Covered) {values : List (BitVec 32)} {v : BitVec 32}
    (hv : f.InRange v) (behind : ℕ → BitVec 32) :
    f.Names values (f.index v) ↔ v ∈ values ∧ f.hidOf behind v ≠ 0 := by
  constructor
  · rintro ⟨w, hw, hwr, hidx, hid, hget, hne⟩
    rw [hcov.getElem? hv behind] at hget
    obtain rfl := Option.some.inj hget
    rw [← index_inj hwr hv hidx]
    exact ⟨hw, by rw [index_inj hwr hv hidx]; exact hne⟩
  · rintro ⟨hmem, hne⟩
    exact ⟨v, hmem, hv, rfl, _, hcov.getElem? hv behind, hne⟩

theorem foldl_pressEvent {events : List Event} {i : ℕ} {b : Bool}
    (hall : ∀ e ∈ events, e.usage = i → (e.value ≠ 0 : Bool) = b) (pressed : ℕ → Bool)
    (hsome : (∃ e ∈ events, e.usage = i) ∨ pressed i = b) :
    events.foldl pressEvent pressed i = b := by
  induction events generalizing pressed with
  | nil => simpa using hsome
  | cons e events ih =>
    rw [List.forall_mem_cons] at hall
    rw [List.foldl_cons]
    apply ih hall.2
    by_cases he : e.usage = i
    · -- an event of the usage sets its state
      refine Or.inr ?_
      rw [pressEvent, he, Function.update_self]
      exact hall.1 he
    · rcases hsome with ⟨e', hmem, he'⟩ | hold
      · rcases List.mem_cons.mp hmem with rfl | hmem
        · exact absurd he' he
        · exact Or.inl ⟨e', hmem, he'⟩
      · refine Or.inr ?_
        rw [pressEvent, Function.update_of_ne (Ne.symm he)]
        exact hold

theorem mem_iff_getD {l : List (BitVec 32)} {n : ℕ} (hl : l.length = n) {v : BitVec 32} :
    v ∈ l ↔ ∃ k < n, l.getD k 0 = v := by
  rw [List.mem_iff_getElem]
  constructor
  · rintro ⟨k, hk, rfl⟩
    exact ⟨k, by omega, List.getD_eq_getElem _ _ hk⟩
  · rintro ⟨k, hk, rfl⟩
    exact ⟨k, by omega, (List.getD_eq_getElem _ _ (by omega)).symm⟩

theorem mem_events (hvar : f.isVariable = false) {behind : ℕ → BitVec 32}
    {old new : List (BitVec 32)} (hold : old.length = f.reportCount)
    (hnew : new.length = f.reportCount) {e : Event} :
    e ∈ (List.range f.reportCount).flatMap (f.eventsAt behind old new) ↔
      ∃ v, f.InRange v ∧ f.hidOf behind v ≠ 0 ∧ f.index v = e.usage ∧
        ((v ∈ old ∧ v ∉ new ∧ e.value = 0) ∨ (v ∉ old ∧ v ∈ new ∧ e.value = 1)) := by
  simp only [List.mem_flatMap, List.mem_range, eventsAt, hvar, Bool.false_eq_true, if_false,
    List.mem_append, search_ne_zero]
  constructor
  · rintro ⟨n, hn, h | h⟩
    · -- a value of the old report, then one of the new report
      split_ifs at h with hc
      · obtain rfl := List.mem_singleton.mp h
        exact ⟨_, hc.1, hc.2.1, rfl, Or.inl ⟨(mem_iff_getD hold).mpr ⟨n, hn, rfl⟩, hc.2.2, rfl⟩⟩
      · cases h
    · split_ifs at h with hc
      · obtain rfl := List.mem_singleton.mp h
        exact ⟨_, hc.1, hc.2.1, rfl, Or.inr ⟨hc.2.2, (mem_iff_getD hnew).mpr ⟨n, hn, rfl⟩, rfl⟩⟩
      · cases h
  · rintro ⟨v, hv, hid, hidx, ⟨hmem, hnot, hval⟩ | ⟨hnot, hmem, hval⟩⟩
    · obtain ⟨n, hn, rfl⟩ := (mem_iff_getD hold).mp hmem
      refine ⟨n, hn, Or.inl ?_⟩
      rw [if_pos ⟨hv, hid, hnot⟩, hidx, ← hval]
      exact List.mem_singleton.mpr rfl
    · obtain ⟨n, hn, rfl⟩ := (mem_iff_getD hnew).mp hmem
      refine ⟨n, hn, Or.inr ?_⟩
      rw [if_pos ⟨hv, hid, hnot⟩, hidx, ← hval]
      exact List.mem_singleton.mpr rfl

theorem events_pressed (hcov : f.Covered) (hvar : f.isVariable = false) {behind : ℕ → BitVec 32}
    {old new : List (BitVec 32)} (hold : old.length = f.reportCount)
    (hnew : new.length = f.reportCount) {pressed : ℕ → Bool}
    (h : ∀ i, pressed i = true ↔ f.Names old i) (i : ℕ) :
    ((List.range f.reportCount).flatMap (f.eventsAt behind old new)).foldl pressEvent pressed i =
      true ↔ f.Names new i := by
  by_cases hin : ∃ v, f.InRange v ∧ f.index v = i ∧ f.hidOf behind v ≠ 0
  · obtain ⟨v, hv, rfl, hid⟩ := hin
    rw [names_index hcov hv behind]
    -- all events of the usage are about `v`
    have hevents : ∀ e ∈ (List.range f.reportCount).flatMap (f.eventsAt behind old new),
        e.usage = f.index v → (e.value ≠ 0 : Bool) = decide (v ∈ new) := by
      intro e he hidx
      obtain ⟨w, hw, _, hwidx, hcase⟩ := (mem_events hvar hold hnew).mp he
      obtain rfl := index_inj hw hv (hwidx.trans hidx)
      rcases hcase with ⟨_, hnot, hval⟩ | ⟨_, hmem, hval⟩
      · simp [hval, hnot]
      · simp [hval, hmem]
    have hstate : (∃ e ∈ (List.range f.reportCount).flatMap (f.eventsAt behind old new),
        e.usage = f.index v) ∨ pressed (f.index v) = decide (v ∈ new) := by
      by_cases hsame : v ∈ old ↔ v ∈ new
      · refine Or.inr ?_
        rw [Bool.eq_iff_iff, h, names_index hcov hv behind, hsame, and_iff_left hid,
          decide_eq_true_iff]
      · -- the value is only in one of the two reports, so there is an event
        refine Or.inl ⟨⟨f.index v, if v ∈ new then 1 else 0⟩,
          (mem_events hvar hold hnew).mpr ⟨v, hv, hid, rfl, ?_⟩, rfl⟩
        by_cases hmem : v ∈ new
        · exact Or.inr ⟨fun ho => hsame ⟨fun _ => hmem, fun _ => ho⟩, hmem, if_pos hmem⟩
        · refine Or.inl ⟨?_, hmem, if_neg hmem⟩
          by_contra ho
          exact hsame ⟨fun h => absurd h ho, fun h => absurd h hmem⟩
    rw [foldl_pressEvent hevents pressed hstate, and_iff_left hid, decide_eq_true_iff]
  · -- no event is about the usage, and no values name it
    have hnone : ∀ values, ¬ f.Names values i := by
      rintro values ⟨v, _, hv, rfl, hid, hget, hne⟩
      rw [hcov.getElem? hv behind] at hget
      exact hin ⟨v, hv, rfl, by rw [Option.some.inj hget]; exact hne⟩
    have hfalse : pressed i = false := by
      rw [← Bool.not_eq_true, h]
      exact hnone old
    rw [foldl_pressEvent (b := false) (fun e he hidx => ?_) pressed (Or.inr hfalse)]
    · simp [hnone new]
    · obtain ⟨w, hw, hid, hwidx, _⟩ := (mem_events hvar hold hnew).mp he
      exact absurd ⟨w, hw, hwidx.trans hidx, hid⟩ hin

end ArrayField

/-! ## All reports -/

open ArrayField

theorem length_values (f : ArrayField) (data : ℕ → UInt8) :
    (f.values data).length = f.reportCount := by
  simp [ArrayField.values]

theorem rollsOver_iff {f : ArrayField} (hcov : f.Covered) (data : ℕ → UInt8)
    (behind : ℕ → BitVec 32) :
    (f.values data).any (fun v => f.InRange v ∧ f.hidOf behind v = errorRollOver) = true ↔
      f.RollsOver data := by
  simp only [List.any_eq_true, decide_eq_true_eq]
  constructor
  · rintro ⟨v, hmem, hv, hid⟩
    exact ⟨v, hmem, hv, by rw [hcov.getElem? hv behind, hid]⟩
  · rintro ⟨v, hmem, hv, hget⟩
    rw [hcov.getElem? hv behind] at hget
    exact ⟨v, hmem, hv, Option.some.inj hget⟩

/-- **The usages left pressed are those of the last report that counts**: for every array field with
    a usage for each value of its range, whose value 0 names none, and every run of reports. -/
theorem run_pressed (f : ArrayField) (hvar : f.isVariable = false) (hcov : f.Covered)
    (hzero : ∀ i, ¬ f.Names [0] i) (reports : List Arrival) (i : ℕ) :
    (f.run reports).pressed i = true ↔
      ∃ r, f.lastGood reports = some r ∧ f.Names (f.values r.data) i := by
  have hzeros : ∀ i, ¬ f.Names (List.replicate f.reportCount 0) i := by
    rintro i ⟨v, hmem, hrest⟩
    exact hzero i ⟨v, by simp [List.eq_of_mem_replicate hmem], hrest⟩
  -- the values kept are those of the last report that counts, or zero
  have hinv : (f.run reports).value =
        ((f.lastGood reports).map fun r => f.values r.data).getD (List.replicate f.reportCount 0) ∧
      ∀ i, (f.run reports).pressed i = true ↔ f.Names (f.run reports).value i := by
    induction reports using List.reverseRecOn with
    | nil => exact ⟨rfl, fun i => iff_of_false Bool.false_ne_true (hzeros i)⟩
    | append_singleton reports r ih =>
      have hrun : f.run (reports ++ [r]) = f.step (f.run reports) r := by
        simp [run, List.foldl_append]
      have hlen : (f.run reports).value.length = f.reportCount := by
        rw [ih.1]
        cases f.lastGood reports <;> simp [length_values]
      rw [hrun, step, hidInputField]
      simp only [hvar, Bool.false_eq_true, not_false_eq_true, true_and, rollsOver_iff hcov]
      by_cases hroll : f.RollsOver r.data
      · -- the report is ignored
        have hsame : f.lastGood (reports ++ [r]) = f.lastGood reports := by
          simp [lastGood, List.filter_append, hroll]
        rw [if_pos hroll, hsame]
        exact ih
      · have hlast : f.lastGood (reports ++ [r]) = some r := by
          simp [lastGood, List.filter_append, hroll]
        rw [if_neg hroll, hlast]
        exact ⟨rfl, events_pressed hcov hvar hlen (length_values f _) ih.2⟩
  rw [hinv.2, hinv.1]
  cases hlast : f.lastGood reports with
  | none => exact iff_of_false (hzeros i) (by simp)
  | some r => simp

/-- One place of eight bits; the values 1 and 2 have a usage. -/
def twoKeys : ArrayField :=
  { reportOffset := 0, reportSize := 8, reportCount := 1, logicalMinimum := 0, logicalMaximum := 2
    isVariable := false, usage := [0, 0x70004, 0x70005] }

theorem run_pressed_twoKeys :
    twoKeys.Covered ∧ ∀ i,
      (twoKeys.run [⟨fun _ => 1, fun _ => 0⟩, ⟨fun _ => 2, fun _ => 0⟩]).pressed i = true ↔
      ∃ r, twoKeys.lastGood [⟨fun _ => 1, fun _ => 0⟩, ⟨fun _ => 2, fun _ => 0⟩] = some r ∧
        twoKeys.Names (twoKeys.values r.data) i := by
  have hcov : twoKeys.Covered := show (2 : ℤ) - 0 < 3 by decide
  have hzero : ∀ i, ¬ twoKeys.Names [0] i := by
    -- the value 0 has the usage 0
    rintro i ⟨v, hmem, _, hidx, hid, hget, hne⟩
    obtain rfl := List.mem_singleton.mp hmem
    obtain rfl : 0 = i := hidx
    exact hne (Option.some.inj hget).symm
  exact ⟨hcov, run_pressed twoKeys rfl hcov hzero _⟩

/-- Two such places, with a logical range up to 3 -/
def wideRange : ArrayField := { twoKeys with reportCount := 2, logicalMaximum := 3 }

/-- A report with two values -/
def pair (a b : UInt8) : Arrival := ⟨fun i => if i = 0 then a else b, fun _ => 0⟩

/-- The value 3 appears next to 1, so that `field->value[0]` is taken for its usage and is not zero.
    When it goes away `field->value[0]` is 0, and the usage is not released. -/
theorem stale_usage_stuck :
    (wideRange.run [pair 1 0, pair 1 3, pair 0 3, pair 0 0]).pressed 3 = true ∧
      wideRange.lastGood [pair 1 0, pair 1 3, pair 0 3, pair 0 0] = some (pair 0 0) ∧
      ∀ i, ¬ wideRange.Names (wideRange.values (pair 0 0).data) i := by
  have hfirst : wideRange.hidInputField (pair 1 0).behind (pair 1 0).data [0, 0] =
      ([⟨1, 1⟩], [1, 0]) := by decide +kernel
  have hsecond : wideRange.hidInputField (pair 1 3).behind (pair 1 3).data [1, 0] =
      ([⟨3, 1⟩], [1, 3]) := by decide +kernel
  have hthird : wideRange.hidInputField (pair 0 3).behind (pair 0 3).data [1, 3] =
      ([⟨1, 0⟩], [0, 3]) := by decide +kernel
  have hfourth : wideRange.hidInputField (pair 0 0).behind (pair 0 0).data [0, 3] =
      ([], [0, 0]) := by decide +kernel
  have hzeros : wideRange.values (pair 0 0).data = [0, 0] := by decide +kernel
  refine ⟨?_, by rfl, ?_⟩
  · have hrun : wideRange.run [pair 1 0, pair 1 3, pair 0 3, pair 0 0] =
        wideRange.step (wideRange.step (wideRange.step (wideRange.step
          ⟨[0, 0], fun _ => false⟩ (pair 1 0)) (pair 1 3)) (pair 0 3)) (pair 0 0) := rfl
    rw [hrun]
    simp only [step, hfirst, hsecond, hthird, hfourth]
    rfl
  · rw [hzeros]
    rintro i ⟨v, hmem, _, hidx, hid, hget, hne⟩
    obtain rfl : v = 0 := by simpa using hmem
    obtain rfl : 0 = i := hidx
    exact hne (Option.some.inj hget).symm

end NucKernel.Hid
