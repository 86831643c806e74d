import Mathlib.Data.Fintype.Basic
import NucKernel.Library.RegisterBank
import NucKernel.Library.Runs

/-!
# The matrix keypad (`nuc970_keypad.c`)

The keypad latches a press in one bit of `KPI_KPE` and a release in one bit of `KPI_KRE`. The
interrupt handler reads a word of one of the two registers, decodes it to a single key, writes a
fresh read of the register back to clear it, and reports the key. Keys are pressed and released at
any moment, also between two accesses of the handler.

## Modelling

- `PKEY_INT` and `RKEY_INT` are set in `KPI_STATUS` while `KPI_KPE` and `KPI_KRE` are not zero.
- A key is pressed only when it is up and released only when it is down.
- The branch for `PDWAKE` touches none of the two registers and is left out.
- Different positions have different key codes, as in `nuc970_keymap`.
-/

namespace NucKernel.Input.Keypad

open NucKernel.Library

/-! ## Decoding and reports -/

/-- `keypad->keymap`: the key code of a scan code -/
structure Keymap where
  key : ℕ → UInt16
  injective : ∀ i < 32, ∀ j < 32, key i = key j → i = j

/-- The loop over the bits of `u32KeyEvent`: the row and the column of the last bit that is set -/
def scanLoop (word : BitVec 32) : ℕ × ℕ :=
  (List.range 32).foldl (fun rowCol i => if word.getLsbD i then (i / 8, i % 8) else rowCol) (0, 0)

/-- `MATRIX_SCAN_CODE(row, col, NUC970_ROW_SHIFT)` -/
def scanCode (word : BitVec 32) : ℕ := ((scanLoop word).1 <<< 3) + (scanLoop word).2

structure Report where
  code : ℕ
  key : UInt16
  value : Bool
deriving DecidableEq

def Keymap.report (keymap : Keymap) (code : ℕ) (value : Bool) : Report :=
  ⟨code, keymap.key code, value⟩

/-- One run of `nuc970_keypad_scan_matrix`: the words of its two reads and what it reported -/
structure Pass where
  press : Bool
  word : BitVec 32
  again : BitVec 32
  report : Report

/-! ## The keypad and its handler -/

inductive Phase
  | idle
  /-- `KPI_STATUS` has been read; it asked for a press or for a release. -/
  | entered (press : Bool)
  /-- `u32KeyEvent` has been read. -/
  | scanned (press : Bool) (word : BitVec 32)
  /-- The register has been read again for the write. -/
  | acking (press : Bool) (word again : BitVec 32)
deriving DecidableEq

structure State where
  /-- `KPI_KPE` -/
  kpe : BitVec 32
  /-- `KPI_KRE` -/
  kre : BitVec 32
  /-- The keys that are physically down -/
  down : BitVec 32
  phase : Phase
  passes : List Pass

def State.init : State := ⟨0, 0, 0, .idle, []⟩

/-- `KPI_KPE` or `KPI_KRE` -/
def State.register (s : State) (press : Bool) : BitVec 32 := if press then s.kpe else s.kre

inductive Event
  | press (k : Fin 32)
  | release (k : Fin 32)
  | cpu

/-- Ones written to a register clear the bits. -/
def State.clear (s : State) (press : Bool) (ones : BitVec 32) : State :=
  if press then { s with kpe := s.kpe &&& ~~~ones } else { s with kre := s.kre &&& ~~~ones }

/-- The next register access of `nuc970_keypad_irq_handler` and `nuc970_keypad_scan_matrix` -/
def handlerStep (keymap : Keymap) (s : State) : State :=
  match s.phase with
  | .idle =>
    -- a press is handled before a release
    if s.kpe ≠ 0 then { s with phase := .entered true }
    else if s.kre ≠ 0 then { s with phase := .entered false }
    else s
  | .entered press => { s with phase := .scanned press (s.register press) }
  | .scanned press word => { s with phase := .acking press word (s.register press) }
  | .acking press word again =>
    { s.clear press again with
      phase := .idle
      passes := s.passes ++ [⟨press, word, again, keymap.report (scanCode word) press⟩] }

def step (keymap : Keymap) (s : State) : Event → Option State
  | .press k =>
    if s.down.getLsbD k then none
    else some { s with down := s.down ||| oneBit 32 k, kpe := s.kpe ||| oneBit 32 k }
  | .release k =>
    if s.down.getLsbD k then
      some { s with down := s.down &&& ~~~oneBit 32 k, kre := s.kre ||| oneBit 32 k }
    else none
  | .cpu => some (handlerStep keymap s)

/-! ## What the input layer sees -/

/-- The keys that are down after some reports -/
def reportedDown (passes : List Pass) : Finset UInt16 :=
  passes.foldl
    (fun down p => if p.report.value then insert p.report.key down else down.erase p.report.key) ∅

def Keymap.keysOf (keymap : Keymap) (down : BitVec 32) : Finset UInt16 :=
  (Finset.univ.filter fun i : Fin 32 => down.getLsbD i).image fun i : Fin 32 => keymap.key i

def Pass.readBits (p : Pass) : List (Fin 32) :=
  (List.finRange 32).filter fun i => (p.word ||| p.again).getLsbD i

/-- Every bit that was read was reported once, under its own key, and nothing else was. -/
def Pass.Exact (keymap : Keymap) (p : Pass) : Prop :=
  [p.report] = p.readBits.map fun i : Fin 32 => keymap.report i p.press

/-- Every pass is exact, and once both registers are drained, the keys reported down are those
    that are down. -/
def Faithful (keymap : Keymap) (s : State) : Prop :=
  (∀ p ∈ s.passes, p.Exact keymap) ∧
    (s.phase = .idle → s.kpe = 0 → s.kre = 0 → reportedDown s.passes = keymap.keysOf s.down)

instance (keymap : Keymap) (p : Pass) : Decidable (p.Exact keymap) :=
  inferInstanceAs (Decidable (_ = _))

instance (keymap : Keymap) (s : State) : Decidable (Faithful keymap s) :=
  inferInstanceAs (Decidable (_ ∧ (_ → _ → _ → _)))

/-- Between the two reads of `KPI_KPE` or of `KPI_KRE` -/
def Phase.Between (press : Bool) : Phase → Prop
  | .scanned p _ => p = press
  | _ => False

instance (press : Bool) : (phase : Phase) → Decidable (phase.Between press)
  | .scanned p _ => inferInstanceAs (Decidable (p = press))
  | .idle | .entered _ | .acking .. => inferInstanceAs (Decidable False)

/-- The word about to be read has one bit. -/
def Phase.OneBitAhead (s : State) : Phase → Prop
  | .entered press => ∃ i : Fin 32, s.register press = oneBit 32 i
  | _ => True

instance (s : State) : (phase : Phase) → Decidable (phase.OneBitAhead s)
  | .entered press => inferInstanceAs (Decidable (∃ i : Fin 32, s.register press = oneBit 32 i))
  | .idle | .scanned .. | .acking .. => inferInstanceAs (Decidable True)

/-- The condition on a step: every word read has one bit, no press (release) comes between the two
    reads of a press (release), and no key is pressed while its release waits. -/
def Quiet (s : State) : Event → State → Prop
  | .press k, _ => s.kre.getLsbD k = false ∧ ¬s.phase.Between true
  | .release _, _ => ¬s.phase.Between false
  | .cpu, _ => s.phase.OneBitAhead s

instance (s : State) : (e : Event) → (s' : State) → Decidable (Quiet s e s')
  | .press k, _ => inferInstanceAs (Decidable (s.kre.getLsbD k = false ∧ ¬s.phase.Between true))
  | .release _, _ => inferInstanceAs (Decidable (¬s.phase.Between false))
  | .cpu, _ => inferInstanceAs (Decidable (s.phase.OneBitAhead s))

/-! ## Bits -/

theorem getLsbD_or_oneBit (w : BitVec 32) (i j : Fin 32) :
    (w ||| oneBit 32 i).getLsbD j = (w.getLsbD j || decide (j = i)) := by
  rw [BitVec.getLsbD_or, getLsbD_oneBit _ i.isLt]
  simp only [Fin.ext_iff]

theorem getLsbD_or_oneBit_of_set {w : BitVec 32} {i : Fin 32} (k : Fin 32)
    (h : w.getLsbD i = true) : (w ||| oneBit 32 k).getLsbD i = true := by
  rw [getLsbD_or_oneBit, h, Bool.true_or]

theorem getLsbD_and_not_oneBit (w : BitVec 32) (i j : Fin 32) :
    (w &&& ~~~oneBit 32 i).getLsbD j = (w.getLsbD j && !decide (j = i)) := by
  rw [BitVec.getLsbD_and, BitVec.getLsbD_not, getLsbD_oneBit _ i.isLt]
  simp only [Fin.ext_iff, j.isLt, decide_true, Bool.true_and]

theorem getLsbD_oneBit_self (i : Fin 32) : (oneBit 32 i).getLsbD i = true := by
  simp [getLsbD_oneBit _ i.isLt]

theorem scanCode_oneBit (i : Fin 32) : scanCode (oneBit 32 i) = i := by
  revert i
  decide +kernel

theorem filter_oneBit (i : Fin 32) :
    (List.finRange 32).filter (fun j : Fin 32 => (oneBit 32 i).getLsbD j) = [i] := by
  revert i
  decide +kernel

theorem Pass.exact_of_oneBit (keymap : Keymap) (press : Bool) (i : Fin 32) :
    Pass.Exact keymap ⟨press, oneBit 32 i, oneBit 32 i,
      keymap.report (scanCode (oneBit 32 i)) press⟩ := by
  simp only [Pass.Exact, Pass.readBits, BitVec.or_self, filter_oneBit, scanCode_oneBit,
    List.map_cons, List.map_nil]

theorem mem_reportedDown_concat (passes : List Pass) (p : Pass) (key : UInt16) :
    key ∈ reportedDown (passes ++ [p]) ↔
      if p.report.value then key = p.report.key ∨ key ∈ reportedDown passes
      else key ≠ p.report.key ∧ key ∈ reportedDown passes := by
  rw [reportedDown, List.foldl_append]
  cases hvalue : p.report.value <;> simp [hvalue, reportedDown]

/-! ## The invariant of quiet runs -/

/-- What the handler knows of the registers -/
def Phase.Sound (s : State) : Phase → Prop
  | .idle => True
  | .entered true => True
  | .entered false => ∃ i : Fin 32, s.kre.getLsbD i = true ∧ s.kpe.getLsbD i = false
  | .scanned press word => ∃ i : Fin 32, word = oneBit 32 i ∧ s.register press = word ∧
      (press = false → s.kpe.getLsbD i = false)
  | .acking press word again => ∃ i : Fin 32, word = oneBit 32 i ∧ again = word ∧
      (s.register press).getLsbD i = true ∧ (press = false → s.kpe.getLsbD i = false)

/-- A key is down exactly if its press waits or was reported, and no release of it waits. -/
structure Balanced (keymap : Keymap) (s : State) : Prop where
  balance : ∀ j : Fin 32, s.down.getLsbD j =
    ((s.kpe.getLsbD j || decide (keymap.key j ∈ reportedDown s.passes)) && !s.kre.getLsbD j)
  known : ∀ key ∈ reportedDown s.passes, ∃ j : Fin 32, key = keymap.key j
  exact : ∀ p ∈ s.passes, p.Exact keymap
  sound : s.phase.Sound s

theorem balanced_init (keymap : Keymap) : Balanced keymap State.init := by
  refine ⟨?_, ?_, ?_, trivial⟩
  · intro j
    simp [State.init, reportedDown]
  · intro key hkey
    simp [State.init, reportedDown] at hkey
  · intro p hp
    cases hp

section Steps

variable {keymap : Keymap} {s s' : State}

theorem Phase.Sound.of_set {phase : Phase} (h : phase.Sound s)
    (hpress : ∀ i : Fin 32, s.kpe.getLsbD i = true → s'.kpe.getLsbD i = true)
    (hrelease : ∀ i : Fin 32, s.kre.getLsbD i = true → s'.kre.getLsbD i = true)
    (hother : ∀ i : Fin 32, s.kre.getLsbD i = true → s.kpe.getLsbD i = false →
      s'.kpe.getLsbD i = false)
    (hregister : ∀ press, phase.Between press → s'.register press = s.register press) :
    phase.Sound s' := by
  rcases phase with _ | press | ⟨press, word⟩ | ⟨press, word, again⟩
  · -- the first read has not happened: only the waiting release matters
    trivial
  · cases press with
    | true => trivial
    | false =>
      obtain ⟨i, hre, hpe⟩ := h
      exact ⟨i, hrelease i hre, hother i hre hpe⟩
  · obtain ⟨i, hword, hreg, hpe⟩ := h
    refine ⟨i, hword, (hregister press rfl).trans hreg, ?_⟩
    rintro rfl
    have hkre : s.kre = oneBit 32 i := hreg.trans hword
    exact hother i (by rw [hkre, getLsbD_oneBit_self]) (hpe rfl)
  · -- both reads are done: the bit in the register stays set
    obtain ⟨i, hword, hagain, hbit, hpe⟩ := h
    cases press with
    | true => exact ⟨i, hword, hagain, hpress i hbit, fun h => by cases h⟩
    | false => exact ⟨i, hword, hagain, hrelease i hbit, fun h => hother i hbit (hpe h)⟩

theorem balanced_press {k : Fin 32} (h : Balanced keymap s) (hquiet : Quiet s (.press k) s') :
    Balanced keymap { s with down := s.down ||| oneBit 32 k, kpe := s.kpe ||| oneBit 32 k } := by
  obtain ⟨hnone, hbetween⟩ := hquiet
  refine ⟨?_, h.known, h.exact, h.sound.of_set ?_ (fun _ hre => hre) ?_ ?_⟩
  · intro j
    rw [getLsbD_or_oneBit, getLsbD_or_oneBit, h.balance j]
    by_cases hjk : j = k
    · subst hjk
      rw [hnone, decide_eq_true rfl, Bool.or_true, Bool.or_true, Bool.true_or, Bool.not_false,
        Bool.true_and]
    · rw [decide_eq_false hjk, Bool.or_false, Bool.or_false]
  · exact fun i => getLsbD_or_oneBit_of_set k
  · -- a key whose release waits is not pressed, so that the handler of a release is not disturbed
    intro i hre hpe
    have hik : i ≠ k := by
      rintro rfl
      rw [hnone] at hre
      cases hre
    rw [getLsbD_or_oneBit, hpe, decide_eq_false hik]
    rfl
  · intro press hpress
    cases press with
    | true => exact absurd hpress hbetween
    | false => rfl

theorem balanced_release {k : Fin 32} (h : Balanced keymap s)
    (hquiet : Quiet s (.release k) s') :
    Balanced keymap
      { s with down := s.down &&& ~~~oneBit 32 k, kre := s.kre ||| oneBit 32 k } := by
  have hbetween : ¬s.phase.Between false := hquiet
  refine ⟨?_, h.known, h.exact, h.sound.of_set (fun _ hpe => hpe) ?_ (fun _ _ hpe => hpe) ?_⟩
  · intro j
    rw [getLsbD_and_not_oneBit, getLsbD_or_oneBit, h.balance j, Bool.not_or, Bool.and_assoc]
  · exact fun i => getLsbD_or_oneBit_of_set k
  · intro press hpress
    cases press with
    | true => rfl
    | false => exact absurd hpress hbetween

theorem balanced_enter (h : Balanced keymap s) (hidle : s.phase = .idle) :
    Balanced keymap (handlerStep keymap s) := by
  rw [handlerStep, hidle]
  dsimp only
  split_ifs with hkpe hkre
  · exact ⟨h.balance, h.known, h.exact, trivial⟩
  · refine ⟨h.balance, h.known, h.exact, ?_⟩
    -- no press waits, so that the release in the register is the last event of its key
    have hzero : s.kpe = 0 := not_not.mp hkpe
    obtain ⟨i, hi, hbit⟩ : ∃ i, ∃ hi : i < 32, s.kre.getLsbD i = true := by
      by_contra hnone
      push Not at hnone
      exact hkre (BitVec.eq_of_getLsbD_eq fun i hi => by simpa using hnone i hi)
    exact ⟨⟨i, hi⟩, hbit, by simp [hzero]⟩
  · exact h

theorem balanced_scan {press : Bool} (h : Balanced keymap s) (hentered : s.phase = .entered press)
    (hone : s.phase.OneBitAhead s) : Balanced keymap (handlerStep keymap s) := by
  rw [handlerStep, hentered]
  rw [hentered] at hone
  obtain ⟨i, hword⟩ := hone
  refine ⟨h.balance, h.known, h.exact, i, hword, rfl, ?_⟩
  rintro rfl
  -- the key found waiting when the handler was entered is the only one in the register
  have hsound := h.sound
  rw [hentered] at hsound
  obtain ⟨j, hre, hpe⟩ := hsound
  have hkre : s.kre = oneBit 32 i := hword
  have hji : j = i := by
    rw [hkre, getLsbD_oneBit _ i.isLt] at hre
    exact Fin.ext (of_decide_eq_true hre)
  exact hji ▸ hpe

theorem balanced_again {press : Bool} {word : BitVec 32} (h : Balanced keymap s)
    (hscanned : s.phase = .scanned press word) : Balanced keymap (handlerStep keymap s) := by
  rw [handlerStep, hscanned]
  have hsound := h.sound
  rw [hscanned] at hsound
  obtain ⟨i, hword, hreg, hpe⟩ := hsound
  refine ⟨h.balance, h.known, h.exact, i, hword, hreg, ?_, hpe⟩
  show (s.register press).getLsbD i = true
  rw [hreg, hword, getLsbD_oneBit_self]

theorem balanced_ack {press : Bool} {word again : BitVec 32} (h : Balanced keymap s)
    (hacking : s.phase = .acking press word again) : Balanced keymap (handlerStep keymap s) := by
  rw [handlerStep, hacking]
  have hsound := h.sound
  rw [hacking] at hsound
  obtain ⟨i, rfl, rfl, hbit, hpe⟩ := hsound
  have hkey : ∀ j : Fin 32, keymap.key j = keymap.key i ↔ j = i := fun j =>
    ⟨fun heq => Fin.ext (keymap.injective j j.isLt i i.isLt heq), fun heq => by rw [heq]⟩
  refine ⟨?_, ?_, ?_, trivial⟩
  · intro j
    have hj := h.balance j
    cases press with
    | true =>
      have hkpe : s.kpe.getLsbD i = true := hbit
      simp only [State.clear, if_true, mem_reportedDown_concat, Keymap.report, scanCode_oneBit,
        hkey, getLsbD_and_not_oneBit]
      -- the press in the register becomes a reported one
      by_cases hji : j = i
      · subst hji
        rw [hj, hkpe]
        simp
      · rw [hj]
        simp [hji]
    | false =>
      have hkre : s.kre.getLsbD i = true := hbit
      simp only [State.clear, Bool.false_eq_true, if_false, mem_reportedDown_concat, Keymap.report,
        scanCode_oneBit, ne_eq, hkey, getLsbD_and_not_oneBit]
      -- the release in the register becomes a reported one
      by_cases hji : j = i
      · subst hji
        rw [hj, hkre, hpe rfl]
        simp
      · rw [hj]
        simp [hji]
  · intro key hmem
    rw [mem_reportedDown_concat] at hmem
    simp only [Keymap.report, scanCode_oneBit] at hmem
    split_ifs at hmem
    · -- a reported key belongs to a position
      rcases hmem with rfl | hmem
      · exact ⟨i, rfl⟩
      · exact h.known key hmem
    · exact h.known key hmem.2
  · intro p hp
    rcases List.mem_append.mp hp with hp | hp
    · exact h.exact p hp
    · obtain rfl := List.mem_singleton.mp hp
      exact Pass.exact_of_oneBit keymap press i

theorem balanced_step (e : Event) (h : Balanced keymap s) (hstep : step keymap s e = some s')
    (hquiet : Quiet s e s') : Balanced keymap s' := by
  cases e with
  | press k =>
    rw [step] at hstep
    split_ifs at hstep
    cases hstep
    exact balanced_press h hquiet
  | release k =>
    obtain ⟨-, rfl⟩ := of_guard_eq_some hstep
    exact balanced_release h hquiet
  | cpu =>
    cases hstep
    rcases hphase : s.phase with _ | press | ⟨press, word⟩ | ⟨press, word, again⟩
    · exact balanced_enter h hphase
    · exact balanced_scan h hphase hquiet
    · exact balanced_again h hphase
    · exact balanced_ack h hphase

theorem Balanced.faithful (h : Balanced keymap s) : Faithful keymap s := by
  refine ⟨h.exact, ?_⟩
  intro _ hkpe hkre
  have hbalance : ∀ j : Fin 32,
      s.down.getLsbD j = true ↔ keymap.key j ∈ reportedDown s.passes := by
    intro j
    rw [h.balance j, hkpe, hkre]
    simp
  ext key
  simp only [Keymap.keysOf, Finset.mem_image, Finset.mem_filter, Finset.mem_univ, true_and]
  constructor
  · intro hkey
    obtain ⟨j, rfl⟩ := h.known key hkey
    exact ⟨j, (hbalance j).mpr hkey, rfl⟩
  · rintro ⟨j, hj, rfl⟩
    exact (hbalance j).mp hj

end Steps

/-- **The keypad in quiet runs**: if every word read has one bit, no press (release) comes between
    the two reads of a press (release) and no key is pressed while its release waits, then every
    bit read is reported once under its own key, and a drained keypad reports the keys that are
    down. -/
theorem faithful_of_quiet (keymap : Keymap) (events : List Event) (s : State)
    (hquiet : Along (step keymap) Quiet State.init events)
    (hrun : runFrom (step keymap) State.init events = some s) : Faithful keymap s :=
  inv_of_along (fun _ e _ h hstep hq => balanced_step e h hstep hq) (balanced_init keymap) hquiet
    hrun |>.faithful

def Keymap.plain : Keymap where
  key i := UInt16.ofNat (i % 32)
  injective := by decide

def irq : List Event := [.cpu, .cpu, .cpu, .cpu]

def typing : List Event :=
  [.press 3] ++ irq ++ [.press 9] ++ irq ++ [.release 3] ++ irq

theorem faithful_of_quiet_typing :
    (runFrom (step .plain) State.init typing).map
      (fun s => (s.kpe, s.kre, reportedDown s.passes)) = some (0, 0, {9}) ∧
    ∀ s, runFrom (step .plain) State.init typing = some s → Faithful .plain s :=
  ⟨by decide +kernel, fun s hrun =>
    faithful_of_quiet .plain typing s (by decide +kernel) hrun⟩

/-- Two keys pressed before one interrupt: the lower one is never reported. A press between the two
    reads of `KPI_KPE`: it is cleared without a report. A key released and pressed again before the
    interrupt: the release is reported last. -/
theorem keys_misreported :
    [[.press 3, .press 9] ++ irq,
      [.press 3, .cpu, .cpu, .press 9, .cpu, .cpu],
      [.press 3] ++ irq ++ [.release 3, .press 3] ++ irq ++ irq].all (fun events =>
        (runFrom (step .plain) State.init events).any fun s =>
          s.phase = .idle ∧ s.kpe = 0 ∧ s.kre = 0 ∧ ¬Faithful .plain s) = true := by
  decide +kernel

end NucKernel.Input.Keypad
