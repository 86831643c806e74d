import Mathlib.Algebra.Group.Int.Defs
import Mathlib.Algebra.Group.Nat.Defs
import Mathlib.Data.Fintype.Basic
import Mathlib.Tactic.FinCases
import NucKernel.Library.Runs
import NucKernel.Library.Scan

/-!
# Pulse input: `timer1_interrupt`

The timer interrupt of `pulse_count.c` samples two GPIO lines every millisecond and counts the
pulses of an electricity meter. Per line it keeps two sample counters and two latched flags, all
`static`, and one entry of `pulse_count`.
-/

namespace NucKernel.CharDevices.PulseCount

open NucKernel.Library

/-! ## The interrupt handler -/

/-- The static variables that serve one line, with the line's entry of `pulse_count`.
    `unsigned int` counters are naturals below `2^32`, the `int` is a two's complement value. -/
structure Channel where
  countH : ℕ
  countL : ℕ
  hFlag : Bool
  lFlag : Bool
  pulseCount : ℤ
  deriving DecidableEq, Repr

/-- `x++` on an `unsigned int`. -/
def incUInt (x : ℕ) : ℕ := (x + 1) % 2 ^ 32

/-- `x++` on an `int`. -/
def incInt (x : ℤ) : ℤ := (x + 1).bmod (2 ^ 32)

theorem incUInt_of_lt {x : ℕ} (h : x < 100) : incUInt x = x + 1 :=
  Nat.mod_eq_of_lt (by omega)

theorem incInt_ne (x : ℤ) : incInt x ≠ x := by
  intro h
  have hmod : (x + 1).bmod (2 ^ 32) % (2 ^ 32 : ℕ) = (x + 1) % (2 ^ 32 : ℕ) := Int.bmod_emod
  rw [show (x + 1).bmod (2 ^ 32) = x from h] at hmod
  omega

/-- The body of `timer1_interrupt` for one line whose GPIO reads `level`. -/
def channelStep (c : Channel) (level : Bool) : Channel :=
  if level then
    -- more than 15 highs: the high level is confirmed, and what was low before it is forgotten
    let c :=
      if 15 < c.countH ∧ c.hFlag = false then
        { c with hFlag := true, countL := 0, lFlag := false }
      else c
    { c with countH := incUInt c.countH }
  else
    let c := { c with countL := incUInt c.countL }
    -- more than 55 lows latch the low flag, also before the high level was seen
    let c :=
      if 55 < c.countL ∧ c.lFlag = false then
        { c with lFlag := true, countL := 0 }
      else c
    -- both levels have been seen: count the pulse and start over
    if c.hFlag && c.lFlag then
      { countH := 0, countL := 0, hFlag := false, lFlag := false,
        pulseCount := incInt c.pulseCount }
    else c

/-- The handler's static state: `..1` variables with `pulse_count[0]`, `..2` variables with
    `pulse_count[1]`. -/
structure PulseDevice where
  ch1 : Channel
  ch2 : Channel
  deriving DecidableEq, Repr

/-- One call of `timer1_interrupt`, with the levels read from GPIO 134 and GPIO 133. -/
def timer1Interrupt (d : PulseDevice) (levels : Bool × Bool) : PulseDevice :=
  { ch1 := channelStep d.ch1 levels.1, ch2 := channelStep d.ch2 levels.2 }

/-- The initial values of the static variables of one line. -/
def Channel.init : Channel :=
  { countH := 0, countL := 0, hFlag := false, lFlag := false, pulseCount := 0 }

def PulseDevice.init : PulseDevice := { ch1 := Channel.init, ch2 := Channel.init }

/-- The variables of line `c`, indexed like `pulse_count`. -/
def PulseDevice.channel (d : PulseDevice) : Fin 2 → Channel
  | 0 => d.ch1
  | 1 => d.ch2

def level (levels : Bool × Bool) : Fin 2 → Bool
  | 0 => levels.1
  | 1 => levels.2

theorem timer1Interrupt_channel (d : PulseDevice) (x : Bool × Bool) (c : Fin 2) :
    (timer1Interrupt d x).channel c = channelStep (d.channel c) (level x c) := by
  fin_cases c <;> rfl

theorem foldl_channel (d : PulseDevice) (samples : List (Bool × Bool)) (c : Fin 2) :
    (samples.foldl timer1Interrupt d).channel c =
      (samples.map (level · c)).foldl channelStep (d.channel c) := by
  induction samples generalizing d with
  | nil => rfl
  | cons x samples ih =>
    rw [List.foldl_cons, ih, timer1Interrupt_channel]
    rfl

/-! ## What one sample does

Between two completions the handler is first in search of a high level (`hFlag` down), then of a
low level. The counter `countL` runs in both phases, but what it holds when the high level is
confirmed is thrown away. -/

/-- What the static variables of a line satisfy between two interrupts. While the high level is
    being searched `countH` has not passed 16, afterwards `countL` has not passed 55 and the low
    flag is down. -/
def Channel.Inv (c : Channel) : Prop :=
  (c.hFlag = false → c.countH ≤ 16) ∧ (c.hFlag = true → c.countL ≤ 55 ∧ c.lFlag = false)

theorem Channel.init_inv : Channel.init.Inv := by
  simp [Channel.Inv, Channel.init]

theorem step_high_search {c : Channel} (hf : c.hFlag = false) (hc : c.countH < 16) :
    channelStep c true = { c with countH := c.countH + 1 } := by
  simp [channelStep, hf, incUInt_of_lt (show c.countH < 100 by omega),
    show ¬ 15 < c.countH by omega]

theorem step_high_confirm {c : Channel} (hf : c.hFlag = false) (hc : c.countH = 16) :
    channelStep c true = { c with hFlag := true, countL := 0, lFlag := false, countH := 17 } := by
  simp [channelStep, incUInt, hf, hc]

theorem step_high_confirmed {c : Channel} (hf : c.hFlag = true) :
    channelStep c true = { c with countH := incUInt c.countH } := by
  simp [channelStep, hf]

theorem step_low_search {c : Channel} (hf : c.hFlag = false) :
    ∃ l f, channelStep c false = { c with countL := l, lFlag := f } := by
  simp only [channelStep, Bool.false_eq_true, if_false, hf]
  split
  · exact ⟨0, true, by simp⟩
  · exact ⟨incUInt c.countL, c.lFlag, by simp⟩

theorem step_low_count {c : Channel} (hf : c.hFlag = true) (hl : c.lFlag = false)
    (hc : c.countL < 55) : channelStep c false = { c with countL := c.countL + 1 } := by
  simp [channelStep, hf, hl, incUInt_of_lt (show c.countL < 100 by omega),
    show ¬ 55 < c.countL + 1 by omega]

theorem step_low_complete {c : Channel} (hf : c.hFlag = true) (hl : c.lFlag = false)
    (hc : c.countL = 55) :
    channelStep c false = { Channel.init with pulseCount := incInt c.pulseCount } := by
  simp [channelStep, incUInt, Channel.init, hf, hl, hc]

/-! ## The greedy scan -/

/-- The number of times the scan of one line completes: 17 highs, then 56 lows after them. -/
def pulseScan (l : List Bool) : ℕ :=
  match _h₁ : skipCount (· = true) 17 l with
  | none => 0
  | some l₁ =>
    match _h₂ : skipCount (· = false) 56 l₁ with
    | none => 0
    | some l₂ => pulseScan l₂ + 1
termination_by l.length
decreasing_by
  have := skipCount_length _ _h₁
  have := skipCount_length _ _h₂
  omega

/-- Completions of a scan that still waits for `n` lows. -/
def lowPhase (n : ℕ) (l : List Bool) : ℕ :=
  match skipCount (· = false) n l with
  | none => 0
  | some l' => pulseScan l' + 1

/-- Completions of a scan that still waits for `n` highs. -/
def highPhase (n : ℕ) (l : List Bool) : ℕ :=
  match skipCount (· = true) n l with
  | none => 0
  | some l' => lowPhase 56 l'

theorem pulseScan_eq (l : List Bool) : pulseScan l = highPhase 17 l := by
  rw [pulseScan, highPhase]
  rcases h₁ : skipCount (· = true) 17 l with _ | l₁
  · rfl
  · simp only [lowPhase]
    rcases h₂ : skipCount (· = false) 56 l₁ with _ | l₂ <;> rfl

theorem highPhase_nil (n : ℕ) : highPhase (n + 1) [] = 0 := rfl

theorem lowPhase_nil (n : ℕ) : lowPhase (n + 1) [] = 0 := rfl

theorem highPhase_high (n : ℕ) (l : List Bool) :
    highPhase (n + 1) (true :: l) = highPhase n l := by
  simp [highPhase, skipCount_hit]

theorem highPhase_low (n : ℕ) (l : List Bool) :
    highPhase (n + 1) (false :: l) = highPhase (n + 1) l := by
  simp [highPhase, skipCount_miss]

theorem lowPhase_low (n : ℕ) (l : List Bool) :
    lowPhase (n + 1) (false :: l) = lowPhase n l := by
  simp [lowPhase, skipCount_hit]

theorem lowPhase_high (n : ℕ) (l : List Bool) :
    lowPhase (n + 1) (true :: l) = lowPhase (n + 1) l := by
  simp [lowPhase, skipCount_miss]

theorem highPhase_zero (l : List Bool) : highPhase 0 l = lowPhase 56 l := by
  simp [highPhase]

theorem lowPhase_zero (l : List Bool) : lowPhase 0 l = pulseScan l + 1 := by
  simp [lowPhase]

/-- The completions still to come, read off the static variables of a line. -/
def Channel.pending (c : Channel) (l : List Bool) : ℕ :=
  if c.hFlag then lowPhase (56 - c.countL) l else highPhase (17 - c.countH) l

/-! ## The exact law -/

/-- **Step lemma**: one sample keeps the invariant, and what it adds to `pulse_count` is what the
    completions still to come lose. -/
theorem step_pending {c : Channel} (h : c.Inv) (x : Bool) (l : List Bool) :
    (channelStep c x).Inv ∧
      ((channelStep c x).pulseCount + ((channelStep c x).pending l : ℤ)).bmod (2 ^ 32) =
        (c.pulseCount + (c.pending (x :: l) : ℤ)).bmod (2 ^ 32) := by
  obtain ⟨hsearch, hconf⟩ := h
  -- the cases are the six step lemmas above; each meets one equation of the two phases
  cases x with
  | true =>
    cases hf : c.hFlag with
    | false =>
      have hle := hsearch hf
      rcases Nat.lt_or_ge c.countH 16 with hlt | hge
      · rw [step_high_search hf hlt]
        refine ⟨⟨fun _ => hlt, fun h => by simp [hf] at h⟩, ?_⟩
        have hk : 17 - c.countH = (17 - (c.countH + 1)) + 1 := by omega
        simp [Channel.pending, hf, hk, highPhase_high]
      · -- the 17th high: from now on the scan waits for lows
        have h16 : c.countH = 16 := by omega
        rw [step_high_confirm hf h16]
        refine ⟨⟨fun h => by simp at h, fun _ => ⟨by simp, rfl⟩⟩, ?_⟩
        simp [Channel.pending, hf, h16, highPhase_high, highPhase_zero]
    -- a high after the confirmation
    | true =>
      obtain ⟨hl, hlf⟩ := hconf hf
      rw [step_high_confirmed hf]
      refine ⟨⟨fun h => by simp [hf] at h, fun _ => ⟨hl, hlf⟩⟩, ?_⟩
      have hk : 56 - c.countL = (55 - c.countL) + 1 := by omega
      simp [Channel.pending, hf, hk, lowPhase_high]
  | false =>
    cases hf : c.hFlag with
    | false =>
      -- a low that only moves `countL`
      obtain ⟨m, f, hstep⟩ := step_low_search hf
      have hle := hsearch hf
      rw [hstep]
      refine ⟨⟨fun _ => hle, fun h => by simp [hf] at h⟩, ?_⟩
      have hk : 17 - c.countH = (16 - c.countH) + 1 := by omega
      simp [Channel.pending, hf, hk, highPhase_low]
    | true =>
      obtain ⟨hl, hlf⟩ := hconf hf
      rcases Nat.lt_or_ge c.countL 55 with hlt | hge
      · rw [step_low_count hf hlf hlt]
        refine ⟨⟨fun h => by simp [hf] at h, fun _ => ⟨hlt, hlf⟩⟩, ?_⟩
        have hk : 56 - c.countL = (56 - (c.countL + 1)) + 1 := by omega
        simp [Channel.pending, hf, hk, lowPhase_low]
      · -- the completing sample: the scan starts over and the `int` takes the 1
        have h55 : c.countL = 55 := by omega
        rw [step_low_complete hf hlf h55]
        refine ⟨Channel.init_inv, ?_⟩
        simp only [Channel.pending, Channel.init, hf, h55, incInt, if_true, Bool.false_eq_true,
          if_false, Nat.reduceSub, lowPhase_low, lowPhase_zero, ← pulseScan_eq,
          Int.bmod_add_bmod]
        congr 1
        push_cast
        omega

/-- **Run lemma** -/
theorem foldl_pulseCount {c : Channel} (h : c.Inv) (l : List Bool) :
    (l.foldl channelStep c).pulseCount.bmod (2 ^ 32) =
      (c.pulseCount + (c.pending l : ℤ)).bmod (2 ^ 32) := by
  induction l generalizing c with
  | nil =>
    -- a scan that still waits for a sample completes nothing on the empty stream
    obtain ⟨hsearch, hconf⟩ := h
    cases hf : c.hFlag with
    | false =>
      have hk : 17 - c.countH = (16 - c.countH) + 1 := by have := hsearch hf; omega
      simp [Channel.pending, hf, hk, highPhase_nil]
    | true =>
      have hk : 56 - c.countL = (55 - c.countL) + 1 := by have := (hconf hf).1; omega
      simp [Channel.pending, hf, hk, lowPhase_nil]
  | cons x l ih =>
    obtain ⟨hinv, hstep⟩ := step_pending h x l
    rw [List.foldl_cons, ih hinv, hstep]

theorem step_representable {c : Channel} (h : c.pulseCount.bmod (2 ^ 32) = c.pulseCount)
    (x : Bool) : (channelStep c x).pulseCount.bmod (2 ^ 32) = (channelStep c x).pulseCount := by
  have key : (channelStep c x).pulseCount = c.pulseCount ∨
      (channelStep c x).pulseCount = incInt c.pulseCount := by
    simp only [channelStep]
    split_ifs <;> simp
  rcases key with hk | hk
  · rw [hk, h]
  · rw [hk, incInt, Int.bmod_bmod]

theorem foldl_representable {c : Channel} (h : c.pulseCount.bmod (2 ^ 32) = c.pulseCount)
    (l : List Bool) :
    (l.foldl channelStep c).pulseCount.bmod (2 ^ 32) = (l.foldl channelStep c).pulseCount := by
  induction l generalizing c with
  | nil => exact h
  | cons x l ih => exact ih (step_representable h x)

/-- **Exact law**: from the initial state, `pulse_count[c]` is the number of completions of the
    greedy scan over the samples of line `c` alone, taken as a 32-bit `int`; it is that number
    itself until the `int` overflows. -/
theorem pulseCount_run (samples : List (Bool × Bool)) (c : Fin 2) :
    ((samples.foldl timer1Interrupt PulseDevice.init).channel c).pulseCount =
        ((pulseScan (samples.map (level · c)) : ℕ) : ℤ).bmod (2 ^ 32) ∧
      (pulseScan (samples.map (level · c)) < 2 ^ 31 →
        ((samples.foldl timer1Interrupt PulseDevice.init).channel c).pulseCount =
          pulseScan (samples.map (level · c))) := by
  have hinit : PulseDevice.init.channel c = Channel.init := by fin_cases c <;> rfl
  have hlaw : ((samples.foldl timer1Interrupt PulseDevice.init).channel c).pulseCount =
      ((pulseScan (samples.map (level · c)) : ℕ) : ℤ).bmod (2 ^ 32) := by
    rw [foldl_channel, hinit, ← foldl_representable (by decide), foldl_pulseCount Channel.init_inv]
    simp [Channel.pending, Channel.init, pulseScan_eq]
  refine ⟨hlaw, fun hlt => ?_⟩
  rw [hlaw]
  exact Int.bmod_eq_of_le (by omega) (by omega)

/-- `n` clean pulses on both lines. -/
def pulseTrain (n : ℕ) : List (Bool × Bool) :=
  (List.replicate n
    (List.replicate 17 (true, true) ++ List.replicate 56 (false, false))).flatten

theorem pulseScan_pulseTrain (n : ℕ) (c : Fin 2) :
    pulseScan ((pulseTrain n).map (level · c)) = n := by
  have hhigh : level (true, true) c = true := by fin_cases c <;> rfl
  have hlow : level (false, false) c = false := by fin_cases c <;> rfl
  induction n with
  | zero =>
    rw [pulseScan_eq]
    rfl
  | succ n ih =>
    -- the first pulse of the train satisfies both searches, the rest is the train of length `n`
    have hcons : (pulseTrain (n + 1)).map (level · c) =
        List.replicate 17 true ++ (List.replicate 56 false ++ (pulseTrain n).map (level · c)) := by
      simp [pulseTrain, List.replicate_succ, hhigh, hlow]
    have h₁ := skipCount_replicate (· = true) (by simp : decide (true = true) = true) 17
      (List.replicate 56 false ++ (pulseTrain n).map (level · c))
    have h₂ := skipCount_replicate (· = false) (by simp : decide (false = false) = true) 56
      ((pulseTrain n).map (level · c))
    rw [pulseScan_eq, hcons, highPhase, h₁]
    simp only [lowPhase, h₂, ih]

/-- After `2^31` clean pulses the `int` has wrapped to a negative value. -/
theorem pulseCount_overflow :
    ((pulseTrain (2 ^ 31)).foldl timer1Interrupt PulseDevice.init |>.channel 0).pulseCount ≠
      pulseScan ((pulseTrain (2 ^ 31)).map (level · 0)) := by
  have hinit : PulseDevice.init.channel 0 = Channel.init := rfl
  rw [foldl_channel, ← foldl_representable (by decide), hinit, foldl_pulseCount Channel.init_inv]
  have hpend : ∀ l, Channel.init.pending l = pulseScan l := by
    intro l
    simp [Channel.pending, Channel.init, pulseScan_eq]
  -- what is left compares `2^31` with its 32-bit two's complement value
  rw [hpend, pulseScan_pulseTrain]
  decide

/-! ## The debounce rule

The comment above the increment asks for a high level of more than 15 ms and then a low level of
more than 55 ms. The handler only adds samples up: an opposite sample resets nothing. -/

/-- The handler, with the samples of line `c` since its last counted pulse. -/
structure Watch where
  device : PulseDevice
  since : List Bool
  deriving DecidableEq

def watchStep (c : Fin 2) (w : Watch) (x : Bool × Bool) : Option Watch :=
  let d := timer1Interrupt w.device x
  some
    { device := d
      since :=
        if (d.channel c).pulseCount = (w.device.channel c).pulseCount then
          w.since ++ [level x c]
        else [] }

def Watch.init : Watch := { device := PulseDevice.init, since := [] }

/-- An uninterrupted run of more than 15 highs and, later, one of more than 55 lows. -/
def LongRuns (w : List Bool) : Prop :=
  ∃ u v, w = u ++ v ∧ List.replicate 16 true <:+: u ∧ List.replicate 56 false <:+: v

/-- The debounce rule, for one interrupt: `pulse_count[c]` moves only after long runs. -/
def Debounced (c : Fin 2) (w : Watch) (x : Bool × Bool) (w' : Watch) : Prop :=
  (w'.device.channel c).pulseCount ≠ (w.device.channel c).pulseCount →
    LongRuns (w.since ++ [level x c])

/-- No sample of the opposite level arrives while a level of line `c` is being counted. -/
def Uninterrupted (c : Fin 2) (w : Watch) (x : Bool × Bool) (_ : Watch) : Prop :=
  (level x c = true → (w.device.channel c).hFlag = true → (w.device.channel c).countL = 0) ∧
    (level x c = false → (w.device.channel c).hFlag = false → (w.device.channel c).countH = 0)

instance (c : Fin 2) (w w' : Watch) (x : Bool × Bool) : Decidable (Uninterrupted c w x w') :=
  inferInstanceAs (Decidable (_ ∧ _))

/-- What the samples since the last count look like when no level was interrupted: lows, then
    `countH` highs; once the high level is confirmed, at least 17 highs and then `countL` lows. -/
def Watch.Clean (c : Fin 2) (w : Watch) : Prop :=
  ((w.device.channel c).hFlag = false ∧ (w.device.channel c).countH ≤ 16 ∧
    ∃ a, w.since = List.replicate a false ++ List.replicate (w.device.channel c).countH true) ∨
  ((w.device.channel c).hFlag = true ∧ (w.device.channel c).lFlag = false ∧
    (w.device.channel c).countL ≤ 55 ∧
    ∃ a b, 17 ≤ b ∧ w.since = List.replicate a false ++ List.replicate b true ++
      List.replicate (w.device.channel c).countL false)

theorem watchStep_channel {c : Fin 2} {w w' : Watch} {x : Bool × Bool}
    (h : watchStep c w x = some w') :
    w'.device.channel c = channelStep (w.device.channel c) (level x c) := by
  obtain rfl := Option.some.inj h
  exact timer1Interrupt_channel ..

theorem watchStep_since {c : Fin 2} {w w' : Watch} {x : Bool × Bool}
    (h : watchStep c w x = some w')
    (hsame : (w'.device.channel c).pulseCount = (w.device.channel c).pulseCount) :
    w'.since = w.since ++ [level x c] := by
  obtain rfl := Option.some.inj h
  exact if_pos hsame

theorem watchStep_since_reset {c : Fin 2} {w w' : Watch} {x : Bool × Bool}
    (h : watchStep c w x = some w')
    (hcount : (w'.device.channel c).pulseCount ≠ (w.device.channel c).pulseCount) :
    w'.since = [] := by
  obtain rfl := Option.some.inj h
  exact if_neg hcount

theorem longRuns_of_clean {a b : ℕ} (hb : 17 ≤ b) :
    LongRuns ((List.replicate a false ++ List.replicate b true ++ List.replicate 55 false) ++
      [false]) := by
  refine ⟨List.replicate a false ++ List.replicate b true, List.replicate 56 false, ?_, ?_, ?_⟩
  · rw [List.append_assoc _ (List.replicate 55 false), ← List.replicate_succ']
  · -- the highs of the record, from which a run of 16 is cut
    refine List.IsInfix.trans ⟨[], List.replicate (b - 16) true, ?_⟩
      (List.suffix_append _ _).isInfix
    rw [List.nil_append, ← List.replicate_add]
    congr 1
    omega
  · exact List.infix_refl _

/-- **Step lemma**: an uninterrupted sample keeps the record clean and obeys the debounce rule. -/
theorem watchStep_clean {c : Fin 2} {w w' : Watch} {x : Bool × Bool}
    (hw : w.Clean c) (h : watchStep c w x = some w') (hu : Uninterrupted c w x w') :
    w'.Clean c ∧ Debounced c w x w' := by
  have hch := watchStep_channel h
  obtain ⟨huh, hul⟩ := hu
  rcases hw with ⟨hf, hle, a, hsince⟩ | ⟨hf, hlf, hle, a, b, hb, hsince⟩
  · -- the high level is being searched: no sample completes a pulse here
    cases hx : level x c with
    | true =>
      rw [hx] at hch
      rcases Nat.lt_or_ge (w.device.channel c).countH 16 with hlt | hge
      · -- a high more of the run that is counted
        rw [step_high_search hf hlt] at hch
        have hs := watchStep_since h (by rw [hch])
        refine ⟨Or.inl ⟨by rw [hch]; exact hf, by rw [hch]; exact hlt, a, ?_⟩,
          fun hne => absurd (by rw [hch]) hne⟩
        rw [hs, hsince, hx, hch, List.replicate_succ', List.append_assoc]
      · -- the 17th high
        have h16 : (w.device.channel c).countH = 16 := by omega
        rw [step_high_confirm hf h16] at hch
        have hs := watchStep_since h (by rw [hch])
        refine ⟨Or.inr ⟨by rw [hch], by rw [hch], by rw [hch]; simp, a, 17, le_refl _, ?_⟩,
          fun hne => absurd (by rw [hch]) hne⟩
        rw [hs, hsince, hx, hch, h16, List.replicate_succ' (n := 16)]
        simp
    | false =>
      -- a low may arrive only before the first high, so it lengthens the leading run of lows
      rw [hx] at hch
      obtain ⟨m, f, hstep⟩ := step_low_search hf
      rw [hstep] at hch
      have hzero := hul hx hf
      have hs := watchStep_since h (by rw [hch])
      refine ⟨Or.inl ⟨by rw [hch]; exact hf, by rw [hch]; exact hle, a + 1, ?_⟩,
        fun hne => absurd (by rw [hch]) hne⟩
      rw [hs, hsince, hx, hch, hzero, List.replicate_succ']
      simp
  · -- the high level is confirmed and the lows are being counted
    cases hx : level x c with
    | true =>
      -- a high may arrive only before the first low
      rw [hx] at hch
      rw [step_high_confirmed hf] at hch
      have hzero := huh hx hf
      have hs := watchStep_since h (by rw [hch])
      refine ⟨Or.inr ⟨by rw [hch]; exact hf, by rw [hch]; exact hlf, by rw [hch]; exact hle,
        a, b + 1, by omega, ?_⟩, fun hne => absurd (by rw [hch]) hne⟩
      rw [hs, hsince, hx, hch, hzero, List.replicate_succ']
      simp
    | false =>
      rw [hx] at hch
      rcases Nat.lt_or_ge (w.device.channel c).countL 55 with hlt | hge
      · -- a low more
        rw [step_low_count hf hlf hlt] at hch
        have hs := watchStep_since h (by rw [hch])
        refine ⟨Or.inr ⟨by rw [hch]; exact hf, by rw [hch]; exact hlf, by rw [hch]; exact hlt,
          a, b, hb, ?_⟩, fun hne => absurd (by rw [hch]) hne⟩
        rw [hs, hsince, hx, hch, List.replicate_succ' (n := (w.device.channel c).countL),
          List.append_assoc]
      · -- the completing sample
        have h55 : (w.device.channel c).countL = 55 := by omega
        rw [step_low_complete hf hlf h55] at hch
        have hne : (w'.device.channel c).pulseCount ≠ (w.device.channel c).pulseCount := by
          rw [hch]
          exact incInt_ne _
        refine ⟨Or.inl ⟨by rw [hch]; rfl, by rw [hch]; simp [Channel.init], 0, ?_⟩, fun _ => ?_⟩
        · rw [watchStep_since_reset h hne, hch]
          rfl
        · rw [hsince, hx, h55]
          exact longRuns_of_clean hb

theorem Watch.init_clean (c : Fin 2) : Watch.init.Clean c := by
  refine Or.inl ?_
  fin_cases c <;> exact ⟨rfl, by decide, 0, rfl⟩

/-- **Glitch immunity**: in every stream in which no level of line `c` is interrupted while it is
    being counted, `pulse_count[c]` obeys the debounce rule at every interrupt. -/
theorem debounced_of_uninterrupted (c : Fin 2) (samples : List (Bool × Bool))
    (h : Along (watchStep c) (Uninterrupted c) Watch.init samples) :
    Along (watchStep c) (Debounced c) Watch.init samples :=
  along_of_along (fun _ _ _ hw hs hu => (watchStep_clean hw hs hu).1)
    (fun _ _ _ hw hs hu => (watchStep_clean hw hs hu).2) (Watch.init_clean c) h

/-- One clean pulse is counted, and meets the hypothesis. -/
theorem debounced_pulse :
    Along (watchStep 0) (Uninterrupted 0) Watch.init (pulseTrain 1) ∧
      Along (watchStep 0) (Debounced 0) Watch.init (pulseTrain 1) := by
  have h : Along (watchStep 0) (Uninterrupted 0) Watch.init (pulseTrain 1) := by decide +kernel
  exact ⟨h, debounced_of_uninterrupted 0 (pulseTrain 1) h⟩

/-- `n` one-sample glitches on both lines. -/
def glitches (n : ℕ) : List (Bool × Bool) :=
  (List.replicate n [(true, true), (false, false)]).flatten

/-- The watch before the last sample of 72 glitches: both levels are one sample short of being
    counted, from runs of a single sample. -/
def glitched : Watch :=
  let c : Channel := { countH := 72, countL := 55, hFlag := true, lFlag := false, pulseCount := 0 }
  { device := { ch1 := c, ch2 := c }
    since := (List.replicate 71 [true, false]).flatten ++ [true] }

/-- 72 one-sample glitches are counted as a pulse. -/
theorem glitches_counted :
    ¬ Along (watchStep 0) (Debounced 0) Watch.init (glitches 72) := by
  intro h
  -- the run is cut before its last sample, where the watch can be computed
  rw [show glitches 72 = (glitches 71 ++ [(true, true)]) ++ [(false, false)] by decide +kernel] at h
  have hrun : runFrom (watchStep 0) Watch.init (glitches 71 ++ [(true, true)]) = some glitched := by
    decide +kernel
  have hlast : Debounced 0 glitched (false, false)
      ⟨timer1Interrupt glitched.device (false, false), []⟩ := h.last hrun rfl
  obtain ⟨u, v, huv, hhigh, -⟩ := hlast (by decide)
  have hno : ¬ List.replicate 16 true <:+: glitched.since ++ [false] := by decide +kernel
  rw [show level (false, false) 0 = false from rfl] at huv
  exact hno (hhigh.trans ⟨[], v, by rw [huv]; rfl⟩)

end NucKernel.CharDevices.PulseCount
