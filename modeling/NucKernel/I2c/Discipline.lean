import NucKernel.I2c.Transfer

/-!
# Message accesses of the I2C engine under arbitrary interrupts

Interrupts come with any status, in any number and at any time. The accesses through `i2c->msg` are
in order as long as the engine stays in its write states. Two paths leave that discipline:

- `nuc970_i2c0_stop` for a read without START clears `i2c->msg`, and the jump to `retry_write` uses
  it
- once the engine reads, it moves on to the next message without a look at its length, and the next
  byte is stored even if the message has none

`SafeReads` is the condition on the messages under which neither path is taken, and
`disciplined_iff_safeReads` states that no weaker condition will do.
-/

namespace NucKernel.I2c

open NucKernel.Library

/-! ## What is required of every interrupt -/

/-- One interrupt. A run ends with the first access that goes wrong. -/
def irqStep (msgs : List I2cMsg) (s : Nuc970I2c) (irq : Irq) : Option Nuc970I2c :=
  if s.fault = none then some (nuc970I2cIrq msgs s irq) else none

/-- All accesses are in order, and a stopped engine only goes from STOP to IDLE and writes no
    command. -/
structure Disciplined (s : Nuc970I2c) (_ : Irq) (s' : Nuc970I2c) : Prop where
  fault : s'.fault = none
  stop : s.state = .stop → (s'.state = .stop ∨ s'.state = .idle) ∧ s'.bus = s.bus
  idle : s.state = .idle → s'.state = .idle ∧ s'.bus = s.bus

instance (s : Nuc970I2c) (irq : Irq) (s' : Nuc970I2c) : Decidable (Disciplined s irq s') :=
  decidable_of_iff
    (s'.fault = none ∧ (s.state = .stop → (s'.state = .stop ∨ s'.state = .idle) ∧ s'.bus = s.bus) ∧
      (s.state = .idle → s'.state = .idle ∧ s'.bus = s.bus))
    ⟨fun h => ⟨h.1, h.2.1, h.2.2⟩, fun h => ⟨h.fault, h.stop, h.idle⟩⟩

/-! ## The messages that are handled safely -/

/-- All messages before message `i` write. -/
def WritesBefore (msgs : List I2cMsg) (i : ℕ) : Prop :=
  ∀ k < i, ∀ w, msgs[k]? = some w → w.rd = false

/-- Message `j` is the first one that reads. -/
structure FirstRead (msgs : List I2cMsg) (j : ℕ) (m : I2cMsg) : Prop where
  get : msgs[j]? = some m
  rd : m.rd = true
  writes : WritesBefore msgs j

/-- The first message that reads begins with a START, and no message after it is empty. -/
def SafeReads (msgs : List I2cMsg) : Prop :=
  ∀ j m, FirstRead msgs j m →
    (0 < j → m.nostart = false) ∧ ∀ k > j, ∀ m', msgs[k]? = some m' → 0 < m'.len.toNat

section Messages

variable {msgs : List I2cMsg} {i j : ℕ} {m : I2cMsg}

theorem WritesBefore.succ (h : WritesBefore msgs i) (hm : msgs[i]? = some m) (hrd : m.rd = false) :
    WritesBefore msgs (i + 1) := by
  intro k hk w hw
  rcases Nat.lt_succ_iff_lt_or_eq.mp hk with hlt | rfl
  · exact h k hlt w hw
  · obtain rfl : m = w := Option.some.inj (hm.symm.trans hw)
    exact hrd

end Messages

/-! ## The invariant -/

/-- How far the engine may be in each of its states. -/
inductive Phase (msgs : List I2cMsg) (i : ℕ) (m : I2cMsg) : I2cState → ℕ → Prop
  | start (hwrites : WritesBefore msgs i) : Phase msgs i m .start 0
  | write (ptr : ℕ) (hwrites : WritesBefore msgs (i + 1)) : Phase msgs i m .write ptr
  | read (ptr j : ℕ) (mj : I2cMsg) (hfirst : FirstRead msgs j mj) (hj : j ≤ i)
      (hptr : ptr < m.len.toNat) : Phase msgs i m .read ptr

/-- Between two interrupts the engine has stopped, or it is in one of the phases of a transfer. -/
inductive Good (msgs : List I2cMsg) (s : Nuc970I2c) : Prop
  | ended (hfault : s.fault = none) (hst : s.state = .stop ∨ s.state = .idle)
  | busy (i : ℕ) (m : I2cMsg) (hprog : InProgress msgs i m s)
      (hphase : Phase msgs i m s.state s.msgPtr)

theorem Good.fault {msgs : List I2cMsg} {s : Nuc970I2c} (h : Good msgs s) : s.fault = none := by
  cases h with
  | ended hfault _ => exact hfault
  | busy _ _ hprog _ => exact hprog.fault

section Progress

variable {msgs : List I2cMsg} {i : ℕ} {m : I2cMsg} {s : Nuc970I2c}

theorem good_sendStop (hfault : s.fault = none) (ret : ℤ) : Good msgs (s.sendStop ret) :=
  .ended hfault (.inl rfl)

/-! ## One interrupt keeps the invariant -/

theorem good_retryWrite (hsafe : SafeReads msgs) (hn : msgs.length < 2 ^ 31) (rounds : ℕ)
    (hrounds : msgs.length ≤ i + rounds) (hprog : InProgress msgs i m s) (hst : s.state = .write)
    (hwrites : WritesBefore msgs (i + 1)) :
    Good msgs (Nuc970I2c.retryWrite msgs rounds s) := by
  induction rounds generalizing i m s with
  | zero =>
    -- the rounds left are enough for the messages left
    have hi := lt_of_get hprog.get
    omega
  | succ rounds ih =>
    cases hend : s.isMsgend m with
    | false =>
      -- one more byte of the message is sent
      rw [Nuc970I2c.retryWrite_byte rounds hprog.deref hprog.msg hend]
      refine .busy i m ⟨hprog.msg, hprog.msgIdx, hprog.msgNum, hprog.get, hprog.fault⟩ ?_
      exact hst ▸ .write _ hwrites
    | true =>
      cases hlast : s.isLastmsg with
      | true =>
        -- the transfer is complete
        rw [Nuc970I2c.retryWrite_last rounds hprog.deref hprog.msg hend hlast]
        exact good_sendStop hprog.fault 0
      | false =>
        obtain ⟨m', hm'⟩ := hprog.exists_next hn hlast
        have hnext := hprog.nextMsg hn hm'
        rw [Nuc970I2c.retryWrite_next rounds hprog.deref hend hlast hnext.deref]
        cases hrd : m'.rd with
        | false =>
          split
          · -- the next message continues the write
            exact ih (by omega) hnext hst (hwrites.succ hm' hrd)
          · -- it begins with a START of its own
            exact .busy (i + 1) m' ⟨hnext.msg, hnext.msgIdx, hnext.msgNum, hm', hnext.fault⟩
              (.start hwrites)
        | true =>
          -- the change of direction needs the START
          have hstart := (hsafe (i + 1) m' ⟨hm', hrd, hwrites⟩).1 (Nat.succ_pos i)
          rw [hstart]
          exact .busy (i + 1) m' ⟨hnext.msg, hnext.msgIdx, hnext.msgNum, hm', hnext.fault⟩
            (.start hwrites)

theorem good_writeState (hsafe : SafeReads msgs) (hn : msgs.length < 2 ^ 31) (noAck : Bool)
    (hprog : InProgress msgs i m s) (hst : s.state = .write)
    (hwrites : WritesBefore msgs (i + 1)) : Good msgs (s.writeState msgs noAck) := by
  simp only [Nuc970I2c.writeState, hprog.deref]
  split
  · exact good_sendStop hprog.fault _
  · rw [hprog.msgNum]
    exact good_retryWrite hsafe hn _ (by omega) hprog hst hwrites

theorem good_prepareRead {j : ℕ} {mj : I2cMsg} (hsafe : SafeReads msgs)
    (hn : msgs.length < 2 ^ 31) (hprog : InProgress msgs i m s) (hst : s.state = .read)
    (hfirst : FirstRead msgs j mj) (hj : j ≤ i) (hptr : s.msgPtr ≤ m.len.toNat) :
    Good msgs (s.prepareRead msgs) := by
  have hcommand : s.msgPtr < m.len.toNat → ∀ c, Good msgs (s.command c) := fun hlt _ =>
    .busy i m ⟨hprog.msg, hprog.msgIdx, hprog.msgNum, hprog.get, hprog.fault⟩
      (hst ▸ .read _ j mj hfirst hj hlt)
  rw [Nuc970I2c.prepareRead_eq hprog hn hptr]
  split
  case isTrue hlast =>
    split
    · -- the last byte is to be read
      exact hcommand (by omega) _
    · exact .busy i m hprog (hst ▸ .read _ j mj hfirst hj (by omega))
  case isFalse hlast =>
    split
    case isTrue hend =>
      split
      · -- the last message is complete
        exact good_sendStop hprog.fault 0
      · obtain ⟨m', hm'⟩ : ∃ m', msgs[i + 1]? = some m' :=
          ⟨_, List.getElem?_eq_getElem (by have := lt_of_get hprog.get; omega)⟩
        have hnext := hprog.nextMsg hn hm'
        -- the next message is entered without a look at its length
        refine .busy (i + 1) m' ⟨hnext.msg, hnext.msgIdx, hnext.msgNum, hm', hnext.fault⟩ ?_
        exact hst ▸ .read _ j mj hfirst (by omega) ((hsafe j mj hfirst).2 (i + 1) (by omega) m' hm')
    case isFalse hend => exact hcommand (by omega) _

theorem good_startState (hsafe : SafeReads msgs) (hn : msgs.length < 2 ^ 31) (noAck : Bool)
    (hprog : InProgress msgs i m s) (hptr : s.msgPtr = 0) (hwrites : WritesBefore msgs i) :
    Good msgs (s.startState msgs noAck) := by
  have hprog' : ∀ st, InProgress msgs i m { s with state := st } := fun _ =>
    ⟨hprog.msg, hprog.msgIdx, hprog.msgNum, hprog.get, hprog.fault⟩
  have hread : m.rd = true → Good msgs (Nuc970I2c.prepareRead msgs { s with state := .read }) :=
    fun hrd => good_prepareRead hsafe hn (hprog' _) rfl ⟨hprog.get, hrd, hwrites⟩ (Nat.le_refl i)
      (show s.msgPtr ≤ _ by omega)
  have hwrite : m.rd = false →
      Good msgs (Nuc970I2c.writeState msgs { s with state := .write } noAck) :=
    fun hrd => good_writeState hsafe hn noAck (hprog' _) rfl (hwrites.succ hprog.get hrd)
  simp only [Nuc970I2c.startState, hprog.deref]
  split
  · exact good_sendStop hprog.fault _
  · cases hrd : m.rd with
    | true =>
      refine iteInduction (motive := Good msgs) (fun _ => good_sendStop hprog.fault _) fun _ => ?_
      exact hread hrd
    | false =>
      refine iteInduction (motive := Good msgs) (fun _ => good_sendStop hprog.fault _) fun _ => ?_
      exact hwrite hrd

theorem good_readState {j : ℕ} {mj : I2cMsg} (hsafe : SafeReads msgs) (hn : msgs.length < 2 ^ 31)
    (byte : UInt8) (hprog : InProgress msgs i m s) (hst : s.state = .read)
    (hfirst : FirstRead msgs j mj) (hj : j ≤ i) (hptr : s.msgPtr < m.len.toNat) :
    Good msgs (s.readState msgs byte) := by
  simp only [Nuc970I2c.readState, hprog.deref, hprog.msg, if_pos hptr]
  exact good_prepareRead hsafe hn
    ⟨hprog.msg, hprog.msgIdx, hprog.msgNum, hprog.get, hprog.fault⟩ hst hfirst hj hptr

theorem good_nextbyte (hsafe : SafeReads msgs) (hn : msgs.length < 2 ^ 31) (noAck : Bool)
    (rxr : UInt8) (h : Good msgs s) : Good msgs (s.nextbyte msgs noAck rxr) := by
  cases h with
  | ended hfault hst =>
    rcases hst with hst | hst
    · -- from STOP the engine goes to IDLE, where it stays
      simp only [Nuc970I2c.nextbyte, hst]
      exact .ended hfault (.inr rfl)
    · simp only [Nuc970I2c.nextbyte, hst]
      exact .ended hfault (.inr hst)
  | busy i m hprog hphase =>
    unfold Nuc970I2c.nextbyte
    generalize hst : s.state = st, hptr : s.msgPtr = ptr at hphase
    cases hphase with
    | start hwrites => exact good_startState hsafe hn noAck hprog hptr hwrites
    | write _ hwrites => exact good_writeState hsafe hn noAck hprog hst hwrites
    | read _ j mj hfirst hj hlt =>
      exact good_readState hsafe hn rxr hprog hst hfirst hj (hptr ▸ hlt)

theorem good_irq (hsafe : SafeReads msgs) (hn : msgs.length < 2 ^ 31) (irq : Irq)
    (h : Good msgs s) : Good msgs (nuc970I2cIrq msgs s irq) := by
  -- the two flags matter to no phase
  have hkept : ∀ lost, Good msgs { s with pending := false, arblost := lost } := by
    intro lost
    cases h with
    | ended hfault hst => exact .ended hfault hst
    | busy i m hprog hphase =>
      exact .busy i m ⟨hprog.msg, hprog.msgIdx, hprog.msgNum, hprog.get, hprog.fault⟩ hphase
  unfold nuc970I2cIrq
  dsimp only
  split
  · exact hkept true
  · split
    · exact hkept s.arblost
    · exact good_nextbyte hsafe hn irq.noAck irq.rxr (hkept s.arblost)

end Progress

theorem good_doxfer (x : Messages) (buf : ℕ → ℕ → UInt8) :
    Good x.list (nuc970I2c0Doxfer x buf) :=
  .busy 0 x.first ⟨rfl, rfl, rfl, rfl, rfl⟩ (.start fun k hk => absurd hk (Nat.not_lt_zero k))

/-- Whatever state it is in, a stopped engine does not start again. -/
theorem stopped_irq (msgs : List I2cMsg) (s : Nuc970I2c) (irq : Irq)
    (hst : s.state = .stop ∨ s.state = .idle) :
    (nuc970I2cIrq msgs s irq).bus = s.bus ∧
      ((nuc970I2cIrq msgs s irq).state = s.state ∨ (nuc970I2cIrq msgs s irq).state = .idle) := by
  unfold nuc970I2cIrq
  rcases hst with hst | hst
  · cases irq.arbitLost <;> simp [Nuc970I2c.nextbyte, hst]
  · cases irq.arbitLost <;> simp [hst]

theorem disciplined_iff_fault {msgs : List I2cMsg} {s s' : Nuc970I2c} {irq : Irq}
    (hstep : irqStep msgs s irq = some s') : Disciplined s irq s' ↔ s'.fault = none := by
  refine ⟨fun h => h.fault, fun h => ⟨h, ?_, ?_⟩⟩
  all_goals
    intro hst
    unfold irqStep at hstep
    split at hstep
    · obtain rfl := Option.some.inj hstep
      have hstopped := stopped_irq msgs s irq (by simp [hst])
      simpa [hst, and_comm] using hstopped
    · cases hstep

theorem disciplined_of_safeReads (x : Messages) (buf : ℕ → ℕ → UInt8) (hsafe : SafeReads x.list)
    (irqs : List Irq) :
    Along (irqStep x.list) Disciplined (nuc970I2c0Doxfer x buf) irqs := by
  have hgood : ∀ s irq s', Good x.list s → irqStep x.list s irq = some s' → Good x.list s' := by
    intro s irq s' h hstep
    rw [irqStep, if_pos h.fault] at hstep
    exact Option.some.inj hstep ▸ good_irq hsafe x.list_length_lt irq h
  refine along_of_inv (I := Good x.list) (fun s irq s' h hstep => ?_) irqs (good_doxfer x buf)
  exact ⟨hgood s irq s' h hstep,
    (disciplined_iff_fault hstep).mpr (hgood s irq s' h hstep).fault⟩

/-! ## Unsafe messages lead to a fault

The run in which every byte is acknowledged meets every fault there is. It first passes the messages
before the first read, and then reads all messages after it.
-/

/-- An interrupt without errors -/
def quiet : Irq := ⟨false, false, 0⟩

section Necessity

variable {msgs : List I2cMsg} {s₀ : Nuc970I2c} {i j k : ℕ} {m mj : I2cMsg}
  {buf : ℕ → ℕ → UInt8} {bus : List Cmd} {p : Bool}

theorem irqStep_start :
    irqStep msgs (engine .start msgs.length i k buf bus p) quiet =
      some ((engine .start msgs.length i k buf bus false).startState msgs false) := rfl

theorem irqStep_write :
    irqStep msgs (engine .write msgs.length i k buf bus p) quiet =
      some ((engine .write msgs.length i k buf bus false).writeState msgs false) := rfl

theorem irqStep_read :
    irqStep msgs (engine .read msgs.length i k buf bus p) quiet =
      some ((engine .read msgs.length i k buf bus false).readState msgs 0) := rfl

/-- The engine on its way to message `j`, the first one that reads -/
inductive Ahead (msgs : List I2cMsg) (j : ℕ) (mj : I2cMsg) : Nuc970I2c → ℕ → Prop
  | write (i k : ℕ) (m : I2cMsg) (buf : ℕ → ℕ → UInt8) (bus : List Cmd) (p : Bool)
      (hm : msgs[i]? = some m) (hi : i < j) (hk : k ≤ m.len.toNat) :
      Ahead msgs j mj (engine .write msgs.length i k buf bus p) (i * (2 ^ 16 + 1) + k)
  | start (i : ℕ) (buf : ℕ → ℕ → UInt8) (bus : List Cmd) (p : Bool) (hi : i ≤ j)
      (hstart : i = j → 0 < j → mj.nostart = false) :
      Ahead msgs j mj (engine .start msgs.length i 0 buf bus p) (i * (2 ^ 16 + 1))

theorem retryWrite_ahead (hn : msgs.length < 2 ^ 31) (hfirst : FirstRead msgs j mj) (rounds : ℕ)
    (hrounds : j + 1 ≤ i + rounds) (hm : msgs[i]? = some m) (hi : i < j) (hk : k ≤ m.len.toNat) :
    let s' := Nuc970I2c.retryWrite msgs rounds (engine .write msgs.length i k buf bus p)
    s'.fault ≠ none ∨ ∃ pos, i * (2 ^ 16 + 1) + k < pos ∧ Ahead msgs j mj s' pos := by
  intro s'
  have hlen : m.len.toNat < 2 ^ 16 := m.len.toNat_lt
  induction rounds generalizing i k m buf bus p with
  | zero => omega
  | succ rounds ih =>
    rcases Nat.lt_or_ge k m.len.toNat with hlt | hge
    case inl =>
      refine .inr ⟨i * (2 ^ 16 + 1) + (k + 1), by omega, ?_⟩
      -- a byte of message `i` is sent
      rw [show s' = _ from retryWrite_engine_byte rounds hm hlt]
      exact .write i (k + 1) m _ _ _ hm hi hlt
    case inr =>
      obtain ⟨m', hm'⟩ : ∃ m', msgs[i + 1]? = some m' :=
        ⟨_, List.getElem?_eq_getElem (by have := lt_of_get hfirst.get; omega)⟩
      have hwrites : i + 1 < j → m'.rd = false := fun hlt => hfirst.writes (i + 1) hlt m' hm'
      have hlast : i + 1 = j → m' = mj := by
        rintro rfl
        exact Option.some.inj (hm'.symm.trans hfirst.get)
      -- message `i` is complete
      rw [show s' = _ from retryWrite_engine_next rounds hn hm hm' hge]
      cases hstart : m'.nostart with
      | false =>
        refine .inr ⟨(i + 1) * (2 ^ 16 + 1), by omega, .start (i + 1) _ _ _ hi fun hij _ => ?_⟩
        exact hlast hij ▸ hstart
      | true =>
        rcases Nat.lt_or_eq_of_le (Nat.succ_le_of_lt hi) with hlt | heq
        · simp only [hwrites hlt, Bool.false_eq_true, if_false, if_true]
          refine (ih (by omega) hm' hlt (Nat.zero_le _) m'.len.toNat_lt).imp id ?_
          rintro ⟨pos, hpos, hahead⟩
          rw [Nat.add_zero] at hpos
          exact ⟨pos, by omega, hahead⟩
        · -- after the stop there is no message any more
          obtain ⟨r, rfl⟩ : ∃ r, rounds = r + 1 := ⟨rounds - 1, by omega⟩
          obtain rfl := hlast heq
          rw [if_pos rfl, hfirst.rd, if_pos rfl]
          exact .inl (by simp [Nuc970I2c.retryWrite, Nuc970I2c.deref, Nuc970I2c.sendStop,
            Nuc970I2c.masterComplete, Nuc970I2c.failed])

theorem Ahead.step (hn : msgs.length < 2 ^ 31) (hfirst : FirstRead msgs j mj) {s : Nuc970I2c}
    {pos : ℕ} (h : Ahead msgs j mj s pos) (hbefore : s.msgIdx < j) :
    ∃ s', irqStep msgs s quiet = some s' ∧
      (s'.fault ≠ none ∨ ∃ pos', pos < pos' ∧ Ahead msgs j mj s' pos') := by
  have hj := lt_of_get hfirst.get
  cases h with
  | write i k m buf bus p hm hi hk =>
    refine ⟨_, irqStep_write, ?_⟩
    rw [writeState_engine hm]
    exact retryWrite_ahead hn hfirst _ (by omega) hm hi hk
  | start i buf bus p hi hstart =>
    have hij : i < j := hbefore
    obtain ⟨m, hm⟩ : ∃ m, msgs[i]? = some m := ⟨_, List.getElem?_eq_getElem (by omega)⟩
    refine ⟨_, irqStep_start, ?_⟩
    rw [startState_engine hn hm (.inr (by omega)), hfirst.writes i hij m hm]
    simp only [Bool.false_eq_true, if_false]
    rw [writeState_engine hm]
    simpa only [Nat.add_zero] using
      retryWrite_ahead hn hfirst _ (by omega) hm hij (Nat.zero_le m.len.toNat)

theorem reaches_first_read (hn : msgs.length < 2 ^ 31) (hfirst : FirstRead msgs j mj)
    (hclean : ∀ t, Reaches (irqStep msgs) s₀ t → t.fault = none) (d : ℕ) {s : Nuc970I2c} {pos : ℕ}
    (hd : j * (2 ^ 16 + 1) ≤ pos + d) (hs : Reaches (irqStep msgs) s₀ s)
    (h : Ahead msgs j mj s pos) :
    (0 < j → mj.nostart = false) ∧
      ∃ buf bus p, Reaches (irqStep msgs) s₀ (engine .start msgs.length j 0 buf bus p) := by
  induction d generalizing s pos with
  | zero =>
    cases h with
    | write i k m buf bus p hm hi hk =>
      have hlen : m.len.toNat < 2 ^ 16 := m.len.toNat_lt
      -- the position is still before message `j`
      omega
    | start i buf bus p hi hstart =>
      obtain rfl : i = j := by omega
      exact ⟨hstart rfl, buf, bus, p, hs⟩
  | succ d ih =>
    by_cases hbefore : s.msgIdx < j
    case pos =>
      obtain ⟨s', hstep, hfault | ⟨pos', hpos, h'⟩⟩ := h.step hn hfirst hbefore
      · -- the run has no faults
        exact absurd (hclean s' (hs.trans (.single hstep))) hfault
      · exact ih (by omega) (hs.trans (.single hstep)) h'
    case neg =>
      cases h with
      | write i k m buf bus p hm hi hk => exact absurd hi hbefore
      | start i buf bus p hi hstart =>
        obtain rfl : i = j := Nat.le_antisymm hi (Nat.not_lt.mp hbefore)
        exact ⟨hstart rfl, buf, bus, p, hs⟩

theorem not_fault_of_read (hm : msgs[i]? = some m)
    (hfault : ((engine .read msgs.length i k buf bus p).readState msgs 0).fault = none) :
    k < m.len.toNat := by
  by_contra hk
  simp only [Nuc970I2c.readState, (engine_inProgress hm).deref] at hfault
  rw [show (engine .read msgs.length i k buf bus p).msg = some i from rfl] at hfault
  simp [engine, hk, Nuc970I2c.failed] at hfault

theorem prepareRead_within (hn : msgs.length < 2 ^ 31) (hm : msgs[i]? = some m)
    (hk : k < m.len.toNat) :
    ∃ bus' p', (engine .read msgs.length i k buf bus p).prepareRead msgs =
      engine .read msgs.length i k buf bus' p' := by
  by_cases hmore : k + 1 < m.len.toNat ∨ i + 1 = msgs.length
  case pos => exact ⟨_, _, prepareRead_byte hn hm hk hmore⟩
  case neg =>
    have hi := lt_of_get hm
    exact ⟨_, _, prepareRead_stall hn (by omega) hm (by omega)⟩

theorem reaches_next_read (hn : msgs.length < 2 ^ 31) (hi : i + 1 < msgs.length)
    (hm : msgs[i]? = some m) (d : ℕ) (hd : k + d = m.len.toNat)
    (hs : Reaches (irqStep msgs) s₀
      ((engine .read msgs.length i k buf bus p).prepareRead msgs)) :
    ∃ buf' bus' p', Reaches (irqStep msgs) s₀
      (engine .read msgs.length (i + 1) 0 buf' bus' p') := by
  induction d generalizing k buf bus p with
  | zero =>
    -- the message is complete, and the next one is entered
    rw [prepareRead_end hn hm ((Nat.add_zero k).symm.trans hd), if_neg (Nat.ne_of_lt hi)] at hs
    exact ⟨_, _, _, hs⟩
  | succ d ih =>
    obtain ⟨bus', p', heq⟩ := prepareRead_within hn hm (by omega : k < m.len.toNat)
    rw [heq] at hs
    have hread := hs.trans (.single irqStep_read)
    rw [readState_engine 0 hm (by omega)] at hread
    exact ih (by omega) hread

theorem reaches_later_read (hn : msgs.length < 2 ^ 31) (hfirst : FirstRead msgs j mj)
    (hclean : ∀ t, Reaches (irqStep msgs) s₀ t → t.fault = none)
    (hs : Reaches (irqStep msgs) s₀ (engine .start msgs.length j 0 buf bus p)) (d : ℕ)
    (hd : j + 1 + d < msgs.length) :
    ∃ buf' bus' p', Reaches (irqStep msgs) s₀
      (engine .read msgs.length (j + 1 + d) 0 buf' bus' p') := by
  induction d with
  | zero =>
    -- the START of the first read
    have hread := hs.trans (.single irqStep_start)
    rw [startState_engine hn hfirst.get (.inr hd), hfirst.rd, if_pos rfl] at hread
    exact reaches_next_read hn hd hfirst.get mj.len.toNat (Nat.zero_add _) hread
  | succ d ih =>
    obtain ⟨buf', bus', p', hs'⟩ := ih (by omega)
    obtain ⟨m, hm⟩ : ∃ m, msgs[j + 1 + d]? = some m := ⟨_, List.getElem?_eq_getElem (by omega)⟩
    have hread := hs'.trans (.single irqStep_read)
    -- the byte that is stored fits, so the message is not empty
    have hlen := not_fault_of_read hm (hclean _ hread)
    rw [readState_engine 0 hm hlen] at hread
    exact reaches_next_read hn (by omega) hm (m.len.toNat - 1) (by omega) hread

end Necessity

/-- **When the engine is disciplined**: for all interrupts it is, exactly if the first message that
    reads begins with a START and no message after it is empty. -/
theorem disciplined_iff_safeReads (x : Messages) (buf : ℕ → ℕ → UInt8) :
    (∀ irqs, Along (irqStep x.list) Disciplined (nuc970I2c0Doxfer x buf) irqs) ↔
      SafeReads x.list := by
  refine ⟨fun h => ?_, fun hsafe irqs => disciplined_of_safeReads x buf hsafe irqs⟩
  have hn := x.list_length_lt
  have hclean : ∀ t, Reaches (irqStep x.list) (nuc970I2c0Doxfer x buf) t → t.fault = none := by
    rintro t ⟨irqs, hrun⟩
    exact inv_of_along (I := fun s => s.fault = none) (C := Disciplined)
      (fun _ _ _ _ _ hstep => hstep.fault) rfl (h irqs) hrun
  intro j mj hfirst
  -- the run in which every byte is acknowledged
  obtain ⟨hstart, buf', bus', p', hs⟩ := reaches_first_read hn hfirst hclean (j * (2 ^ 16 + 1))
    (by omega) (.refl _) (.start 0 buf [.start x.first.address] true (Nat.zero_le j)
      fun hj hpos => absurd hj (Nat.ne_of_lt hpos))
  refine ⟨hstart, fun k hk m hm => ?_⟩
  obtain ⟨d, rfl⟩ : ∃ d, k = j + 1 + d := ⟨k - (j + 1), by omega⟩
  obtain ⟨_, _, _, hread⟩ := reaches_later_read hn hfirst hclean hs d (lt_of_get hm)
  exact not_fault_of_read hm (hclean _ (hread.trans (.single irqStep_read)))

def writeThenReadNostart : Messages :=
  ⟨⟨0x50, false, false, false, 1⟩, [⟨0x50, true, true, false, 1⟩], by decide⟩

def readThenReadEmpty : Messages :=
  ⟨⟨0x50, true, false, false, 1⟩, [⟨0x50, true, false, false, 0⟩], by decide⟩

/-- In the first transfer `i2c->msg` is used after `nuc970_i2c0_stop`, in the second one a byte is
    stored beyond the end of a message. -/
theorem undisciplined_runs :
    ¬ Along (irqStep writeThenReadNostart.list) Disciplined
        (nuc970I2c0Doxfer writeThenReadNostart fun _ _ => 7) [quiet, quiet] ∧
      ¬ Along (irqStep readThenReadEmpty.list) Disciplined
        (nuc970I2c0Doxfer readThenReadEmpty fun _ _ => 7) [quiet, quiet, quiet] := by
  decide

end NucKernel.I2c
