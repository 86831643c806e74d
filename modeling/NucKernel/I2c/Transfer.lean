import NucKernel.I2c.Engine

/-!
# Whole I2C transfers with a slave that acknowledges

The engine is driven by one interrupt per command: `ackStep` delivers the interrupt of the command
on the bus, and there is no step when no command is outstanding. `Completed` states what a finished
transfer looks like on the bus and in the buffers.

Messages that write are handled one after the other up to the last message. A message that reads
completes when it is the last one; otherwise its last byte is never requested, and the engine stops
without a command on the bus.

## Modelling

- `slave k` is the byte the slave puts on the bus for the `k`-th read command of the transfer
-/

namespace NucKernel.I2c

open NucKernel.Library

/-! ## What a transfer should do -/

def Cmd.isRead : Cmd → Bool
  | .read _ => true
  | _ => false

def readCount (cmds : List Cmd) : ℕ := cmds.countP Cmd.isRead

@[simp] theorem readCount_append (a b : List Cmd) :
    readCount (a ++ b) = readCount a + readCount b := List.countP_append

/-- The commands that move the bytes of a message; the last byte of a read is not acknowledged. -/
def dataCmds (m : I2cMsg) (bytes : ℕ → UInt8) : List Cmd :=
  (List.range m.len.toNat).map fun k =>
    if m.rd then .read (k + 1 = m.len.toNat) else .write (bytes k)

def msgCmds (msgs : List I2cMsg) (buf : ℕ → ℕ → UInt8) (i : ℕ) : List Cmd :=
  match msgs[i]? with
  | some m => .start m.address :: dataCmds m (buf i)
  | none => []

def cmdsBefore (msgs : List I2cMsg) (buf : ℕ → ℕ → UInt8) (i : ℕ) : List Cmd :=
  (List.range i).flatMap (msgCmds msgs buf)

/-- The transfer is finished: every message has been sent or read completely and in order, with one
    START for each and a STOP at the end, and the bytes of the slave are in the buffers. -/
structure Completed (x : Messages) (buf : ℕ → ℕ → UInt8) (slave : ℕ → UInt8) (s : Nuc970I2c) :
    Prop where
  state : s.state = .stop
  msgIdx : s.msgIdx = x.list.length
  bus : s.bus = cmdsBefore x.list buf x.list.length ++ [.stop]
  received : ∀ i m, x.list[i]? = some m → m.rd = true →
    ∀ k < m.len.toNat, s.buf i k = slave (readCount (cmdsBefore x.list buf i) + k)

/-- The interrupt of the command on the bus, acknowledged by the slave. -/
def ackStep (msgs : List I2cMsg) (slave : ℕ → UInt8) (s : Nuc970I2c) (_ : Unit) :
    Option Nuc970I2c :=
  if s.pending then
    some (nuc970I2cIrq msgs s ⟨false, false, slave (readCount s.bus - 1)⟩)
  else none

def Completes (x : Messages) (buf : ℕ → ℕ → UInt8) (slave : ℕ → UInt8) : Prop :=
  ∃ s, Reaches (ackStep x.list slave) (nuc970I2c0Doxfer x buf) s ∧ Completed x buf slave s

/-! ## The states of a transfer -/

/-- The engine at byte `j` of message `i` of `n` messages. -/
def engine (st : I2cState) (n i j : ℕ) (buf : ℕ → ℕ → UInt8) (bus : List Cmd) (pending : Bool) :
    Nuc970I2c :=
  { msg := some i, msgNum := n, msgIdx := i, msgPtr := j, arblost := false, state := st, buf := buf,
    bus := bus, pending := pending, fault := none }

def stopped (n : ℕ) (buf : ℕ → ℕ → UInt8) (bus : List Cmd) : Nuc970I2c :=
  { msg := none, msgNum := 0, msgIdx := n, msgPtr := 0, arblost := false, state := .stop,
    buf := buf, bus := bus ++ [.stop], pending := true, fault := none }

/-- A message with no flag but `I2C_M_RD`, and at least one byte. -/
def I2cMsg.Plain (m : I2cMsg) : Prop := 0 < m.len.toNat ∧ m.nostart = false ∧ m.ignoreNak = false

instance (m : I2cMsg) : Decidable m.Plain := by unfold I2cMsg.Plain; infer_instance

section Engine

variable {st : I2cState} {i j : ℕ} {buf : ℕ → ℕ → UInt8} {bus : List Cmd} {p : Bool}
  {msgs : List I2cMsg} {m : I2cMsg}

theorem engine_inProgress (hm : msgs[i]? = some m) :
    InProgress msgs i m (engine st msgs.length i j buf bus p) := ⟨rfl, rfl, rfl, hm, rfl⟩

theorem nextMsg_engine {n : ℕ} (hi : i < n) (hn : n < 2 ^ 31) :
    (engine st n i j buf bus p).nextMsg = engine st n (i + 1) 0 buf bus p := by
  have hmod : (i + 1) % 2 ^ 32 = i + 1 := Nat.mod_eq_of_lt (by omega)
  have hnext : (engine st n i j buf bus p).nextMsg =
      { engine st n (i + 1) 0 buf bus p with msgIdx := (i + 1) % 2 ^ 32 } := rfl
  rw [hnext, hmod]
  rfl

theorem sendStop_engine {n : ℕ} (hlast : i + 1 = n) (hn : n < 2 ^ 31) :
    (engine st n i j buf bus p).sendStop 0 = stopped n buf bus := by
  have hmod : (i + 1) % 2 ^ 32 = n := by rw [hlast]; exact Nat.mod_eq_of_lt (by omega)
  have hstop : (engine st n i j buf bus p).sendStop 0 =
      { stopped n buf bus with msgIdx := (i + 1) % 2 ^ 32 } := rfl
  rw [hstop, hmod]
  rfl

/-! ## One interrupt -/

theorem ackStep_engine {n : ℕ} (slave : ℕ → UInt8) (hst : st ≠ .idle) :
    ackStep msgs slave (engine st n i j buf bus true) () =
      some ((engine st n i j buf bus false).nextbyte msgs false (slave (readCount bus - 1))) := by
  simp [ackStep, nuc970I2cIrq, engine, hst]

theorem retryWrite_engine_byte (rounds : ℕ) (hm : msgs[i]? = some m) (hj : j < m.len.toNat) :
    Nuc970I2c.retryWrite msgs (rounds + 1) (engine st msgs.length i j buf bus p) =
      engine st msgs.length i (j + 1) buf (bus ++ [.write (buf i j)]) true :=
  Nuc970I2c.retryWrite_byte rounds (engine_inProgress hm).deref rfl
    (decide_eq_false (Nat.not_le.mpr hj))

theorem retryWrite_engine_next {m' : I2cMsg} (rounds : ℕ) (hn : msgs.length < 2 ^ 31)
    (hm : msgs[i]? = some m) (hm' : msgs[i + 1]? = some m') (hj : m.len.toNat ≤ j) :
    Nuc970I2c.retryWrite msgs (rounds + 1) (engine st msgs.length i j buf bus p) =
      if m'.nostart then
        Nuc970I2c.retryWrite msgs rounds
          (if m'.rd then (engine st msgs.length (i + 1) 0 buf bus p).sendStop (-einval)
          else engine st msgs.length (i + 1) 0 buf bus p)
      else engine .start msgs.length (i + 1) 0 buf (bus ++ [.start m'.address]) true := by
  have hi := lt_of_get hm'
  have hprog : InProgress msgs i m (engine st msgs.length i j buf bus p) := engine_inProgress hm
  rw [Nuc970I2c.retryWrite_next rounds hprog.deref (decide_eq_true hj)
    ((hprog.isLastmsg hn).trans (decide_eq_false (by omega))) (hprog.nextMsg hn hm').deref,
    nextMsg_engine (by omega) hn]
  rfl

theorem retryWrite_engine_last (rounds : ℕ) (hn : msgs.length < 2 ^ 31)
    (hlast : i + 1 = msgs.length) (hm : msgs[i]? = some m) (hj : m.len.toNat ≤ j) :
    Nuc970I2c.retryWrite msgs (rounds + 1) (engine st msgs.length i j buf bus p) =
      stopped msgs.length buf bus := by
  have hprog : InProgress msgs i m (engine st msgs.length i j buf bus p) := engine_inProgress hm
  rw [Nuc970I2c.retryWrite_last rounds hprog.deref rfl (decide_eq_true hj)
    ((hprog.isLastmsg hn).trans (decide_eq_true hlast)), sendStop_engine hlast hn]

theorem writeState_engine (hm : msgs[i]? = some m) :
    (engine st msgs.length i j buf bus p).writeState msgs false =
      Nuc970I2c.retryWrite msgs (msgs.length - 1 + 1) (engine st msgs.length i j buf bus p) := by
  have hi := lt_of_get hm
  rw [Nat.sub_add_cancel (by omega)]
  simp only [Nuc970I2c.writeState, (engine_inProgress hm).deref]
  simp [engine]

theorem writeState_byte (hm : msgs[i]? = some m) (hj : j < m.len.toNat) :
    (engine st msgs.length i j buf bus p).writeState msgs false =
      engine st msgs.length i (j + 1) buf (bus ++ [.write (buf i j)]) true := by
  rw [writeState_engine hm, retryWrite_engine_byte _ hm hj]

theorem writeState_next {m' : I2cMsg} (hn : msgs.length < 2 ^ 31) (hm : msgs[i]? = some m)
    (hm' : msgs[i + 1]? = some m') (hstart : m'.nostart = false) (hj : m.len.toNat ≤ j) :
    (engine st msgs.length i j buf bus p).writeState msgs false =
      engine .start msgs.length (i + 1) 0 buf (bus ++ [.start m'.address]) true := by
  rw [writeState_engine hm, retryWrite_engine_next _ hn hm hm' hj, hstart]
  rfl

theorem writeState_last (hn : msgs.length < 2 ^ 31) (hlast : i + 1 = msgs.length)
    (hm : msgs[i]? = some m) (hj : m.len.toNat ≤ j) :
    (engine st msgs.length i j buf bus p).writeState msgs false = stopped msgs.length buf bus := by
  rw [writeState_engine hm, retryWrite_engine_last _ hn hlast hm hj]

theorem startState_engine (hn : msgs.length < 2 ^ 31) (hm : msgs[i]? = some m)
    (hmore : 0 < m.len.toNat ∨ i + 1 < msgs.length) :
    (engine .start msgs.length i j buf bus p).startState msgs false =
      if m.rd then (engine .read msgs.length i j buf bus p).prepareRead msgs
      else (engine .write msgs.length i j buf bus p).writeState msgs false := by
  have hbusy : ¬ ((engine (if m.rd then .read else .write) msgs.length i j buf bus p).isLastmsg ∧
      m.len = 0) := by
    -- the test for an empty last message fails
    rintro ⟨hlast, hzero⟩
    rw [(engine_inProgress hm).isLastmsg hn, decide_eq_true_iff] at hlast
    rw [hzero] at hmore
    exact absurd hmore (by simp [hlast])
  simp only [Nuc970I2c.startState, (engine_inProgress hm).deref]
  refine (if_neg (by simp)).trans ((if_neg hbusy).trans ?_)
  cases m.rd <;> rfl

theorem prepareRead_byte (hn : msgs.length < 2 ^ 31) (hm : msgs[i]? = some m)
    (hj : j < m.len.toNat) (hmore : j + 1 < m.len.toNat ∨ i + 1 = msgs.length) :
    (engine st msgs.length i j buf bus p).prepareRead msgs =
      engine st msgs.length i j buf (bus ++ [.read (j + 1 = m.len.toNat)]) true := by
  rw [Nuc970I2c.prepareRead_eq (engine_inProgress hm) hn (Nat.le_of_lt hj)]
  change (if j + 1 = _ then _ else if j = _ then _ else _) = _
  by_cases hlast : j + 1 = m.len.toNat
  case pos =>
    -- the last byte is not acknowledged
    rw [if_pos hlast, if_pos (by omega), decide_eq_true hlast]
    rfl
  case neg =>
    rw [if_neg hlast, if_neg (Nat.ne_of_lt hj), decide_eq_false hlast]
    rfl

theorem prepareRead_stall (hn : msgs.length < 2 ^ 31) (hi : i + 1 < msgs.length)
    (hm : msgs[i]? = some m) (hj : j + 1 = m.len.toNat) :
    (engine st msgs.length i j buf bus p).prepareRead msgs =
      engine st msgs.length i j buf bus p := by
  rw [Nuc970I2c.prepareRead_eq (engine_inProgress hm) hn (by rw [← hj]; exact Nat.le_succ j)]
  exact (if_pos hj).trans (if_neg (Nat.ne_of_lt hi))

theorem prepareRead_end (hn : msgs.length < 2 ^ 31) (hm : msgs[i]? = some m)
    (hj : j = m.len.toNat) :
    (engine st msgs.length i j buf bus p).prepareRead msgs =
      if i + 1 = msgs.length then stopped msgs.length buf bus
      else engine st msgs.length (i + 1) 0 buf (bus ++ [.read false]) true := by
  rw [Nuc970I2c.prepareRead_eq (engine_inProgress hm) hn (Nat.le_of_eq hj),
    nextMsg_engine (lt_of_get hm) hn]
  refine (if_neg (by rw [← hj]; exact Nat.succ_ne_self j)).trans ((if_pos hj).trans ?_)
  split
  case isTrue hlast => rw [sendStop_engine hlast hn]
  case isFalse => rfl

/-- The buffers when `k` bytes have been stored in that of message `i`, beginning with byte `base`
    of the slave -/
def filled (buf : ℕ → ℕ → UInt8) (slave : ℕ → UInt8) (base i k : ℕ) : ℕ → ℕ → UInt8 :=
  Function.update buf i fun t => if t < k then slave (base + t) else buf i t

theorem filled_zero (slave : ℕ → UInt8) (base : ℕ) : filled buf slave base i 0 = buf := by
  simp [filled]

theorem filled_succ (slave : ℕ → UInt8) (base : ℕ) :
    Function.update (filled buf slave base i j) i
      (Function.update (filled buf slave base i j i) j (slave (base + j))) =
      filled buf slave base i (j + 1) := by
  simp only [filled, Function.update_idem, Function.update_self]
  congr 1
  funext t
  rcases Nat.lt_trichotomy t j with ht | rfl | ht
  · simp [ht, show t ≠ j by omega, show t < j + 1 by omega]
  · simp
  · simp [show t ≠ j by omega, show ¬ t < j by omega, show ¬ t < j + 1 by omega]

theorem readState_engine (byte : UInt8) (hm : msgs[i]? = some m) (hj : j < m.len.toNat) :
    (engine st msgs.length i j buf bus p).readState msgs byte =
      (engine st msgs.length i (j + 1) (Function.update buf i (Function.update (buf i) j byte)) bus
        p).prepareRead msgs := by
  simp only [Nuc970I2c.readState, (engine_inProgress hm).deref]
  exact if_pos hj

/-! ## One message -/

section Message

variable (slave : ℕ → UInt8) (buf : ℕ → ℕ → UInt8) (bus : List Cmd)

theorem reaches_written (hn : msgs.length < 2 ^ 31) (hm : msgs[i]? = some m) (hplain : m.Plain)
    (hrd : m.rd = false) :
    Reaches (ackStep msgs slave) (engine .start msgs.length i 0 buf bus true)
      (engine .write msgs.length i m.len.toNat buf (bus ++ dataCmds m (buf i)) true) := by
  let written (k : ℕ) : Nuc970I2c :=
    engine .write msgs.length i k buf (bus ++ (List.range k).map fun t => .write (buf i t)) true
  -- the interrupt of the START
  have hfirst : ackStep msgs slave (engine .start msgs.length i 0 buf bus true) () =
      some (written 1) := by
    rw [ackStep_engine slave (by decide)]
    refine congrArg some ((startState_engine hn hm (.inl hplain.1)).trans ?_)
    rw [hrd]
    exact writeState_byte hm hplain.1
  -- every further interrupt sends one byte
  have hround : ∀ k, 1 ≤ k → k < m.len.toNat →
      Reaches (ackStep msgs slave) (written k) (written (k + 1)) := by
    intro k _ hk
    refine .single (i := ()) ?_
    rw [ackStep_engine slave (by decide)]
    refine congrArg some ((writeState_byte hm hk).trans ?_)
    simp [written, List.range_succ]
  have hdata : dataCmds m (buf i) = (List.range m.len.toNat).map fun t => .write (buf i t) := by
    simp [dataCmds, hrd]
  rw [hdata]
  exact .head hfirst (.iterate (f := written) hplain.1 hround)

def reading (m : I2cMsg) (slave : ℕ → UInt8) (n i : ℕ) (buf : ℕ → ℕ → UInt8) (bus : List Cmd)
    (k : ℕ) : Nuc970I2c :=
  engine .read n i k (filled buf slave (readCount bus) i k)
    (bus ++ (List.range (k + 1)).map fun t => .read (t + 1 = m.len.toNat)) true

theorem ackStep_reading {k : ℕ} (hm : msgs[i]? = some m) (hk : k < m.len.toNat) :
    ackStep msgs slave (reading m slave msgs.length i buf bus k) () =
      some ((engine .read msgs.length i (k + 1) (filled buf slave (readCount bus) i (k + 1))
        (bus ++ (List.range (k + 1)).map fun t => .read (t + 1 = m.len.toNat)) false).prepareRead
          msgs) := by
  -- the byte is the one of the last read command on the bus
  have hcount : readCount (bus ++ (List.range (k + 1)).map fun t => .read (t + 1 = m.len.toNat))
      - 1 = readCount bus + k := by
    have hall :
        readCount ((List.range (k + 1)).map fun t => .read (t + 1 = m.len.toNat)) = k + 1 := by
      rw [readCount, List.countP_map]
      exact (List.countP_eq_length.mpr fun _ _ => rfl).trans List.length_range
    rw [readCount_append, hall]
    omega
  rw [reading, ackStep_engine slave (by decide), hcount, ← filled_succ]
  exact congrArg some (readState_engine _ hm hk)

theorem reaches_reading {k : ℕ} (hn : msgs.length < 2 ^ 31) (hm : msgs[i]? = some m)
    (hplain : m.Plain) (hrd : m.rd = true) (hk : k < m.len.toNat)
    (hmore : k + 1 < m.len.toNat ∨ i + 1 = msgs.length) :
    Reaches (ackStep msgs slave) (engine .start msgs.length i 0 buf bus true)
      (reading m slave msgs.length i buf bus k) := by
  -- the interrupt of the START asks for the first byte
  have hfirst : ackStep msgs slave (engine .start msgs.length i 0 buf bus true) () =
      some (reading m slave msgs.length i buf bus 0) := by
    rw [ackStep_engine slave (by decide)]
    refine congrArg some ((startState_engine hn hm (.inl hplain.1)).trans ?_)
    rw [hrd, if_pos rfl, prepareRead_byte hn hm hplain.1 (by omega), reading, filled_zero]
    rfl
  -- every further interrupt stores a byte and asks for the next one
  have hround : ∀ t, 0 ≤ t → t < k → Reaches (ackStep msgs slave)
      (reading m slave msgs.length i buf bus t)
      (reading m slave msgs.length i buf bus (t + 1)) := by
    intro t _ ht
    refine .single (i := ()) ?_
    rw [ackStep_reading slave buf bus hm (by omega),
      prepareRead_byte hn hm (by omega : t + 1 < m.len.toNat) (by omega), reading]
    simp [List.range_succ (n := t + 1)]
  exact .head hfirst (.iterate (f := reading m slave msgs.length i buf bus) (Nat.zero_le k) hround)

theorem reaches_read (hn : msgs.length < 2 ^ 31) (hlast : i + 1 = msgs.length)
    (hm : msgs[i]? = some m) (hplain : m.Plain) (hrd : m.rd = true) :
    Reaches (ackStep msgs slave) (engine .start msgs.length i 0 buf bus true)
      (stopped msgs.length (filled buf slave (readCount bus) i m.len.toNat)
        (bus ++ dataCmds m (buf i))) := by
  obtain ⟨k, hk⟩ : ∃ k, k + 1 = m.len.toNat := ⟨m.len.toNat - 1, by have := hplain.1; omega⟩
  refine (reaches_reading slave buf bus hn hm hplain hrd (by omega : k < m.len.toNat)
    (.inr hlast)).trans (.single (i := ()) ?_)
  rw [ackStep_reading slave buf bus hm (by omega), prepareRead_end hn hm hk, if_pos hlast, hk]
  simp [dataCmds, hrd]

theorem reaches_stall (hn : msgs.length < 2 ^ 31) (hi : i + 1 < msgs.length)
    (hm : msgs[i]? = some m) (hplain : m.Plain) (hrd : m.rd = true) :
    ∃ buf' bus', Reaches (ackStep msgs slave) (engine .start msgs.length i 0 buf bus true)
      (engine .read msgs.length i (m.len.toNat - 1) buf' bus' false) := by
  obtain ⟨k, hk⟩ : ∃ k, k + 1 = m.len.toNat := ⟨m.len.toNat - 1, by have := hplain.1; omega⟩
  rw [← hk, Nat.add_sub_cancel]
  cases k with
  | zero =>
    -- the message has one byte, which is not asked for
    refine ⟨buf, bus, .single (i := ()) ?_⟩
    rw [ackStep_engine slave (by decide)]
    refine congrArg some ((startState_engine hn hm (.inl hplain.1)).trans ?_)
    rw [hrd, if_pos rfl, prepareRead_stall hn hi hm hk]
  | succ k =>
    -- all bytes but the last one are read
    have hreading := reaches_reading slave buf bus hn hm hplain hrd (by omega : k < m.len.toNat)
      (.inl (by omega))
    refine ⟨filled buf slave (readCount bus) i (k + 1),
      bus ++ (List.range (k + 1)).map fun t => .read (t + 1 = m.len.toNat),
      hreading.trans (.single (i := ()) ?_)⟩
    rw [ackStep_reading slave buf bus hm (by omega), prepareRead_stall hn hi hm hk]

end Message

end Engine

/-! ## The whole transfer -/

section Transfer

variable {x : Messages} (slave : ℕ → UInt8) (buf : ℕ → ℕ → UInt8) {i : ℕ} {m : I2cMsg}

theorem Messages.list_length_lt (x : Messages) : x.list.length < 2 ^ 31 := x.length_lt

theorem cmdsBefore_succ {msgs : List I2cMsg} (hm : msgs[i]? = some m) :
    cmdsBefore msgs buf (i + 1) =
      cmdsBefore msgs buf i ++ [.start m.address] ++ dataCmds m (buf i) := by
  simp [cmdsBefore, List.range_succ, msgCmds, hm]

theorem reaches_start (hplain : ∀ m ∈ x.list, m.Plain) (hm : x.list[i]? = some m)
    (hwrites : ∀ k < i, ∀ m, x.list[k]? = some m → m.rd = false) :
    Reaches (ackStep x.list slave) (nuc970I2c0Doxfer x buf)
      (engine .start x.list.length i 0 buf
        (cmdsBefore x.list buf i ++ [.start m.address]) true) := by
  induction i generalizing m with
  | zero =>
    obtain rfl : x.first = m := by simpa [Messages.list] using hm
    exact .refl _
  | succ i ih =>
    have hi : i + 1 < x.list.length := (List.getElem?_eq_some_iff.mp hm).1
    obtain ⟨m₀, hm₀⟩ : ∃ m₀, x.list[i]? = some m₀ := ⟨_, List.getElem?_eq_getElem (by omega)⟩
    -- message `i` is sent completely before the next START
    have hplain₀ := hplain m₀ (List.mem_of_getElem? hm₀)
    have hsent := reaches_written slave buf (cmdsBefore x.list buf i ++ [.start m₀.address])
      x.list_length_lt hm₀ hplain₀ (hwrites i (by omega) m₀ hm₀)
    refine (ih hm₀ fun k hk => hwrites k (by omega)).trans (hsent.trans (.single (i := ()) ?_))
    rw [ackStep_engine slave (by decide), cmdsBefore_succ buf hm₀]
    exact congrArg some (writeState_next x.list_length_lt hm₀ hm
      (hplain m (List.mem_of_getElem? hm)).2.1 (Nat.le_refl _))

theorem not_completes_of_read (hplain : ∀ m ∈ x.list, m.Plain) (hi : i + 1 < x.list.length)
    (hm : x.list[i]? = some m) (hrd : m.rd = true)
    (hwrites : ∀ k < i, ∀ m, x.list[k]? = some m → m.rd = false) :
    ¬ Completes x buf slave := by
  rintro ⟨s, hs, hdone⟩
  obtain ⟨buf', bus', hstall⟩ := reaches_stall slave buf
    (cmdsBefore x.list buf i ++ [.start m.address]) x.list_length_lt hi hm
    (hplain m (List.mem_of_getElem? hm)) hrd
  -- the run is unique: either it has stalled before it was completed, or the other way round
  rcases ((reaches_start slave buf hplain hm hwrites).trans hstall).comparable hs with h | h
  · have hsame := h.inv (I := (· = engine .read _ i _ buf' bus' false))
      (by rintro s _ s' rfl hstep; simp [ackStep, engine] at hstep) rfl
    have hstop := hdone.state
    rw [hsame] at hstop
    cases hstop
  · have hover := h.inv (I := fun s => s.state = .stop ∨ s.state = .idle)
      (by
        rintro s _ s' hst hstep
        unfold ackStep at hstep
        split at hstep
        · cases hstep
          rcases hst with hst | hst <;> simp [nuc970I2cIrq, Nuc970I2c.nextbyte, hst]
        · cases hstep) (.inl hdone.state)
    simp [engine] at hover

theorem completes_of_writes (hplain : ∀ m ∈ x.list, m.Plain) (hi : i + 1 = x.list.length)
    (hm : x.list[i]? = some m) (hwrites : ∀ k < i, ∀ m, x.list[k]? = some m → m.rd = false) :
    Completes x buf slave := by
  have hstart := reaches_start slave buf hplain hm hwrites
  have hplain_m := hplain m (List.mem_of_getElem? hm)
  -- at most the last message reads
  have honly : ∀ k mk, x.list[k]? = some mk → mk.rd = true → k = i ∧ mk = m := by
    intro k mk hmk hread
    have hk : k < x.list.length := (List.getElem?_eq_some_iff.mp hmk).1
    rcases Nat.lt_or_ge k i with hlt | hge
    · rw [hwrites k hlt mk hmk] at hread
      cases hread
    · obtain rfl : k = i := by omega
      exact ⟨rfl, Option.some.inj (hmk.symm.trans hm)⟩
  cases hrd : m.rd with
  | false =>
    have hsent := reaches_written slave buf (cmdsBefore x.list buf i ++ [.start m.address])
      x.list_length_lt hm hplain_m hrd
    refine ⟨stopped x.list.length buf (cmdsBefore x.list buf i ++ [.start m.address] ++
      dataCmds m (buf i)), hstart.trans (hsent.trans (.single (i := ()) ?_)), rfl, rfl, ?_, ?_⟩
    · rw [ackStep_engine slave (by decide)]
      exact congrArg some (writeState_last x.list_length_lt hi hm (Nat.le_refl _))
    · rw [← hi, cmdsBefore_succ buf hm]
      rfl
    · intro k mk hmk hread
      obtain ⟨-, rfl⟩ := honly k mk hmk hread
      rw [hrd] at hread
      cases hread
  | true =>
    refine ⟨_, hstart.trans (reaches_read slave buf _ x.list_length_lt hi hm hplain_m hrd), rfl,
      rfl, ?_, ?_⟩
    · rw [← hi, cmdsBefore_succ buf hm]
      rfl
    · intro k mk hmk hread t ht
      obtain ⟨rfl, rfl⟩ := honly k mk hmk hread
      simp [stopped, filled, ht, readCount, Cmd.isRead]

theorem forall_mem_dropLast_iff (msgs : List I2cMsg) :
    (∀ m ∈ msgs.dropLast, m.rd = false) ↔
      ∀ k m, k + 1 < msgs.length → msgs[k]? = some m → m.rd = false := by
  simp only [List.mem_iff_getElem?, List.getElem?_dropLast, Option.ite_none_right_eq_some]
  constructor
  · intro h k m hk hm
    exact h m ⟨k, by omega, hm⟩
  · rintro h m ⟨k, hk, hm⟩
    exact h k m (by omega) hm

/-- **Which transfers are completed.** With a slave that acknowledges, and messages with no flag but
    `I2C_M_RD` and at least one byte, it is those in which no message but the last one reads. -/
theorem completes_iff_reads_only_last (x : Messages) (buf : ℕ → ℕ → UInt8) (slave : ℕ → UInt8)
    (hplain : ∀ m ∈ x.list, m.Plain) :
    Completes x buf slave ↔ ∀ m ∈ x.list.dropLast, m.rd = false := by
  rw [forall_mem_dropLast_iff]
  constructor
  · intro hdone k
    -- at the first message that reads the run would have stalled
    induction k using Nat.strong_induction_on with
    | _ k ih =>
      intro m hk hm
      by_contra hrd
      exact not_completes_of_read slave buf hplain hk hm (by simpa using hrd)
        (fun t ht m hm => ih t ht m (by omega) hm) hdone
  · intro hwrites
    have hpos : 0 < x.list.length := by simp [Messages.list]
    have hlast : x.list[x.list.length - 1]? = some x.list[x.list.length - 1] :=
      List.getElem?_eq_getElem (by omega)
    exact completes_of_writes slave buf hplain (by omega) hlast
      fun k hk m hm => hwrites k m (by omega) hm

def writeThenRead : Messages :=
  ⟨⟨0x50, false, false, false, 1⟩, [⟨0x50, true, false, false, 2⟩], by decide⟩

theorem writeThenRead_completes :
    (∀ m ∈ writeThenRead.list, m.Plain) ∧ Completes writeThenRead (fun _ _ => 7) (fun _ => 9) :=
  ⟨by decide, (completes_iff_reads_only_last writeThenRead _ _ (by decide)).mpr (by decide)⟩

def readThenWrite : Messages :=
  ⟨⟨0x50, true, false, false, 2⟩, [⟨0x50, false, false, false, 1⟩], by decide⟩

/-- After the first byte nothing is requested any more: the read is not completed, and the write
    never starts. -/
theorem readThenWrite_stalls : ¬ Completes readThenWrite (fun _ _ => 7) (fun _ => 9) :=
  not_completes_of_read _ _ (by decide) (by decide : 0 + 1 < _) rfl rfl
    (fun k hk => absurd hk (Nat.not_lt_zero k))

end Transfer

end NucKernel.I2c
