import Mathlib.Algebra.Group.Int.Defs
import Mathlib.Algebra.Group.Nat.Defs
import NucKernel.Library.Runs

/-!
# The I2C transfer engine (`i2c-nuc970-p0.c`)

`nuc970_i2c0_doxfer` puts the first START on the bus; from then on the interrupt handler moves the
transfer forward, one bus command at a time. Its switch has a fall-through and two labels: the
label `retry_write` closes a loop over messages without START, and `prepare_read` is entered from
two states.

## Modelling

- the array of messages is a list and `i2c->msg` an index into it, or `none` for `NULL`
- the bytes at `msg->buf` are a function of the message's index and the offset
- `unsigned int` fields are reduced modulo `2 ^ 32`
- `bus` records the commands written to `CMDR`, each with the byte in `TXR`
- an access to `*i2c->msg` outside a transfer, and one beyond `msg->len`, are faults and end the run
- the interrupt enable bit, the wait queue and the messages to the log are left out
-/

namespace NucKernel.I2c

open NucKernel.Library

/-! ## The controller's data -/

/-- `struct i2c_msg`, with the flags the driver looks at. -/
structure I2cMsg where
  addr : UInt16
  /-- `I2C_M_RD` -/
  rd : Bool
  /-- `I2C_M_NOSTART` -/
  nostart : Bool
  /-- `I2C_M_IGNORE_NAK` -/
  ignoreNak : Bool
  len : UInt16
  deriving DecidableEq, Repr

/-- `enum nuc970_i2c_state` -/
inductive I2cState where
  | idle
  | start
  | read
  | write
  | stop
  deriving DecidableEq, Repr

/-- A command written to `CMDR`. -/
inductive Cmd where
  | start (addr : UInt8)
  | write (byte : UInt8)
  | read (nack : Bool)
  | stop
  deriving DecidableEq, Repr

/-- An access that goes wrong: `i2c->msg` is used outside a transfer, or `msg_ptr` is beyond the end
    of the message. -/
inductive Fault where
  | noMessage
  | pastEnd
  deriving DecidableEq, Repr

/-- `struct nuc970_i2c`. `pending` tells that a command has been written whose interrupt has not
    come yet. -/
structure Nuc970I2c where
  msg : Option ℕ
  msgNum : ℕ
  msgIdx : ℕ
  msgPtr : ℕ
  arblost : Bool
  state : I2cState
  buf : ℕ → ℕ → UInt8
  bus : List Cmd
  pending : Bool
  fault : Option Fault

def enxio : ℤ := 6

def einval : ℤ := 22

def econnrefused : ℤ := 111

def toUInt (n : ℤ) : ℕ := (n % 2 ^ 32).toNat

/-- `n - 1` on `unsigned int`s -/
def predUInt (n : ℕ) : ℕ := (n + (2 ^ 32 - 1)) % 2 ^ 32

theorem predUInt_of_pos {n : ℕ} (hpos : 0 < n) (hlt : n < 2 ^ 32) : predUInt n = n - 1 := by
  unfold predUInt
  omega

namespace Nuc970I2c

/-! ## The helper functions -/

/-- `writel(cmd, i2c->regs + CMDR)` -/
def command (s : Nuc970I2c) (c : Cmd) : Nuc970I2c :=
  { s with bus := s.bus ++ [c], pending := true }

def failed (s : Nuc970I2c) (f : Fault) : Nuc970I2c := { s with fault := some f }

/-- `*i2c->msg`, while a transfer is in progress -/
def deref (msgs : List I2cMsg) (s : Nuc970I2c) : Option I2cMsg :=
  if s.msgIdx < s.msgNum then s.msg.bind fun i => msgs[i]? else none

/-- `nuc970_i2c0_master_complete` -/
def masterComplete (s : Nuc970I2c) (ret : ℤ) : Nuc970I2c :=
  { s with
    msgPtr := 0
    msg := none
    msgIdx := if ret ≠ 0 then toUInt ret else (s.msgIdx + 1) % 2 ^ 32
    msgNum := 0 }

/-- `nuc970_i2c0_stop` -/
def sendStop (s : Nuc970I2c) (ret : ℤ) : Nuc970I2c :=
  masterComplete (command { s with state := .stop } .stop) ret

end Nuc970I2c

/-- The address byte of a message -/
def I2cMsg.address (m : I2cMsg) : UInt8 :=
  (((m.addr &&& 0x7f) <<< 1) ||| (if m.rd then 1 else 0)).toUInt8

namespace Nuc970I2c

/-- `nuc970_i2c0_message_start` -/
def messageStart (s : Nuc970I2c) (m : I2cMsg) : Nuc970I2c := s.command (.start m.address)

/-- `is_lastmsg`. The difference is one of `unsigned int`s. -/
def isLastmsg (s : Nuc970I2c) : Bool := predUInt s.msgNum ≤ s.msgIdx

/-- `is_msglast`. For an empty message `len - 1` is the largest `unsigned int`. -/
def isMsglast (s : Nuc970I2c) (m : I2cMsg) : Bool := s.msgPtr = predUInt m.len.toNat

def isMsgend (s : Nuc970I2c) (m : I2cMsg) : Bool := m.len.toNat ≤ s.msgPtr

/-- `msg_ptr = 0`, `msg_idx++`, `msg++` -/
def nextMsg (s : Nuc970I2c) : Nuc970I2c :=
  { s with msgPtr := 0, msgIdx := (s.msgIdx + 1) % 2 ^ 32, msg := s.msg.map (· + 1) }

end Nuc970I2c

/-! ## The position in a transfer -/

structure InProgress (msgs : List I2cMsg) (i : ℕ) (m : I2cMsg) (s : Nuc970I2c) : Prop where
  msg : s.msg = some i
  msgIdx : s.msgIdx = i
  msgNum : s.msgNum = msgs.length
  get : msgs[i]? = some m
  fault : s.fault = none

section Progress

variable {msgs : List I2cMsg} {i : ℕ} {m : I2cMsg} {s : Nuc970I2c}

theorem lt_of_get (hm : msgs[i]? = some m) : i < msgs.length :=
  (List.getElem?_eq_some_iff.mp hm).1

theorem InProgress.deref (h : InProgress msgs i m s) : s.deref msgs = some m := by
  rw [Nuc970I2c.deref, h.msgIdx, h.msgNum, h.msg, if_pos (lt_of_get h.get)]
  exact h.get

theorem InProgress.isLastmsg (h : InProgress msgs i m s) (hn : msgs.length < 2 ^ 31) :
    s.isLastmsg = decide (i + 1 = msgs.length) := by
  have hi := lt_of_get h.get
  have hpred : predUInt msgs.length = msgs.length - 1 := predUInt_of_pos (by omega) (by omega)
  simp only [Nuc970I2c.isLastmsg, h.msgIdx, h.msgNum, hpred, decide_eq_decide]
  omega

theorem InProgress.nextMsg {m' : I2cMsg} (h : InProgress msgs i m s) (hn : msgs.length < 2 ^ 31)
    (hm' : msgs[i + 1]? = some m') : InProgress msgs (i + 1) m' s.nextMsg where
  msg := by simp [Nuc970I2c.nextMsg, h.msg]
  msgIdx := by
    have hi := lt_of_get h.get
    simp only [Nuc970I2c.nextMsg, h.msgIdx]
    omega
  msgNum := h.msgNum
  get := hm'
  fault := h.fault

theorem InProgress.exists_next (h : InProgress msgs i m s) (hn : msgs.length < 2 ^ 31)
    (hlast : s.isLastmsg = false) : ∃ m', msgs[i + 1]? = some m' := by
  rw [h.isLastmsg hn, decide_eq_false_iff_not] at hlast
  have hi := lt_of_get h.get
  exact ⟨_, List.getElem?_eq_getElem (by omega)⟩

theorem isMsglast_eq (hptr : s.msgPtr ≤ m.len.toNat) :
    s.isMsglast m = decide (s.msgPtr + 1 = m.len.toNat) := by
  have hlen : m.len.toNat < 2 ^ 16 := m.len.toNat_lt
  rw [Nuc970I2c.isMsglast, predUInt, decide_eq_decide]
  omega

end Progress

namespace Nuc970I2c

/-! ## The interrupt handler -/

/-- The code from the label `retry_write` on. Every round but the last moves on to the next message,
    so as many rounds as there are messages are enough. -/
def retryWrite (msgs : List I2cMsg) : ℕ → Nuc970I2c → Nuc970I2c
  | 0, s => s
  | rounds + 1, s =>
    match s.deref msgs, s.msg with
    | some m, some i =>
      if s.isMsgend m = false then
        command { s with msgPtr := s.msgPtr + 1 } (.write (s.buf i s.msgPtr))
      else if s.isLastmsg = false then
        match s.nextMsg.deref msgs with
        | none => s.nextMsg.failed .noMessage
        | some m' =>
          if m'.nostart then
            -- after the stop for a change of direction the source still jumps to the label
            retryWrite msgs rounds (if m'.rd then s.nextMsg.sendStop (-einval) else s.nextMsg)
          else { s.nextMsg.messageStart m' with state := .start }
      else s.sendStop 0
    | _, _ => s.failed .noMessage

section Round

variable {msgs : List I2cMsg} {s : Nuc970I2c} {m : I2cMsg} {i : ℕ}

theorem retryWrite_byte (rounds : ℕ) (hm : s.deref msgs = some m) (hi : s.msg = some i)
    (hend : s.isMsgend m = false) :
    retryWrite msgs (rounds + 1) s =
      command { s with msgPtr := s.msgPtr + 1 } (.write (s.buf i s.msgPtr)) := by
  rw [retryWrite, hm, hi]
  exact if_pos hend

theorem retryWrite_next {m' : I2cMsg} (rounds : ℕ) (hm : s.deref msgs = some m)
    (hend : s.isMsgend m = true) (hlast : s.isLastmsg = false)
    (hm' : s.nextMsg.deref msgs = some m') :
    retryWrite msgs (rounds + 1) s =
      if m'.nostart then
        retryWrite msgs rounds (if m'.rd then s.nextMsg.sendStop (-einval) else s.nextMsg)
      else { s.nextMsg.messageStart m' with state := .start } := by
  obtain ⟨i, hi⟩ : ∃ i, s.msg = some i := by
    cases hmsg : s.msg with
    | none => simp [deref, hmsg] at hm
    | some i => exact ⟨i, rfl⟩
  rw [retryWrite, hm, hi]
  simp only [hend, hlast, hm']
  rfl

theorem retryWrite_last (rounds : ℕ) (hm : s.deref msgs = some m) (hi : s.msg = some i)
    (hend : s.isMsgend m = true) (hlast : s.isLastmsg = true) :
    retryWrite msgs (rounds + 1) s = s.sendStop 0 := by
  rw [retryWrite, hm, hi]
  simp only [hend, hlast]
  rfl

end Round

/-- `case STATE_WRITE` -/
def writeState (msgs : List I2cMsg) (s : Nuc970I2c) (noAck : Bool) : Nuc970I2c :=
  match s.deref msgs with
  | none => s.failed .noMessage
  | some m =>
    if m.ignoreNak = false ∧ noAck then s.sendStop (-econnrefused)
    else retryWrite msgs s.msgNum s

/-- The code from the label `prepare_read` on -/
def prepareRead (msgs : List I2cMsg) (s : Nuc970I2c) : Nuc970I2c :=
  match s.deref msgs with
  | none => s.failed .noMessage
  | some m =>
    if s.isMsglast m then
      -- nothing is written to `CMDR` when another message follows
      if s.isLastmsg then s.command (.read true) else s
    else if s.isMsgend m then
      -- the next message is read, whatever its direction, and no START is sent
      if s.isLastmsg then s.sendStop 0 else s.nextMsg.command (.read false)
    else s.command (.read false)

theorem prepareRead_eq {msgs : List I2cMsg} {i : ℕ} {m : I2cMsg} {s : Nuc970I2c}
    (h : InProgress msgs i m s) (hn : msgs.length < 2 ^ 31) (hptr : s.msgPtr ≤ m.len.toNat) :
    s.prepareRead msgs =
      if s.msgPtr + 1 = m.len.toNat then
        if i + 1 = msgs.length then s.command (.read true) else s
      else if s.msgPtr = m.len.toNat then
        if i + 1 = msgs.length then s.sendStop 0 else s.nextMsg.command (.read false)
      else s.command (.read false) := by
  have hend : m.len.toNat ≤ s.msgPtr ↔ s.msgPtr = m.len.toNat := by omega
  simp only [prepareRead, h.deref, isMsglast_eq hptr, h.isLastmsg hn, isMsgend, decide_eq_true_eq,
    hend]

/-- `case STATE_START` -/
def startState (msgs : List I2cMsg) (s : Nuc970I2c) (noAck : Bool) : Nuc970I2c :=
  match s.deref msgs with
  | none => s.failed .noMessage
  | some m =>
    if noAck ∧ m.ignoreNak = false then s.sendStop (-enxio)
    else
      let s := { s with state := if m.rd then .read else .write }
      if s.isLastmsg ∧ m.len = 0 then s.sendStop 0
      else if m.rd then prepareRead msgs s
      else writeState msgs s noAck

/-- `msg->buf[msg_ptr++] = byte` -/
def store (s : Nuc970I2c) (i : ℕ) (byte : UInt8) : Nuc970I2c :=
  { s with
    buf := Function.update s.buf i (Function.update (s.buf i) s.msgPtr byte)
    msgPtr := s.msgPtr + 1 }

/-- `case STATE_READ` -/
def readState (msgs : List I2cMsg) (s : Nuc970I2c) (byte : UInt8) : Nuc970I2c :=
  match s.deref msgs, s.msg with
  | some m, some i =>
    if s.msgPtr < m.len.toNat then prepareRead msgs (s.store i byte) else s.failed .pastEnd
  | _, _ => s.failed .noMessage

/-- `i2c_nuc970_irq_nextbyte`. `noAck` is the bit `SLAVE_ACK` of the status, `rxr` the byte in
    `RXR`. -/
def nextbyte (msgs : List I2cMsg) (s : Nuc970I2c) (noAck : Bool) (rxr : UInt8) : Nuc970I2c :=
  match s.state with
  | .idle => s
  | .stop => { s with state := .idle }
  | .start => startState msgs s noAck
  | .write => writeState msgs s noAck
  | .read => readState msgs s rxr

end Nuc970I2c

/-- What an interrupt finds: two bits of `CSR`, and the byte in `RXR`. -/
structure Irq where
  arbitLost : Bool
  noAck : Bool
  rxr : UInt8
  deriving DecidableEq, Repr

def nuc970I2cIrq (msgs : List I2cMsg) (s : Nuc970I2c) (irq : Irq) : Nuc970I2c :=
  let s := { s with pending := false }
  if irq.arbitLost then { s with arblost := true }
  else if s.state = .idle then s
  else s.nextbyte msgs irq.noAck irq.rxr

/-- The messages of a transfer. Their number is a positive `int`. -/
structure Messages where
  first : I2cMsg
  rest : List I2cMsg
  length_lt : rest.length + 1 < 2 ^ 31

def Messages.list (x : Messages) : List I2cMsg := x.first :: x.rest

/-- `nuc970_i2c0_doxfer` up to the wait for the interrupt handler -/
def nuc970I2c0Doxfer (x : Messages) (buf : ℕ → ℕ → UInt8) : Nuc970I2c :=
  { msg := some 0, msgNum := x.list.length, msgIdx := 0, msgPtr := 0, arblost := false,
    state := .start, buf := buf, bus := [.start x.first.address], pending := true, fault := none }

end NucKernel.I2c
