import Mathlib.Algebra.Group.Nat.Defs
import NucKernel.Library.Runs
import NucKernel.SmartCard.T1.Block

/-!
# The T=1 transceive loop (`sc-t1.c`)

`t1_transceive` sends a command to the card and collects the response. It is one loop: send the
block in `sdata`, wait for a reply, and let the reply decide which block goes out next. Three
labels end an iteration: the loop's end ("everything went just splendid"), `resync` and `error`.

## Modelling

- One iteration is `iterate`, a function of the loop's variables and of what `t1_xcv` brings back.
- `t1_xcv` returns `-2` or leaves a parity or card-removed error (`Reply.parity`), returns another
  negative value (`Reply.failed`), or delivers a block of `3 + LEN + EDC` characters
  (`Reply.block`). The hardware timers, the interrupt handshake and the waiting-time extension
  they use are not modelled.
- `sbuf` is the command with a head index, `rbuf` the bytes put so far, `result` the value of the
  `return` statement once it is reached.
- `retries` is unsigned and decremented at the top of the loop without a test, so `decUInt` wraps.
- `previous_block` keeps four bytes of the last block. They are read back only for an R-block,
  which has no information field; the model keeps the block.
- `emv` is the configuration switch `CONFIG_EMV_CHECK`, `dad` the node address of the call.
-/

namespace NucKernel.SmartCard.T1

open NucKernel.Library

/-! ## The protocol state -/

/-- `SENDING`, `RECEIVING`, `RESYNCH`, `DEAD` -/
inductive Phase where
  | sending
  | receiving
  | resynch
  | dead
  deriving DecidableEq, Repr

/-- `t1_state_t`. `t1_set_defaults` is the only place that sets `retries`, and sets it to `3`. -/
structure T1State where
  state : Phase
  ns : Bool
  nr : Bool
  ifsc : UInt8
  wtx : UInt8
  retries : ℕ
  checksum : Checksum
  iccHasMore : Bool
  more : Bool
  previousBlock : Block
  previousIBlock : Block
  retries_pos : 0 < retries
  deriving DecidableEq, Repr

def zeroBlock : Block := { nad := 0, pcb := 0, inf := [], edc := [0] }

/-- The state after `t1_init` and the parameter setting of `t1_negotiate_ifsd`, which takes the
    checksum and the card's block size from the answer to reset. -/
def t1Init (checksum : Checksum) (ifsc : UInt8) : T1State where
  state := .sending
  ns := false
  nr := false
  ifsc := ifsc
  wtx := 0
  retries := 3
  checksum := checksum
  iccHasMore := false
  more := false
  previousBlock := zeroBlock
  previousIBlock := zeroBlock
  retries_pos := by decide

/-- `t1_build`: lay out a block with as much of `avail` as the card can take, number it, and
    remember it. -/
def t1Build (dad : UInt8) (t : T1State) (pcb : UInt8) (avail : List UInt8) : T1State × Block :=
  let more := decide (t.ifsc.toNat < avail.length)
  let pcb := if more then pcb ||| t1MoreBlocks else pcb
  let kind := t1BlockType pcb
  let pcb :=
    match kind with
    | .rBlock =>
      -- use first error code
      (if t1IsError t.previousBlock.pcb ≠ 0 ∧ t1BlockType t.previousBlock.pcb = .rBlock then
        t1RBlock ||| t1IsError t.previousBlock.pcb
      else pcb) ||| t.nr.toUInt8 <<< 4
    | .iBlock => pcb ||| t.ns.toUInt8 <<< 6
    | .sBlock => pcb
  let block := t1ComputeChecksum t.checksum dad pcb (avail.take t.ifsc.toNat)
  ({ t with
      more := if kind = .iBlock then more else t.more
      previousBlock := block
      previousIBlock := if kind = .iBlock then block else t.previousIBlock }, block)

/-- `t1_rebuild`: the block to send again and the number of its bytes that are sent. A block with
    a two-byte checksum loses the second byte here. -/
def t1Rebuild (t : T1State) (sdata : Block) : Block × ℕ :=
  if t1BlockType t.previousIBlock.pcb = .iBlock then
    -- is the card asking for the last I-block?
    if t1Seq t.previousIBlock.pcb = t1Seq sdata.pcb then
      (t.previousIBlock, t.previousIBlock.inf.length + 4)
    else (t.previousBlock, 4)
  else if t1BlockType t.previousBlock.pcb = .rBlock then (t.previousBlock, 4)
  else (sdata, 0)

/-! ## The loop's variables -/

/-- The variables of one call of `t1_transceive` at the top of its loop. -/
structure Transceive where
  t1 : T1State
  snd : List UInt8
  head : ℕ
  rbuf : List UInt8
  lastSend : ℕ
  retries : ℕ
  resyncs : ℕ
  sdata : Block
  slen : ℕ
  result : Option ℤ
  deriving DecidableEq, Repr

inductive Reply where
  | parity
  | failed
  | block (b : Block)
  deriving DecidableEq, Repr

/-- `retries--` on an `unsigned int`. -/
def decUInt (n : ℕ) : ℕ := if n = 0 then 2 ^ 32 - 1 else n - 1

theorem decUInt_of_pos {n : ℕ} (h : 0 < n) : decUInt n = n - 1 := if_neg (by omega)

theorem decUInt_eq_zero {n : ℕ} : decUInt n = 0 ↔ n = 1 := by
  unfold decUInt
  split <;> omega

namespace Transceive

/-- `ct_buf_get(&sbuf, NULL, last_send)`: nothing happens if the buffer holds fewer bytes. -/
def ctBufGet (l : Transceive) : ℕ :=
  if l.snd.length - l.head < l.lastSend then l.head else l.head + l.lastSend

def avail (l : Transceive) : List UInt8 := l.snd.drop l.head

/-- The card has the block sent last: move past it and number the next one. -/
def acknowledge (l : Transceive) : Transceive :=
  { l with head := l.ctBufGet, lastSend := 0, t1 := { l.t1 with ns := !l.t1.ns } }

/-- `slen = t1_build(intf, sdata, dad, pcb, bp, NULL)` -/
def build (dad : UInt8) (l : Transceive) (pcb : UInt8) (inf : List UInt8) : Transceive :=
  let r := t1Build dad l.t1 pcb inf
  { l with t1 := r.1, sdata := r.2, slen := 3 + r.2.inf.length + r.2.edc.length }

/-- `slen = t1_build(intf, sdata, dad, T1_I_BLOCK, &sbuf, &last_send)` -/
def buildI (dad : UInt8) (l : Transceive) : Transceive :=
  let l' := l.build dad t1IBlock l.avail
  { l' with lastSend := l'.sdata.inf.length }

/-- `slen = t1_build(intf, sdata, dad, T1_R_BLOCK | error, NULL, NULL)` -/
def buildR (dad : UInt8) (l : Transceive) (error : UInt8) : Transceive :=
  l.build dad (t1RBlock ||| error) []

/-- The label `error` -/
def failed (l : Transceive) : Transceive :=
  { l with t1 := { l.t1 with state := .dead }, result := some (-1) }

/-- The label `done` -/
def done (l : Transceive) : Transceive := { l with result := some l.rbuf.length }

/-- "Everything went just splendid": the end of the loop's body. -/
def splendid (l : Transceive) : Transceive := { l with retries := l.t1.retries }

/-- `resyncs--`, `t1->ns = 0`, `t1->nr = 0` -/
def restart (l : Transceive) : Transceive :=
  { l with resyncs := l.resyncs - 1, t1 := { l.t1 with ns := false, nr := false } }

/-- `t1->state = RESYNCH`, `t1->more = 0`, `retries = 1` -/
def setResynch (l : Transceive) : Transceive :=
  { l with t1 := { l.t1 with state := .resynch, more := false }, retries := 1 }

/-- The label `resync` (ISO 7816-3 Rules 6 and 6.4) -/
def resync (dad : UInt8) (l : Transceive) : Transceive :=
  if l.resyncs = 0 then l.failed
  else (l.restart.build dad (t1SBlock ||| t1SResync) []).setResynch

/-- ISO 7816-3 Rule 7.4.2, the answer to a bad reply: resynchronise when the retries are used up,
    otherwise ask with an R-block. It names the error unless the card is in the middle of a
    chain. -/
def reject (dad : UInt8) (l : Transceive) (error : UInt8) : Transceive :=
  if l.retries = 0 then l.resync dad
  else l.buildR dad (if l.t1.iccHasMore then 0 else error)

/-! ### What building a block leaves alone -/

@[simp] theorem build_frame (dad : UInt8) (l : Transceive) (pcb : UInt8) (inf : List UInt8) :
    (l.build dad pcb inf).snd = l.snd ∧ (l.build dad pcb inf).head = l.head ∧
      (l.build dad pcb inf).rbuf = l.rbuf ∧ (l.build dad pcb inf).lastSend = l.lastSend ∧
      (l.build dad pcb inf).retries = l.retries ∧ (l.build dad pcb inf).resyncs = l.resyncs ∧
      (l.build dad pcb inf).result = l.result := by
  exact ⟨rfl, rfl, rfl, rfl, rfl, rfl, rfl⟩

@[simp] theorem build_frame_t1 (dad : UInt8) (l : Transceive) (pcb : UInt8) (inf : List UInt8) :
    (l.build dad pcb inf).t1.state = l.t1.state ∧ (l.build dad pcb inf).t1.ns = l.t1.ns ∧
      (l.build dad pcb inf).t1.nr = l.t1.nr ∧ (l.build dad pcb inf).t1.ifsc = l.t1.ifsc ∧
      (l.build dad pcb inf).t1.retries = l.t1.retries ∧
      (l.build dad pcb inf).t1.checksum = l.t1.checksum ∧
      (l.build dad pcb inf).t1.iccHasMore = l.t1.iccHasMore := by
  exact ⟨rfl, rfl, rfl, rfl, rfl, rfl, rfl⟩

@[simp] theorem buildI_frame (dad : UInt8) (l : Transceive) :
    (l.buildI dad).snd = l.snd ∧ (l.buildI dad).head = l.head ∧ (l.buildI dad).rbuf = l.rbuf ∧
      (l.buildI dad).retries = l.retries ∧ (l.buildI dad).resyncs = l.resyncs ∧
      (l.buildI dad).result = l.result := by
  exact ⟨rfl, rfl, rfl, rfl, rfl, rfl⟩

@[simp] theorem buildI_frame_t1 (dad : UInt8) (l : Transceive) :
    (l.buildI dad).t1.state = l.t1.state ∧ (l.buildI dad).t1.ns = l.t1.ns ∧
      (l.buildI dad).t1.nr = l.t1.nr ∧ (l.buildI dad).t1.retries = l.t1.retries ∧
      (l.buildI dad).t1.checksum = l.t1.checksum := by
  exact ⟨rfl, rfl, rfl, rfl, rfl⟩

@[simp] theorem resync_frame (dad : UInt8) (l : Transceive) :
    (l.resync dad).snd = l.snd ∧ (l.resync dad).head = l.head ∧ (l.resync dad).rbuf = l.rbuf ∧
      (l.resync dad).t1.retries = l.t1.retries ∧
      (l.resync dad).t1.checksum = l.t1.checksum := by
  unfold resync
  split <;> exact ⟨rfl, rfl, rfl, rfl, rfl⟩

/-! ## One iteration -/

/-- The end of the R-block case: send the next I-block, or the same one again. -/
def sendNext (emv : Bool) (dad : UInt8) (l : Transceive) (b : Block) : Transceive :=
  -- if there is no data available, the ICC shouldn't be asking for more
  if emv = true ∧ l.avail.length = 0 then l.resync dad
  else
    let l := l.buildI dad
    -- this R block indicates an error
    if t1IsError b.pcb ≠ 0 then
      if l.retries = 0 then l.resync dad else l
    else l.splendid

/-- `case T1_R_BLOCK` -/
def rBlock (emv : Bool) (dad : UInt8) (l : Transceive) (b : Block) : Transceive :=
  if b.inf.length ≠ 0 ∨ bitSix b.pcb then l.reject dad t1OtherError
  -- wrong sequence number, and no next I-block to send
  else if t1Seq b.pcb ≠ l.t1.ns ∧ ¬ l.t1.more then l.reject dad t1OtherError
  else if l.t1.state = .receiving then
    if t1BlockType l.t1.previousBlock.pcb = .rBlock then
      -- ISO 7816-3 Rule 7.2; the test of the retries is not compiled in with the EMV checks
      if emv = false ∧ l.retries = 0 then l.resync dad
      else { l with sdata := (t1Rebuild l.t1 b).1, slen := (t1Rebuild l.t1 b).2 }
    else (l.buildR dad 0).splendid
  -- the card requests the next sequence number, so it received the previous block
  else if t1Seq b.pcb ≠ l.t1.ns then l.acknowledge.sendNext emv dad b
  else l.sendNext emv dad b

/-- `t1->nr ^= 1` and `ct_buf_put(&rbuf, sdata + 3, sdata[LEN])` -/
def put (l : Transceive) (inf : List UInt8) : Transceive :=
  { l with rbuf := l.rbuf ++ inf, t1 := { l.t1 with nr := !l.t1.nr } }

/-- `t1->icc_has_more = 1`, with the previous error stored in `previous_block` cleared if any -/
def chained (l : Transceive) : Transceive :=
  let prev := l.t1.previousBlock
  let error := t1IsError prev.pcb ≠ 0 ∧ t1BlockType prev.pcb = .rBlock
  { l with t1 :=
    { l.t1 with
      previousBlock := if error then { prev with pcb := 0 } else prev
      iccHasMore := true } }

/-- An I-block that carries the expected sequence number, from `t1->nr ^= 1` on. -/
def accept (dad : UInt8) (l : Transceive) (b : Block) : Transceive :=
  -- `ct_buf_put` fails when the block does not fit
  if t1BufferSize - l.rbuf.length < b.inf.length then (l.put []).failed
  else if bitSix b.pcb = false then (l.put b.inf).done
  else ((l.put b.inf).chained.buildR dad 0).splendid

/-- `t1->state = RECEIVING` -/
def setReceiving (l : Transceive) : Transceive :=
  { l with t1 := { l.t1 with state := .receiving } }

/-- The I-block case after the acknowledgement -/
def takeI (dad : UInt8) (l : Transceive) (b : Block) : Transceive :=
  -- while we're still sending chaining I blocks shouldn't receive I block from ICC
  if l.t1.more then l.buildR dad t1OtherError
  else if t1Seq b.pcb ≠ l.t1.nr then l.setReceiving.reject dad t1OtherError
  else l.setReceiving.accept dad b

/-- `case T1_I_BLOCK`: the first I-block of the card indicates that it received the last block
    sent. -/
def iBlock (dad : UInt8) (l : Transceive) (b : Block) : Transceive :=
  if l.t1.state = .sending then l.acknowledge.takeI dad b else l.takeI dad b

/-- The S-block that answers a request, at the end of the S-block case. -/
def answer (dad : UInt8) (l : Transceive) (pcb : UInt8) (tbuf : List UInt8) : Transceive :=
  (l.build dad (t1SBlock ||| t1SResponse ||| t1SType pcb) tbuf).splendid

/-- Back to the start of the command, with full counters and an empty `rbuf`. -/
def rewind (l : Transceive) : Transceive :=
  { l with
    t1 := { l.t1 with state := .sending }
    lastSend := 0
    resyncs := 3
    retries := l.t1.retries
    rbuf := []
    head := 0 }

/-- S(RESYNC response) in state `RESYNCH` (ISO 7816-3 Rule 6.3) -/
def resynced (dad : UInt8) (l : Transceive) : Transceive := l.rewind.buildI dad

/-- `t1->ifsc = value` -/
def setIfsc (l : Transceive) (value : UInt8) : Transceive :=
  { l with t1 := { l.t1 with ifsc := value } }

/-- `t1->wtx = value` -/
def setWtx (l : Transceive) (value : UInt8) : Transceive :=
  { l with t1 := { l.t1 with wtx := value } }

/-- The `switch` over the type of an S(request) of the card -/
def sRequest (dad : UInt8) (l : Transceive) (b : Block) : Transceive :=
  if t1SType b.pcb = t1SResync then
    -- the card is not allowed to send a resync
    if b.inf.length ≠ 0 then l.buildR dad t1OtherError else l.resync dad
  else if t1SType b.pcb = t1SAbort then
    -- the request is answered, and `rbuf` keeps what it holds
    if b.inf.length ≠ 0 then l.buildR dad t1OtherError else l.answer dad b.pcb []
  else if t1SType b.pcb = t1SIfs then
    if b.inf.length ≠ 1 then l.buildR dad t1OtherError
    else if b.data < 0x10 ∨ b.data = 0xFF then l.reject dad t1OtherError
    else if b.data = 0 then l.resync dad
    else (l.setIfsc b.data).answer dad b.pcb [b.data]
  else if t1SType b.pcb = t1SWtx then
    if b.inf.length ≠ 1 then l.reject dad t1OtherError
    else (l.setWtx b.data).answer dad b.pcb [b.data]
  else l.reject dad t1OtherError

/-- `case T1_S_BLOCK` -/
def sBlock (dad : UInt8) (l : Transceive) (b : Block) : Transceive :=
  if bitSix b.pcb ∧ l.t1.state = .resynch then
    -- ISO 7816-3 Rule 6.2
    if t1SType b.pcb ≠ t1SResync then l.resync dad else l.resynced dad
  -- a response nobody asked for
  else if bitSix b.pcb then l.reject dad t1OtherError
  else l.sRequest dad b

def received (emv : Bool) (dad : UInt8) (l : Transceive) (b : Block) : Transceive :=
  if t1VerifyChecksum l.t1.checksum b = false then l.reject dad t1EdcError
  else if b.nad ≠ swapNibbles dad ∨ b.inf.length = 0xFF then l.reject dad t1OtherError
  else
    match t1BlockType b.pcb with
    | .rBlock => l.rBlock emv dad b
    | .iBlock => l.iBlock dad b
    | .sBlock => l.sBlock dad b

/-- The `retries--` at the top of the loop -/
def tick (l : Transceive) : Transceive := { l with retries := decUInt l.retries }

@[simp] theorem tick_frame (l : Transceive) :
    l.tick.t1 = l.t1 ∧ l.tick.snd = l.snd ∧ l.tick.head = l.head ∧ l.tick.rbuf = l.rbuf ∧
      l.tick.lastSend = l.lastSend ∧ l.tick.resyncs = l.resyncs ∧ l.tick.result = l.result := by
  exact ⟨rfl, rfl, rfl, rfl, rfl, rfl, rfl⟩

/-- The body of the loop -/
def iterate (emv : Bool) (dad : UInt8) (l : Transceive) (r : Reply) : Transceive :=
  let l := l.tick
  match r with
  | .parity => l.reject dad t1EdcError
  | .failed =>
    -- the card has stopped answering after the abort
    if t1BlockType l.t1.previousBlock.pcb = .sBlock ∧ t1SType l.t1.previousBlock.pcb = t1SAbort then
      l.failed
    else l.reject dad t1OtherError
  | .block b => l.received emv dad b

/-! ### What no iteration changes -/

def SameCall (l l' : Transceive) : Prop :=
  l'.snd = l.snd ∧ l'.t1.retries = l.t1.retries ∧ l'.t1.checksum = l.t1.checksum

theorem SameCall.resync {l l₀ : Transceive} (dad : UInt8) (h : SameCall l l₀) :
    SameCall l (l₀.resync dad) := by
  unfold Transceive.resync
  split <;> exact h

theorem SameCall.reject {l l₀ : Transceive} (dad error : UInt8) (h : SameCall l l₀) :
    SameCall l (l₀.reject dad error) := by
  unfold Transceive.reject
  split
  · exact h.resync dad
  · exact h

theorem SameCall.sendNext {l l₀ : Transceive} (emv : Bool) (dad : UInt8) (b : Block)
    (h : SameCall l l₀) : SameCall l (l₀.sendNext emv dad b) := by
  have hI : SameCall l (l₀.buildI dad) := h
  unfold Transceive.sendNext
  split
  · -- nothing is left to send
    exact h.resync dad
  · simp only []
    split
    · split
      · -- an error at the last retry
        exact hI.resync dad
      · exact hI
    · exact h

theorem rBlock_sameCall (emv : Bool) (dad : UInt8) (l : Transceive) (b : Block) :
    SameCall l (l.rBlock emv dad b) := by
  have h : SameCall l l := ⟨rfl, rfl, rfl⟩
  unfold rBlock
  -- the tests of the case in their order, and then the two ways to the next block
  split_ifs
  · exact h.reject dad _
  · exact h.reject dad _
  · exact h.resync dad
  · exact h
  · exact h
  · exact SameCall.sendNext emv dad b h
  · exact h.sendNext emv dad b

theorem SameCall.takeI {l l₀ : Transceive} (dad : UInt8) (b : Block) (h : SameCall l l₀) :
    SameCall l (l₀.takeI dad b) := by
  have hreceiving : SameCall l l₀.setReceiving := h
  unfold Transceive.takeI accept
  split_ifs
  · exact h
  · exact hreceiving.reject dad _
  · exact h
  · exact h
  · exact h

theorem iBlock_sameCall (dad : UInt8) (l : Transceive) (b : Block) :
    SameCall l (l.iBlock dad b) := by
  have h : SameCall l l := ⟨rfl, rfl, rfl⟩
  unfold iBlock
  split
  · exact SameCall.takeI dad b h
  · exact h.takeI dad b

theorem sBlock_sameCall (dad : UInt8) (l : Transceive) (b : Block) :
    SameCall l (l.sBlock dad b) := by
  have h : SameCall l l := ⟨rfl, rfl, rfl⟩
  have hrequest : SameCall l (l.sRequest dad b) := by
    -- every request is answered, rejected, or starts a resynchronisation
    unfold sRequest
    split_ifs
    any_goals exact h.resync dad
    any_goals exact h.reject dad _
    all_goals exact h
  unfold sBlock
  split_ifs
  · exact h.resync dad
  · exact h
  · exact h.reject dad _
  · exact hrequest

theorem iterate_sameCall (emv : Bool) (dad : UInt8) (l : Transceive) (r : Reply) :
    SameCall l (l.iterate emv dad r) := by
  have h : SameCall l l.tick := ⟨rfl, rfl, rfl⟩
  unfold iterate
  cases r with
  | parity => exact h.reject dad _
  | failed =>
    simp only []
    split
    · -- the card does not answer after an abort
      exact h
    · exact h.reject dad _
  | block b =>
    unfold received
    simp only []
    -- the checksum, or the header, is wrong, or the block is legal
    split_ifs
    · exact h.reject dad _
    · exact h.reject dad _
    · cases t1BlockType b.pcb with
      | rBlock => exact rBlock_sameCall emv dad l.tick b
      | iBlock => exact iBlock_sameCall dad l.tick b
      | sBlock => exact sBlock_sameCall dad l.tick b

end Transceive

/-! ## Runs -/

/-- The loop as a partial step: nothing happens after the `return`. -/
def t1Step (emv : Bool) (dad : UInt8) (l : Transceive) (r : Reply) : Option Transceive :=
  if l.result = none then some (l.iterate emv dad r) else none

def enter (t : T1State) (snd : List UInt8) : Transceive where
  t1 := { t with state := .sending, previousBlock := zeroBlock, iccHasMore := false }
  snd := snd
  head := 0
  rbuf := []
  lastSend := 0
  retries := t.retries
  resyncs := 3
  sdata := zeroBlock
  slen := 0
  result := none

/-- `t1_transceive` up to the top of its loop: an empty command and a dead card are refused. -/
def t1Transceive (dad : UInt8) (t : T1State) (snd : List UInt8) : Transceive :=
  if snd = [] ∨ t.state = .dead then { enter t snd with t1 := t, result := some (-1) }
  else (enter t snd).buildI dad

theorem t1Step_eq_some {emv : Bool} {dad : UInt8} {l l' : Transceive} {r : Reply} :
    t1Step emv dad l r = some l' ↔ l.result = none ∧ l.iterate emv dad r = l' := by
  unfold t1Step
  split <;> simp_all

def Legal (dad : UInt8) (l : Transceive) (b : Block) : Prop :=
  t1VerifyChecksum l.t1.checksum b = true ∧ b.nad = swapNibbles dad ∧ b.inf.length ≠ 0xFF

instance (dad : UInt8) (l : Transceive) (b : Block) : Decidable (Legal dad l b) :=
  inferInstanceAs (Decidable (_ ∧ _ ∧ _))

theorem received_of_not_legal {emv : Bool} {dad : UInt8} {l : Transceive} {b : Block}
    (h : ¬ Legal dad l b) : ∃ error, l.received emv dad b = l.reject dad error := by
  unfold Transceive.received
  by_cases hsum : t1VerifyChecksum l.t1.checksum b = false
  · -- the checksum is wrong
    exact ⟨t1EdcError, if_pos hsum⟩
  · rw [if_neg hsum]
    rw [Bool.not_eq_false] at hsum
    -- the header is wrong
    refine ⟨t1OtherError, if_pos ?_⟩
    by_contra hhead
    push Not at hhead
    exact h ⟨hsum, hhead⟩

theorem received_of_legal {emv : Bool} {dad : UInt8} {l : Transceive} {b : Block}
    (h : Legal dad l b) : l.received emv dad b =
      match t1BlockType b.pcb with
      | .rBlock => l.rBlock emv dad b
      | .iBlock => l.iBlock dad b
      | .sBlock => l.sBlock dad b := by
  obtain ⟨hsum, hnad, hlen⟩ := h
  unfold Transceive.received
  rw [if_neg (by simp [hsum]), if_neg (by simp [hnad, hlen])]

theorem iterate_of_legal {emv : Bool} {dad : UInt8} {l : Transceive} {b : Block}
    (h : Legal dad l b) : l.iterate emv dad (.block b) =
      match t1BlockType b.pcb with
      | .rBlock => l.tick.rBlock emv dad b
      | .iBlock => l.tick.iBlock dad b
      | .sBlock => l.tick.sBlock dad b := by
  have htick : Legal dad l.tick b := h
  exact received_of_legal htick

end NucKernel.SmartCard.T1
