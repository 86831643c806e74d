import NucKernel.SmartCard.T1.Transceive

/-!
# A card that follows ISO 7816-3 (T=1), and a session with it

The reader's side of T=1 is the driver's (`Transceive`); the card's side is the standard's. This
module states what a card does that follows the rules of that standard, and lets the
two exchange blocks over a line that loses or damages replies.

## Modelling

- Blocks are read as messages (`Msg`); `encode` and `decode` go between the two.
- The card is a function `Card.react` of the message it receives and of a `Choice`: the response it
  has for a complete command, and the S(request) it may put in front of the block that is due. The
  theorems quantify over the choices.
- The rules of the standard: an I-block with the expected number is acknowledged, by an R-block if
  it is chained and by the first I-block of the response otherwise (2); an R-block with the next
  number brings the next block of a chain (5), and one with the old number the block that is due
  again, or the S(request) that was not answered (7); S(RESYNC request) starts afresh (6).
- Rule 9: the card may give up its response with S(ABORT request). Once the reader has answered,
  the card sends another response, whose numbers go on where the chain stopped.
- A message no rule has an answer for brings an R-block.
- The blocks of the reader arrive. Each reply is lost, damaged or delivered (`Fate`).
-/

namespace NucKernel.SmartCard.T1

open NucKernel.Library

/-! ## Messages -/

inductive Msg where
  | iBlock (seq more : Bool) (inf : List UInt8)
  | rBlock (seq : Bool) (error : UInt8)
  | sRequest (type : UInt8) (inf : List UInt8)
  | sResponse (type : UInt8) (inf : List UInt8)
  deriving DecidableEq, Repr

def Msg.ofPcb (pcb : UInt8) (inf : List UInt8) : Msg :=
  match t1BlockType pcb with
  | .iBlock => .iBlock (t1Seq pcb) (bitSix pcb) inf
  | .rBlock => .rBlock (t1Seq pcb) (t1IsError pcb)
  | .sBlock =>
    if bitSix pcb then .sResponse (t1SType pcb) inf else .sRequest (t1SType pcb) inf

/-- The message in the first `slen` bytes of a block: none if a byte of the checksum is missing or
    the checksum is wrong. -/
def decode (cs : Checksum) (b : Block) (slen : ℕ) : Option Msg :=
  if slen = 3 + b.inf.length + b.edc.length ∧ t1VerifyChecksum cs b = true then
    some (Msg.ofPcb b.pcb b.inf)
  else none

def encode (cs : Checksum) (nad : UInt8) : Msg → Block
  | .iBlock seq more inf => t1ComputeChecksum cs nad (iPcb more seq) inf
  | .rBlock seq error => t1ComputeChecksum cs nad (rPcb error seq) []
  | .sRequest type inf => t1ComputeChecksum cs nad (sPcb false type) inf
  | .sResponse type inf => t1ComputeChecksum cs nad (sPcb true type) inf

/-! ## The card -/

/-- A response: the information fields of its chain of I-blocks, each no longer than a block can
    carry. -/
structure Response where
  first : List UInt8
  rest : List (List UInt8)
  short : ∀ inf ∈ first :: rest, inf.length ≤ 254

/-- The bytes of a response. -/
def Response.bytes (r : Response) : List UInt8 := r.first ++ r.rest.flatten

inductive Request where
  | ifs (size : UInt8)
  | wtx (multiplier : UInt8)
  | abort (instead : Response)

def Request.type : Request → UInt8
  | .ifs _ => t1SIfs
  | .wtx _ => t1SWtx
  | .abort _ => t1SAbort

def Request.inf : Request → List UInt8
  | .ifs size => [size]
  | .wtx multiplier => [multiplier]
  | .abort _ => []

def Request.msg (q : Request) : Msg := .sRequest q.type q.inf

/-- The block the card has for the reader apart from S-blocks. -/
inductive Due where
  | nothing
  | ack
  | data (seq : Bool) (inf : List UInt8)

/-- A card. `ns` numbers its next I-block, `nr` is the number it expects, `command` the chain
    received so far, `rest` the information fields after the one in `due`, `asked` the S(request)
    that has not been answered. `response` records the bytes of the response being sent. -/
structure Card where
  ns : Bool
  nr : Bool
  command : List UInt8
  due : Due
  rest : List (List UInt8)
  response : List UInt8
  asked : Option Request

/-- What is left open by the standard: the response to a complete command, and an S(request) to
    send before the block that is due. -/
structure Choice where
  response : Response
  request : Option Request

namespace Card

def fresh : Card where
  ns := false
  nr := false
  command := []
  due := .nothing
  rest := []
  response := []
  asked := none

/-- The part of a command chain that the next I-block continues. -/
def collected (c : Card) : List UInt8 :=
  match c.due with
  | .ack => c.command
  | _ => []

def dueMsg (c : Card) : Msg :=
  match c.due with
  | .nothing => .rBlock c.nr t1OtherError
  | .ack => .rBlock c.nr 0
  | .data seq inf => .iBlock seq (!c.rest.isEmpty) inf

/-- The card's turn: the block that is due, or an S(request) first. -/
def speak (c : Card) (request : Option Request) : Card × Msg :=
  match request with
  | some q => ({ c with asked := some q }, q.msg)
  | none => ({ c with asked := none }, c.dueMsg)

def accept (c : Card) (more : Bool) (inf : List UInt8) (r : Response) : Card :=
  if more then { c with nr := !c.nr, command := c.collected ++ inf, due := .ack }
  else
    { c with
      nr := !c.nr, ns := !c.ns, command := c.collected ++ inf
      due := .data c.ns r.first, rest := r.rest, response := r.bytes }

def advance (c : Card) : Card :=
  match c.rest with
  | [] => c
  | inf :: rest => { c with ns := !c.ns, due := .data c.ns inf, rest := rest }

def settle (c : Card) (q : Request) : Card :=
  match q, c.due with
  | .abort r, .data seq _ =>
    -- the number of the block that was due passes to the first block of the new response
    { c with due := .data seq r.first, rest := r.rest, response := r.bytes }
  | _, _ => c

def reactR (c : Card) (seq : Bool) (ch : Choice) : Card × Msg :=
  match c.asked with
  -- Rule 7: an S(request) without an answer is repeated
  | some q => (c, q.msg)
  | none =>
    match c.due with
    -- `N(R)` is the number the reader waits for
    | .data sent _ => if seq = sent then c.speak ch.request else c.advance.speak ch.request
    | _ => c.speak ch.request

def reactResponse (c : Card) (type : UInt8) (inf : List UInt8) (ch : Choice) : Card × Msg :=
  match c.asked with
  | some q =>
    if q.type = type ∧ q.inf = inf then (c.settle q).speak ch.request else (c, q.msg)
  | none => (c, .rBlock c.nr t1OtherError)

/-- The card's answer to a message, or to a block it cannot read. -/
def react (c : Card) (m : Option Msg) (ch : Choice) : Card × Msg :=
  match m with
  | some (.iBlock seq more inf) =>
    if seq = c.nr then (c.accept more inf ch.response).speak ch.request
    -- a block the card already has
    else (c, .rBlock c.nr t1OtherError)
  | some (.rBlock seq _) => c.reactR seq ch
  | some (.sResponse type inf) => c.reactResponse type inf ch
  | some (.sRequest type _) =>
    if type = t1SResync then (fresh, .sResponse t1SResync [])
    else (c, .rBlock c.nr t1OtherError)
  | none => (c, .rBlock c.nr t1EdcError)

end Card

/-! ## Sessions -/

inductive Fate where
  | lost
  | damaged
  | delivered
  deriving DecidableEq, Repr

def Fate.reply (b : Block) : Fate → Reply
  | .lost => .failed
  | .damaged => .parity
  | .delivered => .block b

/-- The driver with the card in its slot. Between two calls `loop` is what the last one left. -/
structure Session where
  loop : Transceive
  card : Card

/-- A call of `t1_transceive` by the driver's ioctl, or one exchange of blocks during a call. -/
inductive Event where
  | call (snd : List UInt8)
  | exchange (ch : Choice) (fate : Fate)

def Transceive.line (l : Transceive) (cs : Checksum) : Option Msg := decode cs l.sdata l.slen

def sessionStep (emv : Bool) (dad : UInt8) (cs : Checksum) (s : Session) :
    Event → Option Session
  | .call snd =>
    if s.loop.result = none then none
    else some { s with loop := t1Transceive dad s.loop.t1 snd }
  | .exchange ch fate =>
    let r := s.card.react (s.loop.line cs) ch
    (t1Step emv dad s.loop (fate.reply (encode cs (swapNibbles dad) r.2))).map fun l =>
      { loop := l, card := r.1 }

/-- The session after reset: no call made, the checksum and the block size taken from the card. -/
def powerUp (cs : Checksum) (ifsc : UInt8) : Session where
  loop :=
    { t1 := t1Init cs ifsc, snd := [], head := 0, rbuf := [], lastSend := 0, retries := 0,
      resyncs := 0, sdata := zeroBlock, slen := 0, result := some 0 }
  card := .fresh

/-! ## The property -/

/-- **Transport safety** of one step: when a call returns `n ≥ 0`, the card has received exactly
    the command, and the `n` bytes in the receive buffer are the bytes of its response. -/
def Faithful (s : Session) (_ : Event) (s' : Session) : Prop :=
  s.loop.result = none → ∀ n ∈ s'.loop.result, 0 ≤ n →
    n = s'.loop.rbuf.length ∧ s'.loop.rbuf = s'.card.response ∧ s'.card.command = s'.loop.snd

instance (s : Session) (e : Event) (s' : Session) : Decidable (Faithful s e s') :=
  match h : s'.loop.result with
  | none => isTrue fun _ n hn => by rw [h] at hn; cases hn
  | some n =>
    decidable_of_iff (s.loop.result = none → 0 ≤ n →
        n = s'.loop.rbuf.length ∧ s'.loop.rbuf = s'.card.response ∧ s'.card.command = s'.loop.snd)
      ⟨fun hp hrun m hm => by rw [h] at hm; cases hm; exact hp hrun,
        fun hp hrun => hp hrun n h⟩

/-- The card does not abort a response of which the reader has stored bytes. -/
def NoLateAbort (s : Session) (e : Event) (_ : Session) : Prop :=
  match e with
  | .exchange { request := some (.abort _), .. } _ => s.loop.rbuf = []
  | _ => True

instance (s : Session) (e : Event) (s' : Session) : Decidable (NoLateAbort s e s') := by
  unfold NoLateAbort
  split <;> infer_instance

end NucKernel.SmartCard.T1
