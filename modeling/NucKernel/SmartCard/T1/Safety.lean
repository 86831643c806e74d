import NucKernel.SmartCard.T1.Card

/-!
# Transport safety of the T=1 loop (`sc-t1.c`)

A call of `t1_transceive` that returns `n ≥ 0` has delivered the command to the card and returns
the card's response, whatever replies were lost or damaged on the way.

The proof follows one exchange. `Ready` says what the loop and the card agree on when the loop is
about to send; the card's answer leads to `Turn`, in which the card holds a block that is news to
the reader (`Pending`); and every fate of that answer leads back to `Ready`, or ends the call.
-/

namespace NucKernel.SmartCard.T1

open NucKernel.Library Transceive

/-! ## What the loop puts on the line -/

/-- The part of the loop's variables that the card's state is related to. -/
structure View where
  state : Phase
  ns : Bool
  nr : Bool
  more : Bool
  snd : List UInt8
  head : ℕ
  lastSend : ℕ
  rbuf : List UInt8

def Transceive.view (l : Transceive) : View where
  state := l.t1.state
  ns := l.t1.ns
  nr := l.t1.nr
  more := l.t1.more
  snd := l.snd
  head := l.head
  lastSend := l.lastSend
  rbuf := l.rbuf

section Line

variable (dad : UInt8) {cs : Checksum} {l : Transceive} (hcs : l.t1.checksum = cs)

include hcs

theorem build_line (pcb : UInt8) (inf : List UInt8) :
    (l.build dad pcb inf).line cs =
      some (Msg.ofPcb (l.build dad pcb inf).sdata.pcb (l.build dad pcb inf).sdata.inf) := by
  subst hcs
  unfold line decode
  rw [if_pos]
  exact ⟨rfl, verify_compute _ _ _ _⟩

theorem buildR_spec {error : UInt8} (hcode : t1IsError error = error) :
    (∃ code, (l.buildR dad error).line cs = some (.rBlock l.t1.nr code)) ∧
      (l.buildR dad error).view = l.view := by
  have hkind : t1BlockType (t1RBlock ||| error) = .rBlock := by
    rw [← hcode]
    exact blockType_rBlock error
  -- the code is the new one, or that of the R-block before
  have hpcb : ∃ code, (l.buildR dad error).sdata.pcb = rPcb code l.t1.nr := by
    simp only [buildR, build, t1Build, List.length_nil, Nat.not_lt_zero, decide_false,
      Bool.false_eq_true, if_false, hkind, t1ComputeChecksum]
    split
    · exact ⟨_, rfl⟩
    · exact ⟨error, by rw [rPcb, hcode]⟩
  obtain ⟨code, hpcb⟩ := hpcb
  obtain ⟨hR, hseq, -⟩ := rPcb_spec code l.t1.nr
  constructor
  · refine ⟨t1IsError (l.buildR dad error).sdata.pcb, ?_⟩
    unfold buildR at hpcb ⊢
    rw [build_line dad hcs, Msg.ofPcb, hpcb, hR, hseq]
  · simp [view, buildR, build, t1Build, hkind]

theorem buildI_spec :
    (l.buildI dad).line cs =
        some (.iBlock l.t1.ns (l.buildI dad).t1.more (l.avail.take (l.buildI dad).lastSend)) ∧
      ((l.buildI dad).t1.more = true ↔ (l.buildI dad).lastSend < l.avail.length) := by
  obtain ⟨more, hmore⟩ : ∃ more, more = decide (l.t1.ifsc.toNat < l.avail.length) := ⟨_, rfl⟩
  have hkind : t1BlockType (if more then t1IBlock ||| t1MoreBlocks else t1IBlock) = .iBlock := by
    cases more <;> decide
  -- the kind, the number and the chaining bit are those of `iPcb`
  have hpcb : (l.build dad t1IBlock l.avail).sdata.pcb = iPcb more l.t1.ns := by
    simp only [build, t1Build, t1ComputeChecksum, ← hmore, hkind, iPcb]
  have hflag : (l.buildI dad).t1.more = more := by
    simp only [buildI, build, t1Build, ← hmore, hkind, if_true]
  have hlast : (l.buildI dad).lastSend = min l.t1.ifsc.toNat l.avail.length :=
    List.length_take
  -- the block holds the first `ifsc` bytes, or all there are
  have hinf : (l.build dad t1IBlock l.avail).sdata.inf = l.avail.take (l.buildI dad).lastSend := by
    rw [hlast, ← List.take_eq_take_min]
    rfl
  constructor
  · change (l.build dad t1IBlock l.avail).line cs = _
    obtain ⟨hI, hseq, hbit⟩ := iPcb_spec more l.t1.ns
    rw [build_line dad hcs, Msg.ofPcb, hpcb, hI, hseq, hbit, hflag, hinf]
  · rw [hflag, hlast, hmore, decide_eq_true_iff]
    omega

theorem answer_spec (pcb : UInt8) (tbuf : List UInt8) :
    (∃ inf, (l.answer dad pcb tbuf).line cs = some (.sResponse (t1SType pcb) inf)) ∧
      (l.answer dad pcb tbuf).view = l.view := by
  obtain ⟨hS, htype, hbit⟩ := sPcb_spec true pcb
  -- the response bit hides the chaining bit
  have hpcb : (l.build dad (sPcb true pcb) tbuf).sdata.pcb = sPcb true pcb := by
    simp only [build, t1Build, t1ComputeChecksum, sPcb_or_more, ite_self, hS]
  constructor
  · refine ⟨(l.build dad (sPcb true pcb) tbuf).sdata.inf, ?_⟩
    change (l.build dad (sPcb true pcb) tbuf).line cs = _
    rw [build_line dad hcs, Msg.ofPcb, hpcb, hS, htype, hbit]
    rfl
  · change (l.build dad (sPcb true pcb) tbuf).view = l.view
    simp [view, build, t1Build, sPcb_or_more, hS]

theorem resync_spec (hresyncs : l.resyncs ≠ 0) :
    (l.resync dad).line cs = some (.sRequest t1SResync []) := by
  unfold resync
  rw [if_neg hresyncs]
  -- the counters of the request do not matter
  have hrestart : l.restart.t1.checksum = cs := hcs
  change (l.restart.build dad (t1SBlock ||| t1SResync) []).line cs = _
  have hkind : t1BlockType (t1SBlock ||| t1SResync) = .sBlock := by decide
  rw [build_line dad hrestart]
  simp only [build, t1Build, t1ComputeChecksum, List.length_nil, Nat.not_lt_zero, decide_false,
    Bool.false_eq_true, if_false, List.take_nil, hkind]
  decide

end Line

/-! ## What loop and card agree on -/

/-- The card holds a block that is news to the reader: the acknowledgement of a block of the
    command, or the next block of the response. -/
inductive Pending (v : View) (c : Card) : Prop where
  | ack (hdue : c.due = .ack) (hstate : v.state = .sending) (hmore : v.more = true)
      (hnr : c.nr = !v.ns) (hns : c.ns = v.nr)
      (hcommand : c.command = v.snd.take (v.head + v.lastSend))
      (hleft : v.head + v.lastSend < v.snd.length) (hrbuf : v.rbuf = [])
  | data (inf : List UInt8) (hdue : c.due = .data v.nr inf) (hmore : v.more = false)
      (hns : c.ns = !v.nr) (hcommand : c.command = v.snd)
      (hresponse : c.response = v.rbuf ++ (inf ++ c.rest.flatten))
      (hshort : ∀ x ∈ inf :: c.rest, x.length ≤ 254)
      (hphase : (v.state = .sending ∧ c.nr = !v.ns) ∨ (v.state = .receiving ∧ c.nr = v.ns))

/-- An abort is asked for only while nothing of the response is stored. -/
def EarlyAbort (l : Transceive) (c : Card) : Prop :=
  ∀ r, c.asked = some (.abort r) → l.rbuf = []

/-- The loop is about to send, and the card is where the loop believes it to be. -/
inductive Ready (cs : Checksum) (l : Transceive) (c : Card) : Prop where
  /-- an I-block of the command -/
  | command (hline : l.line cs = some (.iBlock l.t1.ns l.t1.more (l.avail.take l.lastSend)))
      (hstate : l.t1.state = .sending) (hnr : c.nr = l.t1.ns) (hns : c.ns = l.t1.nr)
      (hcollected : c.collected = l.snd.take l.head)
      (hmore : l.t1.more = true ↔ l.lastSend < l.avail.length) (hrbuf : l.rbuf = [])
  /-- a question for a block that has not arrived, or the answer to an S(request) -/
  | await (hpending : Pending l.view c) (habort : EarlyAbort l c)
      (hline : (∃ code, l.line cs = some (.rBlock l.t1.nr code)) ∨
        ((∃ type inf, l.line cs = some (.sResponse type inf)) ∧ c.asked ≠ none))
  /-- the acknowledgement of a block of the response that is not the last -/
  | taken (inf : List UInt8) (hdue : c.due = .data (!l.t1.nr) inf)
      (hline : ∃ code, l.line cs = some (.rBlock l.t1.nr code)) (hasked : c.asked = none)
      (hstate : l.t1.state = .receiving) (hmore : l.t1.more = false) (hnr : c.nr = l.t1.ns)
      (hns : c.ns = l.t1.nr) (hcommand : c.command = l.snd) (hrest : c.rest ≠ [])
      (hresponse : c.response = l.rbuf ++ c.rest.flatten)
      (hshort : ∀ x ∈ c.rest, x.length ≤ 254)
  /-- S(RESYNC request), whatever the card's state -/
  | resynch (hline : l.line cs = some (.sRequest t1SResync [])) (hstate : l.t1.state = .resynch)
      (hretries : l.retries = 1) (hns : l.t1.ns = false) (hnr : l.t1.nr = false)

/-- No call is going on: the card waits for a command, or the loop has given up for good. -/
def Idle (l : Transceive) (c : Card) : Prop :=
  l.t1.state = .dead ∨ (c.nr = l.t1.ns ∧ c.ns = l.t1.nr ∧ c.collected = [])

/-- The state after an exchange: ready for the next, or returned with the response. -/
structure Good (cs : Checksum) (l : Transceive) (c : Card) : Prop where
  ready : l.result = none → Ready cs l c
  idle : l.result ≠ none → Idle l c
  returned : ∀ n ∈ l.result, 0 ≤ n →
    n = l.rbuf.length ∧ l.rbuf = c.response ∧ c.command = l.snd

/-- The card has answered: with the block that is due, or with an S(request). -/
structure Turn (l : Transceive) (c : Card) (m : Msg) : Prop where
  pending : Pending l.view c
  abort : EarlyAbort l c
  answer : (c.asked = none ∧ m = c.dueMsg) ∨ ∃ q, c.asked = some q ∧ m = q.msg

/-! ## The card's half of an exchange -/

section React

variable {cs : Checksum} {l : Transceive} {c : Card} {ch : Choice}

theorem Pending.ask {v : View} (h : Pending v c) (q : Option Request) :
    Pending v { c with asked := q } := by
  cases h with
  | ack hdue hstate hmore hnr hns hcommand hleft hrbuf =>
    exact .ack hdue hstate hmore hnr hns hcommand hleft hrbuf
  | data inf hdue hmore hns hcommand hresponse hshort hphase =>
    exact .data inf hdue hmore hns hcommand hresponse hshort hphase

theorem Pending.speak (h : Pending l.view c)
    (hchoice : ∀ r, ch.request = some (.abort r) → l.rbuf = []) :
    Turn l (c.speak ch.request).1 (c.speak ch.request).2 := by
  unfold Card.speak
  cases hq : ch.request with
  | none => exact ⟨h.ask none, fun r hr => (by cases hr), .inl ⟨rfl, rfl⟩⟩
  | some q =>
    refine ⟨h.ask (some q), fun r hr => hchoice r ?_, .inr ⟨q, rfl, rfl⟩⟩
    rw [hq]
    exact hr

theorem Pending.settle (h : Pending l.view c) (q : Request)
    (hq : ∀ r, q = .abort r → l.rbuf = []) : Pending l.view (c.settle q) := by
  cases q with
  | ifs size => exact h
  | wtx multiplier => exact h
  | abort r =>
    have hempty := hq r rfl
    cases h with
    | ack hdue hstate hmore hnr hns hcommand hleft hrbuf =>
      -- there is no response to abort yet
      have hsame : c.settle (.abort r) = c := by simp [Card.settle, hdue]
      rw [hsame]
      exact .ack hdue hstate hmore hnr hns hcommand hleft hrbuf
    | data inf hdue hmore hns hcommand hresponse hshort hphase =>
      -- nothing is stored, so the new response can take the place of the old one
      simp only [Card.settle, hdue]
      refine .data r.first rfl hmore hns hcommand ?_ r.short hphase
      change r.bytes = l.rbuf ++ _
      rw [hempty]
      rfl

theorem pending_accept (hstate : l.t1.state = .sending) (hnr : c.nr = l.t1.ns)
    (hns : c.ns = l.t1.nr) (hcollected : c.collected = l.snd.take l.head)
    (hmore : l.t1.more = true ↔ l.lastSend < l.avail.length) (hrbuf : l.rbuf = []) :
    Pending l.view (c.accept l.t1.more (l.avail.take l.lastSend) ch.response) := by
  have havail : l.avail.length = l.snd.length - l.head := List.length_drop
  unfold Card.accept
  cases hflag : l.t1.more with
  | true =>
    -- the command goes on behind this block
    have hlt := hmore.mp hflag
    refine .ack rfl hstate hflag (congrArg Bool.not hnr) hns ?_ ?_ hrbuf
    · change c.collected ++ l.avail.take l.lastSend = l.snd.take (l.head + l.lastSend)
      rw [hcollected, List.take_add]
      rfl
    · change l.head + l.lastSend < l.snd.length
      omega
  | false =>
    -- the block holds the rest of the command
    have hall : l.avail.length ≤ l.lastSend := by
      rw [← Nat.not_lt, ← hmore, hflag]
      decide
    refine .data ch.response.first (by rw [hns]; rfl) hflag (by rw [hns]; rfl) ?_ ?_
      ch.response.short (.inl ⟨hstate, congrArg Bool.not hnr⟩)
    · change c.collected ++ l.avail.take l.lastSend = l.snd
      rw [hcollected, List.take_of_length_le hall]
      exact List.take_append_drop _ _
    · change ch.response.bytes = l.rbuf ++ _
      rw [hrbuf]
      rfl

theorem pending_advance (hstate : l.t1.state = .receiving) (hmore : l.t1.more = false)
    (hnr : c.nr = l.t1.ns) (hns : c.ns = l.t1.nr) (hcommand : c.command = l.snd)
    (hrest : c.rest ≠ []) (hresponse : c.response = l.rbuf ++ c.rest.flatten)
    (hshort : ∀ x ∈ c.rest, x.length ≤ 254) : Pending l.view c.advance := by
  -- there is a next block
  obtain ⟨next, rest, hcons⟩ := List.exists_cons_of_ne_nil hrest
  have hadvance : c.advance = { c with ns := !c.ns, due := .data c.ns next, rest := rest } := by
    simp [Card.advance, hcons]
  rw [hadvance]
  rw [hcons] at hresponse hshort
  exact .data next (by rw [hns]; rfl) hmore (by rw [hns]; rfl) hcommand hresponse hshort
    (.inr ⟨hstate, hnr⟩)

/-- **The card's half**: whatever the loop sends outside a resynchronisation, the card answers with
    a block that is news to the reader, or with an S(request) in front of it. -/
theorem Ready.react (h : Ready cs l c) (hrun : l.t1.state ≠ .resynch)
    (hchoice : ∀ r, ch.request = some (.abort r) → l.rbuf = []) :
    Turn l (c.react (l.line cs) ch).1 (c.react (l.line cs) ch).2 := by
  cases h with
  | command hline hstate hnr hns hcollected hmore hrbuf =>
    rw [hline]
    simp only [Card.react, hnr, if_true]
    -- the card takes the block
    exact (pending_accept hstate hnr hns hcollected hmore hrbuf).speak hchoice
  | taken inf hdue hline hasked hstate hmore hnr hns hcommand hrest hresponse hshort =>
    obtain ⟨code, hline⟩ := hline
    rw [hline]
    -- `N(R)` is not the number of the block that was sent last, so the card goes on
    have hnext : l.t1.nr ≠ !l.t1.nr := by cases l.t1.nr <;> decide
    simp only [Card.react, Card.reactR, hasked, hdue, hnext, if_false]
    exact (pending_advance hstate hmore hnr hns hcommand hrest hresponse hshort).speak hchoice
  | await hpending habort hline =>
    rcases hline with ⟨code, hline⟩ | ⟨⟨type, inf, hline⟩, hasked⟩
    · rw [hline]
      simp only [Card.react, Card.reactR]
      cases hasked : c.asked with
      -- the S(request) is repeated
      | some q => exact ⟨hpending, habort, .inr ⟨q, hasked, rfl⟩⟩
      | none =>
        cases hpending with
        | ack hdue =>
          simp only [hdue]
          exact Pending.speak (.ack hdue ‹_› ‹_› ‹_› ‹_› ‹_› ‹_› ‹_›) hchoice
        | data inf hdue =>
          -- `N(R)` is the number of the block that is due, so the card sends it again
          have hsame : l.t1.nr = l.view.nr := rfl
          simp only [hdue, hsame, if_true]
          exact Pending.speak (.data inf hdue ‹_› ‹_› ‹_› ‹_› ‹_› ‹_›) hchoice
    · rw [hline]
      obtain ⟨q, hq⟩ := Option.ne_none_iff_exists'.mp hasked
      simp only [Card.react, Card.reactResponse, hq]
      -- the answer fits the request, or the card repeats it
      split
      · refine (hpending.settle q ?_).speak hchoice
        rintro r rfl
        exact habort r hq
      · exact ⟨hpending, habort, .inr ⟨q, hq, rfl⟩⟩
  | resynch hline hstate => exact absurd hstate hrun

end React

/-! ## The reader's half of an exchange -/

theorem ready_buildI {cs : Checksum} {l : Transceive} {c : Card} (dad : UInt8)
    (hcs : l.t1.checksum = cs) (hstate : l.t1.state = .sending) (hnr : c.nr = l.t1.ns)
    (hns : c.ns = l.t1.nr) (hcollected : c.collected = l.snd.take l.head) (hrbuf : l.rbuf = [])
    (retries : ℕ) : Ready cs { l.buildI dad with retries := retries } c := by
  obtain ⟨hline, hflag⟩ := buildI_spec dad hcs
  exact .command hline hstate hnr hns hcollected hflag hrbuf

section Receive

variable {emv : Bool} {dad : UInt8} {cs : Checksum} {l : Transceive} {c : Card}

theorem Good.failed (l : Transceive) (c : Card) : Good cs l.failed c where
  ready h := by cases h
  idle _ := .inl rfl
  returned n hn hpos := by
    obtain rfl : -1 = n := by simpa [Transceive.failed] using hn
    exact absurd hpos (by decide)

theorem Good.of_ready (hrun : l.result = none) (h : Ready cs l c) : Good cs l c where
  ready _ := h
  idle hstop := absurd hrun hstop
  returned n hn := by rw [hrun] at hn; cases hn

variable (hcs : l.t1.checksum = cs) (hrun : l.result = none)

include hcs hrun

theorem Good.resync : Good cs (l.resync dad) c := by
  by_cases hresyncs : l.resyncs = 0
  · -- no resynchronisation is left
    have hfail : l.resync dad = l.failed := if_pos hresyncs
    rw [hfail]
    exact .failed l c
  · -- the request is sent
    have hline : (l.resync dad).line cs = some (.sRequest t1SResync []) :=
      resync_spec dad hcs hresyncs
    have hsend : l.resync dad =
        (l.restart.build dad (t1SBlock ||| t1SResync) []).setResynch := if_neg hresyncs
    rw [hsend] at hline ⊢
    exact .of_ready hrun (.resynch hline rfl rfl rfl rfl)

theorem Good.reject (hpending : Pending l.view c) (habort : EarlyAbort l c) {error : UInt8}
    (hcode : t1IsError error = error) : Good cs (l.reject dad error) c := by
  unfold Transceive.reject
  split
  · exact .resync hcs hrun
  · -- the code is 0 inside of a chain
    have hcode' : ∀ b : Bool, t1IsError (if b then 0 else error) = if b then 0 else error := by
      intro b
      cases b
      · exact hcode
      · exact UInt8.zero_and
    obtain ⟨hline, hview⟩ := buildR_spec dad hcs (hcode' l.t1.iccHasMore)
    refine .of_ready hrun (.await ?_ habort (.inl hline))
    rw [hview]
    exact hpending

theorem Good.answer (hpending : Pending l.view c) (habort : EarlyAbort l c)
    (hasked : c.asked ≠ none) (pcb : UInt8) (tbuf : List UInt8) :
    Good cs (l.answer dad pcb tbuf) c := by
  obtain ⟨⟨inf, hline⟩, hview⟩ := answer_spec dad hcs pcb tbuf
  refine .of_ready hrun (.await ?_ habort (.inr ⟨⟨_, inf, hline⟩, hasked⟩))
  rw [hview]
  exact hpending

theorem good_request (hpending : Pending l.view c) (habort : EarlyAbort l c) {q : Request}
    (hasked : c.asked = some q) {b : Block} (htype : t1SType b.pcb = q.type)
    (hinf : b.inf = q.inf) : Good cs (l.sRequest dad b) c := by
  have hsome : c.asked ≠ none := by rw [hasked]; simp
  unfold sRequest
  cases q with
  | ifs size =>
    have hifs : t1SType b.pcb = t1SIfs := htype
    have hlen : b.inf.length = 1 := by rw [hinf]; rfl
    rw [hifs, if_neg (by decide), if_neg (by decide), if_pos rfl, if_neg (not_not.mpr hlen)]
    split
    · -- a block size out of range
      exact .reject hcs hrun hpending habort rfl
    · split
      · -- never taken: zero is below the range
        exact .resync hcs hrun
      · exact Good.answer (l := l.setIfsc b.data) hcs hrun hpending habort hsome _ _
  | wtx multiplier =>
    have hwtx : t1SType b.pcb = t1SWtx := htype
    have hlen : b.inf.length = 1 := by rw [hinf]; rfl
    rw [hwtx, if_neg (by decide), if_neg (by decide), if_neg (by decide), if_pos rfl,
      if_neg (not_not.mpr hlen)]
    exact Good.answer (l := l.setWtx b.data) hcs hrun hpending habort hsome _ _
  | abort r =>
    have habt : t1SType b.pcb = t1SAbort := htype
    have hlen : b.inf.length = 0 := by rw [hinf]; rfl
    rw [habt, if_neg (by decide), if_pos rfl, if_neg (not_not.mpr hlen)]
    exact .answer hcs hrun hpending habort hsome _ _

theorem good_ack (hdue : c.due = .ack) (hstate : l.t1.state = .sending)
    (hmore : l.t1.more = true) (hnr : c.nr = !l.t1.ns) (hns : c.ns = l.t1.nr)
    (hcommand : c.command = l.snd.take (l.head + l.lastSend))
    (hleft : l.head + l.lastSend < l.snd.length) (hrbuf : l.rbuf = []) {b : Block}
    (hinf : b.inf = []) (hbit : bitSix b.pcb = false) (hseq : t1Seq b.pcb = c.nr)
    (herror : t1IsError b.pcb = 0) : Good cs (l.rBlock emv dad b) c := by
  -- the number tells that the card has the block, so the head moves past it
  have hother : t1Seq b.pcb ≠ l.t1.ns := by
    rw [hseq, hnr]
    cases l.t1.ns <;> decide
  have hhead : l.acknowledge.head = l.head + l.lastSend := by
    change l.ctBufGet = _
    unfold ctBufGet
    rw [if_neg (by omega)]
  -- there is more to send
  have havail : l.acknowledge.avail.length ≠ 0 := by
    have hlength : l.acknowledge.avail.length = l.snd.length - l.acknowledge.head :=
      List.length_drop
    omega
  -- the block passes all tests
  have hgo : l.rBlock emv dad b = (l.acknowledge.buildI dad).splendid := by
    unfold rBlock sendNext
    rw [if_neg (by simp [hinf, hbit]), if_neg (by simp [hmore]), if_neg (by simp [hstate]),
      if_pos hother, if_neg (by simp [havail])]
    simp only [herror, ne_eq, not_true, if_false]
  rw [hgo]
  have hcollected : c.collected = l.acknowledge.snd.take l.acknowledge.head := by
    rw [hhead, Card.collected, hdue]
    exact hcommand
  exact .of_ready hrun
    (ready_buildI (l := l.acknowledge) dad hcs hstate hnr hns hcollected hrbuf l.t1.retries)

theorem good_accept {inf : List UInt8} (hdue : c.due = .data l.t1.nr inf)
    (hstate : l.t1.state = .receiving) (hmore : l.t1.more = false) (hnr : c.nr = l.t1.ns)
    (hns : c.ns = !l.t1.nr) (hcommand : c.command = l.snd)
    (hresponse : c.response = l.rbuf ++ (inf ++ c.rest.flatten))
    (hshort : ∀ x ∈ inf :: c.rest, x.length ≤ 254) (hasked : c.asked = none) {b : Block}
    (hinf : b.inf = inf) (hbit : bitSix b.pcb = !c.rest.isEmpty) :
    Good cs (l.accept dad b) c := by
  subst hinf
  unfold accept
  split
  · -- the response is larger than `rbuf`
    exact .failed _ c
  split
  · -- the last block: nothing is left of the response
    rename_i hlast
    have hrest : c.rest = [] := by
      rw [hbit] at hlast
      simpa using hlast
    have hall : l.rbuf ++ b.inf = c.response := by
      rw [hresponse, hrest]
      simp
    refine ⟨fun h => (by cases h), fun _ => .inr ⟨hnr, hns, by rw [Card.collected, hdue]⟩, ?_⟩
    intro n hn _
    obtain rfl : ((l.rbuf ++ b.inf).length : ℤ) = n := Option.some.inj hn
    exact ⟨rfl, hall, hcommand⟩
  · -- a block in the middle of the chain is acknowledged
    rename_i hchain
    have hrest : c.rest ≠ [] := by
      rw [hbit] at hchain
      simpa using hchain
    have hcs' : (l.put b.inf).chained.t1.checksum = cs := hcs
    obtain ⟨hline, hview⟩ := buildR_spec dad hcs' (show t1IsError 0 = 0 by decide)
    have hmore' : ((l.put b.inf).chained.buildR dad 0).t1.more = false :=
      (congrArg View.more hview).trans hmore
    refine .of_ready hrun (.taken b.inf ?_ hline hasked hstate hmore' hnr hns hcommand hrest ?_ ?_)
    · change c.due = .data (!!l.t1.nr) b.inf
      rw [Bool.not_not, hdue]
    · change c.response = (l.rbuf ++ b.inf) ++ _
      rw [List.append_assoc, hresponse]
    · exact fun x hx => hshort x (List.mem_cons_of_mem _ hx)

theorem good_data {inf : List UInt8} (hdue : c.due = .data l.t1.nr inf)
    (hmore : l.t1.more = false) (hns : c.ns = !l.t1.nr) (hcommand : c.command = l.snd)
    (hresponse : c.response = l.rbuf ++ (inf ++ c.rest.flatten))
    (hshort : ∀ x ∈ inf :: c.rest, x.length ≤ 254)
    (hphase : (l.t1.state = .sending ∧ c.nr = !l.t1.ns) ∨
      (l.t1.state = .receiving ∧ c.nr = l.t1.ns)) (hasked : c.asked = none) {b : Block}
    (hinf : b.inf = inf) (hseq : t1Seq b.pcb = l.t1.nr) (hbit : bitSix b.pcb = !c.rest.isEmpty) :
    Good cs (l.iBlock dad b) c := by
  -- the number is the one that is expected
  have htake : ∀ l₀ : Transceive, l₀.t1.more = false → t1Seq b.pcb = l₀.t1.nr →
      l₀.takeI dad b = l₀.setReceiving.accept dad b := by
    intro l₀ h₀ hseq₀
    unfold takeI
    rw [if_neg (by simp [h₀]), if_neg (not_not.mpr hseq₀)]
  unfold iBlock
  rcases hphase with ⟨hstate, hnr⟩ | ⟨hstate, hnr⟩
  · -- the first block of the response acknowledges the last one of the command
    rw [if_pos hstate, htake l.acknowledge hmore hseq]
    exact good_accept (l := l.acknowledge.setReceiving) hcs hrun hdue rfl hmore hnr hns hcommand
      hresponse hshort hasked hinf hbit
  · -- the reader is receiving already
    rw [if_neg (by rw [hstate]; decide), htake l hmore hseq]
    exact good_accept (l := l.setReceiving) hcs hrun hdue rfl hmore hnr hns hcommand hresponse
      hshort hasked hinf hbit

theorem good_noReply (hpending : Pending l.view c) (habort : EarlyAbort l c) :
    Good cs (l.iterate emv dad .failed) c ∧ Good cs (l.iterate emv dad .parity) c := by
  have hreject : ∀ error, t1IsError error = error → Good cs (l.tick.reject dad error) c :=
    fun error hcode => Good.reject (l := l.tick) hcs hrun hpending habort hcode
  refine ⟨?_, hreject t1EdcError (by decide)⟩
  unfold iterate
  simp only []
  split
  · exact .failed _ c
  · exact hreject t1OtherError (by decide)

/-- **The reader's half**: whatever becomes of the card's answer, the loop goes on in step with the
    card, or it returns the response. -/
theorem Turn.good {m : Msg} (h : Turn l c m) (fate : Fate) :
    Good cs (l.iterate emv dad (fate.reply (encode cs (swapNibbles dad) m))) c := by
  obtain ⟨hpending, habort, hanswer⟩ := h
  cases fate with
  | lost => exact (good_noReply hcs hrun hpending habort).1
  | damaged => exact (good_noReply hcs hrun hpending habort).2
  | delivered =>
    -- the checksum and the node address of the card's block are right
    have hlegal : ∀ pcb inf, inf.length ≤ 254 →
        Legal dad l (t1ComputeChecksum cs (swapNibbles dad) pcb inf) := by
      intro pcb inf hshort
      refine ⟨by rw [hcs]; exact verify_compute _ _ _ _, rfl, ?_⟩
      change inf.length ≠ 255
      omega
    rcases hanswer with ⟨hasked, rfl⟩ | ⟨q, hasked, rfl⟩
    · cases hpending with
      -- the acknowledgement is delivered
      | ack hdue hstate hmore hnr hns hcommand hleft hrbuf =>
        obtain ⟨hkind, hseq, hbit, herror⟩ := rPcb_spec 0 c.nr
        simp only [Card.dueMsg, hdue, encode, Fate.reply]
        rw [iterate_of_legal (hlegal _ _ (by decide))]
        simp only [t1ComputeChecksum, hkind]
        exact good_ack (l := l.tick) hcs hrun hdue hstate hmore hnr hns hcommand hleft hrbuf rfl
          hbit hseq herror
      | data inf hdue hmore hns hcommand hresponse hshort hphase =>
        -- a block of the response is delivered
        have hnext : c.due = .data l.t1.nr inf := hdue
        obtain ⟨hkind, hseq, hbit⟩ := iPcb_spec (!c.rest.isEmpty) l.t1.nr
        simp only [Card.dueMsg, hnext, encode, Fate.reply]
        rw [iterate_of_legal (hlegal _ _ (hshort inf List.mem_cons_self))]
        simp only [t1ComputeChecksum, hkind]
        exact good_data (l := l.tick) hcs hrun hdue hmore hns hcommand hresponse hshort hphase
          hasked rfl hseq hbit
    · obtain ⟨hkind, htype, hbit⟩ := sPcb_spec false q.type
      -- the S(request) of the card is delivered
      have hinf : q.inf.length ≤ 254 := by cases q <;> simp [Request.inf]
      have hown : t1SType q.type = q.type := by
        cases q <;> simp only [Request.type] <;> decide
      simp only [Request.msg, encode, Fate.reply]
      rw [iterate_of_legal (hlegal _ _ hinf)]
      simp only [t1ComputeChecksum, hkind, sBlock, hbit, Bool.false_eq_true, false_and, if_false]
      apply good_request (l := l.tick) hcs hrun hpending habort hasked
      · exact htype.trans hown
      · rfl

theorem good_resynch (hstate : l.t1.state = .resynch) (hretries : l.retries = 1)
    (hns : l.t1.ns = false) (hnr : l.t1.nr = false) (fate : Fate) :
    Good cs (l.iterate emv dad
      (fate.reply (encode cs (swapNibbles dad) (.sResponse t1SResync [])))) Card.fresh := by
  -- the request is sent with one retry
  have hzero : l.tick.retries = 0 := decUInt_eq_zero.mpr hretries
  have hreject : ∀ error, Good cs (l.tick.reject dad error) Card.fresh := by
    intro error
    have hagain : l.tick.reject dad error = l.tick.resync dad := if_pos hzero
    rw [hagain]
    exact Good.resync (l := l.tick) hcs hrun
  cases fate with
  | damaged => exact hreject t1EdcError
  | lost =>
    simp only [Fate.reply, iterate]
    split
    · -- the card does not answer after an abort
      exact .failed _ _
    · exact hreject t1OtherError
  | delivered =>
    obtain ⟨hkind, htype, hbit⟩ := sPcb_spec true t1SResync
    have hlegal : Legal dad l (encode cs (swapNibbles dad) (.sResponse t1SResync [])) :=
      ⟨by rw [hcs]; exact verify_compute _ _ _ _, rfl, by simp [encode, t1ComputeChecksum]⟩
    -- the response passes all tests
    have hgo : l.iterate emv dad (.block (encode cs (swapNibbles dad) (.sResponse t1SResync []))) =
        l.tick.resynced dad := by
      rw [iterate_of_legal hlegal]
      simp only [encode, t1ComputeChecksum, hkind, sBlock, hbit, tick_frame, hstate, and_self,
        if_true, htype]
      rfl
    simp only [Fate.reply, hgo]
    exact .of_ready hrun
      (ready_buildI (l := l.tick.rewind) dad hcs rfl hns.symm hnr.symm rfl rfl l.t1.retries)

end Receive

/-! ## Sessions -/

/-- Loop and card are in step: about to exchange a block, or between two calls. -/
structure Session.Inv (cs : Checksum) (s : Session) : Prop where
  checksum : s.loop.t1.checksum = cs
  ready : s.loop.result = none → Ready cs s.loop s.card
  idle : s.loop.result ≠ none → Idle s.loop s.card

theorem powerUp_inv (cs : Checksum) (ifsc : UInt8) : (powerUp cs ifsc).Inv cs where
  checksum := rfl
  ready h := by cases h
  idle _ := .inr ⟨rfl, rfl, rfl⟩

theorem Session.Inv.exchange (emv : Bool) (dad : UInt8) {cs : Checksum} {s : Session}
    (hs : s.Inv cs) (hrun : s.loop.result = none) {ch : Choice} (fate : Fate)
    (hchoice : ∀ r, ch.request = some (.abort r) → s.loop.rbuf = []) :
    Good cs (s.loop.iterate emv dad (fate.reply (encode cs (swapNibbles dad)
      (s.card.react (s.loop.line cs) ch).2))) (s.card.react (s.loop.line cs) ch).1 := by
  have hready := hs.ready hrun
  by_cases hstate : s.loop.t1.state = .resynch
  · -- of the four situations only one is in `RESYNCH`
    cases hready with
    | resynch hline _ hretries hns hnr =>
      rw [hline]
      exact good_resynch hs.checksum hrun hstate hretries hns hnr fate
    | command _ hsending => cases hstate.symm.trans hsending
    | taken _ _ _ _ hreceiving => cases hstate.symm.trans hreceiving
    | await hpending =>
      cases hpending with
      | ack _ hsending => cases hstate.symm.trans hsending
      | data _ _ _ _ _ _ _ hphase =>
        rcases hphase with ⟨hsending, -⟩ | ⟨hreceiving, -⟩
        · cases hstate.symm.trans hsending
        · cases hstate.symm.trans hreceiving
  · exact (hready.react hstate hchoice).good hs.checksum hrun fate

theorem Session.Inv.call {cs : Checksum} {s : Session} (hs : s.Inv cs)
    (hstop : s.loop.result ≠ none) (dad : UInt8) (snd : List UInt8) :
    ({ s with loop := t1Transceive dad s.loop.t1 snd } : Session).Inv cs := by
  unfold t1Transceive
  split
  · -- the call is refused, and nothing has been sent
    exact ⟨hs.checksum, fun h => (by cases h), fun _ => hs.idle hstop⟩
  · rename_i hgo
    push Not at hgo
    rcases hs.idle hstop with hdead | ⟨hnr, hns, hcollected⟩
    · exact absurd hdead hgo.2
    · refine ⟨hs.checksum, fun _ => ?_, fun h => absurd rfl h⟩
      exact ready_buildI (l := enter s.loop.t1 snd) dad hs.checksum rfl hnr hns hcollected rfl _

theorem Session.Inv.step {emv : Bool} {dad : UInt8} {cs : Checksum} {s s' : Session} {e : Event}
    (hs : s.Inv cs) (hstep : sessionStep emv dad cs s e = some s') (hcond : NoLateAbort s e s') :
    s'.Inv cs ∧ Faithful s e s' := by
  cases e with
  | call snd =>
    simp only [sessionStep] at hstep
    split at hstep
    · -- no call begins before the last one has returned
      cases hstep
    · rename_i hstop
      obtain rfl := Option.some.inj hstep
      -- a call that begins returns nothing
      exact ⟨hs.call hstop dad snd, fun hrun => absurd hrun hstop⟩
  | exchange ch fate =>
    obtain ⟨l, hloop, rfl⟩ := Option.map_eq_some_iff.mp hstep
    obtain ⟨hrun, rfl⟩ := t1Step_eq_some.mp hloop
    -- an abort is early
    have hchoice : ∀ r, ch.request = some (.abort r) → s.loop.rbuf = [] := by
      intro r hr
      obtain ⟨response, request⟩ := ch
      subst hr
      exact hcond
    have hgood := hs.exchange emv dad hrun fate hchoice
    have hcs := (iterate_sameCall emv dad s.loop (fate.reply (encode cs (swapNibbles dad)
      (s.card.react (s.loop.line cs) ch).2))).2.2
    exact ⟨⟨hcs.trans hs.checksum, hgood.ready, hgood.idle⟩, fun _ => hgood.returned⟩

/-- **T=1 transport safety**: in every session with a card that follows ISO 7816-3 and aborts no
    response of which the reader has stored bytes, whatever replies are lost or damaged, a call of
    `t1_transceive` that returns `n ≥ 0` has sent the card exactly the command, and the `n` bytes
    it returns are the information fields of the card's response, each once and in order. -/
theorem faithful_of_noLateAbort (emv : Bool) (dad : UInt8) (cs : Checksum) (ifsc : UInt8)
    (es : List Event)
    (hes : Along (sessionStep emv dad cs) NoLateAbort (powerUp cs ifsc) es) :
    Along (sessionStep emv dad cs) Faithful (powerUp cs ifsc) es := by
  apply along_of_along (I := Session.Inv cs) _ _ (powerUp_inv cs ifsc) hes
  · intro s e s' hs hstep hcond
    exact (hs.step hstep hcond).1
  · intro s e s' hs hstep hcond
    exact (hs.step hstep hcond).2

def statusWord : Response := { first := [0x90, 0x00], rest := [], short := by decide }

def twoBlocks : Response := { first := [0xAA], rest := [[0xBB]], short := by decide }

/-- A card that begins a response, aborts it after its first block, and sends another one. -/
def abortedResponse : List Event :=
  [.call [0x00],
    .exchange { response := twoBlocks, request := none } .delivered,
    .exchange { response := twoBlocks, request := some (.abort statusWord) } .delivered,
    .exchange { response := twoBlocks, request := none } .delivered]

/-- The loop answers S(ABORT request) and keeps what it had stored: the call returns the first block
    of the abandoned response in front of the bytes of the new one. -/
theorem abortedResponse_unfaithful :
    ¬ Along (sessionStep false 0 .lrc) Faithful (powerUp .lrc 32) abortedResponse := by
  decide +kernel

/-- A two-block response whose first block is lost and whose second is preceded by an
    S(WTX request). -/
def lossySession : List Event :=
  [.call [0x00],
    .exchange { response := twoBlocks, request := none } .lost,
    .exchange { response := twoBlocks, request := none } .delivered,
    .exchange { response := twoBlocks, request := some (.wtx 1) } .delivered,
    .exchange { response := twoBlocks, request := none } .delivered]

theorem faithful_lossySession :
    Along (sessionStep false 0 .lrc) Faithful (powerUp .lrc 32) lossySession := by
  apply faithful_of_noLateAbort
  decide +kernel

end NucKernel.SmartCard.T1
