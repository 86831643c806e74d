import NucKernel.SmartCard.T1.Transceive

/-!
# Resynchronisation of the T=1 loop (`sc-t1.c`)

After S(RESYNC request) the reader waits in state `RESYNCH` for S(RESYNC response). ISO 7816-3
Rule 6 asks that nothing else gets through until then. The S-block case of the loop tests for
`RESYNCH`; the I-block and the R-block case test for `SENDING` and `RECEIVING` only.
-/

namespace NucKernel.SmartCard.T1

open NucKernel.Library Transceive

/-! ## The property -/

/-- The reply is an S(RESYNC response) that the S-block case accepts. -/
def ResyncResponse (dad : UInt8) (l : Transceive) : Reply → Prop
  | .block b => Legal dad l b ∧ t1BlockType b.pcb = .sBlock ∧ bitSix b.pcb = true ∧
      t1SType b.pcb = t1SResync
  | _ => False

/-- No payload appended, no command byte passed over, and the loop is still in `RESYNCH` (perhaps
    with another request sent) or has given up. -/
def Held (l l' : Transceive) : Prop :=
  l'.rbuf = l.rbuf ∧ l'.head = l.head ∧ (l'.t1.state = .resynch ∨ l'.t1.state = .dead)

def Isolated (dad : UInt8) (l : Transceive) (r : Reply) (l' : Transceive) : Prop :=
  l.t1.state = .resynch → ResyncResponse dad l r ∨ Held l l'

/-- A legal block that gets through in `RESYNCH`: an I-block while no chain is being sent, if it
    has the expected number and fits into the buffer, or if it has the other number and a retry is
    left; and an R-block that acknowledges the block sent last, while a chain is being sent. -/
def Leaks (l : Transceive) (b : Block) : Prop :=
  match t1BlockType b.pcb with
  | .iBlock =>
    l.t1.more = false ∧
      if t1Seq b.pcb = l.t1.nr then b.inf.length ≤ t1BufferSize - l.rbuf.length
      else l.retries ≠ 1
  | .rBlock =>
    l.t1.more = true ∧ t1Seq b.pcb ≠ l.t1.ns ∧ b.inf = [] ∧ bitSix b.pcb = false ∧
      l.lastSend ≠ 0 ∧ l.lastSend ≤ l.snd.length - l.head
  | .sBlock => False

/-- No block that gets through arrives in `RESYNCH`. -/
def Quiet (dad : UInt8) (l : Transceive) (r : Reply) (_ : Transceive) : Prop :=
  l.t1.state = .resynch →
    match r with
    | .block b => Legal dad l b → ¬ Leaks l b
    | _ => True

instance (dad : UInt8) (l : Transceive) : (r : Reply) → Decidable (ResyncResponse dad l r)
  | .block _ => inferInstanceAs (Decidable (_ ∧ _ ∧ _ ∧ _))
  | .parity | .failed => inferInstanceAs (Decidable False)

instance (l l' : Transceive) : Decidable (Held l l') :=
  inferInstanceAs (Decidable (_ ∧ _ ∧ _))

instance (dad : UInt8) (l : Transceive) (r : Reply) (l' : Transceive) :
    Decidable (Isolated dad l r l') :=
  inferInstanceAs (Decidable (_ → _))

/-! ## The three labels -/

theorem held_resync (dad : UInt8) {l l₀ : Transceive} (hrbuf : l₀.rbuf = l.rbuf)
    (hhead : l₀.head = l.head) : Held l (l₀.resync dad) := by
  refine ⟨by simp [hrbuf], by simp [hhead], ?_⟩
  unfold Transceive.resync
  split
  · exact .inr rfl
  · exact .inl rfl

theorem ctBufGet_eq_head_iff {l : Transceive} :
    l.ctBufGet = l.head ↔ ¬ (l.lastSend ≠ 0 ∧ l.lastSend ≤ l.snd.length - l.head) := by
  unfold ctBufGet
  split <;> omega

section Resynch

variable {dad : UInt8} {l : Transceive} (hstate : l.t1.state = .resynch)

include hstate

theorem held_build (pcb : UInt8) (inf : List UInt8) : Held l (l.build dad pcb inf) := by
  simp [Held, hstate]

theorem held_reject (error : UInt8) : Held l (l.reject dad error) := by
  unfold reject
  split
  · exact held_resync dad rfl rfl
  · exact held_build hstate _ _

theorem held_sendNext (emv : Bool) (b : Block) : Held l (l.sendNext emv dad b) := by
  unfold sendNext
  simp only []
  split_ifs
  · exact held_resync dad rfl rfl
  · exact held_resync dad rfl rfl
  · simp [Held, hstate]
  · simp [Held, splendid, hstate]

/-! ## The block kinds -/

theorem held_sRequest (b : Block) : Held l (l.sRequest dad b) := by
  unfold sRequest
  split_ifs
  any_goals exact held_build hstate _ _
  any_goals exact held_resync dad rfl rfl
  any_goals exact held_reject hstate _
  all_goals exact ⟨rfl, rfl, .inl hstate⟩

theorem held_sBlock (b : Block) :
    (bitSix b.pcb = true ∧ t1SType b.pcb = t1SResync) ∨ Held l (l.sBlock dad b) := by
  unfold sBlock
  by_cases hresp : bitSix b.pcb = true
  · by_cases htype : t1SType b.pcb = t1SResync
    · -- the response that is waited for
      exact Or.inl ⟨hresp, htype⟩
    · -- ISO 7816-3 Rule 6.2: any other response starts the next attempt
      right
      simp only [hresp, hstate, and_self, if_true, htype, ne_eq, not_false_eq_true]
      exact held_resync dad rfl rfl
  · right
    simp only [hresp, hstate, and_true, if_false, Bool.false_eq_true]
    -- a request is answered
    exact held_sRequest hstate b

theorem held_iBlock_iff (b : Block) :
    Held l (l.iBlock dad b) ↔
      (l.t1.more = true ∨ if t1Seq b.pcb = l.t1.nr then
        t1BufferSize - l.rbuf.length < b.inf.length else l.retries = 0) := by
  unfold iBlock
  rw [hstate]
  simp only [reduceCtorEq, if_false]
  unfold takeI
  by_cases hmore : l.t1.more = true
  · simp only [hmore, if_true, true_or, iff_true]
    -- a chain is being sent, and the block is rejected
    exact held_build hstate _ _
  simp only [hmore, if_false, false_or, Bool.false_eq_true]
  by_cases hseq : t1Seq b.pcb = l.t1.nr
  · -- from here on the state is `RECEIVING`; only the overflow of `rbuf` leads out of it
    simp only [hseq, if_true, ne_eq, not_true, if_false]
    unfold accept
    by_cases hfull : t1BufferSize - l.setReceiving.rbuf.length < b.inf.length
    · rw [if_pos hfull]
      exact iff_of_true ⟨List.append_nil _, rfl, .inr rfl⟩ hfull
    · rw [if_neg hfull]
      refine iff_of_false ?_ hfull
      -- the state has become `RECEIVING`
      rintro ⟨-, -, hend⟩
      split at hend <;> simp [done, splendid, buildR, chained, put, setReceiving] at hend
  · simp only [hseq, if_false, ne_eq, not_false_eq_true, if_true]
    unfold reject
    by_cases hretries : l.setReceiving.retries = 0
    · rw [if_pos hretries]
      -- the last retry is used up
      exact iff_of_true (held_resync dad rfl rfl) hretries
    · rw [if_neg hretries]
      refine iff_of_false ?_ hretries
      rintro ⟨-, -, hend⟩
      simp [buildR, setReceiving] at hend

theorem held_rBlock_iff (emv : Bool) (b : Block) :
    Held l (l.rBlock emv dad b) ↔
      ¬ (l.t1.more = true ∧ t1Seq b.pcb ≠ l.t1.ns ∧ b.inf = [] ∧ bitSix b.pcb = false ∧
        l.lastSend ≠ 0 ∧ l.lastSend ≤ l.snd.length - l.head) := by
  unfold rBlock
  rw [hstate]
  simp only [reduceCtorEq, if_false]
  by_cases hform : b.inf.length ≠ 0 ∨ bitSix b.pcb = true
  · rw [if_pos hform]
    -- an R-block of a wrong form
    refine iff_of_true (held_reject hstate _) ?_
    rintro ⟨-, -, hinf, hbit, -⟩
    simp [hinf, hbit] at hform
  rw [if_neg hform]
  push Not at hform
  obtain ⟨hlen, hbit⟩ := hform
  by_cases hseq : t1Seq b.pcb = l.t1.ns
  · -- the block sent last is asked for again
    simp only [hseq, ne_eq, not_true, false_and, if_false, and_false, not_false_eq_true, iff_true]
    exact held_sendNext hstate emv b
  by_cases hmore : l.t1.more = true
  · -- the head moves by the length of the block sent last, whatever the loop does next
    have hack : l.acknowledge.t1.state = .resynch := hstate
    have hsent : Held l.acknowledge (l.acknowledge.sendNext emv dad b) := held_sendNext hack emv b
    obtain ⟨hrbuf, hhead, hend⟩ := hsent
    have hiff : Held l (l.acknowledge.sendNext emv dad b) ↔ l.ctBufGet = l.head :=
      ⟨fun h => hhead.symm.trans h.2.1, fun h => ⟨hrbuf, hhead.trans h, hend⟩⟩
    simp only [hseq, hmore, ne_eq, not_false_eq_true, not_true, and_false, if_false, if_true,
      List.eq_nil_of_length_eq_zero hlen, hbit, true_and]
    rw [hiff, ctBufGet_eq_head_iff]
  · simp only [hseq, hmore, ne_eq, not_false_eq_true, and_self, if_true, false_and,
      Bool.false_eq_true, iff_true]
    -- nothing is to be acknowledged
    exact held_reject hstate _

end Resynch

/-! ## Runs -/

theorem isolated_block {emv : Bool} {dad : UInt8} {l : Transceive} {b : Block}
    (hstate : l.tick.t1.state = .resynch) (hlegal : Legal dad l b) :
    (ResyncResponse dad l (.block b) ∨ Held l.tick (l.tick.received emv dad b)) ↔
      (Legal dad l b → ¬ Leaks l b) := by
  have hlegal' : Legal dad l.tick b := hlegal
  rw [received_of_legal hlegal']
  simp only [hlegal, true_implies, ResyncResponse, Leaks, true_and]
  cases hkind : t1BlockType b.pcb with
  | rBlock =>
    simp only [reduceCtorEq, false_and, false_or]
    exact held_rBlock_iff hstate emv b
  | iBlock =>
    simp only [reduceCtorEq, false_and, false_or]
    rw [held_iBlock_iff hstate b]
    -- the counter was decremented before
    have hone : l.tick.retries = 0 ↔ l.retries = 1 := decUInt_eq_zero
    simp only [hone]
    change (l.t1.more = true ∨ if t1Seq b.pcb = l.t1.nr then
      t1BufferSize - l.rbuf.length < b.inf.length else l.retries = 1) ↔ _
    split <;> cases l.t1.more <;> simp
  | sBlock =>
    simp only [true_and, not_false_eq_true, iff_true]
    exact held_sBlock hstate b

theorem isolated_iff_quiet {emv : Bool} {dad : UInt8} {l : Transceive} {r : Reply} :
    Isolated dad l r (l.iterate emv dad r) ↔ Quiet dad l r (l.iterate emv dad r) := by
  unfold Isolated Quiet
  refine imp_congr_right fun hstate => ?_
  -- the decrement at the top of the loop changes neither the state nor a buffer
  have hstate' : l.tick.t1.state = .resynch := hstate
  cases r with
  | parity =>
    exact iff_of_true (Or.inr (held_reject hstate' t1EdcError)) trivial
  | failed =>
    refine iff_of_true (Or.inr ?_) trivial
    unfold iterate
    simp only []
    split
    · -- the card does not answer after an abort
      exact ⟨rfl, rfl, Or.inr rfl⟩
    · exact held_reject hstate' _
  | block b =>
    change _ ∨ Held l.tick (l.tick.received emv dad b) ↔ _
    by_cases hlegal : Legal dad l b
    · exact isolated_block hstate' hlegal
    · -- a block that is not legal is rejected
      obtain ⟨error, herror⟩ : ∃ error, l.tick.received emv dad b = l.tick.reject dad error :=
        received_of_not_legal hlegal
      rw [herror]
      exact iff_of_true (Or.inr (held_reject hstate' error)) fun h => absurd h hlegal

/-- **Resynchronisation isolation**: in every run of `t1_transceive`, the steps taken in `RESYNCH`
    append no payload, pass over no byte of the command and stay in `RESYNCH` until the
    S(RESYNC response), exactly when no leaking block arrives there. -/
theorem isolated_iff (emv : Bool) (dad : UInt8) (t : T1State) (snd : List UInt8)
    (rs : List Reply) :
    Along (t1Step emv dad) (Isolated dad) (t1Transceive dad t snd) rs ↔
      Along (t1Step emv dad) (Quiet dad) (t1Transceive dad t snd) rs := by
  apply along_iff (I := fun _ => True)
  · intro l r l' _ hstep
    obtain ⟨-, rfl⟩ := t1Step_eq_some.mp hstep
    exact isolated_iff_quiet
  · intros
    trivial
  · trivial

def staleResponse : List Reply :=
  [.parity, .parity, .parity, .block (t1ComputeChecksum .lrc 0 0x00 [0x90, 0x00])]

/-- Three damaged replies start a resynchronisation; the I-block that arrives instead of the
    S(RESYNC response) is appended to `rbuf`, and the call returns it. -/
theorem staleResponse_not_isolated :
    ¬ Along (t1Step false 0) (Isolated 0) (t1Transceive 0 (t1Init .lrc 32) [0x00])
      staleResponse := by
  decide +kernel

end NucKernel.SmartCard.T1
