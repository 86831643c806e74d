import NucKernel.SmartCard.T1.Resync

/-!
# The retry and resynchronisation counters of the T=1 loop (`sc-t1.c`)

`t1_transceive` counts its exchanges down in `retries` and is meant to resynchronise when the
counter is used up, and to give up when `resyncs` is. The counter is unsigned, it is decremented
at the top of the loop without a test, and not every way back to the top tests it.
-/

namespace NucKernel.SmartCard.T1

open NucKernel.Library Transceive

/-! ## Progress -/

/-- The reply is an I-block whose payload goes into `rbuf`. -/
def PayloadAccepted (dad : UInt8) (l : Transceive) : Reply → Prop
  | .block b => Legal dad l b ∧ t1BlockType b.pcb = .iBlock ∧ l.t1.more = false ∧
      t1Seq b.pcb = l.t1.nr ∧ b.inf.length ≤ t1BufferSize - l.rbuf.length
  | _ => False

/-- A well-formed S(ABORT), S(IFS) or S(WTX) request. -/
def Answerable (b : Block) : Prop :=
  bitSix b.pcb = false ∧
    ((t1SType b.pcb = t1SAbort ∧ b.inf.length = 0) ∨
      (t1SType b.pcb = t1SIfs ∧ b.inf.length = 1 ∧ ¬ (b.data < 0x10 ∨ b.data = 0xFF)) ∨
      (t1SType b.pcb = t1SWtx ∧ b.inf.length = 1))

def RequestAnswered (dad : UInt8) (l : Transceive) : Reply → Prop
  | .block b => Legal dad l b ∧ t1BlockType b.pcb = .sBlock ∧ Answerable b
  | _ => False

def Resynced (dad : UInt8) (l : Transceive) (r : Reply) : Prop :=
  l.t1.state = .resynch ∧ ResyncResponse dad l r

/-- An exchange makes progress if the head of `sbuf` moves, a payload is accepted, a request of the
    card is answered, or a resynchronisation succeeds. -/
def Progress (dad : UInt8) (l : Transceive) (r : Reply) (l' : Transceive) : Prop :=
  l.head < l'.head ∨ PayloadAccepted dad l r ∨ RequestAnswered dad l r ∨ Resynced dad l r

instance (dad : UInt8) (l : Transceive) : (r : Reply) → Decidable (PayloadAccepted dad l r)
  | .block _ => inferInstanceAs (Decidable (_ ∧ _ ∧ _ ∧ _ ∧ _))
  | .parity | .failed => inferInstanceAs (Decidable False)

instance (b : Block) : Decidable (Answerable b) :=
  inferInstanceAs (Decidable (_ ∧ (_ ∨ _ ∨ _)))

instance (dad : UInt8) (l : Transceive) : (r : Reply) → Decidable (RequestAnswered dad l r)
  | .block _ => inferInstanceAs (Decidable (_ ∧ _ ∧ _))
  | .parity | .failed => inferInstanceAs (Decidable False)

instance (dad : UInt8) (l : Transceive) (r : Reply) : Decidable (Resynced dad l r) :=
  inferInstanceAs (Decidable (_ ∧ _))

instance (dad : UInt8) (l : Transceive) (r : Reply) (l' : Transceive) :
    Decidable (Progress dad l r l') :=
  inferInstanceAs (Decidable (_ ∨ _ ∨ _ ∨ _))

/-! ## The watched loop -/

/-- The loop, the exchanges since the last one that made progress or started a resynchronisation,
    and the resynchronisations started since the last one that succeeded. -/
structure Watch where
  loop : Transceive
  idle : ℕ
  attempts : ℕ

/-- One iteration. A resynchronisation has been started when `resyncs` has gone down. -/
def watchStep (emv : Bool) (dad : UInt8) (w : Watch) (r : Reply) : Option Watch :=
  (t1Step emv dad w.loop r).map fun l' =>
    { loop := l'
      idle :=
        if Progress dad w.loop r l' ∨ l'.resyncs < w.loop.resyncs then 0 else w.idle + 1
      attempts :=
        if Resynced dad w.loop r then 0
        else if l'.resyncs < w.loop.resyncs then w.attempts + 1
        else w.attempts }

def watchCall (dad : UInt8) (t : T1State) (snd : List UInt8) : Watch :=
  { loop := t1Transceive dad t snd, idle := 0, attempts := 0 }

def Bounded (w : Watch) (_ : Reply) (w' : Watch) : Prop :=
  w.loop.retries ≠ 0 ∧ w'.idle ≤ w'.loop.t1.retries ∧ w'.attempts ≤ 3

instance (w : Watch) (r : Reply) (w' : Watch) : Decidable (Bounded w r w') :=
  inferInstanceAs (Decidable (_ ∧ _ ∧ _))

/-! ## The blocks that break the bound -/

def InOrder (l : Transceive) (b : Block) : Prop :=
  b.inf.length = 0 ∧ bitSix b.pcb = false ∧ (t1Seq b.pcb = l.t1.ns ∨ l.t1.more = true)

/-- The blocks whose case ends in a `continue` that no test of `retries` precedes: an I-block
    while a chain is being sent; S(RESYNC), S(ABORT) and S(IFS) requests of the wrong length; and,
    with the EMV checks compiled in, an R-block that has an R-block sent again. -/
def Unchecked (emv : Bool) (l : Transceive) (b : Block) : Prop :=
  match t1BlockType b.pcb with
  | .iBlock => l.t1.more = true
  | .sBlock =>
    bitSix b.pcb = false ∧
      ((t1SType b.pcb = t1SResync ∧ b.inf.length ≠ 0) ∨
        (t1SType b.pcb = t1SAbort ∧ b.inf.length ≠ 0) ∨
        (t1SType b.pcb = t1SIfs ∧ b.inf.length ≠ 1))
  | .rBlock =>
    emv = true ∧ InOrder l b ∧ l.t1.state = .receiving ∧
      t1BlockType l.t1.previousBlock.pcb = .rBlock

/-- The R-blocks that count as success although they acknowledge nothing: in `RECEIVING` the first
    one after another kind of block was sent; otherwise one without an error code that does not
    move the head of `sbuf`. -/
def Futile (emv : Bool) (l : Transceive) (b : Block) : Prop :=
  t1BlockType b.pcb = .rBlock ∧ InOrder l b ∧
    if l.t1.state = .receiving then t1BlockType l.t1.previousBlock.pcb ≠ .rBlock
    else t1IsError b.pcb = 0 ∧ (t1Seq b.pcb = l.t1.ns ∨ l.ctBufGet = l.head) ∧
      ¬ (emv = true ∧ l.avail.length = 0)

/-- No legal block arrives that is futile, and none that is unchecked at the last retry. -/
def Checked (emv : Bool) (dad : UInt8) (w : Watch) (r : Reply) (_ : Watch) : Prop :=
  match r with
  | .block b => Legal dad w.loop b →
      ¬ Futile emv w.loop b ∧ (Unchecked emv w.loop b → w.loop.retries ≠ 1)
  | _ => True

instance (l : Transceive) (b : Block) : Decidable (InOrder l b) :=
  inferInstanceAs (Decidable (_ ∧ _ ∧ _))

instance (emv : Bool) (l : Transceive) (b : Block) : Decidable (Unchecked emv l b) := by
  unfold Unchecked
  cases t1BlockType b.pcb <;> infer_instance

instance (emv : Bool) (l : Transceive) (b : Block) : Decidable (Futile emv l b) :=
  inferInstanceAs (Decidable (_ ∧ _ ∧ _))

instance (emv : Bool) (dad : UInt8) (w : Watch) :
    (r : Reply) → (w' : Watch) → Decidable (Checked emv dad w r w')
  | .block _, _ => inferInstanceAs (Decidable (_ → _ ∧ _))
  | .parity, _ | .failed, _ => inferInstanceAs (Decidable True)

/-! ## What an iteration does to the counters -/

/-- The effect of one iteration on `retries` and `resyncs`. -/
inductive Outcome (dad : UInt8) (l : Transceive) (r : Reply) (l' : Transceive) : Prop where
  | stopped (hresult : l'.result ≠ none) (hresyncs : l'.resyncs = l.resyncs)
  | restarted (hresyncs : l'.resyncs + 1 = l.resyncs) (hretries : l'.retries = 1)
  | resynced (hresponse : Resynced dad l r) (hresyncs : l'.resyncs = 3)
      (hretries : l'.retries = l.t1.retries)
  | progressed (hprogress : Progress dad l r l') (hresyncs : l'.resyncs = l.resyncs)
      (hretries : l'.retries = l.t1.retries)
  | spent (hresyncs : l'.resyncs = l.resyncs) (hpos : 0 < l'.retries)
      (hretries : l'.retries + 1 = l.retries)

section Counters

variable {emv : Bool} {dad : UInt8} {l : Transceive} {r : Reply}

theorem Outcome.resync {l₀ : Transceive} (h : l₀.resyncs = l.resyncs) :
    Outcome dad l r (l₀.resync dad) := by
  unfold Transceive.resync
  split
  · exact .stopped (by simp [failed]) h
  · refine .restarted ?_ rfl
    change l₀.resyncs - 1 + 1 = l.resyncs
    omega

theorem accept_outcome {b : Block} {l₀ : Transceive} (hresyncs : l₀.resyncs = l.resyncs)
    (hmax : l₀.t1.retries = l.t1.retries)
    (haccept : b.inf.length ≤ t1BufferSize - l₀.rbuf.length → PayloadAccepted dad l (.block b)) :
    Outcome dad l (.block b) (l₀.accept dad b) := by
  unfold accept
  split_ifs with hfull hlast
  · exact .stopped (by simp [failed]) hresyncs
  · exact .stopped (by simp [done]) hresyncs
  · -- a chained block that fits
    exact .progressed (.inr (.inl (haccept (by omega)))) hresyncs hmax

variable (hpos : 0 < l.retries)

include hpos

theorem tick_retries : l.tick.retries + 1 = l.retries := by
  have := decUInt_of_pos hpos
  unfold tick
  simp only []
  omega

theorem Outcome.reject {l₀ : Transceive} (hretries : l₀.retries = l.tick.retries)
    (hresyncs : l₀.resyncs = l.resyncs) (error : UInt8) :
    Outcome dad l r (l₀.reject dad error) := by
  have htick := tick_retries hpos
  unfold Transceive.reject
  split
  · -- no retry is left
    exact .resync hresyncs
  · apply Outcome.spent
    · exact hresyncs
    · change 0 < l₀.retries
      omega
    · change l₀.retries + 1 = l.retries
      omega

theorem Outcome.unchecked {l' : Transceive} (hlast : l.retries ≠ 1)
    (hretries : l'.retries = l.tick.retries) (hresyncs : l'.resyncs = l.resyncs) :
    Outcome dad l r l' := by
  have htick := tick_retries hpos
  exact .spent hresyncs (by omega) (by omega)

theorem sRequest_outcome {b : Block} (hlegal : Legal dad l b)
    (hkind : t1BlockType b.pcb = .sBlock) (hbit : bitSix b.pcb = false)
    (hchecked : Unchecked emv l b → l.retries ≠ 1) :
    Outcome dad l (.block b) (l.tick.sRequest dad b) := by
  -- a request of a wrong length is unchecked
  have hwrong : ((t1SType b.pcb = t1SResync ∧ b.inf.length ≠ 0) ∨
      (t1SType b.pcb = t1SAbort ∧ b.inf.length ≠ 0) ∨
      (t1SType b.pcb = t1SIfs ∧ b.inf.length ≠ 1)) → l.retries ≠ 1 := by
    intro h
    apply hchecked
    simp only [Unchecked, hkind]
    exact ⟨hbit, h⟩
  -- an answered request ends the iteration with a full count of retries
  have hanswer : ∀ l₀ : Transceive, l₀.resyncs = l.resyncs → l₀.t1.retries = l.t1.retries →
      Answerable b → ∀ tbuf, Outcome dad l (.block b) (l₀.answer dad b.pcb tbuf) := by
    intro l₀ hresyncs hretries hb tbuf
    exact .progressed (Or.inr (Or.inr (Or.inl ⟨hlegal, hkind, hb⟩)))
      (by simpa [answer, splendid] using hresyncs) (by simpa [answer, splendid] using hretries)
  unfold sRequest
  -- S(RESYNC), S(ABORT), S(IFS) and S(WTX) requests, in this order
  split_ifs with hresync hlen habort hlen hifs hlen hdata hzero hwtx hlen
  · exact .unchecked hpos (hwrong (.inl ⟨hresync, hlen⟩)) rfl rfl
  · exact .resync rfl
  · exact .unchecked hpos (hwrong (.inr (.inl ⟨habort, hlen⟩))) rfl rfl
  · exact hanswer _ rfl rfl ⟨hbit, .inl ⟨habort, not_not.mp hlen⟩⟩ _
  · exact .unchecked hpos (hwrong (.inr (.inr ⟨hifs, hlen⟩))) rfl rfl
  · exact .reject hpos rfl rfl _
  · exact .resync rfl
  · apply hanswer _ _ _ ⟨hbit, .inr (.inl ⟨hifs, not_not.mp hlen, hdata⟩)⟩ <;> rfl
  · exact .reject hpos rfl rfl _
  · apply hanswer _ _ _ ⟨hbit, .inr (.inr ⟨hwtx, not_not.mp hlen⟩)⟩ <;> rfl
  · exact .reject hpos rfl rfl _

theorem sBlock_outcome {b : Block} (hlegal : Legal dad l b)
    (hkind : t1BlockType b.pcb = .sBlock) (hchecked : Unchecked emv l b → l.retries ≠ 1) :
    Outcome dad l (.block b) (l.tick.sBlock dad b) := by
  unfold sBlock
  split_ifs with hresponse hother hbit
  · exact .resync rfl
  · -- ISO 7816-3 Rule 6.3
    have hresync : ResyncResponse dad l (.block b) :=
      ⟨hlegal, hkind, hresponse.1, not_not.mp hother⟩
    exact .resynced ⟨hresponse.2, hresync⟩ rfl rfl
  · exact .reject hpos rfl rfl _
  · exact sRequest_outcome hpos hlegal hkind (by simpa using hbit) hchecked

theorem takeI_outcome {b : Block} {l₀ : Transceive} (hretries : l₀.retries = l.tick.retries)
    (hresyncs : l₀.resyncs = l.resyncs) (hmax : l₀.t1.retries = l.t1.retries)
    (hmore : l₀.t1.more = true → l.retries ≠ 1)
    (haccept : l₀.t1.more = false → t1Seq b.pcb = l₀.t1.nr →
      b.inf.length ≤ t1BufferSize - l₀.rbuf.length → PayloadAccepted dad l (.block b)) :
    Outcome dad l (.block b) (l₀.takeI dad b) := by
  unfold takeI
  split_ifs with hchain hseq
  · exact .unchecked hpos (hmore hchain) hretries hresyncs
  · -- the number is wrong
    apply Outcome.reject hpos
    · exact hretries
    · exact hresyncs
  · -- the payload is taken
    apply accept_outcome
    · exact hresyncs
    · exact hmax
    · exact haccept (by simpa using hchain) (not_not.mp hseq)

theorem iBlock_outcome {b : Block} (hlegal : Legal dad l b)
    (hkind : t1BlockType b.pcb = .iBlock) (hchecked : Unchecked emv l b → l.retries ≠ 1) :
    Outcome dad l (.block b) (l.tick.iBlock dad b) := by
  have hmore : l.t1.more = true → l.retries ≠ 1 := by
    intro h
    apply hchecked
    simpa only [Unchecked, hkind] using h
  have haccept : l.t1.more = false → t1Seq b.pcb = l.t1.nr →
      b.inf.length ≤ t1BufferSize - l.rbuf.length → PayloadAccepted dad l (.block b) :=
    fun hchain hseq hfits => ⟨hlegal, hkind, hchain, hseq, hfits⟩
  unfold iBlock
  -- the acknowledgement touches none of the fields the rest of the case reads
  split
  · exact takeI_outcome hpos rfl rfl rfl hmore haccept
  · exact takeI_outcome hpos rfl rfl rfl hmore haccept

theorem sendNext_outcome {b : Block} {l₀ : Transceive} (hretries : l₀.retries = l.tick.retries)
    (hresyncs : l₀.resyncs = l.resyncs) (hmax : l₀.t1.retries = l.t1.retries)
    (hgood : t1IsError b.pcb = 0 → ¬ (emv = true ∧ l₀.avail.length = 0) → l.head < l₀.head) :
    Outcome dad l (.block b) (l₀.sendNext emv dad b) := by
  have htick := tick_retries hpos
  unfold sendNext
  simp only []
  -- nothing left to send, an error at the last retry, an error, and success
  split_ifs with hempty herror hzero
  · exact .resync hresyncs
  · exact .resync hresyncs
  · exact .spent hresyncs (by simp only [buildI_frame] at hzero ⊢; omega)
      (by simp only [buildI_frame]; omega)
  · exact .progressed (.inl (hgood (not_not.mp herror) hempty)) hresyncs hmax

theorem rBlock_outcome {b : Block} (hkind : t1BlockType b.pcb = .rBlock)
    (hfutile : ¬ Futile emv l b) (hchecked : Unchecked emv l b → l.retries ≠ 1) :
    Outcome dad l (.block b) (l.tick.rBlock emv dad b) := by
  unfold rBlock
  simp only [tick_frame]
  split_ifs with hform hseq hreceiving hprev hexhausted hnext
  · exact .reject hpos rfl rfl _
  · exact .reject hpos rfl rfl _
  · -- the retries are used up
    exact .resync rfl
  -- the four cases left are those of a block that passed the first two tests
  all_goals
    have horder : InOrder l b := by
      push Not at hform hseq
      refine ⟨hform.1, by simpa using hform.2, ?_⟩
      by_cases heq : t1Seq b.pcb = l.t1.ns
      · exact .inl heq
      · exact .inr (hseq heq)
  · -- with the EMV checks the block is sent again without a test
    have hlast : l.retries ≠ 1 := by
      intro hone
      have hzero : l.tick.retries = 0 := decUInt_eq_zero.mpr hone
      cases hemv : emv with
      | false => exact hexhausted ⟨hemv, hzero⟩
      | true =>
        refine hchecked ?_ hone
        simp only [Unchecked, hkind]
        exact ⟨hemv, horder, hreceiving, hprev⟩
    exact .unchecked hpos hlast rfl rfl
  · -- the answer to the first R-block in `RECEIVING` resets the retries
    refine absurd ⟨hkind, horder, ?_⟩ hfutile
    rw [if_pos hreceiving]
    exact hprev
  · -- an acknowledgement that does not move the head is futile
    refine sendNext_outcome hpos rfl rfl rfl fun herror havail => ?_
    have hle : l.head ≤ l.ctBufGet := by
      unfold ctBufGet
      split <;> omega
    refine Nat.lt_of_le_of_ne hle fun (heq : l.head = l.ctBufGet) => ?_
    refine hfutile ⟨hkind, horder, ?_⟩
    rw [if_neg hreceiving]
    refine ⟨herror, .inr heq.symm, ?_⟩
    have hsame : l.tick.acknowledge.avail = l.avail := by
      change l.snd.drop l.ctBufGet = l.snd.drop l.head
      rw [← heq]
    rwa [hsame] at havail
  · -- the block sent last is asked for again
    refine sendNext_outcome hpos rfl rfl rfl fun herror havail => ?_
    refine absurd ⟨hkind, horder, ?_⟩ hfutile
    rw [if_neg hreceiving]
    exact ⟨herror, .inl (not_not.mp hnext), havail⟩

/-- **All that an iteration does to the counters**, when the counter of retries is not zero at the
    top of the loop and the reply is none of those that break the bound. -/
theorem iterate_outcome
    (hchecked : ∀ b, r = .block b → Legal dad l b →
      ¬ Futile emv l b ∧ (Unchecked emv l b → l.retries ≠ 1)) :
    Outcome dad l r (l.iterate emv dad r) := by
  cases r with
  | parity => exact .reject hpos rfl rfl _
  | failed =>
    unfold iterate
    simp only []
    split
    · -- the card does not answer after an abort
      exact .stopped (by simp [failed]) rfl
    · exact .reject hpos rfl rfl _
  | block b =>
    change Outcome dad l _ (l.tick.received emv dad b)
    by_cases hlegal : Legal dad l b
    · obtain ⟨hfutile, hlast⟩ := hchecked b rfl hlegal
      have hlegal' : Legal dad l.tick b := hlegal
      rw [received_of_legal hlegal']
      cases hkind : t1BlockType b.pcb with
      | rBlock => exact rBlock_outcome hpos hkind hfutile hlast
      | iBlock => exact iBlock_outcome hpos hlegal hkind hlast
      | sBlock => exact sBlock_outcome hpos hlegal hkind hlast
    · -- a block that is not legal is rejected
      obtain ⟨error, herror⟩ : ∃ error, l.tick.received emv dad b = l.tick.reject dad error :=
        received_of_not_legal hlegal
      rw [herror]
      exact .reject hpos rfl rfl _

end Counters

theorem iterate_of_resynced {emv : Bool} {dad : UInt8} {l : Transceive} {r : Reply}
    (h : Resynced dad l r) :
    (l.iterate emv dad r).resyncs = 3 ∧ (l.iterate emv dad r).retries = l.t1.retries := by
  obtain ⟨hstate, hresponse⟩ := h
  cases r with
  | parity => exact hresponse.elim
  | failed => exact hresponse.elim
  | block b =>
    -- no test of the loop stops the response
    obtain ⟨hlegal, hkind, hbit, htype⟩ := hresponse
    have hlegal' : Legal dad l.tick b := hlegal
    have hlanded : l.iterate emv dad (.block b) = l.tick.resynced dad := by
      change l.tick.received emv dad b = _
      rw [received_of_legal hlegal', hkind]
      simp only [sBlock, hbit, hstate, htype, tick_frame, and_self, if_true, ne_eq, not_true,
        if_false]
    rw [hlanded]
    exact ⟨rfl, rfl⟩

/-! ## Runs -/

/-- The invariant of the two counters. `retries` pays for the idle exchanges still to come, and
    every attempt to resynchronise is paid for by `resyncs`. -/
structure Watch.Inv (w : Watch) : Prop where
  attempts_add : w.attempts + w.loop.resyncs = 3
  running : w.loop.result = none →
    0 < w.loop.retries ∧ w.idle + w.loop.retries ≤ w.loop.t1.retries

theorem watchCall_inv (dad : UInt8) (t : T1State) (snd : List UInt8) :
    (watchCall dad t snd).Inv := by
  have hpos := t.retries_pos
  unfold watchCall t1Transceive
  split
  · exact ⟨rfl, by simp⟩
  · exact ⟨rfl, fun _ => ⟨hpos, by simp [enter]⟩⟩

theorem watchStep_eq_some {emv : Bool} {dad : UInt8} {w w' : Watch} {r : Reply}
    (h : watchStep emv dad w r = some w') :
    w.loop.result = none ∧ w'.loop = w.loop.iterate emv dad r ∧
      (w'.idle = if Progress dad w.loop r w'.loop ∨ w'.loop.resyncs < w.loop.resyncs then 0
        else w.idle + 1) ∧
      w'.attempts = if Resynced dad w.loop r then 0
        else if w'.loop.resyncs < w.loop.resyncs then w.attempts + 1 else w.attempts := by
  unfold watchStep at h
  obtain ⟨l', hstep, rfl⟩ := Option.map_eq_some_iff.mp h
  obtain ⟨hrun, rfl⟩ := t1Step_eq_some.mp hstep
  exact ⟨hrun, rfl, rfl, rfl⟩

theorem Watch.Inv.step {emv : Bool} {dad : UInt8} {w w' : Watch} {r : Reply} (hw : w.Inv)
    (hstep : watchStep emv dad w r = some w') (hchecked : Checked emv dad w r w') : w'.Inv := by
  obtain ⟨hrun, hloop, hidle, hattempts⟩ := watchStep_eq_some hstep
  obtain ⟨hpos, hpaid⟩ := hw.running hrun
  have hadd := hw.attempts_add
  -- the number of retries of a call does not change
  have hmax := (iterate_sameCall emv dad w.loop r).2.1
  have hmax_pos := w'.loop.t1.retries_pos
  rw [← hloop] at hmax
  by_cases hresponse : Resynced dad w.loop r
  · -- a fresh start: no attempt, no idle exchange
    have hfresh : w'.loop.resyncs = 3 ∧ w'.loop.retries = w.loop.t1.retries := by
      rw [hloop]
      exact iterate_of_resynced hresponse
    rw [if_pos hresponse] at hattempts
    rw [if_pos (.inl (.inr (.inr (.inr hresponse))))] at hidle
    exact ⟨by omega, fun _ => ⟨by omega, by omega⟩⟩
  rw [if_neg hresponse] at hattempts
  have hout : Outcome dad w.loop r (w.loop.iterate emv dad r) := by
    apply iterate_outcome hpos
    rintro b rfl
    exact hchecked
  rw [← hloop] at hout
  cases hout with
  | stopped hresult hresyncs =>
    -- a call that has returned needs no retries
    rw [if_neg (by omega)] at hattempts
    exact ⟨by omega, fun h => absurd h hresult⟩
  | restarted hresyncs hretries =>
    -- one attempt more, paid for by `resyncs`
    rw [if_pos (by omega)] at hattempts
    rw [if_pos (.inr (by omega))] at hidle
    exact ⟨by omega, fun _ => ⟨by omega, by omega⟩⟩
  | resynced h => exact absurd h hresponse
  | progressed hprogress hresyncs hretries =>
    -- progress ends the row of idle exchanges
    rw [if_neg (by omega)] at hattempts
    rw [if_pos (.inl hprogress)] at hidle
    exact ⟨by omega, fun _ => ⟨by omega, by omega⟩⟩
  | spent hresyncs hleft hretries =>
    -- one idle exchange more, paid for by `retries`
    rw [if_neg (by omega)] at hattempts
    refine ⟨by omega, fun _ => ⟨hleft, ?_⟩⟩
    split at hidle <;> omega

theorem Watch.Inv.bounded {emv : Bool} {dad : UInt8} {w w' : Watch} {r : Reply} (hw : w.Inv)
    (hstep : watchStep emv dad w r = some w') (hchecked : Checked emv dad w r w') :
    Bounded w r w' := by
  obtain ⟨hrun, hloop, hidle, -⟩ := watchStep_eq_some hstep
  obtain ⟨hpos, hpaid⟩ := hw.running hrun
  have hmax : w'.loop.t1.retries = w.loop.t1.retries := by
    rw [hloop]
    exact (iterate_sameCall emv dad w.loop r).2.1
  -- every attempt was paid for
  have hw' := (hw.step hstep hchecked).attempts_add
  refine ⟨by omega, ?_, by omega⟩
  split at hidle <;> omega

/-- **Bounded futility**: in every run of `t1_transceive` in which no futile block arrives and no
    unchecked block arrives at the last retry, the retry counter does not wrap, at most
    `t1->retries` consecutive exchanges make no progress before a resynchronisation is started,
    and at most three resynchronisations are attempted before one succeeds. -/
theorem bounded_of_checked (emv : Bool) (dad : UInt8) (t : T1State) (snd : List UInt8)
    (rs : List Reply)
    (hrs : Along (watchStep emv dad) (Checked emv dad) (watchCall dad t snd) rs) :
    Along (watchStep emv dad) Bounded (watchCall dad t snd) rs := by
  apply along_of_along (I := Watch.Inv) _ _ (watchCall_inv dad t snd) hrs
  · intro w r w' hw hstep hchecked
    exact hw.step hstep hchecked
  · intro w r w' hw hstep hchecked
    exact hw.bounded hstep hchecked

def emptyIfsRequests : List Reply :=
  List.replicate 4 (.block (t1ComputeChecksum .lrc 0 0xC1 []))

/-- Three of them use up the retries without a resynchronisation, and with the fourth the counter
    wraps. -/
theorem emptyIfsRequests_unbounded :
    ¬ Along (watchStep false 0) Bounded (watchCall 0 (t1Init .lrc 32) [0x00])
      emptyIfsRequests := by
  decide +kernel

def slowCard : List Reply :=
  [.block (t1ComputeChecksum .lrc 0 0xC3 [0x01]), .parity,
    .block (t1ComputeChecksum .lrc 0 0x00 [0x90, 0x00])]

theorem bounded_slowCard :
    Along (watchStep false 0) Bounded (watchCall 0 (t1Init .lrc 32) [0x00]) slowCard := by
  apply bounded_of_checked
  decide +kernel

end NucKernel.SmartCard.T1
