import NucKernel.Library.ByteMemory
import NucKernel.SmartCard.T1.Transceive

/-!
# Sending a block again (`t1_build`, `t1_rebuild`)

`t1_build` remembers what it built: four bytes of every block in `previous_block`, and every I-block
in `previous_i_block`. `t1_rebuild` sends one of the two again and takes its length to be `LEN + 4`,
or 4. That is the length of a block with a one-byte checksum.

## Modelling

- the three buffers are functions, as `t1_build` copies four bytes more than a block has
- `ifsc` is a byte, as every value stored there is (`u8 IFSC` of the ATR, `sdata[DATA]`, 32)
-/

namespace NucKernel.SmartCard.T1

open NucKernel.Library

def Block.bytes (b : Block) : List UInt8 := b.body ++ b.edc

/-- `rc_bytes`, which `t1_set_checksum` keeps in step with the function -/
def Checksum.rcBytes : Checksum → ℕ
  | .lrc => 1
  | .crc => 2

theorem length_compute (c : Checksum) (data : List UInt8) :
    (c.compute data).length = c.rcBytes := by
  cases c <;> rfl

/-! ## The functions on bytes -/

/-- The fields of `t1_state_t` that the two functions use, and `sdata` -/
structure ByteState where
  ns : Bool
  nr : Bool
  ifsc : UInt8
  checksum : Checksum
  more : Bool
  previousBlock : ℕ → UInt8
  previousIBlock : ℕ → UInt8
  sdata : ℕ → UInt8

def numberPcb (s : ByteState) (pcb : UInt8) : UInt8 :=
  match t1BlockType pcb with
  | .rBlock =>
    -- use first error code
    (if t1IsError (s.previousBlock 1) ≠ 0 ∧ t1BlockType (s.previousBlock 1) = .rBlock then
      t1RBlock ||| t1IsError (s.previousBlock 1)
    else pcb) ||| s.nr.toUInt8 <<< 4
  | .iBlock => pcb ||| s.ns.toUInt8 <<< 6
  | .sBlock => pcb

/-- `t1_build`, with the length that it returns -/
def t1BuildBytes (dad : UInt8) (s : ByteState) (pcb : UInt8) (avail : List UInt8) :
    ByteState × ℕ :=
  let more := decide (s.ifsc.toNat < avail.length)
  let len := if more then s.ifsc.toNat else avail.length
  let pcb := if more then pcb ||| t1MoreBlocks else pcb
  let numbered := numberPcb s pcb
  let block := store (store s.sdata 0 [dad, numbered, UInt8.ofNat len]) 3 (avail.take len)
  -- `t1_compute_checksum`
  let edc := s.checksum.compute (load block 0 (len + 3))
  let block := store block (len + 3) edc
  let slen := len + 3 + edc.length
  ({ s with
      more := if t1BlockType pcb = .iBlock then more else s.more
      sdata := block
      previousBlock := store s.previousBlock 0 (load block 0 4)
      previousIBlock :=
        if t1BlockType numbered = .iBlock then
          store s.previousIBlock 0 (load block 0 (slen + 4))
        else s.previousIBlock }, slen)

/-- `t1_rebuild`, with the length that it returns -/
def t1RebuildBytes (s : ByteState) : ByteState × ℕ :=
  if t1BlockType (s.previousIBlock 1) = .iBlock then
    if t1Seq (s.previousIBlock 1) = t1Seq (s.sdata 1) then
      let n := (s.previousIBlock 2).toNat + 4
      ({ s with sdata := store s.sdata 0 (load s.previousIBlock 0 n) }, n)
    else ({ s with sdata := store s.sdata 0 (load s.previousBlock 0 4) }, 4)
  else if t1BlockType (s.previousBlock 1) = .rBlock then
    ({ s with sdata := store s.sdata 0 (load s.previousBlock 0 4) }, 4)
  else (s, 0)

/-! ## What `t1_build` leaves in the buffers -/

section Build

variable (dad : UInt8) (s : ByteState) (pcb : UInt8) (avail : List UInt8)

def builtPcb : UInt8 :=
  numberPcb s (if decide (s.ifsc.toNat < avail.length) then pcb ||| t1MoreBlocks else pcb)

def builtBlock : Block :=
  t1ComputeChecksum s.checksum dad (builtPcb s pcb avail) (avail.take s.ifsc.toNat)

theorem numberPcb_kind : t1BlockType (numberPcb s pcb) = t1BlockType pcb := by
  -- the number is outside the bits of the kind, which is checked for every byte
  have hI : ∀ ns : Bool, ∀ p : UInt8, t1BlockType p = .iBlock →
      t1BlockType (p ||| ns.toUInt8 <<< 6) = .iBlock := by
    intro ns
    apply forall_uint8
    cases ns <;> decide +kernel
  have hR : ∀ nr : Bool, ∀ p : UInt8, t1BlockType p = .rBlock →
      t1BlockType (p ||| nr.toUInt8 <<< 4) = .rBlock := by
    intro nr
    apply forall_uint8
    cases nr <;> decide +kernel
  unfold numberPcb
  cases hk : t1BlockType pcb with
  | iBlock => exact hI _ _ hk
  | sBlock => exact hk
  | rBlock =>
    refine hR _ _ ?_
    split
    · -- the error code of the block before is put in
      exact blockType_rBlock _
    · exact hk

theorem length_inf_builtBlock : (builtBlock dad s pcb avail).inf.length < 256 := by
  have := s.ifsc.toNat_lt
  simp only [builtBlock, t1ComputeChecksum, List.length_take]
  omega

theorem length_edc_builtBlock : (builtBlock dad s pcb avail).edc.length = s.checksum.rcBytes :=
  length_compute _ _

theorem Block.length_bytes (b : Block) : b.bytes.length = 3 + b.inf.length + b.edc.length := by
  simp only [Block.bytes, Block.body, List.length_append, List.length_cons]
  omega

theorem build_sdata :
    (t1BuildBytes dad s pcb avail).2 = (builtBlock dad s pcb avail).bytes.length ∧
      load (t1BuildBytes dad s pcb avail).1.sdata 0 (t1BuildBytes dad s pcb avail).2 =
        (builtBlock dad s pcb avail).bytes := by
  have hlen : (if decide (s.ifsc.toNat < avail.length) then s.ifsc.toNat else avail.length) =
      (avail.take s.ifsc.toNat).length := by
    rw [List.length_take]
    split <;> rename_i h <;> simp only [decide_eq_true_eq] at h <;> omega
  -- what is there is taken, up to `ifsc`
  have htake : avail.take (avail.take s.ifsc.toNat).length = avail.take s.ifsc.toNat := by
    rw [List.length_take, ← List.take_take, List.take_length]
  simp only [t1BuildBytes, hlen, htake]
  rw [← builtPcb, Nat.add_comm (avail.take s.ifsc.toNat).length]
  -- the prologue, the information field and the checksum are copied one after the other
  have hhead := load_store s.sdata 0
    [dad, builtPcb s pcb avail, UInt8.ofNat (avail.take s.ifsc.toNat).length]
  have hbody := load_store_append hhead (avail.take s.ifsc.toNat)
  have hblock := load_store_append hbody (builtBlock dad s pcb avail).edc
  simp only [List.length_cons, List.length_nil, Nat.zero_add, Nat.reduceAdd] at hbody hblock
  rw [hbody]
  refine ⟨?_, hblock⟩
  rw [Block.length_bytes]
  rfl

theorem build_memories :
    load (t1BuildBytes dad s pcb avail).1.previousBlock 0 4 =
        (builtBlock dad s pcb avail).bytes.take 4 ∧
      (if t1BlockType (builtPcb s pcb avail) = .iBlock then
        load (t1BuildBytes dad s pcb avail).1.previousIBlock 0
            (builtBlock dad s pcb avail).bytes.length = (builtBlock dad s pcb avail).bytes
      else (t1BuildBytes dad s pcb avail).1.previousIBlock = s.previousIBlock) := by
  obtain ⟨hslen, hbytes⟩ := build_sdata dad s pcb avail
  -- every block has four bytes
  have hfour : 4 ≤ (builtBlock dad s pcb avail).bytes.length := by
    have : 0 < s.checksum.rcBytes := by cases s.checksum <;> decide
    rw [Block.length_bytes, length_edc_builtBlock]
    omega
  constructor
  · -- the first four bytes are copied
    change load (store _ 0 (load (t1BuildBytes dad s pcb avail).1.sdata 0 4)) 0 4 = _
    rw [load_store_of_le (by simp), take_load _ _ (Nat.le_refl 4), ← hbytes,
      take_load _ _ (by omega)]
  · split
    · rename_i hkind
      -- an I-block is copied as a whole
      have hcopy : (t1BuildBytes dad s pcb avail).1.previousIBlock =
          store s.previousIBlock 0 (load (t1BuildBytes dad s pcb avail).1.sdata 0
            ((t1BuildBytes dad s pcb avail).2 + 4)) := if_pos hkind
      rw [hcopy, load_store_of_le (by rw [length_load]; omega), take_load _ _ (by omega), ← hslen,
        hbytes]
    · -- another block leaves the memory as it is
      rename_i hkind
      exact if_neg hkind

end Build

/-! ## A remembered block -/

/-- The memory has the first `n` bytes of the block, and so its prologue. -/
theorem prologue_of_load {m : ℕ → UInt8} {b : Block} {n : ℕ} (hn : 3 ≤ n)
    (h : load m 0 n = b.bytes.take n) : m 1 = b.pcb ∧ m 2 = UInt8.ofNat b.inf.length := by
  have hread : ∀ i < 3, some (m i) = b.bytes[i]? := by
    intro i hi
    have hload : (load m 0 n)[i]? = some (m (0 + i)) := getElem?_load (by omega)
    rw [Nat.zero_add, h, List.getElem?_take, if_pos (by omega)] at hload
    exact hload.symm
  exact ⟨Option.some.inj (hread 1 (by decide)), Option.some.inj (hread 2 (by decide))⟩

def ByteState.asksIBlock (s : ByteState) : Prop :=
  t1BlockType (s.previousIBlock 1) = .iBlock ∧ t1Seq (s.previousIBlock 1) = t1Seq (s.sdata 1)

instance (s : ByteState) : Decidable s.asksIBlock := inferInstanceAs (Decidable (_ ∧ _))

theorem rebuild_iBlock {s : ByteState} (h : s.asksIBlock) :
    (t1RebuildBytes s).2 = (s.previousIBlock 2).toNat + 4 ∧
      load (t1RebuildBytes s).1.sdata 0 (t1RebuildBytes s).2 =
        load s.previousIBlock 0 (t1RebuildBytes s).2 := by
  rw [t1RebuildBytes, if_pos h.1, if_pos h.2]
  refine ⟨rfl, ?_⟩
  have hcopy := load_store s.sdata 0 (load s.previousIBlock 0 ((s.previousIBlock 2).toNat + 4))
  rwa [length_load] at hcopy

theorem rebuild_rBlock {s : ByteState} (h : ¬ s.asksIBlock)
    (hR : t1BlockType (s.previousIBlock 1) = .iBlock ∨ t1BlockType (s.previousBlock 1) = .rBlock) :
    (t1RebuildBytes s).2 = 4 ∧
      load (t1RebuildBytes s).1.sdata 0 (t1RebuildBytes s).2 = load s.previousBlock 0 4 := by
  have hresult : t1RebuildBytes s =
      ({ s with sdata := store s.sdata 0 (load s.previousBlock 0 4) }, 4) := by
    unfold t1RebuildBytes
    -- the last block is taken in both cases that are left
    split_ifs with hI hseq hR'
    · exact absurd ⟨hI, hseq⟩ h
    · rfl
    · rfl
    · exact absurd hR (not_or.mpr ⟨hI, hR'⟩)
  rw [hresult]
  refine ⟨rfl, ?_⟩
  have hcopy := load_store s.sdata 0 (load s.previousBlock 0 4)
  rwa [length_load] at hcopy

/-! ## The functions on blocks -/

/-- The memories hold the blocks that `T1State` keeps. -/
structure Represents (s : ByteState) (t : T1State) : Prop where
  ns : s.ns = t.ns
  nr : s.nr = t.nr
  ifsc : s.ifsc = t.ifsc
  checksum : s.checksum = t.checksum
  more : s.more = t.more
  last : load s.previousBlock 0 4 = t.previousBlock.bytes.take 4
  lastI : load s.previousIBlock 0 t.previousIBlock.bytes.length = t.previousIBlock.bytes
  lenI : t.previousIBlock.inf.length < 256
  edcI : 0 < t.previousIBlock.edc.length

theorem Represents.builtPcb_kind {s : ByteState} (pcb : UInt8) (avail : List UInt8) :
    t1BlockType (builtPcb s pcb avail) =
      t1BlockType (if decide (s.ifsc.toNat < avail.length) then pcb ||| t1MoreBlocks else pcb) :=
  numberPcb_kind _ _

theorem build_represents {s : ByteState} {t : T1State} (h : Represents s t) (dad pcb : UInt8)
    (avail : List UInt8) :
    Represents (t1BuildBytes dad s pcb avail).1 (t1Build dad t pcb avail).1 ∧
      (t1Build dad t pcb avail).2 = builtBlock dad s pcb avail := by
  have hprev : s.previousBlock 1 = t.previousBlock.pcb :=
    (prologue_of_load (by decide) h.last).1
  -- the two build the same block
  have hblock : (t1Build dad t pcb avail).2 = builtBlock dad s pcb avail := by
    symm
    simp only [builtBlock, builtPcb, numberPcb, hprev, h.ns, h.nr, h.ifsc, h.checksum]
    rfl
  obtain ⟨hlast, hlastI⟩ := build_memories dad s pcb avail
  rw [Represents.builtPcb_kind, h.ifsc] at hlastI
  have hmore : (t1BuildBytes dad s pcb avail).1.more = (t1Build dad t pcb avail).1.more := by
    simp only [t1BuildBytes, t1Build, h.ifsc, h.more]
  have hprevious : (t1Build dad t pcb avail).1.previousIBlock =
      if t1BlockType (if decide (t.ifsc.toNat < avail.length) then pcb ||| t1MoreBlocks else pcb) =
        .iBlock then builtBlock dad s pcb avail else t.previousIBlock := by
    rw [← hblock]
    rfl
  generalize t1BlockType (if decide (t.ifsc.toNat < avail.length) then pcb ||| t1MoreBlocks
    else pcb) = kind at hlastI hprevious
  refine ⟨⟨h.ns, h.nr, h.ifsc, h.checksum, hmore, ?_, ?_, ?_, ?_⟩, hblock⟩
  · -- the first four bytes
    rw [hlast, ← hblock]
    rfl
  · rw [hprevious]
    -- a new I-block is remembered, and otherwise the old one
    split at hlastI
    · rename_i hkind
      rw [if_pos hkind, hlastI]
    · rename_i hkind
      rw [if_neg hkind, hlastI, h.lastI]
  · rw [hprevious]
    split
    · exact length_inf_builtBlock dad s pcb avail
    · exact h.lenI
  · rw [hprevious]
    split
    · rw [length_edc_builtBlock]
      cases s.checksum <;> decide
    · exact h.edcI

theorem rebuild_represents {s : ByteState} {t : T1State} (h : Represents s t) {sdata : Block}
    (hpcb : s.sdata 1 = sdata.pcb) :
    (t1RebuildBytes s).2 = (t1Rebuild t sdata).2 ∧
      load (t1RebuildBytes s).1.sdata 0 (t1RebuildBytes s).2 =
        (t1Rebuild t sdata).1.bytes.take (t1Rebuild t sdata).2 := by
  have hfull : load s.previousIBlock 0 t.previousIBlock.bytes.length =
      t.previousIBlock.bytes.take t.previousIBlock.bytes.length := by
    rw [h.lastI, List.take_length]
  have hlenI := Block.length_bytes t.previousIBlock
  have hedc := h.edcI
  -- PCB and LEN can be read from the memories
  obtain ⟨hpcbI, hlen⟩ := prologue_of_load (by omega) hfull
  obtain ⟨hpcbR, -⟩ := prologue_of_load (by decide) h.last
  have hasks : s.asksIBlock ↔ t1BlockType t.previousIBlock.pcb = .iBlock ∧
      t1Seq t.previousIBlock.pcb = t1Seq sdata.pcb := by
    rw [ByteState.asksIBlock, hpcbI, hpcb]
  unfold t1Rebuild
  split_ifs with hI hseq hR
  · -- the last I-block is sent again
    obtain ⟨hn, hcopy⟩ := rebuild_iBlock (hasks.mpr ⟨hI, hseq⟩)
    have hn' : (t1RebuildBytes s).2 = t.previousIBlock.inf.length + 4 := by
      rw [hn, hlen, UInt8.toNat_ofNat', Nat.mod_eq_of_lt h.lenI]
    refine ⟨hn', ?_⟩
    rw [hcopy, hn', ← h.lastI, take_load _ _ (by omega)]
  · -- the last block is sent again
    obtain ⟨hn, hcopy⟩ := rebuild_rBlock (fun hask => hseq (hasks.mp hask).2)
      (Or.inl (hpcbI ▸ hI))
    exact ⟨hn, hcopy.trans h.last⟩
  · obtain ⟨hn, hcopy⟩ := rebuild_rBlock (fun hask => hI (hasks.mp hask).1)
      (Or.inr (hpcbR ▸ hR))
    exact ⟨hn, hcopy.trans h.last⟩
  · -- nothing is remembered that could be sent
    have hnone : t1RebuildBytes s = (s, 0) := by
      rw [t1RebuildBytes, if_neg (hpcbI ▸ hI), if_neg (hpcbR ▸ hR)]
    rw [hnone]
    exact ⟨rfl, rfl⟩

/-- A block is built, or one is sent again for the request in `sdata`. -/
inductive Send where
  | build (pcb : UInt8) (avail : List UInt8)
  | again (request : Block)

def sendBytes (dad : UInt8) (s : ByteState) : Send → ByteState × List UInt8
  | .build pcb avail =>
    let r := t1BuildBytes dad s pcb avail
    (r.1, load r.1.sdata 0 r.2)
  | .again request =>
    let r := t1RebuildBytes { s with sdata := store s.sdata 0 request.bytes }
    (r.1, load r.1.sdata 0 r.2)

def sendBlock (dad : UInt8) (t : T1State) : Send → T1State × List UInt8
  | .build pcb avail =>
    let r := t1Build dad t pcb avail
    (r.1, r.2.bytes)
  | .again request =>
    let r := t1Rebuild t request
    (t, r.1.bytes.take r.2)

def sent {σ : Type} (send : σ → Send → σ × List UInt8) (s : σ) : List Send → List (List UInt8)
  | [] => []
  | x :: xs => (send s x).2 :: sent send (send s x).1 xs

theorem Represents.send {s : ByteState} {t : T1State} (h : Represents s t) (dad : UInt8)
    (x : Send) :
    Represents (sendBytes dad s x).1 (sendBlock dad t x).1 ∧
      (sendBytes dad s x).2 = (sendBlock dad t x).2 := by
  cases x with
  | build pcb avail =>
    obtain ⟨hnext, hblock⟩ := build_represents h dad pcb avail
    refine ⟨hnext, (build_sdata dad s pcb avail).2.trans ?_⟩
    rw [← hblock]
    rfl
  | again request =>
    -- the request is stored in `sdata` only
    have hasked : Represents { s with sdata := store s.sdata 0 request.bytes } t :=
      ⟨h.ns, h.nr, h.ifsc, h.checksum, h.more, h.last, h.lastI, h.lenI, h.edcI⟩
    have hpcb : store s.sdata 0 request.bytes 1 = request.pcb := rfl
    -- the memories are not changed
    have hframe : ∀ s : ByteState, Represents s t → Represents (t1RebuildBytes s).1 t := by
      intro s h
      unfold t1RebuildBytes
      split_ifs <;> exact ⟨h.ns, h.nr, h.ifsc, h.checksum, h.more, h.last, h.lastI, h.lenI, h.edcI⟩
    exact ⟨hframe _ hasked, (rebuild_represents hasked hpcb).2⟩

/-- **Refinement**: over any sequence of blocks that are built and sent again, `t1_build` and
    `t1_rebuild` send the same bytes as the functions on blocks. -/
theorem sent_eq {s : ByteState} {t : T1State} (h : Represents s t) (dad : UInt8) (xs : List Send) :
    sent (sendBytes dad) s xs = sent (sendBlock dad) t xs := by
  induction xs generalizing s t with
  | nil => rfl
  | cons x xs ih =>
    obtain ⟨hnext, hsent⟩ := h.send dad x
    rw [sent, sent, hsent, ih hnext]

theorem sent_eq_twice :
    sent (sendBytes 0) ⟨false, false, 32, .lrc, false, fun _ => 0, fun _ => 0, fun _ => 0⟩
      [.build t1IBlock [0x11], .again ⟨0, 0x80, [], [0x80]⟩] =
    [[0x00, 0x00, 0x01, 0x11, 0x10], [0x00, 0x00, 0x01, 0x11, 0x10]] :=
  have h : Represents _ (t1Init .lrc 32) :=
    ⟨rfl, rfl, rfl, rfl, rfl, rfl, rfl, by decide, by decide⟩
  (sent_eq h 0 _).trans (by decide +kernel)

/-! ## Runs -/

structure Built where
  block : List UInt8
  checksum : Checksum
  deriving DecidableEq

/-- The bytes, with a record of the last block and of the last I-block that were built. The record
    of the last block ends when `previous_block` is changed otherwise. -/
structure BlockLog where
  state : ByteState
  last : Option Built
  lastI : Option Built

inductive BlockOp where
  /-- `t1_build` -/
  | build (dad pcb : UInt8) (avail : List UInt8)
  /-- `t1_rebuild` -/
  | rebuild
  /-- `t1_xcv` copies a reply to `sdata`. -/
  | receive (reply : List UInt8)
  /-- Other fields of the state are set. -/
  | configure (ns nr more : Bool) (ifsc : UInt8) (checksum : Checksum)
  /-- `t1_transceive` zeroes `previous_block` when it starts. -/
  | enter
  /-- An error stored in `previous_block` is cleared. -/
  | clearPcb

def BlockLog.step (x : BlockLog) : BlockOp → Option BlockLog
  | .build dad pcb avail =>
    -- an R-block is built without a buffer, everywhere in the driver
    if t1BlockType pcb = .rBlock ∧ avail ≠ [] then none
    else
      let r := t1BuildBytes dad x.state pcb avail
      let built := ⟨load r.1.sdata 0 r.2, x.state.checksum⟩
      some ⟨r.1, some built,
        if t1BlockType (r.1.sdata 1) = .iBlock then some built else x.lastI⟩
  | .rebuild => some { x with state := (t1RebuildBytes x.state).1 }
  | .receive reply =>
    some { x with state := { x.state with sdata := store x.state.sdata 0 reply } }
  | .configure ns nr more ifsc checksum =>
    some { x with state := { x.state with ns, nr, more, ifsc, checksum } }
  | .enter =>
    some { x with
      state := { x.state with previousBlock := store x.state.previousBlock 0 [0, 0, 0, 0] }
      last := none }
  | .clearPcb =>
    some { x with
      state := { x.state with previousBlock := store x.state.previousBlock 1 [0] }
      last := none }

/-- The block that `t1_rebuild` chooses to send again: the last I-block if the request has its
    sequence number, else the last block if it is an R-block -/
def BlockLog.resent (x : BlockLog) : Option Built :=
  if x.state.asksIBlock then x.lastI
  else x.last.filter fun b => t1BlockType (b.block.getD 1 0) = .rBlock

def Built.Of (b : Built) (blk : Block) : Prop :=
  b.block = blk.bytes ∧ blk.inf.length < 256 ∧ blk.edc.length = b.checksum.rcBytes ∧
    (t1BlockType blk.pcb = .rBlock → blk.inf = [])

structure BlockLog.Inv (x : BlockLog) : Prop where
  last : ∀ b, x.last = some b → ∃ blk, b.Of blk ∧
    load x.state.previousBlock 0 4 = blk.bytes.take 4
  lastI : ∀ b, x.lastI = some b → ∃ blk, b.Of blk ∧
    load x.state.previousIBlock 0 blk.bytes.length = blk.bytes

section Runs

variable {x : BlockLog} {b : Built}

theorem built_of (s : ByteState) (dad pcb : UInt8) (avail : List UInt8)
    (hcall : ¬ (t1BlockType pcb = .rBlock ∧ avail ≠ [])) :
    Built.Of ⟨load (t1BuildBytes dad s pcb avail).1.sdata 0 (t1BuildBytes dad s pcb avail).2,
      s.checksum⟩ (builtBlock dad s pcb avail) := by
  refine ⟨(build_sdata dad s pcb avail).2, length_inf_builtBlock dad s pcb avail,
    length_edc_builtBlock dad s pcb avail, fun hR => ?_⟩
  have hkind : t1BlockType (builtPcb s pcb avail) = .rBlock := hR
  rw [Represents.builtPcb_kind] at hkind
  split at hkind
  · -- the chaining bit is outside the kind
    have hmore : ∀ p : UInt8, t1BlockType (p ||| t1MoreBlocks) = .rBlock →
        t1BlockType p = .rBlock := by
      apply forall_uint8
      decide +kernel
    have hempty : avail = [] := not_not.mp fun hne => hcall ⟨hmore _ hkind, hne⟩
    rw [builtBlock, t1ComputeChecksum, hempty]
    exact List.take_nil
  · have hempty : avail = [] := not_not.mp fun hne => hcall ⟨hkind, hne⟩
    rw [builtBlock, t1ComputeChecksum, hempty]
    exact List.take_nil

theorem sdata_pcb (s : ByteState) (dad pcb : UInt8) (avail : List UInt8) :
    (t1BuildBytes dad s pcb avail).1.sdata 1 = builtPcb s pcb avail := by
  obtain ⟨hslen, hbytes⟩ := build_sdata dad s pcb avail
  have hlen := Block.length_bytes (builtBlock dad s pcb avail)
  have hfull : load (t1BuildBytes dad s pcb avail).1.sdata 0 (t1BuildBytes dad s pcb avail).2 =
      (builtBlock dad s pcb avail).bytes.take (t1BuildBytes dad s pcb avail).2 := by
    rw [hbytes, hslen, List.take_length]
  exact (prologue_of_load (by omega) hfull).1

theorem BlockLog.Inv.step {op : BlockOp} {x' : BlockLog} (h : x.Inv) (hstep : x.step op = some x') :
    x'.Inv := by
  cases op with
  | build dad pcb avail =>
    obtain ⟨hcall, hsome⟩ := Option.ite_none_left_eq_some.mp hstep
    cases hsome
    obtain ⟨hlast, hlastI⟩ := build_memories dad x.state pcb avail
    have hof := built_of x.state dad pcb avail hcall
    refine ⟨fun b hb => ?_, fun b hb => ?_⟩
    · -- the new block is the last one
      cases hb
      exact ⟨_, hof, hlast⟩
    · simp only [sdata_pcb] at hb
      split at hb
      · rename_i hkind
        rw [if_pos hkind] at hlastI
        cases hb
        exact ⟨_, hof, hlastI⟩
      · -- the last I-block is still the old one
        rename_i hkind
        rw [if_neg hkind] at hlastI
        obtain ⟨blk, hblk, hload⟩ := h.lastI b hb
        exact ⟨blk, hblk, by simp only [hlastI, hload]⟩
  | rebuild =>
    cases hstep
    -- only `sdata` is changed
    have hframe : (t1RebuildBytes x.state).1.previousBlock = x.state.previousBlock ∧
        (t1RebuildBytes x.state).1.previousIBlock = x.state.previousIBlock := by
      unfold t1RebuildBytes
      split_ifs <;> exact ⟨rfl, rfl⟩
    refine ⟨fun b hb => ?_, fun b hb => ?_⟩
    · simp only [hframe.1]
      exact h.last b hb
    · simp only [hframe.2]
      exact h.lastI b hb
  | receive reply =>
    cases hstep
    exact ⟨h.last, h.lastI⟩
  | configure ns nr more ifsc checksum =>
    cases hstep
    exact ⟨h.last, h.lastI⟩
  | enter =>
    cases hstep
    -- the record of the last block ends
    exact ⟨nofun, h.lastI⟩
  | clearPcb =>
    cases hstep
    exact ⟨nofun, h.lastI⟩

theorem load_eq_bytes_iff {m : ℕ → UInt8} {blk : Block} {n k : ℕ} (hn : n ≤ k)
    (hload : load m 0 k = blk.bytes.take k) :
    (n = blk.bytes.length ∧ load m 0 n = blk.bytes) ↔ n = blk.bytes.length := by
  refine ⟨fun h => h.1, fun h => ⟨h, ?_⟩⟩
  rw [← take_load m 0 hn, hload, List.take_take, Nat.min_eq_left hn, h, List.take_length]

theorem Built.Of.length_iff {blk : Block} (h : b.Of blk) :
    blk.inf.length + 4 = blk.bytes.length ↔ b.checksum = .lrc := by
  obtain ⟨-, -, hedc, -⟩ := h
  rw [Block.length_bytes, hedc]
  cases b.checksum with
  | lrc => simp only [Checksum.rcBytes, iff_true]; omega
  | crc => simp only [Checksum.rcBytes, reduceCtorEq, iff_false]; omega

end Runs

/-- After every run, the block that `t1_rebuild` chooses is sent again with its length and its
    bytes, the whole checksum included, if and only if it was built with the LRC. -/
theorem retransmitted_iff (s₀ : ByteState) (ops : List BlockOp) (x : BlockLog) (b : Built)
    (hrun : runFrom BlockLog.step ⟨s₀, none, none⟩ ops = some x) (hb : x.resent = some b) :
    ((t1RebuildBytes x.state).2 = b.block.length ∧
      load (t1RebuildBytes x.state).1.sdata 0 (t1RebuildBytes x.state).2 = b.block) ↔
        b.checksum = .lrc := by
  have hinv : x.Inv := Reaches.inv (fun _ _ _ h hs => h.step hs) ⟨ops, hrun⟩ ⟨nofun, nofun⟩
  unfold BlockLog.resent at hb
  split at hb
  · -- the I-block: its length is taken from the byte LEN
    rename_i hasks
    obtain ⟨blk, hof, hload⟩ := hinv.lastI b hb
    obtain ⟨hblock, hlt, -, -⟩ := id hof
    obtain ⟨hn, hcopy⟩ := rebuild_iBlock hasks
    have hlen := Block.length_bytes blk
    have hfull : load x.state.previousIBlock 0 blk.bytes.length =
        blk.bytes.take blk.bytes.length := by rw [hload, List.take_length]
    obtain ⟨-, hbyte⟩ := prologue_of_load (by omega) hfull
    -- LEN is the length of the information
    rw [hbyte, UInt8.toNat_ofNat', Nat.mod_eq_of_lt hlt] at hn
    rw [hcopy, hn, hblock, ← hof.length_iff]
    refine ⟨fun h => h.1, fun h => ⟨h, ?_⟩⟩
    rw [h, hload]
  · -- the R-block: four bytes
    rename_i hasks
    obtain ⟨hlast, hR⟩ := Option.filter_eq_some_iff.mp hb
    obtain ⟨blk, hof, hload⟩ := hinv.last b hlast
    obtain ⟨hblock, -, -, hempty⟩ := id hof
    -- an R-block has no information
    have hpcb : t1BlockType blk.pcb = .rBlock := by
      rw [hblock] at hR
      exact of_decide_eq_true hR
    have hprev : t1BlockType (x.state.previousBlock 1) = .rBlock := by
      rw [(prologue_of_load (by decide) hload).1]
      exact hpcb
    obtain ⟨hn, hcopy⟩ := rebuild_rBlock hasks (Or.inr hprev)
    have hlength := hof.length_iff
    rw [hempty hpcb, List.length_nil, Nat.zero_add] at hlength
    rw [hcopy, hn, hblock, load_eq_bytes_iff (Nat.le_refl 4) hload]
    exact hlength

def freshBytes (checksum : Checksum) : ByteState :=
  ⟨false, false, 32, checksum, false, fun _ => 0, fun _ => 0, fun _ => 0⟩

def askedAgain (checksum : Checksum) : List BlockOp :=
  [.build 0 t1IBlock [0x11], .receive ([0x00, 0x80, 0x00] ++ checksum.compute [0x00, 0x80, 0x00])]

theorem retransmitted_lrc :
    ∃ x b, runFrom BlockLog.step ⟨freshBytes .lrc, none, none⟩ (askedAgain .lrc) = some x ∧
      x.resent = some b ∧ b = ⟨[0x00, 0x00, 0x01, 0x11, 0x10], .lrc⟩ ∧
      ((t1RebuildBytes x.state).2 = b.block.length ∧
        load (t1RebuildBytes x.state).1.sdata 0 (t1RebuildBytes x.state).2 = b.block) := by
  refine ⟨_, ⟨[0x00, 0x00, 0x01, 0x11, 0x10], .lrc⟩, rfl, by decide +kernel, rfl, ?_⟩
  exact (retransmitted_iff (freshBytes .lrc) (askedAgain .lrc) _ _ rfl (by decide +kernel)).mpr rfl

/-- With the CRC the block has six bytes, and five of them are sent again. -/
theorem crc_block_cut :
    (runFrom BlockLog.step ⟨freshBytes .crc, none, none⟩ (askedAgain .crc)).map (fun x =>
      (x.resent, (t1RebuildBytes x.state).2,
        load (t1RebuildBytes x.state).1.sdata 0 (t1RebuildBytes x.state).2)) =
    some (some ⟨[0x00, 0x00, 0x01, 0x11, 0x1B, 0xF1], .crc⟩, 5,
      [0x00, 0x00, 0x01, 0x11, 0x1B]) := by
  decide +kernel

end NucKernel.SmartCard.T1
