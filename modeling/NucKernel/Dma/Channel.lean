import Mathlib.Data.List.Perm.Basic
import Mathlib.Data.List.Rotate
import NucKernel.Library.Runs

/-!
# A channel of the GDMA controller (`nuc970_dma.c`)

A channel owns up to 32 descriptors. A prep function takes descriptors from `free_list` and links
them to a chain; `tx_submit` makes a chain active or queues it; the tasklet gives the descriptors
of the active chain back and starts the next one.

## Modelling

- The `tx_list` of a descriptor is empty unless the descriptor is the first of a prepared or queued
  chain: `nuc970_dma_set_active` and `nuc970_dma_desc_put` empty it. A chain is a value with its
  first descriptor and its `tx_list`.
- Operations on one channel follow each other; each runs to its end.
- An operation whose result is `none` stops the kernel: a chain without a descriptor is
  dereferenced, or a `BUG_ON` is met. Lengths of 0 are the only ones without a descriptor. The
  `BUG_ON` of `dma_cookie_complete` is met whenever a chain of two or more descriptors is completed
  that is not cyclic: the list is rotated to a descriptor without a cookie.
- Offsets do not wrap: no loop gets beyond 32 pieces of at most `DMA_MAX_CHAN_BYTES`.
- `GDMA_CTL` reads back as it was written; the enable bit, which the engine clears, is not read.
- The first cookie (`DMA_MIN_COOKIE`) is 1 and `EBUSY` is 16, as in headers outside the tree.
-/

namespace NucKernel.Dma

open NucKernel.Library

/-! ## Descriptors and the state of a channel -/

def dmaMaxChanBytes : ℕ := 0xffffff

def dmaMinCookie : Int32 := 1

/-- `struct nuc970_dma_desc`, with the fields of `txd` that the driver uses -/
structure Desc where
  srcAddr : BitVec 32
  dstAddr : BitVec 32
  size : ℕ
  complete : Bool
  cookie : Int32
  /-- `DMA_CTRL_ACK` is set in `txd.flags`. -/
  ack : Bool
  callback : Option ℕ

/-- The first descriptor of a transaction and its `tx_list` -/
structure Chain where
  first : ℕ
  txList : List ℕ
deriving DecidableEq

def Chain.descs (c : Chain) : List ℕ := c.first :: c.txList

/-- What the driver does to the outside -/
inductive Action
  /-- Source, destination and count of a descriptor are written to the registers. -/
  | program (d : ℕ) (src dst : BitVec 32) (tcnt : ℕ)
  /-- The engine is started. -/
  | start
  /-- A cookie is completed. -/
  | complete (cookie : Int32)
  | callback (param : ℕ)
deriving DecidableEq

/-- `struct nuc970_dma_chan`; `prepared` has the chains that clients hold. -/
structure Chan where
  desc : ℕ → Desc
  active : List ℕ
  queue : List Chain
  freeList : List ℕ
  /-- `NUC970_DMA_IS_CYCLIC` -/
  cyclic : Bool
  cookie : Int32
  completedCookie : Int32
  runtimeAddr : BitVec 32
  runtimeCtrl : BitVec 32
  /-- `GDMA_CTL` -/
  ctl : BitVec 32
  prepared : List Chain
  trace : List Action

namespace Chan

/-- `nuc970_dma_alloc_chan_resources`, when `n` descriptors could be allocated -/
def alloc (n : ℕ) : Chan where
  desc _ := ⟨0, 0, 0, false, 0, true, none⟩
  active := []
  queue := []
  freeList := (List.range n).reverse
  cyclic := false
  cookie := dmaMinCookie
  completedCookie := dmaMinCookie
  runtimeAddr := 0
  runtimeCtrl := 0
  ctl := 0
  prepared := []
  trace := []

def setDesc (s : Chan) (d : ℕ) (desc : Desc) : Chan :=
  { s with desc := Function.update s.desc d desc }

/-! ## The registers -/

def twsMsk : BitVec 32 := 0x3000#32

def bme : BitVec 32 := 0x2#32

/-- The value for `GDMA_TCNT` -/
def transferCount (ctl : BitVec 32) (size : ℕ) : ℕ :=
  let tcnt := match ((ctl &&& twsMsk) >>> 12).toNat with
    | 1 => size >>> 1
    | 2 => size >>> 2
    | _ => size
  if ctl &&& bme ≠ 0 then tcnt >>> 3 else tcnt

def programOf (s : Chan) (ctl : BitVec 32) (d : ℕ) : Action :=
  .program d (s.desc d).srcAddr (s.desc d).dstAddr (transferCount ctl (s.desc d).size)

/-- The width of the transfer, put into `GDMA_CTL` before every count -/
def ctlFor (s : Chan) : BitVec 32 := (s.ctl &&& ~~~twsMsk) ||| s.runtimeCtrl

def m2mFillDesc (s : Chan) : Chan :=
  match s.active with
  | [] => s
  | d :: _ => { s with ctl := s.ctlFor, trace := s.trace ++ [s.programOf s.ctlFor d] }

/-- `nuc970_dma_advance_active` -/
def advanceActive (s : Chan) : Bool × Chan :=
  let s := { s with active := s.active.rotate 1 }
  if s.cyclic then (true, s)
  else match s.active with
    | [] => (false, s)
    -- a cookie that is set belongs to the first descriptor of the chain
    | d :: _ => (decide ((s.desc d).cookie = 0), s)

def m2mHwSubmit (s : Chan) : Chan :=
  let (more, s) := s.m2mFillDesc.advanceActive
  let s := if more then s.m2mFillDesc else s
  { s with ctl := s.ctl ||| 0x10001#32, trace := s.trace ++ [.start] }

/-! ## Lists of descriptors -/

/-- `nuc970_dma_set_active` -/
def setActive (s : Chan) (c : Chain) : Chan :=
  { s with
    desc := fun d =>
      if d ∈ c.txList then { s.desc d with callback := (s.desc c.first).callback } else s.desc d
    active := s.active ++ c.descs }

/-- A chain is made active and pushed to the hardware. -/
def startChain (s : Chan) (c : Chain) : Chan := (s.setActive c).m2mHwSubmit

/-- A descriptor is taken from `free_list` and initialized again; `txd.flags` stay. -/
def takeDesc (s : Chan) (d : ℕ) : Chan :=
  { s with
    freeList := s.freeList.erase d
    desc := Function.update s.desc d ⟨0, 0, 0, false, 0, (s.desc d).ack, none⟩ }

/-- `nuc970_dma_desc_get` -/
def descGet (s : Chan) : Option (ℕ × Chan) :=
  (s.freeList.find? fun d => (s.desc d).ack).map fun d => (d, s.takeDesc d)

/-- `nuc970_dma_desc_put` -/
def descPut (s : Chan) (c : Chain) : Chan :=
  { s with freeList := c.first :: (c.txList ++ s.freeList) }

/-- `nuc970_dma_advance_work` -/
def advanceWork (s : Chan) : Chan :=
  match s.active, s.queue with
  | [], c :: rest => { s with queue := rest }.startChain c
  | _, _ => s

/-! ## Preparing a chain -/

/-- What a prep function writes to a descriptor -/
structure Item where
  src : BitVec 32
  dst : BitVec 32
  size : ℕ

def fill (s : Chan) (d : ℕ) (item : Item) : Chan :=
  s.setDesc d { s.desc d with srcAddr := item.src, dstAddr := item.dst, size := item.size }

/-- `first = desc`, or `desc` added to the `tx_list` of `first` -/
def link : Option Chain → ℕ → Chain
  | none, d => ⟨d, []⟩
  | some c, d => { c with txList := c.txList ++ [d] }

/-- How the loop of a prep function ends -/
inductive Built
  | failed (s : Chan)
  | done (first : Option Chain) (s : Chan)

/-- The label `fail` of the prep functions -/
def putFirst (s : Chan) : Option Chain → Chan
  | none => s
  | some c => s.descPut c

section Prep

variable (more : ℕ → Bool) (item : ℕ → Option Item) (advance : ℕ → ℕ)

/-- The loop of the prep functions: while there is more to describe, a descriptor is taken and
    filled. `item` is `none` for a length that is refused. -/
def prepLoop : ℕ → ℕ → Chan → Option Chain → Built
  -- not reached: the loop takes a descriptor in every round
  | 0, _, s, first => .failed (s.putFirst first)
  | fuel + 1, pos, s, first =>
    if more pos then
      match item pos with
      | none => .failed (s.putFirst first)
      | some it =>
        match s.descGet with
        | none => .failed (s.putFirst first)
        | some (d, s) => prepLoop fuel (advance pos) (s.fill d it) (some (link first d))
    else .done first s

/-- The loop with enough rounds, and the result that the client gets. The outer `none` is the access
    to a chain without a descriptor. `flags` is the acknowledgement bit if the flags are set. -/
def prep (s : Chan) (flags : Option Bool) : Option (Option Chain × Chan) :=
  match prepLoop more item advance (s.freeList.length + 1) 0 s none with
  | .failed s => some (none, s)
  | .done none _ => none
  | .done (some c) s =>
    let first := s.desc c.first
    -- `-EBUSY`
    some (some c, { s.setDesc c.first { first with cookie := -16, ack := flags.getD first.ack } with
      prepared := s.prepared ++ [c] })

end Prep

/-- `nuc970_dma_prep_dma_memcpy` -/
def prepDmaMemcpy (s : Chan) (dest src : BitVec 32) (len : ℕ) (ack : Bool) :
    Option (Option Chain × Chan) :=
  prep (fun offset => decide (offset < len))
    (fun offset =>
      some ⟨src + .ofNat 32 offset, dest + .ofNat 32 offset, min (len - offset) dmaMaxChanBytes⟩)
    (fun offset => offset + min (len - offset) dmaMaxChanBytes) s (some ack)

/-- An entry of the scatterlist, an address and a length; `none` if it is too big -/
def sgItem (s : Chan) (memToDev : Bool) : BitVec 32 × ℕ → Option Item
  | (addr, sgLen) =>
    if sgLen > dmaMaxChanBytes then none
    else if memToDev then some ⟨addr, s.runtimeAddr, sgLen⟩
    else some ⟨s.runtimeAddr, addr, sgLen⟩

/-- `nuc970_dma_prep_slave_sg` -/
def prepSlaveSg (s : Chan) (sgl : List (BitVec 32 × ℕ)) (memToDev ack : Bool) :
    Option (Option Chain × Chan) :=
  if s.cyclic then some (none, s)
  else
    prep (fun i => decide (i < sgl.length)) (fun i => sgl[i]?.bind (s.sgItem memToDev))
      (fun i => i + 1) s (some ack)

/-- One period; for other directions the addresses are left as `nuc970_dma_desc_get` sets them. -/
def periodItem (s : Chan) (dmaAddr : BitVec 32) (periodLen : ℕ) (memToMem : Bool) (offset : ℕ) :
    Item :=
  if memToMem then ⟨s.runtimeAddr, dmaAddr + .ofNat 32 offset, periodLen⟩ else ⟨0, 0, periodLen⟩

/-- `nuc970_dma_prep_dma_cyclic` after the flag was set -/
def prepPeriods (s : Chan) (dmaAddr : BitVec 32) (bufLen periodLen : ℕ) (memToMem : Bool) :
    Option (Option Chain × Chan) :=
  if periodLen > dmaMaxChanBytes then some (none, s)
  else
    prep (fun offset => decide (offset < bufLen))
      (fun offset => some (s.periodItem dmaAddr periodLen memToMem offset))
      (fun offset => offset + periodLen) s none

/-- `nuc970_dma_prep_dma_cyclic` -/
def prepDmaCyclic (s : Chan) (dmaAddr : BitVec 32) (bufLen periodLen : ℕ) (memToMem : Bool) :
    Option (Option Chain × Chan) :=
  if s.cyclic then some (none, s)
  else { s with cyclic := true }.prepPeriods dmaAddr bufLen periodLen memToMem

/-! ## Submission and completion -/

/-- The cookie that `dma_cookie_assign` gives next -/
def nextCookie (s : Chan) : Int32 :=
  if s.cookie + 1 < dmaMinCookie then dmaMinCookie else s.cookie + 1

/-- `dma_cookie_assign`, on a descriptor in which the client has set the callback -/
def dmaCookieAssign (s : Chan) (d : ℕ) (callback : Option ℕ) : Chan :=
  { s with cookie := s.nextCookie }.setDesc d
    { s.desc d with cookie := s.nextCookie, callback := callback }

/-- `nuc970_dma_tx_submit` of a chain -/
def txSubmit (s : Chan) (c : Chain) (callback : Option ℕ) : Chan :=
  let s := s.dmaCookieAssign c.first callback
  if s.active.isEmpty then s.startChain c else { s with queue := s.queue ++ [c] }

/-- `nuc970_dma_interrupt`: `m2m_hw_interrupt` reports every interrupt as done. -/
def interrupt (s : Chan) : Chan :=
  match s.active with
  | [] => s
  | d :: _ => s.setDesc d { s.desc d with complete := true }

/-- `dma_cookie_complete`; `none` is its `BUG_ON`. -/
def dmaCookieComplete (s : Chan) (d : ℕ) : Option Chan :=
  if (s.desc d).cookie < dmaMinCookie then none
  else some
    { s.setDesc d { s.desc d with cookie := 0 } with
      completedCookie := (s.desc d).cookie
      trace := s.trace ++ [.complete (s.desc d).cookie] }

def runCallback (s : Chan) : Option ℕ → Chan
  | none => s
  | some param => { s with trace := s.trace ++ [.callback param] }

/-- The cookie is completed in the non cyclic case only. -/
def completeCookie (s : Chan) (d : ℕ) : Option Chan :=
  if s.cyclic then some s else s.dmaCookieComplete d

/-- The active chain is taken off, the next one is started, and the descriptors are released. -/
def retire (s : Chan) : Chan :=
  s.active.foldl (fun s d => s.descPut ⟨d, []⟩) { s with active := [] }.advanceWork

/-- `nuc970_dma_tasklet` -/
def tasklet (s : Chan) : Option Chan :=
  match s.active with
  | [] => some s.advanceWork
  | d :: _ =>
    let callback := (s.desc d).callback
    if (s.desc d).complete then (s.completeCookie d).map fun s => s.retire.runCallback callback
    else some (s.advanceWork.runCallback callback)

/-- `nuc970_dma_terminate_all` -/
def terminateAll (s : Chan) : Chan :=
  (s.queue ++ s.active.map fun d => Chain.mk d []).foldl descPut
    { s with active := [], queue := [], cyclic := false }

end Chan

/-! ## Operations -/

/-- The widths that `nuc970_dma_slave_config` accepts -/
inductive BusWidth
  | oneByte
  | twoBytes
  | fourBytes

/-- `TWS_8BIT`, `TWS_16BIT`, `TWS_32BIT` -/
def BusWidth.tws : BusWidth → BitVec 32
  | .oneByte => 0
  | .twoBytes => 0x1000#32
  | .fourBytes => 0x2000#32

inductive Op
  | prepMemcpy (dest src : BitVec 32) (len : ℕ) (ack : Bool)
  | prepSlaveSg (sgl : List (BitVec 32 × ℕ)) (memToDev ack : Bool)
  | prepCyclic (dmaAddr : BitVec 32) (bufLen periodLen : ℕ) (memToMem : Bool)
  /-- The chain at a position among the prepared ones is submitted. -/
  | submit (i : ℕ) (callback : Option ℕ)
  | interrupt
  | tasklet
  | issuePending
  | terminateAll
  | slaveConfig (width : BusWidth)

/-- The prep functions; `none` for other operations. -/
def prepOf (s : Chan) : Op → Option (Option Chain × Chan)
  | .prepMemcpy dest src len ack => s.prepDmaMemcpy dest src len ack
  | .prepSlaveSg sgl memToDev ack => s.prepSlaveSg sgl memToDev ack
  | .prepCyclic dmaAddr bufLen periodLen memToMem =>
    s.prepDmaCyclic dmaAddr bufLen periodLen memToMem
  | _ => none

def step (s : Chan) : Op → Option Chan
  | .submit i callback => (s.prepared[i]?).map fun c =>
      { s with prepared := s.prepared.eraseIdx i }.txSubmit c callback
  | .interrupt => some s.interrupt
  | .tasklet => s.tasklet
  | .issuePending => some s.advanceWork
  | .terminateAll => some s.terminateAll
  | .slaveConfig width => some { s with runtimeCtrl := width.tws }
  | op => (prepOf s op).map Prod.snd

/-- The operation is a prep that fails. -/
def fails (s : Chan) (op : Op) : Bool :=
  match prepOf s op with
  | some (none, _) => true
  | _ => false

/-! ## Conservation -/

/-- The descriptors of the channel, place by place -/
def Chan.places (s : Chan) : List ℕ :=
  s.freeList ++ s.queue.flatMap Chain.descs ++ s.active ++ s.prepared.flatMap Chain.descs

/-- Each of the `n` descriptors is in exactly one place, and there once. -/
def Conserved (n : ℕ) (s : Chan) : Prop := s.places.Perm (List.range n)

instance (n : ℕ) (s : Chan) : Decidable (Conserved n s) :=
  inferInstanceAs (Decidable (List.Perm _ _))

/-- Descriptors are conserved, and a failed prep leaves the free descriptors and the flag. -/
def Sound (n : ℕ) (s : Chan) (op : Op) (s' : Chan) : Prop :=
  Conserved n s' ∧ (fails s op = true → s'.freeList.Perm s.freeList ∧ s'.cyclic = s.cyclic)

instance (n : ℕ) (s : Chan) (op : Op) (s' : Chan) : Decidable (Sound n s op s') :=
  inferInstanceAs (Decidable (_ ∧ (_ → _ ∧ _)))

/-- The free descriptors that may be taken -/
def Chan.acked (s : Chan) : ℕ := s.freeList.countP fun d => (s.desc d).ack

/-- A cyclic transfer on a channel whose flag is clear has a period that is not too long, and
    enough descriptors. A `buf_len` of 0, which stops the kernel, is not excluded. -/
def CyclicFits (s : Chan) : Op → Chan → Prop
  | .prepCyclic _ bufLen periodLen _, _ =>
    s.cyclic = false → periodLen ≤ dmaMaxChanBytes ∧ bufLen ≤ s.acked * periodLen
  | _, _ => True

/-! ### The loop of the prep functions -/

namespace Chan

def ids (first : Option Chain) : List ℕ := first.elim [] Chain.descs

/-- Nothing but `free_list` and the contents of descriptors has changed. -/
def Near (s s' : Chan) : Prop := s' = { s with desc := s'.desc, freeList := s'.freeList }

theorem Near.refl (s : Chan) : Near s s := rfl

theorem Near.trans {s s' s'' : Chan} (h : Near s s') (h' : Near s' s'') : Near s s'' := by
  rw [Near, h', h]

theorem ids_link (first : Option Chain) (d : ℕ) : ids (some (link first d)) = ids first ++ [d] := by
  cases first <;> rfl

theorem putFirst_freeList (s : Chan) (first : Option Chain) :
    (s.putFirst first).freeList = ids first ++ s.freeList := by
  cases first <;> rfl

theorem near_putFirst (s : Chan) (first : Option Chain) : Near s (s.putFirst first) := by
  cases first <;> rfl

theorem descGet_eq_some {s s' : Chan} {d : ℕ} (h : s.descGet = some (d, s')) :
    d ∈ s.freeList ∧ (s.desc d).ack = true ∧ s' = s.takeDesc d := by
  obtain ⟨d', hfind, heq⟩ := Option.map_eq_some_iff.mp h
  cases heq
  exact ⟨List.mem_of_find?_eq_some hfind, by simpa using List.find?_some hfind, rfl⟩

theorem acked_of_descGet_eq_none {s : Chan} (h : s.descGet = none) : s.acked = 0 := by
  rw [acked, List.countP_eq_zero]
  exact List.find?_eq_none.mp (Option.map_eq_none_iff.mp h)

theorem ack_fill_takeDesc (s : Chan) (d e : ℕ) (it : Item) :
    (((s.takeDesc d).fill d it).desc e).ack = (s.desc e).ack := by
  rw [fill, setDesc, takeDesc]
  by_cases hed : e = d
  · subst hed
    simp only [Function.update_self]
  · simp only [Function.update_of_ne hed]

theorem acked_fill_takeDesc {s : Chan} {d : ℕ} (hmem : d ∈ s.freeList)
    (hack : (s.desc d).ack = true) (it : Item) :
    ((s.takeDesc d).fill d it).acked + 1 = s.acked := by
  -- taking it changes the acknowledgement of no other descriptor
  have hrest : ((s.takeDesc d).fill d it).acked =
      (s.freeList.erase d).countP fun e => (s.desc e).ack := by
    rw [acked]
    simp only [ack_fill_takeDesc]
    rfl
  have hcount : s.acked = (d :: s.freeList.erase d).countP fun e => (s.desc e).ack :=
    (List.perm_cons_erase hmem).countP_eq _
  rw [hrest, hcount, List.countP_cons, if_pos hack]

/-- What the loop keeps: the descriptors taken are those of the chain, and a failure gives all of
    them back. -/
def Built.Keeps (s : Chan) (first : Option Chain) : Built → Prop
  | .failed s' => Near s s' ∧ s'.freeList.Perm (ids first ++ s.freeList)
  | .done first' s' => Near s s' ∧ (ids first' ++ s'.freeList).Perm (ids first ++ s.freeList)

section Prep

variable {more : ℕ → Bool} {item : ℕ → Option Item} {advance : ℕ → ℕ}

theorem prepLoop_keeps (fuel pos : ℕ) (s : Chan) (first : Option Chain) :
    (prepLoop more item advance fuel pos s first).Keeps s first := by
  have hput : ∀ (s : Chan) (first : Option Chain),
      (Built.failed (s.putFirst first)).Keeps s first :=
    fun s first => ⟨near_putFirst s first, by rw [putFirst_freeList]⟩
  induction fuel generalizing pos s first with
  | zero => exact hput s first
  | succ fuel ih =>
    rw [prepLoop]
    split
    · split
      · -- a length that is refused
        exact hput s first
      · rename_i it _
        split
        · -- no descriptor is left
          exact hput s first
        · rename_i d s₁ hget
          obtain ⟨hmem, -, rfl⟩ := descGet_eq_some hget
          have hnear : Near s ((s.takeDesc d).fill d it) := rfl
          -- the descriptor moves from the free ones to the chain
          have hmoved : (ids (some (link first d)) ++ s.freeList.erase d).Perm
              (ids first ++ s.freeList) := by
            rw [ids_link, List.append_assoc]
            exact (List.perm_cons_erase hmem).symm.append_left _
          have hrest := ih (advance pos) ((s.takeDesc d).fill d it) (some (link first d))
          cases hloop : prepLoop more item advance fuel (advance pos) ((s.takeDesc d).fill d it)
              (some (link first d)) with
          | failed s' =>
            rw [hloop] at hrest
            exact ⟨hnear.trans hrest.1, hrest.2.trans hmoved⟩
          | done first' s' =>
            rw [hloop] at hrest
            exact ⟨hnear.trans hrest.1, hrest.2.trans hmoved⟩
    · exact ⟨.refl s, .refl _⟩

theorem prep_failed {s s' : Chan} {flags : Option Bool}
    (h : prep more item advance s flags = some (none, s')) :
    Near s s' ∧ s'.freeList.Perm s.freeList := by
  have hkeeps := @prepLoop_keeps more item advance (s.freeList.length + 1) 0 s none
  rw [prep] at h
  split at h
  · rename_i hloop
    cases h
    rw [hloop] at hkeeps
    exact hkeeps
  · cases h
  · cases h

theorem prep_done {s s' : Chan} {flags : Option Bool} {c : Chain}
    (h : prep more item advance s flags = some (some c, s')) :
    s' = { s with desc := s'.desc, freeList := s'.freeList, prepared := s.prepared ++ [c] } ∧
      (c.descs ++ s'.freeList).Perm s.freeList := by
  have hkeeps := @prepLoop_keeps more item advance (s.freeList.length + 1) 0 s none
  rw [prep] at h
  split at h
  · cases h
  · cases h
  · rename_i hloop
    rw [hloop] at hkeeps
    cases h
    obtain ⟨hnear, hperm⟩ := hkeeps
    refine ⟨?_, hperm⟩
    rw [hnear]
    rfl

theorem prepLoop_failed_iff {periodLen bufLen : ℕ} (hitem : ∀ pos, (item pos).isSome)
    (fuel offset : ℕ) (s : Chan) (first : Option Chain) (hfuel : s.acked < fuel) :
    (∃ s', prepLoop (fun offset => decide (offset < bufLen)) item (fun offset => offset + periodLen)
      fuel offset s first = .failed s') ↔ offset + s.acked * periodLen < bufLen := by
  induction fuel generalizing offset s first with
  | zero => omega
  | succ fuel ih =>
    rw [prepLoop]
    by_cases hmore : offset < bufLen
    · rw [if_pos (decide_eq_true hmore)]
      obtain ⟨it, hit⟩ := Option.isSome_iff_exists.mp (hitem offset)
      rw [hit]
      cases hget : s.descGet with
      -- no descriptor may be taken any more
      | none =>
        have hacked := acked_of_descGet_eq_none hget
        simpa [hacked] using hmore
      | some p =>
        obtain ⟨d, s₁⟩ := p
        obtain ⟨hmem, hack, rfl⟩ := descGet_eq_some hget
        have hacked := acked_fill_takeDesc hmem hack it
        have hrest := ih (offset + periodLen) ((s.takeDesc d).fill d it) (some (link first d))
          (by omega)
        rw [← hacked, Nat.succ_mul]
        dsimp only
        rw [hrest]
        omega
    · -- all is described
      rw [if_neg (by simpa using hmore)]
      constructor
      · rintro ⟨s', hs'⟩
        cases hs'
      · intro hlt
        exact absurd (Nat.lt_of_le_of_lt (Nat.le_add_right _ _) hlt) hmore

end Prep

/-! ### The other operations -/

theorem m2mFillDesc_eq (s : Chan) :
    ∃ ctl trace, s.m2mFillDesc = { s with ctl := ctl, trace := trace } := by
  rw [m2mFillDesc]
  split
  · exact ⟨s.ctl, s.trace, rfl⟩
  · exact ⟨_, _, rfl⟩

theorem advanceActive_snd (s : Chan) :
    s.advanceActive.2 = { s with active := s.active.rotate 1 } := by
  rw [advanceActive]
  dsimp only
  split
  · rfl
  · split <;> rfl

theorem m2mHwSubmit_eq (s : Chan) : ∃ ctl trace,
    s.m2mHwSubmit = { s with active := s.active.rotate 1, ctl := ctl, trace := trace } := by
  obtain ⟨ctl, trace, hfill⟩ := m2mFillDesc_eq s
  rw [m2mHwSubmit]
  dsimp only
  rw [advanceActive_snd, hfill]
  split
  · -- a second descriptor is written when the chain has more than one
    obtain ⟨ctl', trace', hfill'⟩ := m2mFillDesc_eq
      { s with active := s.active.rotate 1, ctl := ctl, trace := trace }
    rw [hfill']
    exact ⟨_, _, rfl⟩
  · exact ⟨_, _, rfl⟩

theorem places_startChain (s : Chan) (c : Chain) :
    (s.startChain c).places.Perm (c.descs ++ s.places) := by
  obtain ⟨ctl, trace, hsubmit⟩ := m2mHwSubmit_eq (s.setActive c)
  have hrotate := (s.active ++ c.descs).rotate_perm 1
  rw [startChain, hsubmit, List.perm_iff_count]
  intro d
  have hcount := hrotate.count_eq d
  simp only [places, setActive, List.count_append] at hcount ⊢
  omega

theorem places_advanceWork (s : Chan) : s.advanceWork.places.Perm s.places := by
  rw [advanceWork]
  split
  · rename_i c rest hactive hqueue
    refine (places_startChain _ c).trans ?_
    rw [List.perm_iff_count]
    intro d
    simp only [places, hqueue, List.flatMap_cons, List.count_append]
    omega
  · exact .refl _

theorem places_foldl_descPut (cs : List Chain) (s : Chan) :
    (cs.foldl descPut s).places.Perm (cs.flatMap Chain.descs ++ s.places) := by
  induction cs generalizing s with
  | nil => exact .refl _
  | cons c cs ih =>
    refine (ih (s.descPut c)).trans ?_
    rw [List.perm_iff_count]
    intro d
    simp only [places, descPut, List.flatMap_cons, List.count_append, Chain.descs, List.count_cons]
    omega

theorem flatMap_descs_single (ds : List ℕ) :
    (ds.map fun d => Chain.mk d []).flatMap Chain.descs = ds := by
  induction ds with
  | nil => rfl
  | cons d ds ih =>
    rw [List.map_cons, List.flatMap_cons, ih]
    rfl

theorem places_runCallback (s : Chan) (callback : Option ℕ) :
    (s.runCallback callback).places = s.places := by
  cases callback <;> rfl

theorem dmaCookieComplete_eq_some {s s' : Chan} {d : ℕ} (h : s.dmaCookieComplete d = some s') :
    ¬(s.desc d).cookie < dmaMinCookie ∧
      s' = { s.setDesc d { s.desc d with cookie := 0 } with
        completedCookie := (s.desc d).cookie
        trace := s.trace ++ [.complete (s.desc d).cookie] } := by
  rw [dmaCookieComplete] at h
  split_ifs at h with hlt
  cases h
  exact ⟨hlt, rfl⟩

theorem places_completeCookie {s s' : Chan} {d : ℕ} (h : s.completeCookie d = some s') :
    s'.places = s.places := by
  rw [completeCookie] at h
  split_ifs at h
  · cases h
    rfl
  · obtain ⟨-, rfl⟩ := dmaCookieComplete_eq_some h
    rfl

theorem places_retire (s : Chan) : s.retire.places.Perm s.places := by
  rw [retire, ← List.foldl_map (f := fun d => Chain.mk d []) (g := descPut)]
  refine (places_foldl_descPut _ _).trans ?_
  rw [flatMap_descs_single]
  refine ((places_advanceWork _).append_left _).trans ?_
  rw [List.perm_iff_count]
  intro d
  simp only [places, List.count_append, List.count_nil]
  omega

theorem places_tasklet {s s' : Chan} (h : s.tasklet = some s') : s'.places.Perm s.places := by
  rw [tasklet] at h
  split at h
  · -- nothing is active
    cases h
    exact places_advanceWork s
  · split at h
    · -- a transaction has ended
      obtain ⟨s₁, hs₁, rfl⟩ := Option.map_eq_some_iff.mp h
      rw [places_runCallback, ← places_completeCookie hs₁]
      exact places_retire s₁
    · cases h
      rw [places_runCallback]
      exact places_advanceWork s

theorem places_terminateAll (s : Chan) : s.terminateAll.places.Perm s.places := by
  rw [terminateAll]
  refine (places_foldl_descPut _ _).trans ?_
  rw [List.flatMap_append, flatMap_descs_single, List.perm_iff_count]
  intro d
  simp only [places, List.flatMap_nil, List.count_append, List.count_nil]
  omega

theorem places_txSubmit (s : Chan) (c : Chain) (callback : Option ℕ) :
    (s.txSubmit c callback).places.Perm (c.descs ++ s.places) := by
  rw [txSubmit]
  split
  · exact places_startChain _ c
  · rw [List.perm_iff_count]
    intro d
    simp only [places, dmaCookieAssign, setDesc, List.flatMap_append, List.flatMap_singleton,
      List.count_append]
    omega

theorem places_submit {s : Chan} {i : ℕ} {c : Chain} (h : s.prepared[i]? = some c)
    (callback : Option ℕ) :
    ({ s with prepared := s.prepared.eraseIdx i }.txSubmit c callback).places.Perm s.places := by
  refine (places_txSubmit _ c callback).trans ?_
  obtain ⟨hi, rfl⟩ := List.getElem?_eq_some_iff.mp h
  -- the chain leaves those that clients hold
  have herase := (List.getElem_cons_eraseIdx_perm hi).flatMap_right Chain.descs
  rw [List.perm_iff_count]
  intro d
  have hcount := herase.count_eq d
  simp only [places, List.flatMap_cons, List.count_append] at hcount ⊢
  omega

/-! ### Preps on the whole channel -/

section Prep

variable {more : ℕ → Bool} {item : ℕ → Option Item} {advance : ℕ → ℕ}

theorem places_prep {s s' : Chan} {flags : Option Bool} {result : Option Chain}
    (h : prep more item advance s flags = some (result, s')) : s'.places.Perm s.places := by
  cases result with
  | none =>
    -- the free descriptors are those of before
    obtain ⟨hnear, hperm⟩ := prep_failed h
    have hplaces : s'.places = s'.freeList ++ s.queue.flatMap Chain.descs ++ s.active ++
        s.prepared.flatMap Chain.descs := by
      rw [places, hnear]
    rw [hplaces, places]
    exact ((hperm.append_right _).append_right _).append_right _
  | some c =>
    -- those of the chain were free
    obtain ⟨hs', hperm⟩ := prep_done h
    have hplaces : s'.places = s'.freeList ++ s.queue.flatMap Chain.descs ++ s.active ++
        (s.prepared ++ [c]).flatMap Chain.descs := by
      rw [places, hs']
    rw [hplaces, List.perm_iff_count]
    intro d
    have hcount := hperm.count_eq d
    simp only [places, List.flatMap_append, List.flatMap_singleton, List.count_append] at hcount ⊢
    omega

theorem cyclic_prep {s s' : Chan} {flags : Option Bool} {result : Option Chain}
    (h : prep more item advance s flags = some (result, s')) : s'.cyclic = s.cyclic := by
  cases result with
  | none => rw [(prep_failed h).1]
  | some c => rw [(prep_done h).1]

end Prep

end Chan

theorem places_prepOf {s s' : Chan} {op : Op} {result : Option Chain}
    (h : prepOf s op = some (result, s')) : s'.places.Perm s.places := by
  cases op with
  | prepMemcpy dest src len ack => exact Chan.places_prep h
  | prepSlaveSg sgl memToDev ack =>
    rw [prepOf, Chan.prepSlaveSg] at h
    split_ifs at h
    · cases h
      exact .refl _
    · exact Chan.places_prep h
  | prepCyclic dmaAddr bufLen periodLen memToMem =>
    rw [prepOf, Chan.prepDmaCyclic] at h
    split_ifs at h
    · cases h
      exact .refl _
    · rw [Chan.prepPeriods] at h
      split_ifs at h
      · cases h
        exact .refl _
      · -- the flag is in no place
        have hplaces := Chan.places_prep h
        exact hplaces
  | _ => cases h

/-- **Step lemma**: every operation moves descriptors from place to place. -/
theorem places_step {s s' : Chan} {op : Op} (h : step s op = some s') :
    s'.places.Perm s.places := by
  cases op with
  | submit i callback =>
    obtain ⟨c, hc, rfl⟩ := Option.map_eq_some_iff.mp h
    exact Chan.places_submit hc callback
  | interrupt =>
    cases h
    rw [Chan.interrupt]
    split <;> exact .refl _
  | tasklet => exact Chan.places_tasklet h
  | issuePending =>
    cases h
    exact Chan.places_advanceWork s
  | terminateAll =>
    cases h
    exact Chan.places_terminateAll s
  | slaveConfig width =>
    cases h
    exact .refl _
  | _ =>
    obtain ⟨⟨result, s₁⟩, hprep, rfl⟩ := Option.map_eq_some_iff.mp h
    exact places_prepOf hprep

theorem conserved_alloc (n : ℕ) : Conserved n (Chan.alloc n) := by
  simp [Conserved, Chan.places, Chan.alloc]

/-! ### Failed preps -/

theorem fails_iff {s : Chan} {op : Op} :
    fails s op = true ↔ ∃ s', prepOf s op = some (none, s') := by
  rw [fails]
  split
  · rename_i s' h
    simp [h]
  · rename_i h
    simpa using h

theorem step_eq_of_prepOf {s s' : Chan} {op : Op} {result : Option Chain}
    (h : prepOf s op = some (result, s')) : step s op = some s' := by
  cases op with
  | prepMemcpy dest src len ack => exact congrArg (Option.map Prod.snd) h
  | prepSlaveSg sgl memToDev ack => exact congrArg (Option.map Prod.snd) h
  | prepCyclic a b p m => exact congrArg (Option.map Prod.snd) h
  | _ => cases h

theorem kept_of_fails {s s' : Chan} {op : Op} (hcyclic : ∀ a b p m, op ≠ .prepCyclic a b p m)
    (h : prepOf s op = some (none, s')) :
    s'.freeList.Perm s.freeList ∧ s'.cyclic = s.cyclic := by
  cases op with
  | prepMemcpy dest src len ack => exact ⟨(Chan.prep_failed h).2, Chan.cyclic_prep h⟩
  | prepSlaveSg sgl memToDev ack =>
    rw [prepOf, Chan.prepSlaveSg] at h
    split_ifs at h
    · cases h
      exact ⟨.refl _, rfl⟩
    · exact ⟨(Chan.prep_failed h).2, Chan.cyclic_prep h⟩
  | prepCyclic a b p m => exact absurd rfl (hcyclic a b p m)
  | _ => cases h

theorem Chan.acked_lt (s : Chan) : s.acked < s.freeList.length + 1 :=
  Nat.lt_succ_of_le List.countP_le_length

theorem Chan.prepPeriods_failed_iff (s : Chan) (dmaAddr : BitVec 32) (bufLen periodLen : ℕ)
    (memToMem : Bool) :
    (∃ s', s.prepPeriods dmaAddr bufLen periodLen memToMem = some (none, s')) ↔
      ¬(periodLen ≤ dmaMaxChanBytes ∧ bufLen ≤ s.acked * periodLen) := by
  rw [prepPeriods]
  by_cases hlong : periodLen > dmaMaxChanBytes
  · simp [hlong, Nat.not_le.mpr hlong]
  · have hloop := @prepLoop_failed_iff
      (fun offset => some (s.periodItem dmaAddr periodLen memToMem offset)) periodLen bufLen
      (fun _ => rfl) (s.freeList.length + 1) 0 s none s.acked_lt
    -- `prep` fails if its loop does
    have hfails : (∃ s', prep (fun offset => decide (offset < bufLen))
        (fun offset => some (s.periodItem dmaAddr periodLen memToMem offset))
        (fun offset => offset + periodLen) s none = some (none, s')) ↔
        0 + s.acked * periodLen < bufLen := by
      rw [← hloop, prep]
      split <;> simp_all
    rw [if_neg hlong, hfails]
    omega

theorem cyclic_prepPeriods {s s' : Chan} {dmaAddr : BitVec 32} {bufLen periodLen : ℕ}
    {memToMem : Bool} {result : Option Chain}
    (h : s.prepPeriods dmaAddr bufLen periodLen memToMem = some (result, s')) :
    s'.cyclic = s.cyclic := by
  rw [Chan.prepPeriods] at h
  split_ifs at h
  · cases h
    rfl
  · exact Chan.cyclic_prep h

theorem kept_iff_cyclicFits {s s' : Chan} {op : Op} (hstep : step s op = some s') :
    (fails s op = true → s'.freeList.Perm s.freeList ∧ s'.cyclic = s.cyclic) ↔
      CyclicFits s op s' := by
  have hs' : ∀ {s₁}, prepOf s op = some (none, s₁) → s₁ = s' := fun hprep =>
    Option.some.inj ((step_eq_of_prepOf hprep).symm.trans hstep)
  rw [fails_iff]
  by_cases hop : ∃ a b p m, op = .prepCyclic a b p m
  · obtain ⟨a, b, p, m, rfl⟩ := hop
    rw [CyclicFits]
    have hprepOf : prepOf s (.prepCyclic a b p m) = s.prepDmaCyclic a b p m := rfl
    rw [hprepOf, Chan.prepDmaCyclic] at hs' ⊢
    cases hflag : s.cyclic with
    | true =>
      -- the flag is set already: the prep is refused
      simp only [hflag, if_true] at hs' ⊢
      obtain rfl := hs' rfl
      simp [hflag]
    | false =>
      simp only [hflag, Bool.false_eq_true, if_false] at hs' ⊢
      have hfails := Chan.prepPeriods_failed_iff { s with cyclic := true } a b p m
      have hacked : Chan.acked { s with cyclic := true } = s.acked := rfl
      rw [hacked] at hfails
      rw [hfails]
      constructor
      · -- a prep that fails has set the flag, and leaves it set
        intro hkept _
        by_contra hfits
        obtain ⟨s₁, hs₁⟩ := hfails.mpr hfits
        have hset := cyclic_prepPeriods hs₁
        rw [hs' hs₁, (hkept hfits).2] at hset
        cases hset
      · intro hfits hnot
        exact absurd (hfits trivial) hnot
  · -- other operations: a failed prep changes nothing
    have hfits : CyclicFits s op s' := by
      cases op with
      | prepCyclic a b p m => exact absurd ⟨a, b, p, m, rfl⟩ hop
      | _ => trivial
    refine ⟨fun _ => hfits, ?_⟩
    rintro - ⟨s₁, hs₁⟩
    obtain rfl := hs' hs₁
    exact kept_of_fails (fun a b p m heq => hop ⟨a, b, p, m, heq⟩) hs₁

/-- **Conservation of descriptors**: in every run each descriptor is in exactly one place, and the
    failed preps of a run leave the free descriptors and the flag exactly if every cyclic prep on a
    channel whose flag is clear has a period that is not too long and enough descriptors. -/
theorem conserved_iff (n : ℕ) (ops : List Op) :
    Along step (Sound n) (Chan.alloc n) ops ↔ Along step CyclicFits (Chan.alloc n) ops := by
  have hkeep : ∀ s op s', Conserved n s → step s op = some s' → Conserved n s' :=
    fun s op s' h hstep => (places_step hstep).trans h
  refine along_iff (I := Conserved n) ?_ (fun s op s' h hstep _ => hkeep s op s' h hstep)
    (conserved_alloc n)
  intro s op s' h hstep
  rw [← kept_iff_cyclicFits hstep, Sound]
  exact ⟨fun hsound => hsound.2, fun hkept => ⟨hkeep s op s' h hstep, hkept⟩⟩

/-- A cyclic prep with a period that is too long fails and leaves the flag set: every later
    scatter-gather prep is refused. -/
theorem cyclic_stays :
    ¬Along step (Sound 32) (Chan.alloc 32) [.prepCyclic 0 0x2000000 0x1000000 true] ∧
      (runFrom step (Chan.alloc 32) [.prepCyclic 0 0x2000000 0x1000000 true]).any (fun s =>
        s.cyclic && fails s (.prepSlaveSg [(0, 16)] true true)) = true := by
  decide +kernel

end NucKernel.Dma
