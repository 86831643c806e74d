import NucKernel.Library.Runs
import Mathlib.Data.List.Nodup

/-!
# The transmit ring of the Ethernet MAC (`nuc970_ether0.c`)

`nuc970_ether_start_xmit` puts a packet into the slot at `cur_tx` when the DMA does not own the
descriptor there, `nuc970_tx_interrupt` frees the packets from `finish_tx` on. The first looks at
TX_OWEN_DMA only, the second also at `tx_skb`: a descriptor that the DMA has given back but whose
packet is not freed yet is free for the first and used for the second. There is also no lock between
the two, and `tx_skb` is written before the descriptor is handed over and before `cur_tx` moves on.

## Modelling

- a packet is known by its serial number among the packets that were put into the ring
- `start_xmit` is cut after its test of TX_OWEN_DMA and after each write to what it shares with the
  others: `tx_skb`, TX_OWEN_DMA, `cur_tx`. Calls do not overlap: the network core holds the transmit
  lock
- every pass of the loop in `nuc970_tx_interrupt` is a step of its own, so that completions and
  the parts of a call may come between them
- on a bus error the interrupt handler sets the rings up again; whether the new descriptors come to
  lie where the old ones were is a parameter, and the allocation succeeds
-/

namespace NucKernel.Ethernet

open NucKernel.Library

/-! ## The driver -/

def txDescSize : ℕ := 32

/-- How far a call of `nuc970_ether_start_xmit` has come -/
inductive Call
  | outside
  | tested
  | stored
  | handed
  deriving DecidableEq, Repr

/-- The number of packets that are in the ring and whose call has not returned -/
def Call.pending : Call → ℕ
  | outside | tested => 0
  | stored | handed => 1

/-- `own` is TX_OWEN_DMA, `dma` the descriptor the DMA turns to next, and `txbd` may point to memory
    that was given back (none). From `accepted` on, packets and turns of the indices are counted. -/
structure TxRing where
  own : ℕ → Bool
  txSkb : ℕ → Option ℕ
  curTx : ℕ
  finishTx : ℕ
  dma : ℕ
  call : Call
  txbd : Option ℕ
  accepted : ℕ
  returned : ℕ
  freed : List ℕ
  curTurns : ℕ
  finishTurns : ℕ

namespace TxRing

/-- `nuc970_init_desc`, with the indices as `nuc970_reset_mac` sets them -/
def initDesc : TxRing where
  own := fun _ => false
  txSkb := fun _ => none
  curTx := 0
  finishTx := 0
  dma := 0
  call := .outside
  txbd := none
  accepted := 0
  returned := 0
  freed := []
  curTurns := 0
  finishTurns := 0

def begin (s : TxRing) : TxRing :=
  { s with
    call := .tested
    txbd := some s.curTx }

def store (s : TxRing) : TxRing :=
  { s with
    -- the slot is not looked at before
    txSkb := fun i => if i = s.curTx then some s.accepted else s.txSkb i
    call := .stored
    accepted := s.accepted + 1 }

def hand (s : TxRing) : TxRing :=
  { s with
    own := fun i => if s.txbd = some i then true else s.own i
    call := .handed }

/-- `cur_tx` moves on, NETDEV_TX_OK is returned. -/
def advance (s : TxRing) : TxRing :=
  { s with
    curTx := if s.curTx + 1 ≥ txDescSize then 0 else s.curTx + 1
    call := .outside
    returned := s.returned + 1
    curTurns := s.curTurns + 1 }

/-- The DMA has sent a packet and gives its descriptor back. -/
def complete (s : TxRing) : TxRing :=
  { s with
    own := fun i => if i = s.dma then false else s.own i
    dma := (s.dma + 1) % txDescSize }

def free (s : TxRing) (k : ℕ) : TxRing :=
  { s with
    txSkb := fun i => if i = s.finishTx then none else s.txSkb i
    finishTx := (s.finishTx + 1) % txDescSize
    freed := s.freed ++ [k]
    finishTurns := s.finishTurns + 1 }

/-- What a pass of the loop in `nuc970_tx_interrupt` finds to free -/
def reapable (s : TxRing) : Option ℕ :=
  if s.own s.finishTx then none else s.txSkb s.finishTx

def reap (s : TxRing) : TxRing :=
  match s.reapable with
  | some k => s.free k
  | none => s

/-- `nuc970_reset_mac`: `nuc970_free_desc` frees what is in the ring, which is then set up again.
    `same` says that the new descriptors have the addresses of the old ones. -/
def resetMac (s : TxRing) (same : Bool) : TxRing :=
  { initDesc with
    -- a call that was interrupted goes on where it was
    call := s.call
    txbd := if same then s.txbd else none
    accepted := s.accepted
    returned := s.returned
    freed := s.freed ++ (List.range txDescSize).filterMap s.txSkb }

end TxRing

/-! ## Interleavings -/

inductive Event
  | xmit
  | store
  | hand
  | advance
  | complete
  | reap
  | busError (same : Bool)
  deriving DecidableEq, Repr

/-- The next state. `xmit` at a descriptor that the DMA owns returns NETDEV_TX_BUSY. -/
def step (s : TxRing) : Event → Option TxRing
  | .xmit => if s.call = .outside then some (if s.own s.curTx then s else s.begin) else none
  | .store => if s.call = .tested then some s.store else none
  | .hand => if s.call = .stored then some s.hand else none
  | .advance => if s.call = .handed then some s.advance else none
  | .complete => some (if s.own s.dma then s.complete else s)
  | .reap => some s.reap
  | .busError same => some (s.resetMac same)

/-- `nuc970_ether_start_xmit`, undisturbed -/
def startXmit (s : TxRing) : TxRing :=
  if s.own s.curTx then s else s.begin.store.hand.advance

theorem reaches_startXmit {s : TxRing} (h : s.call = .outside) :
    Reaches step s (startXmit s) := by
  unfold startXmit
  split
  · exact .refl s
  · rename_i hown
    -- the parts of the call, one after the other
    have hbegin : step s .xmit = some s.begin := by simp [step, h, hown]
    apply Reaches.head hbegin
    apply Reaches.head (i := .store) rfl
    apply Reaches.head (i := .hand) rfl
    exact .single (i := .advance) rfl

/-- The last `m` slots before `finish_tx` are empty. -/
def ClearedBehind (m : ℕ) (s : TxRing) : Prop :=
  ∀ j < m, s.txSkb ((s.finishTx + (txDescSize - 1 - j)) % txDescSize) = none

theorem ClearedBehind.free {m : ℕ} {s : TxRing} (h : ClearedBehind m s) (hm : m < txDescSize)
    (hfin : s.finishTx < txDescSize) (k : ℕ) : ClearedBehind (m + 1) (s.free k) := by
  intro j hj
  unfold ClearedBehind at h
  unfold TxRing.free
  dsimp only
  unfold txDescSize at *
  by_cases hslot : ((s.finishTx + 1) % 32 + (32 - 1 - j)) % 32 = s.finishTx
  · exact if_pos hslot
  · -- the other slots were behind `finish_tx` before, one place nearer
    refine (if_neg hslot).trans ?_
    have hback := h (j - 1) (by omega)
    rwa [show (s.finishTx + (32 - 1 - (j - 1))) % 32 = ((s.finishTx + 1) % 32 + (32 - 1 - j)) % 32
      by omega] at hback

theorem ClearedBehind.reapable {s : TxRing} (h : ClearedBehind txDescSize s)
    (hfin : s.finishTx < txDescSize) : s.reapable = none := by
  have hempty := h (txDescSize - 1) (by decide)
  rw [Nat.sub_self, Nat.add_zero, Nat.mod_eq_of_lt hfin] at hempty
  unfold TxRing.reapable
  split
  · rfl
  · exact hempty

/-- A call finds the slot empty into which it puts its packet. From then until it moves `cur_tx` no
    pass of the loop is made at `cur_tx` while the DMA does not own the descriptor. And the rings
    are not set up again inside a call. -/
def Guarded (s : TxRing) : Event → Prop
  | .store => s.txSkb s.curTx = none
  -- a packet of a call that goes on is at `cur_tx`
  | .reap => s.call.pending = 0 ∨ s.finishTx ≠ s.curTx ∨ s.own s.finishTx = true
  | .busError _ => s.call = .outside
  | _ => True

instance Guarded.decidable (s : TxRing) : ∀ e, Decidable (Guarded s e)
  | .store => inferInstanceAs (Decidable (_ = _))
  | .reap => inferInstanceAs (Decidable (_ ∨ _ ∨ _))
  | .busError _ => inferInstanceAs (Decidable (_ = _))
  | .xmit | .hand | .advance | .complete => isTrue trivial

/-! ## The ledger -/

/-- The packets since the ring was set up have the serial numbers from `base` on, and packet
    `base + j` has its place in slot `j` modulo the size of the ring. Those before `finish_tx` are
    freed, the others are in their places. -/
structure Ledger (s : TxRing) (base : ℕ) : Prop where
  returned : s.returned = base + s.curTurns
  accepted : s.accepted = s.returned + s.call.pending
  order : s.finishTurns ≤ s.curTurns
  room : s.curTurns + s.call.pending ≤ s.finishTurns + txDescSize
  cur : s.curTx = s.curTurns % txDescSize
  finish : s.finishTx = s.finishTurns % txDescSize
  held : ∀ i k, i < txDescSize → (s.txSkb i = some k ↔
    base + s.finishTurns ≤ k ∧ k < s.accepted ∧ (k - base) % txDescSize = i)
  nodup : s.freed.Nodup
  freed : ∀ k, k ∈ s.freed ↔ k < base + s.finishTurns

namespace Ledger

variable {s : TxRing} {base : ℕ}

theorem curTx_lt (h : Ledger s base) : s.curTx < txDescSize := by
  rw [h.cur]
  exact Nat.mod_lt _ (by decide)

theorem finishTx_lt (h : Ledger s base) : s.finishTx < txDescSize := by
  rw [h.finish]
  exact Nat.mod_lt _ (by decide)

theorem existsUnique (h : Ledger s base) {k : ℕ} (hlow : base + s.finishTurns ≤ k)
    (hk : k < s.accepted) : ∃! i, i < txDescSize ∧ s.txSkb i = some k := by
  have hplace : (k - base) % txDescSize < txDescSize := Nat.mod_lt _ (by decide)
  refine ⟨(k - base) % txDescSize, ⟨hplace, (h.held _ k hplace).mpr ⟨hlow, hk, rfl⟩⟩, ?_⟩
  -- the place is determined by the serial number
  rintro i ⟨hi, hki⟩
  exact ((h.held i k hi).mp hki).2.2.symm

theorem at_finish (h : Ledger s base) {k : ℕ} (hk : s.txSkb s.finishTx = some k) :
    k = base + s.finishTurns := by
  obtain ⟨hlow, hhigh, hplace⟩ := (h.held _ k h.finishTx_lt).mp hk
  have hacc := h.accepted
  have hret := h.returned
  have hroom := h.room
  rw [h.finish] at hplace
  -- there are at most as many packets in the ring as it has slots
  unfold txDescSize at *
  omega

/-! ### The steps -/

theorem frame (h : Ledger s base) (own : ℕ → Bool) (dma : ℕ) (txbd : Option ℕ) {call : Call}
    (hpending : s.call.pending = call.pending) :
    Ledger { s with own := own, dma := dma, txbd := txbd, call := call } base := by
  have hacc := h.accepted
  have hroom := h.room
  rw [hpending] at hacc hroom
  exact ⟨h.returned, hacc, h.order, hroom, h.cur, h.finish, h.held, h.nodup, h.freed⟩

theorem begin (h : Ledger s base) (hcall : s.call = .outside) : Ledger s.begin base :=
  h.frame _ _ _ (by rw [hcall]; rfl)

theorem store (h : Ledger s base) (hcall : s.call = .tested) (hempty : s.txSkb s.curTx = none) :
    Ledger s.store base := by
  have hacc : s.accepted = s.returned := by rw [h.accepted, hcall]; rfl
  have hret := h.returned
  have hcur := h.cur
  -- were the ring full, the oldest packet would be in the slot
  have hroom : s.curTurns + 1 ≤ s.finishTurns + txDescSize := by
    by_contra hfull
    have hle := h.room
    rw [hcall] at hle
    have hold : s.txSkb s.curTx = some (base + s.finishTurns) := by
      apply (h.held _ _ h.curTx_lt).mpr
      simp only [Call.pending] at hle
      unfold txDescSize at *
      omega
    rw [hempty] at hold
    cases hold
  have hheld := h.held
  refine ⟨h.returned, ?_, h.order, hroom, h.cur, h.finish, ?_, h.nodup, h.freed⟩
  · show s.accepted + 1 = s.returned + 1
    rw [hacc]
  · intro i k hi
    show (if i = s.curTx then some s.accepted else s.txSkb i) = some k ↔
      base + s.finishTurns ≤ k ∧ k < s.accepted + 1 ∧ (k - base) % txDescSize = i
    have horder := h.order
    split
    · -- the new packet is in its place
      rename_i hslot
      rw [Option.some.injEq]
      unfold txDescSize at *
      omega
    · rename_i hslot
      rw [hheld i k hi]
      unfold txDescSize at *
      omega

theorem hand (h : Ledger s base) (hcall : s.call = .stored) : Ledger s.hand base :=
  h.frame _ _ _ (by rw [hcall]; rfl)

theorem advance (h : Ledger s base) (hcall : s.call = .handed) : Ledger s.advance base := by
  have hpending : s.call.pending = 1 := by rw [hcall]; rfl
  have hacc := h.accepted
  have hroom := h.room
  have hcur := h.cur
  rw [hpending] at hacc hroom
  refine ⟨?_, hacc, Nat.le_succ_of_le h.order, hroom, ?_, h.finish, h.held, h.nodup, h.freed⟩
  · show s.returned + 1 = base + (s.curTurns + 1)
    rw [h.returned, Nat.add_assoc]
  · -- the wrap around is a remainder
    show (if s.curTx + 1 ≥ txDescSize then 0 else s.curTx + 1) = (s.curTurns + 1) % txDescSize
    unfold txDescSize at *
    split <;> omega

theorem complete (h : Ledger s base) : Ledger s.complete base := h.frame _ _ _ rfl

theorem free (h : Ledger s base) {k : ℕ} (hk : s.txSkb s.finishTx = some k)
    (hbehind : s.finishTurns < s.curTurns) : Ledger (s.free k) base := by
  have hroom := h.room
  have hacc := h.accepted
  have hret := h.returned
  have hfinish := h.finish
  obtain rfl := h.at_finish hk
  refine ⟨h.returned, h.accepted, hbehind, ?_, h.cur, ?_, ?_, ?_, ?_⟩
  · show s.curTurns + s.call.pending ≤ s.finishTurns + 1 + txDescSize
    omega
  · show (s.finishTx + 1) % txDescSize = (s.finishTurns + 1) % txDescSize
    rw [hfinish, Nat.mod_add_mod]
  · intro i k hi
    show (if i = s.finishTx then none else s.txSkb i) = some k ↔
      base + (s.finishTurns + 1) ≤ k ∧ k < s.accepted ∧ (k - base) % txDescSize = i
    have hheld := h.held i k hi
    split
    · -- the slot at `finish_tx` is empty now, and its packet the oldest
      simp only [reduceCtorEq, false_iff]
      unfold txDescSize at *
      omega
    · rw [hheld]
      unfold txDescSize at *
      omega
  · -- the oldest packet was not freed before
    apply h.nodup.append (List.nodup_singleton _)
    rw [List.disjoint_singleton, h.freed]
    exact Nat.lt_irrefl _
  · intro j
    show j ∈ s.freed ++ [base + s.finishTurns] ↔ j < base + (s.finishTurns + 1)
    rw [List.mem_append, h.freed, List.mem_singleton]
    omega

theorem mem_filterMap_txSkb (h : Ledger s base) (k : ℕ) :
    k ∈ (List.range txDescSize).filterMap s.txSkb ↔
      base + s.finishTurns ≤ k ∧ k < s.accepted := by
  rw [List.mem_filterMap]
  constructor
  · rintro ⟨i, hi, hki⟩
    obtain ⟨hlow, hk, -⟩ := (h.held i k (List.mem_range.mp hi)).mp hki
    exact ⟨hlow, hk⟩
  · rintro ⟨hlow, hk⟩
    obtain ⟨i, ⟨hi, hki⟩, -⟩ := h.existsUnique hlow hk
    exact ⟨i, List.mem_range.mpr hi, hki⟩

theorem nodup_filterMap_txSkb (h : Ledger s base) :
    ((List.range txDescSize).filterMap s.txSkb).Nodup := by
  rw [List.Nodup, List.pairwise_filterMap]
  refine List.nodup_range.imp_of_mem ?_
  intro i j hi hj hij k hki l hlj hkl
  have hplace := ((h.held i k (List.mem_range.mp hi)).mp hki).2.2
  have hplace' := ((h.held j l (List.mem_range.mp hj)).mp hlj).2.2
  apply hij
  rw [← hplace, ← hplace', hkl]

theorem resetMac (h : Ledger s base) (hcall : s.call = .outside) (same : Bool) :
    Ledger (s.resetMac same) s.accepted := by
  have hacc : s.accepted = s.returned := by rw [h.accepted, hcall]; rfl
  refine ⟨hacc.symm, h.accepted, Nat.le_refl 0, ?_, rfl, rfl, ?_, ?_, ?_⟩
  · show 0 + s.call.pending ≤ 0 + txDescSize
    rw [hcall]
    decide
  · intro i k _
    show none = some k ↔ s.accepted + 0 ≤ k ∧ k < s.accepted ∧ (k - s.accepted) % txDescSize = i
    simp only [reduceCtorEq, false_iff]
    omega
  · -- nothing that is in the ring was freed before
    apply h.nodup.append h.nodup_filterMap_txSkb
    intro k hfreed hheld
    exact absurd ((h.freed k).mp hfreed) (Nat.not_lt_of_ge ((h.mem_filterMap_txSkb k).mp hheld).1)
  · intro k
    show k ∈ s.freed ++ (List.range txDescSize).filterMap s.txSkb ↔ k < s.accepted + 0
    rw [List.mem_append, h.freed, h.mem_filterMap_txSkb]
    have := h.order
    have := h.returned
    omega

end Ledger

/-! ## Runs -/

theorem reapable_eq_some {s : TxRing} {k : ℕ} :
    s.reapable = some k ↔ s.own s.finishTx = false ∧ s.txSkb s.finishTx = some k := by
  unfold TxRing.reapable
  split <;> simp_all

theorem Ledger.reap {s : TxRing} {base : ℕ} (h : Ledger s base) (hguard : Guarded s .reap) :
    Ledger s.reap base := by
  unfold TxRing.reap
  split
  · rename_i k hk
    obtain ⟨hown, hslot⟩ := reapable_eq_some.mp hk
    apply h.free hslot
    -- at `cur_tx` there is nothing to free, or a call is under way
    by_contra hlevel
    have hturns : s.finishTurns = s.curTurns := Nat.le_antisymm h.order (Nat.le_of_not_lt hlevel)
    rcases hguard with hcall | hne | hdma
    · -- no call is under way, and all packets are freed
      have hnew := ((h.held _ k h.finishTx_lt).mp hslot).2.1
      rw [h.accepted, hcall, h.returned, h.at_finish hslot, hturns] at hnew
      exact absurd hnew (Nat.lt_irrefl _)
    · exact hne (by rw [h.finish, h.cur, hturns])
    · rw [hown] at hdma
      cases hdma
  · exact h

end NucKernel.Ethernet
