import NucKernel.Ethernet.TxRing

/-!
# Setting up the descriptors of the Ethernet MAC (`nuc970_ether0.c`)

`nuc970_init_desc` allocates the two rings of descriptors and a buffer for every receive descriptor.
When a buffer cannot be allocated, what has been allocated is to be released. The loop that does so
runs from the slot without a buffer down to slot 1. So it releases what `rx_skb` held there before,
and never the buffer of slot 0.
## Modelling

- A buffer is known by a number. `alloc` are the results of the calls of `dev_alloc_skb`, by slot.
- `rdesc` is read after it was freed: `stale` is what stands there then.
- `dev_kfree_skb_any` does nothing with a null pointer.
-/

namespace NucKernel.Ethernet.InitDesc

def rxDescSize : ℕ := 32

def enomem : ℤ := 12

/-- `struct nuc970_txbd` -/
structure TxBd where
  mode : ℕ
  buffer : ℕ
  sl : ℕ
  next : ℕ

/-- `struct nuc970_rxbd` -/
structure RxBd where
  sl : ℕ
  buffer : ℕ
  reserved : ℕ
  next : ℕ

/-- What the allocators give: the addresses of the rings and the buffers -/
structure Memory where
  tdesc : Option ℕ
  rdesc : Option ℕ
  alloc : ℕ → Option ℕ
  dmaMap : ℕ → ℕ
  stale : ℕ → ℕ

structure Driver where
  txSkb : ℕ → Option ℕ
  rxSkb : ℕ → Option ℕ
  tdesc : ℕ → TxBd
  rdesc : ℕ → RxBd
  startTxPtr : ℕ
  startRxPtr : ℕ
  freedRings : ℕ
  unmapped : List ℕ
  released : List ℕ

variable (m : Memory)

/-- The `next` of a descriptor in a ring of `size` entries of 16 bytes -/
def nextOf (phys size i : ℕ) : ℕ := phys + if i = size - 1 then 0 else 16 * (i + 1)

/-- A pass of the loop over the transmit descriptors -/
def initTx (phys : ℕ) (d : Driver) (i : ℕ) : Driver :=
  { d with
    txSkb := Function.update d.txSkb i none
    -- PADDINGMODE | CRCMODE | MACTXINTEN
    tdesc := Function.update d.tdesc i ⟨0x7, 0, 0, nextOf phys txDescSize i⟩ }

/-- `get_new_skb`, for a buffer that was allocated -/
def getNewSkb (d : Driver) (i skb : ℕ) : Driver :=
  { d with
    rdesc := Function.update d.rdesc i { d.rdesc i with buffer := m.dmaMap skb }
    rxSkb := Function.update d.rxSkb i (some skb) }

def unwind : ℕ → Driver → Driver
  | 0, d => d
  | i + 1, d =>
    unwind i { d with
      unmapped := d.unmapped ++ [m.stale (i + 1)]
      released := d.released ++ (d.rxSkb (i + 1)).toList }

/-- The loop over the receive descriptors, with the number of passes left -/
def rxLoop (phys : ℕ) : ℕ → ℕ → Driver → ℤ × Driver
  | 0, _, d => (0, { d with startRxPtr := phys })
  | n + 1, i, d =>
    let rxbd := { d.rdesc i with next := nextOf phys rxDescSize i, sl := 0x80000000 }
    let d := { d with rdesc := Function.update d.rdesc i rxbd }
    match m.alloc i with
    | none => (-enomem, unwind m i { d with freedRings := d.freedRings + 2 })
    | some skb => rxLoop phys n (i + 1) (getNewSkb m d i skb)

def initDesc (d : Driver) : ℤ × Driver :=
  match m.tdesc, m.rdesc with
  | none, _ => (-enomem, d)
  | some _, none => (-enomem, { d with freedRings := d.freedRings + 1 })
  | some tdescPhys, some rdescPhys =>
    let d := (List.range txDescSize).foldl (initTx tdescPhys) d
    rxLoop m rdescPhys rxDescSize 0 { d with startTxPtr := tdescPhys }

/-! ## What is released -/

theorem unwind_released (i : ℕ) (d : Driver) :
    (unwind m i d).released = d.released ++ (List.range' 1 i).reverse.filterMap d.rxSkb := by
  induction i generalizing d with
  | zero => simp [unwind]
  | succ i ih =>
    rw [unwind, ih, List.range'_1_concat, List.reverse_append, List.append_assoc,
      Nat.add_comm 1 i]
    cases h : d.rxSkb (i + 1) <;> simp [h]

theorem foldl_initTx (phys : ℕ) (l : List ℕ) (d : Driver) :
    (l.foldl (initTx phys) d).rxSkb = d.rxSkb ∧
      (l.foldl (initTx phys) d).released = d.released ∧
      (l.foldl (initTx phys) d).unmapped = d.unmapped := by
  induction l generalizing d with
  | nil => exact ⟨rfl, rfl, rfl⟩
  | cons i l ih => exact ih (initTx phys d i)

theorem rxLoop_fails (phys : ℕ) {i : ℕ} (hfail : m.alloc i = none) (n start : ℕ) (d : Driver)
    (hlt : i < start + n) (hle : start ≤ i)
    (hok : ∀ j, start ≤ j → j < i → (m.alloc j).isSome = true) :
    ∃ d', rxLoop m phys n start d = (-enomem, unwind m i d') ∧ d'.released = d.released ∧
      d'.unmapped = d.unmapped ∧ d'.rxSkb i = d.rxSkb i := by
  induction n generalizing start d with
  | zero => omega
  | succ n ih =>
    rcases Nat.eq_or_lt_of_le hle with rfl | hbelow
    · -- this slot gets no buffer
      simp only [rxLoop, hfail]
      exact ⟨_, rfl, rfl, rfl, rfl⟩
    · obtain ⟨skb, hskb⟩ := Option.isSome_iff_exists.mp (hok start (Nat.le_refl _) hbelow)
      simp only [rxLoop, hskb]
      obtain ⟨d', hrun, hreleased, hunmapped, hslot⟩ :=
        ih (start + 1) (getNewSkb m _ start skb) (by omega) hbelow
          fun j hj hji => hok j (by omega) hji
      refine ⟨d', hrun, hreleased, hunmapped, hslot.trans ?_⟩
      exact Function.update_of_ne (by omega) _ _

/-- The right way to fail at slot `i`: exactly the buffers of this call are unmapped and released,
    each once, and nothing that was in `rx_skb` before. -/
structure Releases (d : Driver) (i : ℕ) (r : ℤ × Driver) : Prop where
  ret : r.1 = -enomem
  released : r.2.released.Perm ((List.range i).filterMap m.alloc)
  unmapped : r.2.unmapped.Perm (((List.range i).filterMap m.alloc).map m.dmaMap)
  spared : ∀ j, ∀ skb ∈ d.rxSkb j, skb ∉ r.2.released

/-- **Failure**: whatever `rx_skb` held before, the buffers that were allocated are released as they
    should exactly if the first slot gets none, when there are not any. -/
theorem releases_iff (d : Driver) {i tdescPhys rdescPhys : ℕ} (htdesc : m.tdesc = some tdescPhys)
    (hrdesc : m.rdesc = some rdescPhys) (hnew : d.released = [] ∧ d.unmapped = [])
    (hi : i < rxDescSize) (hok : ∀ j < i, (m.alloc j).isSome = true) (hfail : m.alloc i = none) :
    Releases m d i (initDesc m d) ↔ i = 0 := by
  obtain ⟨hskb, hreleased, hunmapped⟩ := foldl_initTx tdescPhys (List.range txDescSize) d
  have hinit : initDesc m d = rxLoop m rdescPhys rxDescSize 0
      { (List.range txDescSize).foldl (initTx tdescPhys) d with startTxPtr := tdescPhys } := by
    simp only [initDesc, htdesc, hrdesc]
  obtain ⟨d', hrun, hd', hd'', hslot⟩ := rxLoop_fails m rdescPhys hfail rxDescSize 0 _
    (Nat.lt_of_lt_of_eq hi (Nat.zero_add _).symm) (Nat.zero_le _) fun j _ hj => hok j hj
  rw [← hinit] at hrun
  replace hd' := hd'.trans (hreleased.trans hnew.1)
  replace hd'' := hd''.trans (hunmapped.trans hnew.2)
  constructor
  · intro h
    -- some buffers were allocated before
    by_contra hpos
    obtain ⟨k, rfl⟩ := Nat.exists_eq_succ_of_ne_zero hpos
    have hfreed : (initDesc m d).2.released =
        (d.rxSkb (k + 1)).toList ++ (List.range' 1 k).reverse.filterMap d'.rxSkb := by
      rw [hrun]
      simp only [unwind_released, hd', List.nil_append]
      rw [List.range'_1_concat, List.reverse_append, Nat.add_comm 1 k]
      cases hold : d.rxSkb (k + 1) <;> simp [hslot, hskb, hold]
    -- what the slot held before is released, or the buffer of slot 0 is missing
    cases hold : d.rxSkb (k + 1) with
    | some skb =>
      refine h.spared (k + 1) skb hold ?_
      rw [hfreed, hold]
      simp
    | none =>
      have hcount : ((List.range (k + 1)).filterMap m.alloc).length = k + 1 := by
        rw [List.length_filterMap_eq_countP, List.countP_eq_length.mpr fun j hj =>
          hok j (List.mem_range.mp hj), List.length_range]
      have hlen := h.released.length_eq
      have hle := List.length_filterMap_le d'.rxSkb (List.range' 1 k).reverse
      rw [hfreed, hold, hcount] at hlen
      simp at hlen hle
      omega
  · rintro rfl
    rw [hrun, unwind]
    refine ⟨rfl, ?_, ?_, fun j skb _ => ?_⟩
    · rw [hd']
      exact .nil
    · rw [hd'']
      exact .nil
    · rw [hd']
      exact List.not_mem_nil

/-- A driver whose slot 1 has the buffer 7 of a ring that was set up before -/
def reopened : Driver :=
  ⟨fun _ => none, fun i => if i = 1 then some 7 else none, fun _ => ⟨0, 0, 0, 0⟩,
    fun _ => ⟨0, 0, 0, 0⟩, 0, 0, 0, [], []⟩

/-- No memory for the first buffer -/
theorem releases_first :
    Releases ⟨some 0, some 512, fun _ => none, fun _ => 0, fun _ => 0⟩ reopened 0
      (initDesc ⟨some 0, some 512, fun _ => none, fun _ => 0, fun _ => 0⟩ reopened) :=
  (releases_iff _ _ rfl rfl ⟨rfl, rfl⟩ (by decide) (by decide) rfl).mpr rfl

/-- No memory for the second one: buffer 100 of slot 0 stays allocated, and the buffer of the ring
    before is released once more. -/
theorem second_fails :
    (initDesc ⟨some 0, some 512, fun i => if i = 0 then some 100 else none, fun _ => 0,
      fun _ => 0⟩ reopened).1 = -enomem ∧
    (initDesc ⟨some 0, some 512, fun i => if i = 0 then some 100 else none, fun _ => 0,
      fun _ => 0⟩ reopened).2.released = [7] := by
  decide

end NucKernel.Ethernet.InitDesc
