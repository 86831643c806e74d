import NucKernel.Iommu.IovaSafety

/-!
# When an allocation of addresses fails

The walk of `__alloc_and_insert_iova_range` goes down from the limit. Where it ends without a gap,
every range of the size below the limit that it started from has a page in use, unless the range
starts at the first page: the test for the last gap leaves this page out. The walk starts from the
limit of the request, but for requests with the limit `dma_32bit_pfn` from the page below the node
of the last one of them.
-/

namespace NucKernel.Iommu

open NucKernel.Library

namespace IovaDomain

variable {d : IovaDomain}

/-- Every range of the size with the alignment, from page `first` to page `limit`, has a page in
    use. -/
def Full (d : IovaDomain) (first limit size : ℕ) (sizeAligned : Bool) : Prop :=
  ∀ lo, first ≤ lo → lo + size ≤ limit + 1 → (sizeAligned = true → size ∣ lo) →
    ∃ q, lo ≤ q ∧ q < lo + size ∧ d.Covers q

theorem add_padSize_le {size limitPfn lo : ℕ} {sizeAligned : Bool}
    (hpow : sizeAligned = true → ∃ k, size = 2 ^ k) (hlimit : limitPfn + 1 < 2 ^ 32)
    (hfits : lo + size ≤ limitPfn + 1) (haligned : sizeAligned = true → size ∣ lo) :
    lo + size + padSize sizeAligned size limitPfn ≤ limitPfn + 1 := by
  unfold padSize
  split_ifs with ha
  · obtain ⟨k, hk⟩ := hpow ha
    have hpos : 0 < size := by
      rw [hk]
      exact Nat.two_pow_pos k
    rw [iovaGetPadSize_eq hk hlimit]
    -- the end of the range is a multiple of the size, so it is not beyond the last one of them
    have hdvd : size ∣ lo + size := Nat.dvd_add (haligned ha) (Nat.dvd_refl size)
    have hle : lo + size ≤ (limitPfn + 1) / size * size := by
      rw [← Nat.div_mul_cancel hdvd]
      exact Nat.mul_le_mul_right size (Nat.div_le_div_right hfits)
    calc lo + size + (limitPfn + 1) % size
        ≤ (limitPfn + 1) / size * size + (limitPfn + 1) % size := Nat.add_le_add_right hle _
      _ = limitPfn + 1 := Nat.div_add_mod' _ _
  · exact hfits

theorem covers_of_meets {c lo size : ℕ} (hc : c ∈ d.rbroot.inorder) (hsize : 1 ≤ size)
    (hrange : (d.iova c).lo ≤ (d.iova c).hi) (hlo : lo ≤ (d.iova c).hi)
    (hhi : (d.iova c).lo < lo + size) : ∃ q, lo ≤ q ∧ q < lo + size ∧ d.Covers q :=
  ⟨max lo (d.iova c).lo, by omega, by omega, c, hc, by omega, by omega⟩

theorem searchSlot_full (h : d.Inv) {size : ℕ} {sizeAligned : Bool} (hsize : 1 ≤ size)
    (hpow : sizeAligned = true → ∃ k, size = 2 ^ k) {limitPfn : ℕ}
    (hlimit : limitPfn + 2 * size < 2 ^ 32) (prev : Option ℕ) {curr : List ℕ}
    (hcurr : ∀ c ∈ curr, c ∈ d.rbroot.inorder)
    (hend : (d.searchSlot size sizeAligned limitPfn prev curr).found = false)
    (hlast : (d.searchSlot size sizeAligned limitPfn prev curr).limitPfn <
      1 + size + padSize sizeAligned size
        (d.searchSlot size sizeAligned limitPfn prev curr).limitPfn) :
    d.Full 2 limitPfn size sizeAligned := by
  induction curr generalizing limitPfn prev with
  | nil =>
    intro lo hlo hfits haligned
    -- nothing is left below, and no room up to the limit
    have := add_padSize_le hpow (by omega) hfits haligned
    simp only [searchSlot] at hlast
    omega
  | cons c rest ih =>
    have hc := hcurr c (List.mem_cons_self ..)
    obtain ⟨hlo, hle, hhi⟩ := h.range c hc
    have hrest : ∀ i ∈ rest, i ∈ d.rbroot.inorder := fun i hi => hcurr i (List.mem_cons_of_mem c hi)
    have hpred : sub32 (d.iova c).lo 1 = (d.iova c).lo - 1 := sub32_one hlo (by omega)
    rw [searchSlot, hpred] at hend hlast
    intro first hfirst hfits haligned
    split_ifs at hend hlast with hbelow hreach hroom
    · -- the walk passes a node above the limit
      exact ih hlimit (some c) hrest hend hlast first hfirst hfits haligned
    · -- the limit is within the node
      by_cases hunder : first + size ≤ (d.iova c).lo
      · exact ih (by omega) (some c) hrest hend hlast first hfirst (by omega) haligned
      · exact covers_of_meets hc hsize hle (by omega) (by omega)
    · by_cases hunder : first + size ≤ (d.iova c).lo
      · exact ih (by omega) (some c) hrest hend hlast first hfirst (by omega) haligned
      · -- above the node the gap is too small
        have hpad := padSize_lt hsize hpow limitPfn
        have := add_padSize_le hpow (by omega) hfits haligned
        rw [Nat.mod_eq_of_lt (by omega)] at hroom
        exact covers_of_meets hc hsize hle (by omega) (by omega)

theorem allocIova_full {b : Balance ℕ} {d' : IovaDomain} (h : d.Inv) {size n limitPfn : ℕ}
    {sizeAligned : Bool} (hsize : 1 ≤ size) (hn : roundedSize size sizeAligned = some n)
    (hlimit : limitPfn + 2 * n < 2 ^ 32)
    (hfail : d.allocIova b size limitPfn sizeAligned = some (d', none)) :
    d.Full 2 (d.getCachedRbnode limitPfn).2 n sizeAligned := by
  obtain ⟨hpos, hpow⟩ := roundedSize_spec hsize hn
  obtain ⟨hstart, y, hnodes, habove⟩ := getCachedRbnode_spec h limitPfn
  rw [allocIova, hn] at hfail
  change d.allocAndInsertIovaRange b n limitPfn sizeAligned = some (d', none) at hfail
  unfold allocAndInsertIovaRange at hfail
  generalize d.getCachedRbnode limitPfn = start at hstart hnodes habove hfail ⊢
  obtain ⟨curr, limit⟩ := start
  dsimp only at hstart hnodes habove hfail ⊢
  have hcurr : ∀ c ∈ curr, c ∈ d.rbroot.inorder := fun c hc => by
    rw [hnodes]
    exact List.mem_append_left _ (List.mem_reverse.mpr hc)
  have hbound := (searchSlot_spec h hpos hpow (by omega : limit + 2 * n < 2 ^ 32) curr.head? hnodes
    habove).1
  have hpad := padSize_lt hpos hpow
    (d.searchSlot n sizeAligned limit curr.head? curr).limitPfn
  split at hfail
  · rename_i hlast
    rw [Nat.mod_eq_of_lt (by omega)] at hlast
    -- the walk has ended without a gap
    exact searchSlot_full h hpos hpow (by omega) curr.head? hcurr hlast.1 hlast.2
  · -- a walk with a gap returns a node
    generalize d.searchSlot n sizeAligned limit curr.head? curr = slot at hfail
    cases hins : d.insertNew slot.prev
      (sub32 (slot.limitPfn + 1) (n + padSize sizeAligned n slot.limitPfn)) with
    | none => simp [hins] at hfail
    | some t => simp [hins] at hfail

end IovaDomain

/-! ## Runs -/

/-- An allocation that fails has no free range up to its limit. -/
def Complete (s : IovaRun) (op : IovaOp) (s' : IovaRun) : Prop :=
  ∀ size limitPfn sizeAligned n, op = .alloc size limitPfn sizeAligned →
    roundedSize size sizeAligned = some n → s'.ret = none →
    s.dom.Full 1 limitPfn n sizeAligned

/-- The walk of an allocation starts from the limit of the request. -/
def Uncached (s : IovaRun) (op : IovaOp) : Prop :=
  ∀ size limitPfn sizeAligned, op = .alloc size limitPfn sizeAligned →
    limitPfn ≠ s.dom.dma32bitPfn ∨ s.dom.cached32Node = none

/-- If an allocation has room at all, it has room above the first page. -/
def RoomAbove (s : IovaRun) (op : IovaOp) : Prop :=
  ∀ size limitPfn sizeAligned n, op = .alloc size limitPfn sizeAligned →
    roundedSize size sizeAligned = some n → ¬ s.dom.Full 1 limitPfn n sizeAligned →
    ¬ s.dom.Full 2 limitPfn n sizeAligned

theorem iovaStep_complete {b : Balance ℕ} {s s' : IovaRun} {op : IovaOp} (h : s.Inv)
    (hop : op.Fits) (hstep : iovaStep b s op = some s') (hlimit : Uncached s op)
    (hroom : RoomAbove s op) : Complete s op s' := by
  rintro size limitPfn sizeAligned n rfl hn hret
  obtain ⟨hsize, m, hm, hfits⟩ := hop
  obtain rfl : m = n := Option.some.inj (hm.symm.trans hn)
  obtain ⟨⟨d', ret⟩, halloc, rfl⟩ := Option.map_eq_some_iff.mp hstep
  obtain rfl : ret = none := hret
  have hfull := IovaDomain.allocIova_full h.1 hsize hn hfits halloc
  -- the walk starts from the limit of the request
  have hstart : (s.dom.getCachedRbnode limitPfn).2 = limitPfn := by
    unfold IovaDomain.getCachedRbnode
    rcases hlimit size limitPfn sizeAligned rfl with hne | hnone
    · split
      · rfl
      · rw [if_pos hne]
    · rw [hnone]
  rw [hstart] at hfull
  exact not_not.mp fun hnot => hroom size limitPfn sizeAligned m rfl hn hnot hfull

/-- **Completeness**: in every run of calls that does not reserve page 0, with limits and sizes
    whose sums fit into a word, an allocation that does not start from the cached node fails only if
    no range is free, unless the only free one starts at the first page. -/
theorem alloc_complete (b : Balance ℕ) (pfn32bit : ℕ) {ops : List IovaOp}
    (hops : ∀ op ∈ ops, op.Fits) :
    (∃ s, runFrom (iovaStep b) (IovaRun.start pfn32bit) ops = some s) ∧
      Along (iovaStep b) (fun s op s' => Uncached s op → RoomAbove s op → Complete s op s')
        (IovaRun.start pfn32bit) ops := by
  refine runs_along (I := IovaRun.Inv) (fun s op hs hop => ?_) ?_ hops
  · obtain ⟨s', hstep, hinv, -⟩ := iovaStep_safe b s op hs hop
    exact ⟨s', hstep, hinv, iovaStep_complete hs hop hstep⟩
  · exact ⟨⟨List.Pairwise.nil, nofun, nofun, nofun⟩, nofun⟩

theorem alloc_complete_two :
    let ops : List IovaOp := [.alloc 3 10 false, .alloc 8 10 true]
    Along (iovaStep (Balance.unbalanced ℕ))
        (fun s op s' => Uncached s op → RoomAbove s op → Complete s op s') (IovaRun.start 100) ops ∧
      ((runFrom (iovaStep (Balance.unbalanced ℕ)) (IovaRun.start 100) ops).map IovaRun.ret =
        some none) := by
  refine ⟨(alloc_complete (Balance.unbalanced ℕ) 100 ?_).2, by decide⟩
  simp only [List.forall_mem_cons, List.not_mem_nil, false_imp_iff, implies_true, and_true]
  exact ⟨⟨by decide, 3, by decide, by decide⟩, ⟨by decide, 8, by decide, by decide⟩⟩

/-- In a domain without ranges, five pages up to page 5 are refused. With the limit
    `dma_32bit_pfn` a page is refused that is free above the last range allocated. -/
theorem free_range_refused :
    ¬ Along (iovaStep (Balance.unbalanced ℕ)) Complete (IovaRun.start 100) [.alloc 5 5 false] ∧
      ¬ Along (iovaStep (Balance.unbalanced ℕ)) Complete (IovaRun.start 10)
        [.reserve 9 9, .alloc 3 10 false, .alloc 4 10 false, .alloc 1 10 false] := by
  constructor
  · intro h
    -- page 1 is free, but it is left out
    obtain ⟨hcomplete, -⟩ := h _ rfl
    obtain ⟨q, -, -, i, hi, -⟩ :=
      hcomplete 5 5 false 5 rfl rfl rfl 1 (by decide) (by decide) nofun
    exact absurd hi List.not_mem_nil
  · intro h
    obtain ⟨-, h⟩ := h _ rfl
    obtain ⟨-, h⟩ := h _ rfl
    obtain ⟨-, h⟩ := h _ rfl
    obtain ⟨hcomplete, -⟩ := h _ rfl
    -- page 10 is free above the cached node
    obtain ⟨q, hlo, hhi, i, hi, hq⟩ :=
      hcomplete 1 10 false 1 rfl rfl rfl 10 (by decide) (by decide) nofun
    obtain rfl : q = 10 := by omega
    exact absurd hq (by revert i; decide)

end NucKernel.Iommu
