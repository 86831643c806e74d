import NucKernel.Iommu.Iova

/-!
# Allocating I/O virtual addresses

The walk of `__alloc_and_insert_iova_range` ends at a limit that is below all ranges it has passed,
and above the range it stops at. The new range lies between them, and its node is linked below the
node that the walk has come from: one of its neighbours, so the order of the tree is kept.
-/

namespace NucKernel.Iommu

open NucKernel.Library

namespace IovaDomain

variable {b : Balance ℕ} {d : IovaDomain}

/-! ## Inserting a range -/

/-- The domain after a range was inserted -/
def withNew (b : Balance ℕ) (d : IovaDomain) (rbroot : SearchTree ℕ) (r : Iova)
    (cached : Option ℕ) : IovaDomain :=
  { d with
    rbroot := b.color rbroot
    cached32Node := cached
    iova := Function.update d.iova d.fresh r
    fresh := d.fresh + 1 }

def Apart (d : IovaDomain) (r : Iova) : Prop :=
  ∀ i ∈ d.rbroot.inorder, (d.iova i).hi < r.lo ∨ r.hi < (d.iova i).lo

theorem lowCmp_gt_iff {lo i : ℕ} : d.lowCmp lo i = .gt ↔ (d.iova i).lo < lo := by
  unfold lowCmp
  split
  · rename_i h
    exact iff_of_false nofun (by omega)
  · split
    · rename_i h
      exact iff_of_true rfl h
    · rename_i h
      exact iff_of_false nofun h

theorem lowCmp_lt_iff {lo i : ℕ} : d.lowCmp lo i = .lt ↔ lo < (d.iova i).lo := by
  unfold lowCmp
  split
  · rename_i h
    exact iff_of_true rfl h
  · rename_i h
    split
    · exact iff_of_false nofun h
    · exact iff_of_false nofun h

theorem lowCmp_ne_eq {lo i : ℕ} (h : (d.iova i).lo ≠ lo) : d.lowCmp lo i ≠ .eq := by
  unfold lowCmp
  split
  · exact nofun
  · split
    · exact nofun
    · omega

section WithNew

variable {rbroot : SearchTree ℕ} {r : Iova} {cached : Option ℕ}

theorem iova_withNew_new : (withNew b d rbroot r cached).iova d.fresh = r :=
  Function.update_self ..

theorem iova_withNew_old (h : d.Inv) (i : ℕ) (hi : i ∈ d.rbroot.inorder) :
    (withNew b d rbroot r cached).iova i = d.iova i :=
  Function.update_of_ne (Nat.ne_of_lt (h.old i hi)) ..

variable (hins : SearchTree.Inserted (d.lowCmp r.lo) d.fresh d.rbroot.inorder rbroot.inorder)
include hins

theorem mem_withNew (i : ℕ) :
    i ∈ (withNew b d rbroot r cached).rbroot.inorder ↔ i = d.fresh ∨ i ∈ d.rbroot.inorder := by
  rw [withNew, b.inorder_color]
  exact hins.mem_iff i

theorem withNew_inv (h : d.Inv)
    (hr : 1 ≤ r.lo ∧ r.lo ≤ r.hi ∧ r.hi < 2 ^ 32) (happart : d.Apart r)
    (hcached : ∀ c, cached = some c →
      c = d.fresh ∧ r.lo ≤ d.dma32bitPfn ∨ d.cached32Node = some c) :
    (withNew b d rbroot r cached).Inv := by
  have hmem := @mem_withNew b d rbroot r cached hins
  have hold := @iova_withNew_old b d rbroot r cached h
  refine ⟨?_, fun i hi => ?_, fun i hi => ?_, fun c hc => ?_⟩
  · -- the new node has its place between the two halves
    have hinorder : (withNew b d rbroot r cached).rbroot.inorder = rbroot.inorder :=
      b.inorder_color rbroot
    rw [hinorder]
    refine hins.pairwise (h.sorted.imp_of_mem fun ha hc hlt => ?_) (fun a ha hgt => ?_)
      fun c hc hlt => ?_
    · rw [hold _ ha, hold _ hc]
      exact hlt
    · have hlow := lowCmp_gt_iff.mp hgt
      have hapart := happart a ha
      rw [iova_withNew_new, hold a ha]
      omega
    · have hhigh := lowCmp_lt_iff.mp hlt
      have hle := (h.range c hc).2.1
      have hapart := happart c hc
      rw [iova_withNew_new, hold c hc]
      omega
  · rcases (hmem i).mp hi with rfl | hi
    · rw [iova_withNew_new]
      exact hr
    · rw [hold i hi]
      exact h.range i hi
  · rcases (hmem i).mp hi with rfl | hi
    · exact Nat.lt_succ_self _
    · exact Nat.lt_succ_of_lt (h.old i hi)
  · -- the cached node is the new one or the one before
    rcases hcached c hc with ⟨rfl, hle⟩ | hc
    · refine ⟨(hmem _).mpr (.inl rfl), ?_⟩
      rw [iova_withNew_new]
      exact hle
    · obtain ⟨hin, hle⟩ := h.cached c hc
      refine ⟨(hmem c).mpr (.inr hin), ?_⟩
      rw [hold c hin]
      exact hle

theorem covers_withNew (h : d.Inv) (pfn : ℕ) :
    (withNew b d rbroot r cached).Covers pfn ↔ r.lo ≤ pfn ∧ pfn ≤ r.hi ∨ d.Covers pfn := by
  have hmem := @mem_withNew b d rbroot r cached hins
  have hold := @iova_withNew_old b d rbroot r cached h
  constructor
  · -- a page of the new range, or one that was in use
    rintro ⟨i, hi, hlo, hhi⟩
    rcases (hmem i).mp hi with rfl | hi
    · rw [iova_withNew_new] at hlo hhi
      exact .inl ⟨hlo, hhi⟩
    · rw [hold i hi] at hlo hhi
      exact .inr ⟨i, hi, hlo, hhi⟩
  · rintro (⟨hlo, hhi⟩ | ⟨i, hi, hlo, hhi⟩)
    · refine ⟨d.fresh, (hmem _).mpr (.inl rfl), ?_⟩
      rw [iova_withNew_new]
      exact ⟨hlo, hhi⟩
    · refine ⟨i, (hmem i).mpr (.inr hi), ?_⟩
      rw [hold i hi]
      exact ⟨hlo, hhi⟩

end WithNew

/-! ## Allocation -/

theorem padSize_lt {sizeAligned : Bool} {size : ℕ} (hsize : 1 ≤ size)
    (hpow : sizeAligned = true → ∃ k, size = 2 ^ k) (limitPfn : ℕ) :
    padSize sizeAligned size limitPfn < size := by
  unfold padSize
  split
  · rename_i haligned
    -- the padding is less than a power of two, the size
    obtain ⟨k, rfl⟩ := hpow haligned
    unfold iovaGetPadSize
    simp only [Nat.log2_two_pow]
    split
    · exact Nat.mod_lt _ (Nat.two_pow_pos k)
    · exact hsize
  · exact hsize

/-- Where the walk ends: the limit is below the nodes of `y`, and above those of `x` with room for
    the size if there are any. The walk has come from the first node of `y`, or it has not gone
    on. -/
structure Slot.Between (d : IovaDomain) (size : ℕ) (sizeAligned : Bool) (slot : Slot)
    (x y : List ℕ) : Prop where
  nodes : d.rbroot.inorder = x ++ y
  above : ∀ j ∈ y, slot.limitPfn < (d.iova j).lo
  below : ∀ i ∈ x, slot.found = true ∧
    (d.iova i).hi + size + padSize sizeAligned size slot.limitPfn ≤ slot.limitPfn
  found : slot.found = true → x ≠ []

def Slot.Ends (d : IovaDomain) (size : ℕ) (sizeAligned : Bool) (limitPfn : ℕ) (prev : Option ℕ)
    (y : List ℕ) (slot : Slot) : Prop :=
  slot.limitPfn ≤ limitPfn ∧ ∃ x' y', slot.Between d size sizeAligned x' y' ∧
    (slot.prev = prev ∧ y' = y ∨ ∃ p z, slot.prev = some p ∧ y' = p :: z)

theorem Slot.Ends.step {size limit limitPfn c : ℕ} {sizeAligned : Bool} {y : List ℕ} {slot : Slot}
    (h : slot.Ends d size sizeAligned limit (some c) (c :: y)) (hlimit : limit ≤ limitPfn)
    (prev : Option ℕ) : slot.Ends d size sizeAligned limitPfn prev y := by
  obtain ⟨hlow, x', y', hbetween, hprev⟩ := h
  refine ⟨Nat.le_trans hlow hlimit, x', y', hbetween, .inr ?_⟩
  rcases hprev with ⟨hprev, rfl⟩ | hprev
  · exact ⟨c, y, hprev, rfl⟩
  · exact hprev

theorem searchSlot_spec (h : d.Inv) {size : ℕ} {sizeAligned : Bool} (hsize : 1 ≤ size)
    (hpow : sizeAligned = true → ∃ k, size = 2 ^ k) {limitPfn : ℕ}
    (hlimit : limitPfn + 2 * size < 2 ^ 32) (prev : Option ℕ) {curr y : List ℕ}
    (hnodes : d.rbroot.inorder = curr.reverse ++ y) (habove : ∀ j ∈ y, limitPfn < (d.iova j).lo) :
    (d.searchSlot size sizeAligned limitPfn prev curr).Ends d size sizeAligned limitPfn prev y := by
  induction curr generalizing limitPfn prev y with
  | nil =>
    exact ⟨Nat.le_refl _, [], y, ⟨hnodes, habove, nofun, nofun⟩, .inl ⟨rfl, rfl⟩⟩
  | cons c rest ih =>
    rw [List.reverse_cons, List.append_assoc, List.singleton_append] at hnodes
    have hc : c ∈ d.rbroot.inorder := by
      rw [hnodes]
      exact List.mem_append_right _ (List.mem_cons_self ..)
    obtain ⟨hlo, hle, hhi⟩ := h.range c hc
    have hsorted := h.sorted
    rw [hnodes] at hsorted
    obtain ⟨-, hcy, hcross⟩ := List.pairwise_append.mp hsorted
    have hafter := (List.pairwise_cons.mp hcy).1
    -- where the walk goes on, the limit is below this node
    have hgo : ∀ {limit : ℕ}, limit ≤ limitPfn → limit < (d.iova c).lo →
        (d.searchSlot size sizeAligned limit (some c) rest).Ends d size sizeAligned limitPfn prev
          y := by
      intro limit hlimit' hc'
      refine (ih (by omega) (some c) hnodes fun j hj => ?_).step hlimit' prev
      rcases List.mem_cons.mp hj with rfl | hj
      · exact hc'
      · have := hafter j hj
        omega
    have hpred : sub32 (d.iova c).lo 1 = (d.iova c).lo - 1 := sub32_one hlo (by omega)
    rw [searchSlot]
    split
    · -- the node is above the limit
      rename_i hbelow
      exact hgo (Nat.le_refl _) hbelow
    · rename_i hbelow
      have hadjust := hgo (by omega : (d.iova c).lo - 1 ≤ limitPfn) (by omega)
      rw [← hpred] at hadjust
      split
      · -- the limit is within the node
        exact hadjust
      · rename_i hreach
        split
        · -- the gap above the node is wide enough
          rename_i hroom
          have hpad := padSize_lt hsize hpow limitPfn
          rw [Nat.mod_eq_of_lt (by omega)] at hroom
          refine ⟨Nat.le_refl _, rest.reverse ++ [c], y, ⟨by simpa using hnodes, habove,
            fun i hi => ⟨rfl, ?_⟩, fun _ => by simp⟩, .inl ⟨rfl, rfl⟩⟩
          rcases List.mem_append.mp hi with hi | hi
          · have := hcross i hi c (List.mem_cons_self ..)
            simp only
            omega
          · obtain rfl := List.mem_singleton.mp hi
            exact hroom
        · exact hadjust

theorem getCachedRbnode_spec (h : d.Inv) (limitPfn : ℕ) :
    (d.getCachedRbnode limitPfn).2 ≤ limitPfn ∧
      ∃ y, d.rbroot.inorder = (d.getCachedRbnode limitPfn).1.reverse ++ y ∧
        ∀ j ∈ y, (d.getCachedRbnode limitPfn).2 < (d.iova j).lo := by
  have hall : d.rbroot.inorder = d.rbroot.inorder.reverse.reverse ++ [] := by simp
  unfold getCachedRbnode
  split
  · -- there is no cached node, or another limit is asked for
    exact ⟨Nat.le_refl _, [], hall, nofun⟩
  · rename_i c hcached
    split
    · exact ⟨Nat.le_refl _, [], hall, nofun⟩
    · rename_i hlimit
      obtain ⟨hc, hle⟩ := h.cached c hcached
      obtain ⟨hlo, hlohi, hhi⟩ := h.range c hc
      obtain ⟨x, y, hxy, hcx, -, hafter⟩ := h.split hc
      have hpred : sub32 (d.iova c).lo 1 = (d.iova c).lo - 1 := sub32_one hlo (by omega)
      simp only [hpred, SearchTree.before_eq hxy hcx]
      refine ⟨by omega, c :: y, by rw [List.reverse_reverse, hxy], fun j hj => ?_⟩
      rcases List.mem_cons.mp hj with rfl | hj
      · omega
      · have := hafter j hj
        omega

theorem guides_lowCmp (h : d.Inv) (lo : ℕ) : SearchTree.Guides (d.lowCmp lo) d.rbroot.inorder := by
  refine h.sorted.imp_of_mem fun {a c} ha _ hlt hne => ?_
  have hle := (h.range a ha).2.1
  have hge : ¬ (d.iova a).lo < lo := fun hgt => hne (lowCmp_gt_iff.mpr hgt)
  exact lowCmp_lt_iff.mpr (by omega)

theorem Apart.lowCmp_ne {r : Iova} (hr : r.lo ≤ r.hi) (h : d.Inv) (happart : d.Apart r) :
    ∀ i ∈ d.rbroot.inorder, d.lowCmp r.lo i ≠ .eq := fun i hi => by
  have hle := (h.range i hi).2.1
  refine lowCmp_ne_eq ?_
  rcases happart i hi with hlow | hhigh <;> omega

theorem insert_slot (h : d.Inv) {r : Iova} (hr : r.lo ≤ r.hi) {curr y x' y' : List ℕ}
    (hnodes : d.rbroot.inorder = curr.reverse ++ y) (hnodes' : d.rbroot.inorder = x' ++ y')
    (hbelow : ∀ i ∈ x', (d.iova i).hi < r.lo) (habove : ∀ j ∈ y', r.hi < (d.iova j).lo)
    {prev : Option ℕ}
    (hprev : prev = curr.head? ∧ y' = y ∨ ∃ p z, prev = some p ∧ y' = p :: z) :
    ∃ t, d.insertNew prev r.lo = some t ∧
      SearchTree.Inserted (d.lowCmp r.lo) d.fresh d.rbroot.inorder t.inorder := by
  have happart : d.Apart r := fun i hi => by
    rw [hnodes'] at hi
    exact (List.mem_append.mp hi).imp (hbelow i) (habove i)
  have hne := happart.lowCmp_ne hr h
  -- the nodes below and above guide the search to either side
  have hgt : ∀ i ∈ x', d.lowCmp r.lo i = .gt := fun i hi => by
    have hin : i ∈ d.rbroot.inorder := by
      rw [hnodes']
      exact List.mem_append_left _ hi
    have hle := (h.range i hin).2.1
    have := hbelow i hi
    exact lowCmp_gt_iff.mpr (by omega)
  have hlt : ∀ j ∈ y', d.lowCmp r.lo j = .lt := fun j hj => by
    have := habove j hj
    exact lowCmp_lt_iff.mpr (by omega)
  -- the node is the first one above or the last one below
  have hbeside : ∀ {p : ℕ} {u v : List ℕ}, d.rbroot.inorder = u ++ p :: v →
      (∀ i ∈ u, d.lowCmp r.lo i = .gt) → (∀ j ∈ v, d.lowCmp r.lo j = .lt) →
      ∃ t, d.rbroot.insertFrom p (d.lowCmp r.lo) d.fresh = some t ∧
        SearchTree.Inserted (d.lowCmp r.lo) d.fresh d.rbroot.inorder t.inorder := by
    intro p u v huv hu hv
    have hp : p ∈ d.rbroot.inorder := by
      rw [huv]
      exact List.mem_append_right _ (List.mem_cons_self ..)
    refine SearchTree.insertFrom_spec hp ?_ (hne p hp)
    have hnodup := h.nodup
    rw [huv] at hnodup ⊢
    exact SearchTree.beside_append hnodup hu hv
  rcases hprev with ⟨rfl, rfl⟩ | ⟨p, z, rfl, rfl⟩
  · cases curr with
    -- the tree is empty: the search starts at the root
    | nil => exact SearchTree.insert_spec (guides_lowCmp h r.lo) hne
    | cons c rest =>
      have hx' : x' = rest.reverse ++ [c] := by
        rw [List.reverse_cons] at hnodes
        exact List.append_cancel_right (hnodes'.symm.trans hnodes)
      subst hx'
      -- the walk has stopped at its first node
      refine hbeside (u := rest.reverse) (v := y') (by simpa using hnodes') (fun i hi => ?_) hlt
      exact hgt i (List.mem_append_left _ hi)
  · -- the walk has come from the node above
    exact hbeside hnodes' hgt fun j hj => hlt j (List.mem_cons_of_mem p hj)

/-- What an allocation has done: a new range of the size, between the limits, aligned, and apart
    from all others -/
structure Allocated (d d' : IovaDomain) (size limitPfn : ℕ) (sizeAligned : Bool) : Prop where
  first : 1 ≤ (d'.iova d.fresh).lo
  last : (d'.iova d.fresh).hi ≤ limitPfn
  length : (d'.iova d.fresh).hi + 1 = (d'.iova d.fresh).lo + size
  aligned : sizeAligned = true → size ∣ (d'.iova d.fresh).lo
  apart : d.Apart (d'.iova d.fresh)
  live : d.fresh ∈ d'.rbroot.inorder
  inv : d'.Inv
  covers : ∀ pfn, d'.Covers pfn ↔
    (d'.iova d.fresh).lo ≤ pfn ∧ pfn ≤ (d'.iova d.fresh).hi ∨ d.Covers pfn

theorem allocated_withNew (b : Balance ℕ) (h : d.Inv) {rbroot : SearchTree ℕ} {r : Iova}
    {cached : Option ℕ} {size limitPfn : ℕ} {sizeAligned : Bool}
    (hins : SearchTree.Inserted (d.lowCmp r.lo) d.fresh d.rbroot.inorder rbroot.inorder)
    (hsize : 1 ≤ size) (hlimit : limitPfn < 2 ^ 32) (hfirst : 1 ≤ r.lo) (hlast : r.hi ≤ limitPfn)
    (hlength : r.hi + 1 = r.lo + size) (haligned : sizeAligned = true → size ∣ r.lo)
    (happart : d.Apart r)
    (hcached : ∀ c, cached = some c →
      c = d.fresh ∧ r.lo ≤ d.dma32bitPfn ∨ d.cached32Node = some c) :
    Allocated d (withNew b d rbroot r cached) size limitPfn sizeAligned := by
  exact {
    first := by rw [iova_withNew_new]; exact hfirst
    last := by rw [iova_withNew_new]; exact hlast
    length := by rw [iova_withNew_new]; exact hlength
    aligned := by rw [iova_withNew_new]; exact haligned
    apart := by rw [iova_withNew_new]; exact happart
    live := (mem_withNew hins _).mpr (.inl rfl)
    inv := withNew_inv hins h ⟨hfirst, by omega, by omega⟩ happart hcached
    covers := by rw [iova_withNew_new]; exact covers_withNew hins h }

theorem Slot.Between.fits {size : ℕ} {sizeAligned : Bool} {slot : Slot} {x y : List ℕ}
    (hslot : slot.Between d size sizeAligned x y) (h : d.Inv) (hfound : slot.found = true) :
    1 + size + padSize sizeAligned size slot.limitPfn ≤ slot.limitPfn := by
  obtain ⟨i, hi⟩ := List.exists_mem_of_ne_nil _ (hslot.found hfound)
  have hin : i ∈ d.rbroot.inorder := by
    rw [hslot.nodes]
    exact List.mem_append_left _ hi
  have := h.range i hin
  have := (hslot.below i hi).2
  omega

theorem iovaGetPadSize_eq {size limitPfn k : ℕ} (hsize : size = 2 ^ k)
    (hlimit : limitPfn + 1 < 2 ^ 32) : iovaGetPadSize size limitPfn = (limitPfn + 1) % size := by
  unfold iovaGetPadSize
  simp only [hsize, Nat.log2_two_pow, Nat.mod_eq_of_lt hlimit]
  split
  · rfl
  · rename_i hk
    rw [Decidable.not_not.mp hk, Nat.pow_zero, Nat.mod_one]

theorem dvd_aligned {size limitPfn k : ℕ} (hsize : size = 2 ^ k) (hlimit : limitPfn + 1 < 2 ^ 32) :
    size ∣ limitPfn + 1 - (size + iovaGetPadSize size limitPfn) := by
  rw [iovaGetPadSize_eq hsize hlimit, Nat.add_comm size, ← Nat.sub_sub]
  exact Nat.dvd_sub (Nat.dvd_sub_mod _) (Nat.dvd_refl _)

theorem new_range {size pad limit : ℕ} (hsize : 1 ≤ size) (hfits : 1 + size + pad ≤ limit)
    (hlimit : limit + 2 * size < 2 ^ 32) :
    sub32 (limit + 1) (size + pad) = limit + 1 - (size + pad) ∧
      sub32 (sub32 (limit + 1) (size + pad) + size) 1 = limit - pad := by
  have hlo : sub32 (limit + 1) (size + pad) = limit + 1 - (size + pad) :=
    sub32_eq (by omega) (by omega)
  rw [hlo, sub32_one (by omega) (by omega)]
  omega

theorem allocAndInsertIovaRange_spec (b : Balance ℕ) (h : d.Inv) {size limitPfn : ℕ}
    {sizeAligned : Bool} (hsize : 1 ≤ size) (hpow : sizeAligned = true → ∃ k, size = 2 ^ k)
    (hlimit : limitPfn + 2 * size < 2 ^ 32) :
    ∃ d' ret, d.allocAndInsertIovaRange b size limitPfn sizeAligned = some (d', ret) ∧
      (ret = none ∧ d' = d ∨
        ret = some d.fresh ∧ Allocated d d' size limitPfn sizeAligned) := by
  obtain ⟨hstart, y, hnodes, habove⟩ := getCachedRbnode_spec h limitPfn
  unfold allocAndInsertIovaRange
  generalize d.getCachedRbnode limitPfn = start at hstart hnodes habove
  obtain ⟨curr, limit⟩ := start
  dsimp only at hstart hnodes habove ⊢
  obtain ⟨hlow, x', y', hslot, hprev⟩ :=
    searchSlot_spec h hsize hpow (by omega : limit + 2 * size < 2 ^ 32) curr.head? hnodes habove
  generalize d.searchSlot size sizeAligned limit curr.head? curr = slot at hlow hslot hprev
  have hpad := padSize_lt hsize hpow slot.limitPfn
  -- the start of the new range is a multiple of the size
  have hdvd : sizeAligned = true →
      size ∣ slot.limitPfn + 1 - (size + padSize sizeAligned size slot.limitPfn) := fun ha => by
    obtain ⟨k, hk⟩ := hpow ha
    rw [padSize, if_pos ha]
    exact dvd_aligned hk (by omega)
  have hroom := hslot.fits h
  obtain ⟨hnodes', habove', hbelow', -⟩ := hslot
  generalize padSize sizeAligned size slot.limitPfn = pad at hpad hbelow' hdvd hroom
  split
  · -- there is no room
    exact ⟨d, none, rfl, .inl ⟨rfl, rfl⟩⟩
  · rename_i htest
    have hfits : 1 + size + pad ≤ slot.limitPfn := by
      cases hfound : slot.found with
      | false =>
        rw [Nat.mod_eq_of_lt (by omega)] at htest
        exact Nat.le_of_not_lt fun hlt => htest ⟨hfound, hlt⟩
      | true => exact hroom hfound
    obtain ⟨hlo, hhi⟩ := new_range hsize hfits (by omega)
    rw [hhi, hlo]
    -- the new range, below the limit and the padding
    generalize hr : (⟨slot.limitPfn + 1 - (size + pad), slot.limitPfn - pad⟩ : Iova) = r
    have hrlo : slot.limitPfn + 1 - (size + pad) = r.lo := by rw [← hr]
    have hrhi : slot.limitPfn - pad = r.hi := by rw [← hr]
    rw [hrlo] at hdvd ⊢
    have hbelow : ∀ i ∈ x', (d.iova i).hi < r.lo := fun i hi => by
      have := (hbelow' i hi).2
      omega
    have habove : ∀ j ∈ y', r.hi < (d.iova j).lo := fun j hj => by
      have := habove' j hj
      omega
    obtain ⟨t, ht, hins⟩ := insert_slot h (by omega) hnodes hnodes' hbelow habove hprev
    have happart : d.Apart r := fun i hi => by
      rw [hnodes'] at hi
      exact (List.mem_append.mp hi).imp (hbelow i) (habove i)
    rw [ht]
    refine ⟨_, some d.fresh, rfl, .inr ⟨rfl, allocated_withNew b h hins hsize (by omega) (by omega)
      (by omega) (by omega) hdvd happart fun c hc => ?_⟩⟩
    split at hc
    · exact .inr hc
    · -- the cached node is only set for the limit that it belongs to
      rename_i heq
      rw [Decidable.not_not] at heq
      exact .inl ⟨(Option.some.inj hc).symm, by omega⟩

theorem roundedSize_spec {size n : ℕ} {sizeAligned : Bool} (hsize : 1 ≤ size)
    (hn : roundedSize size sizeAligned = some n) :
    1 ≤ n ∧ (sizeAligned = true → ∃ k, n = 2 ^ k) := by
  unfold roundedSize at hn
  split at hn
  · unfold roundupPowOfTwo at hn
    dsimp only at hn
    generalize (if size - 1 = 0 then 0 else Nat.log2 (size - 1) + 1) = fls at hn
    split at hn
    · obtain rfl := Option.some.inj hn
      exact ⟨Nat.two_pow_pos _, fun _ => ⟨_, rfl⟩⟩
    · cases hn
  · rename_i haligned
    obtain rfl := Option.some.inj hn
    exact ⟨hsize, fun ha => absurd ha haligned⟩

theorem allocIova_spec (b : Balance ℕ) (h : d.Inv) {size n limitPfn : ℕ} {sizeAligned : Bool}
    (hsize : 1 ≤ size) (hn : roundedSize size sizeAligned = some n)
    (hlimit : limitPfn + 2 * n < 2 ^ 32) :
    ∃ d' ret, d.allocIova b size limitPfn sizeAligned = some (d', ret) ∧
      (ret = none ∧ d' = d ∨ ret = some d.fresh ∧ Allocated d d' n limitPfn sizeAligned) := by
  obtain ⟨hpos, hpow⟩ := roundedSize_spec hsize hn
  obtain ⟨d', ret, hrange, hor⟩ := allocAndInsertIovaRange_spec b h hpos hpow hlimit
  refine ⟨d', ret, ?_, hor⟩
  rw [allocIova, hn]
  exact hrange

end IovaDomain

end NucKernel.Iommu
