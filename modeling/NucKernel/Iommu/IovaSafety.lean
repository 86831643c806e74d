import Mathlib.Data.Set.Basic
import NucKernel.Iommu.IovaAlloc
import NucKernel.Library.Runs

/-!
# Safety of I/O virtual addresses

Ranges in use stay disjoint, and what is allocated is where it should be. The exception is page 0,
before which there is no page: once it is in use, a walk that arrives there starts over from the
greatest number.
-/

namespace NucKernel.Iommu

open NucKernel.Library

namespace IovaDomain

variable {d : IovaDomain}

/-! ## Searching and freeing -/

theorem findIova_iff (h : d.Inv) (pfn i : ℕ) :
    d.findIova pfn = some i ↔
      i ∈ d.rbroot.inorder ∧ (d.iova i).lo ≤ pfn ∧ pfn ≤ (d.iova i).hi := by
  rw [findIova, SearchTree.find_eq_some_iff]
  · refine and_congr_right fun _ => ?_
    unfold pageCmp
    split
    · rename_i hin
      exact iff_of_true rfl hin
    · rename_i hout
      split
      · exact iff_of_false nofun hout
      · exact iff_of_false nofun hout
  · refine h.sorted.imp_of_mem fun {a c} ha _ hlt hne => ?_
    have hle := (h.range a ha).2.1
    have hge : pfn ≤ (d.iova a).hi := by
      -- otherwise the page would be above the node
      by_contra hgt
      refine hne ?_
      rw [pageCmp, if_neg (by omega), if_neg (by omega)]
    rw [pageCmp, if_neg (by omega), if_pos (by omega)]

theorem cachedRbnodeDeleteUpdate_spec (h : d.Inv) {i c : ℕ} (hi : i ∈ d.rbroot.inorder)
    (hc : d.cachedRbnodeDeleteUpdate i = some c) :
    c ≠ i ∧ c ∈ d.rbroot.inorder ∧ (d.iova c).lo ≤ d.dma32bitPfn := by
  rw [cachedRbnodeDeleteUpdate] at hc
  split at hc
  · cases hc
  · rename_i c' hcached
    obtain ⟨hin, hle⟩ := h.cached c' hcached
    obtain ⟨x, y, hxy, hix, -, hafter⟩ := h.split hi
    split at hc
    · -- the cached node moves to the next one, if that is below the limit too
      rw [SearchTree.next_eq hxy hix] at hc
      split at hc
      · rename_i node hnode
        split at hc
        · rename_i hlow
          obtain rfl := Option.some.inj hc
          have hy : node ∈ y := List.mem_of_head? hnode
          refine ⟨?_, ?_, Nat.le_of_lt hlow⟩
          · rintro rfl
            have := hafter node hy
            have := (h.range node hi).2.1
            omega
          · rw [hxy]
            exact List.mem_append_right _ (List.mem_cons_of_mem i hy)
        · cases hc
      · cases hc
    · -- the freed node is above the cached one
      rename_i hlow
      obtain rfl := Option.some.inj hc
      refine ⟨fun heq => hlow ?_, hin, hle⟩
      rw [heq]

/-- **Freeing**: the range with the page is not in use any more, the others are. -/
theorem freeIova_spec (b : Balance ℕ) (h : d.Inv) (pfn : ℕ) :
    (d.freeIova b pfn).Inv ∧
      match d.findIova pfn with
      | none => d.freeIova b pfn = d
      | some i => ∀ q, (d.freeIova b pfn).Covers q ↔
          d.Covers q ∧ ¬ ((d.iova i).lo ≤ q ∧ q ≤ (d.iova i).hi) := by
  unfold freeIova
  cases hfind : d.findIova pfn with
  | none => exact ⟨h, rfl⟩
  | some i =>
    obtain ⟨hi, -, -⟩ := (findIova_iff h pfn i).mp hfind
    have hmem : ∀ j, j ∈ (b.erase i d.rbroot).inorder ↔ j ≠ i ∧ j ∈ d.rbroot.inorder :=
      fun j => by rw [b.inorder_erase, h.nodup.mem_erase_iff]
    refine ⟨⟨?_, fun j hj => ?_, fun j hj => ?_, fun c hc => ?_⟩, fun q => ?_⟩
    · rw [b.inorder_erase]
      exact h.sorted.sublist List.erase_sublist
    · exact h.range j ((hmem j).mp hj).2
    · exact h.old j ((hmem j).mp hj).2
    · obtain ⟨hne, hin, hle⟩ := cachedRbnodeDeleteUpdate_spec h hi hc
      exact ⟨(hmem c).mpr ⟨hne, hin⟩, hle⟩
    · constructor
      · -- no other range has the page
        rintro ⟨j, hj, hlo, hhi⟩
        obtain ⟨hne, hin⟩ := (hmem j).mp hj
        refine ⟨⟨j, hin, hlo, hhi⟩, fun hq => hne ?_⟩
        exact Option.some.inj (((findIova_iff h q j).mpr ⟨hin, hlo, hhi⟩).symm.trans
          ((findIova_iff h q i).mpr ⟨hi, hq.1, hq.2⟩))
      · rintro ⟨⟨j, hin, hlo, hhi⟩, hq⟩
        refine ⟨j, (hmem j).mpr ⟨fun heq => hq ?_, hin⟩, hlo, hhi⟩
        rw [← heq]
        exact ⟨hlo, hhi⟩

/-! ## Reservation -/

structure Ordered (ids : List ℕ) (iova : ℕ → Iova) : Prop where
  sorted : ids.Pairwise fun i j => (iova i).hi < (iova j).lo
  range : ∀ i ∈ ids, 1 ≤ (iova i).lo ∧ (iova i).lo ≤ (iova i).hi ∧ (iova i).hi < 2 ^ 32

theorem Ordered.lower {done rest : List ℕ} {i lo : ℕ} {iova : ℕ → Iova}
    (h : Ordered (done ++ i :: rest) iova) (hnodup : (done ++ i :: rest).Nodup) (hlo : 1 ≤ lo)
    (hle : lo ≤ (iova i).lo) (hdone : ∀ a ∈ done, (iova a).hi < lo) :
    Ordered (done ++ i :: rest) (Function.update iova i ⟨lo, (iova i).hi⟩) := by
  obtain ⟨-, hirest, hcrossNe⟩ := List.nodup_append.mp hnodup
  have hdoneNe : ∀ a ∈ done, a ≠ i := fun a ha => hcrossNe a ha i (List.mem_cons_self ..)
  have hrestNe : ∀ a ∈ rest, a ≠ i := fun a ha heq => (List.nodup_cons.mp hirest).1 (heq ▸ ha)
  obtain ⟨hsd, hsi, hcross⟩ := List.pairwise_append.mp h.sorted
  obtain ⟨hi, hsr⟩ := List.pairwise_cons.mp hsi
  constructor
  · -- ranges before and behind stay, and the extended one is above those before
    refine List.pairwise_append.mpr ⟨?_, List.pairwise_cons.mpr ⟨fun c hc => ?_, ?_⟩, ?_⟩
    · exact hsd.imp_of_mem fun ha hc hlt => by
        rwa [Function.update_of_ne (hdoneNe _ ha), Function.update_of_ne (hdoneNe _ hc)]
    · rw [Function.update_self, Function.update_of_ne (hrestNe c hc)]
      exact hi c hc
    · exact hsr.imp_of_mem fun ha hc hlt => by
        rwa [Function.update_of_ne (hrestNe _ ha), Function.update_of_ne (hrestNe _ hc)]
    · intro a ha c hc
      rw [Function.update_of_ne (hdoneNe a ha)]
      rcases List.mem_cons.mp hc with rfl | hc
      · rw [Function.update_self]
        exact hdone a ha
      · rw [Function.update_of_ne (hrestNe c hc)]
        exact hcross a ha c (List.mem_cons_of_mem i hc)
  · intro j hj
    have hj' := h.range j hj
    rcases eq_or_ne j i with rfl | hne
    · rw [Function.update_self]
      exact ⟨hlo, Nat.le_trans hle hj'.2.1, hj'.2.2⟩
    · rw [Function.update_of_ne hne]
      exact hj'

/-- What the loop of `reserve_iova` has done: ranges were extended downwards, and the pages asked
    for are in use now, but for a range that is separate from all others. -/
structure Reserved (ids : List ℕ) (iova : ℕ → Iova) (lo hi : ℕ)
    (r : (ℕ → Iova) × Option ℕ) : Prop where
  ordered : Ordered ids r.1
  extended : ∀ i ∈ ids, (r.1 i).lo ≤ (iova i).lo ∧ (r.1 i).hi = (iova i).hi
  covered : ∀ q, lo ≤ q → q ≤ hi → (∀ lo', r.2 = some lo' → q < lo') →
    ∃ i ∈ ids, (r.1 i).lo ≤ q ∧ q ≤ (r.1 i).hi
  rest : ∀ lo', r.2 = some lo' →
    lo ≤ lo' ∧ lo' ≤ hi ∧ ∀ i ∈ ids, (r.1 i).hi < lo' ∨ hi < (r.1 i).lo

theorem Reserved.left {ids : List ℕ} {iova : ℕ → Iova} {lo hi : ℕ} (h : Ordered ids iova)
    (hle : lo ≤ hi) (hapart : ∀ i ∈ ids, (iova i).hi < lo ∨ hi < (iova i).lo) :
    Reserved ids iova lo hi (iova, some lo) where
  ordered := h
  extended _ _ := ⟨Nat.le_refl _, rfl⟩
  covered q hq _ hlt := by
    have := hlt lo rfl
    omega
  rest lo' hlo' := by
    cases hlo'
    exact ⟨Nat.le_refl _, hle, hapart⟩

/-- `__adjust_overlap_range` has extended range `i` down to `lo`, if it began above. -/
structure Lowered (i lo : ℕ) (iova iova' : ℕ → Iova) : Prop where
  extended : ∀ j, (iova' j).lo ≤ (iova j).lo ∧ (iova' j).hi = (iova j).hi
  other : ∀ j, j ≠ i → iova' j = iova j
  low : (iova' i).lo ≤ lo

theorem lowered_adjust (i lo : ℕ) (iova : ℕ → Iova) :
    Lowered i lo iova
      (if lo < (iova i).lo then Function.update iova i ⟨lo, (iova i).hi⟩ else iova) := by
  split
  · rename_i hlt
    refine ⟨fun j => ?_, fun j hne => Function.update_of_ne hne .., ?_⟩
    · rcases eq_or_ne j i with rfl | hne
      · rw [Function.update_self]
        exact ⟨Nat.le_of_lt hlt, rfl⟩
      · rw [Function.update_of_ne hne]
        exact ⟨Nat.le_refl _, rfl⟩
    · rw [Function.update_self]
  · exact ⟨fun _ => ⟨Nat.le_refl _, rfl⟩, fun _ _ => rfl, by omega⟩

theorem Ordered.adjust {done rest : List ℕ} {i lo : ℕ} {iova : ℕ → Iova}
    (h : Ordered (done ++ i :: rest) iova) (hnodup : (done ++ i :: rest).Nodup) (hlo : 1 ≤ lo)
    (hdone : ∀ a ∈ done, (iova a).hi < lo) :
    Ordered (done ++ i :: rest)
      (if lo < (iova i).lo then Function.update iova i ⟨lo, (iova i).hi⟩ else iova) := by
  split
  · rename_i hlt
    exact h.lower hnodup hlo (Nat.le_of_lt hlt) hdone
  · exact h

theorem Reserved.behind {ids : List ℕ} {i lo hi : ℕ} {iova iova' : ℕ → Iova}
    {r : (ℕ → Iova) × Option ℕ} (hlow : Lowered i lo iova iova') (hi' : i ∈ ids)
    (hle : lo ≤ (iova i).hi) (h : Reserved ids iova' ((iova i).hi + 1) hi r) :
    Reserved ids iova lo hi r where
  ordered := h.ordered
  extended j hj := by
    have := h.extended j hj
    have := hlow.extended j
    omega
  covered q hq hqhi hlt := by
    -- the page is in the extended range, or behind it
    rcases Nat.lt_or_ge (iova i).hi q with hqi | hqi
    · exact h.covered q hqi hqhi hlt
    · have := h.extended i hi'
      have := hlow.extended i
      have := hlow.low
      exact ⟨i, hi', by omega, by omega⟩
  rest lo' hlo' := by
    obtain ⟨hge, hrest⟩ := h.rest lo' hlo'
    exact ⟨by omega, hrest⟩

theorem reserveLoop_spec (done : List ℕ) {rest : List ℕ} {iova : ℕ → Iova} {lo hi : ℕ}
    (overlap : Bool)
    (h : Ordered (done ++ rest) iova) (hnodup : (done ++ rest).Nodup) (hlo : 1 ≤ lo)
    (hle : lo ≤ hi) (hhi : hi < 2 ^ 32)
    (hdone : ∀ a ∈ done, (iova a).hi < lo ∨ hi < (iova a).lo)
    (hoverlap : overlap = true → ∀ j ∈ rest, lo ≤ (iova j).lo) :
    Reserved (done ++ rest) iova lo hi (reserveLoop hi rest iova lo overlap) := by
  -- the nodes before the current one are below what is left of the range, or above it
  induction rest generalizing done iova lo overlap with
  | nil =>
    rw [reserveLoop, List.append_nil] at *
    exact .left h hle hdone
  | cons i rest ih =>
    have hin : i ∈ done ++ i :: rest := List.mem_append_right _ (List.mem_cons_self ..)
    obtain ⟨hilo, hilohi, hihi⟩ := h.range i hin
    obtain ⟨-, hsi, hcross⟩ := List.pairwise_append.mp h.sorted
    have hafter := (List.pairwise_cons.mp hsi).1
    have hassoc : done ++ i :: rest = (done ++ [i]) ++ rest := by simp
    rw [reserveLoop]
    split
    · rename_i hover
      -- the nodes before this one are below the range
      have hbelow : ∀ a ∈ done, (iova a).hi < lo := fun a ha => by
        have hai := hcross a ha i (List.mem_cons_self ..)
        have har := h.range a (List.mem_append_left _ ha)
        rcases hdone a ha with hlow | hhigh <;> omega
      have hordered := h.adjust hnodup hlo hbelow
      have hlow := lowered_adjust i lo iova
      generalize (if lo < (iova i).lo then Function.update iova i ⟨lo, (iova i).hi⟩ else iova) =
        iova' at hordered hlow ⊢
      have hilow := hlow.low
      have hihigh := (hlow.extended i).2
      by_cases hmore : (iova i).hi < hi
      · -- the range goes on behind this node
        have hnext : ((iova i).hi + 1) % 2 ^ 32 = (iova i).hi + 1 := Nat.mod_eq_of_lt (by omega)
        rw [if_pos hmore, hnext, if_neg (by omega)]
        refine .behind hlow hin hover.1 ?_
        rw [hassoc] at hordered hnodup ⊢
        have hne : ∀ j ∈ done ++ [i], ∀ k ∈ rest, j ≠ k := (List.nodup_append.mp hnodup).2.2
        refine ih (done ++ [i]) true hordered hnodup (by omega) (by omega) (fun a ha => ?_)
          fun _ j hj => ?_
        · rcases List.mem_append.mp ha with ha | ha
          · have := hbelow a ha
            have := (hlow.extended a).2
            omega
          · obtain rfl := List.mem_singleton.mp ha
            omega
        · have hji : j ≠ i := fun heq =>
            hne i (List.mem_append_right _ (List.mem_singleton_self i)) j hj heq.symm
          have := hafter j hj
          rw [hlow.other j hji]
          omega
      · -- all of the range is in use now
        rw [if_neg hmore, if_pos ⟨hilow, by omega⟩]
        refine ⟨hordered, fun j _ => hlow.extended j, fun q hq hqhi _ => ⟨i, hin, ?_, ?_⟩, nofun⟩
        · exact Nat.le_trans hilow hq
        · simp only
          omega
    · rename_i hapart
      split
      · -- the rest of the range is in front of this node
        rename_i hov
        have habove := hoverlap hov i (List.mem_cons_self ..)
        refine .left h hle fun j hj => ?_
        rcases List.mem_append.mp hj with hj | hj
        · exact hdone j hj
        · rcases List.mem_cons.mp hj with rfl | hj
          · omega
          · have := hafter j hj
            omega
      · rename_i hov
        -- this node is below or above the range
        rw [hassoc] at h hnodup ⊢
        refine ih (done ++ [i]) overlap h hnodup hlo hle (fun a ha => ?_)
          fun hov' => absurd hov' hov
        rcases List.mem_append.mp ha with ha | ha
        · exact hdone a ha
        · obtain rfl := List.mem_singleton.mp ha
          omega

/-- **Reservation**: the pages are in use afterwards, and so are those that were before. -/
theorem reserveIova_spec (b : Balance ℕ) (h : d.Inv) {lo hi : ℕ} (hlo : 1 ≤ lo) (hle : lo ≤ hi)
    (hhi : hi < 2 ^ 32) :
    ∃ d', d.reserveIova b lo hi = some d' ∧ d'.Inv ∧
      ∀ q, d.Covers q ∨ lo ≤ q ∧ q ≤ hi → d'.Covers q := by
  have hres : Reserved d.rbroot.inorder d.iova lo hi
      (reserveLoop hi d.rbroot.inorder d.iova lo false) :=
    reserveLoop_spec [] false ⟨h.sorted, h.range⟩ h.nodup hlo hle hhi nofun nofun
  unfold reserveIova
  generalize reserveLoop hi d.rbroot.inorder d.iova lo false = r at hres
  obtain ⟨iova, left⟩ := r
  have hinv : ({ d with iova } : IovaDomain).Inv := by
    refine ⟨hres.ordered.sorted, hres.ordered.range, h.old, fun c hc => ?_⟩
    obtain ⟨hin, hlow⟩ := h.cached c hc
    exact ⟨hin, Nat.le_trans (hres.extended c hin).1 hlow⟩
  have hkept : ∀ q, d.Covers q → ({ d with iova } : IovaDomain).Covers q := by
    rintro q ⟨i, hi, hqlo, hqhi⟩
    have := hres.extended i hi
    exact ⟨i, hi, by simp only at this ⊢; omega, by simp only at this ⊢; omega⟩
  cases left with
  | none =>
    -- nothing is left to insert
    refine ⟨_, rfl, hinv, fun q hq => ?_⟩
    rcases hq with hq | ⟨hq, hq'⟩
    · exact hkept q hq
    · exact hres.covered q hq hq' nofun
  | some lo' =>
    obtain ⟨hge, hle', happart⟩ := hres.rest lo' rfl
    -- what is left is inserted
    obtain ⟨t, ht, hins⟩ : ∃ t, d.rbroot.insert (lowCmp { d with iova } lo') d.fresh = some t ∧
        SearchTree.Inserted (lowCmp { d with iova } lo') d.fresh d.rbroot.inorder t.inorder :=
      SearchTree.insert_spec (guides_lowCmp hinv lo')
        (Apart.lowCmp_ne (r := ⟨lo', hi⟩) hle' hinv happart)
    refine ⟨withNew b { d with iova } t ⟨lo', hi⟩ d.cached32Node, ?_, ?_, fun q hq => ?_⟩
    · dsimp only
      rw [ht]
      rfl
    · exact withNew_inv hins hinv ⟨by simp only; omega, hle', hhi⟩ happart fun c hc => .inr hc
    · refine (covers_withNew hins hinv q).mpr ?_
      rcases hq with hq | ⟨hq, hq'⟩
      · exact .inr (hkept q hq)
      · rcases Nat.lt_or_ge q lo' with hlt | hge'
        · refine .inr (hres.covered q hq hq' fun lo'' hlo'' => ?_)
          cases hlo''
          exact hlt
        · exact .inl ⟨hge', hq'⟩

end IovaDomain

/-! ## Runs -/

inductive IovaOp
  | alloc (size limitPfn : ℕ) (sizeAligned : Bool)
  | reserve (lo hi : ℕ)
  | free (pfn : ℕ)

structure IovaRun where
  dom : IovaDomain
  reserved : Set ℕ
  ret : Option ℕ

def IovaRun.start (pfn32bit : ℕ) : IovaRun := ⟨initIovaDomain pfn32bit, ∅, none⟩

def iovaStep (b : Balance ℕ) (s : IovaRun) : IovaOp → Option IovaRun
  | .alloc size limitPfn sizeAligned =>
    (s.dom.allocIova b size limitPfn sizeAligned).map fun r =>
      { s with dom := r.1, ret := r.2 }
  | .reserve lo hi =>
    (s.dom.reserveIova b lo hi).map fun dom =>
      { dom, reserved := s.reserved ∪ {q | lo ≤ q ∧ q ≤ hi}, ret := none }
  | .free pfn =>
    some
      { dom := s.dom.freeIova b pfn
        reserved := s.reserved \ {q | ∃ i, s.dom.findIova pfn = some i ∧
          (s.dom.iova i).lo ≤ q ∧ q ≤ (s.dom.iova i).hi}
        ret := none }

/-- Ranges in use are disjoint and are found by their pages, reserved pages are in use, and a range
    that was allocated is between the limits, has the size and the alignment, and has no page that
    was reserved or in use. -/
structure Safe (s : IovaRun) (op : IovaOp) (s' : IovaRun) : Prop where
  disjoint : s'.dom.rbroot.inorder.Pairwise fun i j =>
    (s'.dom.iova i).hi < (s'.dom.iova j).lo ∨ (s'.dom.iova j).hi < (s'.dom.iova i).lo
  found : ∀ pfn i, s'.dom.findIova pfn = some i ↔
    i ∈ s'.dom.rbroot.inorder ∧ (s'.dom.iova i).lo ≤ pfn ∧ pfn ≤ (s'.dom.iova i).hi
  reserved : ∀ q ∈ s'.reserved, s'.dom.Covers q
  allocated : ∀ size limitPfn sizeAligned i, op = .alloc size limitPfn sizeAligned →
    s'.ret = some i → i ∈ s'.dom.rbroot.inorder ∧
      1 ≤ (s'.dom.iova i).lo ∧ (s'.dom.iova i).hi ≤ limitPfn ∧
      (∃ n, roundedSize size sizeAligned = some n ∧
        (s'.dom.iova i).hi + 1 = (s'.dom.iova i).lo + n ∧
        (sizeAligned = true → n ∣ (s'.dom.iova i).lo)) ∧
      ∀ q, (s'.dom.iova i).lo ≤ q → q ≤ (s'.dom.iova i).hi → q ∉ s.reserved ∧ ¬ s.dom.Covers q

/-- Page 0 is not reserved, and no sum that is compared with a limit overflows. -/
def IovaOp.Fits : IovaOp → Prop
  | .alloc size limitPfn sizeAligned =>
    1 ≤ size ∧ ∃ n, roundedSize size sizeAligned = some n ∧ limitPfn + 2 * n < 2 ^ 32
  | .reserve lo hi => 1 ≤ lo ∧ lo ≤ hi ∧ hi < 2 ^ 32
  | .free _ => True

def IovaRun.Inv (s : IovaRun) : Prop := s.dom.Inv ∧ ∀ q ∈ s.reserved, s.dom.Covers q

theorem Safe.of_inv {s s' : IovaRun} {op : IovaOp} (h : s'.Inv)
    (hop : ∀ size limitPfn sizeAligned, op = .alloc size limitPfn sizeAligned → s'.ret = none) :
    Safe s op s' where
  disjoint := h.1.sorted.imp Or.inl
  found := fun pfn i => IovaDomain.findIova_iff h.1 pfn i
  reserved := h.2
  allocated := fun size limitPfn sizeAligned i heq hret => by
    rw [hop size limitPfn sizeAligned heq] at hret
    cases hret

theorem iovaStep_safe (b : Balance ℕ) (s : IovaRun) (op : IovaOp) (h : s.Inv) (hop : op.Fits) :
    ∃ s', iovaStep b s op = some s' ∧ s'.Inv ∧ Safe s op s' := by
  cases op with
  | alloc size limitPfn sizeAligned =>
    obtain ⟨hsize, n, hn, hlimit⟩ := hop
    obtain ⟨d', ret, halloc, hor⟩ := IovaDomain.allocIova_spec b h.1 hsize hn hlimit
    refine ⟨{ s with dom := d', ret }, by rw [iovaStep, halloc]; rfl, ?_⟩
    rcases hor with ⟨rfl, rfl⟩ | ⟨rfl, hnew⟩
    · -- nothing was allocated
      exact ⟨h, Safe.of_inv h fun _ _ _ _ => rfl⟩
    · have hinv : IovaRun.Inv { s with dom := d', ret := some s.dom.fresh } :=
        ⟨hnew.inv, fun q hq => (hnew.covers q).mpr (.inr (h.2 q hq))⟩
      refine ⟨hinv, hinv.1.sorted.imp Or.inl, IovaDomain.findIova_iff hinv.1, hinv.2, ?_⟩
      rintro _ _ _ i ⟨⟩ ⟨⟩
      refine ⟨hnew.live, hnew.first, hnew.last, ⟨n, hn, hnew.length, hnew.aligned⟩,
        fun q hqlo hqhi => ?_⟩
      -- the new range is apart from all ranges in use
      have hfree : ¬ s.dom.Covers q := by
        rintro ⟨j, hj, hjlo, hjhi⟩
        have := hnew.apart j hj
        simp only at hqlo hqhi
        omega
      exact ⟨fun hq => hfree (h.2 q hq), hfree⟩
  | reserve lo hi =>
    obtain ⟨hlo, hle, hhi⟩ := hop
    obtain ⟨d', hreserve, hinv, hcovers⟩ := IovaDomain.reserveIova_spec b h.1 hlo hle hhi
    have hinv' : IovaRun.Inv ⟨d', s.reserved ∪ {q | lo ≤ q ∧ q ≤ hi}, none⟩ :=
      ⟨hinv, fun q hq => hcovers q (hq.imp_left (h.2 q))⟩
    exact ⟨_, by rw [iovaStep, hreserve]; rfl, hinv', Safe.of_inv hinv' nofun⟩
  | free pfn =>
    obtain ⟨hinv, hcovers⟩ := IovaDomain.freeIova_spec b h.1 pfn
    refine ⟨_, rfl, ?_⟩
    suffices hinv' : IovaRun.Inv _ from ⟨hinv', Safe.of_inv hinv' nofun⟩
    refine ⟨hinv, fun q hq => ?_⟩
    -- freed pages are not reserved any more
    cases hfind : s.dom.findIova pfn with
    | none =>
      rw [hfind] at hcovers
      simp only at hcovers ⊢
      rw [hcovers]
      exact h.2 q hq.1
    | some i =>
      rw [hfind] at hcovers
      exact (hcovers q).mpr ⟨h.2 q hq.1, fun hin => hq.2 ⟨i, hfind, hin⟩⟩

/-- **Address allocation**: every run of calls that does not reserve page 0, with limits and sizes
    whose sums fit into a word, comes to its end, and all of its calls are safe. -/
theorem iova_safe (b : Balance ℕ) (pfn32bit : ℕ) {ops : List IovaOp} (hops : ∀ op ∈ ops, op.Fits) :
    (∃ s, runFrom (iovaStep b) (IovaRun.start pfn32bit) ops = some s) ∧
      Along (iovaStep b) Safe (IovaRun.start pfn32bit) ops := by
  refine runs_along (I := IovaRun.Inv) (fun s op hs hop => iovaStep_safe b s op hs hop) ?_ hops
  exact ⟨⟨List.Pairwise.nil, nofun, nofun, nofun⟩, nofun⟩

theorem iova_safe_four :
    Along (iovaStep (Balance.unbalanced ℕ)) Safe (IovaRun.start 100)
      [.reserve 60 60, .alloc 30 100 true, .alloc 5 100 false, .free 64] :=
  (iova_safe (Balance.unbalanced ℕ) 100 (by
    simp only [List.forall_mem_cons, List.not_mem_nil, false_imp_iff, implies_true, and_true]
    exact ⟨by simp [IovaOp.Fits], ⟨by decide, 32, by decide, by decide⟩,
      ⟨by decide, 5, by decide, by decide⟩, trivial⟩)).2

/-- A page below 6 is asked for when the pages up to 10 are reserved: page 4294967295 is
    returned. -/
theorem zero_reserved :
    ¬ Along (iovaStep (Balance.unbalanced ℕ)) Safe (IovaRun.start 100)
      [.reserve 0 10, .alloc 1 5 false] := by
  intro h
  obtain ⟨-, hrest⟩ := h _ rfl
  obtain ⟨hsafe, -⟩ := hrest _ rfl
  obtain ⟨-, -, hlimit, -⟩ := hsafe.allocated 1 5 false 1 rfl rfl
  exact absurd hlimit (by decide)

end NucKernel.Iommu
