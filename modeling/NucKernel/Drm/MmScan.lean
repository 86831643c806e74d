import NucKernel.Drm.MmSafety

/-!
# Eviction scans

A driver that needs space adds nodes to a scan until they leave a hole large enough. An added node
is off the list, with a link to the node in front of it, which is flagged as followed by a hole.
When the nodes are taken from the scan again, those that lie in the hole are to be evicted.

## Modelling

- no colour callback is set
- `scanned_preceeds_hole`, `scanned_block` and the link `prev` of a node that is off the list are
  tables of the scan, where every `scanned_block` is 0 at first
- `prev_scanned_node` and the link `next` of nodes in a scan are read by no function, and left out
-/

namespace NucKernel.Drm

open NucKernel.Library

/-! ## The scan -/

/-- `struct drm_mm` with the fields of a scan. `scanRange` has `scan_start` and `scan_end` if
    `scan_check_range` is set. -/
structure DrmMmScan where
  mm : DrmMm
  scanSize : ℕ
  scanAlignment : ℕ
  scanRange : Option (ℕ × ℕ)
  scannedBlocks : ℕ
  scanHitStart : ℕ
  scanHitEnd : ℕ
  scannedBlock : ℕ → Bool
  scannedPreceedsHole : ℕ → Bool
  prev : ℕ → ℕ

def DrmMm.initScan (mm : DrmMm) (size alignment : ℕ) (range : Option (ℕ × ℕ)) : DrmMmScan :=
  ⟨mm, size, alignment, range, 0, 0, 0, fun _ => false, fun _ => false, fun _ => headNode⟩

def DrmMm.drmMmInitScan (mm : DrmMm) (size alignment : ℕ) : DrmMmScan :=
  mm.initScan size alignment none

def DrmMm.drmMmInitScanWithRange (mm : DrmMm) (size alignment start stop : ℕ) : DrmMmScan :=
  mm.initScan size alignment (some (start, stop))

namespace DrmMmScan

/-- What the scan is for -/
def request (s : DrmMmScan) : Request :=
  match s.scanRange with
  | none => ⟨s.scanSize, s.scanAlignment, 0, 2 ^ 32⟩
  | some (start, stop) => ⟨s.scanSize, s.scanAlignment, start, stop⟩

def checkHole (s : DrmMmScan) (holeStart holeEnd : ℕ) : Bool :=
  match s.scanRange with
  | none => checkFreeHole holeStart holeEnd s.scanSize s.scanAlignment
  | some (start, stop) =>
    checkFreeHole (clipStart start holeStart) (clipEnd stop holeEnd) s.scanSize s.scanAlignment

/-- The node `n` leaves the list, and the node in front of it is flagged. -/
def takeOut (s : DrmMmScan) (n : ℕ) : DrmMmScan :=
  let prev := prevIn headNode s.mm.nodeList n
  { s with
    mm := { s.mm with
      nodeList := s.mm.nodeList.erase n
      node := Function.update s.mm.node prev { s.mm.node prev with holeFollows := true } }
    scannedBlocks := s.scannedBlocks + 1
    scannedBlock := Function.update s.scannedBlock n true
    scannedPreceedsHole := Function.update s.scannedPreceedsHole n (s.mm.node prev).holeFollows
    prev := Function.update s.prev n prev }

def hitAt (s : DrmMmScan) (holeStart holeEnd : ℕ) : DrmMmScan :=
  { s with scanHitStart := holeStart, scanHitEnd := holeEnd }

def drmMmScanAddBlock (s : DrmMmScan) (n : ℕ) : Option (DrmMmScan × Bool) :=
  if s.scannedBlock n then none
  else
    let s' := s.takeOut n
    let holeStart := s'.mm.holeNodeStart (s'.prev n)
    let holeEnd := s'.mm.holeNodeEnd (s'.prev n)
    if s'.checkHole holeStart holeEnd then some (s'.hitAt holeStart holeEnd, true)
    else some (s', false)

/-- The node `n` is behind the node `prev` again, which has its old flag. -/
def putBack (s : DrmMmScan) (n : ℕ) : DrmMm :=
  { s.mm with
    nodeList := addAfter s.mm.nodeList (s.prev n) n
    node := Function.update s.mm.node (s.prev n)
      { s.mm.node (s.prev n) with holeFollows := s.scannedPreceedsHole n } }

def drmMmScanRemoveBlock (s : DrmMmScan) (n : ℕ) : Option (DrmMmScan × Bool) :=
  if ¬ s.scannedBlock n then none
  else
    let mm := s.putBack n
    some ({ s with
        mm
        scannedBlocks := s.scannedBlocks - 1
        scannedBlock := Function.update s.scannedBlock n false },
      decide (mm.holeNodeEnd n > s.scanHitStart ∧ (mm.node n).start < s.scanHitEnd))

/-- Nodes are added until a hole is found. The nodes that were added are returned in this order,
    with whether there is a hole. -/
def scanAdd (s : DrmMmScan) : List ℕ → Option (DrmMmScan × List ℕ × Bool)
  | [] => some (s, [], false)
  | n :: ns =>
    match s.drmMmScanAddBlock n with
    | none => none
    | some (s', true) => some (s', [n], true)
    | some (s', false) => (s'.scanAdd ns).map fun res => (res.1, n :: res.2.1, res.2.2)

/-- Nodes are taken from the scan. Those to be evicted are returned. -/
def scanRemove (s : DrmMmScan) : List ℕ → Option (DrmMmScan × List ℕ)
  | [] => some (s, [])
  | n :: ns =>
    match s.drmMmScanRemoveBlock n with
    | none => none
    | some (s', evict) =>
      (s'.scanRemove ns).map fun res => (res.1, if evict then n :: res.2 else res.2)

end DrmMmScan

/-! ## Restoring the manager -/

/-- The list starts with the head and has no node twice. -/
structure DrmMm.Linked (s : DrmMm) : Prop where
  head : ∃ l, s.nodeList = headNode :: l
  nodup : s.nodeList.Nodup

def DrmMm.withNodes (s : DrmMm) (l : List ℕ) : DrmMm := { s with nodeList := l }

namespace DrmMmScan

variable {s t u : DrmMmScan} {n m : ℕ} {ns : List ℕ}

theorem Linked.takeOut (h : s.mm.Linked) (hhead : n ≠ headNode) : (s.takeOut n).mm.Linked := by
  obtain ⟨l, hl⟩ := h.head
  refine ⟨⟨l.erase n, ?_⟩, h.nodup.erase n⟩
  rw [← List.erase_cons_tail (by simpa using hhead.symm), ← hl]
  rfl

theorem takeOut_frame (s : DrmMmScan) (n : ℕ) : s.mm.SameExtents (s.takeOut n).mm := by
  intro m
  simp only [takeOut]
  by_cases hm : m = prevIn headNode s.mm.nodeList n
  · rw [hm, Function.update_self]
    exact ⟨rfl, rfl⟩
  · rw [Function.update_of_ne hm]
    exact ⟨rfl, rfl⟩

/-- The scan `u` has what is needed to take back that `n` was taken out of `s`. -/
structure Undoes (s : DrmMmScan) (n : ℕ) (u : DrmMmScan) : Prop where
  mm : u.mm = (s.takeOut n).mm
  scannedBlock : u.scannedBlock n = true
  prev : u.prev n = (s.takeOut n).prev n
  preceedsHole : u.scannedPreceedsHole n = (s.takeOut n).scannedPreceedsHole n

theorem Undoes.remove (hu : Undoes s n u) (h : s.mm.Linked) (hn : n ∈ s.mm.nodeList)
    (hhead : n ≠ headNode) :
    u.drmMmScanRemoveBlock n = some
      ({ u with
          mm := s.mm
          scannedBlocks := u.scannedBlocks - 1
          scannedBlock := Function.update u.scannedBlock n false },
        decide (s.mm.holeNodeEnd n > u.scanHitStart ∧ (s.mm.node n).start < u.scanHitEnd)) := by
  obtain ⟨l, hl⟩ := h.head
  -- the link still leads to the node that was in front
  have hprev : u.prev n = prevIn headNode s.mm.nodeList n := by
    rw [hu.prev]
    exact Function.update_self ..
  have hmm : u.putBack n = s.mm := by
    rw [putBack, hprev, hu.preceedsHole, hu.mm]
    simp only [takeOut, Function.update_self, Function.update_idem, Function.update_eq_self]
    rw [addAfter_erase hl h.nodup hn hhead]
  rw [drmMmScanRemoveBlock, if_neg (not_not.mpr hu.scannedBlock)]
  simp only [hmm]

theorem scanRemove_append (s : DrmMmScan) (ns : List ℕ) (n : ℕ) :
    s.scanRemove (ns ++ [n]) = (s.scanRemove ns).bind fun res =>
      (res.1.drmMmScanRemoveBlock n).map fun last =>
        (last.1, if last.2 then res.2 ++ [n] else res.2) := by
  induction ns generalizing s with
  | nil =>
    simp only [List.nil_append, scanRemove, Option.bind_some]
    cases s.drmMmScanRemoveBlock n <;> simp
  | cons m ns ih =>
    simp only [List.cons_append, scanRemove]
    cases hm : s.drmMmScanRemoveBlock m with
    | none => rfl
    | some res =>
      simp only [ih, Option.bind_map, Option.map_bind, Function.comp_def, Option.map_map]
      congr! 4 with before last
      split <;> split <;> rfl

/-- The nodes `added` were added to `s`. Taking them from the scan `t` again led to `u`, where the
    manager is as before, and `victims` has the nodes that lie in the hole. -/
structure Scanned (s : DrmMmScan) (added : List ℕ) (t u : DrmMmScan) (victims : List ℕ) :
    Prop where
  mm : u.mm = s.mm
  scannedBlocks : u.scannedBlocks = s.scannedBlocks
  scannedBlock : u.scannedBlock = s.scannedBlock
  frame : ∀ m ∉ added, u.prev m = s.prev m ∧ u.scannedPreceedsHole m = s.scannedPreceedsHole m
  hit : u.scanHitStart = t.scanHitStart ∧ u.scanHitEnd = t.scanHitEnd
  sublist : victims.Sublist added.reverse
  victim : ∀ pre n post, added = pre ++ n :: post →
    t.scanHitStart < (s.mm.withNodes (s.mm.nodeList.diff pre)).holeNodeEnd n →
      (s.mm.node n).start < t.scanHitEnd → n ∈ victims

/-- The hole of the scan is the one that the last node left, and it passed the check. -/
def Found (s : DrmMmScan) (added : List ℕ) (t : DrmMmScan) : Prop :=
  ∃ pre n, added = pre ++ [n] ∧
    t.scanHitStart = s.mm.holeNodeStart (prevIn headNode (s.mm.nodeList.diff pre) n) ∧
    t.scanHitEnd = (s.mm.withNodes ((s.mm.nodeList.diff pre).erase n)).holeNodeEnd
      (prevIn headNode (s.mm.nodeList.diff pre) n) ∧
    s.checkHole t.scanHitStart t.scanHitEnd = true

theorem holeNodeEnd_takeOut (s : DrmMmScan) (n m : ℕ) (l : List ℕ) :
    ((s.takeOut n).mm.withNodes l).holeNodeEnd m = (s.mm.withNodes l).holeNodeEnd m :=
  (s.takeOut_frame n _).1

theorem Found.cons (hfound : Found (s.takeOut n) ns t) : Found s (n :: ns) t := by
  obtain ⟨pre, m, rfl, hstart, hend, hcheck⟩ := hfound
  rw [(s.takeOut_frame n).holeNodeStart] at hstart
  rw [holeNodeEnd_takeOut] at hend
  refine ⟨n :: pre, m, rfl, ?_⟩
  rw [List.diff_cons]
  exact ⟨hstart, hend, hcheck⟩

theorem scanned_hitAt (s : DrmMmScan) (holeStart holeEnd : ℕ) :
    Scanned s [] (s.hitAt holeStart holeEnd) (s.hitAt holeStart holeEnd) [] :=
  ⟨rfl, rfl, rfl, fun _ _ => ⟨rfl, rfl⟩, ⟨rfl, rfl⟩, .slnil, fun pre n post hsplit => by
    simp at hsplit⟩

theorem Scanned.cons {victims : List ℕ} (hs : Scanned (s.takeOut n) ns t u victims)
    (hremove : t.scanRemove ns.reverse = some (u, victims)) (h : s.mm.Linked)
    (hn : n ∈ s.mm.nodeList) (hhead : n ≠ headNode) (hns : n ∉ ns)
    (hclean : s.scannedBlock n = false) :
    ∃ u victims, t.scanRemove (n :: ns).reverse = some (u, victims) ∧
      Scanned s (n :: ns) t u victims := by
  have hundo : Undoes s n u := by
    refine ⟨hs.mm, ?_, (hs.frame n hns).1, (hs.frame n hns).2⟩
    rw [hs.scannedBlock]
    exact Function.update_self ..
  rw [List.reverse_cons, scanRemove_append, hremove, Option.bind_some, hundo.remove h hn hhead]
  refine ⟨_, _, rfl, rfl, ?_, ?_, fun m hm => ?_, hs.hit, ?_, ?_⟩
  · simp only [hs.scannedBlocks]
    rfl
  · simp only [hs.scannedBlock, takeOut, Function.update_idem]
    rw [← hclean, Function.update_eq_self]
  · rw [List.mem_cons, not_or] at hm
    simp only [hs.frame m hm.2, takeOut, Function.update_of_ne hm.1, and_self]
  · rw [List.reverse_cons]
    split
    · exact hs.sublist.append (List.Sublist.refl _)
    · exact hs.sublist.trans (List.sublist_append_left ..)
  · -- the nodes of the scan that lie in its hole
    intro pre m post hsplit hlow hhigh
    cases pre with
    | nil =>
      -- the node was put back last, when the list was as before
      obtain ⟨rfl, -⟩ := List.cons.inj hsplit
      have hevict : s.mm.holeNodeEnd n > u.scanHitStart ∧ (s.mm.node n).start < u.scanHitEnd := by
        rw [hs.hit.1, hs.hit.2]
        exact ⟨hlow, hhigh⟩
      simp [hevict]
    | cons m' pre =>
      -- of another node all is known from the shorter scan
      obtain ⟨rfl, hrest⟩ := List.cons.inj hsplit
      rw [List.diff_cons] at hlow
      have hvictim : m ∈ victims := by
        refine hs.victim pre m post hrest ?_ ?_
        · rw [holeNodeEnd_takeOut]
          exact hlow
        · rw [(s.takeOut_frame n m).1]
          exact hhigh
      simp only
      split
      · exact List.mem_append_left _ hvictim
      · exact hvictim

theorem scanAdd_scanned (h : s.mm.Linked) (hnodup : ns.Nodup)
    (hmem : ∀ n ∈ ns, n ∈ s.mm.nodeList ∧ n ≠ headNode)
    (hclean : ∀ n ∈ ns, s.scannedBlock n = false) :
    ∃ t added hit, s.scanAdd ns = some (t, added, hit) ∧ added.Sublist ns ∧
      (hit = true → Found s added t) ∧
      ∃ u victims, t.scanRemove added.reverse = some (u, victims) ∧
        Scanned s added t u victims := by
  induction ns generalizing s with
  | nil =>
    exact ⟨s, [], false, rfl, .slnil, nofun, s, [], rfl,
      scanned_hitAt s s.scanHitStart s.scanHitEnd⟩
  | cons n ns ih =>
    obtain ⟨hn, hhead⟩ := hmem n (List.mem_cons_self ..)
    obtain ⟨hns, hnodup⟩ := List.nodup_cons.mp hnodup
    have hfree := hclean n (List.mem_cons_self ..)
    have hprev : (s.takeOut n).prev n = prevIn headNode s.mm.nodeList n := Function.update_self ..
    have hunscanned : ¬ s.scannedBlock n = true := by simp [hfree]
    by_cases hcheck : (s.takeOut n).checkHole
        ((s.takeOut n).mm.holeNodeStart ((s.takeOut n).prev n))
        ((s.takeOut n).mm.holeNodeEnd ((s.takeOut n).prev n)) = true
    · -- the node leaves a hole that is large enough
      rw [scanAdd, drmMmScanAddBlock, if_neg hunscanned]
      simp only [if_pos hcheck]
      refine ⟨_, [n], true, rfl, List.singleton_sublist.mpr (List.mem_cons_self ..), fun _ => ?_,
        (scanned_hitAt _ _ _).cons rfl h hn hhead List.not_mem_nil hfree⟩
      refine ⟨[], n, rfl, ?_, ?_, hcheck⟩
      · simp only [hprev, (s.takeOut_frame n).holeNodeStart]
        rfl
      · simp only [hprev]
        exact holeNodeEnd_takeOut s n _ _
    · -- the scan goes on
      obtain ⟨t, added, hit, hadd, hsub, hfound, u, victims, hremove, hs⟩ :=
        ih (s := s.takeOut n) (Linked.takeOut h hhead) hnodup
          (fun m hm => by
            obtain ⟨hm', hmhead⟩ := hmem m (List.mem_cons_of_mem n hm)
            have hne : m ≠ n := fun heq => hns (heq ▸ hm)
            exact ⟨(List.mem_erase_of_ne hne).mpr hm', hmhead⟩)
          (fun m hm => by
            have hne : m ≠ n := fun heq => hns (heq ▸ hm)
            simpa [takeOut, Function.update_of_ne hne] using hclean m (List.mem_cons_of_mem n hm))
      rw [scanAdd, drmMmScanAddBlock, if_neg hunscanned]
      simp only [if_neg hcheck, hadd]
      exact ⟨t, n :: added, hit, rfl, hsub.cons_cons n, fun hhit => (hfound hhit).cons,
        hs.cons hremove h hn hhead (fun hmem => hns (hsub.subset hmem)) hfree⟩

end DrmMmScan

/-! ## The hole for the request -/

namespace DrmMm

variable {s s' s'' : DrmMm} {lo hi : ℕ} {ns : List ℕ}

theorem SameExtents.trans (h : s.SameExtents s') (h' : s'.SameExtents s'') : s.SameExtents s'' :=
  fun m => ⟨(h' m).1.trans (h m).1, (h' m).2.trans (h m).2⟩

theorem SameExtents.holeNodeEnd (h : s.SameExtents s') (m : ℕ) :
    s'.holeNodeEnd m = (s.withNodes s'.nodeList).holeNodeEnd m :=
  (h _).1

theorem SameExtents.holds_iff (h : s.SameExtents s') {n q : ℕ} : s'.Holds n q ↔ s.Holds n q := by
  rw [Holds, (h n).1, (h n).2, Holds]

theorem Inv.removeNodes (h : s.Inv lo hi) (hhi : hi < 2 ^ 32) (hnodup : ns.Nodup)
    (hmem : ∀ n ∈ ns, n ∈ s.nodeList ∧ n ≠ headNode) :
    ∃ s', runFrom drmMmRemoveNode s ns = some s' ∧ s'.Inv lo hi ∧
      s'.nodeList = s.nodeList.diff ns ∧ s.SameExtents s' := by
  induction ns generalizing s with
  | nil => exact ⟨s, rfl, h, rfl, fun _ => ⟨rfl, rfl⟩⟩
  | cons n ns ih =>
    obtain ⟨hn, hhead⟩ := hmem n (List.mem_cons_self ..)
    obtain ⟨hns, hnodup⟩ := List.nodup_cons.mp hnodup
    obtain ⟨s₁, hs₁, hinv, hun⟩ := h.removeNode hhi hn hhead
    obtain ⟨s₂, hs₂, hinv₂, hlist, hext⟩ := ih hinv hnodup fun m hm => by
      obtain ⟨hm', hmhead⟩ := hmem m (List.mem_cons_of_mem n hm)
      have hne : m ≠ n := fun heq => hns (heq ▸ hm)
      rw [hun.list]
      exact ⟨(List.mem_erase_of_ne hne).mpr hm', hmhead⟩
    refine ⟨s₂, runFrom_cons.mpr ⟨s₁, hs₁, hs₂⟩, hinv₂, ?_, .trans hun.frame hext⟩
    rw [hlist, hun.list, List.diff_cons]

end DrmMm

namespace DrmMmScan

variable {s t u : DrmMmScan} {lo hi : ℕ} {added victims order : List ℕ}

/-- The sums that a check compares do not overflow. -/
def Fits (s : DrmMmScan) (hi : ℕ) : Prop :=
  match s.scanRange with
  | none => hi + s.scanAlignment < 2 ^ 32
  | some (start, _) => max start hi + s.scanAlignment + s.scanSize < 2 ^ 32

theorem Fits.lt (hfit : s.Fits hi) : hi < 2 ^ 32 := by
  rw [Fits] at hfit
  split at hfit <;> omega

theorem Fits.check_iff (hfit : s.Fits hi) {d : DrmMm} (hd : d.Inv lo hi) {p : ℕ}
    (hp : p ∈ d.nodeList) :
    s.checkHole (d.holeNodeStart p) (d.holeNodeEnd p) = true ↔
      s.request.FitsIn (d.holeNodeStart p) (d.holeNodeEnd p) := by
  rw [checkHole, request]
  rw [Fits] at hfit
  cases hrange : s.scanRange with
  | none =>
    rw [hrange] at hfit
    exact (hd.check_spec hp hfit).1
  | some range =>
    rw [hrange] at hfit
    exact (hd.checkRange_spec hp range.2 hfit).1

section Removed

variable (h : s.mm.Inv lo hi) (hhi : hi < 2 ^ 32) (hnodup : added.Nodup)
  (hmem : ∀ n ∈ added, n ∈ s.mm.nodeList ∧ n ≠ headNode)
include h hhi hnodup hmem

theorem exists_removed {pre post : List ℕ} {n : ℕ} (hsplit : added = pre ++ n :: post) :
    ∃ d : DrmMm, d.Inv lo hi ∧ d.nodeList = s.mm.nodeList.diff pre ∧ s.mm.SameExtents d ∧
      n ∈ d.nodeList := by
  subst hsplit
  obtain ⟨hpre, -, hapart⟩ := List.nodup_append.mp hnodup
  obtain ⟨d, -, hd, hlist, hext⟩ :=
    h.removeNodes hhi hpre fun m hm => hmem m (List.mem_append_left _ hm)
  refine ⟨d, hd, hlist, hext, ?_⟩
  rw [hlist, h.nodup.mem_sdiff_iff]
  exact ⟨(hmem n (by simp)).1, fun hn => hapart n hn n (List.mem_cons_self ..) rfl⟩

theorem Found.exists_hole (hfound : Found s added t) :
    ∃ (d : DrmMm) (p : ℕ), d.Inv lo hi ∧ d.nodeList = s.mm.nodeList.diff added ∧
      s.mm.SameExtents d ∧ p ∈ d.nodeList ∧ d.holeNodeStart p < d.holeNodeEnd p ∧
      t.scanHitStart = d.holeNodeStart p ∧ t.scanHitEnd = d.holeNodeEnd p ∧
      s.checkHole t.scanHitStart t.scanHitEnd = true := by
  obtain ⟨pre, n, hsplit, hstart, hend, hcheck⟩ := hfound
  -- the manager before the last node was added, and after it
  obtain ⟨d, hd, hdlist, hext, hn⟩ := exists_removed h hhi hnodup hmem hsplit
  have hhead : n ≠ headNode := (hmem n (by simp [hsplit])).2
  obtain ⟨d', -, hd', hun⟩ := hd.removeNode hhi hn hhead
  have hext' : s.mm.SameExtents d' := hext.trans hun.frame
  have hlist : d'.nodeList = (s.mm.nodeList.diff pre).erase n := by rw [hun.list, hdlist]
  obtain ⟨l, hl⟩ := hd.head
  obtain ⟨hprev, hprevn, -⟩ := nextIn_prevIn hl hd.nodup hn hhead
  have hprev' : prevIn headNode d.nodeList n ∈ d'.nodeList := by
    rw [hun.list]
    exact (List.mem_erase_of_ne hprevn).mpr hprev
  refine ⟨d', prevIn headNode d.nodeList n, hd', ?_, hext', hprev', ?_, ?_, ?_, hcheck⟩
  · rw [hlist, hsplit, List.diff_append, List.diff_cons, List.diff_nil]
  · -- when the last node was taken out, the node in front of it was flagged
    exact (hd'.flag _ hprev').mp ((hun.flag _ hprevn).mpr (.inl rfl))
  · rw [hstart, hext'.holeNodeStart, hdlist]
  · rw [hend, hext'.holeNodeEnd, hlist, hdlist]

theorem Scanned.mem_victims (hs : Scanned s added t u victims) {n q : ℕ} (hn : n ∈ added)
    (hlow : t.scanHitStart ≤ q) (hhigh : q < t.scanHitEnd) (hheld : s.mm.Holds n q) :
    n ∈ victims := by
  obtain ⟨pre, post, hsplit⟩ := List.append_of_mem hn
  obtain ⟨d, hd, hlist, hext, hnd⟩ := exists_removed h hhi hnodup hmem hsplit
  -- when the node was added, it ended before the next one on the list
  have hafter := hd.ordered n hnd
  rw [hd.holeNodeStart_eq hhi hnd (hmem n hn).2, (hext n).1, (hext n).2, hext.holeNodeEnd,
    hlist] at hafter
  obtain ⟨hstart, hend⟩ := hheld
  exact hs.victim pre n post hsplit (by omega) (by omega)

end Removed

theorem Scanned.exists_suitable (hs : Scanned s added t u victims) (hfound : Found s added t)
    (h : s.mm.Inv lo hi) (hfit : s.Fits hi) (hnodup : added.Nodup)
    (hmem : ∀ n ∈ added, n ∈ s.mm.nodeList ∧ n ≠ headNode) (horder : order.Perm victims) :
    ∃ mm, runFrom DrmMm.drmMmRemoveNode s.mm order = some mm ∧ ∃ m, mm.Suitable s.request m := by
  have hhi := hfit.lt
  have hadded : ∀ n ∈ order, n ∈ added := fun n hn =>
    List.mem_reverse.mp (hs.sublist.subset (horder.subset hn))
  have horderNodup : order.Nodup :=
    horder.nodup_iff.mpr (hs.sublist.nodup (List.nodup_reverse.mpr hnodup))
  obtain ⟨mm, hrun, hinv, hlist, hext⟩ :=
    h.removeNodes hhi horderNodup fun n hn => hmem n (hadded n hn)
  obtain ⟨d, p, hd, hdlist, hdext, hp, hlt, hstart, hend, hcheck⟩ :=
    hfound.exists_hole h hhi hnodup hmem
  have hfree : ∀ q, d.holeNodeStart p ≤ q →
      q < d.holeNodeStart p + (d.holeNodeEnd p - d.holeNodeStart p) → mm.Free lo hi q := by
    intro q hlow hbelow
    have hhigh : q < d.holeNodeEnd p := by omega
    obtain ⟨hqlo, hqhi, hnone⟩ := hd.free_of_hole hhi hp hlow hhigh
    refine ⟨hqlo, hqhi, fun x hx hheld => ?_⟩
    obtain ⟨hxmem, hxhead⟩ := (hinv.allocated x).mp hx
    rw [hlist, h.nodup.mem_sdiff_iff] at hxmem
    rw [hext.holds_iff] at hheld
    by_cases hxadded : x ∈ added
    · -- it is one of the nodes to be evicted
      have hvictim := hs.mem_victims h hhi hnodup hmem hxadded (hstart ▸ hlow) (hend ▸ hhigh) hheld
      exact hxmem.2 (horder.symm.subset hvictim)
    · -- it was not added, so it is where the hole was found, too
      have hxd : x ∈ d.nodeList := by
        rw [hdlist, h.nodup.mem_sdiff_iff]
        exact ⟨hxmem.1, hxadded⟩
      exact hnone x ((hd.allocated x).mpr ⟨hxd, hxhead⟩) (hdext.holds_iff.mpr hheld)
  -- free addresses that follow each other are in one hole
  obtain ⟨m, hm, hmstart, hmend⟩ := hinv.exists_hole hhi (by omega) hfree
  obtain ⟨hmlist, hmflag⟩ := (hinv.stack m).mp hm
  rw [hstart, hend, hfit.check_iff hd hp] at hcheck
  obtain ⟨x, hx, hxstart, hxend⟩ := hcheck
  exact ⟨mm, hrun, m, hmlist, (hinv.flag m hmlist).mp hmflag, x, hx, by omega, by omega⟩

end DrmMmScan

/-- **Eviction scan**: if the nodes of a scan are taken from it in reverse order, the list of nodes,
    the stack and the flags are as before. If the last node that was added left a hole for the
    request, and no sum overflows, then removing the nodes to be evicted, in any order, leaves a
    hole into which the request fits. -/
theorem drm_mm_scan (mm : DrmMm) (hlinked : mm.Linked) (size alignment : ℕ)
    (range : Option (ℕ × ℕ)) (ns : List ℕ) (hnodup : ns.Nodup)
    (hmem : ∀ n ∈ ns, n ∈ mm.nodeList ∧ n ≠ headNode) :
    ∃ t added hit, (mm.initScan size alignment range).scanAdd ns = some (t, added, hit) ∧
      ∃ u victims, t.scanRemove added.reverse = some (u, victims) ∧
        u.mm = mm ∧ u.scannedBlocks = 0 ∧ (∀ n, u.scannedBlock n = false) ∧
        ∀ lo hi, mm.Inv lo hi → (mm.initScan size alignment range).Fits hi → hit = true →
          ∀ order : List ℕ, order.Perm victims →
            ∃ mm', runFrom DrmMm.drmMmRemoveNode mm order = some mm' ∧
              ∃ m, mm'.Suitable (mm.initScan size alignment range).request m := by
  obtain ⟨t, added, hit, hadd, hsub, hfound, u, victims, hremove, hs⟩ :=
    DrmMmScan.scanAdd_scanned (s := mm.initScan size alignment range) hlinked hnodup hmem
      fun _ _ => rfl
  refine ⟨t, added, hit, hadd, u, victims, hremove, hs.mm, hs.scannedBlocks,
    fun n => congrFun hs.scannedBlock n, fun lo hi hinv hfit hhit order horder => ?_⟩
  exact hs.exists_suitable (hfound hhit) hinv hfit (hsub.nodup hnodup)
    (fun n hn => hmem n (hsub.subset hn)) horder

/-- Of three nodes of 10 addresses, the last one and the one before it are evicted for a request of
    15. -/
theorem drm_mm_scan_two :
    ∃ s mm', runFrom drmMmStep (.init 0 30) [.createBlock (some 1) 0 10,
        .createBlock (some 2) 10 10, .createBlock (some 3) 20 10] = some s ∧
      runFrom DrmMm.drmMmRemoveNode s.mm [3, 2] = some mm' ∧
      ∃ m, mm'.Suitable ⟨15, 4, 0, 2 ^ 32⟩ m := by
  have hinv := DrmMmRun.Inv.of_run 0 30 (by decide) (by decide)
    [.createBlock (some 1) 0 10, .createBlock (some 2) 10 10, .createBlock (some 3) 20 10]
    (by decide) rfl
  obtain ⟨t, added, hit, hadd, u, victims, hremove, -, -, -, hhole⟩ :=
    drm_mm_scan _ ⟨hinv.mm.head, hinv.mm.nodup⟩ 15 4 none [3, 2, 1] (by decide) (by decide)
  cases hadd
  cases hremove
  obtain ⟨mm', hrun, hm⟩ := hhole 0 30 hinv.mm (show 30 + 4 < 2 ^ 32 by decide) rfl [3, 2]
    (by decide)
  exact ⟨_, mm', rfl, hrun, hm⟩

/-- A node has the addresses from 4294967000 to 4294967200, where no multiple of 65536 is. It is
    reported to leave a hole for a request with this alignment, and when it is removed there is
    none. -/
theorem evicted_without_room :
    ∃ s t u mm', runFrom drmMmStep (.init 4294967000 200)
        [.createBlock (some 1) 4294967000 200] = some s ∧
      (s.mm.drmMmInitScan 100 65536).scanAdd [1] = some (t, [1], true) ∧
      t.scanRemove [1] = some (u, [1]) ∧ u.mm.drmMmRemoveNode 1 = some mm' ∧
      ∀ m, ¬ mm'.Suitable ⟨100, 65536, 0, 2 ^ 32⟩ m := by
  refine ⟨_, _, _, _, rfl, rfl, rfl, rfl, ?_⟩
  rintro m ⟨hm, -, x, ⟨hdvd, -⟩, hlow, hhigh⟩
  obtain rfl := List.mem_singleton.mp hm
  obtain ⟨k, rfl⟩ := hdvd (by decide)
  have hstart : 4294967000 ≤ 65536 * k := hlow
  have hend : 65536 * k + 100 ≤ 4294967200 := hhigh
  omega

end NucKernel.Drm
