import NucKernel.Drm.MmScan

/-!
# Making room, and taking a manager down
-/

namespace NucKernel.Drm.DrmMm

open NucKernel.Library

variable {s : DrmMm} {lo hi n : ℕ}

/-! ## Making room -/

/-- The insertion that a scan is made for -/
def insertScanned (s : DrmMm) (n size alignment : ℕ) : Option (ℕ × ℕ) → Option (DrmMm × Bool)
  | none => s.drmMmInsertNodeGeneric n size alignment
  | some (start, stop) => s.drmMmInsertNodeInRangeGeneric n size alignment start stop

theorem Suitable.not_full {r : Request} {m : ℕ} (hm : s.Suitable r m) (h : s.Inv lo hi)
    (hhi : hi < 2 ^ 32) : ¬ r.Full lo hi s := by
  obtain ⟨hmem, -, x, hx, hstart, hend⟩ := hm
  intro hfull
  obtain ⟨q, hlow, hhigh, hused⟩ := hfull x hx
  exact hused (h.free_of_hole hhi hmem (by omega) (by omega))

theorem insertScanned_spec (h : s.Inv lo hi) (hn : n ∉ s.nodeList) {mm : DrmMm}
    {size alignment : ℕ} (hsize : 1 ≤ size) {range : Option (ℕ × ℕ)}
    (hfit : (mm.initScan size alignment range).Fits hi) :
    ∃ res, s.insertScanned n size alignment range = some res ∧
      (mm.initScan size alignment range).request.Answered lo hi s n res := by
  cases range with
  | none => exact drmMmInsertNodeGeneric_spec h hn hsize hfit
  | some range => exact drmMmInsertNodeInRangeGeneric_spec h hn range.2 hsize hfit

/-- **Making room**: if a scan over nodes in use finds a hole, the nodes that it names can be
    removed in any order, and then a new node is placed as the request allows it. -/
theorem evict_insert (h : s.Inv lo hi) (size alignment : ℕ) (hsize : 1 ≤ size)
    (range : Option (ℕ × ℕ)) (hfit : (s.initScan size alignment range).Fits hi)
    (ns : List ℕ) (hnodup : ns.Nodup) (hns : ∀ n ∈ ns, n ∈ s.nodeList ∧ n ≠ headNode) :
    ∃ t added hit, (s.initScan size alignment range).scanAdd ns = some (t, added, hit) ∧
      ∃ u victims, t.scanRemove added.reverse = some (u, victims) ∧ u.mm = s ∧
        (hit = true → ∀ order : List ℕ, order.Perm victims → ∀ n ∉ s.nodeList,
          ∃ mm mm' x, runFrom drmMmRemoveNode s order = some mm ∧
            mm.insertScanned n size alignment range = some (mm', true) ∧ mm'.Inv lo hi ∧
            (s.initScan size alignment range).request.Allows x ∧ mm.Placed n x size mm') := by
  obtain ⟨t, added, hit, hadd, hsub, hfound, u, victims, hremove, hs⟩ :=
    DrmMmScan.scanAdd_scanned (s := s.initScan size alignment range) ⟨h.head, h.nodup⟩ hnodup hns
      fun _ _ => rfl
  refine ⟨t, added, hit, hadd, u, victims, hremove, hs.mm, fun hhit order horder n hn => ?_⟩
  have hadded : ∀ m ∈ added, m ∈ s.nodeList ∧ m ≠ headNode := fun m hm => hns m (hsub.subset hm)
  obtain ⟨mm, hevict, m, hm⟩ :=
    hs.exists_suitable (hfound hhit) h hfit (hsub.nodup hnodup) hadded horder
  -- the same removals keep the invariant
  obtain ⟨mm, hevict', hinv, hlist, -⟩ := h.removeNodes hfit.lt
    (horder.nodup_iff.mpr (hs.sublist.nodup (List.nodup_reverse.mpr (hsub.nodup hnodup))))
    fun m hm => hadded m (List.mem_reverse.mp (hs.sublist.subset (horder.subset hm)))
  cases hevict.symm.trans hevict'
  obtain ⟨res, hres, hanswer⟩ := insertScanned_spec hinv
    (fun hnm => hn (List.diff_subset _ _ (hlist ▸ hnm))) hsize hfit
  rcases hanswer with ⟨hdone, hinv', x, hx, hplaced⟩ | ⟨-, hfull⟩
  · have hrequest : (s.initScan size alignment range).request.size = size := by cases range <;> rfl
    exact ⟨mm, res.1, x, hevict, by rw [hres, ← hdone], hinv', hx, hrequest ▸ hplaced⟩
  · -- the hole that the scan has found has a place
    exact absurd hfull (hm.not_full hinv hfit.lt)

/-- Of three nodes of 10 addresses, two are evicted for one of 15. -/
theorem evict_insert_two :
    ∃ s mm mm', runFrom drmMmStep (.init 0 30) [.createBlock (some 1) 0 10,
        .createBlock (some 2) 10 10, .createBlock (some 3) 20 10] = some s ∧
      runFrom drmMmRemoveNode s.mm [3, 2] = some mm ∧
      mm.insertScanned 4 15 4 none = some (mm', true) := by
  have hinv := DrmMmRun.Inv.of_run 0 30 (by decide) (by decide)
    [.createBlock (some 1) 0 10, .createBlock (some 2) 10 10, .createBlock (some 3) 20 10]
    (by decide) rfl
  obtain ⟨t, added, hit, hadd, u, victims, hremove, -, hroom⟩ := evict_insert hinv.mm 15 4
    (by decide) none (show 30 + 4 < 2 ^ 32 by decide) [3, 2, 1] (by decide) (by decide)
  cases hadd
  cases hremove
  obtain ⟨mm, mm', _, hevict, hinsert, -⟩ := hroom rfl [3, 2] (by decide) 4 (by decide)
  exact ⟨_, mm, mm', rfl, hevict, hinsert⟩

/-! ## Taking a manager down -/

def drmMmClean (s : DrmMm) : Bool :=
  decide (nextIn headNode s.nodeList (nextIn headNode s.nodeList headNode) = headNode)

/-- `drm_mm_takedown`: `false` if it is delayed because the list is not empty. The spare nodes of
    `unused_nodes`, and the `BUG_ON` on their number, are left out. -/
def drmMmTakedown (s : DrmMm) : Bool := decide (nextIn headNode s.nodeList headNode = headNode)

/-- `ttm_bo_man_takedown`: `none` for -EBUSY. Else the manager is freed, also if `drm_mm_takedown`
    was delayed. -/
def ttmBoManTakedown (s : DrmMm) : Option Bool :=
  if s.drmMmClean then some s.drmMmTakedown else none

/-- **Taking down**: a manager is freed if it has no node, and with a node in use exactly if there
    is no other one. -/
theorem takedown_iff (h : s.Inv lo hi) :
    (s.ttmBoManTakedown = some true ↔ ∀ n, (s.node n).allocated = false) ∧
      (s.ttmBoManTakedown = some false ↔ ∃! n, (s.node n).allocated = true) := by
  obtain ⟨l, hl⟩ := h.head
  have hnodup := hl ▸ h.nodup
  have hfirst : nextIn headNode (headNode :: l) headNode = l.headD headNode :=
    nextIn_append (List.not_mem_nil : headNode ∉ [])
  simp only [ttmBoManTakedown, drmMmClean, drmMmTakedown, ← Bool.not_eq_true, h.allocated, hl,
    hfirst, decide_eq_true_eq]
  cases l with
  | nil => simp [nextIn, ExistsUnique]
  | cons a rest =>
    obtain ⟨hhead, hrest⟩ := List.nodup_cons.mp hnodup
    have hahead : a ≠ headNode := fun heq => hhead (heq ▸ List.mem_cons_self ..)
    rw [List.headD_cons, ← List.singleton_append, nextIn_append (by simpa using hahead)]
    cases rest with
    -- the node behind the only one is the head again
    | nil =>
      have hmem : ∀ n, n ∈ [headNode] ++ [a] ∧ n ≠ headNode ↔ n = a := by grind
      simp only [hmem]
      simp [hahead]
    | cons b rest => grind [ExistsUnique]

theorem takedown_iff_one :
    ∃ s, runFrom drmMmStep (.init 0 30) [.createBlock (some 1) 0 10] = some s ∧
      s.mm.ttmBoManTakedown = some false ∧ ∃! n, (s.mm.node n).allocated = true := by
  have hinv := DrmMmRun.Inv.of_run 0 30 (by decide) (by decide) [.createBlock (some 1) 0 10]
    (by decide) rfl
  exact ⟨_, rfl, rfl, (takedown_iff hinv.mm).2.mp rfl⟩

end NucKernel.Drm.DrmMm
