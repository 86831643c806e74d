import NucKernel.Drm.MmInsert
import NucKernel.Library.Runs

/-!
# Runs of the range manager

Nodes are inserted anywhere, in a part of the range or at a given place, and removed again.
-/

namespace NucKernel.Drm

open NucKernel.Library

namespace DrmMm

variable {s : DrmMm} {lo hi n m : ℕ}

/-! ## Removal -/

/-- What a call has made of the list when it removed the node `n` -/
structure Removed (s : DrmMm) (n : ℕ) (s' : DrmMm) : Prop where
  mem : ∀ m, m ∈ s'.nodeList ↔ m ≠ n ∧ m ∈ s.nodeList
  frame : ∀ m, (s'.node m).start = (s.node m).start ∧ (s'.node m).size = (s.node m).size

theorem drmMmRemoveNode_eq (h : s.Inv lo hi) (hn : n ∈ s.nodeList) :
    s.drmMmRemoveNode n = some (({ s with holeStack := s.holeStack.erase n }.openHole
      (prevIn headNode s.nodeList n)).unlink n) := by
  have hflag := h.flag n hn
  have hordered := h.ordered n hn
  rw [drmMmRemoveNode]
  split
  -- the node is on the stack, and a hole is behind it
  next hfollows => rw [if_neg (hflag.mp hfollows).ne]
  next hfollows =>
    have hclosed : s.holeNodeStart n = s.holeNodeEnd n :=
      le_antisymm hordered (not_lt.mp fun hlt => hfollows (hflag.mpr hlt))
    have hstack : n ∉ s.holeStack := fun hmem => hfollows ((h.stack n).mp hmem).2
    rw [if_neg (not_not.mpr hclosed), List.erase_of_not_mem hstack]

section OpenHole

variable {prev : ℕ}

theorem openHole_nodeList (prev : ℕ) : (s.openHole prev).nodeList = s.nodeList := by
  rw [openHole]
  split <;> rfl

theorem openHole_node (m : ℕ) : (s.openHole prev).node m =
    if m = prev then { s.node m with holeFollows := true } else s.node m := by
  rw [openHole]
  by_cases hm : m = prev
  · subst hm
    rw [if_pos rfl]
    split
    next hclosed => exact Function.update_self ..
    next hopen =>
      rw [← not_not.mp hopen]
  · rw [if_neg hm]
    split
    · exact Function.update_of_ne hm ..
    · rfl

theorem openHole_holeStack (hs : s.holeStack.Nodup)
    (hprev : (s.node prev).holeFollows = true ↔ prev ∈ s.holeStack) :
    (s.openHole prev).holeStack.Nodup ∧
      ∀ m, m ∈ (s.openHole prev).holeStack ↔ m = prev ∨ m ∈ s.holeStack := by
  rw [openHole]
  split
  next hclosed =>
    rw [hprev] at hclosed
    exact ⟨List.nodup_cons.mpr ⟨hclosed, hs⟩, fun m => List.mem_cons⟩
  next hopen =>
    refine ⟨List.nodup_cons.mpr ⟨hs.not_mem_erase, hs.erase prev⟩, fun m => ?_⟩
    rw [List.mem_cons, hs.mem_erase_iff]
    by_cases hm : m = prev <;> simp [hm]

end OpenHole

theorem unlink_node_self : (s.unlink n).node n = { s.node n with allocated := false } :=
  Function.update_self ..

theorem unlink_node_of_ne (hmn : m ≠ n) : (s.unlink n).node m = s.node m :=
  Function.update_of_ne hmn ..

/-- The node is off the list and the stack, and a hole follows the node in front of it. -/
structure Unlinked (s : DrmMm) (n prev : ℕ) (s' : DrmMm) : Prop where
  list : s'.nodeList = s.nodeList.erase n
  frame : ∀ m, (s'.node m).start = (s.node m).start ∧ (s'.node m).size = (s.node m).size
  flag : ∀ m, m ≠ n →
    ((s'.node m).holeFollows = true ↔ m = prev ∨ (s.node m).holeFollows = true)
  stackNodup : s'.holeStack.Nodup
  stack : ∀ m, m ∈ s'.holeStack ↔ m = prev ∨ m ∈ s.holeStack.erase n
  allocated : ∀ m, (s'.node m).allocated = true ↔ m ≠ n ∧ (s.node m).allocated = true

theorem unlinked_openHole (h : s.Inv lo hi) {prev : ℕ} (hprev : prev ∈ s.nodeList)
    (hprevn : prev ≠ n) :
    Unlinked s n prev (({ s with holeStack := s.holeStack.erase n }.openHole prev).unlink n) := by
  set s₁ := { s with holeStack := s.holeStack.erase n }.openHole prev with hs₁
  have hnode : ∀ m, m ≠ n → (s₁.unlink n).node m =
      if m = prev then { s.node m with holeFollows := true } else s.node m := fun m hm => by
    rw [unlink_node_of_ne hm, hs₁, openHole_node]
  -- the stack without `n` says about the node in front what its flag says
  have hprevstack : (s.node prev).holeFollows = true ↔ prev ∈ s.holeStack.erase n := by
    rw [h.stackNodup.mem_erase_iff, h.stack prev]
    simp [hprevn, hprev]
  obtain ⟨hstackNodup, hstack⟩ := openHole_holeStack
    (s := { s with holeStack := s.holeStack.erase n }) (h.stackNodup.erase n) hprevstack
  refine ⟨?_, fun m => ?_, fun m hm => ?_, hstackNodup, hstack, fun m => ?_⟩
  · rw [unlink, hs₁, openHole_nodeList]
  · -- the fields of `n` itself stay, but for `allocated`
    by_cases hm : m = n
    · subst hm
      rw [unlink_node_self, hs₁, openHole_node, if_neg hprevn.symm]
      exact ⟨rfl, rfl⟩
    · rw [hnode m hm]
      split <;> exact ⟨rfl, rfl⟩
  · rw [hnode m hm]
    split
    next hmprev => simp [hmprev]
    next hmprev => simp [hmprev]
  · by_cases hm : m = n
    · subst hm
      simp [unlink]
    · have hallocated : ((s₁.unlink n).node m).allocated = (s.node m).allocated := by
        rw [hnode m hm]
        split <;> rfl
      rw [hallocated]
      simp [hm]

theorem Unlinked.inv {s' : DrmMm} (hun : Unlinked s n (prevIn headNode s.nodeList n) s')
    (h : s.Inv lo hi) (hhi : hi < 2 ^ 32) (hn : n ∈ s.nodeList) (hhead : n ≠ headNode) :
    s'.Inv lo hi := by
  obtain ⟨l, hl⟩ := h.head
  obtain ⟨hprev, hprevn, hnext⟩ := nextIn_prevIn hl h.nodup hn hhead
  obtain ⟨hlist, hframe, hflag, hstackNodup, hstack, hallocated⟩ := hun
  have hmem : ∀ m, m ∈ s'.nodeList ↔ m ≠ n ∧ m ∈ s.nodeList := fun m => by
    rw [hlist]
    exact h.nodup.mem_erase_iff
  have hstart : ∀ m, s'.holeNodeStart m = s.holeNodeStart m :=
    SameExtents.holeNodeStart hframe
  -- the node in front takes over the end of the hole behind `n`
  have hend : ∀ m, m ≠ n → s'.holeNodeEnd m =
      if m = prevIn headNode s.nodeList n then s.holeNodeEnd n else s.holeNodeEnd m :=
    fun m hm => by
      rw [holeNodeEnd, hlist, nextIn_erase hl h.nodup hn hhead hm, (hframe _).1]
      split <;> rfl
  have hinside := h.inside n hn hhead
  -- the addresses of `n` are free now, so that there is a hole
  have hprevend : s.holeNodeStart (prevIn headNode s.nodeList n) < s.holeNodeEnd n := by
    have hbefore : s.holeNodeStart (prevIn headNode s.nodeList n) ≤ (s.node n).start := by
      have hordered := h.ordered _ hprev
      rwa [holeNodeEnd, hnext] at hordered
    have hbehind := h.ordered n hn
    rw [h.holeNodeStart_eq hhi hn hhead] at hbehind
    omega
  refine ⟨?_, ?_, ?_, ?_, ?_, ?_, ?_, hstackNodup, ?_, ?_⟩
  · rw [hlist, hl, List.erase_cons_tail (by simpa using hhead.symm)]
    exact ⟨_, rfl⟩
  · rw [hlist]
    exact h.nodup.erase n
  · rw [(hframe _).1]
    exact h.headStart
  · rw [hstart]
    exact h.headEnd
  · intro m hm hmhead
    rw [(hframe m).1, (hframe m).2]
    exact h.inside m ((hmem m).mp hm).2 hmhead
  · intro m hm
    obtain ⟨hmn, hm⟩ := (hmem m).mp hm
    rw [hstart, hend m hmn]
    split
    next hmprev => exact hmprev ▸ hprevend.le
    next hmprev => exact h.ordered m hm
  · intro m hm
    obtain ⟨hmn, hm⟩ := (hmem m).mp hm
    rw [hstart, hend m hmn, hflag m hmn]
    split
    next hmprev => simp [hmprev, hprevend]
    next hmprev => simp [hmprev, h.flag m hm]
  · -- `n` is off the stack, and the node in front is on it
    intro m
    rw [hmem, hstack m, h.stackNodup.mem_erase_iff, h.stack m]
    by_cases hmn : m = n
    · simp [hmn, hprevn.symm]
    · rw [hflag m hmn]
      by_cases hmprev : m = prevIn headNode s.nodeList n
      · simp [hmprev, hprevn, hprev]
      · simp [hmn, hmprev]
  · intro m
    rw [hallocated, hmem, h.allocated m, and_assoc]

theorem Inv.removeNode (h : s.Inv lo hi) (hhi : hi < 2 ^ 32) (hn : n ∈ s.nodeList)
    (hhead : n ≠ headNode) :
    ∃ s', s.drmMmRemoveNode n = some s' ∧ s'.Inv lo hi ∧
      Unlinked s n (prevIn headNode s.nodeList n) s' := by
  obtain ⟨l, hl⟩ := h.head
  obtain ⟨hprev, hprevn, -⟩ := nextIn_prevIn hl h.nodup hn hhead
  have hun := unlinked_openHole h hprev hprevn
  exact ⟨_, drmMmRemoveNode_eq h hn, hun.inv h hhi hn hhead, hun⟩

theorem drmMmRemoveNode_spec (h : s.Inv lo hi) (hhi : hi < 2 ^ 32) (hn : n ∈ s.nodeList)
    (hhead : n ≠ headNode) :
    ∃ s', s.drmMmRemoveNode n = some s' ∧ s'.Inv lo hi ∧ Removed s n s' := by
  obtain ⟨s', hs', hinv, hun⟩ := h.removeNode hhi hn hhead
  refine ⟨s', hs', hinv, fun m => ?_, hun.frame⟩
  rw [hun.list]
  exact h.nodup.mem_erase_iff

end DrmMm

/-! ## Runs -/

/-- A call. `mem` is the node that `drm_mm_kmalloc` returns. -/
inductive DrmMmOp where
  | insertNode (n size alignment : ℕ)
  | insertNodeInRange (n size alignment start stop : ℕ)
  | createBlock (mem : Option ℕ) (start size : ℕ)
  | removeNode (n : ℕ)
  deriving DecidableEq, Repr

namespace DrmMmOp

/-- The node that a call is to add, and what is asked for it -/
def request : DrmMmOp → Option (ℕ × Request)
  | insertNode n size alignment => some (n, ⟨size, alignment, 0, 2 ^ 32⟩)
  | insertNodeInRange n size alignment start stop => some (n, ⟨size, alignment, start, stop⟩)
  | createBlock mem start size => mem.map (·, ⟨size, 0, start, start + size⟩)
  | removeNode _ => none

/-- The manager after a call, and whether it was done -/
def apply (s : DrmMm) : DrmMmOp → Option (DrmMm × Bool)
  | insertNode n size alignment => s.drmMmInsertNodeGeneric n size alignment
  | insertNodeInRange n size alignment start stop =>
    s.drmMmInsertNodeInRangeGeneric n size alignment start stop
  | createBlock mem start size => s.drmMmCreateBlock mem start size
  | removeNode n => (s.drmMmRemoveNode n).map (·, true)

end DrmMmOp

/-- A manager, what was asked for each node, and whether the last call was done -/
structure DrmMmRun where
  mm : DrmMm
  asked : ℕ → Request
  done : Bool

def DrmMmRun.init (start size : ℕ) : DrmMmRun := ⟨drmMmInit start size, fun _ => ⟨0, 0, 0, 0⟩, true⟩

/-- What is asked for the nodes after a call -/
def DrmMmRun.ask (s : DrmMmRun) (op : DrmMmOp) (done : Bool) : ℕ → Request :=
  match op.request, done with
  | some (n, r), true => Function.update s.asked n r
  | _, _ => s.asked

/-- A call -/
def drmMmStep (s : DrmMmRun) (op : DrmMmOp) : Option DrmMmRun :=
  (op.apply s.mm).map fun res => ⟨res.1, s.ask op res.2, res.2⟩

/-- Nodes are disjoint and where they were asked for, a node is flagged and once on the stack if the
    address behind it is free, and a request is refused only if there is no place for it. -/
structure Safe (lo hi : ℕ) (s : DrmMmRun) (op : DrmMmOp) (s' : DrmMmRun) : Prop where
  inside : ∀ n, (s'.mm.node n).allocated = true →
    lo ≤ (s'.mm.node n).start ∧ (s'.mm.node n).start + (s'.mm.node n).size ≤ hi
  disjoint : ∀ n m q, (s'.mm.node n).allocated = true → (s'.mm.node m).allocated = true →
    s'.mm.Holds n q → s'.mm.Holds m q → n = m
  asked : ∀ n, (s'.mm.node n).allocated = true →
    (s'.mm.node n).size = (s'.asked n).size ∧ (s'.asked n).Allows (s'.mm.node n).start
  hole : ∀ n, n = headNode ∨ (s'.mm.node n).allocated = true →
    ((s'.mm.node n).holeFollows = true ↔ s'.mm.Free lo hi (s'.mm.holeNodeStart n)) ∧
      s'.mm.holeStack.count n = if (s'.mm.node n).holeFollows then 1 else 0
  kept : ∀ n, (s.mm.node n).allocated = true → op ≠ .removeNode n →
    (s'.mm.node n).allocated = true ∧ (s'.mm.node n).start = (s.mm.node n).start ∧
      s'.asked n = s.asked n
  removed : ∀ n, op = .removeNode n → (s'.mm.node n).allocated = false
  granted : ∀ n r, op.request = some (n, r) → s'.done = true →
    (s'.mm.node n).allocated = true ∧ s'.asked n = r
  refused : ∀ n r, op.request = some (n, r) → s'.done = false → r.Full lo hi s.mm

/-- The node is not in use. -/
def DrmMmRun.Unused (s : DrmMmRun) (n : ℕ) : Prop :=
  n ≠ headNode ∧ (s.mm.node n).allocated = false

/-- Nodes that are added are not in use, nodes that are removed are, and the sums that a search
    compares do not overflow. -/
def DrmMmOp.Fits (hi : ℕ) (s : DrmMmRun) : DrmMmOp → Prop
  | insertNode n size alignment => s.Unused n ∧ 1 ≤ size ∧ hi + alignment < 2 ^ 32
  | insertNodeInRange n size alignment start _ =>
    s.Unused n ∧ 1 ≤ size ∧ max start hi + alignment + size < 2 ^ 32
  | createBlock mem start size => (∀ n ∈ mem, s.Unused n) ∧ 1 ≤ size ∧ start + size < 2 ^ 32
  | removeNode n => (s.mm.node n).allocated = true

instance (s : DrmMmRun) (n : ℕ) : Decidable (s.Unused n) := inferInstanceAs (Decidable (_ ∧ _))

instance (hi : ℕ) (s : DrmMmRun) : (op : DrmMmOp) → Decidable (op.Fits hi s)
  | .insertNode .. => inferInstanceAs (Decidable (_ ∧ _ ∧ _))
  | .insertNodeInRange .. => inferInstanceAs (Decidable (_ ∧ _ ∧ _))
  | .createBlock .. => inferInstanceAs (Decidable (_ ∧ _ ∧ _))
  | .removeNode _ => inferInstanceAs (Decidable (_ = true))

/-- What holds between the calls -/
structure DrmMmRun.Inv (lo hi : ℕ) (s : DrmMmRun) : Prop where
  mm : s.mm.Inv lo hi
  asked : ∀ n, (s.mm.node n).allocated = true →
    (s.mm.node n).size = (s.asked n).size ∧ (s.asked n).Allows (s.mm.node n).start

variable {lo hi : ℕ} {s s' : DrmMmRun} {op : DrmMmOp}

theorem DrmMmRun.Inv.notMem (h : s.Inv lo hi) {n : ℕ} (hn : s.Unused n) :
    n ∉ s.mm.nodeList := fun hmem => by
  have := (h.mm.allocated n).mpr ⟨hmem, hn.1⟩
  rw [hn.2] at this
  cases this

theorem Safe.of_inv (h : s'.Inv lo hi) (hhi : hi < 2 ^ 32)
    (kept : ∀ n, (s.mm.node n).allocated = true → op ≠ .removeNode n →
      (s'.mm.node n).allocated = true ∧ (s'.mm.node n).start = (s.mm.node n).start ∧
        s'.asked n = s.asked n)
    (removed : ∀ n, op = .removeNode n → (s'.mm.node n).allocated = false)
    (granted : ∀ n r, op.request = some (n, r) → s'.done = true →
      (s'.mm.node n).allocated = true ∧ s'.asked n = r)
    (refused : ∀ n r, op.request = some (n, r) → s'.done = false → r.Full lo hi s.mm) :
    Safe lo hi s op s' where
  inside := fun n hn => by
    obtain ⟨hmem, hhead⟩ := (h.mm.allocated n).mp hn
    have := h.mm.inside n hmem hhead
    exact ⟨this.1, this.2.2⟩
  -- of two nodes, one ends before the other starts
  disjoint := fun n m q hn hm hqn hqm => by
    obtain ⟨hnmem, hnhead⟩ := (h.mm.allocated n).mp hn
    obtain ⟨hmmem, hmhead⟩ := (h.mm.allocated m).mp hm
    obtain ⟨hqn₁, hqn₂⟩ := hqn
    obtain ⟨hqm₁, hqm₂⟩ := hqm
    have hordered := h.mm.ordered n hnmem
    rw [h.mm.holeNodeStart_eq hhi hnmem hnhead] at hordered
    rcases h.mm.apart hhi hnmem hmmem hmhead with heq | ⟨-, hbefore⟩ | hbehind
    · exact heq.symm
    · omega
    · omega
  asked := h.asked
  hole := fun n hn => by
    have hmem : n ∈ s'.mm.nodeList := by
      rcases hn with rfl | hn
      · exact h.mm.head_mem
      · exact ((h.mm.allocated n).mp hn).1
    refine ⟨h.mm.holeFollows_iff hhi hmem, ?_⟩
    simp only [h.mm.stackNodup.count, h.mm.stack n, hmem, true_and]
  kept := kept
  removed := removed
  granted := granted
  refused := refused

theorem safe_of_answered (h : s.Inv lo hi) (hhi : hi < 2 ^ 32) {n : ℕ} {r : Request}
    (hreq : op.request = some (n, r)) (hn : n ∉ s.mm.nodeList) {res : DrmMm × Bool}
    (happly : op.apply s.mm = some res) (hanswered : r.Answered lo hi s.mm n res) :
    ∃ s', drmMmStep s op = some s' ∧ s'.Inv lo hi ∧ Safe lo hi s op s' := by
  have hop : ∀ m, op ≠ .removeNode m := by
    rintro m rfl
    cases hreq
  refine ⟨⟨res.1, s.ask op res.2, res.2⟩, by rw [drmMmStep, happly]; rfl, ?_⟩
  rcases hanswered with ⟨hdone, hinv, x, hx, hplaced⟩ | ⟨rfl, hfull⟩
  · -- a node was added
    have hask : s.ask op res.2 = Function.update s.asked n r := by
      simp only [DrmMmRun.ask, hreq, hdone]
    rw [hask]
    -- nodes that were in use are other ones
    have hne : ∀ m, (s.mm.node m).allocated = true → m ≠ n := fun m hm heq =>
      hn (heq ▸ ((h.mm.allocated m).mp hm).1)
    have hallocated : ∀ m, (res.1.node m).allocated = true → m ≠ n →
        (s.mm.node m).allocated = true := fun m hm hmn => by
      rw [hinv.allocated, hplaced.mem] at hm
      exact (h.mm.allocated m).mpr ⟨hm.1.resolve_left hmn, hm.2⟩
    have hnew : (res.1.node n).allocated = true :=
      (hinv.allocated n).mpr ⟨(hplaced.mem n).mpr (.inl rfl), fun heq => hn (heq ▸ h.mm.head_mem)⟩
    have hinv' : DrmMmRun.Inv lo hi ⟨res.1, Function.update s.asked n r, res.2⟩ := by
      refine ⟨hinv, fun m hm => ?_⟩
      by_cases hmn : m = n
      · subst hmn
        simp only [Function.update_self, hplaced.size, hplaced.start]
        exact ⟨trivial, hx⟩
      · simp only [Function.update_of_ne hmn, hplaced.frame m hmn]
        exact h.asked m (hallocated m hm hmn)
    refine ⟨hinv', Safe.of_inv hinv' hhi ?_ (fun m heq => absurd heq (hop m)) ?_ ?_⟩
    · intro m hm _
      refine ⟨(hinv.allocated m).mpr ?_, (hplaced.frame m (hne m hm)).1,
        Function.update_of_ne (hne m hm) ..⟩
      obtain ⟨hmem, hhead⟩ := (h.mm.allocated m).mp hm
      exact ⟨(hplaced.mem m).mpr (.inr hmem), hhead⟩
    · intro m r' hreq' _
      rw [hreq] at hreq'
      cases hreq'
      exact ⟨hnew, Function.update_self ..⟩
    · intro m r' _ hrefused
      rw [hdone] at hrefused
      cases hrefused
  · -- nothing was changed, as there is no place
    have hask : s.ask op false = s.asked := by
      simp only [DrmMmRun.ask, hreq]
    rw [hask]
    have hinv' : DrmMmRun.Inv lo hi ⟨s.mm, s.asked, false⟩ := ⟨h.mm, h.asked⟩
    refine ⟨hinv', Safe.of_inv hinv' hhi (fun m hm _ => ⟨hm, rfl, rfl⟩)
      (fun m heq => absurd heq (hop m)) nofun ?_⟩
    intro m r' hreq' _
    rw [hreq] at hreq'
    cases hreq'
    exact hfull

theorem drmMmStep_safe (hhi : hi < 2 ^ 32) (s : DrmMmRun) (op : DrmMmOp) (h : s.Inv lo hi)
    (hop : op.Fits hi s) : ∃ s', drmMmStep s op = some s' ∧ s'.Inv lo hi ∧ Safe lo hi s op s' := by
  cases op with
  | insertNode n size alignment =>
    obtain ⟨hn, hsize, hfit⟩ := hop
    obtain ⟨res, hres, hanswered⟩ :=
      DrmMm.drmMmInsertNodeGeneric_spec h.mm (h.notMem hn) hsize hfit
    exact safe_of_answered h hhi rfl (h.notMem hn) hres hanswered
  | insertNodeInRange n size alignment start stop =>
    obtain ⟨hn, hsize, hfit⟩ := hop
    obtain ⟨res, hres, hanswered⟩ :=
      DrmMm.drmMmInsertNodeInRangeGeneric_spec h.mm (h.notMem hn) stop hsize hfit
    exact safe_of_answered h hhi rfl (h.notMem hn) hres hanswered
  | createBlock mem start size =>
    obtain ⟨hmem, hsize, hfit⟩ := hop
    cases mem with
    | none =>
      -- no memory
      have hinv' : DrmMmRun.Inv lo hi ⟨s.mm, s.asked, false⟩ := ⟨h.mm, h.asked⟩
      refine ⟨_, ?_, hinv', Safe.of_inv hinv' hhi (fun m hm _ => ⟨hm, rfl, rfl⟩) nofun nofun nofun⟩
      rw [drmMmStep, DrmMmOp.apply, DrmMm.drmMmCreateBlock_none h.mm]
      rfl
    | some n =>
      have hn := h.notMem (hmem n rfl)
      obtain ⟨res, hres, hanswered⟩ := DrmMm.drmMmCreateBlock_spec h.mm hhi hn hsize hfit
      exact safe_of_answered h hhi rfl hn hres hanswered
  | removeNode n =>
    obtain ⟨hmem, hhead⟩ := (h.mm.allocated n).mp hop
    obtain ⟨mm, hremove, hinv, hremoved⟩ := DrmMm.drmMmRemoveNode_spec h.mm hhi hmem hhead
    -- the other nodes stay in use
    have hiff : ∀ m, (mm.node m).allocated = true ↔ m ≠ n ∧ (s.mm.node m).allocated = true :=
      fun m => by
        rw [hinv.allocated, hremoved.mem, h.mm.allocated, and_assoc]
    have hinv' : DrmMmRun.Inv lo hi ⟨mm, s.asked, true⟩ := by
      refine ⟨hinv, fun m hm => ?_⟩
      rw [(hremoved.frame m).1, (hremoved.frame m).2]
      exact h.asked m ((hiff m).mp hm).2
    refine ⟨⟨mm, s.asked, true⟩, ?_, hinv', Safe.of_inv hinv' hhi ?_ ?_ nofun nofun⟩
    · rw [drmMmStep, DrmMmOp.apply, hremove]
      rfl
    · intro m hm hne
      refine ⟨(hiff m).mpr ⟨fun heq => hne (by rw [heq]), hm⟩, (hremoved.frame m).1, rfl⟩
    · rintro m ⟨⟩
      exact Bool.eq_false_iff.mpr fun hallocated => ((hiff n).mp hallocated).1 rfl

theorem DrmMmRun.Inv.init (start : ℕ) {size : ℕ} (hsize : 1 ≤ size) (hend : start + size < 2 ^ 32) :
    (DrmMmRun.init start size).Inv start (start + size) := by
  refine ⟨DrmMm.Inv.init start hsize hend, fun n hn => ?_⟩
  obtain ⟨hmem, hhead⟩ := ((DrmMm.Inv.init start hsize hend).allocated n).mp hn
  exact absurd (List.mem_singleton.mp hmem) hhead

theorem DrmMmRun.Inv.of_run (start size : ℕ) (hsize : 1 ≤ size) (hend : start + size < 2 ^ 32)
    (ops : List DrmMmOp)
    (hops : Admitted drmMmStep (fun s op => op.Fits (start + size) s) (.init start size) ops)
    {t : DrmMmRun} (hrun : runFrom drmMmStep (.init start size) ops = some t) :
    t.Inv start (start + size) := by
  refine hops.inv (fun s op h hop => ?_) (.init start hsize hend) hrun
  obtain ⟨s', hs', hinv, -⟩ := drmMmStep_safe hend s op h hop
  exact ⟨s', hs', hinv⟩

/-- **Range management**: every run of calls whose sums do not overflow comes to its end, and all of
    its calls are safe. -/
theorem drm_mm_safe (start size : ℕ) (hsize : 1 ≤ size) (hend : start + size < 2 ^ 32)
    {ops : List DrmMmOp}
    (hops : Admitted drmMmStep (fun s op => op.Fits (start + size) s) (.init start size) ops) :
    (∃ s, runFrom drmMmStep (.init start size) ops = some s) ∧
      Along drmMmStep (Safe start (start + size)) (.init start size) ops :=
  admitted_along (I := DrmMmRun.Inv start (start + size)) (drmMmStep_safe hend)
    (.init start hsize hend) hops

/-- Three nodes are added to the range from 8 to 108, one of them in a part of it and one at a given
    place, and the first one is removed. -/
theorem drm_mm_safe_four :
    Along drmMmStep (Safe 8 108) (.init 8 100)
      [.insertNode 1 10 16, .insertNodeInRange 2 5 8 41 60, .createBlock (some 3) 100 8,
        .removeNode 1] :=
  (drm_mm_safe 8 100 (by decide) (by decide) (by decide)).2

/-- A node for the addresses from 4294967292 on, with alignment 16, is placed at address 0. -/
theorem range_above :
    ¬ Along drmMmStep (Safe 0 100) (.init 0 100)
      [.insertNodeInRange 1 1 16 4294967292 4294967295] := by
  intro h
  obtain ⟨hsafe, -⟩ := h _ rfl
  obtain ⟨-, -, hstart, -⟩ := hsafe.asked 1 rfl
  exact absurd hstart (by decide)

end NucKernel.Drm
