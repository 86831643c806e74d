import Mathlib.Algebra.GroupWithZero.Nat
import NucKernel.Library.CircularList

/-!
# The range manager of the graphics drivers (`drm_mm.c`)

A manager hands out parts of a range of addresses. The nodes in use are on a circular list in the
order of their addresses, and a hole exists only as the distance between the end of a node and the
start of the next one. The head of the list is a node that starts at the end of the managed range
and has a negative size, so that it ends at the start of the range. Nodes that are followed by a
hole are on a stack.

## Modelling

- `unsigned long` has 32 bits
- nodes are numbers, with a table of their fields; number 0 is `head_node`
- no colour callback is set and no scan is going on, so that the fields for both are left out
- `drm_mm_hole_node_start`, `drm_mm_hole_node_end` and `drm_mm_for_each_hole` are from `drm_mm.h`,
  which is not part of the source: the end of a node, the start of the next one, and a walk over the
  stack, where `BUG_ON` fires at a node without a hole
- `BUG_ON` has no result
-/

namespace NucKernel.Drm

open NucKernel.Library

structure DrmMmNode where
  start : ℕ
  size : ℕ
  holeFollows : Bool
  allocated : Bool
  deriving DecidableEq, Repr

/-- `struct drm_mm`, with the nodes. Both lists are in the order of their links, `nodeList` from
    `head_node` on. -/
structure DrmMm where
  nodeList : List ℕ
  holeStack : List ℕ
  node : ℕ → DrmMmNode

/-- `mm->head_node` -/
def headNode : ℕ := 0

/-- `a - b` -/
def sub32 (a b : ℕ) : ℕ := (a + 2 ^ 32 - b % 2 ^ 32) % 2 ^ 32

def drmMmInit (start size : ℕ) : DrmMm where
  nodeList := [headNode]
  holeStack := [headNode]
  node := Function.update (fun _ => ⟨0, 0, false, false⟩) headNode
    ⟨(start + size) % 2 ^ 32, sub32 start ((start + size) % 2 ^ 32), true, false⟩

/-- A start address moved up to a multiple of the alignment, if there is one -/
def alignUp (start alignment : ℕ) : ℕ :=
  if alignment ≠ 0 ∧ start % alignment ≠ 0 then
    (start + (alignment - start % alignment)) % 2 ^ 32
  else start

def checkFreeHole (start stop size alignment : ℕ) : Bool :=
  if sub32 stop start < size then false
  else decide (stop ≥ (alignUp start alignment + size) % 2 ^ 32)

/-- The start of a hole, when only addresses from `start` on are wanted -/
def clipStart (start holeStart : ℕ) : ℕ := if holeStart < start then start else holeStart

/-- The end of a hole, when only addresses below `stop` are wanted -/
def clipEnd (stop holeEnd : ℕ) : ℕ := if holeEnd > stop then stop else holeEnd

namespace DrmMm

variable (s : DrmMm)

/-- `drm_mm_hole_node_start` -/
def holeNodeStart (n : ℕ) : ℕ := ((s.node n).start + (s.node n).size) % 2 ^ 32

/-- `drm_mm_hole_node_end` -/
def holeNodeEnd (n : ℕ) : ℕ := (s.node (nextIn headNode s.nodeList n)).start

/-! ## Search -/

/-- The loop over the holes: the first one that is accepted, or the accepted one of least node
    size -/
def searchFree (accept : ℕ → ℕ → Bool) (bestMatch : Bool) :
    List ℕ → Option ℕ → ℕ → Option (Option ℕ)
  | [], best, _ => some best
  | entry :: rest, best, bestSize =>
    if ¬ (s.node entry).holeFollows then none
    else if ¬ accept (s.holeNodeStart entry) (s.holeNodeEnd entry) then
      searchFree accept bestMatch rest best bestSize
    else if ¬ bestMatch then some (some entry)
    else if (s.node entry).size < bestSize then
      searchFree accept bestMatch rest (some entry) (s.node entry).size
    else searchFree accept bestMatch rest best bestSize

def drmMmSearchFreeGeneric (size alignment : ℕ) (bestMatch : Bool) : Option (Option ℕ) :=
  s.searchFree (fun adjStart adjEnd => checkFreeHole adjStart adjEnd size alignment) bestMatch
    s.holeStack none (2 ^ 32 - 1)

def drmMmSearchFreeInRangeGeneric (size alignment start stop : ℕ) (bestMatch : Bool) :
    Option (Option ℕ) :=
  s.searchFree
    (fun holeStart holeEnd =>
      checkFreeHole (clipStart start holeStart) (clipEnd stop holeEnd) size alignment)
    bestMatch s.holeStack none (2 ^ 32 - 1)

/-! ## Insertion -/

/-- Nothing is left of the hole directly behind its node. -/
def closeHole (hole : ℕ) : DrmMm :=
  { s with
    holeStack := s.holeStack.erase hole
    node := Function.update s.node hole { s.node hole with holeFollows := false } }

/-- The node `n` is set up at `adjStart` and linked in behind the node of the hole. -/
def place (hole n adjStart size : ℕ) (left : Bool) : DrmMm :=
  let s₁ := if adjStart = s.holeNodeStart hole then s.closeHole hole else s
  { nodeList := addAfter s₁.nodeList hole n
    holeStack := if left then n :: s₁.holeStack else s₁.holeStack
    node := Function.update s₁.node n ⟨adjStart, size, left, true⟩ }

def drmMmInsertHelper (hole n size alignment : ℕ) : Option DrmMm :=
  let adjStart := alignUp (s.holeNodeStart hole) alignment
  let stop := (adjStart + size) % 2 ^ 32
  if ¬ (s.node hole).holeFollows ∨ (s.node n).allocated then none
  else if stop > s.holeNodeEnd hole then none
  else some (s.place hole n adjStart size (decide (stop < s.holeNodeEnd hole)))

def drmMmInsertHelperRange (hole n size alignment start stop : ℕ) : Option DrmMm :=
  let adjStart := alignUp (clipStart start (s.holeNodeStart hole)) alignment
  let adjEnd := clipEnd stop (s.holeNodeEnd hole)
  let nodeEnd := (adjStart + size) % 2 ^ 32
  if ¬ (s.node hole).holeFollows ∨ (s.node n).allocated then none
  else if nodeEnd > adjEnd ∨ nodeEnd > stop then none
  else some (s.place hole n adjStart size (decide (nodeEnd < s.holeNodeEnd hole)))

/-- `drm_mm_insert_node_generic`: `false` for -ENOSPC -/
def drmMmInsertNodeGeneric (n size alignment : ℕ) : Option (DrmMm × Bool) :=
  match s.drmMmSearchFreeGeneric size alignment false with
  | none => none
  | some none => some (s, false)
  | some (some hole) => (s.drmMmInsertHelper hole n size alignment).map (·, true)

/-- `drm_mm_insert_node_in_range_generic`: `false` for -ENOSPC -/
def drmMmInsertNodeInRangeGeneric (n size alignment start stop : ℕ) : Option (DrmMm × Bool) :=
  match s.drmMmSearchFreeInRangeGeneric size alignment start stop false with
  | none => none
  | some none => some (s, false)
  | some (some hole) =>
    (s.drmMmInsertHelperRange hole n size alignment start stop).map (·, true)

/-- `drm_mm_create_block`, where `mem` is what `drm_mm_kmalloc` returns: `false` for NULL -/
def drmMmCreateBlock (mem : Option ℕ) (start size : ℕ) : Option (DrmMm × Bool) :=
  let stop := (start + size) % 2 ^ 32
  match s.searchFree (fun holeStart holeEnd => ¬ (holeStart > start ∨ holeEnd < stop)) false
      s.holeStack none (2 ^ 32 - 1) with
  | none => none
  | some none => some (s, false)
  | some (some hole) =>
    match mem with
    | none => some (s, false)
    | some n => some (s.place hole n start size (decide (stop ≠ s.holeNodeEnd hole)), true)

/-! ## Removal -/

/-- The hole behind a node becomes, or stays, the first one of the stack. -/
def openHole (prev : ℕ) : DrmMm :=
  if ¬ (s.node prev).holeFollows then
    { s with
      holeStack := prev :: s.holeStack
      node := Function.update s.node prev { s.node prev with holeFollows := true } }
  else { s with holeStack := prev :: s.holeStack.erase prev }

/-- A node leaves the list. -/
def unlink (n : ℕ) : DrmMm :=
  { s with
    nodeList := s.nodeList.erase n
    node := Function.update s.node n { s.node n with allocated := false } }

def drmMmRemoveNode (n : ℕ) : Option DrmMm :=
  let prev := prevIn headNode s.nodeList n
  if (s.node n).holeFollows then
    if s.holeNodeStart n = s.holeNodeEnd n then none
    else some (({ s with holeStack := s.holeStack.erase n }.openHole prev).unlink n)
  else
    if s.holeNodeStart n ≠ s.holeNodeEnd n then none
    else some ((s.openHole prev).unlink n)

/-! ## What holds between the calls -/

/-- The nodes in the range from `lo` to `hi` are in order, and a node is flagged and on the stack
    if there is a hole behind it. -/
structure Inv (lo hi : ℕ) (s : DrmMm) : Prop where
  head : ∃ l, s.nodeList = headNode :: l
  nodup : s.nodeList.Nodup
  headStart : (s.node headNode).start = hi
  headEnd : s.holeNodeStart headNode = lo
  inside : ∀ n ∈ s.nodeList, n ≠ headNode →
    lo ≤ (s.node n).start ∧ 1 ≤ (s.node n).size ∧ (s.node n).start + (s.node n).size ≤ hi
  ordered : ∀ n ∈ s.nodeList, s.holeNodeStart n ≤ s.holeNodeEnd n
  flag : ∀ n ∈ s.nodeList, (s.node n).holeFollows = true ↔ s.holeNodeStart n < s.holeNodeEnd n
  stackNodup : s.holeStack.Nodup
  stack : ∀ n, n ∈ s.holeStack ↔ n ∈ s.nodeList ∧ (s.node n).holeFollows = true
  allocated : ∀ n, (s.node n).allocated = true ↔ n ∈ s.nodeList ∧ n ≠ headNode

variable {s} {lo hi hole n m adjStart size : ℕ} {left : Bool}

theorem Inv.head_mem (h : s.Inv lo hi) : headNode ∈ s.nodeList := by
  obtain ⟨l, hl⟩ := h.head
  rw [hl]
  exact List.mem_cons_self ..

theorem Inv.next_mem (h : s.Inv lo hi) (n : ℕ) : nextIn headNode s.nodeList n ∈ s.nodeList :=
  nextIn_mem h.head_mem

theorem Inv.start_le (h : s.Inv lo hi) (hn : n ∈ s.nodeList) : (s.node n).start ≤ hi := by
  by_cases hhead : n = headNode
  · subst hhead
    exact h.headStart.le
  · have := h.inside n hn hhead
    omega

theorem Inv.holeNodeEnd_le (h : s.Inv lo hi) (n : ℕ) : s.holeNodeEnd n ≤ hi :=
  h.start_le (h.next_mem n)

theorem Inv.holeNodeStart_eq (h : s.Inv lo hi) (hhi : hi < 2 ^ 32) (hn : n ∈ s.nodeList)
    (hhead : n ≠ headNode) : s.holeNodeStart n = (s.node n).start + (s.node n).size := by
  have := h.inside n hn hhead
  exact Nat.mod_eq_of_lt (by omega)

theorem Inv.le_holeNodeStart (h : s.Inv lo hi) (hhi : hi < 2 ^ 32) (hn : n ∈ s.nodeList) :
    lo ≤ s.holeNodeStart n := by
  by_cases hhead : n = headNode
  · subst hhead
    exact h.headEnd.ge
  · have := h.inside n hn hhead
    rw [h.holeNodeStart_eq hhi hn hhead]
    omega

/-- Nodes start at the same addresses and have the same sizes. -/
def SameExtents (s s' : DrmMm) : Prop :=
  ∀ m, (s'.node m).start = (s.node m).start ∧ (s'.node m).size = (s.node m).size

theorem holeNodeStart_congr {s' : DrmMm} (hstart : (s'.node m).start = (s.node m).start)
    (hsize : (s'.node m).size = (s.node m).size) : s'.holeNodeStart m = s.holeNodeStart m := by
  rw [holeNodeStart, hstart, hsize, holeNodeStart]

theorem SameExtents.holeNodeStart {s' : DrmMm} (h : s.SameExtents s') (m : ℕ) :
    s'.holeNodeStart m = s.holeNodeStart m :=
  holeNodeStart_congr (h m).1 (h m).2

theorem Inv.init (start : ℕ) {size : ℕ} (hsize : 1 ≤ size) (hend : start + size < 2 ^ 32) :
    (drmMmInit start size).Inv start (start + size) := by
  have hstart : ((drmMmInit start size).node headNode).start = start + size :=
    Nat.mod_eq_of_lt hend
  -- the size of the head is negative, so that it ends where the range starts
  have hlo : (drmMmInit start size).holeNodeStart headNode = start := by
    simp only [holeNodeStart, drmMmInit, Function.update_self, sub32]
    omega
  have hhi : (drmMmInit start size).holeNodeEnd headNode = start + size := hstart
  have hmem : ∀ n, n ∈ (drmMmInit start size).nodeList ↔ n = headNode :=
    fun n => List.mem_singleton
  refine ⟨⟨[], rfl⟩, List.nodup_singleton _, hstart, hlo, ?_, ?_, ?_, List.nodup_singleton _, ?_,
    ?_⟩
  · exact fun n hn hhead => absurd ((hmem n).mp hn) hhead
  · intro n hn
    rw [(hmem n).mp hn, hlo, hhi]
    omega
  · intro n hn
    rw [(hmem n).mp hn, hlo, hhi]
    exact ⟨fun _ => by omega, fun _ => rfl⟩
  · intro n
    rw [hmem]
    constructor
    · intro hn
      obtain rfl := List.mem_singleton.mp hn
      exact ⟨rfl, rfl⟩
    · rintro ⟨rfl, -⟩
      exact List.mem_singleton_self _
  · -- nothing is allocated, not even the head
    intro n
    have hallocated : ((drmMmInit start size).node n).allocated = false := by
      by_cases hn : n = headNode
      · subst hn
        rfl
      · simp only [drmMmInit, Function.update_of_ne hn]
    rw [hallocated, hmem]
    simp

/-! ## A node is placed -/

theorem place_nodeList (hole n adjStart size : ℕ) (left : Bool) :
    (s.place hole n adjStart size left).nodeList = addAfter s.nodeList hole n := by
  simp only [place]
  split <;> rfl

theorem place_node_self :
    (s.place hole n adjStart size left).node n = ⟨adjStart, size, left, true⟩ :=
  Function.update_self ..

theorem place_node_of_ne (hmn : m ≠ n) :
    (s.place hole n adjStart size left).node m =
      if m = hole ∧ adjStart = s.holeNodeStart hole then { s.node m with holeFollows := false }
      else s.node m := by
  simp only [place, Function.update_of_ne hmn]
  -- the flag of the node in front is taken off if nothing is left there
  by_cases hstart : adjStart = s.holeNodeStart hole
  · rw [if_pos hstart]
    by_cases hm : m = hole
    · subst hm
      rw [if_pos ⟨rfl, hstart⟩]
      exact Function.update_self ..
    · rw [if_neg fun h => hm h.1]
      exact Function.update_of_ne hm ..
  · rw [if_neg hstart, if_neg fun h => hstart h.2]

theorem place_start (hmn : m ≠ n) :
    ((s.place hole n adjStart size left).node m).start = (s.node m).start := by
  rw [place_node_of_ne hmn]
  split <;> rfl

theorem place_size (hmn : m ≠ n) :
    ((s.place hole n adjStart size left).node m).size = (s.node m).size := by
  rw [place_node_of_ne hmn]
  split <;> rfl

theorem place_holeNodeStart (hmn : m ≠ n) :
    (s.place hole n adjStart size left).holeNodeStart m = s.holeNodeStart m :=
  holeNodeStart_congr (place_start hmn) (place_size hmn)

theorem place_holeNodeEnd (h : s.Inv lo hi) (hmem : hole ∈ s.nodeList) (hn : n ∉ s.nodeList)
    (m : ℕ) :
    (s.place hole n adjStart size left).holeNodeEnd m =
      if m = hole then adjStart else if m = n then s.holeNodeEnd hole else s.holeNodeEnd m := by
  have hne : ∀ m, nextIn headNode s.nodeList m ≠ n := fun m hmn => hn (hmn ▸ h.next_mem m)
  rw [holeNodeEnd, place_nodeList, nextIn_addAfter h.nodup hmem hn]
  split_ifs
  · rw [place_node_self]
  · rw [place_start (hne hole), holeNodeEnd]
  · rw [place_start (hne m), holeNodeEnd]

theorem place_holeFollows (hmn : m ≠ n) :
    ((s.place hole n adjStart size left).node m).holeFollows = true ↔
      (s.node m).holeFollows = true ∧ ¬ (m = hole ∧ adjStart = s.holeNodeStart hole) := by
  rw [place_node_of_ne hmn]
  split
  next hclosed => simp [hclosed]
  next hclosed => simp [hclosed]

theorem mem_place_holeStack (hs : s.holeStack.Nodup) :
    m ∈ (s.place hole n adjStart size left).holeStack ↔
      (m = n ∧ left = true) ∨
        (m ∈ s.holeStack ∧ ¬ (m = hole ∧ adjStart = s.holeNodeStart hole)) := by
  -- the stack before `n` may be put on it
  have hclosed : m ∈ (if adjStart = s.holeNodeStart hole then s.closeHole hole else s).holeStack ↔
      m ∈ s.holeStack ∧ ¬ (m = hole ∧ adjStart = s.holeNodeStart hole) := by
    split
    next hstart => simp [closeHole, hs.mem_erase_iff, hstart, and_comm]
    next hstart => simp [hstart]
  rw [← hclosed]
  cases left <;> simp [place]

theorem place_holeStack_nodup (hs : s.holeStack.Nodup) (hn : n ∉ s.holeStack) :
    (s.place hole n adjStart size left).holeStack.Nodup := by
  simp only [place]
  have hclosed : (if adjStart = s.holeNodeStart hole then s.closeHole hole else s).holeStack.Nodup ∧
      n ∉ (if adjStart = s.holeNodeStart hole then s.closeHole hole else s).holeStack := by
    split
    · exact ⟨hs.erase hole, fun h => hn (List.mem_of_mem_erase h)⟩
    · exact ⟨hs, hn⟩
  split
  · exact List.nodup_cons.mpr ⟨hclosed.2, hclosed.1⟩
  · exact hclosed.1

theorem mem_place_nodeList (hmem : hole ∈ s.nodeList) :
    m ∈ (s.place hole n adjStart size left).nodeList ↔ m = n ∨ m ∈ s.nodeList := by
  rw [place_nodeList]
  exact mem_addAfter hmem

theorem place_stack (h : s.Inv lo hi) (hmem : hole ∈ s.nodeList) (hn : n ∉ s.nodeList) :
    m ∈ (s.place hole n adjStart size left).holeStack ↔
      m ∈ (s.place hole n adjStart size left).nodeList ∧
        ((s.place hole n adjStart size left).node m).holeFollows = true := by
  rw [mem_place_holeStack h.stackNodup, mem_place_nodeList hmem, h.stack m]
  by_cases hmn : m = n
  · subst hmn
    simp [hn, place_node_self]
  · rw [place_holeFollows hmn]
    simp [hmn, and_assoc]

theorem place_allocated (h : s.Inv lo hi) (hmem : hole ∈ s.nodeList) (hn : n ∉ s.nodeList) :
    ((s.place hole n adjStart size left).node m).allocated = true ↔
      m ∈ (s.place hole n adjStart size left).nodeList ∧ m ≠ headNode := by
  rw [mem_place_nodeList hmem]
  by_cases hmn : m = n
  · subst hmn
    have hhead : m ≠ headNode := fun heq => hn (heq ▸ h.head_mem)
    simp [place_node_self, hhead]
  · have hframe : ((s.place hole n adjStart size left).node m).allocated =
        (s.node m).allocated := by
      rw [place_node_of_ne hmn]
      split <;> rfl
    rw [hframe, h.allocated m]
    simp [hmn]

/-- What a call has made of the node `n` in a hole -/
structure Placed (s : DrmMm) (n adjStart size : ℕ) (s' : DrmMm) : Prop where
  mem : ∀ m, m ∈ s'.nodeList ↔ m = n ∨ m ∈ s.nodeList
  start : (s'.node n).start = adjStart
  size : (s'.node n).size = size
  frame : ∀ m ≠ n, (s'.node m).start = (s.node m).start ∧ (s'.node m).size = (s.node m).size

theorem place_spec (h : s.Inv lo hi) (hhi : hi < 2 ^ 32) (hhole : hole ∈ s.holeStack)
    (hn : n ∉ s.nodeList) (hsize : 1 ≤ size) (hstart : s.holeNodeStart hole ≤ adjStart)
    (hend : adjStart + size ≤ s.holeNodeEnd hole)
    (hleft : left = true ↔ adjStart + size < s.holeNodeEnd hole) :
    (s.place hole n adjStart size left).Inv lo hi ∧
      Placed s n adjStart size (s.place hole n adjStart size left) := by
  set s' := s.place hole n adjStart size left with hs'
  obtain ⟨hmem, hfollows⟩ := (h.stack hole).mp hhole
  have hne : ∀ {m}, m ∈ s.nodeList → m ≠ n := fun hm hmn => hn (hmn ▸ hm)
  have hheadn : headNode ≠ n := hne h.head_mem
  have hstop : s.holeNodeEnd hole ≤ hi := h.holeNodeEnd_le hole
  -- the links: `n` is behind `hole` now, and in front of what was behind it
  have hlist : s'.nodeList = addAfter s.nodeList hole n := place_nodeList ..
  have hmem' : ∀ m, m ∈ s'.nodeList ↔ m = n ∨ m ∈ s.nodeList := fun m => mem_place_nodeList hmem
  have hends := @place_holeNodeEnd s lo hi hole n adjStart size left h hmem hn
  have hendself : s'.holeNodeEnd n = s.holeNodeEnd hole := by
    rw [hs', hends, if_neg (hne hmem).symm, if_pos rfl]
  have hendhole : s'.holeNodeEnd hole = adjStart := by
    rw [hs', hends, if_pos rfl]
  have hendother : ∀ m ∈ s.nodeList, m ≠ hole → s'.holeNodeEnd m = s.holeNodeEnd m := by
    intro m hm hmhole
    rw [hs', hends, if_neg hmhole, if_neg (hne hm)]
  have hstartself : s'.holeNodeStart n = adjStart + size := by
    rw [holeNodeStart, hs', place_node_self]
    exact Nat.mod_eq_of_lt (hend.trans_lt (hstop.trans_lt hhi))
  have hstartother : ∀ m ∈ s.nodeList, s'.holeNodeStart m = s.holeNodeStart m :=
    fun m hm => place_holeNodeStart (hne hm)
  have hself : s'.node n = ⟨adjStart, size, left, true⟩ := place_node_self
  refine ⟨⟨?_, ?_, ?_, ?_, ?_, ?_, ?_, ?_, ?_, ?_⟩, hmem', by rw [hself], by rw [hself],
    fun m hm => ⟨place_start hm, place_size hm⟩⟩
  · obtain ⟨l, hl⟩ := h.head
    rw [hlist, hl]
    exact addAfter_cons ..
  · rw [hlist]
    exact nodup_addAfter h.nodup hmem hn
  · rw [hs', place_start hheadn]
    exact h.headStart
  · rw [hstartother headNode h.head_mem]
    exact h.headEnd
  · -- the node lies between the start and the end of the hole
    intro m hm hhead
    rcases (hmem' m).mp hm with rfl | hm
    · have := h.le_holeNodeStart hhi hmem
      rw [hself]
      simp only
      omega
    · rw [hs', place_start (hne hm), place_size (hne hm)]
      exact h.inside m hm hhead
  · -- what is left of the hole in front of the node, and behind it
    intro m hm
    rcases (hmem' m).mp hm with rfl | hm
    · rw [hstartself, hendself]
      exact hend
    · rw [hstartother m hm]
      by_cases hmhole : m = hole
      · subst hmhole
        rw [hendhole]
        exact hstart
      · rw [hendother m hm hmhole]
        exact h.ordered m hm
  · -- both parts are flagged if they are not empty
    intro m hm
    rcases (hmem' m).mp hm with rfl | hm
    · rw [hstartself, hendself, hself]
      exact hleft
    · rw [hstartother m hm, hs', place_holeFollows (hne hm), ← hs']
      by_cases hmhole : m = hole
      · subst hmhole
        rw [hendhole]
        simp only [hfollows, true_and]
        omega
      · rw [hendother m hm hmhole, ← h.flag m hm]
        simp [hmhole]
  · exact place_holeStack_nodup h.stackNodup fun hstack => hn ((h.stack n).mp hstack).1
  · exact fun m => place_stack h hmem hn
  · exact fun m => place_allocated h hmem hn

end DrmMm

end NucKernel.Drm
