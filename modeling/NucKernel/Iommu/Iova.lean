import Mathlib.Algebra.GroupWithZero.Nat
import NucKernel.Library.SearchTree

/-!
# I/O virtual addresses (`iova.c`)

A domain hands out ranges of page frame numbers. The ranges in use are kept in a tree that is
ordered by their first page. `alloc_iova` walks it backwards from a limit to a gap that is wide
enough. `reserve_iova` makes sure that a range is in use, by extending ranges that overlap it and
inserting what is left.

## Modelling

- `unsigned long` has 32 bits, as on x86-32
- nodes are numbers, with a table of their ranges; there is always memory for a node
- `rb_insert_color` and `rb_erase` are taken to do what they should (`Balance`)
- IOVA_START_PFN is 1, and `__roundup_pow_of_two` and `ilog2` are what their names say; they are not
  part of the source
- `BUG()`, and rounding beyond 32 bits, have no result
- a range in use that `reserve_iova` extends or finds large enough stays one range: freeing it also
  frees the pages that were reserved in it
-/

namespace NucKernel.Iommu

open NucKernel.Library

structure Iova where
  lo : ℕ
  hi : ℕ
  deriving DecidableEq, Repr

/-- `struct iova_domain`, with the ranges of the nodes, and the next node to be had from
    `alloc_iova_mem` -/
structure IovaDomain where
  rbroot : SearchTree ℕ
  cached32Node : Option ℕ
  dma32bitPfn : ℕ
  iova : ℕ → Iova
  fresh : ℕ

def initIovaDomain (pfn32bit : ℕ) : IovaDomain where
  rbroot := .leaf
  cached32Node := none
  dma32bitPfn := pfn32bit
  iova := fun _ => ⟨0, 0⟩
  fresh := 0

/-- `a - b` -/
def sub32 (a b : ℕ) : ℕ := (a + 2 ^ 32 - b % 2 ^ 32) % 2 ^ 32

def roundupPowOfTwo (n : ℕ) : Option ℕ :=
  let fls := if n - 1 = 0 then 0 else Nat.log2 (n - 1) + 1
  if fls < 32 then some (2 ^ fls) else none

def roundedSize (size : ℕ) (sizeAligned : Bool) : Option ℕ :=
  if sizeAligned then roundupPowOfTwo size else some size

def iovaGetPadSize (size limitPfn : ℕ) : ℕ :=
  let order := Nat.log2 size
  if order ≠ 0 then (limitPfn + 1) % 2 ^ 32 % 2 ^ order else 0

/-- `pad_size`, which stays 0 if no alignment is asked for -/
def padSize (sizeAligned : Bool) (size limitPfn : ℕ) : ℕ :=
  if sizeAligned then iovaGetPadSize size limitPfn else 0

namespace IovaDomain

variable (b : Balance ℕ) (d : IovaDomain)

/-! ## Allocation -/

/-- `__get_cached_rbnode`: the nodes from the one returned on backwards, and the limit -/
def getCachedRbnode (limitPfn : ℕ) : List ℕ × ℕ :=
  match d.cached32Node with
  | none => (d.rbroot.inorder.reverse, limitPfn)
  | some c =>
    if limitPfn ≠ d.dma32bitPfn then (d.rbroot.inorder.reverse, limitPfn)
    else (d.rbroot.before c, sub32 (d.iova c).lo 1)

/-- Where the walk of `__alloc_and_insert_iova_range` ends: whether `curr` is a node, and the
    variables `limit_pfn` and `prev` -/
structure Slot where
  found : Bool
  limitPfn : ℕ
  prev : Option ℕ

/-- The walk, with the nodes that are still to be visited -/
def searchSlot (size : ℕ) (sizeAligned : Bool) : ℕ → Option ℕ → List ℕ → Slot
  | limitPfn, prev, [] => ⟨false, limitPfn, prev⟩
  | limitPfn, prev, curr :: rest =>
    if limitPfn < (d.iova curr).lo then searchSlot size sizeAligned limitPfn (some curr) rest
    else if limitPfn < (d.iova curr).hi then
      searchSlot size sizeAligned (sub32 (d.iova curr).lo 1) (some curr) rest
    else if ((d.iova curr).hi + size + padSize sizeAligned size limitPfn) % 2 ^ 32 ≤ limitPfn then
      ⟨true, limitPfn, prev⟩
    else searchSlot size sizeAligned (sub32 (d.iova curr).lo 1) (some curr) rest

def lowCmp (lo i : ℕ) : Ordering :=
  if lo < (d.iova i).lo then .lt else if (d.iova i).lo < lo then .gt else .eq

def insertNew (prev : Option ℕ) (lo : ℕ) : Option (SearchTree ℕ) :=
  match prev with
  | some prev => d.rbroot.insertFrom prev (d.lowCmp lo) d.fresh
  | none => d.rbroot.insert (d.lowCmp lo) d.fresh

/-- `__alloc_and_insert_iova_range`; the node is missing for -ENOMEM. -/
def allocAndInsertIovaRange (size limitPfn : ℕ) (sizeAligned : Bool) :
    Option (IovaDomain × Option ℕ) := do
  let (curr, limit) := d.getCachedRbnode limitPfn
  let slot := d.searchSlot size sizeAligned limit curr.head? curr
  let pad := padSize sizeAligned size slot.limitPfn
  if slot.found = false ∧ slot.limitPfn < (1 + size + pad) % 2 ^ 32 then return (d, none)
  else
    let lo := sub32 (slot.limitPfn + 1) (size + pad)
    let hi := sub32 (lo + size) 1
    let rbroot ← d.insertNew slot.prev lo
    return ({ d with
      rbroot := b.color rbroot
      -- `__cached_rbnode_insert_update`
      cached32Node := if limitPfn ≠ d.dma32bitPfn then d.cached32Node else some d.fresh
      iova := Function.update d.iova d.fresh ⟨lo, hi⟩
      fresh := d.fresh + 1 }, some d.fresh)

def allocIova (size limitPfn : ℕ) (sizeAligned : Bool) : Option (IovaDomain × Option ℕ) := do
  let size ← roundedSize size sizeAligned
  d.allocAndInsertIovaRange b size limitPfn sizeAligned

/-! ## Searching and freeing -/

def pageCmp (pfn i : ℕ) : Ordering :=
  if (d.iova i).lo ≤ pfn ∧ pfn ≤ (d.iova i).hi then .eq
  else if pfn < (d.iova i).lo then .lt else .gt

def findIova (pfn : ℕ) : Option ℕ := d.rbroot.find (d.pageCmp pfn)

def cachedRbnodeDeleteUpdate (free : ℕ) : Option ℕ :=
  match d.cached32Node with
  | none => none
  | some c =>
    if (d.iova c).lo ≤ (d.iova free).lo then
      match d.rbroot.next free with
      | some node => if (d.iova node).lo < d.dma32bitPfn then some node else none
      | none => none
    else some c

def freeIova (pfn : ℕ) : IovaDomain :=
  match d.findIova pfn with
  | none => d
  | some i =>
    { d with
      cached32Node := d.cachedRbnodeDeleteUpdate i
      rbroot := b.erase i d.rbroot }

/-! ## Reservation -/

/-- The loop of `reserve_iova`, with the nodes that are still to be visited: the ranges afterwards,
    and the variable `pfn_lo` if a range is to be inserted -/
def reserveLoop (hi : ℕ) : List ℕ → (ℕ → Iova) → ℕ → Bool → (ℕ → Iova) × Option ℕ
  | [], iova, lo, _ => (iova, some lo)
  | i :: rest, iova, lo, overlap =>
    -- `__is_range_overlap`
    if lo ≤ (iova i).hi ∧ (iova i).lo ≤ hi then
      -- `__adjust_overlap_range`
      let iova' := if lo < (iova i).lo then Function.update iova i ⟨lo, (iova i).hi⟩ else iova
      let lo' := if (iova i).hi < hi then ((iova i).hi + 1) % 2 ^ 32 else lo
      if (iova' i).lo ≤ lo' ∧ hi ≤ (iova' i).hi then (iova', none)
      else reserveLoop hi rest iova' lo' true
    else if overlap then (iova, some lo)
    else reserveLoop hi rest iova lo overlap

def reserveIova (lo hi : ℕ) : Option IovaDomain :=
  match reserveLoop hi d.rbroot.inorder d.iova lo false with
  | (iova, none) => some { d with iova }
  | (iova, some lo) => do
    let d := { d with iova }
    -- `__insert_new_range`
    let rbroot ← d.rbroot.insert (d.lowCmp lo) d.fresh
    return { d with
      rbroot := b.color rbroot
      iova := Function.update d.iova d.fresh ⟨lo, hi⟩
      fresh := d.fresh + 1 }

/-! ## Ranges in use -/

/-- The page is in a range in use. -/
def Covers (pfn : ℕ) : Prop :=
  ∃ i ∈ d.rbroot.inorder, (d.iova i).lo ≤ pfn ∧ pfn ≤ (d.iova i).hi

/-- Ranges in use are not empty, do not have page 0, and are disjoint and in order. The cached node
    is in use, and starts where the lower half of the addresses ends, or before. -/
structure Inv : Prop where
  sorted : d.rbroot.inorder.Pairwise fun i j => (d.iova i).hi < (d.iova j).lo
  range : ∀ i ∈ d.rbroot.inorder,
    1 ≤ (d.iova i).lo ∧ (d.iova i).lo ≤ (d.iova i).hi ∧ (d.iova i).hi < 2 ^ 32
  old : ∀ i ∈ d.rbroot.inorder, i < d.fresh
  cached : ∀ c, d.cached32Node = some c →
    c ∈ d.rbroot.inorder ∧ (d.iova c).lo ≤ d.dma32bitPfn

end IovaDomain

namespace IovaDomain

variable {d : IovaDomain}

theorem sub32_one {a : ℕ} (h₁ : 1 ≤ a) (h : a ≤ 2 ^ 32) : sub32 a 1 = a - 1 := by
  unfold sub32
  omega

theorem sub32_eq {a c : ℕ} (hc : c ≤ a) (ha : a < 2 ^ 32) : sub32 a c = a - c := by
  unfold sub32
  omega

theorem Inv.nodup (h : d.Inv) : d.rbroot.inorder.Nodup := by
  refine (List.pairwise_iff_forall_sublist.mpr fun hsub hij => ?_)
  have hlt := List.pairwise_iff_forall_sublist.mp h.sorted hsub
  have hle := (h.range _ (hsub.subset (List.mem_cons_self ..))).2.1
  rw [hij] at hlt hle
  omega

theorem Inv.split (h : d.Inv) {i : ℕ} (hi : i ∈ d.rbroot.inorder) :
    ∃ x y, d.rbroot.inorder = x ++ i :: y ∧ i ∉ x ∧ (∀ a ∈ x, (d.iova a).hi < (d.iova i).lo) ∧
      ∀ c ∈ y, (d.iova i).hi < (d.iova c).lo := by
  obtain ⟨x, y, hxy⟩ := List.append_of_mem hi
  have hnodup := h.nodup
  have hsorted := h.sorted
  rw [hxy] at hnodup hsorted
  obtain ⟨-, hiy, hcross⟩ := List.pairwise_append.mp hsorted
  -- no node occurs twice
  refine ⟨x, y, hxy, fun hix => ?_, fun a ha => hcross a ha i (List.mem_cons_self ..),
    (List.pairwise_cons.mp hiy).1⟩
  exact (List.nodup_append.mp hnodup).2.2 i hix i (List.mem_cons_self ..) rfl

end IovaDomain

end NucKernel.Iommu
