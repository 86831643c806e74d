import Mathlib.Algebra.Group.Nat.Defs
import Mathlib.Data.List.Nodup
import Mathlib.Logic.Relation

/-!
# The tree of intervals (`drbd_interval.c`)

The intervals of pending requests are in a binary tree, ordered by their start and then by their
address. Each node caches the highest end of its subtree. The cached values are raised on the way
down of an insertion, recomputed in a rotation, and after a removal recomputed upwards until one of
them does not change. A search for an interval that overlaps goes to the left as soon as the cached
end of the left subtree allows it, and never comes back.

## Modelling

- The library's trees are not in the tree of sources. An insertion links the node and then rotates,
  anywhere and any number of times, each time with the callback `rotate`. An erasure replaces a node
  by its child, or by its successor with `copy`, propagates from the lowest node changed, and
  rotates. `rb_next` gives the next node in order.
- `sector_t` has 64 bits.
-/

namespace NucKernel.Drbd.IntervalTree

/-! ## Intervals and trees -/

/-- A `struct drbd_interval`, with its address -/
structure Interval where
  addr : ℕ
  sector : ℕ
  size : ℕ
  deriving DecidableEq

/-- `sector + (size >> 9)` -/
def endOf (sector size : ℕ) : ℕ := (sector + size >>> 9) % 2 ^ 64

def Interval.last (i : Interval) : ℕ := endOf i.sector i.size

/-- The order of the tree -/
def Interval.Before (i j : Interval) : Prop :=
  i.sector < j.sector ∨ i.sector = j.sector ∧ i.addr < j.addr

instance (i j : Interval) : Decidable (i.Before j) := inferInstanceAs (Decidable (_ ∨ _))

theorem Interval.Before.trans {i j k : Interval} (hij : i.Before j) (hjk : j.Before k) :
    i.Before k := by
  simp only [Interval.Before] at *
  omega

/-- A node has its interval and `end`, the cached end of its subtree. -/
inductive RbTree
  | leaf
  | node (left : RbTree) (here : Interval) (cached : ℕ) (right : RbTree)
  deriving DecidableEq

namespace RbTree

def toList : RbTree → List Interval
  | leaf => []
  | node l i _ r => l.toList ++ i :: r.toList

/-- `interval_end`; 0 where there is no node -/
def intervalEnd : RbTree → ℕ
  | leaf => 0
  | node _ _ e _ => e

end RbTree

open RbTree

def computeSubtreeLast (l : RbTree) (i : Interval) (r : RbTree) : ℕ :=
  max (max i.last l.intervalEnd) r.intervalEnd

/-! ## Changes -/

/-- `drbd_insert_interval` up to the link of the node -/
def drbdInsertInterval (this : Interval) : RbTree → RbTree × Bool
  | leaf => (node leaf this this.last leaf, true)
  | node l here e r =>
    let e := if e < this.last then this.last else e
    if this.Before here then
      let p := drbdInsertInterval this l
      (node p.1 here e r, p.2)
    else if here.Before this then
      let p := drbdInsertInterval this r
      (node l here e p.1, p.2)
    else (node l here e r, false)

/-- A rotation somewhere in the tree, with `augment_rotate` -/
inductive Rotates : RbTree → RbTree → Prop
  | toLeft (a : RbTree) (x : Interval) (ex : ℕ) (b : RbTree) (y : Interval) (ey : ℕ) (c : RbTree) :
      Rotates (node a x ex (node b y ey c))
        (node (node a x (computeSubtreeLast a x b) b) y ex c)
  | toRight (a : RbTree) (x : Interval) (ex : ℕ) (b : RbTree) (y : Interval) (ey : ℕ) (c : RbTree) :
      Rotates (node (node a x ex b) y ey c)
        (node a x ey (node b y (computeSubtreeLast b y c) c))
  | inLeft {l l' : RbTree} (i : Interval) (e : ℕ) (r : RbTree) :
      Rotates l l' → Rotates (node l i e r) (node l' i e r)
  | inRight (l : RbTree) (i : Interval) (e : ℕ) {r r' : RbTree} :
      Rotates r r' → Rotates (node l i e r) (node l i e r')

/-- One round of `augment_propagate`: the node, and whether it goes on with the parent -/
def propagate (l : RbTree) (i : Interval) (e : ℕ) (r : RbTree) : RbTree × Bool :=
  let last := computeSubtreeLast l i r
  if e = last then (node l i e r, false) else (node l i last r, true)

/-- The parent of a subtree that has changed: it is looked at if `go` is set. -/
def parentOf (go : Bool) (l : RbTree) (i : Interval) (e : ℕ) (r : RbTree) : RbTree × Bool :=
  if go then propagate l i e r else (node l i e r, false)

/-- Take the first node out of a tree, and propagate from its parent. -/
def popFirst : RbTree → Option (Interval × RbTree × Bool)
  | leaf => none
  | node l i e r =>
    match popFirst l with
    | none => some (i, r, true)
    | some (m, l', go) =>
      let p := parentOf go l' i e r
      some (m, p.1, p.2)

/-- Erase a node with these children. The successor takes over its `end` by `augment_copy`. -/
def eraseNode (l : RbTree) (e : ℕ) (r : RbTree) : RbTree × Bool :=
  match l, popFirst r with
  | leaf, _ => (r, true)
  | l, none => (l, true)
  | l, some (s, r', _) => propagate l s e r'

/-- A step on the way from the root to a node -/
inductive Dir
  | left | right

/-- The node at a place -/
def nodeAt : List Dir → RbTree → Option Interval
  | _, leaf => none
  | [], node _ i _ _ => some i
  | .left :: p, node l _ _ _ => nodeAt p l
  | .right :: p, node _ _ _ r => nodeAt p r

/-- `drbd_remove_interval` of the node at a place, before any rotation -/
def eraseAt : List Dir → RbTree → RbTree × Bool
  | _, leaf => (leaf, false)
  | [], node l _ e r => eraseNode l e r
  | .left :: p, node l i e r =>
    let q := eraseAt p l
    parentOf q.2 q.1 i e r
  | .right :: p, node l i e r =>
    let q := eraseAt p r
    parentOf q.2 l i e q.1

/-- The trees that a history can lead to, with the intervals that are then in the tree. An interval
    whose address is in the tree is the one that is in the tree. -/
inductive Reachable : RbTree → List Interval → Prop
  | empty : Reachable leaf []
  | insert {t t' : RbTree} {s : List Interval} (this : Interval) :
      Reachable t s → 0 < this.size → 512 ∣ this.size →
      (∀ j ∈ s, j.addr = this.addr → j = this) →
      Relation.ReflTransGen Rotates (drbdInsertInterval this t).1 t' →
      Reachable t' (if (drbdInsertInterval this t).2 then this :: s else s)
  | remove {t t' : RbTree} {s : List Interval} (p : List Dir) (i : Interval) :
      Reachable t s → nodeAt p t = some i →
      Relation.ReflTransGen Rotates (eraseAt p t).1 t' → Reachable t' (s.erase i)

/-! ## Queries -/

/-- `drbd_find_overlap`, with the end of the query -/
def drbdFindOverlap (sector stop : ℕ) : RbTree → Option Interval
  | leaf => none
  | node l here _ r =>
    if sector < l.intervalEnd then drbdFindOverlap sector stop l
    else if here.sector < stop ∧ sector < here.last then some here
    else if here.sector ≤ sector then drbdFindOverlap sector stop r
    else none

/-- The nodes behind a node, in order -/
def nodesAfter (t : RbTree) (i : Interval) : List Interval :=
  (t.toList.dropWhile fun j => j ≠ i).tail

/-- The loop of `drbd_next_overlap` over the nodes that follow -/
def nextLoop (sector stop : ℕ) : List Interval → Option Interval
  | [] => none
  | i :: rest =>
    if stop ≤ i.sector then none
    else if sector < i.last then some i
    else nextLoop sector stop rest

def drbdNextOverlap (t : RbTree) (i : Interval) (sector stop : ℕ) : Option Interval :=
  nextLoop sector stop (nodesAfter t i)

/-- Repeated calls of `drbd_next_overlap` -/
def overlapsAfter (t : RbTree) (sector stop : ℕ) : (calls : ℕ) → Interval → List Interval
  | 0, _ => []
  | calls + 1, i =>
    match drbdNextOverlap t i sector stop with
    | none => []
    | some j => j :: overlapsAfter t sector stop calls j

/-- `drbd_find_overlap` followed by `drbd_next_overlap`, for a query of `size` bytes -/
def allOverlaps (t : RbTree) (sector size : ℕ) : List Interval :=
  match drbdFindOverlap sector (endOf sector size) t with
  | none => []
  | some i => i :: overlapsAfter t sector (endOf sector size) t.toList.length i

/-- The interval shares a sector with the query. -/
def Overlaps (sector size : ℕ) (i : Interval) : Prop :=
  i.sector < sector + size / 512 ∧ sector < i.sector + i.size / 512

instance (sector size : ℕ) (i : Interval) : Decidable (Overlaps sector size i) :=
  inferInstanceAs (Decidable (_ ∧ _))

/-! ## Exact ends -/

/-- Every cached end is that of its subtree. -/
def Exact : RbTree → Prop
  | leaf => True
  | node l i e r => e = computeSubtreeLast l i r ∧ Exact l ∧ Exact r

theorem lt_intervalEnd_iff {t : RbTree} (h : Exact t) (b : ℕ) :
    b < t.intervalEnd ↔ ∃ i ∈ t.toList, b < i.last := by
  induction t with
  | leaf => simp [intervalEnd, toList]
  | node l i e r ihl ihr =>
    obtain ⟨he, hl, hr⟩ := h
    have hmem : (∃ j ∈ (node l i e r).toList, b < j.last) ↔
        (∃ j ∈ l.toList, b < j.last) ∨ b < i.last ∨ ∃ j ∈ r.toList, b < j.last := by
      simp [toList, or_and_right, exists_or]
    rw [hmem, ← ihl hl, ← ihr hr, intervalEnd, he, computeSubtreeLast]
    omega

theorem Rotates.keeps {t t' : RbTree} (h : Rotates t t') :
    t'.toList = t.toList ∧ t'.intervalEnd = t.intervalEnd ∧ (Exact t → Exact t') := by
  induction h with
  -- the node that moves down is computed anew, the one that moves up takes over the end of the
  -- whole
  | toLeft a x ex b y ey c =>
    refine ⟨by simp [toList], rfl, ?_⟩
    rintro ⟨hx, ha, hy, hb, hc⟩
    refine ⟨?_, ⟨rfl, ha, hb⟩, hc⟩
    simp only [computeSubtreeLast, intervalEnd] at hx hy ⊢
    omega
  | toRight a x ex b y ey c =>
    refine ⟨by simp [toList], rfl, ?_⟩
    rintro ⟨hy, ⟨hx, ha, hb⟩, hc⟩
    refine ⟨?_, ha, rfl, hb, hc⟩
    simp only [computeSubtreeLast, intervalEnd] at hx hy ⊢
    omega
  -- below the rotation nothing changes, and its subtree has the same end
  | inLeft i e r _ ih =>
    refine ⟨by rw [toList, toList, ih.1], rfl, fun hex => ⟨?_, ih.2.2 hex.2.1, hex.2.2⟩⟩
    rw [computeSubtreeLast, ih.2.1]
    exact hex.1
  | inRight l i e _ ih =>
    refine ⟨by rw [toList, toList, ih.1], rfl, fun hex => ⟨?_, hex.2.1, ih.2.2 hex.2.2⟩⟩
    rw [computeSubtreeLast, ih.2.1]
    exact hex.1

theorem rotations_keep {t t' : RbTree} (h : Relation.ReflTransGen Rotates t t') :
    t'.toList = t.toList ∧ (Exact t → Exact t') := by
  induction h with
  | refl => exact ⟨rfl, id⟩
  | tail _ hstep ih => exact ⟨hstep.keeps.1.trans ih.1, fun hex => hstep.keeps.2.2 (ih.2 hex)⟩

theorem parentOf_spec {go : Bool} {l : RbTree} {i : Interval} {e : ℕ} {r : RbTree} (hl : Exact l)
    (hr : Exact r) (hsame : go = false → e = computeSubtreeLast l i r) :
    Exact (parentOf go l i e r).1 ∧
      ((parentOf go l i e r).2 = false → (parentOf go l i e r).1.intervalEnd = e) ∧
      (parentOf go l i e r).1.toList = l.toList ++ i :: r.toList := by
  rw [parentOf]
  cases go with
  | false => exact ⟨⟨hsame rfl, hl, hr⟩, fun _ => rfl, rfl⟩
  | true =>
    rw [if_pos rfl, propagate]
    split_ifs with heq
    · -- the end is the same, and it stops here
      exact ⟨⟨heq, hl, hr⟩, fun _ => rfl, rfl⟩
    · exact ⟨⟨rfl, hl, hr⟩, nofun, rfl⟩

theorem popFirst_spec {t : RbTree} (h : Exact t) :
    match popFirst t with
    | none => t = leaf
    | some (m, t', go) => Exact t' ∧ (go = false → t'.intervalEnd = t.intervalEnd) ∧
        t.toList = m :: t'.toList := by
  induction t with
  | leaf => rfl
  | node l i e r ihl _ =>
    obtain ⟨he, hl, hr⟩ := h
    have ih := ihl hl
    rw [popFirst]
    cases hpop : popFirst l with
    -- the first node has no left child, and its right one takes its place
    | none =>
      rw [hpop] at ih
      dsimp only at ih
      subst ih
      exact ⟨hr, nofun, rfl⟩
    | some p =>
      obtain ⟨m, l', go⟩ := p
      rw [hpop] at ih
      dsimp only at ih ⊢
      obtain ⟨hex, hend, hlist⟩ := ih
      obtain ⟨hex', hend', hlist'⟩ := parentOf_spec (i := i) (e := e) hex hr (fun hgo => by
        rw [computeSubtreeLast, hend hgo]
        exact he)
      exact ⟨hex', hend', by rw [hlist', toList, hlist]; rfl⟩

theorem eraseNode_spec {l r : RbTree} {i : Interval} {e : ℕ} (h : Exact (node l i e r)) :
    Exact (eraseNode l e r).1 ∧
      ((eraseNode l e r).2 = false → (eraseNode l e r).1.intervalEnd = e) ∧
      (eraseNode l e r).1.toList = l.toList ++ r.toList := by
  have hr := h.2.2
  have hpop := popFirst_spec hr
  unfold eraseNode
  split
  · exact ⟨hr, nofun, rfl⟩
  · next hnone =>
    rw [hnone] at hpop
    dsimp only at hpop
    rw [hpop]
    exact ⟨h.2.1, nofun, by simp [toList]⟩
  · -- the successor takes over the end, so that it is looked at in any case
    next s r' _ _ hsome =>
    rw [hsome] at hpop
    rw [hpop.2.2]
    exact @parentOf_spec true _ s e r' h.2.1 hpop.1 nofun

theorem eraseAt_spec {p : List Dir} {t : RbTree} {i : Interval} (hat : nodeAt p t = some i)
    (h : Exact t) :
    Exact (eraseAt p t).1 ∧
      ((eraseAt p t).2 = false → (eraseAt p t).1.intervalEnd = t.intervalEnd) ∧
      ∃ x y, t.toList = x ++ i :: y ∧ (eraseAt p t).1.toList = x ++ y := by
  induction p generalizing t with
  | nil =>
    cases t with
    | leaf => cases hat
    | node l j e r =>
      obtain rfl := Option.some.inj hat
      obtain ⟨hex, hend, hlist⟩ := eraseNode_spec h
      exact ⟨hex, hend, l.toList, r.toList, rfl, hlist⟩
  | cons d p ih =>
    cases t with
    | leaf => cases d <;> cases hat
    | node l j e r =>
      obtain ⟨he, hl, hr⟩ := h
      cases d with
      -- the parent is looked at if the end of its subtree has changed
      | left =>
        obtain ⟨hex, hend, x, y, hlist, hlist'⟩ := ih hat hl
        obtain ⟨hex', hend', hall⟩ := parentOf_spec (i := j) (e := e) hex hr (fun hgo => by
          rw [computeSubtreeLast, hend hgo]
          exact he)
        refine ⟨hex', hend', x, y ++ j :: r.toList, ?_, ?_⟩
        · simp [toList, hlist]
        · rw [eraseAt, hall, hlist']
          simp
      | right =>
        obtain ⟨hex, hend, x, y, hlist, hlist'⟩ := ih hat hr
        obtain ⟨hex', hend', hall⟩ := parentOf_spec (i := j) (e := e) hl hex (fun hgo => by
          rw [computeSubtreeLast, hend hgo]
          exact he)
        refine ⟨hex', hend', l.toList ++ j :: x, y, ?_, ?_⟩
        · simp [toList, hlist]
        · rw [eraseAt, hall, hlist']
          simp

/-- An interval was put into its place of a list, or, without success, the list is the same. -/
def Inserted (this : Interval) (old new : List Interval) (ok : Bool) : Prop :=
  if ok then
    ∃ x y, old = x ++ y ∧ new = x ++ this :: y ∧ (∀ j ∈ x, j.Before this) ∧ ∀ j ∈ y, this.Before j
  else new = old

theorem Inserted.append_right {this : Interval} {old new rest : List Interval} {ok : Bool}
    (h : Inserted this old new ok) (hrest : ∀ j ∈ rest, this.Before j) :
    Inserted this (old ++ rest) (new ++ rest) ok := by
  cases ok with
  | false => exact congrArg (· ++ rest) h
  | true =>
    obtain ⟨x, y, rfl, rfl, hx, hy⟩ := h
    refine ⟨x, y ++ rest, by simp, by simp, hx, fun j hj => ?_⟩
    exact (List.mem_append.mp hj).elim (hy j) (hrest j)

theorem Inserted.append_left {this : Interval} {old new front : List Interval} {ok : Bool}
    (h : Inserted this old new ok) (hfront : ∀ j ∈ front, j.Before this) :
    Inserted this (front ++ old) (front ++ new) ok := by
  cases ok with
  | false => exact congrArg (front ++ ·) h
  | true =>
    obtain ⟨x, y, rfl, rfl, hx, hy⟩ := h
    refine ⟨front ++ x, y, by simp, by simp, fun j hj => ?_, hy⟩
    exact (List.mem_append.mp hj).elim (hfront j) (hx j)

theorem Inserted.pairwise {this : Interval} {old new : List Interval} {ok : Bool}
    (h : Inserted this old new ok) (hsort : old.Pairwise Interval.Before) :
    new.Pairwise Interval.Before := by
  cases ok with
  | false => rwa [show new = old from h]
  | true =>
    obtain ⟨x, y, rfl, rfl, hx, hy⟩ := h
    rw [List.pairwise_append] at hsort
    rw [List.pairwise_append, List.pairwise_cons]
    refine ⟨hsort.1, ⟨hy, hsort.2.1⟩, fun i hi j hj => ?_⟩
    -- what comes before the place comes before the interval
    rcases List.mem_cons.mp hj with rfl | hj
    · exact hx i hi
    · exact hsort.2.2 i hi j hj

theorem Inserted.perm {this : Interval} {old new s : List Interval} {ok : Bool}
    (h : Inserted this old new ok) (hperm : old.Perm s) :
    new.Perm (if ok then this :: s else s) := by
  cases ok with
  | false => rwa [show new = old from h]
  | true =>
    obtain ⟨x, y, rfl, rfl, -, -⟩ := h
    exact List.perm_middle.trans (hperm.cons this)

theorem drbdInsertInterval_spec {this : Interval} {t : RbTree} (hex : Exact t)
    (hsort : t.toList.Pairwise Interval.Before)
    (hsame : ∀ j ∈ t.toList, j.addr = this.addr → j = this) :
    Exact (drbdInsertInterval this t).1 ∧
      (drbdInsertInterval this t).1.intervalEnd = max t.intervalEnd this.last ∧
      Inserted this t.toList (drbdInsertInterval this t).1.toList
        (drbdInsertInterval this t).2 := by
  induction t with
  | leaf =>
    refine ⟨⟨?_, trivial, trivial⟩, ?_, [], [], rfl, rfl, nofun, nofun⟩ <;>
      simp [drbdInsertInterval, computeSubtreeLast, intervalEnd]
  | node l here e r ihl ihr =>
    obtain ⟨he, hl, hr⟩ := hex
    rw [toList, List.pairwise_append, List.pairwise_cons] at hsort
    obtain ⟨hsl, ⟨hhere, hsr⟩, hcross⟩ := hsort
    have hraise : (if e < this.last then this.last else e) = max e this.last := by
      split_ifs <;> omega
    rw [drbdInsertInterval, hraise]
    by_cases hlt : this.Before here
    · -- Everything from this node on is behind the interval.
      obtain ⟨hex', hend', hins⟩ := ihl hl hsl fun j hj => hsame j (by simp [toList, hj])
      rw [if_pos hlt]
      refine ⟨⟨?_, hex', hr⟩, rfl, hins.append_right fun j hj => ?_⟩
      · rw [computeSubtreeLast, hend', he, computeSubtreeLast]
        omega
      · rcases List.mem_cons.mp hj with rfl | hj
        · exact hlt
        · exact hlt.trans (hhere j hj)
    rw [if_neg hlt]
    by_cases hgt : here.Before this
    · -- everything up to this node is before it
      obtain ⟨hex', hend', hins⟩ := ihr hr hsr fun j hj => hsame j (by simp [toList, hj])
      rw [if_pos hgt]
      refine ⟨⟨?_, hl, hex'⟩, rfl, ?_⟩
      · rw [computeSubtreeLast, hend', he, computeSubtreeLast]
        omega
      · have hfront : ∀ j ∈ l.toList ++ [here], j.Before this := fun j hj => by
          rcases List.mem_append.mp hj with hj | hj
          · exact (hcross j hj here List.mem_cons_self).trans hgt
          · rwa [List.mem_singleton.mp hj]
        simpa [toList] using hins.append_left hfront
    · -- The interval is this node, so that its end is below the cached one already.
      have hthis : here = this := by
        apply hsame here (by simp [toList])
        simp only [Interval.Before] at hlt hgt
        omega
      rw [if_neg hgt]
      refine ⟨⟨?_, hl, hr⟩, rfl, rfl⟩
      rw [he, computeSubtreeLast, hthis]
      omega

theorem reachable_inv {t : RbTree} {s : List Interval} (h : Reachable t s) :
    Exact t ∧ t.toList.Pairwise Interval.Before ∧ t.toList.Perm s := by
  induction h with
  | empty => exact ⟨trivial, List.Pairwise.nil, List.Perm.refl _⟩
  | @insert t t' s this _ _ _ hsame hrot ih =>
    obtain ⟨hex, hsort, hperm⟩ := ih
    obtain ⟨hex', _, hins⟩ :=
      drbdInsertInterval_spec hex hsort fun j hj => hsame j (hperm.mem_iff.mp hj)
    obtain ⟨hlist, hexact⟩ := rotations_keep hrot
    rw [hlist]
    exact ⟨hexact hex', hins.pairwise hsort, hins.perm hperm⟩
  | @remove t t' s p i _ hat hrot ih =>
    obtain ⟨hex, hsort, hperm⟩ := ih
    obtain ⟨hex', _, x, y, hxy, hxy'⟩ := eraseAt_spec hat hex
    obtain ⟨hlist', hexact⟩ := rotations_keep hrot
    refine ⟨hexact hex', ?_⟩
    rw [hlist', hxy']
    rw [hxy] at hsort hperm
    refine ⟨hsort.sublist (List.Sublist.append_left (List.sublist_cons_self i y) x), ?_⟩
    have herase := (List.perm_middle.symm.trans hperm).erase i
    rwa [List.erase_cons_head] at herase

theorem reachable_pos {t : RbTree} {s : List Interval} (h : Reachable t s) :
    ∀ i ∈ s, 0 < i.size / 512 := by
  induction h with
  | empty => exact nofun
  | insert this _ hpos hdvd _ _ ih =>
    intro i hi
    split_ifs at hi
    · rcases List.mem_cons.mp hi with rfl | hi
      · exact Nat.div_pos (Nat.le_of_dvd hpos hdvd) (by decide)
      · exact ih i hi
    · exact ih i hi
  | remove p i _ _ _ ih => exact fun j hj => ih j (List.mem_of_mem_erase hj)

/-! ## The search -/

/-- What the search tests at a node -/
def hits (sector stop : ℕ) (i : Interval) : Bool := decide (i.sector < stop ∧ sector < i.last)

theorem find_hits_eq_none {sector stop : ℕ} {i : Interval} {rest : List Interval}
    (hbehind : stop ≤ i.sector) (hrest : ∀ j ∈ rest, i.Before j) :
    rest.find? (hits sector stop) = none := by
  rw [List.find?_eq_none]
  intro j hj
  have hij := hrest j hj
  simp only [Interval.Before] at hij
  simp only [hits, decide_eq_true_eq]
  omega

theorem drbdFindOverlap_eq {sector stop : ℕ} {t : RbTree} (hex : Exact t)
    (hsort : t.toList.Pairwise Interval.Before) (hpos : ∀ i ∈ t.toList, i.sector < i.last) :
    drbdFindOverlap sector stop t = t.toList.find? (hits sector stop) := by
  induction t with
  | leaf => rfl
  | node l here e r ihl ihr =>
    obtain ⟨-, hl, hr⟩ := hex
    rw [toList, List.pairwise_append, List.pairwise_cons] at hsort
    obtain ⟨hsl, ⟨hhere, hsr⟩, hcross⟩ := hsort
    have ihl := ihl hl hsl fun i hi => hpos i (by simp [toList, hi])
    have ihr := ihr hr hsr fun i hi => hpos i (by simp [toList, hi])
    rw [drbdFindOverlap, toList, List.find?_append, ← ihl]
    by_cases hleft : sector < l.intervalEnd
    · rw [if_pos hleft]
      cases hfind : drbdFindOverlap sector stop l with
      | some i => rfl
      | none =>
        -- The interval on the left that reaches into the query starts behind it.
        obtain ⟨i, hi, hlast⟩ := (lt_intervalEnd_iff hl sector).mp hleft
        have hno := List.find?_eq_none.mp (ihl ▸ hfind) i hi
        simp only [hits, decide_eq_true_eq] at hno
        rw [Option.none_or, find_hits_eq_none (i := i) (by omega) (hcross i hi)]
    · -- no interval on the left reaches into the query
      rw [if_neg hleft]
      have hnone : drbdFindOverlap sector stop l = none := by
        rw [ihl, List.find?_eq_none]
        intro i hi hhit
        simp only [hits, decide_eq_true_eq] at hhit
        exact hleft ((lt_intervalEnd_iff hl sector).mpr ⟨i, hi, hhit.2⟩)
      rw [hnone, Option.none_or, List.find?_cons]
      by_cases hhit : here.sector < stop ∧ sector < here.last
      · rw [if_pos hhit, hits, decide_eq_true hhit]
      · rw [if_neg hhit, hits, decide_eq_false hhit, ihr]
        split_ifs with hle
        · rfl
        · -- this node starts behind the query, and so do all that follow
          have := hpos here (by simp [toList])
          exact (find_hits_eq_none (by omega) hhere).symm

theorem nextLoop_eq {sector stop : ℕ} {rest : List Interval}
    (hsort : rest.Pairwise Interval.Before) :
    nextLoop sector stop rest = rest.find? (hits sector stop) := by
  induction rest with
  | nil => rfl
  | cons i rest ih =>
    rw [List.pairwise_cons] at hsort
    rw [nextLoop, List.find?_cons, ih hsort.2]
    split_ifs with hbehind hlast
    · -- this interval starts behind the query
      rw [hits, decide_eq_false (by omega), find_hits_eq_none hbehind hsort.1]
    · rw [hits, decide_eq_true (by omega)]
    · rw [hits, decide_eq_false (by omega)]

theorem Interval.Before.irrefl (i : Interval) : ¬ i.Before i := by
  simp [Interval.Before]

theorem nodesAfter_eq {t : RbTree} {i : Interval} {x y : List Interval}
    (hlist : t.toList = x ++ i :: y) (hsort : t.toList.Pairwise Interval.Before) :
    nodesAfter t i = y := by
  have hx : ∀ j ∈ x, j ≠ i := by
    rintro j hj rfl
    rw [hlist, List.pairwise_append] at hsort
    exact Interval.Before.irrefl j (hsort.2.2 j hj j List.mem_cons_self)
  rw [nodesAfter, hlist, List.dropWhile_append_of_pos (by simpa using hx)]
  simp

theorem filter_of_find? {α : Type*} {p : α → Bool} {l : List α} :
    match l.find? p with
    | none => l.filter p = []
    | some a => ∃ x y, l = x ++ a :: y ∧ l.filter p = a :: y.filter p := by
  cases hfind : l.find? p with
  | none =>
    rw [List.find?_eq_none] at hfind
    exact List.filter_eq_nil_iff.mpr hfind
  | some a =>
    obtain ⟨ha, x, y, rfl, hx⟩ := List.find?_eq_some_iff_append.mp hfind
    refine ⟨x, y, rfl, ?_⟩
    have hnil : x.filter p = [] := List.filter_eq_nil_iff.mpr (by simpa using hx)
    rw [List.filter_append, hnil, List.nil_append, List.filter_cons_of_pos ha]

theorem overlapsAfter_eq {t : RbTree} {sector stop : ℕ} (hsort : t.toList.Pairwise Interval.Before)
    {calls : ℕ} {i : Interval} {x y : List Interval} (hlist : t.toList = x ++ i :: y)
    (hcalls : y.length ≤ calls) :
    overlapsAfter t sector stop calls i = y.filter (hits sector stop) := by
  induction calls generalizing i x y with
  | zero =>
    rw [List.eq_nil_of_length_eq_zero (Nat.le_zero.mp hcalls)]
    rfl
  | succ calls ih =>
    have hsorty : y.Pairwise Interval.Before :=
      hsort.sublist (by rw [hlist]; simp)
    have hfilter := filter_of_find? (p := hits sector stop) (l := y)
    rw [overlapsAfter, drbdNextOverlap, nodesAfter_eq hlist hsort, nextLoop_eq hsorty]
    cases hfind : y.find? (hits sector stop) with
    | none =>
      rw [hfind] at hfilter
      exact hfilter.symm
    -- the next call starts behind the hit
    | some j =>
      rw [hfind] at hfilter
      obtain ⟨u, v, rfl, hrest⟩ := hfilter
      have hlist' : t.toList = (x ++ i :: u) ++ j :: v := by simp [hlist]
      simp only [List.length_append, List.length_cons] at hcalls
      rw [hrest]
      exact congrArg (j :: ·) (ih hlist' (by omega))

theorem endOf_eq {sector size : ℕ} (hfit : sector + size / 512 < 2 ^ 64) :
    endOf sector size = sector + size / 512 := by
  rw [endOf, Nat.shiftRight_eq_div_pow]
  exact Nat.mod_eq_of_lt hfit

/-- After any history, a search and its continuation return the intervals of the tree that overlap
    the query, each once and in ascending order, if no end reaches `2 ^ 64`. -/
theorem allOverlaps_exact {t : RbTree} {s : List Interval} (h : Reachable t s) {sector size : ℕ}
    (hfit : ∀ i ∈ s, i.sector + i.size / 512 < 2 ^ 64)
    (hquery : sector + size / 512 < 2 ^ 64) :
    (allOverlaps t sector size).Perm (s.filter fun i => Overlaps sector size i) ∧
      (allOverlaps t sector size).Pairwise Interval.Before := by
  obtain ⟨hex, hsort, hperm⟩ := reachable_inv h
  -- no end wraps around
  have hlast : ∀ i ∈ t.toList, i.last = i.sector + i.size / 512 :=
    fun i hi => endOf_eq (hfit i (hperm.mem_iff.mp hi))
  -- the search gives the first hit, its continuation the others
  have hall : allOverlaps t sector size = t.toList.filter (hits sector (endOf sector size)) := by
    have hfilter := filter_of_find? (p := hits sector (endOf sector size)) (l := t.toList)
    rw [allOverlaps, drbdFindOverlap_eq hex hsort fun i hi => by
      have := reachable_pos h i (hperm.mem_iff.mp hi)
      have := hlast i hi
      omega]
    cases hfind : t.toList.find? (hits sector (endOf sector size)) with
    | none =>
      rw [hfind] at hfilter
      exact hfilter.symm
    | some i =>
      rw [hfind] at hfilter
      obtain ⟨x, y, hlist, hrest⟩ := hfilter
      rw [hrest]
      refine congrArg (i :: ·) (overlapsAfter_eq hsort hlist ?_)
      rw [hlist, List.length_append, List.length_cons]
      omega
  have hover : allOverlaps t sector size = t.toList.filter fun i => Overlaps sector size i := by
    rw [hall]
    refine List.filter_congr fun i hi => ?_
    rw [hits, hlast i hi, endOf_eq hquery]
    rfl
  refine ⟨?_, ?_⟩
  · rw [hover]
    exact hperm.filter _
  · rw [hover]
    exact hsort.filter _

/-- Three intervals, of which two start at the same sector. The tree is rotated after the second,
    and the first is removed. -/
theorem allOverlaps_exact_twoStarts :
    let b : Interval := ⟨2, 16, 1024⟩
    let c : Interval := ⟨3, 16, 512⟩
    let t := node leaf b 18 (node leaf c 17 leaf)
    Reachable t [c, b] ∧ allOverlaps t 16 512 = [b, c] ∧
      (allOverlaps t 16 512).Perm ([c, b].filter fun i => Overlaps 16 512 i) ∧
      (allOverlaps t 16 512).Pairwise Interval.Before := by
  intro b c t
  let a : Interval := ⟨1, 8, 4096⟩
  have ha : Reachable (node leaf a 16 leaf) [a] := by
    apply Reachable.insert a .empty (by decide) (by decide) nofun
    rw [show (drbdInsertInterval a leaf).1 = node leaf a 16 leaf by decide]
  have hb : Reachable (node (node leaf a 16 leaf) b 18 leaf) [b, a] := by
    apply Reachable.insert b ha (by decide) (by decide) (by decide)
    rw [show (drbdInsertInterval b (node leaf a 16 leaf)).1 =
      node leaf a 18 (node leaf b 18 leaf) by decide]
    have hrot := Rotates.toLeft leaf a 18 leaf b 18 leaf
    rw [show computeSubtreeLast leaf a leaf = 16 by decide] at hrot
    exact .single hrot
  have hc : Reachable (node (node leaf a 16 leaf) b 18 (node leaf c 17 leaf)) [c, b, a] := by
    apply Reachable.insert c hb (by decide) (by decide) (by decide)
    rw [show (drbdInsertInterval c (node (node leaf a 16 leaf) b 18 leaf)).1 =
      node (node leaf a 16 leaf) b 18 (node leaf c 17 leaf) by decide]
  have hall : Reachable t [c, b] := by
    apply Reachable.remove [.left] a hc rfl
    rw [show (eraseAt [.left] (node (node leaf a 16 leaf) b 18 (node leaf c 17 leaf))).1 = t by
      decide]
  exact ⟨hall, by decide, allOverlaps_exact hall (by decide) (by decide)⟩

/-- The end of an interval with the last of all sectors is 0: a query for this very sector does not
    find it. -/
theorem wrapped_end_missed :
    let i : Interval := ⟨1, 2 ^ 64 - 1, 512⟩
    let t := node leaf i 0 leaf
    Reachable t [i] ∧ Overlaps (2 ^ 64 - 1) 512 i ∧ allOverlaps t (2 ^ 64 - 1) 512 = [] := by
  intro i t
  refine ⟨Reachable.insert i .empty (by decide) (by decide) nofun ?_, by decide, by decide⟩
  rw [show (drbdInsertInterval i leaf).1 = t by decide]

end NucKernel.Drbd.IntervalTree
