import Mathlib.Data.List.Pairwise
import Mathlib.Data.List.TakeWhile

/-!
# Search trees

A binary tree is searched by a comparison `cmp` that says of every node whether what is looked for
is smaller, equal or greater. The comparison `Guides` the search if the answers fit the order of the
nodes. Searching, and inserting from the root or from an inner node, are then facts about the list
of nodes in their order:

- `find_eq_some_iff` - a search finds what there is
- `insert_spec` - a node is inserted between the smaller and the greater ones
- `insertFrom_spec` - so it is when the descent starts at a neighbour

How trees are balanced is left open; `Balance` has what the order of the nodes is afterwards.
-/

namespace NucKernel.Library

universe u

/-- Binary trees -/
inductive SearchTree (α : Type u)
  | leaf
  | node (left : SearchTree α) (val : α) (right : SearchTree α)

namespace SearchTree

variable {α : Type u}

/-- The nodes in their order -/
def inorder : SearchTree α → List α
  | leaf => []
  | node l v r => l.inorder ++ v :: r.inorder

/-- The descent to a node -/
def find (cmp : α → Ordering) : SearchTree α → Option α
  | leaf => none
  | node l v r =>
    match cmp v with
    | .lt => l.find cmp
    | .eq => some v
    | .gt => r.find cmp

/-- The descent to a free place, where a node is put. There is no result if an equal node is met. -/
def insert (cmp : α → Ordering) (new : α) : SearchTree α → Option (SearchTree α)
  | leaf => some (node leaf new leaf)
  | node l v r =>
    match cmp v with
    | .lt => (l.insert cmp new).map fun l' => node l' v r
    | .eq => none
    | .gt => (r.insert cmp new).map fun r' => node l v r'

/-- The descent to a free place from an inner node -/
def insertFrom [DecidableEq α] (start : α) (cmp : α → Ordering) (new : α) :
    SearchTree α → Option (SearchTree α)
  | leaf => none
  | node l v r =>
    if v = start then (node l v r).insert cmp new
    else if start ∈ l.inorder then (l.insertFrom start cmp new).map fun l' => node l' v r
    else (r.insertFrom start cmp new).map fun r' => node l v r'

/-- The nodes before a node, the last one first -/
def before [DecidableEq α] (t : SearchTree α) (a : α) : List α :=
  (t.inorder.takeWhile fun b => b ≠ a).reverse

/-- The node after a node -/
def next [DecidableEq α] (t : SearchTree α) (a : α) : Option α :=
  (t.inorder.dropWhile fun b => b ≠ a).tail.head?

/-- A tree with the given nodes in their order -/
def ofList : List α → SearchTree α
  | [] => leaf
  | a :: l => node leaf a (ofList l)

@[simp] theorem inorder_ofList (l : List α) : (ofList l).inorder = l := by
  induction l with
  | nil => rfl
  | cons a l ih => rw [ofList, inorder, ih, inorder, List.nil_append]

/-! ## Searching -/

section

variable {cmp : α → Ordering} {t : SearchTree α} {new v : α}

/-- What is smaller than a node is smaller than all nodes after it. -/
def Guides (cmp : α → Ordering) (l : List α) : Prop :=
  l.Pairwise fun a b => cmp a ≠ .gt → cmp b = .lt

theorem find_eq_some_iff (h : Guides cmp t.inorder) :
    t.find cmp = some v ↔ v ∈ t.inorder ∧ cmp v = .eq := by
  induction t with
  | leaf => simp [find, inorder]
  | node l w r ihl ihr =>
    obtain ⟨hl, hwr, hcross⟩ := List.pairwise_append.mp h
    obtain ⟨hw, hr⟩ := List.pairwise_cons.mp hwr
    rw [find, inorder, List.mem_append, List.mem_cons]
    cases hcmp : cmp w with
    | lt =>
      rw [ihl hl]
      refine ⟨fun hv => ⟨.inl hv.1, hv.2⟩, fun hv => ⟨?_, hv.2⟩⟩
      rcases hv.1 with hmem | rfl | hmem
      · exact hmem
      · rw [hcmp] at hv
        cases hv.2
      · -- the node is in the right half, where all answers are `lt`
        have hlt := hw v hmem (by rw [hcmp]; exact nofun)
        rw [hlt] at hv
        cases hv.2
    | eq =>
      constructor
      · intro hv
        cases hv
        exact ⟨.inr (.inl rfl), hcmp⟩
      · rintro ⟨hmem | rfl | hmem, heq⟩
        · -- a node with the answer `eq` in one of the halves would be a second one
          have hlt := hcross v hmem w (List.mem_cons_self ..) (by rw [heq]; exact nofun)
          rw [hcmp] at hlt
          cases hlt
        · rfl
        · have hlt := hw v hmem (by rw [hcmp]; exact nofun)
          rw [heq] at hlt
          cases hlt
    | gt =>
      rw [ihr hr]
      refine ⟨fun hv => ⟨.inr (.inr hv.1), hv.2⟩, fun hv => ⟨?_, hv.2⟩⟩
      rcases hv.1 with hmem | rfl | hmem
      · -- the node is in the left half, where no answer is `eq`
        have hlt := hcross v hmem w (List.mem_cons_self ..) (by rw [hv.2]; exact nofun)
        rw [hcmp] at hlt
        cases hlt
      · rw [hcmp] at hv
        cases hv.2
      · exact hmem

/-! ## Inserting -/

/-- The new node is between the smaller nodes and the greater ones. -/
def Inserted (cmp : α → Ordering) (new : α) (l l' : List α) : Prop :=
  ∃ x y, l = x ++ y ∧ l' = x ++ new :: y ∧ (∀ a ∈ x, cmp a = .gt) ∧ ∀ b ∈ y, cmp b = .lt

theorem Inserted.append_left {l l' : List α} (h : Inserted cmp new l l') {x : List α}
    (hx : ∀ a ∈ x, cmp a = .gt) : Inserted cmp new (x ++ l) (x ++ l') := by
  obtain ⟨y, z, rfl, rfl, hy, hz⟩ := h
  refine ⟨x ++ y, z, by rw [List.append_assoc], by rw [List.append_assoc], fun a ha => ?_, hz⟩
  exact (List.mem_append.mp ha).elim (hx a) (hy a)

theorem Inserted.append_right {l l' : List α} (h : Inserted cmp new l l') {z : List α}
    (hz : ∀ b ∈ z, cmp b = .lt) : Inserted cmp new (l ++ z) (l' ++ z) := by
  obtain ⟨x, y, rfl, rfl, hx, hy⟩ := h
  refine ⟨x, y ++ z, by rw [List.append_assoc], by simp, hx, fun b hb => ?_⟩
  exact (List.mem_append.mp hb).elim (hy b) (hz b)

theorem Inserted.mem_iff {l l' : List α} (h : Inserted cmp new l l') (a : α) :
    a ∈ l' ↔ a = new ∨ a ∈ l := by
  obtain ⟨x, y, rfl, rfl, -, -⟩ := h
  simp only [List.mem_append, List.mem_cons]
  exact or_left_comm

theorem Inserted.pairwise {l l' : List α} (h : Inserted cmp new l l') {R : α → α → Prop}
    (hl : l.Pairwise R) (hgt : ∀ a ∈ l, cmp a = .gt → R a new)
    (hlt : ∀ b ∈ l, cmp b = .lt → R new b) : l'.Pairwise R := by
  obtain ⟨x, y, rfl, rfl, hx, hy⟩ := h
  obtain ⟨hxs, hys, hcross⟩ := List.pairwise_append.mp hl
  refine List.pairwise_append.mpr ⟨hxs, List.pairwise_cons.mpr ⟨fun b hb => ?_, hys⟩, ?_⟩
  · exact hlt b (List.mem_append_right x hb) (hy b hb)
  · intro a ha b hb
    rcases List.mem_cons.mp hb with rfl | hb
    · exact hgt a (List.mem_append_left y ha) (hx a ha)
    · exact hcross a ha b hb

theorem insert_spec (h : Guides cmp t.inorder) (hne : ∀ a ∈ t.inorder, cmp a ≠ .eq) :
    ∃ t', t.insert cmp new = some t' ∧ Inserted cmp new t.inorder t'.inorder := by
  induction t with
  | leaf => exact ⟨_, rfl, [], [], rfl, rfl, nofun, nofun⟩
  | node l w r ihl ihr =>
    obtain ⟨hl, hwr, hcross⟩ := List.pairwise_append.mp h
    obtain ⟨hw, hr⟩ := List.pairwise_cons.mp hwr
    have hmem : ∀ a, a ∈ l.inorder ∨ a = w ∨ a ∈ r.inorder → cmp a ≠ .eq := fun a ha =>
      hne a (List.mem_append.mpr (ha.imp_right List.mem_cons.mpr))
    rw [insert]
    cases hcmp : cmp w with
    | lt =>
      -- the new node goes to the left half
      obtain ⟨l', hl', hins⟩ := ihl hl fun a ha => hmem a (.inl ha)
      refine ⟨node l' w r, by rw [hl']; rfl, hins.append_right fun b hb => ?_⟩
      rcases List.mem_cons.mp hb with rfl | hb
      · exact hcmp
      · exact hw b hb (by rw [hcmp]; exact nofun)
    | eq => exact absurd hcmp (hmem w (.inr (.inl rfl)))
    | gt =>
      obtain ⟨r', hr', hins⟩ := ihr hr fun a ha => hmem a (.inr (.inr ha))
      -- the left half and the root are smaller
      have hleft : ∀ a ∈ l.inorder ++ [w], cmp a = .gt := fun a ha => by
        rcases List.mem_append.mp ha with ha | ha
        · by_contra hgt
          have hlt := hcross a ha w (List.mem_cons_self ..) hgt
          rw [hcmp] at hlt
          cases hlt
        · obtain rfl := List.mem_singleton.mp ha
          exact hcmp
      refine ⟨node l w r', by rw [hr']; rfl, ?_⟩
      have hall := hins.append_left hleft
      rw [List.append_assoc, List.append_assoc] at hall
      exact hall

/-- All nodes before the node are smaller than what is inserted, and all after it are greater. -/
def Beside (start : α) (cmp : α → Ordering) (l : List α) : Prop :=
  l.Pairwise fun a b => (b = start → cmp a = .gt) ∧ (a = start → cmp b = .lt)

theorem guides_of_gt {l : List α} (h : ∀ a ∈ l, cmp a = .gt) : Guides cmp l :=
  List.pairwise_of_forall_mem_list fun _ ha _ _ hne => absurd (h _ ha) hne

theorem guides_of_lt {l : List α} (h : ∀ a ∈ l, cmp a = .lt) : Guides cmp l :=
  List.pairwise_of_forall_mem_list fun _ _ _ hb _ => h _ hb

theorem beside_append {start : α} {x y : List α} (hnodup : (x ++ start :: y).Nodup)
    (hx : ∀ a ∈ x, cmp a = .gt) (hy : ∀ b ∈ y, cmp b = .lt) :
    Beside start cmp (x ++ start :: y) := by
  obtain ⟨-, hstart, hcross⟩ := List.nodup_append.mp hnodup
  have hxne : ∀ a ∈ x, a ≠ start := fun a ha => hcross a ha start (List.mem_cons_self ..)
  have hyne : ∀ b ∈ y, b ≠ start := fun b hb heq => (List.nodup_cons.mp hstart).1 (heq ▸ hb)
  refine List.pairwise_append.mpr ⟨?_, List.pairwise_cons.mpr ⟨fun b hb => ?_, ?_⟩, ?_⟩
  · -- within a half nothing is required
    exact List.pairwise_of_forall_mem_list fun a ha b hb =>
      ⟨fun heq => absurd heq (hxne b hb), fun heq => absurd heq (hxne a ha)⟩
  · exact ⟨fun heq => absurd heq (hyne b hb), fun _ => hy b hb⟩
  · exact List.pairwise_of_forall_mem_list fun a ha b hb =>
      ⟨fun heq => absurd heq (hyne b hb), fun heq => absurd heq (hyne a ha)⟩
  · exact fun a ha b _ => ⟨fun _ => hx a ha, fun heq => absurd heq (hxne a ha)⟩

theorem insertFrom_spec [DecidableEq α] {start : α} (hmem : start ∈ t.inorder)
    (hbeside : Beside start cmp t.inorder) (hne : cmp start ≠ .eq) :
    ∃ t', t.insertFrom start cmp new = some t' ∧ Inserted cmp new t.inorder t'.inorder := by
  induction t with
  | leaf => cases hmem
  | node l w r ihl ihr =>
    obtain ⟨hl, hwr, hcross⟩ := List.pairwise_append.mp hbeside
    obtain ⟨hw, hr⟩ := List.pairwise_cons.mp hwr
    rw [insertFrom]
    by_cases hroot : w = start
    · -- the nodes of the left subtree are all smaller, those of the right one all greater
      subst hroot
      have hleft : ∀ a ∈ l.inorder, cmp a = .gt := fun a ha =>
        (hcross a ha w (List.mem_cons_self ..)).1 rfl
      have hright : ∀ b ∈ r.inorder, cmp b = .lt := fun b hb => (hw b hb).2 rfl
      rw [if_pos rfl]
      refine insert_spec ?_ fun a ha => ?_
      · refine List.pairwise_append.mpr ⟨guides_of_gt hleft, List.pairwise_cons.mpr
          ⟨fun b hb _ => hright b hb, guides_of_lt hright⟩, fun a ha b _ hgt => ?_⟩
        exact absurd (hleft a ha) hgt
      · rcases List.mem_append.mp ha with ha | ha
        · rw [hleft a ha]
          exact nofun
        · rcases List.mem_cons.mp ha with rfl | ha
          · exact hne
          · rw [hright a ha]
            exact nofun
    · rw [if_neg hroot]
      by_cases hinl : start ∈ l.inorder
      · -- the descent starts in the left half
        obtain ⟨l', hl', hins⟩ := ihl hinl hl
        rw [if_pos hinl, hl']
        refine ⟨node l' w r, rfl, hins.append_right fun b hb => ?_⟩
        exact (hcross start hinl b hb).2 rfl
      · -- it starts in the right half
        have hinr : start ∈ r.inorder := by
          rcases List.mem_append.mp hmem with hin | hin
          · exact absurd hin hinl
          · exact (List.mem_cons.mp hin).resolve_left fun heq => hroot heq.symm
        obtain ⟨r', hr', hins⟩ := ihr hinr hr
        have hleft : ∀ a ∈ l.inorder ++ [w], cmp a = .gt := fun a ha => by
          rcases List.mem_append.mp ha with ha | ha
          · exact (hcross a ha start (List.mem_cons_of_mem w hinr)).1 rfl
          · obtain rfl := List.mem_singleton.mp ha
            exact (hw start hinr).1 rfl
        rw [if_neg hinl, hr']
        refine ⟨node l w r', rfl, ?_⟩
        have hall := hins.append_left hleft
        rw [List.append_assoc, List.append_assoc] at hall
        exact hall

end

/-! ## Neighbours -/

section

variable [DecidableEq α] {t : SearchTree α} {a : α} {x y : List α}

theorem before_eq (h : t.inorder = x ++ a :: y) (hx : a ∉ x) : t.before a = x.reverse := by
  have htake : x.takeWhile (fun b => b ≠ a) = x :=
    List.takeWhile_eq_self_iff.mpr fun b hb => by
      have hne : b ≠ a := fun hba => hx (hba ▸ hb)
      simpa using hne
  rw [before, h, List.takeWhile_append, htake, if_pos rfl, List.takeWhile_cons]
  simp

theorem next_eq (h : t.inorder = x ++ a :: y) (hx : a ∉ x) : t.next a = y.head? := by
  have hdrop : x.dropWhile (fun b => b ≠ a) = [] :=
    List.dropWhile_eq_nil_iff.mpr fun b hb => by
      have hne : b ≠ a := fun hba => hx (hba ▸ hb)
      simpa using hne
  rw [next, h, List.dropWhile_append, hdrop]
  simp

end

end SearchTree

/-- Balancing after a node was linked, and removing a node, as far as the order of the nodes is
    concerned -/
structure Balance (α : Type u) [DecidableEq α] where
  color : SearchTree α → SearchTree α
  erase : α → SearchTree α → SearchTree α
  inorder_color : ∀ t, (color t).inorder = t.inorder
  inorder_erase : ∀ a t, (erase a t).inorder = t.inorder.erase a

/-- Trees that are not balanced -/
def Balance.unbalanced (α : Type u) [DecidableEq α] : Balance α where
  color := id
  erase := fun a t => SearchTree.ofList (t.inorder.erase a)
  inorder_color := fun _ => rfl
  inorder_erase := fun _ _ => SearchTree.inorder_ofList _

end NucKernel.Library
