import Mathlib.Data.List.Nodup
import Mathlib.Data.List.TakeWhile

/-!
# Circular lists with a head

A circular doubly linked list is written as the list of its nodes from the head `h` on. The node
after the last one is the head.

- `nextIn`, `prevIn` - the neighbours of a node
- `addAfter` - a node linked in behind another one
- `nextIn_addAfter`, `nextIn_erase` - the successors after a node is linked in, or taken out
- `isChain_of_nextIn` - a relation between neighbours, as a relation along the list
-/

namespace NucKernel.Library

universe u

variable {α : Type u} [DecidableEq α]

/-- The node after `a` -/
def nextIn (h : α) (l : List α) (a : α) : α := (l.dropWhile (· ≠ a)).tail.headD h

/-- The node before `a` -/
def prevIn (h : α) (l : List α) (a : α) : α := (l.takeWhile (· ≠ a)).getLastD h

/-- `n` linked in behind `a` -/
def addAfter (l : List α) (a n : α) : List α := l.flatMap fun b => if b = a then [b, n] else [b]

variable {h a b n o : α} {l pre post : List α}

theorem dropWhile_ne_of_notMem (ha : a ∉ pre) :
    (pre ++ a :: post).dropWhile (· ≠ a) = a :: post := by
  rw [List.dropWhile_append_of_pos (fun b hb => by
    have : b ≠ a := fun hba => ha (hba ▸ hb)
    simpa using this)]
  simp

theorem nextIn_append (ha : a ∉ pre) : nextIn h (pre ++ a :: post) a = post.headD h := by
  rw [nextIn, dropWhile_ne_of_notMem ha]
  rfl

theorem nextIn_mem (hh : h ∈ l) : nextIn h l a ∈ l := by
  rw [nextIn]
  cases htail : (l.dropWhile (· ≠ a)).tail with
  | nil => exact hh
  | cons b rest =>
    have hb : b ∈ l.dropWhile (· ≠ a) :=
      List.mem_of_mem_tail (by rw [htail]; exact List.mem_cons_self ..)
    exact (List.dropWhile_suffix _).subset hb

theorem prevIn_append (ha : a ∉ pre) (hao : a ≠ o) : prevIn h (pre ++ o :: a :: post) a = o := by
  have hsplit : (pre ++ o :: a :: post).takeWhile (· ≠ a) = pre ++ [o] := by
    rw [List.takeWhile_append_of_pos (fun b hb => by
      have : b ≠ a := fun hba => ha (hba ▸ hb)
      simpa using this)]
    simp [hao.symm]
  rw [prevIn, hsplit]
  simp

theorem addAfter_eq_self (ha : a ∉ l) : addAfter l a n = l := by
  induction l with
  | nil => rfl
  | cons b l ih =>
    rw [List.mem_cons, not_or] at ha
    rw [addAfter, List.flatMap_cons, if_neg (Ne.symm ha.1)]
    exact congrArg (b :: ·) (ih ha.2)

theorem addAfter_append (hl : (pre ++ a :: post).Nodup) :
    addAfter (pre ++ a :: post) a n = pre ++ a :: n :: post := by
  have hpre : a ∉ pre := fun h => (List.nodup_append.mp hl).2.2 a h a (List.mem_cons_self ..) rfl
  have hpost : a ∉ post := (List.nodup_cons.mp (List.nodup_append.mp hl).2.1).1
  have hsplit : addAfter (pre ++ a :: post) a n =
      addAfter pre a n ++ a :: n :: addAfter post a n := by
    simp [addAfter]
  rw [hsplit, addAfter_eq_self hpre, addAfter_eq_self hpost]

theorem nextIn_add (hl : (pre ++ o :: n :: post).Nodup) (a : α) :
    nextIn h (pre ++ o :: n :: post) a =
      if a = o then n else if a = n then nextIn h (pre ++ o :: post) o
      else nextIn h (pre ++ o :: post) a := by
  obtain ⟨-, hcons, hdisj⟩ := List.nodup_append.mp hl
  have hpre : ∀ b ∈ o :: n :: post, b ∉ pre := fun b hb hbpre => hdisj b hbpre b hb rfl
  have hon : o ≠ n := by
    rintro rfl
    exact (List.nodup_cons.mp hcons).1 (List.mem_cons_self ..)
  split
  next hao =>
    -- the successor of `o` is the new node
    subst hao
    exact nextIn_append (hpre a (List.mem_cons_self ..))
  next hao =>
    split
    next han =>
      -- the new node has the old successor of `o`
      subst han
      rw [nextIn_append (hpre o (List.mem_cons_self ..)), List.append_cons,
        nextIn_append fun h => ?_]
      rcases List.mem_append.mp h with h | h
      · exact hpre a (by simp) h
      · exact hon (List.mem_singleton.mp h).symm
    next han =>
      by_cases hmem : a ∈ pre
      · -- a node before `o` keeps its successor
        obtain ⟨p, q, rfl, hp⟩ := List.eq_append_cons_of_mem hmem
        rw [List.append_assoc, List.append_assoc, List.cons_append, List.cons_append,
          nextIn_append hp, nextIn_append hp]
        cases q <;> rfl
      · -- so does one behind it, or one that is not in the list
        have hskip : ∀ b ∈ pre, decide (b ≠ a) = true := fun b hb => by
          have : b ≠ a := fun hba => hmem (hba ▸ hb)
          simpa using this
        rw [nextIn, nextIn, List.dropWhile_append_of_pos hskip, List.dropWhile_append_of_pos hskip]
        simp [Ne.symm hao, Ne.symm han]

/-! ## A node is linked in -/

theorem mem_addAfter (ho : o ∈ l) : a ∈ addAfter l o n ↔ a = n ∨ a ∈ l := by
  simp only [addAfter, List.mem_flatMap]
  constructor
  · rintro ⟨b, hb, ha⟩
    split at ha
    · rcases List.mem_cons.mp ha with rfl | ha
      · exact .inr hb
      · exact .inl (List.mem_singleton.mp ha)
    · exact .inr (List.mem_singleton.mp ha ▸ hb)
  · rintro (rfl | ha)
    · exact ⟨o, ho, by simp⟩
    · exact ⟨a, ha, by split <;> simp⟩

omit [DecidableEq α] in
theorem nodup_splice (hl : (pre ++ o :: post).Nodup) (hn : n ∉ pre ++ o :: post) :
    (pre ++ o :: n :: post).Nodup := by
  rw [List.append_cons] at hl hn ⊢
  exact List.nodup_middle.mpr (List.nodup_cons.mpr ⟨hn, hl⟩)

theorem nodup_addAfter (hl : l.Nodup) (ho : o ∈ l) (hn : n ∉ l) : (addAfter l o n).Nodup := by
  obtain ⟨pre, post, rfl⟩ := List.append_of_mem ho
  rw [addAfter_append hl]
  exact nodup_splice hl hn

theorem addAfter_cons (h : α) (l : List α) (o n : α) :
    ∃ l', addAfter (h :: l) o n = h :: l' := by
  rw [addAfter, List.flatMap_cons]
  split <;> exact ⟨_, rfl⟩

theorem nextIn_addAfter (hl : l.Nodup) (ho : o ∈ l) (hn : n ∉ l) (a : α) :
    nextIn h (addAfter l o n) a =
      if a = o then n else if a = n then nextIn h l o else nextIn h l a := by
  obtain ⟨pre, post, rfl⟩ := List.append_of_mem ho
  rw [addAfter_append hl, nextIn_add (nodup_splice hl hn)]

/-! ## A node is taken out -/

omit [DecidableEq α] in
theorem exists_pred {l t : List α} (hl : l = h :: t) (hn : n ∈ l) (hne : n ≠ h) :
    ∃ pre o post, l = pre ++ o :: n :: post := by
  subst hl
  obtain ⟨q, post, rfl⟩ := List.append_of_mem ((List.mem_cons.mp hn).resolve_left hne)
  rcases List.eq_nil_or_concat q with rfl | ⟨q, o, rfl⟩
  · exact ⟨[], h, post, rfl⟩
  · exact ⟨h :: q, o, post, by simp⟩

theorem erase_append (hl : (pre ++ o :: n :: post).Nodup) :
    (pre ++ o :: n :: post).erase n = pre ++ o :: post := by
  rw [List.append_cons] at hl ⊢
  have hn : n ∉ pre ++ [o] := fun h =>
    (List.nodup_append.mp hl).2.2 n h n (List.mem_cons_self ..) rfl
  rw [List.erase_append_right _ hn, List.erase_cons_head, ← List.append_cons]

theorem prevIn_split (hl : (pre ++ o :: n :: post).Nodup) :
    prevIn h (pre ++ o :: n :: post) n = o := by
  have hn : n ∉ pre ++ [o] := fun h =>
    (List.nodup_append.mp (List.append_cons .. ▸ hl)).2.2 n h n (List.mem_cons_self ..) rfl
  rw [List.mem_append, not_or, List.mem_singleton] at hn
  exact prevIn_append hn.1 hn.2

theorem nextIn_prevIn {t : List α} (hl : l = h :: t) (hnodup : l.Nodup) (hn : n ∈ l)
    (hne : n ≠ h) : prevIn h l n ∈ l ∧ prevIn h l n ≠ n ∧ nextIn h l (prevIn h l n) = n := by
  obtain ⟨pre, o, post, hsplit⟩ := exists_pred hl hn hne
  rw [hsplit] at hnodup ⊢
  rw [prevIn_split hnodup]
  obtain ⟨-, hcons, hdisj⟩ := List.nodup_append.mp hnodup
  refine ⟨by simp, fun hon => (List.nodup_cons.mp hcons).1 (by simp [hon]), ?_⟩
  exact nextIn_append fun hpre => hdisj o hpre o (List.mem_cons_self ..) rfl

theorem nextIn_erase {t : List α} (hl : l = h :: t) (hnodup : l.Nodup) (hn : n ∈ l) (hne : n ≠ h)
    (han : a ≠ n) :
    nextIn h (l.erase n) a = if a = prevIn h l n then nextIn h l n else nextIn h l a := by
  obtain ⟨pre, o, post, hsplit⟩ := exists_pred hl hn hne
  rw [hsplit] at hnodup ⊢
  have hon : n ≠ o := by
    rintro rfl
    exact (List.nodup_cons.mp (List.nodup_append.mp hnodup).2.1).1 (List.mem_cons_self ..)
  rw [erase_append hnodup, prevIn_split hnodup, nextIn_add hnodup n, if_neg hon, if_pos rfl,
    nextIn_add hnodup a, if_neg han]
  split
  next hao => rw [hao]
  next hao => rfl

/-- A node that was taken out is linked in again behind the one that was in front of it. -/
theorem addAfter_erase {t : List α} (hl : l = h :: t) (hnodup : l.Nodup) (hn : n ∈ l)
    (hne : n ≠ h) : addAfter (l.erase n) (prevIn h l n) n = l := by
  obtain ⟨pre, o, post, rfl⟩ := exists_pred hl hn hne
  rw [erase_append hnodup, prevIn_split hnodup, addAfter_append]
  rw [← erase_append hnodup]
  exact hnodup.erase n

/-! ## Neighbours along the list -/

/-- A relation between every node and its successor holds along the list. -/
theorem isChain_of_nextIn {R : α → α → Prop} (pre : List α) (hl : (pre ++ l).Nodup) (hh : h ∉ l)
    (hnext : ∀ a ∈ l, nextIn h (pre ++ l) a ≠ h → R a (nextIn h (pre ++ l) a)) :
    l.IsChain R := by
  induction l generalizing pre with
  | nil => exact .nil
  | cons a l ih =>
    cases l with
    | nil => exact .singleton a
    | cons b l =>
      have ha : a ∉ pre := fun h => (List.nodup_append.mp hl).2.2 a h a (List.mem_cons_self ..) rfl
      have hab : nextIn h (pre ++ a :: b :: l) a = b := nextIn_append ha
      have hbh : b ≠ h := fun hb => hh (by simp [hb])
      refine .cons_cons ?_ (ih (pre ++ [a]) ?_ ?_ ?_)
      · rw [← hab]
        exact hnext a (List.mem_cons_self ..) (by rw [hab]; exact hbh)
      · rwa [List.append_assoc]
      · exact fun hmem => hh (List.mem_cons_of_mem a hmem)
      · intro c hc
        rw [List.append_assoc]
        exact hnext c (List.mem_cons_of_mem a hc)

end NucKernel.Library
