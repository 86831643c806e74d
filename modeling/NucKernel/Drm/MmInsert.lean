import NucKernel.Drm.Mm

/-!
# Free addresses and insertion
-/

namespace NucKernel.Drm

open NucKernel.Library

namespace DrmMm

variable {s : DrmMm} {lo hi hole n m size alignment start stop : ℕ}

/-! ## Free addresses -/

/-- `q` is an address of the node `n`. -/
def Holds (s : DrmMm) (n q : ℕ) : Prop :=
  (s.node n).start ≤ q ∧ q < (s.node n).start + (s.node n).size

/-- `q` is in the managed range from `lo` to `hi`, and no node has it. -/
def Free (s : DrmMm) (lo hi q : ℕ) : Prop :=
  lo ≤ q ∧ q < hi ∧ ∀ n, (s.node n).allocated = true → ¬ s.Holds n q

theorem Inv.pairwise (h : s.Inv lo hi) (hhi : hi < 2 ^ 32) {l : List ℕ}
    (hl : s.nodeList = headNode :: l) :
    l.Pairwise fun a b => (s.node a).start + (s.node a).size ≤ (s.node b).start := by
  have hnodup : (headNode :: l).Nodup := hl ▸ h.nodup
  have hhead : headNode ∉ l := (List.nodup_cons.mp hnodup).1
  -- it is enough that each node ends before the next one starts
  have hchain : l.IsChain fun a b => (s.node a).start + (s.node a).size ≤ (s.node b).start := by
    refine isChain_of_nextIn [headNode] hnodup hhead fun a ha _ => ?_
    have hmem : a ∈ s.nodeList := hl ▸ List.mem_cons_of_mem headNode ha
    rw [← h.holeNodeStart_eq hhi hmem fun heq => hhead (heq ▸ ha)]
    have hordered := h.ordered a hmem
    rwa [holeNodeEnd, hl] at hordered
  have htrans : Trans (fun a b => (s.node a).start + (s.node a).size ≤ (s.node b).start)
      (fun a b => (s.node a).start + (s.node a).size ≤ (s.node b).start)
      (fun a b => (s.node a).start + (s.node a).size ≤ (s.node b).start) :=
    ⟨fun hab hbc => by omega⟩
  exact List.isChain_iff_pairwise.mp hchain

theorem Inv.apart (h : s.Inv lo hi) (hhi : hi < 2 ^ 32) (hn : n ∈ s.nodeList)
    (hm : m ∈ s.nodeList) (hhead : m ≠ headNode) :
    m = n ∨ (n ≠ headNode ∧ (s.node m).start + (s.node m).size ≤ (s.node n).start) ∨
      s.holeNodeEnd n ≤ (s.node m).start := by
  obtain ⟨l, hl⟩ := h.head
  have hpair := h.pairwise hhi hl
  have hml : m ∈ l := (List.mem_cons.mp (hl ▸ hm)).resolve_left hhead
  by_cases hnhead : n = headNode
  · -- behind the head, the first node is the lowest
    subst hnhead
    refine .inr (.inr ?_)
    obtain ⟨b, rest, rfl⟩ := List.exists_cons_of_ne_nil (List.ne_nil_of_mem hml)
    have hnext : nextIn headNode s.nodeList headNode = b := by
      rw [hl]
      exact nextIn_append (List.not_mem_nil : headNode ∉ [])
    rw [holeNodeEnd, hnext]
    rcases List.mem_cons.mp hml with rfl | hmrest
    · exact le_rfl
    · have := (List.pairwise_cons.mp hpair).1 m hmrest
      omega
  · have hnl : n ∈ l := (List.mem_cons.mp (hl ▸ hn)).resolve_left hnhead
    obtain ⟨pre, post, rfl⟩ := List.append_of_mem hnl
    obtain ⟨-, hpost, hcross⟩ := List.pairwise_append.mp hpair
    rcases List.mem_append.mp hml with hmpre | hmpost
    · -- a node in front
      exact .inr (.inl ⟨hnhead, hcross m hmpre n (List.mem_cons_self ..)⟩)
    · rcases List.mem_cons.mp hmpost with rfl | hmpost
      · exact .inl rfl
      · -- a node behind: the next one is the lowest of these
        refine .inr (.inr ?_)
        obtain ⟨b, rest, rfl⟩ := List.exists_cons_of_ne_nil (List.ne_nil_of_mem hmpost)
        have hnpre : n ∉ headNode :: pre := by
          have hnodup := h.nodup
          rw [hl, ← List.cons_append] at hnodup
          exact fun hmem => (List.nodup_append.mp hnodup).2.2 n hmem n (List.mem_cons_self ..) rfl
        have hnext : nextIn headNode s.nodeList n = b := by
          rw [hl, ← List.cons_append]
          exact nextIn_append hnpre
        rw [holeNodeEnd, hnext]
        rcases List.mem_cons.mp hmpost with rfl | hmrest
        · exact le_rfl
        · have := (List.pairwise_cons.mp (List.pairwise_cons.mp hpost).2).1 m hmrest
          omega

theorem Inv.free_of_hole (h : s.Inv lo hi) (hhi : hi < 2 ^ 32) (hn : n ∈ s.nodeList) {q : ℕ}
    (hq : s.holeNodeStart n ≤ q) (hqend : q < s.holeNodeEnd n) : s.Free lo hi q := by
  refine ⟨(h.le_holeNodeStart hhi hn).trans hq, hqend.trans_le (h.holeNodeEnd_le n),
    fun m hm hheld => ?_⟩
  obtain ⟨hmem, hhead⟩ := (h.allocated m).mp hm
  obtain ⟨hlow, hhigh⟩ := hheld
  rcases h.apart hhi hn hmem hhead with rfl | ⟨hnhead, hbefore⟩ | hbehind
  · rw [h.holeNodeStart_eq hhi hn hhead] at hq
    omega
  · rw [h.holeNodeStart_eq hhi hn hnhead] at hq
    omega
  · omega

theorem Inv.not_free_holeNodeEnd (h : s.Inv lo hi) (n : ℕ) : ¬ s.Free lo hi (s.holeNodeEnd n) := by
  rintro ⟨-, hlt, hfree⟩
  have hmem := h.next_mem n
  by_cases hhead : nextIn headNode s.nodeList n = headNode
  · rw [holeNodeEnd, hhead, h.headStart] at hlt
    exact lt_irrefl hi hlt
  · refine hfree _ ((h.allocated _).mpr ⟨hmem, hhead⟩) ⟨le_rfl, ?_⟩
    have := (h.inside _ hmem hhead).2.1
    rw [holeNodeEnd]
    omega

theorem Inv.exists_hole_from (h : s.Inv lo hi) (hhi : hi < 2 ^ 32) {q : ℕ} (hq : s.Free lo hi q)
    (pre : List ℕ) {post : List ℕ} (hsplit : s.nodeList = pre ++ n :: post)
    (hstart : s.holeNodeStart n ≤ q) :
    ∃ m ∈ s.nodeList, s.holeNodeStart m ≤ q ∧ q < s.holeNodeEnd m := by
  induction post generalizing pre n with
  -- the last node: its hole reaches to the end of the range
  | nil =>
    have hn : n ∉ pre := fun hmem => (List.nodup_append.mp (hsplit ▸ h.nodup)).2.2 n hmem n
      (List.mem_cons_self ..) rfl
    refine ⟨n, by simp [hsplit], hstart, ?_⟩
    have hend : s.holeNodeEnd n = hi := by
      rw [holeNodeEnd, hsplit, nextIn_append hn]
      exact h.headStart
    rw [hend]
    exact hq.2.1
  | cons b post ih =>
    obtain ⟨-, hcons, hdisj⟩ := List.nodup_append.mp (hsplit ▸ h.nodup)
    have hend : s.holeNodeEnd n = (s.node b).start := by
      rw [holeNodeEnd, hsplit, nextIn_append fun hmem => hdisj n hmem n (List.mem_cons_self ..) rfl]
      rfl
    by_cases hlt : q < s.holeNodeEnd n
    · exact ⟨n, by simp [hsplit], hstart, hlt⟩
    · -- the address is behind the next node, which does not hold it
      have hb : b ∈ s.nodeList := by simp [hsplit]
      have hbhead : b ≠ headNode := by
        intro hbhead
        rw [hend, hbhead, h.headStart] at hlt
        exact hlt hq.2.1
      refine ih (pre ++ [n]) (by rw [hsplit, List.append_cons]) ?_
      rw [h.holeNodeStart_eq hhi hb hbhead]
      by_contra hheld
      exact hq.2.2 b ((h.allocated b).mpr ⟨hb, hbhead⟩) ⟨by omega, by omega⟩

/-- **Holes**: an address is free exactly if it is in the hole of some node. -/
theorem Inv.free_iff (h : s.Inv lo hi) (hhi : hi < 2 ^ 32) (q : ℕ) :
    s.Free lo hi q ↔ ∃ n ∈ s.nodeList, s.holeNodeStart n ≤ q ∧ q < s.holeNodeEnd n := by
  constructor
  · intro hq
    obtain ⟨l, hl⟩ := h.head
    exact h.exists_hole_from hhi hq [] hl (h.headEnd.le.trans hq.1)
  · rintro ⟨n, hn, hstart, hend⟩
    exact h.free_of_hole hhi hn hstart hend

theorem Inv.holeFollows_iff (h : s.Inv lo hi) (hhi : hi < 2 ^ 32) (hn : n ∈ s.nodeList) :
    (s.node n).holeFollows = true ↔ s.Free lo hi (s.holeNodeStart n) := by
  rw [h.flag n hn]
  constructor
  · exact h.free_of_hole hhi hn le_rfl
  · intro hfree
    refine lt_of_le_of_ne (h.ordered n hn) fun heq => ?_
    exact h.not_free_holeNodeEnd n (heq ▸ hfree)

theorem Inv.exists_hole (h : s.Inv lo hi) (hhi : hi < 2 ^ 32) {x : ℕ} (hsize : 1 ≤ size)
    (hfree : ∀ q, x ≤ q → q < x + size → s.Free lo hi q) :
    ∃ n ∈ s.holeStack, s.holeNodeStart n ≤ x ∧ x + size ≤ s.holeNodeEnd n := by
  obtain ⟨n, hn, hstart, hend⟩ := (h.free_iff hhi x).mp (hfree x le_rfl (by omega))
  refine ⟨n, (h.stack n).mpr ⟨hn, (h.flag n hn).mpr (by omega)⟩, hstart, ?_⟩
  by_contra hover
  exact h.not_free_holeNodeEnd n (hfree _ hend.le (by omega))

/-! ## Search -/

theorem alignUp_spec (start alignment : ℕ) (hfit : start + alignment ≤ 2 ^ 32) :
    start ≤ alignUp start alignment ∧ (alignment ≠ 0 → alignment ∣ alignUp start alignment) ∧
      (alignUp start alignment = start ∨ alignUp start alignment < start + alignment) ∧
      ∀ x, start ≤ x → (alignment ≠ 0 → alignment ∣ x) → alignUp start alignment ≤ x := by
  rw [alignUp]
  split
  next hpad =>
    obtain ⟨ha, hmod⟩ := hpad
    have hlt := Nat.mod_lt start (Nat.pos_of_ne_zero ha)
    have hdiv : alignment * (start / alignment) + start % alignment = start :=
      Nat.div_add_mod start alignment
    have hnext : start + (alignment - start % alignment) =
        alignment * (start / alignment + 1) := by
      rw [Nat.mul_succ]
      omega
    rw [Nat.mod_eq_of_lt (by omega)]
    refine ⟨Nat.le_add_right .., fun _ => ⟨_, hnext⟩, .inr (by omega), fun x hx hdvd => ?_⟩
    obtain ⟨k, rfl⟩ := hdvd ha
    -- a multiple that is at least `start` is above the one below `start`
    rw [hnext]
    refine Nat.mul_le_mul_left alignment (Nat.lt_of_mul_lt_mul_left (a := alignment) ?_)
    omega
  next hpad =>
    refine ⟨le_rfl, fun ha => ?_, .inl rfl, fun x hx _ => hx⟩
    by_contra hdvd
    exact hpad ⟨ha, fun hmod => hdvd (Nat.dvd_of_mod_eq_zero hmod)⟩

theorem checkFreeHole_iff (hstop : stop + alignment < 2 ^ 32)
    (hfit : start ≤ stop ∨ start + alignment + size < 2 ^ 32) :
    checkFreeHole start stop size alignment = true ↔ alignUp start alignment + size ≤ stop := by
  obtain ⟨hle, -, hlt, -⟩ := alignUp_spec start alignment (by omega)
  rw [checkFreeHole]
  split
  -- without the overflow the difference is the length of the hole
  next hsmall =>
    rw [sub32] at hsmall
    simp only [Bool.false_eq_true, false_iff, not_le]
    omega
  next hlarge =>
    rw [sub32] at hlarge
    rw [decide_eq_true_eq, ge_iff_le, Nat.mod_eq_of_lt (by omega)]

theorem searchFree_first (accept : ℕ → ℕ → Bool) {l : List ℕ} (bestSize : ℕ)
    (hl : ∀ n ∈ l, (s.node n).holeFollows = true) :
    s.searchFree accept false l none bestSize =
      some (l.find? fun n => accept (s.holeNodeStart n) (s.holeNodeEnd n)) := by
  induction l with
  | nil => rfl
  | cons n l ih =>
    rw [searchFree, if_neg (not_not.mpr (hl n (List.mem_cons_self ..))), List.find?_cons]
    cases haccept : accept (s.holeNodeStart n) (s.holeNodeEnd n) with
    | true => rfl
    | false => exact ih fun m hm => hl m (List.mem_cons_of_mem n hm)

theorem Inv.searchFree_stack (h : s.Inv lo hi) (accept : ℕ → ℕ → Bool) :
    s.searchFree accept false s.holeStack none (2 ^ 32 - 1) =
      some (s.holeStack.find? fun n => accept (s.holeNodeStart n) (s.holeNodeEnd n)) :=
  searchFree_first accept _ fun n hn => ((h.stack n).mp hn).2

end DrmMm

/-! ## Requests -/

/-- What is asked for: a size, an alignment, and the addresses that may be used -/
structure Request where
  size : ℕ
  alignment : ℕ
  start : ℕ
  stop : ℕ
  deriving DecidableEq, Repr

/-- The request is met by a node at `x`. -/
def Request.Allows (r : Request) (x : ℕ) : Prop :=
  (r.alignment ≠ 0 → r.alignment ∣ x) ∧ r.start ≤ x ∧ x + r.size ≤ r.stop

/-- There is a place for the request in the hole from `holeStart` to `holeEnd`. -/
def Request.FitsIn (r : Request) (holeStart holeEnd : ℕ) : Prop :=
  ∃ x, r.Allows x ∧ holeStart ≤ x ∧ x + r.size ≤ holeEnd

/-- There is a hole behind the node, and the request fits into it. -/
def DrmMm.Suitable (s : DrmMm) (r : Request) (n : ℕ) : Prop :=
  n ∈ s.nodeList ∧ s.holeNodeStart n < s.holeNodeEnd n ∧
    r.FitsIn (s.holeNodeStart n) (s.holeNodeEnd n)

theorem Request.check_spec {r : Request} {holeStart holeEnd start stop : ℕ}
    (hstop : stop + r.alignment < 2 ^ 32)
    (hfit : start ≤ stop ∨ start + r.alignment + r.size < 2 ^ 32)
    (hpart : ∀ x, start ≤ x ∧ x + r.size ≤ stop ↔
      (r.start ≤ x ∧ x + r.size ≤ r.stop) ∧ holeStart ≤ x ∧ x + r.size ≤ holeEnd) :
    (checkFreeHole start stop r.size r.alignment = true ↔ r.FitsIn holeStart holeEnd) ∧
      (checkFreeHole start stop r.size r.alignment = true →
        r.Allows (alignUp start r.alignment) ∧ holeStart ≤ alignUp start r.alignment ∧
          alignUp start r.alignment + r.size ≤ holeEnd) := by
  obtain ⟨hle, hdvd, -, hleast⟩ := DrmMm.alignUp_spec start r.alignment (by omega)
  rw [DrmMm.checkFreeHole_iff hstop hfit]
  have hplace : alignUp start r.alignment + r.size ≤ stop →
      r.Allows (alignUp start r.alignment) ∧ holeStart ≤ alignUp start r.alignment ∧
        alignUp start r.alignment + r.size ≤ holeEnd := by
    intro hroom
    obtain ⟨hallowed, hhole⟩ := (hpart _).mp ⟨hle, hroom⟩
    exact ⟨⟨hdvd, hallowed⟩, hhole⟩
  refine ⟨⟨fun hroom => ⟨_, hplace hroom⟩, ?_⟩, hplace⟩
  -- any place is at or behind the aligned start
  rintro ⟨x, ⟨hx, hallowed⟩, hhole⟩
  obtain ⟨hlow, hhigh⟩ := (hpart x).mpr ⟨hallowed, hhole⟩
  exact (Nat.add_le_add_right (hleast x hlow hx) r.size).trans hhigh

theorem clip_iff {start stop holeStart holeEnd x y : ℕ} :
    clipStart start holeStart ≤ x ∧ y ≤ clipEnd stop holeEnd ↔
      (start ≤ x ∧ y ≤ stop) ∧ holeStart ≤ x ∧ y ≤ holeEnd := by
  rw [clipStart, clipEnd]
  split <;> split <;> omega

/-- There is no place for the request. -/
def Request.Full (r : Request) (lo hi : ℕ) (s : DrmMm) : Prop :=
  ∀ x, r.Allows x → ∃ q, x ≤ q ∧ q < x + r.size ∧ ¬ s.Free lo hi q

/-- The node `n` was added where the request allows it, or nothing was changed as there is no place
    for it. -/
def Request.Answered (r : Request) (lo hi : ℕ) (s : DrmMm) (n : ℕ) (res : DrmMm × Bool) : Prop :=
  (res.2 = true ∧ res.1.Inv lo hi ∧ ∃ x, r.Allows x ∧ s.Placed n x r.size res.1) ∨
    (res = (s, false) ∧ r.Full lo hi s)

namespace DrmMm

variable {s : DrmMm} {lo hi hole n m size alignment start stop : ℕ}

theorem Inv.full_of_find (h : s.Inv lo hi) (hhi : hi < 2 ^ 32) {r : Request} (hsize : 1 ≤ r.size)
    {accept : ℕ → Bool}
    (haccept : ∀ m ∈ s.holeStack, ∀ x, r.Allows x → s.holeNodeStart m ≤ x →
      x + r.size ≤ s.holeNodeEnd m → accept m = true)
    (hfind : s.holeStack.find? accept = none) : r.Full lo hi s := by
  intro x hx
  by_contra hfull
  push Not at hfull
  obtain ⟨m, hm, hstart, hend⟩ := h.exists_hole hhi hsize hfull
  exact List.find?_eq_none.mp hfind m hm (haccept m hm x hx hstart hend)

theorem Inv.answered_place (h : s.Inv lo hi) (hhi : hi < 2 ^ 32) {r : Request} (hsize : 1 ≤ r.size)
    (hn : n ∉ s.nodeList) (hhole : hole ∈ s.holeStack) {x : ℕ} (hx : r.Allows x)
    (hstart : s.holeNodeStart hole ≤ x) (hend : x + r.size ≤ s.holeNodeEnd hole) {left : Bool}
    (hleft : left = true ↔ x + r.size < s.holeNodeEnd hole) :
    r.Answered lo hi s n (s.place hole n x r.size left, true) := by
  obtain ⟨hinv, hplaced⟩ := place_spec h hhi hhole hn hsize hstart hend hleft
  exact .inl ⟨rfl, hinv, x, hx, hplaced⟩

theorem Inv.not_allocated (h : s.Inv lo hi) (hn : n ∉ s.nodeList) : ¬ (s.node n).allocated = true :=
  fun hallocated => hn ((h.allocated n).mp hallocated).1

theorem Inv.drmMmInsertHelper_eq (h : s.Inv lo hi) (hhi : hi < 2 ^ 32) (hhole : hole ∈ s.holeStack)
    (hn : n ∉ s.nodeList)
    (hend : alignUp (s.holeNodeStart hole) alignment + size ≤ s.holeNodeEnd hole) :
    s.drmMmInsertHelper hole n size alignment =
      some (s.place hole n (alignUp (s.holeNodeStart hole) alignment) size
        (decide (alignUp (s.holeNodeStart hole) alignment + size < s.holeNodeEnd hole))) := by
  have hle := h.holeNodeEnd_le hole
  have hguard : ¬ (¬ (s.node hole).holeFollows = true ∨ (s.node n).allocated = true) := by
    simp [((h.stack hole).mp hhole).2, h.not_allocated hn]
  simp only [drmMmInsertHelper]
  rw [if_neg hguard, Nat.mod_eq_of_lt (by omega), if_neg (not_lt.mpr hend)]

theorem Inv.drmMmInsertHelperRange_eq (h : s.Inv lo hi) (hhi : hi < 2 ^ 32)
    (hhole : hole ∈ s.holeStack) (hn : n ∉ s.nodeList)
    (hend : alignUp (clipStart start (s.holeNodeStart hole)) alignment + size ≤
      s.holeNodeEnd hole)
    (hstop : alignUp (clipStart start (s.holeNodeStart hole)) alignment + size ≤ stop) :
    s.drmMmInsertHelperRange hole n size alignment start stop =
      some (s.place hole n (alignUp (clipStart start (s.holeNodeStart hole)) alignment) size
        (decide (alignUp (clipStart start (s.holeNodeStart hole)) alignment + size <
          s.holeNodeEnd hole))) := by
  have hle := h.holeNodeEnd_le hole
  have hguard : ¬ (¬ (s.node hole).holeFollows = true ∨ (s.node n).allocated = true) := by
    simp [((h.stack hole).mp hhole).2, h.not_allocated hn]
  -- the end that is compared is that of the clipped hole
  have hclip : alignUp (clipStart start (s.holeNodeStart hole)) alignment + size ≤
      clipEnd stop (s.holeNodeEnd hole) := by
    rw [clipEnd]
    split
    · exact hstop
    · exact hend
  simp only [drmMmInsertHelperRange]
  rw [if_neg hguard, Nat.mod_eq_of_lt (by omega), if_neg (by omega)]

theorem Inv.check_spec (h : s.Inv lo hi) (hm : m ∈ s.nodeList) (hfit : hi + alignment < 2 ^ 32) :
    (checkFreeHole (s.holeNodeStart m) (s.holeNodeEnd m) size alignment = true ↔
        Request.FitsIn ⟨size, alignment, 0, 2 ^ 32⟩ (s.holeNodeStart m) (s.holeNodeEnd m)) ∧
      (checkFreeHole (s.holeNodeStart m) (s.holeNodeEnd m) size alignment = true →
        Request.Allows ⟨size, alignment, 0, 2 ^ 32⟩ (alignUp (s.holeNodeStart m) alignment) ∧
          s.holeNodeStart m ≤ alignUp (s.holeNodeStart m) alignment ∧
          alignUp (s.holeNodeStart m) alignment + size ≤ s.holeNodeEnd m) := by
  have hle := h.ordered m hm
  have hend := h.holeNodeEnd_le m
  apply Request.check_spec (r := ⟨size, alignment, 0, 2 ^ 32⟩)
  · simp only
    omega
  · exact .inl hle
  · intro x
    simp only
    omega

theorem Inv.checkRange_spec (h : s.Inv lo hi) (hm : m ∈ s.nodeList) (stop : ℕ)
    (hfit : max start hi + alignment + size < 2 ^ 32) :
    (checkFreeHole (clipStart start (s.holeNodeStart m)) (clipEnd stop (s.holeNodeEnd m)) size
        alignment = true ↔
        Request.FitsIn ⟨size, alignment, start, stop⟩ (s.holeNodeStart m) (s.holeNodeEnd m)) ∧
      (checkFreeHole (clipStart start (s.holeNodeStart m)) (clipEnd stop (s.holeNodeEnd m)) size
          alignment = true →
        Request.Allows ⟨size, alignment, start, stop⟩
            (alignUp (clipStart start (s.holeNodeStart m)) alignment) ∧
          s.holeNodeStart m ≤ alignUp (clipStart start (s.holeNodeStart m)) alignment ∧
          alignUp (clipStart start (s.holeNodeStart m)) alignment + size ≤ s.holeNodeEnd m) := by
  have hle := h.ordered m hm
  have hend := h.holeNodeEnd_le m
  obtain ⟨hlow, hhigh⟩ : clipStart start (s.holeNodeStart m) ≤ max start hi ∧
      clipEnd stop (s.holeNodeEnd m) ≤ hi := by
    rw [clipStart, clipEnd]
    constructor <;> split <;> omega
  apply Request.check_spec (r := ⟨size, alignment, start, stop⟩)
  · simp only
    omega
  · right
    simp only
    omega
  · exact fun x => clip_iff

theorem drmMmInsertNodeGeneric_spec (h : s.Inv lo hi) (hn : n ∉ s.nodeList) (hsize : 1 ≤ size)
    (hfit : hi + alignment < 2 ^ 32) :
    ∃ res, s.drmMmInsertNodeGeneric n size alignment = some res ∧
      Request.Answered ⟨size, alignment, 0, 2 ^ 32⟩ lo hi s n res := by
  rw [drmMmInsertNodeGeneric, drmMmSearchFreeGeneric, h.searchFree_stack]
  cases hfind : s.holeStack.find? _ with
  -- no hole is accepted
  | none =>
    refine ⟨_, rfl, .inr ⟨rfl, h.full_of_find (by omega) hsize ?_ hfind⟩⟩
    intro m hm x hx hstart hend
    exact (h.check_spec ((h.stack m).mp hm).1 hfit).1.mpr ⟨x, hx, hstart, hend⟩
  | some hole =>
    have hmem : hole ∈ s.holeStack := List.mem_of_find?_eq_some hfind
    have haccept := List.find?_some hfind
    obtain ⟨hallows, hstart, hend⟩ := (h.check_spec ((h.stack hole).mp hmem).1 hfit).2 haccept
    refine ⟨(s.place hole n (alignUp (s.holeNodeStart hole) alignment) size
      (decide (alignUp (s.holeNodeStart hole) alignment + size < s.holeNodeEnd hole)), true), ?_,
      h.answered_place (by omega) hsize hn hmem hallows hstart hend decide_eq_true_iff⟩
    exact congrArg (Option.map (·, true)) (h.drmMmInsertHelper_eq (by omega) hmem hn hend)

theorem drmMmInsertNodeInRangeGeneric_spec (h : s.Inv lo hi) (hn : n ∉ s.nodeList) (stop : ℕ)
    (hsize : 1 ≤ size) (hfit : max start hi + alignment + size < 2 ^ 32) :
    ∃ res, s.drmMmInsertNodeInRangeGeneric n size alignment start stop = some res ∧
      Request.Answered ⟨size, alignment, start, stop⟩ lo hi s n res := by
  rw [drmMmInsertNodeInRangeGeneric, drmMmSearchFreeInRangeGeneric, h.searchFree_stack]
  cases hfind : s.holeStack.find? _ with
  | none =>
    refine ⟨_, rfl, .inr ⟨rfl, h.full_of_find (by omega) hsize ?_ hfind⟩⟩
    intro m hm x hx hstart hend
    exact (h.checkRange_spec ((h.stack m).mp hm).1 stop hfit).1.mpr ⟨x, hx, hstart, hend⟩
  | some hole =>
    have hmem : hole ∈ s.holeStack := List.mem_of_find?_eq_some hfind
    have haccept := List.find?_some hfind
    obtain ⟨hallows, hstart, hend⟩ :=
      (h.checkRange_spec ((h.stack hole).mp hmem).1 stop hfit).2 haccept
    refine ⟨(s.place hole n (alignUp (clipStart start (s.holeNodeStart hole)) alignment) size
      (decide (alignUp (clipStart start (s.holeNodeStart hole)) alignment + size <
        s.holeNodeEnd hole)), true), ?_,
      h.answered_place (by omega) hsize hn hmem hallows hstart hend decide_eq_true_iff⟩
    exact congrArg (Option.map (·, true))
      (h.drmMmInsertHelperRange_eq (by omega) hmem hn hend hallows.2.2)

theorem drmMmCreateBlock_spec (h : s.Inv lo hi) (hhi : hi < 2 ^ 32) (hn : n ∉ s.nodeList)
    (hsize : 1 ≤ size) (hfit : start + size < 2 ^ 32) :
    ∃ res, s.drmMmCreateBlock (some n) start size = some res ∧
      Request.Answered ⟨size, 0, start, start + size⟩ lo hi s n res := by
  simp only [drmMmCreateBlock, Nat.mod_eq_of_lt hfit, h.searchFree_stack]
  cases hfind : s.holeStack.find? _ with
  | none =>
    refine ⟨_, rfl, .inr ⟨rfl, h.full_of_find hhi hsize ?_ hfind⟩⟩
    -- a block has no alignment, and one place only
    rintro m hm x ⟨-, hxstart, hxend⟩ hstart hend
    simp only at hxstart hxend hend
    simp only [decide_eq_true_eq]
    omega
  | some hole =>
    have hmem : hole ∈ s.holeStack := List.mem_of_find?_eq_some hfind
    have haccept := List.find?_some hfind
    simp only [decide_eq_true_eq] at haccept
    refine ⟨_, rfl, h.answered_place hhi hsize hn hmem (x := start)
      ⟨fun hzero => absurd rfl hzero, le_rfl, le_rfl⟩ (by omega) (by simp only; omega) ?_⟩
    simp only [decide_eq_true_eq]
    omega

theorem drmMmCreateBlock_none (h : s.Inv lo hi) :
    s.drmMmCreateBlock none start size = some (s, false) := by
  simp only [drmMmCreateBlock, h.searchFree_stack]
  cases s.holeStack.find? _ <;> rfl

end DrmMm

end NucKernel.Drm
