import NucKernel.Md.BadBlocks

/-!
# Queries of the bad-block list (`md_is_badblock`)

A binary search finds the last entry that starts before the end of the range, and a backward scan
visits the entries that end behind its start.

The end of the range is rounded up by adding `(1<<bb->shift) - 1`, which is an `int`, to a 64-bit
number. A shift of 32 or more and a range at the end of the 64-bit numbers give a wrong end.

## Modelling

- Numbers and shifts are as in `md_clear_badblocks`.
- The sequence lock is read once: a retry starts from the beginning.
- `first_bad` and `bad_sectors` are `none` while they have not been written.
-/

namespace NucKernel.Md.BadBlocks

/-! ## The query -/

structure Query where
  rv : ℤ
  bad : Option (ℕ × ℕ)
  deriving DecidableEq

/-- The body of the scan for an entry that overlaps the range -/
def note (x : BitVec 64) (r : Query) : Query :=
  ⟨if r.rv ≠ -1 ∧ bbAck x then 1 else -1, some (bbOffset x, bbLen x)⟩

def scanLoop (p : List (BitVec 64)) (s target : ℕ) : ℕ → Query → Query
  | 0, r => r
  | lo + 1, r =>
    let x := p.getD lo 0
    if bbOffset x + bbLen x > s then
      scanLoop p s target lo (if bbOffset x < target then note x r else r)
    else r

/-- `md_is_badblock` from the search on, for a range in the units of the table -/
def isBadRange (p : List (BitVec 64)) (s target : ℕ) : Query :=
  let (lo, hi) := search p fun a => a < target
  if hi > lo then scanLoop p s target (lo + 1) ⟨0, none⟩ else ⟨0, none⟩

variable (wide : Wide)

def mdIsBadblock (bb : Badblocks) (s : BitVec 64) (sectors : ℕ) : Query :=
  let target := s + BitVec.ofNat 64 sectors
  if bb.shift > 0 then
    let shift := bb.shift.toNat
    isBadRange bb.page (wide.shiftRight s shift).toNat
      (wide.shiftRight (target + wide.ones shift) shift).toNat
  else isBadRange bb.page s.toNat target.toNat

/-! ## What it should return -/

def Overlaps (s target : ℕ) (x : BitVec 64) : Prop :=
  bbOffset x < target ∧ s < bbOffset x + bbLen x

instance (s target : ℕ) (x : BitVec 64) : Decidable (Overlaps s target x) :=
  inferInstanceAs (Decidable (_ ∧ _))

/-- The result for the range from `s` to below `target` -/
structure QueryOk (p : List (BitVec 64)) (s target : ℕ) (r : Query) : Prop where
  good : r.rv = 0 ↔ ∀ x ∈ p, ¬ Overlaps s target x
  unacked : r.rv = -1 ↔ ∃ x ∈ p, Overlaps s target x ∧ bbAck x = false
  acked : r.rv = 1 ↔ (∃ x ∈ p, Overlaps s target x) ∧ ∀ x ∈ p, Overlaps s target x → bbAck x = true
  first : r.rv ≠ 0 → ∃ x ∈ p, Overlaps s target x ∧ r.bad = some (bbOffset x, bbLen x) ∧
    ∀ y ∈ p, Overlaps s target y → bbOffset x ≤ bbOffset y

/-! ## The scan -/

variable {p : List (BitVec 64)} {s target : ℕ}

theorem filter_overlaps_eq_nil {front : List (BitVec 64)} {x : BitVec 64}
    (hsorted : Sorted (front ++ [x])) (hx : bbOffset x + bbLen x ≤ s) :
    front.filter (Overlaps s target) = [] := by
  rw [List.filter_eq_nil_iff]
  intro y hy hoverlaps
  have hbefore := (List.pairwise_append.mp (sorted_iff.mp hsorted)).2.2 y hy x (by simp)
  have hend := (of_decide_eq_true hoverlaps).2
  omega

theorem scanLoop_eq {n : ℕ} (hn : n ≤ p.length) (hsorted : Sorted (p.take n)) (r : Query) :
    scanLoop p s target n r = ((p.take n).filter (Overlaps s target)).foldr note r := by
  induction n generalizing r with
  | zero => rfl
  | succ n ih =>
    have htake : p.take (n + 1) = p.take n ++ [p[n]] := (List.take_concat_get' p n hn).symm
    have hleft : Sorted (p.take n) := by
      rw [htake, Sorted, List.map_append] at hsorted
      exact hsorted.left
    rw [htake] at hsorted ⊢
    simp only [scanLoop, List.getD_eq_getElem _ _ hn]
    rw [List.filter_append, List.foldr_append]
    split_ifs with hend hstart
    · -- the entry overlaps the range and is noted
      have hoverlaps : Overlaps s target p[n] := ⟨hstart, hend⟩
      rw [ih (Nat.le_of_lt hn) hleft]
      simp [hoverlaps]
    · -- it starts behind the range
      have hnot : ¬ Overlaps s target p[n] := fun h => hstart h.1
      rw [ih (Nat.le_of_lt hn) hleft]
      simp [hnot]
    · -- the scan stops: the entries before this one end even earlier
      have hnot : ¬ Overlaps s target p[n] := fun h => hend h.2
      rw [filter_overlaps_eq_nil hsorted (Nat.le_of_not_lt hend)]
      simp [hnot]

theorem isBadRange_eq (hsorted : Sorted p) :
    isBadRange p s target = (p.filter (Overlaps s target)).foldr note ⟨0, none⟩ := by
  by_cases hp : p = []
  · subst hp
    rfl
  obtain ⟨front, w, back, rfl, hsearch, hback, -⟩ :=
    search_spec hsorted (before_target target) hp
  have htake : (front ++ w :: back).take (front.length + 1) = front ++ [w] := by
    rw [List.append_cons, List.take_left' (by simp)]
  have hprefix : Sorted (front ++ [w]) := by
    rw [Sorted, List.append_cons, List.map_append] at hsorted
    exact hsorted.left
  -- the entries behind the place of the search start behind the range
  have hnone : back.filter (Overlaps s target) = [] := by
    rw [List.filter_eq_nil_iff]
    intro x hx hoverlaps
    have hstart := (of_decide_eq_true hoverlaps).1
    have hbehind := of_decide_eq_false (hback x hx)
    omega
  have hfilter : (front ++ w :: back).filter (Overlaps s target) =
      (front ++ [w]).filter (Overlaps s target) := by
    rw [List.append_cons, List.filter_append (front ++ [w]), hnone, List.append_nil]
  rw [isBadRange, hsearch]
  dsimp only
  rw [if_pos (Nat.lt_succ_self _), scanLoop_eq (by simp) (by rwa [htake]), htake, hfilter]

/-! ## The fold -/

theorem foldr_note_rv (l : List (BitVec 64)) :
    (l.foldr note ⟨0, none⟩).rv =
      if l = [] then 0 else if ∃ x ∈ l, bbAck x = false then -1 else 1 := by
  induction l with
  | nil => rfl
  | cons x l ih =>
    rw [List.foldr_cons, note, ih]
    by_cases hl : l = []
    · subst hl
      -- the entry is the last one to be visited
      cases hx : bbAck x <;> simp [hx]
    · cases hx : bbAck x <;> by_cases hun : ∃ y ∈ l, bbAck y = false <;> simp [hx, hl, hun]

theorem foldr_note_bad (l : List (BitVec 64)) :
    (l.foldr note ⟨0, none⟩).bad = l.head?.map fun x => (bbOffset x, bbLen x) := by
  cases l <;> rfl

theorem isBadRange_ok (hsorted : Sorted p) : QueryOk p s target (isBadRange p s target) := by
  have hmem (x : BitVec 64) : x ∈ p.filter (Overlaps s target) ↔ x ∈ p ∧ Overlaps s target x := by
    simp
  rw [isBadRange_eq hsorted]
  generalize hl : p.filter (Overlaps s target) = l at hmem
  have hnil : l = [] ↔ ∀ x ∈ p, ¬ Overlaps s target x := by
    rw [List.eq_nil_iff_forall_not_mem]
    simp only [hmem, not_and]
  have hunacked : (∃ x ∈ l, bbAck x = false) ↔ ∃ x ∈ p, Overlaps s target x ∧ bbAck x = false := by
    simp only [hmem, and_assoc]
  have hrv := foldr_note_rv l
  constructor
  case good =>
    rw [hrv, ← hnil]
    split_ifs with hempty <;> simp [hempty]
  case unacked =>
    rw [hrv, ← hunacked]
    split_ifs with hempty hun
    · simp [hempty]
    · simp [hun]
    · simp [hun]
  case acked =>
    have hall : (∀ x ∈ p, Overlaps s target x → bbAck x = true) ↔ ¬ ∃ x ∈ l, bbAck x = false := by
      simp [hmem]
    have hsome : (∃ x ∈ p, Overlaps s target x) ↔ l ≠ [] := by
      rw [ne_eq, hnil]
      simp
    rw [hrv, hall, hsome]
    split_ifs with hempty hun
    · simp [hempty]
    · simp [hun]
    · simp [hempty, hun]
  case first =>
    intro hne
    cases l with
    | nil => exact absurd hrv hne
    | cons x l =>
      obtain ⟨hx, hoverlaps⟩ := (hmem x).mp List.mem_cons_self
      refine ⟨x, hx, hoverlaps, foldr_note_bad (x :: l), fun y hy hyoverlaps => ?_⟩
      -- the entries that overlap are in order
      have hpairs : (x :: l).Pairwise fun v w => bbOffset v + bbLen v ≤ bbOffset w := by
        rw [← hl]
        exact (sorted_iff.mp hsorted).sublist List.filter_sublist
      rcases List.mem_cons.mp ((hmem y).mpr ⟨hy, hyoverlaps⟩) with rfl | hyl
      · exact Nat.le_refl _
      · have hxy := (List.pairwise_cons.mp hpairs).1 y hyl
        omega

/-! ## Rounding -/

def IsFirst (p : List (BitVec 64)) (s target : ℕ) (x : BitVec 64) : Prop :=
  Overlaps s target x ∧ ∀ y ∈ p, Overlaps s target y → bbOffset x ≤ bbOffset y

/-- Two ranges have the same lowest entry, and an unacknowledged one both or neither. -/
structure SameAnswer (p : List (BitVec 64)) (s target s' target' : ℕ) : Prop where
  first : ∀ x ∈ p, (IsFirst p s target x ↔ IsFirst p s' target' x)
  unacked : (∃ x ∈ p, Overlaps s target x ∧ bbAck x = false) ↔
    ∃ x ∈ p, Overlaps s' target' x ∧ bbAck x = false

section Answers

variable {s' target' : ℕ} {r : Query}

theorem SameAnswer.of_overlaps
    (hsame : ∀ x ∈ p, (Overlaps s target x ↔ Overlaps s' target' x)) :
    SameAnswer p s target s' target' := by
  refine ⟨fun x hx => ?_, ?_⟩
  · exact and_congr (hsame x hx) (forall₂_congr fun y hy => by rw [hsame y hy])
  · exact exists_congr fun x => and_congr_right fun hx => by rw [hsame x hx]

theorem eq_of_bbOffset_eq (hsorted : Sorted p) {x y : BitVec 64} (hx : x ∈ p) (hy : y ∈ p)
    (h : bbOffset x = bbOffset y) : x = y := by
  have hpairs := List.pairwise_iff_getElem.mp (sorted_iff.mp hsorted)
  obtain ⟨i, hi, rfl⟩ := List.mem_iff_getElem.mp hx
  obtain ⟨j, hj, rfl⟩ := List.mem_iff_getElem.mp hy
  have hposi := bbLen_pos p[i]
  have hposj := bbLen_pos p[j]
  rcases Nat.lt_trichotomy i j with hlt | rfl | hlt
  · have := hpairs i j hi hj hlt
    omega
  · rfl
  · have := hpairs j i hj hi hlt
    omega

theorem QueryOk.rv_ne_iff (hok : QueryOk p s target r) :
    r.rv ≠ 0 ↔ ∃ x ∈ p, IsFirst p s target x := by
  refine ⟨fun hne => ?_, ?_⟩
  · obtain ⟨x, hx, hoverlaps, -, hlow⟩ := hok.first hne
    exact ⟨x, hx, hoverlaps, hlow⟩
  · rintro ⟨x, hx, hoverlaps, -⟩ hrv
    exact hok.good.mp hrv x hx hoverlaps

theorem QueryOk.isFirst_iff (hsorted : Sorted p) (hok : QueryOk p s target r) {x : BitVec 64}
    (hx : x ∈ p) :
    IsFirst p s target x ↔ r.rv ≠ 0 ∧ r.bad = some (bbOffset x, bbLen x) := by
  constructor
  · intro hfirst
    have hne := hok.rv_ne_iff.mpr ⟨x, hx, hfirst⟩
    obtain ⟨y, hy, hoverlaps, hbad, hlow⟩ := hok.first hne
    -- two lowest entries start at the same sector
    have heq := Nat.le_antisymm (hfirst.2 y hy hoverlaps) (hlow x hx hfirst.1)
    rw [eq_of_bbOffset_eq hsorted hx hy heq]
    exact ⟨hne, hbad⟩
  · rintro ⟨hne, hbad⟩
    obtain ⟨y, hy, hoverlaps, hbad', hlow⟩ := hok.first hne
    have hpair := Option.some.inj (hbad.symm.trans hbad')
    rw [eq_of_bbOffset_eq hsorted hx hy (congrArg Prod.fst hpair)]
    exact ⟨hoverlaps, hlow⟩

theorem QueryOk.rv_cases (hok : QueryOk p s target r) : r.rv = 0 ∨ r.rv = -1 ∨ r.rv = 1 := by
  by_cases hany : ∃ x ∈ p, Overlaps s target x
  · by_cases hun : ∃ x ∈ p, Overlaps s target x ∧ bbAck x = false
    · exact .inr (.inl (hok.unacked.mpr hun))
    · refine .inr (.inr (hok.acked.mpr ⟨hany, fun x hx hoverlaps => ?_⟩))
      rw [← Bool.not_eq_false]
      exact fun hack => hun ⟨x, hx, hoverlaps, hack⟩
  · exact .inl (hok.good.mpr fun x hx hoverlaps => hany ⟨x, hx, hoverlaps⟩)

/-- A result that is right for a range is right for another one exactly if they agree. -/
theorem QueryOk.iff_sameAnswer (hsorted : Sorted p) (hok : QueryOk p s target r) :
    QueryOk p s' target' r ↔ SameAnswer p s target s' target' := by
  constructor
  · intro hok'
    exact ⟨fun x hx => (hok.isFirst_iff hsorted hx).trans (hok'.isFirst_iff hsorted hx).symm,
      hok.unacked.symm.trans hok'.unacked⟩
  · intro hsame
    -- the result is compared with that of a scan of the other range
    have hok' : QueryOk p s' target' (isBadRange p s' target') := isBadRange_ok hsorted
    have hsome := exists_congr fun x => and_congr_right (hsame.first x)
    have hzero := not_iff_not.mp (hok.rv_ne_iff.trans (hsome.trans hok'.rv_ne_iff.symm))
    have hminus := hok.unacked.trans (hsame.unacked.trans hok'.unacked.symm)
    have hrv : r.rv = (isBadRange p s' target').rv := by
      have hr := hok.rv_cases
      have hr' := hok'.rv_cases
      omega
    refine ⟨hrv ▸ hok'.good, hrv ▸ hok'.unacked, hrv ▸ hok'.acked, fun hne => ?_⟩
    obtain ⟨x, hx, hoverlaps, hbad, hlow⟩ := hok.first hne
    obtain ⟨hoverlaps', hlow'⟩ := (hsame.first x hx).mp ⟨hoverlaps, hlow⟩
    exact ⟨x, hx, hoverlaps', hbad, hlow'⟩

end Answers

/-- The end of the range can be rounded up. -/
def Roundable (shift : ℤ) (s : BitVec 64) (sectors : ℕ) : Prop :=
  shift > 0 → s.toNat + sectors + 2 ^ shift.toNat ≤ 2 ^ 64

def roundedEnd (shift : ℕ) (s : BitVec 64) (sectors : ℕ) : ℕ :=
  (wide.shiftRight (s + BitVec.ofNat 64 sectors + wide.ones shift) shift).toNat

theorem roundedEnd_eq {n : ℕ} (hn : n < 32) (s : BitVec 64) (sectors : ℕ) :
    roundedEnd wide n s sectors = (s.toNat + sectors + (2 ^ n - 1)) % 2 ^ 64 / 2 ^ n := by
  rw [roundedEnd, toNat_shiftRight wide (by omega), BitVec.toNat_add, BitVec.toNat_add,
    toNat_ones wide hn, BitVec.toNat_ofNat, Nat.add_mod_mod, Nat.mod_add_mod]

theorem not_overlaps_wrapped {n sectors : ℕ} {s : BitVec 64} (hn : n < 32)
    (hsectors : sectors < 2 ^ 31) (hwrap : 2 ^ 64 < s.toNat + sectors + 2 ^ n) (x : BitVec 64) :
    ¬ Overlaps (s.toNat / 2 ^ n) (roundedEnd wide n s sectors) x := by
  rintro ⟨hbelow, habove⟩
  have hlen := bbLen_le x
  have hs := s.isLt
  have hpos := Nat.two_pow_pos n
  have hmax : 2 ^ n ≤ 2 ^ 31 := Nat.pow_le_pow_right (by decide) (by omega)
  have hmod : (s.toNat + sectors + (2 ^ n - 1)) % 2 ^ 64 =
      s.toNat + sectors + (2 ^ n - 1) - 2 ^ 64 := by omega
  rw [roundedEnd_eq wide hn, hmod] at hbelow
  -- the start is 512 units and more behind the end
  have hfar := Nat.div_le_div_right (c := 2 ^ n)
    (show s.toNat + sectors + (2 ^ n - 1) - 2 ^ 64 + 512 * 2 ^ n ≤ s.toNat by omega)
  rw [Nat.add_mul_div_right _ _ hpos] at hfar
  omega

/-- The query is right: for a defined shift, the end can be rounded up or there is nothing to find,
    and for any other one the range that comes out has the same answer. -/
def Answered (bb : Badblocks) (s : BitVec 64) (sectors : ℕ) : Prop :=
  let n := bb.shift.toNat
  let stop := (s.toNat + sectors + (2 ^ n - 1)) / 2 ^ n
  if n < 32 then
    Roundable bb.shift s sectors ∨ ∀ x ∈ bb.page, ¬ Overlaps (s.toNat / 2 ^ n) stop x
  else
    SameAnswer bb.page (wide.shiftRight s n).toNat (roundedEnd wide n s sectors)
      (s.toNat / 2 ^ n) stop

/-- **Queries**: the result is that of the entries which overlap the range rounded outwards, exactly
    under this condition. -/
theorem mdIsBadblock_iff (bb : Badblocks) (hsorted : Sorted bb.page) (s : BitVec 64) {sectors : ℕ}
    (hsectors : sectors < 2 ^ 31) :
    QueryOk bb.page (s.toNat / 2 ^ bb.shift.toNat)
        ((s.toNat + sectors + (2 ^ bb.shift.toNat - 1)) / 2 ^ bb.shift.toNat)
        (mdIsBadblock wide bb s sectors) ↔
      Answered wide bb s sectors := by
  have hpow := Nat.one_le_two_pow (n := bb.shift.toNat)
  rw [Answered]
  by_cases hpos : bb.shift > 0
  · have hquery : mdIsBadblock wide bb s sectors = isBadRange bb.page
        (wide.shiftRight s bb.shift.toNat).toNat (roundedEnd wide bb.shift.toNat s sectors) :=
      if_pos hpos
    rw [hquery, (isBadRange_ok hsorted).iff_sameAnswer hsorted]
    split
    · rename_i hn
      rw [toNat_shiftRight wide (by omega)]
      by_cases hround : s.toNat + sectors + 2 ^ bb.shift.toNat ≤ 2 ^ 64
      · -- the end is rounded as it should be
        refine iff_of_true ?_ (.inl fun _ => hround)
        rw [roundedEnd_eq wide hn, Nat.mod_eq_of_lt (by omega)]
        exact .of_overlaps fun _ _ => Iff.rfl
      · -- nothing is found, which is right if there is nothing to find
        have hnone := not_overlaps_wrapped wide hn hsectors (not_le.mp hround)
        rw [or_iff_right fun h => hround (h hpos)]
        constructor
        · intro hsame
          have hok := ((isBadRange_ok hsorted).iff_sameAnswer hsorted).mpr hsame
          exact hok.good.mp ((isBadRange_ok hsorted).good.mpr fun x _ => hnone x)
        · intro hgood
          exact .of_overlaps fun x hx => iff_of_false (hnone x) (hgood x hx)
    · exact Iff.rfl
  · -- without a shift nothing is rounded
    have hzero : bb.shift.toNat = 0 := by omega
    have hquery : mdIsBadblock wide bb s sectors = isBadRange bb.page s.toNat
        (s + BitVec.ofNat 64 sectors).toNat := if_neg hpos
    rw [hquery, hzero, if_pos (by decide)]
    refine iff_of_true ?_ (.inl fun h => absurd h hpos)
    simp only [Nat.pow_zero, Nat.div_one, Nat.sub_self, Nat.add_zero]
    refine ((isBadRange_ok hsorted).iff_sameAnswer hsorted).mpr (.of_overlaps fun x _ => ?_)
    -- without rounding, a range that goes beyond the 64-bit numbers is behind all entries
    have hoffset := bbOffset_lt x
    have hlen := bbLen_le x
    rw [BitVec.toNat_add, BitVec.toNat_ofNat, Nat.add_mod_mod, Overlaps, Overlaps]
    by_cases hwrap : s.toNat + sectors < 2 ^ 64
    · rw [Nat.mod_eq_of_lt hwrap]
    · constructor <;> intro h <;> omega

/-- Entries for the blocks 1 and 2, acknowledged, and 5, not acknowledged, in units of 8 sectors -/
def threeBlocks : Badblocks := ⟨[bbMake 1 2 true, bbMake 5 1 false], 3, false, false⟩

theorem mdIsBadblock_iff_threeBlocks :
    mdIsBadblock ⟨fun _ => 0, fun _ _ => 0⟩ threeBlocks 20 21 = ⟨-1, some (1, 2)⟩ ∧
      QueryOk threeBlocks.page (20 / 2 ^ 3) ((20 + 21 + (2 ^ 3 - 1)) / 2 ^ 3)
        (mdIsBadblock ⟨fun _ => 0, fun _ _ => 0⟩ threeBlocks 20 21) := by
  refine ⟨by decide, ?_⟩
  have hround : Answered ⟨fun _ => 0, fun _ _ => 0⟩ threeBlocks 20 21 := .inl fun _ => by decide
  exact (mdIsBadblock_iff _ threeBlocks (sorted_iff.mpr (by decide)) 20 (by decide)).mpr hround

/-- Entries that overlap the range and are not found: with a shift of 32, whether `1<<32` is 0 or 1,
    and with a range at the end of the 64-bit numbers -/
theorem wide_shift_missed :
    (∀ one ∈ [0#32, 1#32], ¬ QueryOk [bbMake 0 1 true] 0 1
      (mdIsBadblock ⟨fun _ => one, fun _ _ => 0⟩ ⟨[bbMake 0 1 true], 32, false, false⟩ 0 1)) ∧
      ¬ QueryOk [bbMake (2 ^ 52 - 1) 1 true] (2 ^ 52 - 1) (2 ^ 52)
        (mdIsBadblock ⟨fun _ => 0, fun _ _ => 0⟩ ⟨[bbMake (2 ^ 52 - 1) 1 true], 12, false, false⟩
          (2 ^ 64 - 1) 1) := by
  constructor
  · -- the rounded end is 0
    have hend : ∀ one ∈ [0#32, 1#32],
        ((0#64 + BitVec.ofNat 64 1 + (one - 1#32).signExtend 64) >>> 32).toNat = 0 := by
      simp
    have hempty : (isBadRange [bbMake 0 1 true] 0 0).rv = 0 := by decide
    intro one hone h
    have hrv : (mdIsBadblock ⟨fun _ => one, fun _ _ => 0⟩ ⟨[bbMake 0 1 true], 32, false, false⟩
        0 1).rv = 0 := by
      show (isBadRange [bbMake 0 1 true] 0
        ((0#64 + BitVec.ofNat 64 1 + (one - 1#32).signExtend 64) >>> 32).toNat).rv = 0
      rw [hend one hone]
      exact hempty
    exact h.good.mp hrv _ (List.mem_singleton_self _) (by decide)
  · intro h
    exact h.good.mp (by decide +kernel) _ (List.mem_singleton_self _) (by decide +kernel)

end NucKernel.Md.BadBlocks
