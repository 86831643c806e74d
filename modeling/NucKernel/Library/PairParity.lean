import Mathlib.Algebra.BigOperators.Ring.Finset
import Mathlib.Algebra.Order.BigOperators.Group.Finset
import Mathlib.Algebra.Ring.BooleanRing
import Mathlib.Data.Fintype.BigOperators
import Mathlib.Data.Nat.Bitwise

/-!
# Pair parity codes

The bits of a block have addresses of `n` bits. For every address bit there is a pair of check bits:
the parity of the bits whose address has a 0 there, and the parity of those whose address has a 1.
An error in a bit of the block changes one check bit of every pair, and tells its address. Two
errors leave a pair of which both or none has changed.

- `bitSum` - a sum over the addresses with a given bit, and how it is computed in rows
- `check` / `decode` - the check bits, and the verdict on a difference of check bits
- `decode_single` / `decode_double` - one error is located, two are detected

Bits are summed in the Boolean ring `Bool`, where `+` is exclusive or.
-/

namespace NucKernel.Library.PairParity

open Finset

universe u

/-! ## Sums over addresses -/

section Sums

variable {M : Type u} [AddCommMonoid M] (f : ℕ → M)

theorem sum_range_mul (m n : ℕ) :
    ∑ A ∈ range (m * n), f A = ∑ a ∈ range n, ∑ j ∈ range m, f (m * a + j) := by
  induction n with
  | zero => simp
  | succ n ih => rw [Nat.mul_succ, sum_range_add, ih, sum_range_succ]

/-- The sum over the addresses below `N` whose bit `q` is `v` -/
def bitSum (N q : ℕ) (v : Bool) : M := ∑ A ∈ range N with A.testBit q = v, f A

variable (q : ℕ) (v : Bool)

theorem bitSum_eq_sum (N : ℕ) :
    bitSum f N q v = ∑ A ∈ range N, if A.testBit q = v then f A else 0 := sum_filter _ _

theorem bitSum_congr {f g : ℕ → M} {N : ℕ} (h : ∀ A < N, f A = g A) :
    bitSum f N q v = bitSum g N q v :=
  sum_congr rfl fun A hA => h A (mem_range.mp (mem_filter.mp hA).1)

theorem bitSum_low {m : ℕ} (N : ℕ) (h : q < m) :
    bitSum f (2 ^ m * N) q v = ∑ a ∈ range N, bitSum (fun j => f (2 ^ m * a + j)) (2 ^ m) q v := by
  simp only [bitSum_eq_sum, sum_range_mul]
  refine sum_congr rfl fun a _ => sum_congr rfl fun j hj => ?_
  rw [Nat.testBit_two_pow_mul_add a (mem_range.mp hj), if_pos h]

theorem bitSum_high {m : ℕ} (N : ℕ) (h : m ≤ q) :
    bitSum f (2 ^ m * N) q v =
      bitSum (fun a => ∑ j ∈ range (2 ^ m), f (2 ^ m * a + j)) N (q - m) v := by
  simp only [bitSum_eq_sum, sum_range_mul]
  refine sum_congr rfl fun a _ => ?_
  have hbit : ∀ j ∈ range (2 ^ m), (2 ^ m * a + j).testBit q = a.testBit (q - m) := by
    intro j hj
    rw [Nat.testBit_two_pow_mul_add a (mem_range.mp hj), if_neg (by omega)]
  rw [sum_congr rfl fun j hj => by rw [hbit j hj], sum_ite_irrel, sum_const_zero]

theorem bitSum_add_bitSum (N : ℕ) :
    bitSum f N q false + bitSum f N q true = ∑ A ∈ range N, f A := by
  rw [← sum_filter_add_sum_filter_not (range N) (fun A => A.testBit q = false)]
  simp [bitSum]

theorem bitSum_sum (N : ℕ) (s : Finset ℕ) (g : ℕ → ℕ → M) :
    bitSum (fun a => ∑ j ∈ s, g a j) N q v = ∑ j ∈ s, bitSum (fun a => g a j) N q v := sum_comm

end Sums

theorem sum_add_bitSum_false (f : ℕ → Bool) (N q : ℕ) :
    ∑ A ∈ range N, f A + bitSum f N q false = bitSum f N q true := by
  rw [← bitSum_add_bitSum f q N, add_right_comm, BooleanRing.add_self, zero_add]

/-! ## The code -/

/-- A check bit of a block of `2 ^ n` bits -/
def check (n : ℕ) (d : ℕ → Bool) (q : ℕ) (v : Bool) : Bool := bitSum d (2 ^ n) q v

inductive Cell
  | data (addr : ℕ)
  | check (q : ℕ) (v : Bool)
  deriving DecidableEq

namespace Cell

def Valid (n : ℕ) : Cell → Prop
  | data addr => addr < 2 ^ n
  | check q _ => q < n

/-- The check bits that differ after an error in one cell -/
def syndrome : Cell → ℕ → Bool → Bool
  | data addr, q, v => addr.testBit q == v
  | check p w, q, v => decide (q = p) && v == w

end Cell

/-- What a difference of check bits means -/
inductive Verdict
  | clean
  | data (addr : ℕ)
  | check
  | bad

def differing (n : ℕ) (s : ℕ → Bool → Bool) : Finset (ℕ × Bool) :=
  {c ∈ range n ×ˢ univ | s c.1 c.2 = true}

def decode (n : ℕ) (s : ℕ → Bool → Bool) : Verdict :=
  if ∀ q < n, ∀ v, s q v = false then .clean
  -- one check bit of every pair: together they spell an address
  else if ∀ q < n, s q false ≠ s q true then
    .data (∑ q ∈ range n, (s q true).toNat * 2 ^ q)
  else if (differing n s).card = 1 then .check
  else .bad

section Code

variable {n : ℕ} {s : ℕ → Bool → Bool}

theorem check_flip {d : ℕ → Bool} {addr : ℕ} (h : addr < 2 ^ n) (q : ℕ) (v : Bool) :
    check n (fun a => d a ^^ decide (a = addr)) q v =
      (check n d q v ^^ (Cell.data addr).syndrome q v) := by
  have hterm : ∀ a, (d a ^^ decide (a = addr)) = d a + if a = addr then 1 else 0 := by
    intro a
    by_cases ha : a = addr <;> simp [ha, Bool.add_eq_xor, Bool.one_eq_true, Bool.zero_eq_false]
  -- of the error only the check bits of its address see anything
  have herror : (∑ a ∈ range (2 ^ n) with a.testBit q = v, if a = addr then (1 : Bool) else 0) =
      (addr.testBit q == v) := by
    rw [sum_ite_eq']
    by_cases hbit : addr.testBit q = v <;>
      simp [h, hbit, Bool.one_eq_true, Bool.zero_eq_false]
  simp only [check, bitSum, hterm, sum_add_distrib, herror]
  rfl

theorem mem_differing {q : ℕ} {v : Bool} : (q, v) ∈ differing n s ↔ q < n ∧ s q v = true := by
  simp [differing]

theorem card_differing :
    (differing n s).card = ∑ q ∈ range n, ((s q false).toNat + (s q true).toNat) := by
  rw [differing, card_filter, sum_product]
  refine sum_congr rfl fun q _ => ?_
  rw [Fintype.sum_bool]
  cases s q false <;> cases s q true <;> rfl

theorem sum_testBit {addr : ℕ} (h : addr < 2 ^ n) :
    ∑ q ∈ range n, (addr.testBit q).toNat * 2 ^ q = addr := by
  suffices hmod : ∀ m, ∑ q ∈ range m, (addr.testBit q).toNat * 2 ^ q = addr % 2 ^ m by
    rw [hmod, Nat.mod_eq_of_lt h]
  intro m
  induction m with
  | zero => simp [Nat.mod_one]
  | succ m ih => rw [sum_range_succ, ih, Nat.mod_pow_succ, Nat.toNat_testBit, Nat.mul_comm (2 ^ m)]

theorem decode_congr {s' : ℕ → Bool → Bool} (h : ∀ q < n, ∀ v, s q v = s' q v) :
    decode n s = decode n s' := by
  have hzero : (∀ q < n, ∀ v, s q v = false) ↔ ∀ q < n, ∀ v, s' q v = false :=
    forall₂_congr fun q hq => forall_congr' fun v => by rw [h q hq v]
  have hpairs : (∀ q < n, s q false ≠ s q true) ↔ ∀ q < n, s' q false ≠ s' q true :=
    forall₂_congr fun q hq => by rw [h q hq, h q hq]
  have hsum : ∑ q ∈ range n, (s q true).toNat * 2 ^ q = ∑ q ∈ range n, (s' q true).toNat * 2 ^ q :=
    sum_congr rfl fun q hq => by rw [h q (mem_range.mp hq)]
  have hdiffer : differing n s = differing n s' := by
    ext ⟨q, v⟩
    simp only [mem_differing]
    exact and_congr_right fun hq => by rw [h q hq]
  simp only [decode, hzero, hpairs, hsum, hdiffer]

/-- **One error is located.** -/
theorem decode_data {addr : ℕ} (hn : 0 < n) (h : addr < 2 ^ n) :
    decode n (Cell.data addr).syndrome = .data addr := by
  have hset : ¬ ∀ q < n, ∀ v, (Cell.data addr).syndrome q v = false := by
    intro hall
    simpa [Cell.syndrome] using hall 0 hn (addr.testBit 0)
  have hpairs : ∀ q < n, (Cell.data addr).syndrome q false ≠ (Cell.data addr).syndrome q true := by
    intro q _
    simp [Cell.syndrome]
  rw [decode, if_neg hset, if_pos hpairs]
  simp [Cell.syndrome, sum_testBit h]

/-- A single check bit is recognised, as the other pairs have not changed. -/
theorem decode_check {p : ℕ} {w : Bool} (hn : 2 ≤ n) (h : p < n) :
    decode n (Cell.check p w).syndrome = .check := by
  -- the check bit itself differs
  have hset : ¬ ∀ q < n, ∀ v, (Cell.check p w).syndrome q v = false := by
    intro hall
    simpa [Cell.syndrome] using hall p h w
  have hpairs :
      ¬ ∀ q < n, (Cell.check p w).syndrome q false ≠ (Cell.check p w).syndrome q true := by
    intro hall
    -- there is another pair, and none of its bits differs
    obtain ⟨q, hq, hne⟩ : ∃ q < n, q ≠ p := by
      rcases Nat.eq_zero_or_pos p with rfl | hpos
      · exact ⟨1, hn, by decide⟩
      · exact ⟨0, by omega, by omega⟩
    exact hall q hq (by simp [Cell.syndrome, hne])
  have hcard : (differing n (Cell.check p w).syndrome).card = 1 := by
    rw [card_eq_one]
    refine ⟨(p, w), ext fun ⟨q, v⟩ => ?_⟩
    rw [mem_differing, mem_singleton, Prod.mk.injEq]
    simp only [Cell.syndrome, Bool.and_eq_true, decide_eq_true_eq, beq_iff_eq]
    exact ⟨fun hmem => hmem.2, fun heq => ⟨heq.1 ▸ h, heq⟩⟩
  rw [decode, if_neg hset, if_neg hpairs, if_pos hcard]

/-- Two check bits have changed, and there is a pair of which not just one has. -/
theorem decode_bad {q : ℕ} {c d : ℕ × Bool} (hq : q < n) (hpair : s q false = s q true)
    (hc : c ∈ differing n s) (hd : d ∈ differing n s) (hne : c ≠ d) : decode n s = .bad := by
  have hset : ¬ ∀ q < n, ∀ v, s q v = false := by
    intro hall
    obtain ⟨hlt, htrue⟩ := mem_differing.mp hc
    rw [hall c.1 hlt c.2] at htrue
    cases htrue
  have hcard : (differing n s).card ≠ 1 := by
    have := one_lt_card.mpr ⟨c, hc, d, hd, hne⟩
    omega
  rw [decode, if_neg hset, if_neg fun hall => hall q hq hpair, if_neg hcard]

theorem decode_two_data {a b : ℕ} (ha : a < 2 ^ n) (hb : b < 2 ^ n) (hne : a ≠ b) :
    decode n (fun q v => (Cell.data a).syndrome q v ^^ (Cell.data b).syndrome q v) = .bad := by
  obtain ⟨q, hbit⟩ := Nat.exists_testBit_ne_of_ne hne
  -- the addresses have no bits beyond the width
  have hq : q < n := by
    by_contra hge
    have hpow : 2 ^ n ≤ 2 ^ q := Nat.pow_le_pow_right (by decide) (by omega)
    rw [Nat.testBit_lt_two_pow (by omega), Nat.testBit_lt_two_pow (by omega)] at hbit
    exact hbit rfl
  -- both check bits of the pair have changed
  have hset : ∀ v, ((Cell.data a).syndrome q v ^^ (Cell.data b).syndrome q v) = true := by
    intro v
    simp only [Cell.syndrome]
    revert hbit
    cases a.testBit q <;> cases b.testBit q <;> cases v <;> decide
  refine decode_bad hq ?_ (mem_differing.mpr ⟨hq, hset false⟩) (mem_differing.mpr ⟨hq, hset true⟩)
    (by simp)
  rw [hset, hset]

theorem decode_data_check {addr p : ℕ} {w : Bool} (hn : 3 ≤ n) (hp : p < n) :
    decode n (fun q v => (Cell.data addr).syndrome q v ^^ (Cell.check p w).syndrome q v) =
      .bad := by
  -- there are two other pairs
  obtain ⟨q, r, hq, hr, hqr, hqp, hrp⟩ :
      ∃ q r, q < n ∧ r < n ∧ q ≠ r ∧ q ≠ p ∧ r ≠ p := by
    rcases p with _ | _ | p
    · exact ⟨1, 2, by omega, by omega, by omega, by omega, by omega⟩
    · exact ⟨0, 2, by omega, by omega, by omega, by omega, by omega⟩
    · exact ⟨0, 1, by omega, by omega, by omega, by omega, by omega⟩
  -- in the other pairs the check bit of the address has changed
  have hset : ∀ r ≠ p, ((Cell.data addr).syndrome r (addr.testBit r) ^^
      (Cell.check p w).syndrome r (addr.testBit r)) = true := by
    intro r hr
    simp [Cell.syndrome, hr]
  refine decode_bad hp ?_ (mem_differing.mpr ⟨hq, hset q hqp⟩) (mem_differing.mpr ⟨hr, hset r hrp⟩)
    (by simp [hqr])
  simp only [Cell.syndrome]
  cases addr.testBit p <;> cases w <;> simp

theorem decode_two_check {p p' : ℕ} {w w' : Bool} (hn : 3 ≤ n) (hp : p < n) (hp' : p' < n)
    (hne : ¬ (p = p' ∧ w = w')) :
    decode n (fun q v => (Cell.check p w).syndrome q v ^^ (Cell.check p' w').syndrome q v) =
      .bad := by
  -- there is a pair without a change
  obtain ⟨q, hq, hqp, hqp'⟩ : ∃ q < n, q ≠ p ∧ q ≠ p' := by
    by_cases h₀ : 0 ≠ p ∧ 0 ≠ p'
    · exact ⟨0, by omega, h₀⟩
    · by_cases h₁ : 1 ≠ p ∧ 1 ≠ p'
      · exact ⟨1, by omega, h₁⟩
      · exact ⟨2, by omega, by omega⟩
  have hself : ∀ p w, (Cell.check p w).syndrome p w = true := fun p w => by simp [Cell.syndrome]
  have hother : ∀ {p p' w w'}, ¬ (p = p' ∧ w = w') → (Cell.check p' w').syndrome p w = false := by
    intro p p' w w' h
    simpa [Cell.syndrome, ← not_and_or] using h
  refine decode_bad (c := (p, w)) (d := (p', w')) hq (by simp [Cell.syndrome, hqp, hqp']) ?_ ?_ ?_
  · exact mem_differing.mpr ⟨hp, by rw [hself, hother hne]; rfl⟩
  · exact mem_differing.mpr ⟨hp', by rw [hself, hother fun h => hne ⟨h.1.symm, h.2.symm⟩]; rfl⟩
  · simpa using hne

/-- **Two errors are detected.** -/
theorem decode_double {c d : Cell} (hn : 3 ≤ n) (hc : c.Valid n) (hd : d.Valid n) (hne : c ≠ d) :
    decode n (fun q v => c.syndrome q v ^^ d.syndrome q v) = .bad := by
  cases c with
  | data a =>
    cases d with
    | data b => exact decode_two_data hc hd fun h => hne (congrArg _ h)
    | check p w => exact decode_data_check hn hd
  | check p w =>
    cases d with
    | data b =>
      simp only [Bool.xor_comm ((Cell.check p w).syndrome _ _)]
      exact decode_data_check hn hc
    | check p' w' =>
      exact decode_two_check hn hc hd fun h => hne (by rw [h.1, h.2])

end Code

end NucKernel.Library.PairParity
