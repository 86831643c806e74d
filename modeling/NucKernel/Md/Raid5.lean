import Mathlib.Tactic.Ring

/-!
# The address map of RAID 4, 5 and 6 (`raid5.c`)

`raid5_compute_sector` finds the data disk and the parity disks of a sector of the array, with one
rule for each layout; `compute_blocknr` goes back from a disk of a stripe to the sector.

## Modelling

- `sector_t` values are numbers without a bound, disk indices are integers.
- `BUG()` is `none`. `compute_blocknr` returns 0 for a parity disk and when its self-check fails;
  `BlockNr` keeps the three results apart.
-/

namespace NucKernel.Md.Raid5

/-! ## Layouts -/

inductive Level
  | raid4 | raid5 | raid6
deriving DecidableEq

/-- `conf->max_degraded` -/
def Level.maxDegraded : Level → ℕ
  | raid4 => 1
  | raid5 => 1
  | raid6 => 2

/-- The `ALGORITHM_*` constants; `ALGORITHM_PARITY_N_6` is `ALGORITHM_PARITY_N`. -/
inductive Algorithm
  | leftAsymmetric | rightAsymmetric | leftSymmetric | rightSymmetric | parity0 | parityN
  | rotatingZeroRestart | rotatingNRestart | rotatingNContinue
  | leftAsymmetric6 | rightAsymmetric6 | leftSymmetric6 | rightSymmetric6 | parity06
deriving DecidableEq

def Algorithm.value : Algorithm → ℕ
  | leftAsymmetric => 0
  | rightAsymmetric => 1
  | leftSymmetric => 2
  | rightSymmetric => 3
  | parity0 => 4
  | parityN => 5
  | rotatingZeroRestart => 8
  | rotatingNRestart => 9
  | rotatingNContinue => 10
  | leftAsymmetric6 => 16
  | rightAsymmetric6 => 17
  | leftSymmetric6 => 18
  | rightSymmetric6 => 19
  | parity06 => 20

def algorithmValidRaid5 (layout : ℕ) : Bool := layout ≤ 5

def algorithmValidRaid6 (layout : ℕ) : Bool :=
  layout ≤ 5 || (8 ≤ layout && layout ≤ 10) || (16 ≤ layout && layout ≤ 20)

/-- The layouts that `setup_conf` accepts for a level -/
def accepted : Level → Algorithm → Bool
  | .raid4, _ => true
  | .raid5, algorithm => algorithmValidRaid5 algorithm.value
  | .raid6, algorithm => algorithmValidRaid6 algorithm.value

/-! ## Rules -/

/-- Past the parity disk: D D P D -/
def skipP (pd dd : ℤ) : ℤ := if pd ≤ dd then dd + 1 else dd

def unskipP (pd i : ℤ) : ℤ := if pd < i then i - 1 else i

/-- From behind the parity disk on, around `n` disks -/
def behindP (n pd dd : ℤ) : ℤ := (pd + 1 + dd) % n

def unbehindP (n pd i : ℤ) : ℤ := (if i < pd then i + n else i) - (pd + 1)

/-- The Q disk behind the P disk, or disk 0: D D P Q D or Q D D D P -/
def nextQ (n pd : ℤ) : ℤ := if pd = n - 1 then 0 else pd + 1

/-- Past the two parity disks -/
def skipPQ (n pd dd : ℤ) : ℤ :=
  if pd = n - 1 then dd + 1 else if pd ≤ dd then dd + 2 else dd

def unskipPQ (n pd i : ℤ) : ℤ := if pd = n - 1 then i - 1 else if pd < i then i - 2 else i

/-- From behind the two parity disks on -/
def behindPQ (n pd dd : ℤ) : ℤ := (pd + 2 + dd) % n

def unbehindPQ (n pd i : ℤ) : ℤ :=
  if pd = n - 1 then i - 1 else (if i < pd then i + n else i) - (pd + 2)

/-- Around the disks from behind P to before Q, which is in front of P -/
def unbehindQP (n pd i : ℤ) : ℤ :=
  if pd = 0 then i - 1 else (if i < pd then i + n else i) - (pd + 1)

/-- `*dd_idx`, `pd_idx`, `qd_idx` and `ddf_layout` -/
structure Disks where
  ddIdx : ℤ
  pdIdx : ℤ
  qdIdx : ℤ
  ddfLayout : Bool
deriving DecidableEq

/-- The disks of data index `dd` of a stripe, of `n` disks -/
def selectDisks (level : Level) (algorithm : Algorithm) (n stripe : ℕ) (dd : ℤ) : Option Disks :=
  let dataDisks : ℤ := n - level.maxDegraded
  -- `sector_div(stripe2, disks)`
  let turn (stripe2 disks : ℕ) : ℤ := (stripe2 % disks : ℕ)
  match level with
  | .raid4 => some ⟨dd, dataDisks, -1, false⟩
  | .raid5 =>
    match algorithm with
    | .leftAsymmetric =>
      let pd := dataDisks - turn stripe n
      some ⟨skipP pd dd, pd, -1, false⟩
    | .rightAsymmetric =>
      let pd := turn stripe n
      some ⟨skipP pd dd, pd, -1, false⟩
    | .leftSymmetric =>
      let pd := dataDisks - turn stripe n
      some ⟨behindP n pd dd, pd, -1, false⟩
    | .rightSymmetric =>
      let pd := turn stripe n
      some ⟨behindP n pd dd, pd, -1, false⟩
    | .parity0 => some ⟨dd + 1, 0, -1, false⟩
    | .parityN => some ⟨dd, dataDisks, -1, false⟩
    | _ => none
  | .raid6 =>
    match algorithm with
    | .leftAsymmetric =>
      let pd := n - 1 - turn stripe n
      some ⟨skipPQ n pd dd, pd, nextQ n pd, false⟩
    | .rightAsymmetric =>
      let pd := turn stripe n
      some ⟨skipPQ n pd dd, pd, nextQ n pd, false⟩
    | .leftSymmetric =>
      let pd := n - 1 - turn stripe n
      some ⟨behindPQ n pd dd, pd, (pd + 1) % n, false⟩
    | .rightSymmetric =>
      let pd := turn stripe n
      some ⟨behindPQ n pd dd, pd, (pd + 1) % n, false⟩
    | .parity0 => some ⟨dd + 2, 0, 1, false⟩
    | .parityN => some ⟨dd, dataDisks, dataDisks + 1, false⟩
    | .rotatingZeroRestart =>
      let pd := turn stripe n
      some ⟨skipPQ n pd dd, pd, nextQ n pd, true⟩
    | .rotatingNRestart =>
      let pd := n - 1 - turn (stripe + 1) n
      some ⟨skipPQ n pd dd, pd, nextQ n pd, true⟩
    | .rotatingNContinue =>
      let pd := n - 1 - turn stripe n
      some ⟨behindP n pd dd, pd, (pd + n - 1) % n, true⟩
    | .leftAsymmetric6 =>
      let pd := dataDisks - turn stripe (n - 1)
      some ⟨skipP pd dd, pd, n - 1, false⟩
    | .rightAsymmetric6 =>
      let pd := turn stripe (n - 1)
      some ⟨skipP pd dd, pd, n - 1, false⟩
    | .leftSymmetric6 =>
      let pd := dataDisks - turn stripe (n - 1)
      some ⟨behindP (n - 1) pd dd, pd, n - 1, false⟩
    | .rightSymmetric6 =>
      let pd := turn stripe (n - 1)
      some ⟨behindP (n - 1) pd dd, pd, n - 1, false⟩
    | .parity06 => some ⟨dd + 1, 0, n - 1, false⟩

/-- The data index of disk `i` in a stripe with its parity on `pd` -/
def dataIndex (level : Level) (algorithm : Algorithm) (n : ℕ) (pd i : ℤ) : Option ℤ :=
  let dataDisks : ℤ := n - level.maxDegraded
  match level with
  | .raid4 => some i
  | .raid5 =>
    match algorithm with
    | .leftAsymmetric | .rightAsymmetric => some (unskipP pd i)
    | .leftSymmetric | .rightSymmetric => some (unbehindP n pd i)
    | .parity0 => some (i - 1)
    | .parityN => some i
    | _ => none
  | .raid6 =>
    match algorithm with
    | .leftAsymmetric | .rightAsymmetric | .rotatingZeroRestart | .rotatingNRestart =>
      some (unskipPQ n pd i)
    | .leftSymmetric | .rightSymmetric => some (unbehindPQ n pd i)
    | .parity0 => some (i - 2)
    | .parityN => some i
    | .rotatingNContinue => some (unbehindQP n pd i)
    | .leftAsymmetric6 | .rightAsymmetric6 => some (unskipP pd i)
    | .leftSymmetric6 | .rightSymmetric6 => some (unbehindP (dataDisks + 1) pd i)
    | .parity06 => some (i - 1)

/-! ## The two functions -/

/-- The layout fields of `struct r5conf`; the `prev` ones are those before a reshape. -/
structure Conf where
  level : Level
  algorithm : Algorithm
  prevAlgo : Algorithm
  chunkSectors : ℕ
  prevChunkSectors : ℕ
  raidDisks : ℕ
  previousRaidDisks : ℕ

variable (conf : Conf) (previous : Bool)

def Conf.algorithmOf : Algorithm := if previous then conf.prevAlgo else conf.algorithm

def Conf.sectorsPerChunk : ℕ := if previous then conf.prevChunkSectors else conf.chunkSectors

def Conf.disksOf : ℕ := if previous then conf.previousRaidDisks else conf.raidDisks

/-- A `struct stripe_head` as `init_stripe` and `raid5_compute_sector` fill it -/
structure StripeHead where
  sector : ℕ
  pdIdx : ℤ
  qdIdx : ℤ
  ddfLayout : Bool
  disks : ℕ
deriving DecidableEq

/-- `raid5_compute_sector`: `*dd_idx` and the stripe; its sector is the return value. -/
def computeSector (rSector : ℕ) : Option (ℤ × StripeHead) :=
  let sectorsPerChunk := conf.sectorsPerChunk previous
  let raidDisks := conf.disksOf previous
  let dataDisks := raidDisks - conf.level.maxDegraded
  let chunkOffset := rSector % sectorsPerChunk
  let chunkNumber := rSector / sectorsPerChunk
  let stripe := chunkNumber / dataDisks
  let ddIdx := chunkNumber % dataDisks
  (selectDisks conf.level (conf.algorithmOf previous) raidDisks stripe ddIdx).map fun disks =>
    (disks.ddIdx,
      { sector := stripe * sectorsPerChunk + chunkOffset
        pdIdx := disks.pdIdx
        qdIdx := disks.qdIdx
        ddfLayout := disks.ddfLayout
        disks := raidDisks })

/-- The results of `compute_blocknr` -/
inductive BlockNr
  /-- The sector of the array -/
  | sector (r : ℕ)
  /-- 0, as the disk holds parity -/
  | parity
  /-- 0, after "map not correct" -/
  | notCorrect
deriving DecidableEq

def computeBlocknr (sh : StripeHead) (i : ℤ) : Option BlockNr :=
  let raidDisks := sh.disks
  let dataDisks : ℤ := raidDisks - conf.level.maxDegraded
  let sectorsPerChunk := conf.sectorsPerChunk previous
  let chunkOffset := sh.sector % sectorsPerChunk
  let stripe := sh.sector / sectorsPerChunk
  if i = sh.pdIdx then some .parity
  else if conf.level = .raid6 ∧ i = sh.qdIdx then some .parity
  else
    (dataIndex conf.level (conf.algorithmOf previous) raidDisks sh.pdIdx i).bind fun dd =>
      let chunkNumber := stripe * dataDisks + dd
      let rSector := (chunkNumber * sectorsPerChunk + chunkOffset).toNat
      (computeSector conf previous rSector).map fun check =>
        if check.2.sector ≠ sh.sector ∨ check.1 ≠ i ∨ check.2.pdIdx ≠ sh.pdIdx ∨
            check.2.qdIdx ≠ sh.qdIdx then .notCorrect
        else .sector rSector

/-! ## Rules and their inverses -/

/-- Data indices below `data` match the disks below `n` other than `pd` and `qd`. -/
structure Placement (n data pd qd : ℤ) (place unplace : ℤ → ℤ) : Prop where
  place_mem : ∀ dd, 0 ≤ dd → dd < data → 0 ≤ place dd ∧ place dd < n
  place_ne : ∀ dd, 0 ≤ dd → dd < data → place dd ≠ pd ∧ place dd ≠ qd
  unplace_place : ∀ dd, 0 ≤ dd → dd < data → unplace (place dd) = dd
  unplace_mem : ∀ i, 0 ≤ i → i < n → i ≠ pd → i ≠ qd → 0 ≤ unplace i ∧ unplace i < data
  place_unplace : ∀ i, 0 ≤ i → i < n → i ≠ pd → i ≠ qd → place (unplace i) = i

theorem emod_eq_wrap {x n : ℤ} (h₀ : 0 ≤ x) (h₁ : x < 2 * n) :
    x % n = if x < n then x else x - n := by
  split
  · next hlt => exact Int.emod_eq_of_lt h₀ hlt
  · next hge =>
    rw [← Int.sub_emod_right]
    exact Int.emod_eq_of_lt (by omega) (by omega)

/-- The disks a rule goes around are all `n` disks, or all but the last one, which holds Q. -/
def Around (n m qd : ℤ) : Prop := n = m ∧ qd = -1 ∨ n = m + 1 ∧ qd = m

theorem placement_skipP {n m data pd qd : ℤ} (hm : Around n m qd) (hdata : data = m - 1)
    (hpd : 0 ≤ pd ∧ pd < m) : Placement n data pd qd (skipP pd) (unskipP pd) := by
  unfold Around at hm
  constructor <;> intros <;> simp only [skipP, unskipP] <;> split_ifs <;> omega

theorem placement_around {n m data pd qd k : ℤ} {unplace : ℤ → ℤ} (hk : 0 ≤ k)
    (hdata : k + data ≤ 2 * m)
    (hplace : ∀ dd i, 0 ≤ dd → dd < data → i = (if k + dd < m then k + dd else k + dd - m) →
      (0 ≤ i ∧ i < n) ∧ (i ≠ pd ∧ i ≠ qd) ∧ unplace i = dd)
    (hback : ∀ i, 0 ≤ i → i < n → i ≠ pd → i ≠ qd → (0 ≤ unplace i ∧ unplace i < data) ∧
      (if k + unplace i < m then k + unplace i else k + unplace i - m) = i) :
    Placement n data pd qd (fun dd => (k + dd) % m) unplace := by
  -- the remainder is taken of less than twice the number of disks
  have hwrap (dd : ℤ) (h₀ : 0 ≤ dd) (h₁ : dd < data) :
      (k + dd) % m = if k + dd < m then k + dd else k + dd - m :=
    emod_eq_wrap (by omega) (by omega)
  constructor
  · intro dd h₀ h₁
    exact (hplace dd _ h₀ h₁ (hwrap dd h₀ h₁)).1
  · intro dd h₀ h₁
    exact (hplace dd _ h₀ h₁ (hwrap dd h₀ h₁)).2.1
  · intro dd h₀ h₁
    exact (hplace dd _ h₀ h₁ (hwrap dd h₀ h₁)).2.2
  · intro i h₀ h₁ hpd hqd
    exact (hback i h₀ h₁ hpd hqd).1
  · intro i h₀ h₁ hpd hqd
    obtain ⟨⟨hlow, hhigh⟩, hi⟩ := hback i h₀ h₁ hpd hqd
    exact (hwrap _ hlow hhigh).trans hi

theorem placement_behindP {n m data pd qd : ℤ} (hm : Around n m qd) (hdata : data = m - 1)
    (hpd : 0 ≤ pd ∧ pd < m) : Placement n data pd qd (behindP m pd) (unbehindP m pd) := by
  unfold Around at hm
  refine placement_around (by omega) (by omega) (fun dd i h₀ h₁ hi => ?_) fun i _ _ _ _ => ?_
  · unfold unbehindP
    split_ifs at hi ⊢ <;> omega
  · unfold unbehindP
    split_ifs <;> omega

theorem placement_skipPQ {n pd : ℤ} (hn : 3 < n) (hpd : 0 ≤ pd ∧ pd < n) :
    Placement n (n - 2) pd (nextQ n pd) (skipPQ n pd) (unskipPQ n pd) := by
  constructor <;> intros <;> simp only [skipPQ, unskipPQ, nextQ] at * <;> split_ifs at * <;> omega

theorem placement_behindPQ {n pd : ℤ} (hn : 3 < n) (hpd : 0 ≤ pd ∧ pd < n) :
    Placement n (n - 2) pd ((pd + 1) % n) (behindPQ n pd) (unbehindPQ n pd) := by
  have hq : (pd + 1) % n = if pd + 1 < n then pd + 1 else pd + 1 - n :=
    emod_eq_wrap (by omega) (by omega)
  rw [hq]
  refine placement_around (by omega) (by omega) (fun dd i h₀ h₁ hi => ?_) fun i _ _ _ hiq => ?_
  · unfold unbehindPQ
    split_ifs at hi ⊢ <;> omega
  · unfold unbehindPQ
    split_ifs at hiq ⊢ <;> omega

theorem placement_behindQP {n pd : ℤ} (hn : 3 < n) (hpd : 0 ≤ pd ∧ pd < n) :
    Placement n (n - 2) pd ((pd + n - 1) % n) (behindP n pd) (unbehindQP n pd) := by
  have hq : (pd + n - 1) % n = if pd + n - 1 < n then pd + n - 1 else pd + n - 1 - n :=
    emod_eq_wrap (by omega) (by omega)
  rw [hq]
  refine placement_around (by omega) (by omega) (fun dd i h₀ h₁ hi => ?_) fun i _ _ _ hiq => ?_
  · unfold unbehindQP
    split_ifs at hi ⊢ <;> omega
  · unfold unbehindQP
    split_ifs at hiq ⊢ <;> omega

theorem placement_shift {n data pd qd k : ℤ} (hk : 0 ≤ k) (hdata : k + data ≤ n)
    (hrest : ∀ i, 0 ≤ i → i < n → i ≠ pd → i ≠ qd → k ≤ i ∧ i < k + data)
    (hpd : pd < k ∨ k + data ≤ pd) (hqd : qd < k ∨ k + data ≤ qd) :
    Placement n data pd qd (fun dd => dd + k) (fun i => i - k) := by
  constructor
  · intro dd h₀ h₁
    omega
  · intro dd h₀ h₁
    omega
  · intro dd h₀ h₁
    omega
  · intro i h₀ h₁ h₂ h₃
    have := hrest i h₀ h₁ h₂ h₃
    omega
  · intro i h₀ h₁ h₂ h₃
    omega

theorem placement_front {n data pd qd : ℤ} (hdata : data ≤ n)
    (hrest : ∀ i, 0 ≤ i → i < n → i ≠ pd → i ≠ qd → i < data)
    (hpd : pd < 0 ∨ data ≤ pd) (hqd : qd < 0 ∨ data ≤ qd) :
    Placement n data pd qd (fun dd => dd) (fun i => i) := by
  have hshift : Placement n data pd qd (fun dd => dd + 0) (fun i => i - 0) :=
    placement_shift le_rfl (by omega)
      (fun i h₀ h₁ h₂ h₃ => ⟨h₀, by have := hrest i h₀ h₁ h₂ h₃; omega⟩) (by omega) (by omega)
  simpa using hshift

/-- The rule of a stripe: where its parity is, and how its data indices are matched with disks -/
structure Rule (level : Level) (algorithm : Algorithm) (n stripe : ℕ) where
  place : ℤ → ℤ
  unplace : ℤ → ℤ
  pd : ℤ
  qd : ℤ
  ddf : Bool
  select : ∀ dd, selectDisks level algorithm n stripe dd = some ⟨place dd, pd, qd, ddf⟩
  index : ∀ i, dataIndex level algorithm n pd i = some (unplace i)
  pd_mem : 0 ≤ pd ∧ pd < n
  qd_mem : level = .raid6 → 0 ≤ qd ∧ qd < n ∧ pd ≠ qd
  qd_none : level ≠ .raid6 → qd = -1
  placement : Placement n (n - level.maxDegraded) pd qd place unplace

section Rules

variable {algorithm : Algorithm} {n stripe : ℕ} {place unplace : ℤ → ℤ} {pd qd : ℤ} {ddf : Bool}

theorem rule_raid5 (hplacement : Placement n (n - (1 : ℕ)) pd (-1) place unplace)
    (hpd : 0 ≤ pd ∧ pd < n)
    (hselect : ∀ dd, selectDisks .raid5 algorithm n stripe dd = some ⟨place dd, pd, -1, ddf⟩)
    (hindex : ∀ i, dataIndex .raid5 algorithm n pd i = some (unplace i)) :
    Nonempty (Rule .raid5 algorithm n stripe) :=
  ⟨⟨place, unplace, pd, -1, ddf, hselect, hindex, hpd, by simp, fun _ => rfl, hplacement⟩⟩

theorem rule_raid6 (hplacement : Placement n (n - (2 : ℕ)) pd qd place unplace)
    (hpd : 0 ≤ pd ∧ pd < n) (hqd : 0 ≤ qd ∧ qd < n ∧ pd ≠ qd)
    (hselect : ∀ dd, selectDisks .raid6 algorithm n stripe dd = some ⟨place dd, pd, qd, ddf⟩)
    (hindex : ∀ i, dataIndex .raid6 algorithm n pd i = some (unplace i)) :
    Nonempty (Rule .raid6 algorithm n stripe) :=
  ⟨⟨place, unplace, pd, qd, ddf, hselect, hindex, hpd, fun _ => hqd, by simp, hplacement⟩⟩

end Rules

theorem turn_mem (stripe : ℕ) {disks : ℕ} (h : 0 < disks) :
    0 ≤ ((stripe % disks : ℕ) : ℤ) ∧ ((stripe % disks : ℕ) : ℤ) < disks :=
  ⟨Int.natCast_nonneg _, by exact_mod_cast Nat.mod_lt stripe h⟩

theorem nextQ_mem {n pd : ℤ} (hn : 3 < n) (hpd : 0 ≤ pd ∧ pd < n) :
    0 ≤ nextQ n pd ∧ nextQ n pd < n ∧ pd ≠ nextQ n pd := by
  unfold nextQ
  split_ifs <;> omega

theorem behindQ_mem {n pd : ℤ} (hn : 3 < n) (hpd : 0 ≤ pd ∧ pd < n) :
    0 ≤ (pd + 1) % n ∧ (pd + 1) % n < n ∧ pd ≠ (pd + 1) % n := by
  rw [emod_eq_wrap (by omega) (by omega)]
  split_ifs <;> omega

theorem beforeQ_mem {n pd : ℤ} (hn : 3 < n) (hpd : 0 ≤ pd ∧ pd < n) :
    0 ≤ (pd + n - 1) % n ∧ (pd + n - 1) % n < n ∧ pd ≠ (pd + n - 1) % n := by
  rw [emod_eq_wrap (by omega) (by omega)]
  split_ifs <;> omega

theorem exists_rule_raid4 (algorithm : Algorithm) {n : ℕ} (hn : 2 < n) (stripe : ℕ) :
    Nonempty (Rule .raid4 algorithm n stripe) := by
  have hplacement : Placement n (n - (1 : ℕ)) (n - (1 : ℕ)) (-1) (fun dd => dd) (fun i => i) :=
    placement_front (by omega) (by omega) (by omega) (by omega)
  have hpd : 0 ≤ (n : ℤ) - (1 : ℕ) ∧ (n : ℤ) - (1 : ℕ) < n := by omega
  exact ⟨⟨_, _, _, _, false, fun _ => rfl, fun _ => rfl, hpd, by simp, fun _ => rfl, hplacement⟩⟩

theorem exists_rule_raid5 {algorithm : Algorithm} (h : accepted .raid5 algorithm = true) {n : ℕ}
    (hn : 2 < n) (stripe : ℕ) : Nonempty (Rule .raid5 algorithm n stripe) := by
  -- parity moves to the left or to the right from stripe to stripe
  have hright := turn_mem stripe (by omega : 0 < n)
  have hleft : 0 ≤ (n : ℤ) - (1 : ℕ) - (stripe % n : ℕ) ∧
      (n : ℤ) - (1 : ℕ) - (stripe % n : ℕ) < n := by omega
  have hall : Around n n (-1) := .inl ⟨rfl, rfl⟩
  cases algorithm with
  | leftAsymmetric =>
    exact rule_raid5 (placement_skipP hall rfl hleft) hleft (fun _ => rfl) fun _ => rfl
  | rightAsymmetric =>
    exact rule_raid5 (placement_skipP hall rfl hright) hright (fun _ => rfl) fun _ => rfl
  | leftSymmetric =>
    exact rule_raid5 (placement_behindP hall rfl hleft) hleft (fun _ => rfl) fun _ => rfl
  | rightSymmetric =>
    exact rule_raid5 (placement_behindP hall rfl hright) hright (fun _ => rfl) fun _ => rfl
  | parity0 =>
    -- the data disks follow the parity disk
    have hplacement : Placement n (n - (1 : ℕ)) 0 (-1) (fun dd => dd + 1) (fun i => i - 1) :=
      placement_shift (by omega) (by omega) (by omega) (by omega) (by omega)
    exact rule_raid5 hplacement (by omega) (fun _ => rfl) fun _ => rfl
  | parityN =>
    -- the parity disk is the last one
    have hplacement : Placement n (n - (1 : ℕ)) (n - (1 : ℕ)) (-1) (fun dd => dd) (fun i => i) :=
      placement_front (by omega) (by omega) (by omega) (by omega)
    exact rule_raid5 hplacement (by omega) (fun _ => rfl) fun _ => rfl
  | _ => simp [accepted, algorithmValidRaid5, Algorithm.value] at h

theorem exists_rule_raid6 (algorithm : Algorithm) {n : ℕ} (hn : 3 < n) (stripe : ℕ) :
    Nonempty (Rule .raid6 algorithm n stripe) := by
  have hn' : (3 : ℤ) < n := by exact_mod_cast hn
  have hright := turn_mem stripe (by omega : 0 < n)
  have hleft : 0 ≤ (n : ℤ) - 1 - (stripe % n : ℕ) ∧ (n : ℤ) - 1 - (stripe % n : ℕ) < n := by omega
  -- the rules of RAID5 on all disks but the last
  have hturn := turn_mem stripe (by omega : 0 < n - 1)
  have hright6 : 0 ≤ ((stripe % (n - 1) : ℕ) : ℤ) ∧ ((stripe % (n - 1) : ℕ) : ℤ) < n - 1 := by omega
  have hleft6 : 0 ≤ (n : ℤ) - (2 : ℕ) - (stripe % (n - 1) : ℕ) ∧
      (n : ℤ) - (2 : ℕ) - (stripe % (n - 1) : ℕ) < n - 1 := by omega
  have hfront : Around n (n - 1) (n - 1) := .inr ⟨by omega, rfl⟩
  have hdata : (n : ℤ) - (2 : ℕ) = n - 1 - 1 := by omega
  have hsize : (n : ℤ) - (2 : ℕ) + 1 = n - 1 := by omega
  cases algorithm with
  | leftAsymmetric =>
    exact rule_raid6 (placement_skipPQ hn' hleft) hleft (nextQ_mem hn' hleft) (fun _ => rfl)
      fun _ => rfl
  | rightAsymmetric =>
    exact rule_raid6 (placement_skipPQ hn' hright) hright (nextQ_mem hn' hright) (fun _ => rfl)
      fun _ => rfl
  | leftSymmetric =>
    exact rule_raid6 (placement_behindPQ hn' hleft) hleft (behindQ_mem hn' hleft) (fun _ => rfl)
      fun _ => rfl
  | rightSymmetric =>
    exact rule_raid6 (placement_behindPQ hn' hright) hright (behindQ_mem hn' hright) (fun _ => rfl)
      fun _ => rfl
  | parity0 =>
    have hplacement : Placement n (n - (2 : ℕ)) 0 1 (fun dd => dd + 2) (fun i => i - 2) :=
      placement_shift (by omega) (by omega) (by omega) (by omega) (by omega)
    exact rule_raid6 hplacement (by omega) (by omega) (fun _ => rfl) fun _ => rfl
  | parityN =>
    -- the two parity disks are the last ones
    have hplacement : Placement n (n - (2 : ℕ)) (n - (2 : ℕ)) (n - (2 : ℕ) + 1) (fun dd => dd)
        (fun i => i) := placement_front (by omega) (by omega) (by omega) (by omega)
    exact rule_raid6 hplacement (by omega) (by omega) (fun _ => rfl) fun _ => rfl
  | rotatingZeroRestart =>
    exact rule_raid6 (placement_skipPQ hn' hright) hright (nextQ_mem hn' hright) (fun _ => rfl)
      fun _ => rfl
  | rotatingNRestart =>
    -- the rotation is one stripe ahead
    have hnext := turn_mem (stripe + 1) (by omega : 0 < n)
    have hpd : 0 ≤ (n : ℤ) - 1 - ((stripe + 1) % n : ℕ) ∧
        (n : ℤ) - 1 - ((stripe + 1) % n : ℕ) < n := by omega
    exact rule_raid6 (placement_skipPQ hn' hpd) hpd (nextQ_mem hn' hpd) (fun _ => rfl) fun _ => rfl
  | rotatingNContinue =>
    exact rule_raid6 (placement_behindQP hn' hleft) hleft (beforeQ_mem hn' hleft) (fun _ => rfl)
      fun _ => rfl
  | leftAsymmetric6 =>
    exact rule_raid6 (placement_skipP hfront hdata hleft6) (by omega) (by omega) (fun _ => rfl)
      fun _ => rfl
  | rightAsymmetric6 =>
    exact rule_raid6 (placement_skipP hfront hdata hright6) (by omega) (by omega) (fun _ => rfl)
      fun _ => rfl
  | leftSymmetric6 =>
    exact rule_raid6 (placement_behindP hfront hdata hleft6) (by omega) (by omega) (fun _ => rfl)
      fun i => congrArg (fun m => some (unbehindP m _ i)) hsize
  | rightSymmetric6 =>
    exact rule_raid6 (placement_behindP hfront hdata hright6) (by omega) (by omega) (fun _ => rfl)
      fun i => congrArg (fun m => some (unbehindP m _ i)) hsize
  | parity06 =>
    have hplacement : Placement n (n - (2 : ℕ)) 0 (n - 1) (fun dd => dd + 1) (fun i => i - 1) :=
      placement_shift (by omega) (by omega) (by omega) (by omega) (by omega)
    exact rule_raid6 hplacement (by omega) (by omega) (fun _ => rfl) fun _ => rfl

theorem exists_rule {level : Level} {algorithm : Algorithm} (h : accepted level algorithm = true)
    {n : ℕ} (hn : level.maxDegraded + 1 < n) (stripe : ℕ) :
    Nonempty (Rule level algorithm n stripe) := by
  cases level with
  | raid4 => exact exists_rule_raid4 algorithm hn stripe
  | raid5 => exact exists_rule_raid5 h hn stripe
  | raid6 => exact exists_rule_raid6 algorithm hn stripe

/-! ## Whole arrays -/

section Arrays

variable {conf previous}

theorem sector_split {chunk : ℕ} (hchunk : 0 < chunk) (stripe : ℕ) {offset : ℕ}
    (hoffset : offset < chunk) :
    (stripe * chunk + offset) / chunk = stripe ∧ (stripe * chunk + offset) % chunk = offset := by
  constructor
  · rw [Nat.mul_comm, Nat.mul_add_div hchunk, Nat.div_eq_of_lt hoffset, Nat.add_zero]
  · rw [Nat.add_comm, Nat.add_mul_mod_self_right, Nat.mod_eq_of_lt hoffset]

def Conf.stripeOf (conf : Conf) (previous : Bool) (r : ℕ) : ℕ :=
  r / conf.sectorsPerChunk previous / (conf.disksOf previous - conf.level.maxDegraded)

def Conf.indexOf (conf : Conf) (previous : Bool) (r : ℕ) : ℕ :=
  r / conf.sectorsPerChunk previous % (conf.disksOf previous - conf.level.maxDegraded)

theorem computeSector_eq {r stripe : ℕ} (hstripe : conf.stripeOf previous r = stripe)
    (rule : Rule conf.level (conf.algorithmOf previous) (conf.disksOf previous) stripe) :
    computeSector conf previous r =
      some (rule.place (conf.indexOf previous r),
        { sector := stripe * conf.sectorsPerChunk previous + r % conf.sectorsPerChunk previous
          pdIdx := rule.pd
          qdIdx := rule.qd
          ddfLayout := rule.ddf
          disks := conf.disksOf previous }) := by
  subst hstripe
  have hselect := rule.select (conf.indexOf previous r)
  simp only [Conf.stripeOf, Conf.indexOf] at hselect
  simp only [computeSector, hselect, Option.map_some, Conf.stripeOf, Conf.indexOf]

variable (hdisks : conf.level.maxDegraded + 1 < conf.disksOf previous)
include hdisks

theorem indexOf_lt (r : ℕ) :
    (conf.indexOf previous r : ℤ) < conf.disksOf previous - conf.level.maxDegraded := by
  have hlt := Nat.mod_lt (r / conf.sectorsPerChunk previous)
    (by omega : 0 < conf.disksOf previous - conf.level.maxDegraded)
  simp only [Conf.indexOf]
  omega

theorem sector_join (r : ℕ) :
    (((conf.stripeOf previous r : ℕ) : ℤ) * (conf.disksOf previous - conf.level.maxDegraded) +
        conf.indexOf previous r) * conf.sectorsPerChunk previous +
      (r % conf.sectorsPerChunk previous : ℕ) = r := by
  have hdata : ((conf.disksOf previous : ℕ) : ℤ) - conf.level.maxDegraded =
      (conf.disksOf previous - conf.level.maxDegraded : ℕ) := by omega
  -- the number of the chunk, and the sector from its chunk
  have hnumber := Nat.div_add_mod' (r / conf.sectorsPerChunk previous)
    (conf.disksOf previous - conf.level.maxDegraded)
  have hsector := Nat.div_add_mod' r (conf.sectorsPerChunk previous)
  rw [hdata]
  norm_cast
  rw [Conf.stripeOf, Conf.indexOf, hnumber, hsector]

variable (hchunk : 1 ≤ conf.sectorsPerChunk previous)
include hchunk

theorem computeBlocknr_eq (r : ℕ)
    (rule : Rule conf.level (conf.algorithmOf previous) (conf.disksOf previous)
      (conf.stripeOf previous r)) :
    computeBlocknr conf previous
        { sector := conf.stripeOf previous r * conf.sectorsPerChunk previous +
            r % conf.sectorsPerChunk previous
          pdIdx := rule.pd
          qdIdx := rule.qd
          ddfLayout := rule.ddf
          disks := conf.disksOf previous } (rule.place (conf.indexOf previous r)) =
      some (.sector r) := by
  have hindex := indexOf_lt hdisks r
  have hnonneg := Int.natCast_nonneg (conf.indexOf previous r)
  obtain ⟨hpd, hqd⟩ := rule.placement.place_ne _ hnonneg hindex
  have hoffset := Nat.mod_lt r (by omega : 0 < conf.sectorsPerChunk previous)
  -- the stripe and the offset are found again
  obtain ⟨hdiv, hmod⟩ := sector_split (by omega) (conf.stripeOf previous r) hoffset
  have hjoin := sector_join hdisks r
  simp only [computeBlocknr, if_neg hpd, hqd, and_false, if_false, rule.index,
    Option.bind_some, rule.placement.unplace_place _ hnonneg hindex, hdiv, hmod, hjoin,
    Int.toNat_natCast, computeSector_eq rfl rule, Option.map_some, ne_eq, not_true_eq_false,
    or_self]

theorem maps_iff {r s : ℕ} {i : ℤ}
    (rule : Rule conf.level (conf.algorithmOf previous) (conf.disksOf previous)
      (s / conf.sectorsPerChunk previous))
    (hi : 0 ≤ i ∧ i < conf.disksOf previous) (hpd : i ≠ rule.pd) (hqd : i ≠ rule.qd) :
    (∃ sh, computeSector conf previous r = some (i, sh) ∧ sh.sector = s) ↔
      conf.stripeOf previous r = s / conf.sectorsPerChunk previous ∧
        (conf.indexOf previous r : ℤ) = rule.unplace i ∧
        r % conf.sectorsPerChunk previous = s % conf.sectorsPerChunk previous := by
  have hpos : 0 < conf.sectorsPerChunk previous := hchunk
  constructor
  · rintro ⟨sh, hsh, rfl⟩
    -- the sector of the stripe head has the stripe and the offset of `r`
    have hsector : sh.sector = conf.stripeOf previous r * conf.sectorsPerChunk previous +
        r % conf.sectorsPerChunk previous := by
      obtain ⟨disks, -, hdisks⟩ := Option.map_eq_some_iff.mp hsh
      exact (congrArg (fun found => found.2.sector) hdisks).symm
    obtain ⟨hdiv, hmod⟩ := sector_split hpos (conf.stripeOf previous r) (Nat.mod_lt r hpos)
    rw [← hsector] at hdiv hmod
    refine ⟨hdiv.symm, ?_, hmod.symm⟩
    rw [computeSector_eq hdiv.symm rule, Option.some.injEq, Prod.mk.injEq] at hsh
    rw [← hsh.1, rule.placement.unplace_place _ (Int.natCast_nonneg _) (indexOf_lt hdisks r)]
  · rintro ⟨hstripe, hindex, hoffset⟩
    have hcompute := computeSector_eq hstripe rule
    rw [hindex, rule.placement.place_unplace i hi.1 hi.2 hpd hqd, hoffset,
      Nat.div_add_mod' s] at hcompute
    exact ⟨_, hcompute, rfl⟩

theorem exists_sector {s : ℕ} {i : ℤ}
    (rule : Rule conf.level (conf.algorithmOf previous) (conf.disksOf previous)
      (s / conf.sectorsPerChunk previous))
    (hi : 0 ≤ i ∧ i < conf.disksOf previous) (hpd : i ≠ rule.pd) (hqd : i ≠ rule.qd) :
    ∃ r, conf.stripeOf previous r = s / conf.sectorsPerChunk previous ∧
      (conf.indexOf previous r : ℤ) = rule.unplace i ∧
      r % conf.sectorsPerChunk previous = s % conf.sectorsPerChunk previous := by
  obtain ⟨hlow, hhigh⟩ := rule.placement.unplace_mem i hi.1 hi.2 hpd hqd
  obtain ⟨dd, hdd⟩ := Int.eq_ofNat_of_zero_le hlow
  have hpos : 0 < conf.sectorsPerChunk previous := hchunk
  have hlt : dd < conf.disksOf previous - conf.level.maxDegraded := by omega
  -- the sector in the stripe, at the data index of the disk
  have hsplit := sector_split hpos (s / conf.sectorsPerChunk previous *
    (conf.disksOf previous - conf.level.maxDegraded) + dd) (Nat.mod_lt s hpos)
  have hrow := sector_split (by omega : 0 < conf.disksOf previous - conf.level.maxDegraded)
    (s / conf.sectorsPerChunk previous) hlt
  refine ⟨_, ?_, ?_, hsplit.2⟩
  · rw [Conf.stripeOf, hsplit.1, hrow.1]
  · rw [Conf.indexOf, hsplit.1, hrow.2, hdd]

end Arrays

/-- The parity disks of the stripe of a device sector. They do not depend on the data index. -/
def Conf.parityOf (s : ℕ) : Option (ℤ × ℤ) :=
  (selectDisks conf.level (conf.algorithmOf previous) (conf.disksOf previous)
    (s / conf.sectorsPerChunk previous) 0).map fun disks => (disks.pdIdx, disks.qdIdx)

/-- The address map of every accepted layout: a sector has different data and parity disks,
    `compute_blocknr` leads back to it without a complaint, and every disk of a stripe that holds no
    parity belongs to exactly one sector. -/
theorem address_map (haccepted : accepted conf.level (conf.algorithmOf previous) = true)
    (hdisks : conf.level.maxDegraded + 1 < conf.disksOf previous)
    (hchunk : 1 ≤ conf.sectorsPerChunk previous) :
    (∀ r, ∃ dd sh, computeSector conf previous r = some (dd, sh) ∧
      (0 ≤ dd ∧ dd < conf.disksOf previous) ∧ (0 ≤ sh.pdIdx ∧ sh.pdIdx < conf.disksOf previous) ∧
      dd ≠ sh.pdIdx ∧
      (conf.level = .raid6 → (0 ≤ sh.qdIdx ∧ sh.qdIdx < conf.disksOf previous) ∧
        dd ≠ sh.qdIdx ∧ sh.pdIdx ≠ sh.qdIdx) ∧
      computeBlocknr conf previous sh dd = some (.sector r)) ∧
    ∀ s, ∃ pd qd, conf.parityOf previous s = some (pd, qd) ∧
      ∀ i : ℤ, 0 ≤ i → i < conf.disksOf previous → i ≠ pd → i ≠ qd →
        ∃! r, ∃ sh, computeSector conf previous r = some (i, sh) ∧ sh.sector = s := by
  constructor
  · intro r
    obtain ⟨rule⟩ := exists_rule haccepted hdisks (conf.stripeOf previous r)
    have hnonneg := Int.natCast_nonneg (conf.indexOf previous r)
    have hindex := indexOf_lt hdisks r
    obtain ⟨hpd, hqd⟩ := rule.placement.place_ne _ hnonneg hindex
    refine ⟨_, _, computeSector_eq rfl rule, rule.placement.place_mem _ hnonneg hindex,
      rule.pd_mem, hpd, fun hlevel => ?_, computeBlocknr_eq hdisks hchunk r rule⟩
    obtain ⟨hq₀, hq₁, hpq⟩ := rule.qd_mem hlevel
    exact ⟨⟨hq₀, hq₁⟩, hqd, hpq⟩
  · intro s
    obtain ⟨rule⟩ := exists_rule haccepted hdisks (s / conf.sectorsPerChunk previous)
    refine ⟨rule.pd, rule.qd, by rw [Conf.parityOf, rule.select, Option.map_some], ?_⟩
    intro i hi₀ hi₁ hpd hqd
    obtain ⟨r, hr⟩ := exists_sector hdisks hchunk rule ⟨hi₀, hi₁⟩ hpd hqd
    refine ⟨r, (maps_iff hdisks hchunk rule ⟨hi₀, hi₁⟩ hpd hqd).mpr hr, fun r' hr' => ?_⟩
    obtain ⟨hstripe, hindex, hoffset⟩ := (maps_iff hdisks hchunk rule ⟨hi₀, hi₁⟩ hpd hqd).mp hr'
    have hjoin := sector_join hdisks r
    have hjoin' := sector_join hdisks r'
    -- both sectors have the same stripe, data index and offset
    rw [hr.1, hr.2.1, hr.2.2] at hjoin
    rw [hstripe, hindex, hoffset, hjoin] at hjoin'
    exact_mod_cast hjoin'.symm

theorem address_map_raid6 :
    ∃ dd sh, computeSector ⟨.raid6, .leftSymmetric, .leftSymmetric, 8, 8, 5, 5⟩ false 1000 =
        some (dd, sh) ∧ dd ≠ sh.pdIdx ∧
      computeBlocknr ⟨.raid6, .leftSymmetric, .leftSymmetric, 8, 8, 5, 5⟩ false sh dd =
        some (.sector 1000) := by
  obtain ⟨dd, sh, hcompute, -, -, hne, -, hback⟩ :=
    (address_map ⟨.raid6, .leftSymmetric, .leftSymmetric, 8, 8, 5, 5⟩ false rfl (by decide)
      (by decide)).1 1000
  exact ⟨dd, sh, hcompute, hne, hback⟩

end NucKernel.Md.Raid5
