import Mathlib.Algebra.GroupWithZero.Nat
import Mathlib.Data.List.Basic
import Mathlib.Data.List.GetD
import Mathlib.Data.List.Perm.Basic
import NucKernel.Library.BinarySearch

/-!
# Writing the register cache back (`regcache-rbtree.c`, `regcache.c`)

The cache of a register map holds blocks of adjacent registers, in a tree that is ordered by their
first registers. `regcache_rbtree_sync` writes to the device what the blocks have in an interval of
registers, except for values that the device has after a reset.

Registers are `reg_stride` apart. `regcache_rbtree_sync` takes differences of register numbers for
numbers of registers, and so does `regcache_sync_block_raw_flush`.

## Modelling

- the device accepts every write
- an element of a block is one value, which has the bytes that the device expects
- register maps have no pages (`range_tree`)
- `bsearch` is not part of the source; it halves an interval of indices
-/

namespace NucKernel.Regmap

open NucKernel.Library

structure RegDefault where
  reg : ℕ
  value : ℕ
  deriving DecidableEq, Repr

/-- The fields of `struct regmap` that a synchronisation reads -/
structure Map where
  regStride : ℕ
  /-- `regmap_can_raw_write` -/
  canRawWrite : Bool
  /-- `regcache_reg_present` -/
  present : ℕ → Bool
  regDefaults : List RegDefault

/-- `struct regcache_rbtree_node`; `blklen` is the length of the block. -/
structure RbNode where
  baseReg : ℕ
  block : List ℕ
  deriving DecidableEq, Repr

abbrev RegWrite := ℕ × ℕ

namespace Map

variable (map : Map)

/-! ## Defaults -/

/-- `regcache_default_cmp`: a difference of unsigned numbers as a signed one -/
def defaultCmp (a b : ℕ) : ℤ :=
  let d : ℕ := (a + 2 ^ 32 - b) % 2 ^ 32
  if d < 2 ^ 31 then d else (d : ℤ) - (2 ^ 32 : ℕ)

/-- `regcache_lookup_reg` -/
def lookupReg (reg : ℕ) : Option ℕ :=
  bsearchFrom (fun i => defaultCmp reg (map.regDefaults.getD i ⟨0, 0⟩).reg) 0 map.regDefaults.length

def skipped (reg val : ℕ) : Bool :=
  match map.lookupReg reg with
  | some i => (map.regDefaults.getD i ⟨0, 0⟩).value = val
  | none => false

/-! ## Blocks -/

/-- `block_base + (i * map->reg_stride)` -/
def regtmp (n : RbNode) (i : ℕ) : ℕ := (n.baseReg + i * map.regStride) % 2 ^ 32

/-- `regcache_sync_block_single`, for a list of indices. There is no result if an element beyond the
    end of the block is read. -/
def syncBlockSingle (n : RbNode) : List ℕ → Option (List RegWrite)
  | [] => some []
  | i :: is =>
    let reg := map.regtmp n i
    if map.present reg = false then syncBlockSingle n is
    else do
      let val ← n.block[i]?
      if map.skipped reg val then syncBlockSingle n is
      else
        let ws ← syncBlockSingle n is
        return (reg, val) :: ws

/-- `_regmap_raw_write`, for `count` values from index `i` on -/
def rawWrite (n : RbNode) (reg : ℕ) : ℕ → ℕ → Option (List RegWrite)
  | _, 0 => some []
  | i, count + 1 => do
    let val ← n.block[i]?
    let ws ← rawWrite n (reg + map.regStride) (i + 1) count
    return (reg, val) :: ws

/-- `regcache_sync_block_raw_flush`. `data` is the index of the first element, if there is one. -/
def syncBlockRawFlush (n : RbNode) (data : Option ℕ) (base cur : ℕ) : Option (List RegWrite) :=
  match data with
  | none => some []
  | some i => map.rawWrite n base i ((cur + 2 ^ 32 - base) % 2 ^ 32)

/-- `regcache_sync_block_raw`, with its variables `data`, `base` and `regtmp` -/
def syncBlockRaw (n : RbNode) : List ℕ → Option ℕ → ℕ → ℕ → Option (List RegWrite)
  | [], data, base, last => map.syncBlockRawFlush n data base ((last + map.regStride) % 2 ^ 32)
  | i :: is, data, base, _ =>
    let reg := map.regtmp n i
    if map.present reg = false then do
      let ws ← map.syncBlockRawFlush n data base reg
      let rest ← syncBlockRaw n is none base reg
      return ws ++ rest
    else do
      let val ← n.block[i]?
      if map.skipped reg val then
        let ws ← map.syncBlockRawFlush n data base reg
        let rest ← syncBlockRaw n is none base reg
        return ws ++ rest
      else
        match data with
        | none => syncBlockRaw n is (some i) reg reg
        | some d => syncBlockRaw n is (some d) base reg

/-- `regcache_sync_block` -/
def syncBlock (n : RbNode) (start stop : ℕ) : Option (List RegWrite) :=
  let is := List.range' start (stop - start)
  if map.canRawWrite then map.syncBlockRaw n is none 0 0 else map.syncBlockSingle n is

/-! ## The tree -/

/-- `base` in `regcache_rbtree_sync` -/
def syncBase (n : RbNode) (min : ℕ) : ℕ := if n.baseReg < min then min - n.baseReg else 0

/-- `end` in `regcache_rbtree_sync` -/
def syncEnd (n : RbNode) (max : ℕ) : ℕ :=
  if max < (n.baseReg + n.block.length) % 2 ^ 32 then max - n.baseReg + 1 else n.block.length

/-- `regcache_rbtree_sync`, over the nodes in their order -/
def rbtreeSync (min max : ℕ) : List RbNode → Option (List RegWrite)
  | [] => some []
  | n :: ns =>
    if max < n.baseReg then some []
    else if (n.baseReg + n.block.length) % 2 ^ 32 < min then rbtreeSync min max ns
    else do
      let ws ← map.syncBlock n (syncBase n min) (syncEnd n max)
      let rest ← rbtreeSync min max ns
      return ws ++ rest

end Map

/-! ## What has to be written -/

def RbNode.reg (n : RbNode) (stride i : ℕ) : ℕ := n.baseReg + i * stride

def RbNode.top (n : RbNode) (stride : ℕ) : ℕ := n.reg stride (n.block.length - 1)

/-- The blocks of a cache: they are not empty, they lie on multiples of the stride, and they are in
    order. -/
structure RbCache (stride : ℕ) where
  nodes : List RbNode
  nonempty : ∀ n ∈ nodes, n.block ≠ []
  aligned : ∀ n ∈ nodes, stride ∣ n.baseReg
  sorted : nodes.Pairwise fun a b => a.top stride < b.baseReg
  range : ∀ n ∈ nodes, n.top stride < 2 ^ 32

namespace Map

variable (map : Map) (min max : ℕ) (n : RbNode) (i : ℕ)

/-- The table has the value of the element as the default of its register. -/
def IsDefault : Prop := ⟨n.reg map.regStride i, n.block.getD i 0⟩ ∈ map.regDefaults

instance : Decidable (map.IsDefault n i) := inferInstanceAs (Decidable (_ ∈ _))

/-- The element is cached and differs from its default. -/
def Dirty : Prop := map.present (n.reg map.regStride i) = true ∧ ¬ map.IsDefault n i

instance : Decidable (map.Dirty n i) := inferInstanceAs (Decidable (_ ∧ _))

def InInterval : Prop := min ≤ n.reg map.regStride i ∧ n.reg map.regStride i ≤ max

instance : Decidable (map.InInterval min max n i) := inferInstanceAs (Decidable (_ ∧ _))

def writes (is : List ℕ) : List RegWrite :=
  is.map fun i => (n.reg map.regStride i, n.block.getD i 0)

/-- The writes for the elements of a block that have to be written -/
def dirtyIn : List RegWrite :=
  map.writes n ((List.range n.block.length).filter fun i =>
    map.InInterval min max n i ∧ map.Dirty n i)

/-- What is cached in the interval and differs from its default is written, each register once, and
    nothing else; no element beyond the end of a block is read. -/
def Synced (c : RbCache map.regStride) : Prop :=
  ∃ ws, map.rbtreeSync min max c.nodes = some ws ∧
    ws.Perm (c.nodes.flatMap (map.dirtyIn min max))

/-- The element is visited: differences of registers are taken for numbers of elements. -/
def Visited : Prop :=
  n.baseReg ≤ max ∧ min ≤ n.baseReg + n.block.length ∧ min - n.baseReg ≤ i ∧
    i < n.block.length ∧ i ≤ max - n.baseReg

instance : Decidable (Visited min max n i) := inferInstanceAs (Decidable (_ ∧ _))

/-- A block with which a synchronisation gets along: the search finds the defaults of the elements
    that are visited, the elements to be written are visited exactly if they are in the interval,
    and none is visited if registers that are not adjacent are written in runs. -/
structure Steady : Prop where
  found : ∀ i, Visited min max n i → map.present (n.reg map.regStride i) = true →
    map.IsDefault n i → map.skipped (n.reg map.regStride i) (n.block.getD i 0) = true
  visited : ∀ i < n.block.length, map.Dirty n i →
    (Visited min max n i ↔ map.InInterval min max n i)
  single : map.canRawWrite = true → map.regStride ≠ 1 → ∀ i < n.block.length, map.Dirty n i →
    ¬ Visited min max n i

end Map

namespace Map

variable {map : Map}

/-! ## Lookup -/

theorem defaultCmp_eq_zero {a b : ℕ} (ha : a < 2 ^ 32) (hb : b < 2 ^ 32) :
    defaultCmp a b = 0 ↔ a = b := by
  unfold defaultCmp
  dsimp only
  split <;> omega

/-- What is found is in the table, ... -/
theorem mem_of_skipped (htable : ∀ d ∈ map.regDefaults, d.reg < 2 ^ 32) {reg val : ℕ}
    (hreg : reg < 2 ^ 32) (hskip : map.skipped reg val = true) :
    ⟨reg, val⟩ ∈ map.regDefaults := by
  unfold skipped lookupReg at hskip
  split at hskip
  · rename_i i hfound
    obtain ⟨-, hi, hzero⟩ := bsearchFrom_sound hfound
    have hmem := List.getElem_mem hi
    rw [List.getD_eq_getElem _ _ hi] at hskip hzero
    rw [(defaultCmp_eq_zero hreg (htable _ hmem)).mp hzero, ← of_decide_eq_true hskip]
    exact hmem
  · cases hskip

/-- ... and every default is found if the table is in order. -/
theorem skipped_of_mem (hasc : map.regDefaults.Pairwise fun a b => a.reg < b.reg)
    (htable : ∀ d ∈ map.regDefaults, d.reg < 2 ^ 31) {d : RegDefault} (hd : d ∈ map.regDefaults) :
    map.skipped d.reg d.value = true := by
  have hcmp {a b : ℕ} (ha : a < 2 ^ 31) (hb : b < 2 ^ 31) : defaultCmp a b = (a : ℤ) - b := by
    unfold defaultCmp
    dsimp only
    split <;> omega
  have hget (i : ℕ) (hi : i < map.regDefaults.length) :
      defaultCmp d.reg (map.regDefaults.getD i ⟨0, 0⟩).reg =
        (d.reg : ℤ) - map.regDefaults[i].reg := by
    rw [List.getD_eq_getElem _ _ hi, hcmp (htable d hd) (htable _ (List.getElem_mem hi))]
  have hpairs := List.pairwise_iff_getElem.mp hasc
  obtain ⟨i, hi, hentry⟩ := List.getElem_of_mem hd
  have hfound : map.lookupReg d.reg = some i := by
    -- the entries before compare as greater, those behind as less
    refine bsearchFrom_eq_some (Nat.zero_le i) hi ?_ (fun j hj => ?_) fun j hj hlen => ?_
    · rw [hget i hi, hentry]
      omega
    · have hlt := hpairs j i (by omega) hi hj
      rw [hentry] at hlt
      rw [hget j (by omega)]
      omega
    · have hlt := hpairs i j hi hlen hj
      rw [hentry] at hlt
      rw [hget j hlen]
      omega
  rw [skipped, hfound]
  simp only [List.getD_eq_getElem _ _ hi, hentry, decide_true]

/-! ## Blocks -/

def sent (map : Map) (n : RbNode) (i : ℕ) : Bool :=
  map.present (n.reg map.regStride i) && !map.skipped (n.reg map.regStride i) (n.block.getD i 0)

/-- The register behind the last one of the block is a number of a register too. -/
def Low (map : Map) (n : RbNode) : Prop := n.top map.regStride + map.regStride < 2 ^ 32

section Blocks

variable {n : RbNode} {i : ℕ}

theorem reg_succ (map : Map) (n : RbNode) (i : ℕ) :
    n.reg map.regStride (i + 1) = n.reg map.regStride i + map.regStride := by
  rw [RbNode.reg, RbNode.reg, Nat.succ_mul, Nat.add_assoc]

theorem reg_sub {d j : ℕ} (hdj : d ≤ j) :
    n.reg map.regStride j = n.reg map.regStride d + (j - d) * map.regStride := by
  rw [RbNode.reg, RbNode.reg, Nat.add_assoc, ← Nat.add_mul, Nat.add_sub_cancel' hdj]

theorem Low.reg_lt (hn : map.Low n) (hi : i ≤ n.block.length) :
    n.reg map.regStride i < 2 ^ 32 := by
  have hle := Nat.mul_le_mul_right map.regStride (by omega : i ≤ n.block.length - 1 + 1)
  rw [Nat.succ_mul] at hle
  unfold Low RbNode.top RbNode.reg at hn
  rw [RbNode.reg]
  omega

theorem regtmp_eq (hn : map.Low n) (hi : i < n.block.length) :
    map.regtmp n i = n.reg map.regStride i := Nat.mod_eq_of_lt (hn.reg_lt (Nat.le_of_lt hi))

theorem sent_of_dirty (htable : ∀ d ∈ map.regDefaults, d.reg < 2 ^ 32) (hn : map.Low n)
    (hi : i < n.block.length) (h : map.Dirty n i) : map.sent n i = true := by
  rw [sent, h.1, Bool.true_and, Bool.not_eq_true', ← Bool.not_eq_true]
  exact fun hskip => h.2 (mem_of_skipped htable (hn.reg_lt (Nat.le_of_lt hi)) hskip)

theorem syncBlockSingle_eq (hn : map.Low n) {is : List ℕ} (his : ∀ i ∈ is, i < n.block.length) :
    map.syncBlockSingle n is = some (map.writes n (is.filter (map.sent n))) := by
  induction is with
  | nil => rfl
  | cons i is ih =>
    have hi := his i List.mem_cons_self
    rw [syncBlockSingle, regtmp_eq hn hi, ih fun j hj => his j (List.mem_cons_of_mem i hj),
      List.getElem?_eq_getElem hi, List.filter_cons, sent, List.getD_eq_getElem _ _ hi]
    cases map.present (n.reg map.regStride i) with
    | false => rfl
    | true =>
      cases hskip : map.skipped (n.reg map.regStride i) n.block[i] with
      -- a default is not written
      | true => simp [hskip]
      | false => simp [hskip, writes, List.getElem?_eq_getElem hi]

theorem rawWrite_eq {d : ℕ} (count : ℕ) (hd : d ≤ n.block.length) :
    map.rawWrite n (n.reg map.regStride d) d count =
      if d + count ≤ n.block.length then some (map.writes n (List.range' d count)) else none := by
  induction count generalizing d with
  | zero => exact (if_pos hd).symm
  | succ count ih =>
    rw [rawWrite]
    rcases Nat.lt_or_eq_of_le hd with hlt | rfl
    · rw [List.getElem?_eq_getElem hlt, ← reg_succ, ih hlt, List.range'_succ]
      rw [Nat.succ_add_eq_add_succ]
      by_cases hfit : d + (count + 1) ≤ n.block.length
      · -- the whole rest is in the block
        rw [if_pos hfit, if_pos hfit]
        simp [writes, List.getElem?_eq_getElem hlt]
      · rw [if_neg hfit, if_neg hfit]
        rfl
    · -- the end of the block is reached
      rw [List.getElem?_eq_none (Nat.le_refl _), if_neg (by omega)]
      rfl

theorem syncBlockRawFlush_eq (hn : map.Low n) {d j : ℕ} (hdj : d ≤ j) (hj : j ≤ n.block.length) :
    map.syncBlockRawFlush n (some d) (n.reg map.regStride d) (n.reg map.regStride j) =
      if d + (j - d) * map.regStride ≤ n.block.length then
        some (map.writes n (List.range' d ((j - d) * map.regStride))) else none := by
  have hcount : (n.reg map.regStride j + 2 ^ 32 - n.reg map.regStride d) % 2 ^ 32 =
      (j - d) * map.regStride := by
    -- the numbers of registers do not wrap around
    have hlt := hn.reg_lt hj
    have hsub := @reg_sub map n d j hdj
    omega
  rw [syncBlockRawFlush, hcount]
  exact rawWrite_eq _ (by omega)

theorem syncBlockRaw_cons (hn : map.Low n) (hi : i < n.block.length) (is : List ℕ)
    (data : Option ℕ) (base last : ℕ) :
    map.syncBlockRaw n (i :: is) data base last =
      if map.sent n i = true then
        match data with
        | none => map.syncBlockRaw n is (some i) (n.reg map.regStride i) (n.reg map.regStride i)
        | some d => map.syncBlockRaw n is (some d) base (n.reg map.regStride i)
      else
        (map.syncBlockRawFlush n data base (n.reg map.regStride i)).bind fun ws =>
          (map.syncBlockRaw n is none base (n.reg map.regStride i)).bind fun rest =>
            some (ws ++ rest) := by
  rw [syncBlockRaw.eq_def, sent, List.getD_eq_getElem _ _ hi]
  simp only [List.getElem?_eq_getElem hi, regtmp_eq hn hi]
  cases hpresent : map.present (n.reg map.regStride i) with
  -- a register that is not cached is treated like a default
  | false => simp
  | true =>
    cases hskip : map.skipped (n.reg map.regStride i) n.block[i] with
    | false => simp [hskip]
    | true => simp [hskip]

theorem syncBlockRaw_nil (hn : map.Low n) {d : ℕ} (hi : i < n.block.length) :
    map.syncBlockRaw n [] (some d) (n.reg map.regStride d) (n.reg map.regStride i) =
      map.syncBlockRawFlush n (some d) (n.reg map.regStride d) (n.reg map.regStride (i + 1)) := by
  have hlt := hn.reg_lt (Nat.succ_le_of_lt hi)
  rw [syncBlockRaw, ← reg_succ, Nat.mod_eq_of_lt hlt]

section StrideOne

variable (hone : map.regStride = 1)

include hone

theorem flush_of_run (hn : map.Low n) {d j : ℕ} (hdj : d ≤ j) (hj : j ≤ n.block.length)
    (hrun : ∀ k, d ≤ k → k < j → map.sent n k = true) :
    map.syncBlockRawFlush n (some d) (n.reg map.regStride d) (n.reg map.regStride j) =
      some (map.writes n ((List.range' d (j - d)).filter (map.sent n))) := by
  have hall : (List.range' d (j - d)).filter (map.sent n) = List.range' d (j - d) := by
    refine List.filter_eq_self.mpr fun k hk => ?_
    have hk := List.mem_range'_1.mp hk
    exact hrun k hk.1 (by omega)
  rw [syncBlockRawFlush_eq hn hdj hj, hone, Nat.mul_one, if_pos (by omega), hall]

/-- The loop, without a run and inside of one; by induction on the number of elements left -/
theorem syncBlockRaw_eq (hn : map.Low n) (k : ℕ) :
    (∀ i base last, i + k ≤ n.block.length →
      map.syncBlockRaw n (List.range' i k) none base last =
        some (map.writes n ((List.range' i k).filter (map.sent n)))) ∧
    ∀ d i, d ≤ i → i + 1 + k ≤ n.block.length →
      (∀ j, d ≤ j → j ≤ i → map.sent n j = true) →
      map.syncBlockRaw n (List.range' (i + 1) k) (some d) (n.reg map.regStride d)
          (n.reg map.regStride i) =
        some (map.writes n ((List.range' d (i + 1 - d + k)).filter (map.sent n))) := by
  induction k with
  | zero =>
    refine ⟨fun i base last _ => rfl, fun d i hdi hi hrun => ?_⟩
    rw [List.range'_zero, syncBlockRaw_nil hn (by omega), Nat.add_zero]
    -- the run goes to the end
    exact flush_of_run hone hn (by omega) (by omega) fun j hj hj' => hrun j hj (by omega)
  | succ k ih =>
    obtain ⟨ihNone, ihRun⟩ := ih
    refine ⟨fun i base last hi => ?_, fun d i hdi hi hrun => ?_⟩
    · rw [List.range'_succ, syncBlockRaw_cons hn (by omega)]
      split
      · rename_i hsent
        -- a run begins
        have hstart := ihRun i i (Nat.le_refl i) (by omega) fun j hj hj' => by
          rwa [Nat.le_antisymm hj' hj]
        rwa [Nat.add_sub_cancel_left, Nat.add_comm 1 k, List.range'_succ] at hstart
      · rename_i hsent
        rw [List.filter_cons_of_neg hsent, syncBlockRawFlush, ihNone (i + 1) _ _ (by omega)]
        rfl
    · have hsplit : (List.range' d (i + 1 - d + (k + 1))).filter (map.sent n) =
          (List.range' d (i + 1 - d)).filter (map.sent n) ++
            (List.range' (i + 1) (k + 1)).filter (map.sent n) := by
        rw [← List.filter_append, ← List.range'_append_1, Nat.add_sub_cancel' (by omega)]
      rw [List.range'_succ, syncBlockRaw_cons hn (by omega)]
      split
      · rename_i hsent
        -- the run goes on
        have hgo := ihRun d (i + 1) (by omega) (by omega) fun j hj hj' => by
          rcases Nat.lt_or_eq_of_le hj' with hlt | rfl
          · exact hrun j hj (by omega)
          · exact hsent
        rwa [(by omega : i + 1 + 1 - d + k = i + 1 - d + (k + 1))] at hgo
      · rename_i hsent
        -- the run ends, and is written
        rw [flush_of_run hone hn (by omega) (by omega) fun j hj hj' => hrun j hj (by omega), hsplit,
          List.range'_succ, List.filter_cons_of_neg hsent, ihNone (i + 1 + 1) _ _ (by omega),
          Option.bind_some, Option.bind_some, writes, writes, writes, List.map_append]

end StrideOne

theorem syncBlockRaw_none (hn : map.Low n) (k i base last : ℕ) (hi : i + k ≤ n.block.length)
    (hnone : ∀ j ∈ List.range' i k, map.sent n j = false) :
    map.syncBlockRaw n (List.range' i k) none base last = some [] := by
  induction k generalizing i base last with
  | zero => rfl
  | succ k ih =>
    rw [List.range'_succ] at hnone ⊢
    obtain ⟨hsent, hrest⟩ := List.forall_mem_cons.mp hnone
    rw [syncBlockRaw_cons hn (by omega), if_neg (by simp [hsent]), syncBlockRawFlush,
      ih _ _ _ (by omega) hrest]
    rfl

section WideStride

variable (hwide : 2 ≤ map.regStride)

include hwide

/-- The run from `d` to below `j` is written together with the element behind it. -/
theorem mem_flush (hn : map.Low n) {d j : ℕ} {ws : List RegWrite} (hdj : d < j)
    (hj : j ≤ n.block.length)
    (h : map.syncBlockRawFlush n (some d) (n.reg map.regStride d) (n.reg map.regStride j) =
      some ws) :
    j < n.block.length ∧ (n.reg map.regStride j, n.block.getD j 0) ∈ ws := by
  -- the difference of the registers is at least twice the number of elements
  have hcount : j - d + (j - d) ≤ (j - d) * map.regStride := by
    rw [← Nat.mul_two]
    exact Nat.mul_le_mul_left _ hwide
  rw [syncBlockRawFlush_eq hn (Nat.le_of_lt hdj) hj] at h
  split_ifs at h with hfit
  · cases h
    exact ⟨by omega, List.mem_map.mpr ⟨j, List.mem_range'_1.mpr ⟨by omega, by omega⟩, rfl⟩⟩

theorem mem_syncBlockRaw_run (hn : map.Low n) (k : ℕ) {d i : ℕ} {ws : List RegWrite} (hdi : d ≤ i)
    (hi : i + 1 + k ≤ n.block.length)
    (h : map.syncBlockRaw n (List.range' (i + 1) k) (some d) (n.reg map.regStride d)
      (n.reg map.regStride i) = some ws) :
    ∃ j, j < n.block.length ∧ (j = i + 1 + k ∨ map.sent n j = false) ∧
      (n.reg map.regStride j, n.block.getD j 0) ∈ ws := by
  induction k generalizing i with
  | zero =>
    rw [List.range'_zero, syncBlockRaw_nil hn (by omega)] at h
    obtain ⟨hj, hmem⟩ := mem_flush hwide hn (by omega) (by omega) h
    exact ⟨i + 1, hj, .inl rfl, hmem⟩
  | succ k ih =>
    rw [List.range'_succ, syncBlockRaw_cons hn (by omega)] at h
    split_ifs at h with hsent
    · obtain ⟨j, hj, hlast, hmem⟩ := ih (by omega) (by omega) h
      exact ⟨j, hj, by rwa [Nat.add_assoc (i + 1), Nat.add_comm 1 k] at hlast, hmem⟩
    · -- the run ends here, and this element is written with it
      obtain ⟨ws₁, hflush, hrest⟩ := Option.bind_eq_some_iff.mp h
      obtain ⟨ws₂, -, ⟨⟩⟩ := Option.bind_eq_some_iff.mp hrest
      obtain ⟨hj, hmem⟩ := mem_flush hwide hn (by omega) (by omega) hflush
      exact ⟨i + 1, hj, .inr (by simpa using hsent), List.mem_append_left _ hmem⟩

theorem mem_syncBlockRaw (hn : map.Low n) (k i base last : ℕ) {ws : List RegWrite}
    (hi : i + k ≤ n.block.length) (hsome : ∃ j ∈ List.range' i k, map.sent n j = true)
    (h : map.syncBlockRaw n (List.range' i k) none base last = some ws) :
    ∃ j, j < n.block.length ∧ (j = i + k ∨ map.sent n j = false) ∧
      (n.reg map.regStride j, n.block.getD j 0) ∈ ws := by
  induction k generalizing i base last ws with
  | zero => exact absurd hsome (by simp)
  | succ k ih =>
    rw [List.range'_succ] at hsome h
    rw [syncBlockRaw_cons hn (by omega)] at h
    split_ifs at h with hsent
    · obtain ⟨j, hj, hlast, hmem⟩ := mem_syncBlockRaw_run hwide hn k (Nat.le_refl i) (by omega) h
      exact ⟨j, hj, by rwa [Nat.add_right_comm] at hlast, hmem⟩
    · -- no run has begun
      obtain ⟨ws₁, -, hrest⟩ := Option.bind_eq_some_iff.mp h
      obtain ⟨ws₂, hws₂, ⟨⟩⟩ := Option.bind_eq_some_iff.mp hrest
      obtain ⟨j, hj, htrue⟩ := hsome
      have hlater : ∃ j ∈ List.range' (i + 1) k, map.sent n j = true := by
        rcases List.mem_cons.mp hj with rfl | hj
        · exact absurd htrue hsent
        · exact ⟨j, hj, htrue⟩
      obtain ⟨j, hj, hlast, hmem⟩ := ih (i + 1) _ _ (by omega) hlater hws₂
      exact ⟨j, hj, by rwa [Nat.add_right_comm] at hlast, List.mem_append_right _ hmem⟩

end WideStride

end Blocks

/-! ## The tree -/

section Tree

variable {min max : ℕ} {n : RbNode}

def visitedIn (min max : ℕ) (n : RbNode) : List ℕ :=
  if n.baseReg ≤ max ∧ min ≤ n.baseReg + n.block.length then
    List.range' (syncBase n min) (syncEnd n max - syncBase n min) else []

def nodeSync (map : Map) (min max : ℕ) (n : RbNode) : Option (List RegWrite) :=
  if n.baseReg ≤ max ∧ min ≤ n.baseReg + n.block.length then
    map.syncBlock n (syncBase n min) (syncEnd n max) else some []

theorem length_small (hstride : 1 ≤ map.regStride) (hn : map.Low n) :
    (n.baseReg + n.block.length) % 2 ^ 32 = n.baseReg + n.block.length := by
  have hlt := hn.reg_lt (Nat.le_refl _)
  have hmul := Nat.le_mul_of_pos_right n.block.length hstride
  rw [RbNode.reg] at hlt
  exact Nat.mod_eq_of_lt (by omega)

theorem lt_syncEnd (hstride : 1 ≤ map.regStride) (hn : map.Low n) (hmax : n.baseReg ≤ max) (i : ℕ) :
    i < syncEnd n max ↔ i < n.block.length ∧ i ≤ max - n.baseReg := by
  rw [syncEnd, length_small hstride hn]
  split <;> omega

theorem mem_visitedIn (hstride : 1 ≤ map.regStride) (hn : map.Low n) {i : ℕ} :
    i ∈ visitedIn min max n ↔ Visited min max n i := by
  unfold visitedIn Visited
  split
  · rename_i hreached
    have hend := lt_syncEnd hstride hn hreached.1 i
    rw [List.mem_range'_1, syncBase]
    split <;> omega
  · simp
    omega

theorem nodup_visitedIn : (visitedIn min max n).Nodup := by
  unfold visitedIn
  split
  · exact List.nodup_range'
  · exact List.nodup_nil

theorem nodeSync_eq (hstride : 1 ≤ map.regStride) (hn : map.Low n)
    (hsingle : map.canRawWrite = true → map.regStride ≠ 1 →
      ∀ i ∈ visitedIn min max n, map.sent n i = false) :
    map.nodeSync min max n =
      some (map.writes n ((visitedIn min max n).filter (map.sent n))) := by
  unfold nodeSync visitedIn at *
  split
  · rename_i hreached
    rw [if_pos hreached] at hsingle
    have hend : syncEnd n max ≤ n.block.length := by
      by_contra hlt
      have := (lt_syncEnd hstride hn hreached.1 _).mp (Nat.not_le.mp hlt)
      omega
    rw [syncBlock]
    split
    · rename_i hraw
      by_cases hne : syncEnd n max ≤ syncBase n min
      · -- no element is visited
        rw [Nat.sub_eq_zero_of_le hne]
        rfl
      · by_cases hone : map.regStride = 1
        · exact (syncBlockRaw_eq hone hn _).1 _ 0 0 (by omega)
        · have hnone := hsingle hraw hone
          -- nothing is to be sent
          rw [syncBlockRaw_none hn _ _ _ _ (by omega) hnone,
            List.filter_eq_nil_iff.mpr fun i hi => by simp [hnone i hi]]
          rfl
    · refine syncBlockSingle_eq hn fun i hi => ?_
      have := List.mem_range'_1.mp hi
      omega
  · rfl

/-- Registers that are not adjacent cannot be written in runs. -/
theorem mem_nodeSync (hwide : 2 ≤ map.regStride) (hn : map.Low n) (hraw : map.canRawWrite = true)
    {i : ℕ} (hi : i ∈ visitedIn min max n) (hsent : map.sent n i = true) {ws : List RegWrite}
    (h : map.nodeSync min max n = some ws) :
    ∃ j < n.block.length, (max < n.reg map.regStride j ∨ map.sent n j = false) ∧
      (n.reg map.regStride j, n.block.getD j 0) ∈ ws := by
  unfold nodeSync visitedIn at *
  split_ifs at h hi with hreached
  · have hmem := List.mem_range'_1.mp hi
    have hend := lt_syncEnd (by omega : 1 ≤ map.regStride) hn hreached.1
    have hle : syncEnd n max ≤ n.block.length := by
      by_contra hlt
      have := (hend _).mp (Nat.not_le.mp hlt)
      omega
    rw [syncBlock, if_pos hraw] at h
    obtain ⟨j, hj, hlast, hmem'⟩ :=
      mem_syncBlockRaw hwide hn _ _ _ _ (by omega) ⟨i, hi, hsent⟩ h
    refine ⟨j, hj, hlast.imp_left fun hlast => ?_, hmem'⟩
    -- the element behind those that are visited is far behind the interval
    have hnot := mt (hend j).mpr (by omega)
    have hmul := Nat.le_mul_of_pos_right j (show 0 < map.regStride by omega)
    rw [RbNode.reg]
    omega
  · cases hi

theorem rbtreeSync_above {nodes : List RbNode} (h : ∀ n ∈ nodes, max < n.baseReg) :
    map.rbtreeSync min max nodes = some [] := by
  cases nodes with
  | nil => rfl
  | cons n ns => exact if_pos (h n List.mem_cons_self)

theorem rbtreeSync_cons (hstride : 1 ≤ map.regStride) {ns : List RbNode} (hn : map.Low n)
    (habove : ∀ m ∈ ns, n.baseReg ≤ m.baseReg) :
    map.rbtreeSync min max (n :: ns) =
      (map.nodeSync min max n).bind fun ws =>
        (map.rbtreeSync min max ns).bind fun rest => some (ws ++ rest) := by
  rw [rbtreeSync, length_small hstride hn, nodeSync]
  split_ifs with hmax hmin hreached hreached hreached
  · omega
  · -- this block is behind the interval, and so are the others
    rw [rbtreeSync_above fun m hm => Nat.lt_of_lt_of_le hmax (habove m hm)]
    rfl
  · omega
  · -- this block is before the interval
    rw [Option.bind_some]
    cases map.rbtreeSync min max ns <;> rfl
  · rfl
  · omega

theorem rbtreeSync_eq (hstride : 1 ≤ map.regStride) {nodes : List RbNode}
    (hlow : ∀ n ∈ nodes, map.Low n) (hasc : nodes.Pairwise fun a b => a.baseReg ≤ b.baseReg)
    {f : RbNode → List RegWrite} (h : ∀ n ∈ nodes, map.nodeSync min max n = some (f n)) :
    map.rbtreeSync min max nodes = some (nodes.flatMap f) := by
  induction nodes with
  | nil => rfl
  | cons n ns ih =>
    obtain ⟨habove, hrest⟩ := List.pairwise_cons.mp hasc
    rw [rbtreeSync_cons hstride (hlow n List.mem_cons_self) habove, h n List.mem_cons_self,
      ih (fun m hm => hlow m (List.mem_cons_of_mem n hm)) hrest
        fun m hm => h m (List.mem_cons_of_mem n hm)]
    rfl

theorem nodeSync_of_rbtreeSync (hstride : 1 ≤ map.regStride) {nodes : List RbNode}
    (hlow : ∀ n ∈ nodes, map.Low n) (hasc : nodes.Pairwise fun a b => a.baseReg ≤ b.baseReg)
    {ws : List RegWrite} (h : map.rbtreeSync min max nodes = some ws) (hn : n ∈ nodes) :
    ∃ wsn, map.nodeSync min max n = some wsn ∧ wsn ⊆ ws := by
  induction nodes generalizing ws with
  | nil => cases hn
  | cons m ns ih =>
    obtain ⟨habove, hrest⟩ := List.pairwise_cons.mp hasc
    rw [rbtreeSync_cons hstride (hlow m List.mem_cons_self) habove] at h
    obtain ⟨wsm, hwsm, hrbtree⟩ := Option.bind_eq_some_iff.mp h
    obtain ⟨rest, hws, ⟨⟩⟩ := Option.bind_eq_some_iff.mp hrbtree
    rcases List.mem_cons.mp hn with rfl | hn
    · exact ⟨wsm, hwsm, List.subset_append_left _ _⟩
    · obtain ⟨wsn, hwsn, hsub⟩ :=
        ih (fun m hm => hlow m (List.mem_cons_of_mem _ hm)) hrest hws hn
      exact ⟨wsn, hwsn, List.Subset.trans hsub (List.subset_append_right _ _)⟩

/-! ## The exact condition -/

theorem reg_bounds (stride : ℕ) {i : ℕ} (hi : i < n.block.length) :
    n.baseReg ≤ n.reg stride i ∧ n.reg stride i ≤ n.top stride := by
  have hle := Nat.mul_le_mul_right stride (by omega : i ≤ n.block.length - 1)
  unfold RbNode.top RbNode.reg
  omega

theorem nodes_asc {stride : ℕ} (c : RbCache stride) :
    c.nodes.Pairwise fun a b => a.baseReg ≤ b.baseReg := by
  refine c.sorted.imp fun h => ?_
  unfold RbNode.top RbNode.reg at h
  omega

/-- A register is in one block only, and there at one place. -/
theorem eq_of_reg_eq {stride : ℕ} (hstride : 1 ≤ stride) (c : RbCache stride) {m : RbNode}
    (hm : m ∈ c.nodes) (hn : n ∈ c.nodes) {i j : ℕ} (hi : i < m.block.length)
    (hj : j < n.block.length) (h : m.reg stride i = n.reg stride j) : m = n ∧ i = j := by
  have hpairs := List.pairwise_iff_getElem.mp c.sorted
  obtain ⟨a, ha, rfl⟩ := List.mem_iff_getElem.mp hm
  obtain ⟨b, hb, rfl⟩ := List.mem_iff_getElem.mp hn
  have hi := reg_bounds stride hi
  have hj := reg_bounds stride hj
  rcases Nat.lt_trichotomy a b with hlt | rfl | hlt
  · have := hpairs a b ha hb hlt
    omega
  · exact ⟨rfl, Nat.eq_of_mul_eq_mul_right hstride (Nat.add_left_cancel h)⟩
  · have := hpairs b a hb ha hlt
    omega

theorem steady_iff (hstride : 1 ≤ map.regStride)
    (htable : ∀ d ∈ map.regDefaults, d.reg < 2 ^ 32) (hn : map.Low n) :
    map.Steady min max n ↔
      (map.canRawWrite = true → map.regStride ≠ 1 →
        ∀ i ∈ visitedIn min max n, map.sent n i = false) ∧
      ∀ i < n.block.length, (Visited min max n i ∧ map.sent n i = true ↔
        map.InInterval min max n i ∧ map.Dirty n i) := by
  have hsent_iff (i : ℕ) : map.sent n i = true ↔ map.present (n.reg map.regStride i) = true ∧
      ¬ map.skipped (n.reg map.regStride i) (n.block.getD i 0) = true := by
    simp [sent]
  constructor
  · intro h
    -- what is sent differs from its default, as the search finds the defaults
    have hdirty (i : ℕ) (hvisited : Visited min max n i) (hsent : map.sent n i = true) :
        map.Dirty n i := by
      obtain ⟨hpresent, hskip⟩ := (hsent_iff i).mp hsent
      exact ⟨hpresent, fun hdefault => hskip (h.found i hvisited hpresent hdefault)⟩
    refine ⟨fun hraw hne i hi => ?_, fun i hi => ⟨?_, ?_⟩⟩
    · have hvisited := (mem_visitedIn hstride hn).mp hi
      rw [← Bool.not_eq_true]
      exact fun hsent => h.single hraw hne i hvisited.2.2.2.1 (hdirty i hvisited hsent) hvisited
    · rintro ⟨hvisited, hsent⟩
      have hd := hdirty i hvisited hsent
      exact ⟨(h.visited i hi hd).mp hvisited, hd⟩
    · rintro ⟨hin, hd⟩
      exact ⟨(h.visited i hi hd).mpr hin, sent_of_dirty htable hn hi hd⟩
  · rintro ⟨hsingle, hall⟩
    refine ⟨fun i hvisited hpresent hdefault => ?_, fun i hi hd => ?_,
      fun hraw hne i hi hd hv => ?_⟩
    · -- a default that is not found would be sent
      by_contra hskip
      have hsent := (hsent_iff i).mpr ⟨hpresent, hskip⟩
      exact ((hall i hvisited.2.2.2.1).mp ⟨hvisited, hsent⟩).2.2 hdefault
    · have hsent := sent_of_dirty htable hn hi hd
      exact ⟨fun hvisited => ((hall i hi).mp ⟨hvisited, hsent⟩).1,
        fun hin => ((hall i hi).mpr ⟨hin, hd⟩).1⟩
    · have hfalse := hsingle hraw hne i ((mem_visitedIn hstride hn).mpr hv)
      rw [sent_of_dirty htable hn hi hd] at hfalse
      cases hfalse

theorem mem_dirtyIn {w : RegWrite} :
    w ∈ map.dirtyIn min max n ↔ ∃ i < n.block.length,
      (map.InInterval min max n i ∧ map.Dirty n i) ∧
        (n.reg map.regStride i, n.block.getD i 0) = w := by
  simp [dirtyIn, writes, and_assoc]

end Tree

section Exact

variable (hstride : 1 ≤ map.regStride) (htable : ∀ d ∈ map.regDefaults, d.reg < 2 ^ 32)
  {c : RbCache map.regStride} (hlow : ∀ n ∈ c.nodes, map.Low n) {min max : ℕ}

include hstride htable hlow

theorem synced_of_steady (h : ∀ n ∈ c.nodes, map.Steady min max n) : map.Synced min max c := by
  have hgood (n : RbNode) (hn : n ∈ c.nodes) :=
    (steady_iff hstride htable (hlow n hn)).mp (h n hn)
  refine ⟨_, rbtreeSync_eq hstride hlow (nodes_asc c) fun n hn =>
    nodeSync_eq hstride (hlow n hn) (hgood n hn).1, List.Perm.flatMap_left _ fun n hn => ?_⟩
  refine List.Perm.map _ ((List.perm_ext_iff_of_nodup (nodup_visitedIn.filter _)
    (List.nodup_range.filter _)).mpr fun i => ?_)
  rw [List.mem_filter, List.mem_filter, mem_visitedIn hstride (hlow n hn), List.mem_range,
    decide_eq_true_eq]
  constructor
  · intro hi
    exact ⟨hi.1.2.2.2.1, ((hgood n hn).2 i hi.1.2.2.2.1).mp hi⟩
  · rintro ⟨hi, hdirty⟩
    exact ((hgood n hn).2 i hi).mpr hdirty

theorem steady_of_synced (h : map.Synced min max c) : ∀ n ∈ c.nodes, map.Steady min max n := by
  obtain ⟨ws, hws, hperm⟩ := h
  -- what is written has to be written
  have hneeded (n : RbNode) (hn : n ∈ c.nodes) (j : ℕ) (hj : j < n.block.length)
      (hmem : (n.reg map.regStride j, n.block.getD j 0) ∈ ws) :
      map.InInterval min max n j ∧ map.Dirty n j := by
    obtain ⟨m, hm, hmem⟩ := List.mem_flatMap.mp (hperm.mem_iff.mp hmem)
    obtain ⟨i, hi, hdirty, heq⟩ := mem_dirtyIn.mp hmem
    obtain ⟨rfl, rfl⟩ := eq_of_reg_eq hstride c hm hn hi hj (congrArg Prod.fst heq)
    exact hdirty
  have hsingle (n : RbNode) (hn : n ∈ c.nodes) (hraw : map.canRawWrite = true)
      (hne : map.regStride ≠ 1) : ∀ i ∈ visitedIn min max n, map.sent n i = false := by
    intro i hi
    rw [← Bool.not_eq_true]
    intro hsent
    obtain ⟨wsn, hwsn, hsub⟩ := nodeSync_of_rbtreeSync hstride hlow (nodes_asc c) hws hn
    obtain ⟨j, hj, hwrong, hmem⟩ :=
      mem_nodeSync (by omega) (hlow n hn) hraw hi hsent hwsn
    obtain ⟨hin, hdirty⟩ := hneeded n hn j hj (hsub hmem)
    rcases hwrong with habove | hfalse
    · exact absurd hin.2 (Nat.not_le.mpr habove)
    · rw [sent_of_dirty htable (hlow n hn) hj hdirty] at hfalse
      cases hfalse
  -- so the writes are those of the visited elements
  obtain rfl := Option.some.inj (hws.symm.trans (rbtreeSync_eq hstride hlow (nodes_asc c)
    fun n hn => nodeSync_eq hstride (hlow n hn) (hsingle n hn)))
  intro n hn
  refine (steady_iff hstride htable (hlow n hn)).mpr ⟨hsingle n hn, fun i hi => ⟨?_, ?_⟩⟩
  · rintro ⟨hvisited, hsent⟩
    refine hneeded n hn i hi (List.mem_flatMap.mpr ⟨n, hn, List.mem_map.mpr ⟨i, ?_, rfl⟩⟩)
    exact List.mem_filter.mpr ⟨(mem_visitedIn hstride (hlow n hn)).mpr hvisited, hsent⟩
  · intro hdirty
    have hmem := hperm.mem_iff.mpr
      (List.mem_flatMap.mpr ⟨n, hn, mem_dirtyIn.mpr ⟨i, hi, hdirty, rfl⟩⟩)
    obtain ⟨m, hm, hmem⟩ := List.mem_flatMap.mp hmem
    obtain ⟨j, hj, heq⟩ := List.mem_map.mp hmem
    obtain ⟨hvisited, hsent⟩ := List.mem_filter.mp hj
    have hvisited := (mem_visitedIn hstride (hlow m hm)).mp hvisited
    obtain ⟨rfl, rfl⟩ :=
      eq_of_reg_eq hstride c hm hn hvisited.2.2.2.1 hi (congrArg Prod.fst heq)
    exact ⟨hvisited, hsent⟩

/-- **Cache synchronisation**: exactly what is cached in the interval and differs from its default
    is written if and only if every block is one that it gets along with. -/
theorem synced_iff : map.Synced min max c ↔ ∀ n ∈ c.nodes, map.Steady min max n :=
  ⟨steady_of_synced hstride htable hlow, synced_of_steady hstride htable hlow⟩

end Exact

end Map

def adjacentMap : Map := ⟨1, true, fun _ => true, [⟨5, 2⟩, ⟨9, 0⟩]⟩

def adjacentCache : RbCache adjacentMap.regStride where
  nodes := [⟨4, [1, 2, 3]⟩, ⟨9, [7]⟩]
  nonempty := by simp
  aligned := fun _ _ => Nat.one_dvd _
  sorted := by decide
  range := by decide

/-- Two runs of registers: the default value of register 5 is left out. -/
theorem adjacent_synced : adjacentMap.Synced 5 9 adjacentCache := by
  refine (Map.synced_iff (by decide) (by decide) (by unfold Map.Low; decide)).mpr fun n hn => ?_
  refine ⟨fun i _ _ => Map.skipped_of_mem (by decide) (by decide), ?_, fun _ hne => absurd rfl hne⟩
  have hvisited : ∀ n ∈ adjacentCache.nodes, ∀ i < n.block.length,
      (Map.Visited 5 9 n i ↔ adjacentMap.InInterval 5 9 n i) := by decide +kernel
  exact fun i hi _ => hvisited n hn i hi

def stridedCache : RbCache 4 where
  nodes := [⟨0, [1, 2, 3]⟩]
  nonempty := by simp
  aligned := by simp
  sorted := by decide
  range := by decide

/-- Registers that are four apart. Written one by one, none of the two registers from 4 to 8 is
    written; written in runs, the whole block is read beyond its end. -/
theorem stride_four_fails :
    ¬ Map.Synced ⟨4, false, fun _ => true, []⟩ 4 8 stridedCache ∧
      ¬ Map.Synced ⟨4, true, fun _ => true, []⟩ 0 8 stridedCache := by
  constructor
  · rintro ⟨ws, hws, hperm⟩
    have hnone : Map.rbtreeSync ⟨4, false, fun _ => true, []⟩ 4 8 stridedCache.nodes = some [] := by
      decide
    obtain rfl := Option.some.inj (hnone.symm.trans hws)
    exact absurd hperm.length_eq (by decide)
  · rintro ⟨ws, hws, -⟩
    have hnone : Map.rbtreeSync ⟨4, true, fun _ => true, []⟩ 0 8 stridedCache.nodes = none := by
      decide +kernel
    rw [hnone] at hws
    cases hws

end NucKernel.Regmap
