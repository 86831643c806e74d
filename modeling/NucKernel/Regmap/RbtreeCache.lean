import NucKernel.Library.Runs
import NucKernel.Library.SearchTree
import NucKernel.Regmap.CacheSync

/-!
# The register cache as a map (`regcache-rbtree.c`)

Registers are kept in blocks of adjacent ones. A register that is written first is glued to the
front or the back of a block beside it, or gets a block of its own. Blocks are in a tree, in the
order of their registers, and the block that was used last is remembered.

## Modelling

- memory is available
- nodes of the tree are numbers, with a table of their fields. How the tree is balanced is left open
- the bitmap of the registers that are present is a set
- `abs` is not part of the source: the distance of two numbers as signed ones
- an element of a block has the bits of `cache_word_size` bytes, for sizes 1, 2 and 4; another
  size (3, with values of 24 bits) ends in `BUG()`
-/

namespace NucKernel.Regmap

open NucKernel.Library

/-- `struct regcache_rbtree_ctx`, with the nodes and the bitmap of the map. The next node that is
    allocated has the number `used`. -/
structure RbtreeCtx where
  root : SearchTree ℕ
  cachedRbnode : Option ℕ
  rbnode : ℕ → RbNode
  used : ℕ
  cachePresent : ℕ → Bool

def RbtreeCtx.init : RbtreeCtx := ⟨.leaf, none, fun _ => ⟨0, []⟩, 0, fun _ => false⟩

/-- What an element of a block gives back -/
def cacheWord (cacheWordSize val : ℕ) : ℕ := val % 2 ^ (8 * cacheWordSize)

/-- `top` of `regcache_rbtree_get_base_top_reg` -/
def RbNode.topReg (stride : ℕ) (n : RbNode) : ℕ :=
  (n.baseReg + (n.block.length + 2 ^ 32 - 1) % 2 ^ 32 * stride) % 2 ^ 32

/-- `base_reg + i * reg_stride` -/
def RbNode.regTmp (stride : ℕ) (n : RbNode) (i : ℕ) : ℕ := (n.baseReg + i * stride) % 2 ^ 32

/-- `abs(a - b)` -/
def absDiff (a b : ℕ) : ℕ :=
  let d := (a + 2 ^ 32 - b) % 2 ^ 32
  if d < 2 ^ 31 then d else 2 ^ 32 - d

namespace RbtreeCtx

section

variable (balance : Balance ℕ) (stride cacheWordSize : ℕ) (c : RbtreeCtx)

/-- Where a register is, seen from a block -/
def regCmp (reg id : ℕ) : Ordering :=
  if (c.rbnode id).baseReg ≤ reg ∧ reg ≤ (c.rbnode id).topReg stride then .eq
  else if (c.rbnode id).topReg stride < reg then .gt
  else .lt

/-- `regcache_rbtree_lookup` -/
def rbtreeLookup (reg : ℕ) : RbtreeCtx × Option ℕ :=
  let search := match c.root.find (c.regCmp stride reg) with
    | some id => ({ c with cachedRbnode := some id }, some id)
    | none => (c, none)
  match c.cachedRbnode with
  | some id => if c.regCmp stride reg id = .eq then (c, some id) else search
  | none => search

/-- `regcache_rbtree_insert` -/
def rbtreeInsert (id : ℕ) : RbtreeCtx :=
  match c.root.insert (c.regCmp stride (c.rbnode id).baseReg) id with
  | some t => { c with root := balance.color t }
  | none => c

/-- `(reg - base_reg) / reg_stride` -/
def index (id reg : ℕ) : ℕ := (reg + 2 ^ 32 - (c.rbnode id).baseReg) % 2 ^ 32 / stride

/-- `regcache_rbtree_read`: `none` inside for -ENOENT. There is no result if an element beyond the
    end of a block is read. -/
def rbtreeRead (reg : ℕ) : Option (RbtreeCtx × Option ℕ) :=
  match c.rbtreeLookup stride reg with
  | (c', none) => some (c', none)
  | (c', some id) =>
    if ¬ c'.cachePresent reg then some (c', none)
    else (c'.rbnode id).block[c'.index stride id reg]?.map fun val => (c', some val)

/-- The loop that looks for an adjacent register: the node, and `pos` -/
def findAdjacent (reg : ℕ) : List ℕ → Option (ℕ × ℕ)
  | [] => none
  | id :: ids =>
    let n := c.rbnode id
    match (List.range n.block.length).find? fun i => absDiff (n.regTmp stride i) reg = stride with
    | some i => some (id, if (n.regTmp stride i + stride) % 2 ^ 32 = reg then i + 1 else i)
    | none => findAdjacent reg ids

/-- `regcache_rbtree_insert_to_block` -/
def insertToBlock (n : RbNode) (pos reg value : ℕ) : RbNode where
  baseReg := if pos = 0 then reg else n.baseReg
  block := n.block.take pos ++ cacheWord cacheWordSize value :: n.block.drop pos

/-- `regcache_rbtree_write` -/
def rbtreeWrite (reg value : ℕ) : Option RbtreeCtx :=
  let c₀ := { c with cachePresent := Function.update c.cachePresent reg true }
  match c₀.rbtreeLookup stride reg with
  | (c', some id) =>
    let n := c'.rbnode id
    let i := c'.index stride id reg
    let n' := { n with block := n.block.set i (cacheWord cacheWordSize value) }
    if i < n.block.length then some { c' with rbnode := Function.update c'.rbnode id n' } else none
  | (c', none) =>
    match c'.findAdjacent stride reg c'.root.inorder with
    | some (id, pos) =>
      -- the register is glued to a block
      some { c' with
        rbnode := Function.update c'.rbnode id
          (insertToBlock cacheWordSize (c'.rbnode id) pos reg value)
        cachedRbnode := some id }
    | none =>
      -- it gets a block of its own
      let id := c'.used
      let c₁ := { c' with
        rbnode := Function.update c'.rbnode id ⟨reg, [cacheWord cacheWordSize value]⟩
        used := c'.used + 1 }
      some { c₁.rbtreeInsert balance stride id with cachedRbnode := some id }

end

/-! ## Blocks -/

variable {balance : Balance ℕ} {stride cacheWordSize : ℕ} {c : RbtreeCtx}

/-- The number of the first register of a block, when registers are counted -/
def first (stride : ℕ) (n : RbNode) : ℕ := n.baseReg / stride

/-- The block has the register with the number `r`. -/
def Has (stride : ℕ) (n : RbNode) (r : ℕ) : Prop :=
  first stride n ≤ r ∧ r < first stride n + n.block.length

theorem Has.sub_lt {n : RbNode} {r : ℕ} (h : Has stride n r) :
    r - first stride n < n.block.length := by
  obtain ⟨hle, hlt⟩ := h
  omega

/-- A block lies on multiples of the stride, is not empty and ends below 2 ^ 31. -/
structure Fits (stride : ℕ) (n : RbNode) : Prop where
  aligned : n.baseReg = first stride n * stride
  nonempty : 1 ≤ n.block.length
  small : (first stride n + n.block.length - 1) * stride < 2 ^ 31

theorem Fits.regTmp {n : RbNode} (h : Fits stride n) {i : ℕ} (hi : i < n.block.length) :
    n.regTmp stride i = (first stride n + i) * stride ∧
      (first stride n + i) * stride < 2 ^ 31 := by
  have hsmall : (first stride n + i) * stride < 2 ^ 31 :=
    (Nat.mul_le_mul_right stride (by omega)).trans_lt h.small
  refine ⟨?_, hsmall⟩
  rw [RbNode.regTmp, h.aligned, ← Nat.add_mul]
  exact Nat.mod_eq_of_lt (by omega)

theorem Fits.topReg {n : RbNode} (h : Fits stride n) (hstride : 1 ≤ stride) :
    n.topReg stride = (first stride n + n.block.length - 1) * stride := by
  have hnonempty := h.nonempty
  have hsmall := h.small
  have hlen : n.block.length ≤ (first stride n + n.block.length - 1) * stride + 1 := by
    have := Nat.le_mul_of_pos_right (first stride n + n.block.length - 1) hstride
    omega
  rw [RbNode.topReg, show (n.block.length + 2 ^ 32 - 1) % 2 ^ 32 = n.block.length - 1 by omega,
    h.aligned, ← Nat.add_mul, ← Nat.add_sub_assoc hnonempty]
  exact Nat.mod_eq_of_lt (by omega)

/-- The comparison of registers is one of their numbers. -/
theorem regCmp_eq (hstride : 1 ≤ stride) {id : ℕ} (h : Fits stride (c.rbnode id)) (r : ℕ) :
    (c.regCmp stride (r * stride) id = .eq ↔ Has stride (c.rbnode id) r) ∧
      (c.regCmp stride (r * stride) id = .gt ↔
        first stride (c.rbnode id) + (c.rbnode id).block.length ≤ r) ∧
      (c.regCmp stride (r * stride) id = .lt ↔ r < first stride (c.rbnode id)) := by
  have hnonempty := h.nonempty
  rw [regCmp, h.topReg hstride, h.aligned]
  simp only [Nat.mul_le_mul_right_iff hstride, Nat.mul_lt_mul_right hstride, Has]
  split
  -- `base_reg <= reg <= top_reg`
  next hin => simp; omega
  next hout =>
    split
    next hgt => simp; omega
    next hle => simp; omega

theorem absDiff_eq (hstride : 1 ≤ stride) {a b : ℕ} (ha : a * stride < 2 ^ 31)
    (hb : b * stride < 2 ^ 31) :
    absDiff (a * stride) (b * stride) = stride ↔ a = b + 1 ∨ b = a + 1 := by
  -- both differences are multiples of the stride, which can be cancelled
  have hcancel : ∀ x y : ℕ, x * stride = y * stride ↔ x = y := fun x y =>
    Nat.mul_left_inj (by omega)
  have hab := hcancel a (b + 1)
  have hba := hcancel b (a + 1)
  rw [Nat.succ_mul] at hab hba
  rw [← hab, ← hba, absDiff]
  split <;> omega

/-! ## The tree -/

/-- Blocks are in order, and the remembered one is among them. -/
structure Shape (stride : ℕ) (c : RbtreeCtx) : Prop where
  fits : ∀ id ∈ c.root.inorder, Fits stride (c.rbnode id)
  sorted : c.root.inorder.Pairwise fun a b =>
    first stride (c.rbnode a) + (c.rbnode a).block.length ≤ first stride (c.rbnode b)
  cached : ∀ id, c.cachedRbnode = some id → id ∈ c.root.inorder
  fresh : ∀ id ∈ c.root.inorder, id < c.used

theorem Shape.guides (h : Shape stride c) (hstride : 1 ≤ stride) (r : ℕ) :
    SearchTree.Guides (c.regCmp stride (r * stride)) c.root.inorder := by
  refine h.sorted.imp_of_mem fun {a b} ha hb hab hne => ?_
  have hgt := (regCmp_eq hstride (h.fits a ha) r).2.1
  have hlt := (regCmp_eq hstride (h.fits b hb) r).2.2
  rw [hlt]
  rw [ne_eq, hgt] at hne
  omega

theorem Shape.eq_of_has (h : Shape stride c) {a b r : ℕ} (ha : a ∈ c.root.inorder)
    (hb : b ∈ c.root.inorder) (har : Has stride (c.rbnode a) r) (hbr : Has stride (c.rbnode b) r) :
    a = b := by
  -- of two blocks in the tree the first one ends before the other one begins
  have hpair : c.root.inorder.Pairwise fun a b =>
      ¬ (Has stride (c.rbnode a) r ∧ Has stride (c.rbnode b) r) := by
    refine h.sorted.imp ?_
    rintro a b hab ⟨⟨-, hra⟩, ⟨hrb, -⟩⟩
    omega
  have hsymm : Std.Symm fun a b => ¬ (Has stride (c.rbnode a) r ∧ Has stride (c.rbnode b) r) :=
    ⟨fun a b hab hba => hab hba.symm⟩
  by_contra hne
  exact hpair.forall ha hb hne ⟨har, hbr⟩

/-- A lookup finds the block that has the register, and remembers it. -/
theorem Shape.lookup (h : Shape stride c) (hstride : 1 ≤ stride) (r : ℕ) :
    (∃ id ∈ c.root.inorder, Has stride (c.rbnode id) r ∧
      c.rbtreeLookup stride (r * stride) = ({ c with cachedRbnode := some id }, some id)) ∨
    (∀ id ∈ c.root.inorder, ¬ Has stride (c.rbnode id) r) ∧
      c.rbtreeLookup stride (r * stride) = (c, none) := by
  have hcmp : ∀ id ∈ c.root.inorder,
      (c.regCmp stride (r * stride) id = .eq ↔ Has stride (c.rbnode id) r) := fun id hid =>
    (regCmp_eq hstride (h.fits id hid) r).1
  have hsearch : ∀ id, c.root.find (c.regCmp stride (r * stride)) = some id ↔
      id ∈ c.root.inorder ∧ c.regCmp stride (r * stride) id = .eq := fun id =>
    SearchTree.find_eq_some_iff (h.guides hstride r)
  by_cases hremembered : ∃ id, c.cachedRbnode = some id ∧ c.regCmp stride (r * stride) id = .eq
  · -- the remembered block has the register
    obtain ⟨id, hid, heq⟩ := hremembered
    have hmem := h.cached id hid
    refine .inl ⟨id, hmem, (hcmp id hmem).mp heq, ?_⟩
    simp only [rbtreeLookup, hid, heq, if_true]
    rw [← hid]
  · -- the block is not the remembered one, and the tree is searched
    have hlookup : c.rbtreeLookup stride (r * stride) =
        match c.root.find (c.regCmp stride (r * stride)) with
        | some id => ({ c with cachedRbnode := some id }, some id)
        | none => (c, none) := by
      rw [rbtreeLookup]
      cases hcached : c.cachedRbnode with
      | none => rfl
      | some id => exact if_neg fun heq => hremembered ⟨id, hcached, heq⟩
    cases hfind : c.root.find (c.regCmp stride (r * stride)) with
    | some id =>
      obtain ⟨hmem, heq⟩ := (hsearch id).mp hfind
      exact .inl ⟨id, hmem, (hcmp id hmem).mp heq, by rw [hlookup, hfind]⟩
    | none =>
      refine .inr ⟨fun id hmem hhas => ?_, by rw [hlookup, hfind]⟩
      have hsome := (hsearch id).mpr ⟨hmem, (hcmp id hmem).mpr hhas⟩
      rw [hfind] at hsome
      cases hsome

theorem Shape.index_eq (h : Shape stride c) (hstride : 1 ≤ stride) {id r : ℕ}
    (hid : id ∈ c.root.inorder) (hhas : Has stride (c.rbnode id) r) (hr : r * stride < 2 ^ 31) :
    c.index stride id (r * stride) = r - first stride (c.rbnode id) := by
  have hle := Nat.mul_le_mul_right stride hhas.1
  rw [index, (h.fits id hid).aligned,
    show (r * stride + 2 ^ 32 - first stride (c.rbnode id) * stride) % 2 ^ 32 =
      r * stride - first stride (c.rbnode id) * stride by omega,
    ← Nat.sub_mul, Nat.mul_div_cancel _ hstride]

theorem findAdjacent_spec (hstride : 1 ≤ stride) {r : ℕ} (hr : r * stride < 2 ^ 31) {ids : List ℕ}
    (hfits : ∀ id ∈ ids, Fits stride (c.rbnode id))
    (hnone : ∀ id ∈ ids, ¬ Has stride (c.rbnode id) r) {id pos : ℕ}
    (hfind : c.findAdjacent stride (r * stride) ids = some (id, pos)) :
    id ∈ ids ∧ (pos = 0 ∧ r + 1 = first stride (c.rbnode id) ∨
      pos = (c.rbnode id).block.length ∧
        r = first stride (c.rbnode id) + (c.rbnode id).block.length) := by
  induction ids with
  | nil => cases hfind
  | cons a ids ih =>
    have hfit := hfits a (List.mem_cons_self ..)
    have hnot := hnone a (List.mem_cons_self ..)
    rw [findAdjacent] at hfind
    split at hfind
    -- the block has a register beside `reg`: as it has not `reg`, that is its first or its last one
    next i hi =>
      obtain ⟨rfl, rfl⟩ := Prod.mk.inj (Option.some.inj hfind)
      refine ⟨List.mem_cons_self .., ?_⟩
      have hlt : i < (c.rbnode a).block.length :=
        List.mem_range.mp (List.mem_of_find?_eq_some hi)
      have hadjacent := List.find?_some hi
      rw [decide_eq_true_eq] at hadjacent
      obtain ⟨htmp, hsmall⟩ := hfit.regTmp hlt
      rw [htmp] at hadjacent ⊢
      -- a stride above 2 ^ 31 is no distance of two registers, so adding it does not wrap
      have hwide : stride ≤ 2 ^ 31 := by
        rw [← hadjacent, absDiff]
        split <;> omega
      rw [absDiff_eq hstride hsmall hr] at hadjacent
      rw [Nat.mod_eq_of_lt (by omega), ← Nat.succ_mul]
      simp only [Nat.mul_left_inj (show stride ≠ 0 by omega)]
      rw [Has] at hnot
      split <;> omega
    next hi =>
      obtain ⟨hmem, hpos⟩ := ih (fun m hm => hfits m (List.mem_cons_of_mem a hm))
        (fun m hm => hnone m (List.mem_cons_of_mem a hm)) hfind
      exact ⟨List.mem_cons_of_mem a hmem, hpos⟩

/-! ## The values -/

/-- The block has the value for the register with the number `r`. -/
def At (stride : ℕ) (n : RbNode) (r val : ℕ) : Prop :=
  first stride n ≤ r ∧ n.block[r - first stride n]? = some val

theorem At.has {n : RbNode} {r val : ℕ} (h : At stride n r val) : Has stride n r := by
  obtain ⟨hle, hval⟩ := h
  obtain ⟨hlt, -⟩ := List.getElem?_eq_some_iff.mp hval
  exact ⟨hle, by omega⟩

/-- The blocks have the values that were written last. -/
structure Inv (stride cacheWordSize : ℕ) (c : RbtreeCtx) (last : ℕ → Option ℕ) : Prop
    extends Shape stride c where
  value : ∀ r val, (last (r * stride)).map (cacheWord cacheWordSize) = some val ↔
    ∃ id ∈ c.root.inorder, At stride (c.rbnode id) r val
  present : ∀ reg, c.cachePresent reg = (last reg).isSome

variable {last : ℕ → Option ℕ}

/-- A value is stored in the block `id`, old or new. -/
theorem Inv.store (h : Inv stride cacheWordSize c last) (hstride : 1 ≤ stride) {c' : RbtreeCtx}
    {r value id : ℕ} {n' : RbNode} (hshape : Shape stride c')
    (hids : ∀ m, m ∈ c'.root.inorder ↔ m = id ∨ m ∈ c.root.inorder)
    (hnode : c'.rbnode = Function.update c.rbnode id n')
    (hpresent : c'.cachePresent = Function.update c.cachePresent (r * stride) true)
    (hother : ∀ m ∈ c.root.inorder, m ≠ id → ¬ Has stride (c.rbnode m) r)
    (hat : ∀ q val, At stride n' q val ↔ if q = r then val = cacheWord cacheWordSize value
      else id ∈ c.root.inorder ∧ At stride (c.rbnode id) q val) :
    Inv stride cacheWordSize c' (Function.update last (r * stride) (some value)) := by
  have hself : c'.rbnode id = n' := by rw [hnode, Function.update_self]
  have hframe : ∀ m, m ≠ id → c'.rbnode m = c.rbnode m := fun m hm => by
    rw [hnode, Function.update_of_ne hm]
  refine ⟨hshape, fun q val => ?_, fun reg => ?_⟩
  · by_cases hq : q = r
    · -- the register itself: only the block `id` has it
      subst hq
      rw [Function.update_self, Option.map_some, Option.some_inj]
      constructor
      · rintro rfl
        refine ⟨id, (hids id).mpr (.inl rfl), ?_⟩
        rw [hself, hat, if_pos rfl]
      · rintro ⟨m, hm, hval⟩
        by_cases hmid : m = id
        · rw [hmid, hself, hat, if_pos rfl] at hval
          exact hval.symm
        · rw [hframe m hmid] at hval
          exact absurd hval.has (hother m (((hids m).mp hm).resolve_left hmid) hmid)
    · -- another register has its value in the same block as before
      have hreg : q * stride ≠ r * stride := fun heq =>
        hq (Nat.mul_right_cancel hstride heq)
      rw [Function.update_of_ne hreg, h.value]
      constructor
      · rintro ⟨m, hm, hval⟩
        refine ⟨m, (hids m).mpr (.inr hm), ?_⟩
        by_cases hmid : m = id
        · subst hmid
          rw [hself, hat, if_neg hq]
          exact ⟨hm, hval⟩
        · rwa [hframe m hmid]
      · rintro ⟨m, hm, hval⟩
        by_cases hmid : m = id
        · rw [hmid, hself, hat, if_neg hq] at hval
          exact ⟨id, hval⟩
        · rw [hframe m hmid] at hval
          exact ⟨m, ((hids m).mp hm).resolve_left hmid, hval⟩
  · rw [hpresent]
    by_cases hreg : reg = r * stride
    · subst hreg
      simp
    · -- the bitmap changes at the register only
      rw [Function.update_of_ne hreg, Function.update_of_ne hreg]
      exact h.present reg

/-- The block is as before, or has the register with the number `r` in addition, at one of its
    ends. -/
def Grown (stride r : ℕ) (n n' : RbNode) : Prop :=
  first stride n' = first stride n ∧ n'.block.length = n.block.length ∨
    n'.block.length = n.block.length + 1 ∧
      (r + 1 = first stride n ∧ first stride n' = r ∨
        r = first stride n + n.block.length ∧ first stride n' = first stride n)

theorem Shape.update (h : Shape stride c) {id r : ℕ} {n' : RbNode} (hid : id ∈ c.root.inorder)
    (hfits : Fits stride n')
    (hgrow : Grown stride r (c.rbnode id) n')
    (hother : ∀ m ∈ c.root.inorder, m ≠ id → ¬ Has stride (c.rbnode m) r)
    (present : ℕ → Bool) :
    Shape stride ⟨c.root, some id, Function.update c.rbnode id n', c.used, present⟩ := by
  rw [Grown] at hgrow
  refine ⟨fun m hm => ?_, h.sorted.imp_of_mem fun {a b} ha hb hab => ?_, ?_, h.fresh⟩
  · -- the grown block fits by assumption, the others did before
    by_cases hmid : m = id
    · subst hmid
      simpa using hfits
    · simpa [Function.update_of_ne hmid] using h.fits m hm
  · have hane := (h.fits a ha).nonempty
    have hbne := (h.fits b hb).nonempty
    -- the order: a neighbour of `id` has not the register `r`, so the end at which `id` grows is
    -- still on the right side of it
    by_cases haid : a = id
    · have hbid : b ≠ id := by
        rintro rfl
        subst haid
        omega
      have hb' := hother b hb hbid
      subst haid
      simp only [Function.update_self, Function.update_of_ne hbid]
      rw [Has] at hb'
      omega
    · -- `b` may be the grown block
      have ha' := hother a ha haid
      rw [Has] at ha'
      by_cases hbid : b = id
      · subst hbid
        simp only [Function.update_self, Function.update_of_ne haid]
        omega
      · simp only [Function.update_of_ne haid, Function.update_of_ne hbid]
        exact hab
  · -- the remembered block is `id`
    rintro m ⟨⟩
    exact hid

/-- A node that is not in the tree can be set up. -/
theorem Shape.alloc (h : Shape stride c) (n' : RbNode) (present : ℕ → Bool) :
    Shape stride ⟨c.root, c.cachedRbnode, Function.update c.rbnode c.used n', c.used + 1, present⟩ ∧
      ∀ id ∈ c.root.inorder, Function.update c.rbnode c.used n' id = c.rbnode id := by
  have hframe : ∀ id ∈ c.root.inorder, Function.update c.rbnode c.used n' id = c.rbnode id :=
    fun id hid => Function.update_of_ne (h.fresh id hid).ne ..
  refine ⟨⟨fun id hid => ?_, h.sorted.imp_of_mem fun {a b} ha hb hab => ?_, h.cached,
    fun id hid => Nat.lt_succ_of_lt (h.fresh id hid)⟩, hframe⟩
  · simpa only [hframe id hid] using h.fits id hid
  · simpa only [hframe a ha, hframe b hb] using hab

theorem Shape.insert (h : Shape stride c) (balance : Balance ℕ) (hstride : 1 ≤ stride) (id r : ℕ)
    (hused : id < c.used) (hfits : Fits stride (c.rbnode id))
    (hfirst : first stride (c.rbnode id) = r) (hlen : (c.rbnode id).block.length = 1)
    (hnone : ∀ m ∈ c.root.inorder, ¬ Has stride (c.rbnode m) r) :
    ∃ root, c.rbtreeInsert balance stride id = { c with root := root } ∧
      (∀ m, m ∈ root.inorder ↔ m = id ∨ m ∈ c.root.inorder) ∧
      Shape stride { c with root := root, cachedRbnode := some id } := by
  have hcmp := fun m hm => regCmp_eq hstride (h.fits m hm) r
  -- a place is found, as no block has the register
  have hinsert : ∃ t, c.root.insert (c.regCmp stride (r * stride)) id = some t ∧
      SearchTree.Inserted (c.regCmp stride (r * stride)) id c.root.inorder t.inorder :=
    SearchTree.insert_spec (h.guides hstride r) fun m hm heq => hnone m hm ((hcmp m hm).1.mp heq)
  obtain ⟨t, ht, hins⟩ := hinsert
  have hmem : ∀ m, m ∈ (balance.color t).inorder ↔ m = id ∨ m ∈ c.root.inorder := fun m => by
    rw [balance.inorder_color]
    exact hins.mem_iff m
  refine ⟨balance.color t, ?_, hmem, ⟨fun m hm => ?_, ?_, ?_, fun m hm => ?_⟩⟩
  · rw [rbtreeInsert, hfits.aligned, hfirst, ht]
  · rcases (hmem m).mp hm with rfl | hm
    · exact hfits
    · exact h.fits m hm
  · simp only [balance.inorder_color]
    -- the new block lies between its neighbours, by the comparisons on the way to its place
    refine hins.pairwise h.sorted (fun a ha hgt => ?_) fun b hb hlt => ?_
    · rw [hfirst]
      exact (hcmp a ha).2.1.mp hgt
    · have := (hcmp b hb).2.2.mp hlt
      omega
  · rintro m ⟨⟩
    exact (hmem id).mpr (.inl rfl)
  · rcases (hmem m).mp hm with rfl | hm
    · exact hused
    · exact h.fresh m hm

/-! ## Reading and writing -/

theorem Inv.remember (h : Inv stride cacheWordSize c last) {id : ℕ} (hid : id ∈ c.root.inorder) :
    Inv stride cacheWordSize { c with cachedRbnode := some id } last :=
  ⟨⟨h.fits, h.sorted, by rintro m ⟨⟩; exact hid, h.fresh⟩, h.value, h.present⟩

theorem Inv.read (h : Inv stride cacheWordSize c last) (hstride : 1 ≤ stride) {r : ℕ}
    (hr : r * stride < 2 ^ 31) :
    ∃ c', c.rbtreeRead stride (r * stride) =
        some (c', (last (r * stride)).map (cacheWord cacheWordSize)) ∧
      Inv stride cacheWordSize c' last := by
  rcases h.lookup hstride r with ⟨id, hid, hhas, hlookup⟩ | ⟨hnone, hlookup⟩
  · -- a block has the register: the value at its index is the one written last
    have hlt := hhas.sub_lt
    have hget := List.getElem?_eq_getElem hlt
    have hvalue := (h.value r _).mpr ⟨id, hid, hhas.1, hget⟩
    have hpresent : c.cachePresent (r * stride) = true := by
      rw [h.present]
      cases hlast : last (r * stride) with
      | none =>
        rw [hlast] at hvalue
        cases hvalue
      | some val => rfl
    have h' := h.remember hid
    refine ⟨_, ?_, h'⟩
    rw [rbtreeRead, hlookup]
    simp only [hpresent, h'.index_eq hstride hid hhas hr, not_true_eq_false, if_false, hget,
      Option.map_some, hvalue]
  · -- no block has it, so it was never written
    refine ⟨c, ?_, h⟩
    rw [rbtreeRead, hlookup]
    cases hlast : (last (r * stride)).map (cacheWord cacheWordSize) with
    | none => rfl
    | some val =>
      obtain ⟨id, hid, hat⟩ := (h.value r val).mp hlast
      exact absurd hat.has (hnone id hid)

/-- A register that is at one of the ends of a block, or beside it, is stored in it. -/
theorem Inv.storeIn (h : Inv stride cacheWordSize c last) (hstride : 1 ≤ stride)
    {id r value : ℕ} {n' : RbNode} (hid : id ∈ c.root.inorder) (hfits : Fits stride n')
    (hgrow : Grown stride r (c.rbnode id) n')
    (hother : ∀ m ∈ c.root.inorder, m ≠ id → ¬ Has stride (c.rbnode m) r)
    (hat : ∀ q val, At stride n' q val ↔ if q = r then val = cacheWord cacheWordSize value
      else At stride (c.rbnode id) q val) :
    Inv stride cacheWordSize ⟨c.root, some id, Function.update c.rbnode id n', c.used,
      Function.update c.cachePresent (r * stride) true⟩
      (Function.update last (r * stride) (some value)) := by
  refine h.store hstride (h.update hid hfits hgrow hother _) (fun m => ?_) rfl rfl hother
    fun q val => ?_
  · constructor
    · exact .inr
    · rintro (rfl | hm)
      · exact hid
      · exact hm
  · rw [hat]
    simp only [hid, true_and]

theorem first_of_baseReg (hstride : 1 ≤ stride) {n : RbNode} {r : ℕ}
    (hbase : n.baseReg = r * stride) : first stride n = r := by
  rw [first, hbase, Nat.mul_div_cancel _ hstride]

theorem set_spec {n : RbNode} {r : ℕ} (hhas : Has stride n r) (h : Fits stride n) (x : ℕ) :
    Fits stride { n with block := n.block.set (r - first stride n) x } ∧
      Grown stride r n { n with block := n.block.set (r - first stride n) x } ∧
      ∀ q val, At stride { n with block := n.block.set (r - first stride n) x } q val ↔
        if q = r then val = x else At stride n q val := by
  have hfirst : first stride { n with block := n.block.set (r - first stride n) x } =
      first stride n := rfl
  refine ⟨⟨h.aligned, ?_, ?_⟩, .inl ⟨rfl, List.length_set⟩, fun q val => ?_⟩
  · simpa using h.nonempty
  · simpa [hfirst] using h.small
  · simp only [At, hfirst]
    split
    next hq =>
      subst hq
      simp [hhas.1, hhas.sub_lt, eq_comm]
    next hq =>
      apply and_congr_right
      intro hle
      rw [List.getElem?_set_ne (by have := hhas.1; omega)]

theorem insertToBlock_spec (hstride : 1 ≤ stride) {n : RbNode} (h : Fits stride n) {r pos : ℕ}
    (hr : r * stride < 2 ^ 31)
    (hpos : pos = 0 ∧ r + 1 = first stride n ∨
      pos = n.block.length ∧ r = first stride n + n.block.length) (value : ℕ) :
    Fits stride (insertToBlock cacheWordSize n pos (r * stride) value) ∧
      Grown stride r n (insertToBlock cacheWordSize n pos (r * stride) value) ∧
      ∀ q val, At stride (insertToBlock cacheWordSize n pos (r * stride) value) q val ↔
        if q = r then val = cacheWord cacheWordSize value else At stride n q val := by
  have hnonempty := h.nonempty
  have hsmall := h.small
  rcases hpos with ⟨rfl, hfront⟩ | ⟨rfl, hback⟩
  · -- in front: `base_reg` becomes the register, and the places of the others move by one
    have hnode : insertToBlock cacheWordSize n 0 (r * stride) value =
        ⟨r * stride, cacheWord cacheWordSize value :: n.block⟩ := rfl
    rw [hnode]
    have hfirst : first stride ⟨r * stride, cacheWord cacheWordSize value :: n.block⟩ = r :=
      first_of_baseReg hstride rfl
    refine ⟨⟨by rw [hfirst], by simp, ?_⟩, .inr ⟨rfl, .inl ⟨hfront, hfirst⟩⟩, fun q val => ?_⟩
    · rw [hfirst, List.length_cons, show r + (n.block.length + 1) - 1 =
        first stride n + n.block.length - 1 by omega]
      exact hsmall
    · simp only [At, hfirst]
      split
      next hq => simp [hq, eq_comm]
      next hq =>
        by_cases hlt : r < q
        · rw [show q - r = (q - first stride n) + 1 by omega, List.getElem?_cons_succ]
          exact and_congr_left fun _ => by omega
        · exact iff_of_false (fun hle => by omega) fun hle => by omega
  · -- at the back: the places of the others stay
    have hnode : insertToBlock cacheWordSize n n.block.length (r * stride) value =
        ⟨n.baseReg, n.block ++ [cacheWord cacheWordSize value]⟩ := by
      rw [insertToBlock, if_neg (by omega), List.take_length, List.drop_length]
    rw [hnode]
    have hfirst : first stride ⟨n.baseReg, n.block ++ [cacheWord cacheWordSize value]⟩ =
      first stride n := rfl
    refine ⟨⟨h.aligned, by simp, ?_⟩, .inr ⟨by simp, .inr ⟨hback, rfl⟩⟩, fun q val => ?_⟩
    · rw [hfirst, List.length_append, List.length_singleton, ← Nat.add_assoc, Nat.add_sub_cancel,
        ← hback]
      exact hr
    · simp only [At, hfirst]
      split
      next hq => simp [hq, hback, eq_comm]
      next hq =>
        apply and_congr_right
        intro hle
        by_cases hlt : q - first stride n < n.block.length
        · rw [List.getElem?_append_left hlt]
        · rw [List.getElem?_eq_none (by simp; omega), List.getElem?_eq_none (by omega)]

theorem Inv.write (h : Inv stride cacheWordSize c last) (balance : Balance ℕ)
    (hstride : 1 ≤ stride) {r : ℕ} (hr : r * stride < 2 ^ 31) (value : ℕ) :
    ∃ c', c.rbtreeWrite balance stride cacheWordSize (r * stride) value = some c' ∧
      Inv stride cacheWordSize c' (Function.update last (r * stride) (some value)) := by
  have h₀ : Shape stride
      { c with cachePresent := Function.update c.cachePresent (r * stride) true } :=
    ⟨h.fits, h.sorted, h.cached, h.fresh⟩
  rw [rbtreeWrite]
  simp only
  rcases h₀.lookup hstride r with ⟨id, hid, hhas, hlookup⟩ | ⟨hnone, hlookup⟩
  · -- a block has the register
    rw [hlookup]
    obtain ⟨hfits, hgrow, hat⟩ :=
      set_spec hhas (h.fits id hid) (cacheWord cacheWordSize value)
    have hindex : RbtreeCtx.index stride ⟨c.root, some id, c.rbnode, c.used,
        Function.update c.cachePresent (r * stride) true⟩ id (r * stride) =
          r - first stride (c.rbnode id) := h₀.index_eq hstride hid hhas hr
    simp only [hindex, if_pos hhas.sub_lt]
    exact ⟨_, rfl, h.storeIn hstride hid hfits hgrow (fun m hm hne hhas' =>
      hne (h.eq_of_has hm hid hhas' hhas)) hat⟩
  · rw [hlookup]
    simp only
    split
    -- a block is beside it
    next id pos hfind =>
      obtain ⟨hid, hpos⟩ := findAdjacent_spec hstride hr h₀.fits hnone hfind
      obtain ⟨hfits, hgrow, hat⟩ := insertToBlock_spec hstride (h.fits id hid) hr hpos value
      exact ⟨_, rfl, h.storeIn hstride hid hfits hgrow (fun m hm _ => hnone m hm) hat⟩
    next hfind =>
      -- a new block with this register alone
      have hfirst : first stride ⟨r * stride, [cacheWord cacheWordSize value]⟩ = r :=
        first_of_baseReg hstride rfl
      obtain ⟨h₁, hframe⟩ := h₀.alloc ⟨r * stride, [cacheWord cacheWordSize value]⟩
        (Function.update c.cachePresent (r * stride) true)
      obtain ⟨root, hroot, hmem, hshape⟩ := h₁.insert balance hstride c.used r
        (Nat.lt_succ_self _)
        (by
          simp only [Function.update_self]
          exact ⟨by rw [hfirst], le_rfl, by rw [hfirst]; exact hr⟩)
        (by simpa only [Function.update_self] using hfirst)
        (by simp only [Function.update_self, List.length_singleton])
        (fun m hm => by
          simp only [hframe m hm]
          exact hnone m hm)
      -- the number of the new node is not in the tree, so that no value of another register is in
      -- it
      have hnew : c.used ∉ c.root.inorder := fun hmem => lt_irrefl _ (h.fresh _ hmem)
      rw [hroot]
      refine ⟨_, rfl, h.store hstride hshape hmem rfl rfl (fun m hm _ => hnone m hm) ?_⟩
      intro q val
      simp only [At, hfirst, hnew, false_and]
      split
      next hq => simp [hq, eq_comm]
      next hq =>
        refine iff_of_false ?_ id
        rintro ⟨hle, hval⟩
        rw [List.getElem?_eq_none (by simp; omega)] at hval
        cases hval

end RbtreeCtx

/-! ## Runs -/

/-- A call -/
inductive CacheOp where
  | read (reg : ℕ)
  | write (reg value : ℕ)
  deriving DecidableEq, Repr

/-- A cache, the values that were written last, and what the last read returned -/
structure CacheRun where
  ctx : RbtreeCtx
  last : ℕ → Option ℕ
  result : Option ℕ

def CacheRun.init : CacheRun := ⟨.init, fun _ => none, none⟩

section

variable (balance : Balance ℕ) (stride cacheWordSize : ℕ)

/-- A call -/
def cacheStep (s : CacheRun) : CacheOp → Option CacheRun
  | .read reg => (s.ctx.rbtreeRead stride reg).map fun res => ⟨res.1, s.last, res.2⟩
  | .write reg value =>
    (s.ctx.rbtreeWrite balance stride cacheWordSize reg value).map fun ctx =>
      ⟨ctx, Function.update s.last reg (some value), none⟩

/-- The call is about a multiple of the stride below 2 ^ 31. -/
def CacheOp.Fits : CacheOp → Prop
  | .read reg => stride ∣ reg ∧ reg < 2 ^ 31
  | .write reg _ => stride ∣ reg ∧ reg < 2 ^ 31

instance : (op : CacheOp) → Decidable (op.Fits stride)
  | .read _ => inferInstanceAs (Decidable (_ ∧ _))
  | .write .. => inferInstanceAs (Decidable (_ ∧ _))

/-- A read returns what was written last to the register, and -ENOENT if nothing was. The blocks are
    disjoint and in order. -/
structure Mapped (s : CacheRun) (op : CacheOp) (s' : CacheRun) : Prop where
  read : ∀ reg, op = .read reg → s'.result = (s.last reg).map (cacheWord cacheWordSize)
  ordered : ∃ cache : RbCache stride, cache.nodes = s'.ctx.root.inorder.map s'.ctx.rbnode

end

variable {balance : Balance ℕ} {stride cacheWordSize : ℕ}

/-- The blocks are those of a cache that can be synchronised. -/
theorem RbtreeCtx.Shape.exists_rbCache {c : RbtreeCtx} (h : RbtreeCtx.Shape stride c)
    (hstride : 1 ≤ stride) :
    ∃ cache : RbCache stride, cache.nodes = c.root.inorder.map c.rbnode := by
  have htop : ∀ id ∈ c.root.inorder, (c.rbnode id).top stride =
      (RbtreeCtx.first stride (c.rbnode id) + (c.rbnode id).block.length - 1) * stride :=
    fun id hid => by
      have hfits := h.fits id hid
      rw [RbNode.top, RbNode.reg, hfits.aligned, ← Nat.add_mul,
        ← Nat.add_sub_assoc hfits.nonempty]
  refine ⟨⟨c.root.inorder.map c.rbnode, ?_, ?_, ?_, ?_⟩, rfl⟩
  · intro n hn
    obtain ⟨id, hid, rfl⟩ := List.mem_map.mp hn
    exact List.ne_nil_of_length_pos (h.fits id hid).nonempty
  · intro n hn
    obtain ⟨id, hid, rfl⟩ := List.mem_map.mp hn
    exact ⟨_, (h.fits id hid).aligned.trans (Nat.mul_comm ..)⟩
  · refine List.pairwise_map.mpr (h.sorted.imp_of_mem fun {a b} ha hb hab => ?_)
    have hnonempty := (h.fits a ha).nonempty
    rw [htop a ha, (h.fits b hb).aligned]
    exact Nat.mul_lt_mul_of_pos_right (by omega) hstride
  · intro n hn
    obtain ⟨id, hid, rfl⟩ := List.mem_map.mp hn
    have := (h.fits id hid).small
    rw [htop id hid]
    omega

theorem cacheStep_mapped (hstride : 1 ≤ stride) (s : CacheRun) (op : CacheOp)
    (h : s.ctx.Inv stride cacheWordSize s.last) (hop : op.Fits stride) :
    ∃ s', cacheStep balance stride cacheWordSize s op = some s' ∧
      s'.ctx.Inv stride cacheWordSize s'.last ∧ Mapped stride cacheWordSize s op s' := by
  cases op with
  | read reg =>
    obtain ⟨⟨r, rfl⟩, hr⟩ := hop
    rw [Nat.mul_comm] at hr
    obtain ⟨c', hread, hinv⟩ := h.read hstride hr
    refine ⟨⟨c', s.last, (s.last (r * stride)).map (cacheWord cacheWordSize)⟩, ?_, hinv, ?_,
      hinv.exists_rbCache hstride⟩
    · rw [cacheStep, Nat.mul_comm, hread, Option.map_some]
    · rintro reg ⟨⟩
      rw [Nat.mul_comm]
  | write reg value =>
    obtain ⟨⟨r, rfl⟩, hr⟩ := hop
    rw [Nat.mul_comm] at hr
    obtain ⟨c', hwrite, hinv⟩ := h.write balance hstride hr value
    refine ⟨⟨c', Function.update s.last (r * stride) (some value), none⟩, ?_, hinv, nofun,
      hinv.exists_rbCache hstride⟩
    rw [cacheStep, Nat.mul_comm, hwrite, Option.map_some]

/-- **Register cache**: for every stride and every run of reads and writes, a read returns the value
    that was written last, cut to a word of the cache, and the blocks stay disjoint and in order. -/
theorem rbtree_cache_map (balance : Balance ℕ) (stride cacheWordSize : ℕ) (hstride : 1 ≤ stride)
    (ops : List CacheOp) (hops : ∀ op ∈ ops, op.Fits stride) :
    (∃ s, runFrom (cacheStep balance stride cacheWordSize) .init ops = some s) ∧
      Along (cacheStep balance stride cacheWordSize) (Mapped stride cacheWordSize) .init ops := by
  refine runs_along (I := fun s => s.ctx.Inv stride cacheWordSize s.last)
    (cacheStep_mapped hstride) ?_ hops
  refine ⟨⟨nofun, .nil, nofun, nofun⟩, fun r val => ?_, fun _ => rfl⟩
  exact iff_of_false nofun fun ⟨id, hid, _⟩ => by cases hid

/-- Registers 4 and 12 get blocks of their own, 8 is put to the first one, and all are read. -/
theorem rbtree_cache_map_four :
    Along (cacheStep (.unbalanced ℕ) 4 2) (Mapped 4 2) .init
      [.write 12 7, .write 4 5, .write 8 70000, .read 8, .read 4, .read 16] :=
  (rbtree_cache_map (.unbalanced ℕ) 4 2 (by decide) _ (by decide)).2

/-- A value of 9 bits is written to a cache whose words are bytes: 255 is read, not 511. -/
theorem wide_value_read :
    (runFrom (cacheStep (.unbalanced ℕ) 1 1) .init [.write 0 511, .read 0]).map (·.result) =
      some (some 255) := by
  decide

end NucKernel.Regmap
