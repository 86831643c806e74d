import Mathlib.Algebra.Group.Nat.Defs
import NucKernel.Library.Runs
import NucKernel.Library.Slots

/-!
# The I/O memory pool (`hnos_iomem_manage.c`)

Drivers share one mapping per physical address: `iomem_object_get` returns the object of an address
with its reference count raised, or allocates one and files it in `iomem_pool`; `iomem_object_put`
lowers the count and frees the object at zero.

`nr_iomem` is kept modulo `NR_MAX_IOMEM`, so it reads 0 both for the empty and for the full pool.
The pool's accounting is right exactly as long as the last slot is never used and no reference count
wraps.

## Modelling

- a pointer to a `struct iomem_object` is a number; the heap says which of them are allocated
- `kmalloc` and `ioremap` are answered by the environment (`mem`, `map`); `kmalloc` may answer with
  any memory that is not in use
- `iomem_object_put` on memory that has been freed has no defined effect (`none`)
- the accessors an object points to (`write_byte`, ...) and its spinlock are left out
-/

namespace NucKernel.CharDevices.Iomem

open NucKernel.Library

/-! ## The pool -/

def nrMaxIomem : ℕ := 16

/-- `++` on an `unsigned long` of 32 bits. -/
def incULong (n : ℕ) : ℕ := (n + 1) % 2 ^ 32

def decULong (n : ℕ) : ℕ := (n + (2 ^ 32 - 1)) % 2 ^ 32

theorem incULong_of_lt {n : ℕ} (h : n + 1 < 2 ^ 32) : incULong n = n + 1 := Nat.mod_eq_of_lt h

theorem incULong_max {n : ℕ} (h : n + 1 = 2 ^ 32) : incULong n = 0 := by
  unfold incULong
  rw [h, Nat.mod_self]

theorem decULong_of_pos {n : ℕ} (h : 0 < n) (hlt : n < 2 ^ 32) : decULong n = n - 1 := by
  unfold decULong
  omega

/-- `struct iomem_object`. `ref_cnt` is an `unsigned long` of 32 bits. -/
structure IomemObject where
  phyBase : UInt32
  iomemBase : ℕ
  refCnt : ℕ
  data : UInt32
  deriving DecidableEq, Repr

/-- The static variables of the file, and the objects that are allocated. -/
structure IomemState where
  pool : Fin nrMaxIomem → Option ℕ
  nrIomem : ℤ
  heap : ℕ → Option IomemObject

def iomemPoolEmpty (s : IomemState) : Bool := s.nrIomem = 0

def iomemPoolFull (s : IomemState) : Bool := s.nrIomem = nrMaxIomem

/-- `iomem_object_insert`: the return value and the pool. -/
def iomemObjectInsert (s : IomemState) (obj : ℕ) : ℤ × IomemState :=
  if iomemPoolFull s then (-1, s)
  else
    match Fin.find? fun i => (s.pool i).isNone with
    | some i =>
      -- the count is kept modulo `NR_MAX_IOMEM`, so the last insertion makes it 0
      (0, { s with
        pool := Function.update s.pool i (some obj)
        nrIomem := (s.nrIomem + 1).tmod nrMaxIomem })
    | none => (-1, s)

def iomemObjectDelete (s : IomemState) (obj : ℕ) : ℤ × IomemState :=
  if iomemPoolEmpty s then (-1, s)
  else
    match Fin.find? fun i => s.pool i == some obj with
    | some i =>
      (0, { s with
        pool := Function.update s.pool i none
        nrIomem := (s.nrIomem - 1).tmod nrMaxIomem })
    | none => (-1, s)

/-- `iomem_object_alloc`. `mem` is what `kmalloc` returns, `map` what `ioremap` returns. -/
def iomemObjectAlloc (s : IomemState) (phyBase data : UInt32) (mem map : Option ℕ) :
    Option ℕ × IomemState :=
  match mem, map with
  | some p, some addr =>
    -- the memory is zeroed, so `ref_cnt ++` makes it 1
    let obj : IomemObject := { phyBase, iomemBase := addr, refCnt := 1, data }
    let r := iomemObjectInsert { s with heap := Function.update s.heap p (some obj) } p
    if r.1 < 0 then (none, { r.2 with heap := Function.update r.2.heap p none })
    else (some p, r.2)
  -- no memory, or no mapping and the memory is given back
  | _, _ => (none, s)

/-- The scan of `iomem_object_get`: the first object of the pool with this address. -/
def scanBase (s : IomemState) (phyBase : UInt32) : Option ℕ :=
  Fin.findSome? fun i => (s.pool i).filter fun p => (s.heap p).any (·.phyBase == phyBase)

def retain (s : IomemState) (p : ℕ) (initData : UInt32) : IomemState :=
  { s with
    heap := Function.update s.heap p ((s.heap p).map fun o =>
      { o with refCnt := incULong o.refCnt, data := o.data ||| initData }) }

def iomemObjectGet (s : IomemState) (phyBase initData : UInt32) (mem map : Option ℕ) :
    Option ℕ × IomemState :=
  if phyBase = 0 then (none, s)
  -- the scan is skipped when the pool looks empty
  else if iomemPoolEmpty s then iomemObjectAlloc s phyBase initData mem map
  else
    match scanBase s phyBase with
    | some p => (some p, retain s p initData)
    | none => iomemObjectAlloc s phyBase initData mem map

/-- `iomem_object_free`: the memory is freed whatever `iomem_object_delete` returns. -/
def iomemObjectFree (s : IomemState) (p : ℕ) : ℤ × IomemState :=
  let s := (iomemObjectDelete s p).2
  (0, { s with heap := Function.update s.heap p none })

def iomemObjectPut (s : IomemState) : Option ℕ → Option (ℤ × IomemState)
  | none => some (-1, s)
  | some p =>
    if iomemPoolEmpty s then some (-1, s)
    else
      (s.heap p).map fun o =>
        let o := { o with refCnt := decULong o.refCnt }
        let s := { s with heap := Function.update s.heap p (some o) }
        if o.refCnt = 0 then iomemObjectFree s p else (0, s)

/-! ## Histories of calls -/

/-- A call, with the environment's answers. -/
inductive IomemCall where
  | get (phyBase initData : UInt32) (mem map : Option ℕ)
  | put (p : Option ℕ)
  deriving DecidableEq, Repr

/-- The pool, with the number of gets minus the number of puts of each object. -/
structure IomemHistory extends IomemState where
  refs : ℕ → ℤ

def bookGet (h : IomemHistory) : Option ℕ → ℕ → ℤ
  | none => h.refs
  | some p => Function.update h.refs p (if (h.heap p).isSome then h.refs p + 1 else 1)

def bookPut (h : IomemHistory) : Option ℕ → ℕ → ℤ
  | none => h.refs
  | some p => Function.update h.refs p (h.refs p - 1)

/-- One call. `kmalloc` never answers with memory in use. -/
def iomemStep (h : IomemHistory) : IomemCall → Option IomemHistory
  | .get phyBase initData mem map =>
    if mem.any fun p => (h.heap p).isSome then none
    else
      let r := iomemObjectGet h.toIomemState phyBase initData mem map
      some { r.2 with refs := bookGet h r.1 }
  | .put p =>
    (iomemObjectPut h.toIomemState p).map fun r => { r.2 with refs := bookPut h p }

def IomemHistory.start : IomemHistory :=
  { pool := fun _ => none, nrIomem := 0, heap := fun _ => none, refs := fun _ => 0 }

structure Accounting (h : IomemHistory) : Prop where
  /-- `nr_iomem` counts the slots in use. -/
  count : h.nrIomem = occupied h.pool
  /-- Every live object is in exactly one slot. -/
  slot : ∀ p, (h.heap p).isSome → ∃! i, h.pool i = some p
  /-- Its reference count is the number of gets minus the number of puts. -/
  refs : ∀ p o, h.heap p = some o → (o.refCnt : ℤ) = h.refs p
  /-- Two live objects have different addresses. -/
  bases : ∀ p q o o', h.heap p = some o → h.heap q = some o' → o.phyBase = o'.phyBase → p = q
  full : iomemPoolFull h.toIomemState = true ↔ occupied h.pool = nrMaxIomem
  empty : iomemPoolEmpty h.toIomemState = true ↔ occupied h.pool = 0

/-- A `get` of an address that has a live object finds its count below the maximum; a `get` that
    creates an object leaves a slot unused. -/
def GetFits (h : IomemHistory) (c : IomemCall) (_ : IomemHistory) : Prop :=
  ∀ phyBase initData mem map, c = .get phyBase initData mem map → phyBase ≠ 0 →
    (∀ p o, h.heap p = some o → o.phyBase = phyBase → o.refCnt + 1 < 2 ^ 32) ∧
    ((∀ p o, h.heap p = some o → o.phyBase ≠ phyBase) → mem.isSome → map.isSome →
      occupied h.pool + 1 < nrMaxIomem)

/-! ## The invariant -/

/-- What holds before every call as long as every `get` has fitted. -/
structure IomemHistory.Inv (h : IomemHistory) : Prop where
  count : h.nrIomem = occupied h.pool
  room : occupied h.pool < nrMaxIomem
  live : ∀ p, (h.heap p).isSome ↔ ∃ i, h.pool i = some p
  once : ∀ i j p, h.pool i = some p → h.pool j = some p → i = j
  refs : ∀ p o, h.heap p = some o → (o.refCnt : ℤ) = h.refs p ∧ 0 < o.refCnt ∧ o.refCnt < 2 ^ 32
  bases : ∀ p q o o', h.heap p = some o → h.heap q = some o' → o.phyBase = o'.phyBase → p = q

theorem IomemHistory.start_inv : IomemHistory.start.Inv where
  count := by simp [IomemHistory.start]
  room := by simp [IomemHistory.start, nrMaxIomem]
  live := by simp [IomemHistory.start]
  once := by simp [IomemHistory.start]
  refs := by simp [IomemHistory.start]
  bases := by simp [IomemHistory.start]

namespace IomemHistory.Inv

variable {h : IomemHistory}

theorem accounting (hi : h.Inv) : Accounting h where
  count := hi.count
  slot := by
    intro p hp
    obtain ⟨i, hpool⟩ := (hi.live p).mp hp
    exact ⟨i, hpool, fun j hj => hi.once j i p hj hpool⟩
  refs := fun p o ho => (hi.refs p o ho).1
  bases := hi.bases
  full := by
    unfold iomemPoolFull
    rw [hi.count, decide_eq_true_iff]
    exact Int.natCast_inj
  empty := by simp [iomemPoolEmpty, hi.count]

theorem poolEmpty_iff (hi : h.Inv) :
    iomemPoolEmpty h.toIomemState = true ↔ ∀ i, h.pool i = none := by
  rw [hi.accounting.empty]
  constructor
  · intro hzero i
    -- an occupied slot is counted
    rcases hpool : h.pool i with _ | p
    · rfl
    · have := occupied_pos hpool
      omega
  · intro hnone
    rw [show h.pool = fun _ => none from funext hnone]
    exact occupied_empty

end IomemHistory.Inv

theorem scanBase_some {s : IomemState} {b : UInt32} {p : ℕ} (h : scanBase s b = some p) :
    ∃ i o, s.pool i = some p ∧ s.heap p = some o ∧ o.phyBase = b := by
  obtain ⟨i, hi, -⟩ := Fin.findSome?_eq_some_iff.mp h
  obtain ⟨hpool, hany⟩ := Option.filter_eq_some_iff.mp hi
  rcases ho : s.heap p with _ | o
  · simp [ho] at hany
  · exact ⟨i, o, hpool, rfl, by simpa [ho] using hany⟩

theorem scanBase_none {h : IomemHistory} (hi : h.Inv) {b : UInt32}
    (hscan : scanBase h.toIomemState b = none) :
    ∀ p o, h.heap p = some o → o.phyBase ≠ b := by
  intro p o ho hb
  obtain ⟨i, hpool⟩ := (hi.live p).mp (by simp [ho])
  have := Fin.findSome?_eq_none_iff.mp hscan i
  simp [hpool, ho, hb] at this

theorem scanBase_eq {h : IomemHistory} (hi : h.Inv) {b : UInt32} {p : ℕ} {o : IomemObject}
    (ho : h.heap p = some o) (hb : o.phyBase = b) : scanBase h.toIomemState b = some p := by
  rcases hs : scanBase h.toIomemState b with _ | q
  · exact absurd hb (scanBase_none hi hs p o ho)
  · obtain ⟨-, o', -, ho', hb'⟩ := scanBase_some hs
    rw [hi.bases q p o' o ho' ho (hb'.trans hb.symm)]

/-! ## What one call does -/

theorem iomemObjectGet_eq {h : IomemHistory} (hi : h.Inv) {b : UInt32} (hb : b ≠ 0)
    (data : UInt32) (mem map : Option ℕ) :
    iomemObjectGet h.toIomemState b data mem map =
      match scanBase h.toIomemState b with
      | some p => (some p, retain h.toIomemState p data)
      | none => iomemObjectAlloc h.toIomemState b data mem map := by
  unfold iomemObjectGet
  rw [if_neg hb]
  by_cases hempty : iomemPoolEmpty h.toIomemState = true
  · -- nothing is in the pool, so the scan would not have found anything
    have hscan : scanBase h.toIomemState b = none := by
      rcases hs : scanBase h.toIomemState b with _ | p
      · rfl
      · obtain ⟨i, o, hpool, -⟩ := scanBase_some hs
        simp [hi.poolEmpty_iff.mp hempty i] at hpool
    simp [hempty, hscan]
  · simp [hempty]

theorem iomemObjectAlloc_eq {h : IomemHistory} (hi : h.Inv) (b data : UInt32) (p addr : ℕ) :
    ∃ i, h.pool i = none ∧
      iomemObjectAlloc h.toIomemState b data (some p) (some addr) =
        (some p,
          { pool := Function.update h.pool i (some p)
            nrIomem := (h.nrIomem + 1).tmod nrMaxIomem
            heap := Function.update h.heap p (some ⟨b, addr, 1, data⟩) }) := by
  -- `nr_iomem` has not wrapped, as a slot is unused
  have hnotfull : ¬ h.nrIomem = nrMaxIomem := by
    have := hi.count
    have := hi.room
    omega
  rcases hfind : Fin.find? fun i => (h.pool i).isNone with _ | i
  · -- a pool without a free slot would be full
    have := occupied_of_no_free hfind
    have := hi.room
    omega
  · refine ⟨i, by simpa using Fin.eq_true_of_find?_eq_some hfind, ?_⟩
    simp [iomemObjectAlloc, iomemObjectInsert, iomemPoolFull, hnotfull, hfind]

namespace IomemHistory.Inv

variable {h : IomemHistory}

theorem recount (hi : h.Inv) {p : ℕ} {o n : IomemObject} (ho : h.heap p = some o)
    (hbase : n.phyBase = o.phyBase) (hpos : 0 < n.refCnt) (hlt : n.refCnt < 2 ^ 32) :
    IomemHistory.Inv
      { h with
        heap := Function.update h.heap p (some n)
        refs := Function.update h.refs p n.refCnt } where
  count := hi.count
  room := hi.room
  -- the same objects are live, in the same slots
  live := by
    intro q
    rcases eq_or_ne q p with rfl | hq
    · simpa [ho] using hi.live q
    · simpa [hq] using hi.live q
  once := hi.once
  refs := by
    intro q oq hoq
    rcases eq_or_ne q p with rfl | hq
    · obtain rfl : n = oq := by simpa using hoq
      simpa using ⟨hpos, hlt⟩
    · simpa [hq] using hi.refs q oq (by simpa [hq] using hoq)
  bases := by
    -- the addresses have not moved, so the objects can be compared as they were
    have hold : ∀ q oq, Function.update h.heap p (some n) q = some oq →
        ∃ oq', h.heap q = some oq' ∧ oq.phyBase = oq'.phyBase := by
      intro q oq hoq
      rcases eq_or_ne q p with rfl | hq
      · obtain rfl : n = oq := by simpa using hoq
        exact ⟨o, ho, hbase⟩
      · exact ⟨oq, by simpa [hq] using hoq, rfl⟩
    intro q q' oq oq' hoq hoq' heq
    obtain ⟨a, ha, hab⟩ := hold q oq hoq
    obtain ⟨b, hb, hbb⟩ := hold q' oq' hoq'
    exact hi.bases q q' a b ha hb (by rw [← hab, ← hbb, heq])

theorem create (hi : h.Inv) {i : Fin nrMaxIomem} {p : ℕ} {o : IomemObject}
    (hslot : h.pool i = none) (hfresh : h.heap p = none)
    (hbase : ∀ q oq, h.heap q = some oq → oq.phyBase ≠ o.phyBase) (hone : o.refCnt = 1)
    (hroom : occupied h.pool + 1 < nrMaxIomem) :
    IomemHistory.Inv
      { pool := Function.update h.pool i (some p)
        nrIomem := (h.nrIomem + 1).tmod nrMaxIomem
        heap := Function.update h.heap p (some o)
        refs := Function.update h.refs p 1 } where
  -- a free slot is filled and another one is left, so that the remainder changes nothing
  count := by
    have hcount := hi.count
    dsimp only
    rw [occupied_fill hslot, Int.tmod_eq_of_lt (by omega) (by omega)]
    omega
  room := by
    rw [occupied_fill hslot]
    exact hroom
  live := by
    intro q
    rcases eq_or_ne q p with rfl | hq
    · simpa using ⟨i, by simp⟩
    · -- the slot filled was free, so no other object is affected
      have hold : h.pool i ≠ some q := by simp [hslot]
      have hnew : some p ≠ some q := fun hpq => hq (Option.some.inj hpq).symm
      simp only [Function.update_of_ne hq, hi.live q, exists_update_iff hold hnew]
  once := by
    -- the new pointer was in no slot before
    have hnot : ∀ j, h.pool j ≠ some p := by
      intro j hj
      have := (hi.live p).mpr ⟨j, hj⟩
      simp [hfresh] at this
    intro a b q ha hb
    rcases eq_or_ne a i with hai | hai <;> rcases eq_or_ne b i with hbi | hbi
    · rw [hai, hbi]
    · obtain rfl : p = q := by simpa [hai] using ha
      exact absurd (by simpa [hbi] using hb) (hnot b)
    · obtain rfl : p = q := by simpa [hbi] using hb
      exact absurd (by simpa [hai] using ha) (hnot a)
    · exact hi.once a b q (by simpa [hai] using ha) (by simpa [hbi] using hb)
  refs := by
    intro q oq hoq
    rcases eq_or_ne q p with rfl | hq
    · obtain rfl : o = oq := by simpa using hoq
      simp [hone]
    · simpa [hq] using hi.refs q oq (by simpa [hq] using hoq)
  -- the address of the new object is new
  bases := by
    intro q q' oq oq' hoq hoq' heq
    rcases eq_or_ne q p with hq | hq <;> rcases eq_or_ne q' p with hq' | hq'
    · rw [hq, hq']
    · obtain rfl : o = oq := by simpa [hq] using hoq
      exact absurd heq.symm (hbase q' oq' (by simpa [hq'] using hoq'))
    · obtain rfl : o = oq' := by simpa [hq'] using hoq'
      exact absurd heq (hbase q oq (by simpa [hq] using hoq))
    · exact hi.bases q q' oq oq' (by simpa [hq] using hoq) (by simpa [hq'] using hoq') heq

theorem free (hi : h.Inv) {i : Fin nrMaxIomem} {p : ℕ} (hslot : h.pool i = some p) (x : ℤ) :
    IomemHistory.Inv
      { pool := Function.update h.pool i none
        nrIomem := (h.nrIomem - 1).tmod nrMaxIomem
        heap := Function.update h.heap p none
        refs := Function.update h.refs p x } where
  count := by
    have hcount := hi.count
    have hclear := occupied_clear hslot
    have hroom := hi.room
    dsimp only
    rw [Int.tmod_eq_of_lt (by omega) (by omega)]
    omega
  room := by
    have hclear := occupied_clear hslot
    have hroom := hi.room
    dsimp only
    omega
  live := by
    intro q
    rcases eq_or_ne q p with rfl | hq
    · -- the freed object was in one slot only
      simp only [Function.update_self, Option.isSome_none, Bool.false_eq_true, false_iff]
      rintro ⟨j, hj⟩
      rcases eq_or_ne j i with rfl | hji
      · simp at hj
      · exact hji (hi.once j i q (by simpa [hji] using hj) hslot)
    · -- the other objects stay where they were
      have hold : h.pool i ≠ some q := by
        rw [hslot]
        exact fun hpq => hq (Option.some.inj hpq).symm
      have hnew : (none : Option ℕ) ≠ some q := by simp
      simp only [Function.update_of_ne hq, hi.live q, exists_update_iff hold hnew]
  once := by
    intro a b q ha hb
    rcases eq_or_ne a i with rfl | hai
    · simp at ha
    rcases eq_or_ne b i with rfl | hbi
    · simp at hb
    exact hi.once a b q (by simpa [hai] using ha) (by simpa [hbi] using hb)
  refs := by
    intro q oq hoq
    rcases eq_or_ne q p with rfl | hq
    · simp at hoq
    · simpa [hq] using hi.refs q oq (by simpa [hq] using hoq)
  bases := by
    intro q q' oq oq' hoq hoq' heq
    rcases eq_or_ne q p with rfl | hq
    · simp at hoq
    rcases eq_or_ne q' p with rfl | hq'
    · simp at hoq'
    exact hi.bases q q' oq oq' (by simpa [hq] using hoq) (by simpa [hq'] using hoq') heq

theorem rebook (hi : h.Inv) {p : ℕ} (hdead : h.heap p = none) (x : ℤ) :
    IomemHistory.Inv { h with refs := Function.update h.refs p x } :=
  { hi with
    refs := by
      intro q oq hoq
      rcases eq_or_ne q p with rfl | hq
      · simp [hdead] at hoq
      · simpa [hq] using hi.refs q oq hoq }

end IomemHistory.Inv

theorem iomemStep_get_eq {h h' : IomemHistory} {b data : UInt32} {mem map : Option ℕ}
    (hs : iomemStep h (.get b data mem map) = some h') :
    (∀ p, mem = some p → h.heap p = none) ∧
      h' = { (iomemObjectGet h.toIomemState b data mem map).2 with
        refs := bookGet h (iomemObjectGet h.toIomemState b data mem map).1 } := by
  simp only [iomemStep] at hs
  split at hs
  · cases hs
  · rename_i hmem
    refine ⟨?_, (Option.some.inj hs).symm⟩
    rintro p rfl
    simpa using hmem

theorem iomemStep_get {h h' : IomemHistory} (hi : h.Inv) {b data : UInt32} {mem map : Option ℕ}
    (hs : iomemStep h (.get b data mem map) = some h')
    (hfit : GetFits h (.get b data mem map) h') : h'.Inv := by
  obtain ⟨hmem, rfl⟩ := iomemStep_get_eq hs
  rcases eq_or_ne b 0 with rfl | hb
  · -- a null address is refused
    simpa [iomemObjectGet, bookGet] using hi
  obtain ⟨hwrap, hroom⟩ := hfit b data mem map rfl hb
  rw [iomemObjectGet_eq hi hb]
  rcases hscan : scanBase h.toIomemState b with _ | p
  · -- no object of this address: a new one, if the environment answers
    rcases mem with _ | p
    · simpa [iomemObjectAlloc, bookGet] using hi
    rcases map with _ | addr
    · simpa [iomemObjectAlloc, bookGet] using hi
    have hfresh := hmem p rfl
    obtain ⟨i, hslot, halloc⟩ := iomemObjectAlloc_eq hi b data p addr
    simp only [halloc, bookGet, hfresh, Option.isSome_none, Bool.false_eq_true, if_false]
    have hnew := scanBase_none hi hscan
    exact hi.create hslot hfresh hnew rfl (hroom hnew rfl rfl)
  · -- one more reference
    obtain ⟨i, o, -, ho, hbase⟩ := scanBase_some hscan
    have hlt := hwrap p o ho hbase
    obtain ⟨hrefs, -, -⟩ := hi.refs p o ho
    have := hi.recount (n := { o with refCnt := o.refCnt + 1, data := o.data ||| data }) ho rfl
      (Nat.succ_pos _) hlt
    simpa [retain, bookGet, ho, incULong_of_lt hlt, ← hrefs] using this

theorem iomemObjectDelete_eq {s : IomemState} {p : ℕ} {i : Fin nrMaxIomem}
    (hempty : iomemPoolEmpty s = false) (hslot : s.pool i = some p) :
    ∃ j, s.pool j = some p ∧
      (iomemObjectDelete s p).2 =
        { s with
          pool := Function.update s.pool j none
          nrIomem := (s.nrIomem - 1).tmod nrMaxIomem } := by
  rcases hfind : Fin.find? fun j => s.pool j == some p with _ | j
  · -- the object is in slot `i`, so the scan does not fail
    have := Fin.eq_false_of_find?_eq_none hfind i
    simp [hslot] at this
  · refine ⟨j, by simpa using Fin.eq_true_of_find?_eq_some hfind, ?_⟩
    simp [iomemObjectDelete, hempty, hfind]

theorem iomemObjectPut_eq {s : IomemState} {p n : ℕ} {o : IomemObject}
    (hempty : iomemPoolEmpty s = false) (ho : s.heap p = some o) (hn : decULong o.refCnt = n) :
    iomemObjectPut s (some p) =
      let s' := { s with heap := Function.update s.heap p (some { o with refCnt := n }) }
      some (if n = 0 then iomemObjectFree s' p else (0, s')) := by
  subst hn
  simp only [iomemObjectPut, hempty, Bool.false_eq_true, if_false, ho, Option.map_some]

theorem iomemStep_put {h h' : IomemHistory} (hi : h.Inv) {p : Option ℕ}
    (hs : iomemStep h (.put p) = some h') : h'.Inv := by
  rcases p with _ | p
  · -- a null pointer
    obtain rfl := Option.some.inj hs
    exact hi
  unfold iomemStep at hs
  obtain ⟨r, hr, rfl⟩ := Option.map_eq_some_iff.mp hs
  rcases hempty : iomemPoolEmpty h.toIomemState with _ | _
  · rcases ho : h.heap p with _ | o
    · -- freed memory
      simp [iomemObjectPut, hempty, ho] at hr
    obtain ⟨hrefs, hpos, hlt⟩ := hi.refs p o ho
    rw [iomemObjectPut_eq hempty ho (decULong_of_pos hpos hlt)] at hr
    obtain rfl := Option.some.inj hr
    by_cases hlast : o.refCnt - 1 = 0
    · -- the last reference: the object leaves its slot
      obtain ⟨i, hslot⟩ := (hi.live p).mp (by simp [ho])
      obtain ⟨j, hj, hdel⟩ := iomemObjectDelete_eq
        (s := { h.toIomemState with
          heap := Function.update h.heap p (some { o with refCnt := 0 }) }) hempty hslot
      simp only [hlast, if_true, iomemObjectFree, hdel, Function.update_idem, bookPut]
      exact hi.free hj _
    · -- other references are left
      have hkeep := hi.recount (n := { o with refCnt := o.refCnt - 1 }) ho rfl
        (Nat.pos_of_ne_zero hlast) (Nat.lt_of_le_of_lt (Nat.sub_le ..) hlt)
      have hbook : h.refs p - 1 = ((o.refCnt - 1 : ℕ) : ℤ) := by omega
      simp only [hlast, if_false, bookPut, hbook]
      exact hkeep
  · -- an empty pool has no live object
    have hdead : h.heap p = none := by
      rcases ho : h.heap p with _ | o
      · rfl
      · obtain ⟨i, hslot⟩ := (hi.live p).mp (by simp [ho])
        simp [hi.poolEmpty_iff.mp hempty i] at hslot
    simp only [iomemObjectPut, hempty, if_true, Option.some.injEq] at hr
    subst hr
    exact hi.rebook hdead _

theorem not_accounting_of_not_fits {h h' : IomemHistory} (hi : h.Inv) {b data : UInt32}
    {mem map : Option ℕ} (hs : iomemStep h (.get b data mem map) = some h')
    (hno : ¬ GetFits h (.get b data mem map) h') : ¬ Accounting h' := by
  intro hacc
  apply hno
  rintro _ _ _ _ ⟨⟩ hb
  obtain ⟨-, rfl⟩ := iomemStep_get_eq hs
  rw [iomemObjectGet_eq hi hb] at hacc
  constructor
  · -- the count of the object wraps to 0 while the books go on
    intro p o ho hbase
    have hscan := scanBase_eq hi ho hbase
    obtain ⟨hrefs, -, hlt⟩ := hi.refs p o ho
    have := hacc.refs p { o with refCnt := incULong o.refCnt, data := o.data ||| data }
      (by simp [hscan, retain, ho])
    simp only [hscan, bookGet, ho, Option.isSome_some, if_true, Function.update_self] at this
    by_contra hmax
    rw [incULong_max (by omega)] at this
    omega
  · -- the last slot is used and `nr_iomem` wraps to 0
    intro hnew hm hn
    have hscan : scanBase h.toIomemState b = none := by
      rcases hs : scanBase h.toIomemState b with _ | q
      · rfl
      · obtain ⟨-, o, -, ho, hbase⟩ := scanBase_some hs
        exact absurd hbase (hnew q o ho)
    obtain ⟨p, rfl⟩ := Option.isSome_iff_exists.mp hm
    obtain ⟨addr, rfl⟩ := Option.isSome_iff_exists.mp hn
    obtain ⟨i, hslot, halloc⟩ := iomemObjectAlloc_eq hi b data p addr
    have hcount := hacc.count
    simp only [hscan, halloc, occupied_fill hslot] at hcount
    have := hi.count
    have := hi.room
    have : (h.nrIomem + 1).tmod nrMaxIomem < nrMaxIomem := Int.tmod_lt_of_pos _ (by decide)
    omega

/-- **Accounting, exactly**: over every history of gets and puts from the empty pool, the
    accounting holds after every call if and only if no `get` ever used the last slot or raised a
    count past its 32 bits. -/
theorem accounting_iff (calls : List IomemCall) :
    Along iomemStep (fun _ _ h' => Accounting h') IomemHistory.start calls ↔
      Along iomemStep GetFits IomemHistory.start calls := by
  have hput : ∀ h p h', GetFits h (.put p) h' := fun h p h' b d m a hc => by cases hc
  apply along_iff (I := IomemHistory.Inv) _ _ IomemHistory.start_inv
  · intro h c h' hi hs
    cases c with
    | get b data mem map =>
      constructor
      · intro hacc
        by_contra hno
        exact not_accounting_of_not_fits hi hs hno hacc
      · intro hfit
        exact (iomemStep_get hi hs hfit).accounting
    | put p => exact iff_of_true (iomemStep_put hi hs).accounting (hput h p h')
  · -- the invariant is kept by every call that fits
    intro h c h' hi hs hfit
    cases c with
    | get b data mem map => exact iomemStep_get hi hs hfit
    | put p => exact iomemStep_put hi hs

/-- Sixteen gets of different addresses, all answered. -/
def sixteenGets : List IomemCall :=
  (List.range 16).map fun i => .get (UInt32.ofNat (i + 1)) 0 (some i) (some i)

/-- With all sixteen slots in use the pool counts 0 objects. -/
theorem full_pool_counts_zero :
    ¬ Along iomemStep (fun _ _ h' => Accounting h') IomemHistory.start sixteenGets := by
  intro hall
  have hend : ∃ h, runFrom iomemStep IomemHistory.start sixteenGets = some h ∧
      h.nrIomem = 0 ∧ h.pool ⟨0, by decide⟩ = some 0 := by
    refine ⟨_, rfl, ?_, ?_⟩ <;> decide +kernel
  obtain ⟨h, hrun, hzero, hslot⟩ := hend
  have hacc : Accounting h := inv_of_along (I := Accounting) (fun _ _ _ _ _ hacc => hacc)
    IomemHistory.start_inv.accounting hall hrun
  have := hacc.count
  have := occupied_pos hslot
  omega

end NucKernel.CharDevices.Iomem
