import NucKernel.PersistentData.SpaceMap

/-!
# Accounting of the space map (`dm-space-map-common.c`)

A count up to two stands in the bitmap, a larger one in a tree with a 3 in the bitmap. The number of
allocated blocks, the number of free entries of a bitmap and the place before which none is free
are adjusted where a count becomes zero or stops being zero.

## Modelling

- A block has an entry if its bitmap is one of those of the space map, whose last one may go beyond
  `nr_blocks`.
- `refCounts` stands for the tree at `ref_count_root`, which is taken to be a map. No metadata block
  fails to load.
-/

namespace NucKernel.PersistentData.SpaceMap

namespace LlDisk

variable (ll : LlDisk)

/-- `sm_ll_inc`; `none` is an error, which changes nothing. -/
def smLlInc (b : ℕ) : Option (LlDisk × Option AllocationEvent) :=
  match ll.smLlLookup b with
  | none => none
  | some rc => some (ll.smLlInsert b ((rc + 1) % 2 ^ 32))

def smLlDec (b : ℕ) : Option (LlDisk × Option AllocationEvent) :=
  match ll.smLlLookup b with
  | none => none
  | some rc => if rc = 0 then none else some (ll.smLlInsert b (rc - 1))

def entryCount : ℕ := dmSectorDivUp ll.nrBlocks ll.entriesPerBlock * ll.entriesPerBlock

end LlDisk

/-- A call that changes a count -/
inductive Call
  | insert (b refCount : ℕ)
  | inc (b : ℕ)
  | dec (b : ℕ)

namespace Call

def block : Call → ℕ
  | insert b _ => b
  | inc b => b
  | dec b => b

def exec (ll : LlDisk) : Call → LlDisk
  | insert b refCount => (ll.smLlInsert b refCount).1
  | inc b => ((ll.smLlInc b).map Prod.fst).getD ll
  | dec b => ((ll.smLlDec b).map Prod.fst).getD ll

/-- The count of its block after the call. A count of zero stays as it is when it is to be
    decremented. -/
def newCount (count : ℕ → ℕ) : Call → ℕ
  | insert _ refCount => refCount
  | inc b => count b + 1
  | dec b => count b - 1

def apply (count : ℕ → ℕ) (call : Call) : ℕ → ℕ :=
  Function.update count call.block (call.newCount count)

end Call

/-- Every call is for a block with an entry, and leaves a count below `2 ^ 32 - 1`. -/
def Fits (entryCount : ℕ) : (ℕ → ℕ) → List Call → Prop
  | _, [] => True
  | count, call :: calls =>
    call.block < entryCount ∧ call.newCount count < 2 ^ 32 - 1 ∧
      Fits entryCount (call.apply count) calls

def allocated (entryCount : ℕ) (count : ℕ → ℕ) : Finset ℕ :=
  (Finset.range entryCount).filter fun b => count b ≠ 0

/-- The space map has these counts, and its totals, index entries and bitmaps agree with them. -/
structure Accounts (ll : LlDisk) (count : ℕ → ℕ) : Prop where
  lookup : ∀ b < ll.entryCount, ll.smLlLookup b = some (count b)
  bitmap : ∀ b < ll.entryCount, ll.smLlLookupBitmap b = LlDisk.bitmapCount (count b)
  correct : ll.Correct
  nrAllocated : ll.nrAllocated = (allocated ll.entryCount count).card

theorem mem_allocated {entryCount : ℕ} {count : ℕ → ℕ} {b : ℕ} :
    b ∈ allocated entryCount count ↔ b < entryCount ∧ count b ≠ 0 := by
  simp [allocated]

theorem allocated_update {entryCount : ℕ} (count : ℕ → ℕ) {b : ℕ} (hb : b < entryCount) (n : ℕ) :
    allocated entryCount (Function.update count b n) =
      if n = 0 then (allocated entryCount count).erase b
      else insert b (allocated entryCount count) := by
  ext c
  rcases eq_or_ne c b with rfl | hne
  · split_ifs with hn <;> simp [mem_allocated, hn, hb]
  · split_ifs with hn <;> simp [mem_allocated, hne]

theorem nrAllocated_smLlInsert (ll : LlDisk) (b refCount : ℕ) :
    (ll.smLlInsert b refCount).1.nrAllocated = ll.nrAllocated +
      if refCount ≠ 0 ∧ ll.smLlLookupBitmap b = 0 then 1
      else if ll.smLlLookupBitmap b ≠ 0 ∧ refCount = 0 then -1 else 0 := by
  change (if refCount ≠ 0 ∧ ll.smLlLookupBitmap b = 0 then
      (some LlDisk.AllocationEvent.smAlloc, ll.nrAllocated + 1)
    else if ll.smLlLookupBitmap b ≠ 0 ∧ refCount = 0 then (some .smFree, ll.nrAllocated - 1)
    else (none, ll.nrAllocated)).2 = _
  split_ifs
  · rfl
  · rfl
  · exact (Int.add_zero _).symm

variable {ll : LlDisk} {count : ℕ → ℕ}

theorem Accounts.smLlInsert (h : Accounts ll count) {b : ℕ} (hb : b < ll.entryCount)
    (refCount : ℕ) :
    Accounts (ll.smLlInsert b refCount).1 (Function.update count b refCount) where
  lookup c hc := by
    rw [LlDisk.smLlLookup_smLlInsert, h.lookup c hc, Function.update_apply]
    split_ifs <;> rfl
  bitmap c hc := by
    rw [LlDisk.smLlLookupBitmap_smLlInsert, h.bitmap c hc, Function.update_apply]
    split_ifs <;> rfl
  correct := h.correct.smLlInsert (Nat.pos_of_mul_pos_left (Nat.zero_lt_of_lt hb)) b refCount
  nrAllocated := by
    rw [show (ll.smLlInsert b refCount).1.entryCount = ll.entryCount from rfl,
      nrAllocated_smLlInsert, h.nrAllocated, h.bitmap b hb, allocated_update count hb]
    simp only [ne_eq, LlDisk.bitmapCount_eq_zero]
    have hmem : b ∈ allocated ll.entryCount count ↔ count b ≠ 0 := by simp [mem_allocated, hb]
    by_cases hold : count b = 0 <;> by_cases hnew : refCount = 0
    · -- The block stays free.
      simp [hold, hnew, Finset.erase_eq_of_notMem (mt hmem.mp (not_not.mpr hold))]
    · -- a block is allocated
      simp [hold, hnew, Finset.card_insert_of_notMem (mt hmem.mp (not_not.mpr hold))]
    · have hcard := Finset.card_erase_add_one (hmem.mpr hold)
      simp only [hold, hnew, not_true_eq_false, not_false_eq_true, and_self,
        if_true, if_false]
      omega
    · -- The block stays allocated.
      simp [hold, hnew, Finset.insert_eq_of_mem (hmem.mpr hold)]

theorem Accounts.exec (h : Accounts ll count) {call : Call} (hb : call.block < ll.entryCount)
    (hfits : call.newCount count < 2 ^ 32 - 1) :
    Accounts (call.exec ll) (call.apply count) := by
  cases call with
  | insert b refCount => exact h.smLlInsert hb refCount
  | inc b =>
    -- the count does not wrap around
    have hrc : (count b + 1) % 2 ^ 32 = count b + 1 :=
      Nat.mod_eq_of_lt (hfits.trans (by decide))
    have hinc : (Call.inc b).exec ll = (ll.smLlInsert b (count b + 1)).1 := by
      simp only [Call.exec, LlDisk.smLlInc, h.lookup b hb, hrc]
      rfl
    rw [hinc]
    exact h.smLlInsert hb _
  | dec b =>
    by_cases hzero : count b = 0
    · -- The call fails, and the count is what it was.
      have hsame : (Call.dec b).apply count = count := by
        apply Function.update_eq_self_iff.mpr
        simp [Call.newCount, Call.block, hzero]
      have hdec : (Call.dec b).exec ll = ll := by
        simp [Call.exec, LlDisk.smLlDec, h.lookup b hb, hzero]
      rwa [hsame, hdec]
    · have hdec : (Call.dec b).exec ll = (ll.smLlInsert b (count b - 1)).1 := by
        simp [Call.exec, LlDisk.smLlDec, h.lookup b hb, hzero]
      rw [hdec]
      exact h.smLlInsert hb _

theorem entryCount_exec (ll : LlDisk) (call : Call) :
    (call.exec ll).entryCount = ll.entryCount := by
  cases call with
  | insert b refCount => rfl
  | inc b =>
    simp only [Call.exec, LlDisk.smLlInc]
    split <;> rfl
  | dec b =>
    simp only [Call.exec, LlDisk.smLlDec]
    split
    · rfl
    · split_ifs <;> rfl

/-- After any sequence of calls the space map has the latest counts, and its totals agree with
    them. -/
theorem run_accounts (h : Accounts ll count) {calls : List Call}
    (hfits : Fits ll.entryCount count calls) :
    Accounts (calls.foldl Call.exec ll) (calls.foldl Call.apply count) := by
  induction calls generalizing ll count with
  | nil => exact h
  | cons call calls ih =>
    obtain ⟨hb, hcount, hrest⟩ := hfits
    apply ih (h.exec hb hcount)
    rwa [entryCount_exec]

theorem fresh_accounts (nrBlocks : ℕ) : Accounts (LlDisk.fresh nrBlocks) fun _ => 0 where
  lookup b _ := by
    simp [LlDisk.smLlLookup, LlDisk.smLlLookupBitmap, LlDisk.fresh, LlDisk.smLookupBitmap_zero]
  bitmap b _ := by
    simp [LlDisk.smLlLookupBitmap, LlDisk.fresh, LlDisk.smLookupBitmap_zero, LlDisk.bitmapCount]
  correct := LlDisk.fresh_correct nrBlocks
  nrAllocated := by simp [allocated, LlDisk.fresh]

theorem run_accounts_upAndDown :
    let calls : List Call := [.insert 5 2, .inc 5, .inc 7, .dec 5, .dec 5, .dec 5, .dec 5]
    let ll := calls.foldl Call.exec (LlDisk.fresh 100)
    Accounts ll (calls.foldl Call.apply fun _ => 0) ∧ ll.smLlLookup 5 = some 0 ∧
      ll.smLlLookup 7 = some 1 := by
  intro calls ll
  have hall : Accounts ll (calls.foldl Call.apply fun _ => 0) :=
    run_accounts (fresh_accounts 100) (by simp [calls, Fits, Call.block, Call.newCount, Call.apply,
      LlDisk.entryCount, dmSectorDivUp, LlDisk.fresh])
  have hentries : ll.entryCount = 16320 := by
    simp only [ll, calls, List.foldl, entryCount_exec]
    rfl
  refine ⟨hall, ?_, ?_⟩
  · rw [hall.lookup 5 (by rw [hentries]; decide)]
    rfl
  · rw [hall.lookup 7 (by rw [hentries]; decide)]
    rfl

end NucKernel.PersistentData.SpaceMap
