import Mathlib.Data.BitVec
import NucKernel.Library.Lowest

/-!
# The search of the space map (`dm-space-map-common.c`)

The reference counts of the metadata blocks stand in bitmaps, two bits to a block, with an index
entry per bitmap. `sm_ll_find_free_block` walks the index entries of a range of blocks and searches
the bitmaps for the first entry that is zero.

## Modelling

- A bitmap is the sequence of its 64-bit words, after `le64_to_cpu`; `test_bit_le` reads a bit of
  such a word. An index entry stands together with the bitmap of the block it names.
- Positions and block numbers are numbers without a bound: `entries_per_block` fits 32 bits and
  the largest block number 64. `dm_sector_div_up` is taken to round the quotient up.
- No metadata block fails to load.
-/

namespace NucKernel.PersistentData.SpaceMap

open NucKernel.Library

/-! ## One bitmap -/

def entriesPerWord : ℕ := 32

def wordMaskHigh : BitVec 64 := 0xAAAAAAAAAAAAAAAA#64

abbrev Bitmap := ℕ → BitVec 64

def bitmapWordUsed (addr : Bitmap) (b : ℕ) : Bool :=
  let bits := addr (b / entriesPerWord)
  let mask := (bits + wordMaskHigh + 1#64) &&& wordMaskHigh
  ~~~bits &&& mask == 0#64

def smLookupBitmap (addr : Bitmap) (b : ℕ) : ℕ :=
  let w := addr (b / entriesPerWord)
  let bit := 2 * (b % entriesPerWord)
  2 * (w.getLsbD bit).toNat + (w.getLsbD (bit + 1)).toNat

/-- `__set_bit_le` or `__clear_bit_le` -/
def assignBit (w : BitVec 64) (bit : ℕ) (value : Bool) : BitVec 64 :=
  if value then w ||| 1#64 <<< bit else w &&& ~~~(1#64 <<< bit)

def smSetBitmap (addr : Bitmap) (b val : ℕ) : Bitmap :=
  let bit := 2 * (b % entriesPerWord)
  let w := assignBit (addr (b / entriesPerWord)) bit (val.testBit 1)
  Function.update addr (b / entriesPerWord) (assignBit w (bit + 1) (val.testBit 0))

/-- The loop of `sm_find_free`; every turn uses up one unit of the first argument. -/
def smFindFreeLoop (addr : Bitmap) (bitEnd : ℕ) : ℕ → ℕ → Option ℕ
  | 0, _ => none
  | fuel + 1, begin_ =>
    if begin_ < bitEnd then
      if begin_ % entriesPerWord = 0 ∧ bitmapWordUsed addr begin_ then
        smFindFreeLoop addr bitEnd fuel (begin_ + entriesPerWord)
      else if smLookupBitmap addr begin_ = 0 then some begin_
      else smFindFreeLoop addr bitEnd fuel (begin_ + 1)
    else none

/-- `sm_find_free`; `none` is `-ENOSPC`. -/
def smFindFree (addr : Bitmap) (begin_ bitEnd : ℕ) : Option ℕ :=
  smFindFreeLoop addr bitEnd (bitEnd - begin_) begin_

@[simp] theorem getLsbD_assignBit (w : BitVec 64) {bit i : ℕ} (value : Bool) (hi : i < 64) :
    (assignBit w bit value).getLsbD i = if i = bit then value else w.getLsbD i := by
  by_cases h : i = bit
  · subst h
    cases value <;> simp [assignBit, hi]
  · -- the other bits are not touched
    have hother : (1#64 <<< bit).getLsbD i = false := by
      rw [BitVec.getLsbD_shiftLeft, BitVec.getLsbD_one]
      rcases lt_or_ge i bit with hlt | hge
      · simp [hlt]
      · simp [show i - bit ≠ 0 by omega]
    rw [if_neg h]
    cases value with
    | true => rw [assignBit, if_pos rfl, BitVec.getLsbD_or, hother, Bool.or_false]
    | false =>
      rw [assignBit, if_neg Bool.false_ne_true, BitVec.getLsbD_and, BitVec.getLsbD_not, hother]
      simp [hi]

theorem toNat_testBit_of_lt_four :
    ∀ {val : ℕ}, val < 4 → 2 * (val.testBit 1).toNat + (val.testBit 0).toNat = val := by
  decide

theorem smLookupBitmap_smSetBitmap (addr : Bitmap) (b c : ℕ) {val : ℕ} (hval : val < 4) :
    smLookupBitmap (smSetBitmap addr b val) c = if c = b then val else smLookupBitmap addr c := by
  have hbit : 2 * (c % entriesPerWord) + 1 < 64 := by
    have := Nat.mod_lt c (show 0 < entriesPerWord by decide)
    simp only [entriesPerWord] at *
    omega
  simp only [smLookupBitmap, smSetBitmap]
  by_cases hword : c / entriesPerWord = b / entriesPerWord
  · rw [hword, Function.update_self, getLsbD_assignBit _ _ hbit, getLsbD_assignBit _ _ hbit,
      getLsbD_assignBit _ _ (Nat.lt_of_succ_lt hbit),
      getLsbD_assignBit _ _ (Nat.lt_of_succ_lt hbit)]
    by_cases hc : c = b
    · subst hc
      simpa using toNat_testBit_of_lt_four hval
    · -- Two entries of one word differ in their place.
      have hplace : c % entriesPerWord ≠ b % entriesPerWord := by
        simp only [entriesPerWord] at *
        omega
      rw [if_neg hc, if_neg (by omega), if_neg (by omega), if_neg (by omega), if_neg (by omega)]
  · rw [Function.update_of_ne hword, if_neg fun hc => hword (congrArg (· / entriesPerWord) hc)]

/-! ## The word test -/

theorem smLookupBitmap_eq_zero_iff {addr : Bitmap} {b : ℕ} :
    smLookupBitmap addr b = 0 ↔
      (addr (b / entriesPerWord)).getLsbD (2 * (b % entriesPerWord)) = false ∧
      (addr (b / entriesPerWord)).getLsbD (2 * (b % entriesPerWord) + 1) = false := by
  simp [smLookupBitmap, Bool.toNat_eq_zero]

theorem wordMaskHigh_getLsbD :
    ∀ k < 32, wordMaskHigh.getLsbD (2 * k) = false ∧ wordMaskHigh.getLsbD (2 * k + 1) = true := by
  decide

theorem carry_entry (bits : BitVec 64) {k : ℕ} (hk : k < 32) :
    BitVec.carry (2 * k + 1) bits wordMaskHigh true =
        (bits.getLsbD (2 * k) && BitVec.carry (2 * k) bits wordMaskHigh true) ∧
      BitVec.carry (2 * (k + 1)) bits wordMaskHigh true =
        (bits.getLsbD (2 * k + 1) ||
          (bits.getLsbD (2 * k) && BitVec.carry (2 * k) bits wordMaskHigh true)) := by
  obtain ⟨hlow, hhigh⟩ := wordMaskHigh_getLsbD k hk
  -- the lower bit of the entry passes the carry on, if it is set
  have hfirst : BitVec.carry (2 * k + 1) bits wordMaskHigh true =
      (bits.getLsbD (2 * k) && BitVec.carry (2 * k) bits wordMaskHigh true) := by
    rw [BitVec.carry_succ, hlow]
    simp [Bool.atLeastTwo]
  refine ⟨hfirst, ?_⟩
  rw [Nat.mul_succ, BitVec.carry_succ, hhigh, hfirst]
  cases bits.getLsbD (2 * k + 1) <;> simp [Bool.atLeastTwo]

theorem carry_of_entries_ne_zero {bits : BitVec 64} {n : ℕ} (hn : n ≤ 32)
    (h : ∀ k < n, bits.getLsbD (2 * k) = true ∨ bits.getLsbD (2 * k + 1) = true) :
    BitVec.carry (2 * n) bits wordMaskHigh true = true := by
  induction n with
  | zero => simp
  | succ n ih =>
    have hcarry := ih (by omega) fun k hk => h k (by omega)
    rw [(carry_entry bits (by omega)).2, hcarry, Bool.and_true]
    rcases h n (by omega) with hlow | hhigh
    · simp [hlow]
    · simp [hhigh]

/-- A bit of what `bitmap_word_used` tests: it is set if the entry is zero. -/
theorem getLsbD_test (bits : BitVec 64) {k : ℕ} (hk : k < 32) :
    (~~~bits &&& ((bits + wordMaskHigh + 1#64) &&& wordMaskHigh)).getLsbD (2 * k) = false ∧
      (~~~bits &&& ((bits + wordMaskHigh + 1#64) &&& wordMaskHigh)).getLsbD (2 * k + 1) =
        (!bits.getLsbD (2 * k + 1) &&
          !(bits.getLsbD (2 * k) && BitVec.carry (2 * k) bits wordMaskHigh true)) := by
  obtain ⟨hlow, hhigh⟩ := wordMaskHigh_getLsbD k hk
  have hone : 1#64 = (BitVec.ofBool true).setWidth 64 := by decide
  refine ⟨by simp [hlow], ?_⟩
  rw [BitVec.getLsbD_and, BitVec.getLsbD_and, BitVec.getLsbD_not, hone,
    BitVec.getLsbD_add_add_bool (by omega), hhigh, (carry_entry bits hk).1]
  have hwidth : 2 * k + 1 < 64 := by omega
  cases bits.getLsbD (2 * k + 1) <;> simp [hwidth]

theorem bitmapWordUsed_eq_true_iff {addr : Bitmap} {b : ℕ} :
    bitmapWordUsed addr b = true ↔ ∀ k < entriesPerWord,
      smLookupBitmap addr (entriesPerWord * (b / entriesPerWord) + k) ≠ 0 := by
  -- an entry is zero if both of its bits are
  have hentry : ∀ k < entriesPerWord,
      (smLookupBitmap addr (entriesPerWord * (b / entriesPerWord) + k) ≠ 0 ↔
        (addr (b / entriesPerWord)).getLsbD (2 * k) = true ∨
        (addr (b / entriesPerWord)).getLsbD (2 * k + 1) = true) := by
    intro k hk
    have hdiv : (entriesPerWord * (b / entriesPerWord) + k) / entriesPerWord =
        b / entriesPerWord := by
      rw [Nat.mul_add_div (by decide), Nat.div_eq_of_lt hk, Nat.add_zero]
    rw [ne_eq, smLookupBitmap_eq_zero_iff, hdiv, Nat.mul_add_mod, Nat.mod_eq_of_lt hk, not_and_or,
      Bool.not_eq_false, Bool.not_eq_false]
  generalize haddr : addr (b / entriesPerWord) = bits at hentry
  simp only [bitmapWordUsed, haddr, beq_iff_eq]
  constructor
  · -- A zero entry is seen whatever is carried into it.
    intro htest k hk
    have hbit := (getLsbD_test bits hk).2
    rw [htest, BitVec.getLsbD_zero] at hbit
    rw [hentry k hk]
    by_contra hzero
    rw [not_or, Bool.not_eq_true, Bool.not_eq_true] at hzero
    simp [hzero.1, hzero.2] at hbit
  · intro hused
    apply BitVec.eq_of_getLsbD_eq
    intro i hi
    rw [BitVec.getLsbD_zero]
    have hbits : ∀ k < 32, bits.getLsbD (2 * k) = true ∨ bits.getLsbD (2 * k + 1) = true :=
      fun k hk => (hentry k hk).mp (hused k hk)
    obtain ⟨heven, hodd⟩ := getLsbD_test bits (show i / 2 < 32 by omega)
    rcases Nat.mod_two_eq_zero_or_one i with hmod | hmod
    · -- the lower places are masked out
      rwa [show 2 * (i / 2) = i by omega] at heven
    · rw [show 2 * (i / 2) + 1 = i by omega] at hodd
      have hcarry : BitVec.carry (2 * (i / 2)) bits wordMaskHigh true = true :=
        carry_of_entries_ne_zero (by omega) fun k hk => hbits k (by omega)
      rw [hodd, hcarry]
      have hnz := hbits (i / 2) (by omega)
      rw [show 2 * (i / 2) + 1 = i by omega] at hnz
      rcases hnz with h | h <;> simp [h]

/-! ## Search of one bitmap -/

theorem ne_zero_of_bitmapWordUsed {addr : Bitmap} {b q : ℕ} (halign : b % entriesPerWord = 0)
    (hused : bitmapWordUsed addr b = true) (hb : b ≤ q) (hq : q < b + entriesPerWord) :
    smLookupBitmap addr q ≠ 0 := by
  have hword := bitmapWordUsed_eq_true_iff.mp hused (q - b) (by omega)
  rwa [show entriesPerWord * (b / entriesPerWord) = b from
    Nat.mul_div_cancel' (Nat.dvd_of_mod_eq_zero halign), Nat.add_sub_cancel' hb] at hword

theorem smFindFreeLoop_lowest (addr : Bitmap) (bitEnd : ℕ) {fuel begin_ : ℕ}
    (hfuel : bitEnd ≤ begin_ + fuel) :
    Lowest (fun k => smLookupBitmap addr k = 0) begin_ bitEnd
      (smFindFreeLoop addr bitEnd fuel begin_) := by
  induction fuel generalizing begin_ with
  | zero => exact Lowest.of_le hfuel
  | succ fuel ih =>
    rw [smFindFreeLoop]
    split_ifs with hlt hword hzero
    · -- The whole word is skipped.
      have hstep : bitEnd ≤ begin_ + entriesPerWord + fuel := by
        have : 0 < entriesPerWord := by decide
        omega
      exact (ih hstep).skip (Nat.le_add_right _ _)
        fun q hb hq _ => ne_zero_of_bitmapWordUsed hword.1 hword.2 hb hq
    · -- a zero entry is found
      exact Lowest.hit hlt hzero
    · -- this entry is not zero
      refine (ih (by omega)).skip (Nat.le_succ _) fun q hb hq _ => ?_
      rwa [show q = begin_ by omega]
    · exact Lowest.of_le (not_lt.mp hlt)

theorem smFindFree_lowest (addr : Bitmap) (begin_ bitEnd : ℕ) :
    Lowest (fun k => smLookupBitmap addr k = 0) begin_ bitEnd (smFindFree addr begin_ bitEnd) :=
  smFindFreeLoop_lowest addr bitEnd (by omega)

/-! ## Search of the space map -/

/-- A `struct disk_index_entry` with the bitmap of the block that its `blocknr` names -/
structure DiskIndexEntry where
  nrFree : ℕ
  noneFreeBefore : ℕ
  bitmap : Bitmap

def zeroEntries (bitmap : Bitmap) (entries : ℕ) : ℕ :=
  (List.range entries).countP fun k => smLookupBitmap bitmap k = 0

/-- An index entry describes its bitmap: `nr_free` is the number of zero entries, and none of them
    stands before `none_free_before`. -/
structure DiskIndexEntry.Correct (ieDisk : DiskIndexEntry) (entries : ℕ) : Prop where
  nrFree : ieDisk.nrFree = zeroEntries ieDisk.bitmap entries
  noneFreeBefore : ∀ k < ieDisk.noneFreeBefore, smLookupBitmap ieDisk.bitmap k ≠ 0

/-- `struct ll_disk`: `loadIe` is what `load_ie` reads and `save_ie` writes, `refCounts` the tree at
    `ref_count_root` with the counts above two. -/
structure LlDisk where
  entriesPerBlock : ℕ
  nrBlocks : ℕ
  nrAllocated : ℤ
  loadIe : ℕ → DiskIndexEntry
  refCounts : ℕ → Option ℕ

def dmSectorDivUp (n sz : ℕ) : ℕ := (n + sz - 1) / sz

namespace LlDisk

variable (ll : LlDisk)

def smLlLookupBitmap (b : ℕ) : ℕ :=
  smLookupBitmap (ll.loadIe (b / ll.entriesPerBlock)).bitmap (b % ll.entriesPerBlock)

def searchBitmap (i begin_ bitEnd : ℕ) : Option ℕ :=
  let ieDisk := ll.loadIe i
  if ieDisk.nrFree = 0 then none
  else smFindFree ieDisk.bitmap (max begin_ ieDisk.noneFreeBefore) bitEnd

/-- The loop of `sm_ll_find_free_block`. The arguments are the number of turns left, `i` and
    `begin`; `indexEnd` and `end_` are what the loop leaves unchanged. -/
def findFreeLoop (indexEnd end_ : ℕ) : ℕ → ℕ → ℕ → Option ℕ
  | 0, _, _ => none
  | turns + 1, i, begin_ =>
    let bitEnd := if i = indexEnd - 1 then end_ else ll.entriesPerBlock
    match ll.searchBitmap i begin_ bitEnd with
    | none => findFreeLoop indexEnd end_ turns (i + 1) 0
    | some position => some (i * ll.entriesPerBlock + position)

/-- `sm_ll_find_free_block`; `none` is `-ENOSPC`. -/
def smLlFindFreeBlock (begin_ end_ : ℕ) : Option ℕ :=
  let indexBegin := begin_ / ll.entriesPerBlock
  let indexEnd := dmSectorDivUp end_ ll.entriesPerBlock
  ll.findFreeLoop indexEnd (end_ % ll.entriesPerBlock) (indexEnd - indexBegin) indexBegin
    (begin_ % ll.entriesPerBlock)

/-- The index entries of the space map describe their bitmaps. -/
def Correct : Prop :=
  ∀ i < dmSectorDivUp ll.nrBlocks ll.entriesPerBlock, (ll.loadIe i).Correct ll.entriesPerBlock

/-- The end of the range that the search looks at -/
def searchLimit (end_ : ℕ) : ℕ :=
  (dmSectorDivUp end_ ll.entriesPerBlock - 1) * ll.entriesPerBlock + end_ % ll.entriesPerBlock

variable {ll}

theorem searchBitmap_lowest (hcorrect : ll.Correct) {i begin_ bitEnd : ℕ}
    (hi : i < dmSectorDivUp ll.nrBlocks ll.entriesPerBlock) (hend : bitEnd ≤ ll.entriesPerBlock) :
    Lowest (fun k => smLookupBitmap (ll.loadIe i).bitmap k = 0) begin_ bitEnd
      (ll.searchBitmap i begin_ bitEnd) := by
  simp only [searchBitmap]
  split_ifs with hfree
  · -- `nr_free` is 0, so the bitmap has no zero entry
    have hcount := (hcorrect i hi).nrFree
    rw [hfree, eq_comm, zeroEntries, List.countP_eq_zero] at hcount
    intro q _ hq
    simpa using hcount q (List.mem_range.mpr (lt_of_lt_of_le hq hend))
  · -- no zero entry stands before `none_free_before`
    refine (smFindFree_lowest _ _ _).skip (le_max_left _ _) fun q hb hq _ => ?_
    rcases lt_max_iff.mp hq with h | h
    · exact absurd h (not_lt.mpr hb)
    · exact (hcorrect i hi).noneFreeBefore q h

theorem smLlLookupBitmap_add {i k : ℕ} (hk : k < ll.entriesPerBlock) :
    ll.smLlLookupBitmap (i * ll.entriesPerBlock + k) =
      smLookupBitmap (ll.loadIe i).bitmap k := by
  have hpos : 0 < ll.entriesPerBlock := Nat.zero_lt_of_lt hk
  rw [smLlLookupBitmap, Nat.mul_comm, Nat.mul_add_div hpos, Nat.div_eq_of_lt hk, Nat.mul_add_mod,
    Nat.mod_eq_of_lt hk, Nat.add_zero]

theorem findFreeLoop_lowest (hcorrect : ll.Correct) {indexEnd end_ turns i begin_ : ℕ}
    (hbegin : begin_ ≤ ll.entriesPerBlock) (hend : end_ ≤ ll.entriesPerBlock)
    (hempty : indexEnd = 0 → end_ = 0)
    (hindex : indexEnd ≤ dmSectorDivUp ll.nrBlocks ll.entriesPerBlock)
    (hturns : i + turns = indexEnd) :
    Lowest (fun b => ll.smLlLookupBitmap b = 0) (i * ll.entriesPerBlock + begin_)
      ((indexEnd - 1) * ll.entriesPerBlock + end_)
      (ll.findFreeLoop indexEnd end_ turns i begin_) := by
  induction turns generalizing i begin_ with
  | zero =>
    refine Lowest.of_le ?_
    rcases Nat.eq_zero_or_pos indexEnd with hzero | hpos
    · simp [hzero, hempty hzero]
    · -- all bitmaps have been searched
      have hlast : (indexEnd - 1) * ll.entriesPerBlock + ll.entriesPerBlock =
          i * ll.entriesPerBlock := by
        rw [← Nat.succ_mul, show (indexEnd - 1).succ = i by omega]
      omega
  | succ turns ih =>
    have hsearch : ∀ bitEnd ≤ ll.entriesPerBlock,
        Lowest (fun b => ll.smLlLookupBitmap b = 0) (i * ll.entriesPerBlock + begin_)
          (i * ll.entriesPerBlock + bitEnd)
          ((ll.searchBitmap i begin_ bitEnd).map (i * ll.entriesPerBlock + ·)) := by
      intro bitEnd hbit
      refine Lowest.shift (fun q _ hq => ?_) (searchBitmap_lowest hcorrect (by omega) hbit)
      rw [smLlLookupBitmap_add (lt_of_lt_of_le hq hbit)]
    rw [findFreeLoop]
    rcases eq_or_ne i (indexEnd - 1) with hlast | hlast
    · -- The last turn: no other follows, and its range is the rest.
      obtain rfl : turns = 0 := by omega
      have hfound := hsearch end_ hend
      rw [if_pos hlast, ← hlast]
      cases hr : ll.searchBitmap i begin_ end_ <;> simpa [hr, findFreeLoop] using hfound
    · have hfound := hsearch ll.entriesPerBlock le_rfl
      rw [if_neg hlast]
      rw [← Nat.succ_mul] at hfound
      cases hr : ll.searchBitmap i begin_ ll.entriesPerBlock with
      | none =>
        -- nothing is found in this bitmap, and the next one follows
        have hrest := ih (Nat.zero_le _) (show i + 1 + turns = indexEnd by omega)
        rw [hr] at hfound
        refine Lowest.append_none ?_ hfound hrest
        rw [Nat.succ_mul]
        omega
      | some position =>
        rw [hr] at hfound
        refine Lowest.mono_some (Nat.le_add_right_of_le ?_) hfound
        exact Nat.mul_le_mul_right _ (by omega)

theorem dmSectorDivUp_of_dvd {n sz : ℕ} (hpos : 0 < sz) (h : sz ∣ n) :
    dmSectorDivUp n sz = n / sz := by
  obtain ⟨m, rfl⟩ := h
  rw [dmSectorDivUp, Nat.add_sub_assoc hpos, Nat.mul_add_div hpos, Nat.mul_div_cancel_left m hpos,
    Nat.div_eq_of_lt (by omega), Nat.add_zero]

theorem dmSectorDivUp_of_not_dvd {n sz : ℕ} (hpos : 0 < sz) (h : ¬ sz ∣ n) :
    dmSectorDivUp n sz = n / sz + 1 := by
  have hmod : 0 < n % sz := Nat.pos_of_ne_zero fun h0 => h (Nat.dvd_of_mod_eq_zero h0)
  have hlt := Nat.mod_lt n hpos
  have hsplit : n + sz - 1 = sz * (n / sz + 1) + (n % sz - 1) := by
    have := Nat.div_add_mod n sz
    rw [Nat.mul_succ]
    omega
  rw [dmSectorDivUp, hsplit, Nat.mul_add_div hpos,
    Nat.div_eq_of_lt (show n % sz - 1 < sz by omega), Nat.add_zero]

theorem dmSectorDivUp_mono {n m : ℕ} (sz : ℕ) (h : n ≤ m) :
    dmSectorDivUp n sz ≤ dmSectorDivUp m sz :=
  Nat.div_le_div_right (by omega)

theorem div_le_dmSectorDivUp {n sz : ℕ} (hpos : 0 < sz) : n / sz ≤ dmSectorDivUp n sz :=
  Nat.div_le_div_right (by omega)

theorem searchLimit_of_dvd (hpos : 0 < ll.entriesPerBlock) {end_ : ℕ}
    (h : ll.entriesPerBlock ∣ end_) : ll.searchLimit end_ = end_ - ll.entriesPerBlock := by
  rw [searchLimit, dmSectorDivUp_of_dvd hpos h, Nat.mod_eq_zero_of_dvd h, Nat.sub_mul,
    Nat.div_mul_cancel h, Nat.one_mul, Nat.add_zero]

theorem searchLimit_of_not_dvd (hpos : 0 < ll.entriesPerBlock) {end_ : ℕ}
    (h : ¬ ll.entriesPerBlock ∣ end_) : ll.searchLimit end_ = end_ := by
  rw [searchLimit, dmSectorDivUp_of_not_dvd hpos h, Nat.add_sub_cancel, Nat.div_add_mod']

theorem smLlFindFreeBlock_lowest (hpos : 0 < ll.entriesPerBlock) (hcorrect : ll.Correct)
    {begin_ end_ : ℕ} (hbegin : begin_ ≤ end_) (hend : end_ ≤ ll.nrBlocks) :
    Lowest (fun b => ll.smLlLookupBitmap b = 0) begin_ (ll.searchLimit end_)
      (ll.smLlFindFreeBlock begin_ end_) := by
  -- a range without a bitmap is empty
  have hempty : dmSectorDivUp end_ ll.entriesPerBlock = 0 → end_ % ll.entriesPerBlock = 0 := by
    intro hzero
    by_contra hmod
    rw [dmSectorDivUp_of_not_dvd hpos fun h => hmod (Nat.mod_eq_zero_of_dvd h)] at hzero
    exact Nat.succ_ne_zero _ hzero
  have hindex : begin_ / ll.entriesPerBlock ≤ dmSectorDivUp end_ ll.entriesPerBlock :=
    (Nat.div_le_div_right hbegin).trans (div_le_dmSectorDivUp hpos)
  have hloop := findFreeLoop_lowest hcorrect (Nat.mod_lt begin_ hpos).le (Nat.mod_lt end_ hpos).le
    hempty (dmSectorDivUp_mono _ hend) (Nat.add_sub_cancel' hindex)
  rwa [Nat.div_add_mod'] at hloop

/-- The word test is exact. The search gives the lowest free block of `[begin, end)`, and `-ENOSPC`
    only if there is none, unless the range ends with a bitmap and only that bitmap has a free
    block of it. -/
theorem findFreeBlock_lowest_iff (ll : LlDisk) (hpos : 0 < ll.entriesPerBlock)
    (hcorrect : ll.Correct) {begin_ end_ : ℕ} (hbegin : begin_ ≤ end_)
    (hend : end_ ≤ ll.nrBlocks) :
    (∀ (addr : Bitmap) (b : ℕ), bitmapWordUsed addr b = true ↔ ∀ k < 32,
        smLookupBitmap addr (32 * (b / 32) + k) ≠ 0) ∧
      (Lowest (fun b => ll.smLlLookupBitmap b = 0) begin_ end_
          (ll.smLlFindFreeBlock begin_ end_) ↔
        (ll.entriesPerBlock ∣ end_ →
          ∀ b, begin_ ≤ b → end_ - ll.entriesPerBlock ≤ b → b < end_ →
            ll.smLlLookupBitmap b = 0 →
            ∃ c, begin_ ≤ c ∧ c < end_ - ll.entriesPerBlock ∧ ll.smLlLookupBitmap c = 0)) := by
  refine ⟨fun _ _ => bitmapWordUsed_eq_true_iff, ?_⟩
  have hfound := smLlFindFreeBlock_lowest hpos hcorrect hbegin hend
  by_cases hdvd : ll.entriesPerBlock ∣ end_
  · rw [searchLimit_of_dvd hpos hdvd] at hfound
    rw [hfound.extend_iff (Nat.sub_le _ _), hfound.eq_none_iff]
    constructor
    · intro h _ b hb hlast hlt hfree
      by_contra hnone
      push Not at hnone
      exact h hnone b hb hlast hlt hfree
    · intro h hnone b hb hlast hlt hfree
      obtain ⟨c, hc, hlow, hzero⟩ := h hdvd b hb hlast hlt hfree
      exact hnone c hc hlow hzero
  · rw [searchLimit_of_not_dvd hpos hdvd] at hfound
    exact ⟨fun _ h => absurd h hdvd, fun _ => hfound⟩

/-- The space map of `nr_blocks` free blocks that `sm_ll_extend` sets up, for metadata blocks of
    4096 bytes. -/
def fresh (nrBlocks : ℕ) : LlDisk where
  entriesPerBlock := (4096 - 16) * 4
  nrBlocks := nrBlocks
  nrAllocated := 0
  loadIe _ := { nrFree := (4096 - 16) * 4, noneFreeBefore := 0, bitmap := fun _ => 0#64 }
  refCounts _ := none

theorem smLookupBitmap_zero (b : ℕ) : smLookupBitmap (fun _ => 0#64) b = 0 := by
  simp [smLookupBitmap_eq_zero_iff]

theorem fresh_correct (nrBlocks : ℕ) : (fresh nrBlocks).Correct := fun _ _ =>
  ⟨by simp [fresh, zeroEntries, smLookupBitmap_zero], fun k hk => absurd hk (Nat.not_lt_zero k)⟩

theorem findFreeBlock_lowest_fresh :
    Lowest (fun b => (fresh 20000).smLlLookupBitmap b = 0) 3 10
      ((fresh 20000).smLlFindFreeBlock 3 10) :=
  (findFreeBlock_lowest_iff (fresh 20000) (by decide) (fresh_correct _) (by decide)
    (by decide)).2.mpr fun h => absurd h (by decide)

/-- In a fresh space map of just one bitmap no block is found, although all are free. -/
theorem last_bitmap_not_searched :
    (fresh 16320).Correct ∧ (fresh 16320).smLlFindFreeBlock 0 16320 = none ∧
      ∀ b < 16320, (fresh 16320).smLlLookupBitmap b = 0 :=
  ⟨fresh_correct _, by decide, fun _ _ => smLookupBitmap_zero _⟩

/-! ## Changes of a count -/

inductive AllocationEvent
  | smNone
  | smAlloc
  | smFree
deriving DecidableEq

variable (ll)

/-- `sm_ll_lookup`; `none` is `-ENODATA`. -/
def smLlLookup (b : ℕ) : Option ℕ :=
  let result := ll.smLlLookupBitmap b
  if result ≠ 3 then some result else ll.refCounts b

def bitmapCount (refCount : ℕ) : ℕ := if refCount ≤ 2 then refCount else 3

/-- The index entry that `sm_ll_insert` saves when the count in place `bit` was `old` -/
def updateIe (ieDisk : DiskIndexEntry) (bit old refCount : ℕ) : DiskIndexEntry :=
  let bitmap := smSetBitmap ieDisk.bitmap bit (bitmapCount refCount)
  if refCount ≠ 0 ∧ old = 0 then
    { nrFree := ieDisk.nrFree - 1
      noneFreeBefore :=
        if ieDisk.noneFreeBefore = bit then bit + 1 else ieDisk.noneFreeBefore
      bitmap := bitmap }
  else if old ≠ 0 ∧ refCount = 0 then
    { nrFree := ieDisk.nrFree + 1
      noneFreeBefore := min ieDisk.noneFreeBefore bit
      bitmap := bitmap }
  else { ieDisk with bitmap := bitmap }

/-- `sm_ll_insert`; the event is `none` where `*ev` is left as it was. -/
def smLlInsert (b refCount : ℕ) : LlDisk × Option AllocationEvent :=
  let index := b / ll.entriesPerBlock
  let bit := b % ll.entriesPerBlock
  let old := smLookupBitmap (ll.loadIe index).bitmap bit
  let refCounts :=
    if refCount ≤ 2 then
      if old > 2 then Function.update ll.refCounts b none else ll.refCounts
    else Function.update ll.refCounts b (some refCount)
  let ev : Option AllocationEvent × ℤ :=
    if refCount ≠ 0 ∧ old = 0 then (some .smAlloc, ll.nrAllocated + 1)
    else if old ≠ 0 ∧ refCount = 0 then (some .smFree, ll.nrAllocated - 1)
    else (none, ll.nrAllocated)
  ({ ll with
      nrAllocated := ev.2
      refCounts := refCounts
      loadIe := Function.update ll.loadIe index (updateIe (ll.loadIe index) bit old refCount) },
    ev.1)

variable {ll}

theorem bitmapCount_lt (refCount : ℕ) : bitmapCount refCount < 4 := by
  unfold bitmapCount
  split_ifs <;> omega

theorem bitmapCount_eq_zero {refCount : ℕ} : bitmapCount refCount = 0 ↔ refCount = 0 := by
  unfold bitmapCount
  split_ifs with h
  · rfl
  · simp only [false_iff]
    omega

theorem updateIe_bitmap (ieDisk : DiskIndexEntry) (bit old refCount : ℕ) :
    (updateIe ieDisk bit old refCount).bitmap =
      smSetBitmap ieDisk.bitmap bit (bitmapCount refCount) := by
  simp only [updateIe]
  split_ifs <;> rfl

theorem smLlLookupBitmap_smLlInsert (b refCount c : ℕ) :
    (ll.smLlInsert b refCount).1.smLlLookupBitmap c =
      if c = b then bitmapCount refCount else ll.smLlLookupBitmap c := by
  simp only [smLlInsert, smLlLookupBitmap]
  by_cases hindex : c / ll.entriesPerBlock = b / ll.entriesPerBlock
  · -- the place in the bitmap tells the block
    have hplace : c % ll.entriesPerBlock = b % ll.entriesPerBlock ↔ c = b := by
      refine ⟨fun hmod => ?_, fun hc => by rw [hc]⟩
      rw [← Nat.div_add_mod c ll.entriesPerBlock, hindex, hmod, Nat.div_add_mod]
    rw [hindex, Function.update_self, updateIe_bitmap,
      smLookupBitmap_smSetBitmap _ _ _ (bitmapCount_lt refCount)]
    simp only [hplace]
  · rw [Function.update_of_ne hindex, if_neg fun hc => hindex (by rw [hc])]

theorem smLlLookup_smLlInsert (b refCount c : ℕ) :
    (ll.smLlInsert b refCount).1.smLlLookup c =
      if c = b then some refCount else ll.smLlLookup c := by
  simp only [smLlLookup, smLlLookupBitmap_smLlInsert]
  rcases eq_or_ne c b with rfl | hne
  · rw [if_pos rfl, if_pos rfl]
    by_cases hsmall : refCount ≤ 2
    · -- the count is in the bitmap
      rw [bitmapCount, if_pos hsmall, if_pos (by omega)]
    · -- the count is in the tree
      simp [bitmapCount, smLlInsert, hsmall]
  · have hcounts : (ll.smLlInsert b refCount).1.refCounts c = ll.refCounts c := by
      simp only [smLlInsert]
      split_ifs <;> simp [hne]
    rw [if_neg hne, if_neg hne, hcounts]

theorem zeroEntries_congr {bitmap bitmap' : Bitmap} {entries : ℕ}
    (h : ∀ k < entries, smLookupBitmap bitmap' k = 0 ↔ smLookupBitmap bitmap k = 0) :
    zeroEntries bitmap' entries = zeroEntries bitmap entries :=
  List.countP_congr fun k hk => by simp only [decide_eq_true_eq, h k (List.mem_range.mp hk)]

theorem zeroEntries_succ (bitmap : Bitmap) (n : ℕ) :
    zeroEntries bitmap (n + 1) =
      zeroEntries bitmap n + if smLookupBitmap bitmap n = 0 then 1 else 0 := by
  simp [zeroEntries, List.range_succ, List.countP_singleton]

theorem zeroEntries_fill {bitmap bitmap' : Bitmap} {entries bit : ℕ} (hbit : bit < entries)
    (hzero : smLookupBitmap bitmap bit = 0) (hfill : smLookupBitmap bitmap' bit ≠ 0)
    (hsame : ∀ k, k ≠ bit → smLookupBitmap bitmap' k = smLookupBitmap bitmap k) :
    zeroEntries bitmap entries = zeroEntries bitmap' entries + 1 := by
  induction entries with
  | zero => omega
  | succ n ih =>
    rw [zeroEntries_succ, zeroEntries_succ]
    rcases eq_or_ne bit n with rfl | hne
    · rw [if_pos hzero, if_neg hfill, zeroEntries_congr fun k hk => by rw [hsame k hk.ne]]
    · rw [ih (by omega), hsame n hne.symm]
      omega

theorem updateIe_correct {ieDisk : DiskIndexEntry} {entries bit : ℕ} (hbit : bit < entries)
    (h : ieDisk.Correct entries) (refCount : ℕ) :
    (updateIe ieDisk bit (smLookupBitmap ieDisk.bitmap bit) refCount).Correct entries := by
  obtain ⟨hfree, hbefore⟩ := h
  have hnew := fun c => smLookupBitmap_smSetBitmap ieDisk.bitmap bit c (bitmapCount_lt refCount)
  have hsame : ∀ c, c ≠ bit →
      smLookupBitmap (smSetBitmap ieDisk.bitmap bit (bitmapCount refCount)) c =
        smLookupBitmap ieDisk.bitmap c := fun c hc => by rw [hnew, if_neg hc]
  have hat : smLookupBitmap (smSetBitmap ieDisk.bitmap bit (bitmapCount refCount)) bit = 0 ↔
      refCount = 0 := by rw [hnew, if_pos rfl, bitmapCount_eq_zero]
  simp only [updateIe]
  generalize smSetBitmap ieDisk.bitmap bit (bitmapCount refCount) = bitmap at hsame hat
  by_cases halloc : refCount ≠ 0 ∧ smLookupBitmap ieDisk.bitmap bit = 0
  · -- a block becomes allocated
    have hfill : smLookupBitmap bitmap bit ≠ 0 := mt hat.mp halloc.1
    have hcount := zeroEntries_fill hbit halloc.2 hfill hsame
    rw [if_pos halloc]
    refine ⟨?_, fun k hk => ?_⟩
    · show ieDisk.nrFree - 1 = zeroEntries bitmap entries
      omega
    · rcases eq_or_ne k bit with rfl | hne
      · exact hfill
      · rw [hsame k hne]
        refine hbefore k ?_
        simp only at hk
        split_ifs at hk <;> omega
  rw [if_neg halloc]
  by_cases hrelease : smLookupBitmap ieDisk.bitmap bit ≠ 0 ∧ refCount = 0
  · -- a block becomes free
    have hcount := zeroEntries_fill hbit (hat.mpr hrelease.2) hrelease.1 fun k hk =>
      (hsame k hk).symm
    rw [if_pos hrelease]
    refine ⟨?_, fun k hk => ?_⟩
    · show ieDisk.nrFree + 1 = zeroEntries bitmap entries
      omega
    · have hlt : k < ieDisk.noneFreeBefore ∧ k < bit := lt_min_iff.mp hk
      rw [hsame k hlt.2.ne]
      exact hbefore k hlt.1
  · -- The count stays zero or stays above zero.
    have hzero : ∀ k, smLookupBitmap bitmap k = 0 ↔ smLookupBitmap ieDisk.bitmap k = 0 := by
      intro k
      rcases eq_or_ne k bit with rfl | hne
      · rw [hat]
        tauto
      · rw [hsame k hne]
    rw [if_neg hrelease]
    refine ⟨?_, fun k hk => ?_⟩
    · show ieDisk.nrFree = zeroEntries bitmap entries
      rw [hfree, zeroEntries_congr fun k _ => hzero k]
    · exact mt (hzero k).mp (hbefore k hk)

theorem Correct.smLlInsert (hpos : 0 < ll.entriesPerBlock) (hcorrect : ll.Correct)
    (b refCount : ℕ) : (ll.smLlInsert b refCount).1.Correct := by
  intro i hi
  simp only [LlDisk.smLlInsert] at hi ⊢
  rcases eq_or_ne i (b / ll.entriesPerBlock) with rfl | hne
  · rw [Function.update_self]
    exact updateIe_correct (Nat.mod_lt b hpos) (hcorrect _ hi) refCount
  · rw [Function.update_of_ne hne]
    exact hcorrect i hi

end LlDisk

end NucKernel.PersistentData.SpaceMap
