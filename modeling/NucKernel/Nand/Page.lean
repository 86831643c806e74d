import NucKernel.Nand.Correction

/-!
# Pages of the NAND driver (`nuc970_nand.c`)

An erased page has no valid parity codes, so the driver must not have it corrected. It marks the
pages it writes: bytes 2 and 3 of the OOB area are 0 there, and 0xFF in an erased page.
`nuc970_nand_read_page_hwecc_oob_first` looks at these bytes first, as they come from the chip. If
neither of them is 0 it takes the page for erased and returns 0xFF without reading it.

This is before any correction, and byte 3 is not even covered by the parity codes: a bit error in
each of the two bytes makes a written page look erased. `survives_iff` has the exact condition.

## Modelling

- the controller's BCH engine is a parameter: what it reports of a field depends on the errors in
  the field only, and it locates them if they are not more than the algorithm can correct. The bytes
  of a field are those that `fmiSM_CorrectData_BCH` addresses
- `char` has no sign, as in the ABI of the processor
- raw writes, commands to the chip and their status are left out
-/

namespace NucKernel.Nand

open NucKernel.Library

/-! ## Errors and the engine -/

def bitCount (x : UInt8) : ℕ := (List.range 8).countP fun i => x.toNat.testBit i

theorem bitCount_pos {x : UInt8} (h : x ≠ 0) : 0 < bitCount x :=
  forall_uint8 (p := fun x => x ≠ 0 → 0 < bitCount x) (by decide +kernel) x h

/-- The number of wrong bits in a field, given what is flipped in each of its bytes -/
def bitErrors (b : Bch) (e : ℕ → UInt8) : ℕ :=
  ((List.range (b.fieldLen + b.paddingLen)).map fun a => bitCount (e a)).sum

/-- A BCH engine that locates errors up to the strength of the algorithm -/
structure Engine (b : Bch) where
  report : (ℕ → UInt8) → Report
  locates : ∀ e, bitErrors b e ≤ b.strength → ∃ l, report e = some l ∧ l.length ≤ b.strength ∧
    (∀ p ∈ l, p.1 < b.fieldLen + b.paddingLen) ∧ ∀ a < b.fieldLen, flipsAt l a = e a

structure Flips where
  data : ℕ → UInt8
  oob : ℕ → UInt8

/-- The errors of a field by address: the data, three bytes of the OOB area, padding, and the parity
    code -/
def fieldErrors (c : Layout) (e : Flips) (f : ℕ) : ℕ → UInt8 :=
  let b := c.page.algo
  fun a =>
    if a < b.fieldLen then e.data (b.fieldLen * f + a)
    else if a < b.fieldLen + 3 then e.oob (a - b.fieldLen + b.parityLen * f)
    else if a < b.fieldLen + b.paddingLen - b.parityLen then 0
    else e.oob (c.parityBase + b.parityLen * f + (a - (b.fieldLen + b.paddingLen - b.parityLen)))

structure Upset (c : Layout) extends Flips where
  few : ∀ f < c.page.fields, bitErrors c.page.algo (fieldErrors c toFlips f) ≤ c.page.algo.strength

/-! ## Writing -/

/-- A call of `nuc970_nand_write_page`: the page, `chip->phys_erase_shift`, the data,
    `chip->oob_poi` and the parity codes that the controller computes -/
structure Write where
  page : ℕ
  physEraseShift : ℕ
  data : ℕ → UInt8
  oobPoi : ℕ → UInt8
  parity : ℕ → UInt8

/-- `p[i] = x` -/
def setByte (p : ℕ → UInt8) (i : ℕ) (x : UInt8) : ℕ → UInt8 := fun j => if j = i then x else p j

/-- The start of a write in `_nuc970_nand_dma_transfer`: the page is marked as dirty. -/
def markDirty (smra : ℕ → UInt8) : ℕ → UInt8 :=
  let smra := if smra 3 = 0xFF then setByte smra 3 0 else smra
  if smra 2 = 0xFF then setByte smra 2 0 else smra

/-- REG_SMRA0 and following as `nuc970_nand_write_page` fills them: a pattern for the first four
    blocks, else what `nuc970_nand_write_page_hwecc` takes from `oob_poi` -/
def fillSmra (c : Layout) (w : Write) : ℕ → UInt8 :=
  if w.page < 2 ^ (w.physEraseShift + 2) / c.page.writesize then
    setByte (setByte (setByte (fun _ => 0xFF) 3 0x00) 2 0x00) 1 0xFF
  else
    fun i => if i < c.oobsize - c.page.parityNum then w.oobPoi i else 0xFF

/-- The OOB area on the chip after `nuc970_nand_write_page` -/
def writtenOob (c : Layout) (w : Write) : ℕ → UInt8 := fun i =>
  if c.parityBase ≤ i ∧ i < c.smraSize then w.parity i else markDirty (fillSmra c w) i

/-- A marker byte as it is written: 0, unless the caller has put something else there -/
def marker (c : Layout) (w : Write) (i : ℕ) : UInt8 :=
  if w.page < 2 ^ (w.physEraseShift + 2) / c.page.writesize then 0
  else if w.oobPoi i = 0xFF then 0 else w.oobPoi i

theorem markDirty_marker {smra : ℕ → UInt8} {i : ℕ} (hi : i = 2 ∨ i = 3) :
    markDirty smra i = if smra i = 0xFF then 0 else smra i := by
  unfold markDirty
  by_cases h₃ : smra 3 = 0xFF <;> by_cases h₂ : smra 2 = 0xFF <;>
    rcases hi with rfl | rfl <;> simp [setByte, h₂, h₃]

theorem writtenOob_marker (c : Layout) (w : Write) {i : ℕ} (hi : i = 2 ∨ i = 3) :
    writtenOob c w i = marker c w i := by
  have hroom := c.room
  have hwithin := c.within
  -- the marker bytes lie before the parity codes
  have hbase : ¬ (c.parityBase ≤ i ∧ i < c.smraSize) := by
    unfold Layout.parityBase
    omega
  have hcopied : i < c.oobsize - c.page.parityNum := by omega
  rw [writtenOob, if_neg hbase, markDirty_marker hi, marker, fillSmra]
  split
  · rcases hi with rfl | rfl <;> rfl
  · simp only [if_pos hcopied]

/-! ## Reading -/

structure EccStats where
  corrected : ℕ
  failed : ℕ

def Mem.arrive (c : Layout) (raw : ℕ → UInt8) (f : ℕ) (m : Mem) : Mem :=
  let len := c.page.algo.fieldLen
  { m with dma := fun i => if len * f ≤ i ∧ i < len * (f + 1) then raw i else m.dma i }

/-- The loop of a read in `_nuc970_nand_dma_transfer`, with the fields that are still to come -/
def dmaRead (c : Layout) (raw : ℕ → UInt8) (report : ℕ → Report) :
    List ℕ → Mem → EccStats → Mem × EccStats
  | [], m, st => (m, st)
  | f :: fs, m, st =>
    let m := m.arrive c raw f
    -- the controller stops only at a field with errors
    if report f = some [] then dmaRead c raw report fs m st
    else
      match correctData c (statusAt f (report f)) (errorRegs ((report f).getD [])) m with
      -- what has arrived so far is returned
      | (none, m) => (m, { st with failed := st.failed + 1 })
      | (some stat, m) => dmaRead c raw report fs m { st with corrected := st.corrected + stat }

/-- What `nuc970_nand_read_page_hwecc_oob_first` leaves: `buf`, `chip->oob_poi` and the
    statistics -/
structure PageRead where
  buf : ℕ → UInt8
  oobPoi : ℕ → UInt8
  stats : EccStats

/-- `nuc970_nand_read_page_hwecc_oob_first`, for a page that was written by `w` and in which `e` was
    flipped since. `prior` is what the DMA buffer holds before. -/
def readPage (c : Layout) (engine : Engine c.page.algo) (w : Write) (e : Flips)
    (prior : ℕ → UInt8) (st : EccStats) : PageRead :=
  let oob := fun i => writtenOob c w i ^^^ e.oob i
  -- the page is taken for erased
  if oob 2 ≠ 0 ∧ oob 3 ≠ 0 then
    { buf := fun _ => 0xFF, oobPoi := oob, stats := st }
  else
    let raw := fun i => w.data i ^^^ e.data i
    let report := fun f => engine.report (fieldErrors c e f)
    let (m, st) := dmaRead c raw report (List.range c.page.fields) { dma := prior, smra := oob } st
    { buf := m.dma, oobPoi := m.smra, stats := st }

/-- The data that was written is returned, or a failure is recorded. -/
def Survives (c : Layout) (engine : Engine c.page.algo) (w : Write) (e : Flips)
    (prior : ℕ → UInt8) (st : EccStats) : Prop :=
  (∀ i < c.page.writesize, (readPage c engine w e prior st).buf i = w.data i) ∨
    st.failed < (readPage c engine w e prior st).stats.failed

/-! ## Correct pages -/

theorem dma_repaired (c : Layout) {data err : ℕ → UInt8} {f : ℕ} {l : List (ℕ × UInt8)}
    (hl : ∀ a < c.page.algo.fieldLen, flipsAt l a = err (c.page.algo.fieldLen * f + a)) (m : Mem)
    (hbefore : ∀ i < c.page.algo.fieldLen * f, m.dma i = data i) {i : ℕ}
    (hi : i < c.page.algo.fieldLen * (f + 1)) :
    (correctAll c (f + 1) l (m.arrive c (fun i => data i ^^^ err i) f)).dma i = data i := by
  rcases Nat.lt_or_ge i (c.page.algo.fieldLen * f) with hlow | hfield
  · -- a byte of the fields before
    rw [dma_correctAll_of_lt c hlow]
    exact (if_neg fun h => Nat.not_le_of_gt hlow h.1).trans (hbefore i hlow)
  · obtain ⟨a, rfl⟩ := Nat.exists_eq_add_of_le hfield
    -- a byte of this field
    have ha : a < c.page.algo.fieldLen := by
      rw [Nat.mul_succ] at hi
      exact Nat.lt_of_add_lt_add_left hi
    rw [dma_correctAll c ha, hl a ha]
    have harrived : (m.arrive c (fun i => data i ^^^ err i) f).dma
        (c.page.algo.fieldLen * f + a) = data (c.page.algo.fieldLen * f + a) ^^^
          err (c.page.algo.fieldLen * f + a) := if_pos ⟨hfield, hi⟩
    rw [harrived, UInt8.xor_assoc, UInt8.xor_self, UInt8.xor_zero]

def Located (c : Layout) (err : ℕ → UInt8) (f : ℕ) (l : List (ℕ × UInt8)) : Prop :=
  l.length < 32 ∧ (∀ p ∈ l, p.1 < 2048) ∧
    ∀ a < c.page.algo.fieldLen, flipsAt l a = err (c.page.algo.fieldLen * f + a)

/-- **Correction**: if the errors of every field are located or found to be too many, the page is
    repaired or a failure is recorded. -/
theorem dmaRead_sound (c : Layout) {data err : ℕ → UInt8} {report : ℕ → Report}
    (hreport : ∀ f < c.page.fields, ∀ l, report f = some l → Located c err f l)
    {n f : ℕ} (hn : f + n = c.page.fields) (m : Mem) (st : EccStats)
    (hbefore : ∀ i < c.page.algo.fieldLen * f, m.dma i = data i) :
    let r := dmaRead c (fun i => data i ^^^ err i) report (List.range' f n) m st
    (∀ i < c.page.writesize, r.1.dma i = data i) ∨ st.failed < r.2.failed := by
  -- the fields before `f` hold what was written
  induction n generalizing f m st with
  | zero =>
    -- all fields have arrived
    left
    intro i hi
    rw [Nat.add_zero] at hn
    rw [← c.page.fieldLen_mul_fields, ← hn] at hi
    exact hbefore i hi
  | succ n ih =>
    have hf : f < c.page.fields := by omega
    have hnext : f + 1 + n = c.page.fields := by omega
    rw [List.range'_succ, dmaRead]
    cases hrep : report f with
    | none =>
      -- the errors are too many, and a failure is recorded
      right
      rw [if_neg (by simp)]
      simp only [correctData_uncorrectable c _ hf]
      exact Nat.lt_succ_self _
    | some l =>
      obtain ⟨hlen, haddr, hflips⟩ := hreport f hf l hrep
      have hrepaired := fun i => dma_repaired c (i := i) hflips m hbefore
      cases l with
      -- there is nothing to repair
      | nil => exact ih hnext _ st hrepaired
      | cons p l =>
        rw [if_neg (by simp), Option.getD_some]
        -- the errors are repaired
        simp only [correctData_report c hf p l hlen haddr]
        exact ih hnext _ _ hrepaired

theorem Engine.located {c : Layout} (engine : Engine c.page.algo) (e : Upset c) :
    ∀ f < c.page.fields, ∀ l, engine.report (fieldErrors c e.toFlips f) = some l →
      Located c e.data f l := by
  intro f hf l hrep
  obtain ⟨l', hrep', hlen, haddr, hflips⟩ := engine.locates _ (e.few f hf)
  obtain rfl : l = l' := Option.some.inj (hrep.symm.trans hrep')
  -- the registers have room for the number of errors and their addresses
  have hstrength : c.page.algo.strength < 32 := by cases c.page <;> decide
  have hspan : c.page.algo.fieldLen + c.page.algo.paddingLen ≤ 2048 := by cases c.page <;> decide
  refine ⟨by omega, fun p hp => by have := haddr p hp; omega, ?_⟩
  intro a ha
  rw [hflips a ha]
  exact if_pos ha

/-! ## Pages that are lost -/

/-- **Page survival**: with errors that the algorithm can correct, a page is returned as it was
    written or a failure is recorded exactly when one of the two marker bytes is 0 as it comes from
    the chip, or all that was written is 0xFF. -/
theorem survives_iff (c : Layout) (engine : Engine c.page.algo) (w : Write) (e : Upset c)
    (prior : ℕ → UInt8) (st : EccStats) :
    Survives c engine w e.toFlips prior st ↔
      (marker c w 2 ^^^ e.oob 2 = 0 ∨ marker c w 3 ^^^ e.oob 3 = 0) ∨
        ∀ i < c.page.writesize, w.data i = 0xFF := by
  rw [← writtenOob_marker c w (.inl rfl), ← writtenOob_marker c w (.inr rfl)]
  by_cases herased : writtenOob c w 2 ^^^ e.oob 2 ≠ 0 ∧ writtenOob c w 3 ^^^ e.oob 3 ≠ 0
  · -- the page is taken for erased
    have hread : readPage c engine w e.toFlips prior st =
        { buf := fun _ => 0xFF, oobPoi := fun i => writtenOob c w i ^^^ e.oob i, stats := st } :=
      if_pos herased
    rw [Survives, hread]
    constructor
    · rintro (hbuf | hfailed)
      · exact .inr fun i hi => (hbuf i hi).symm
      · exact absurd hfailed (Nat.lt_irrefl _)
    · rintro (hzero | hdata)
      · exact absurd hzero (not_or.mpr herased)
      · exact .inl fun i hi => (hdata i hi).symm
  · -- the page is read and corrected
    refine iff_of_true ?_ (.inl ?_)
    · rw [Survives, readPage]
      simp only [if_neg herased, List.range_eq_range']
      exact dmaRead_sound c (engine.located e) (Nat.zero_add _) _ st fun i hi => by omega
    · rwa [← not_or, not_not] at herased

/-! ### A page that is lost -/

def errorBytes (b : Bch) (e : ℕ → UInt8) : List (ℕ × UInt8) :=
  ((List.range (b.fieldLen + b.paddingLen)).filter fun a => e a ≠ 0).map fun a => (a, e a)

theorem length_filter_le_sum (e : ℕ → UInt8) (as : List ℕ) :
    (as.filter fun a => e a ≠ 0).length ≤ (as.map fun a => bitCount (e a)).sum := by
  induction as with
  | nil => exact Nat.le_refl 0
  | cons a as ih =>
    rw [List.map_cons, List.sum_cons, List.filter_cons]
    split
    · rename_i ha
      have hbit := bitCount_pos (of_decide_eq_true ha)
      rw [List.length_cons]
      omega
    · omega

theorem flipsAt_filter {e : ℕ → UInt8} {as : List ℕ} (hnodup : as.Nodup) (a : ℕ) :
    flipsAt ((as.filter fun a => e a ≠ 0).map fun a => (a, e a)) a =
      if a ∈ as then e a else 0 := by
  induction as with
  | nil => rfl
  | cons x as ih =>
    obtain ⟨hx, hrest⟩ := List.nodup_cons.mp hnodup
    have hstep : flipsAt (((x :: as).filter fun a => e a ≠ 0).map fun a => (a, e a)) a =
        (if x = a then e x else 0) ^^^ if a ∈ as then e a else 0 := by
      rw [← ih hrest, List.filter_cons]
      split
      · rfl
      · rename_i hzero
        have hzero : e x = 0 := by simpa using hzero
        rw [hzero, ite_self, UInt8.zero_xor]
    rw [hstep]
    by_cases hxa : x = a
    · subst hxa
      rw [if_pos rfl, if_neg hx, UInt8.xor_zero, if_pos (List.mem_cons_self ..)]
    · simp [hxa, Ne.symm hxa]

def byteEngine (b : Bch) : Engine b where
  report := fun e => if bitErrors b e ≤ b.strength then some (errorBytes b e) else none
  locates := by
    intro e he
    refine ⟨errorBytes b e, if_pos he, ?_, ?_, ?_⟩
    · rw [errorBytes, List.length_map]
      exact Nat.le_trans (length_filter_le_sum e _) he
    · intro p hp
      obtain ⟨a, ha, rfl⟩ := List.mem_map.mp hp
      exact List.mem_range.mp (List.mem_filter.mp ha).1
    · intro a ha
      rw [errorBytes, flipsAt_filter List.nodup_range,
        if_pos (List.mem_range.mpr (Nat.lt_add_right _ ha))]

def chip2048 : Layout where
  page := .size2048
  oobsize := 64
  smraSize := 64
  room := by decide
  within := Nat.le_refl 64
  nineBits := by decide

def writeZeros : Write where
  page := 0
  physEraseShift := 17
  data := fun _ => 0
  oobPoi := fun _ => 0xFF
  parity := fun _ => 0

def markerHit : Upset chip2048 where
  data := fun _ => 0
  oob := fun i => if i = 2 ∨ i = 3 then 1 else 0
  few := by decide +kernel

/-- Two bit errors turn a page of zeros into a page of 0xFF, and no failure is recorded. -/
theorem markerHit_lost :
    ¬ Survives chip2048 (byteEngine .t4) writeZeros markerHit.toFlips (fun _ => 0) ⟨0, 0⟩ := by
  rintro (hbuf | hfailed)
  · exact absurd (hbuf 0 (by decide)) (by decide)
  · exact absurd hfailed (by decide)

end NucKernel.Nand
