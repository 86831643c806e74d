import NucKernel.Library.ByteMemory
import NucKernel.Library.LittleEndian

/-!
# Reports of HID devices (`hid-core.c`)

A report is a stream of bits, in which each field has a number of values of the same width. Values
are written and read through windows of eight bytes. A value of a signed field is checked when it is
set: it has to survive the conversion to the width of the field and back. A value of an unsigned
field is not checked, and loses its high bits when it is written.

## Modelling

- Memory is a function from positions to bytes; the buffer has the seven extra bytes that
  `hid_alloc_report_buf` provides.
- `1 << 32` is not defined in C: its value is the parameter `wide`.
- Warnings and debug output are left out.
-/

namespace NucKernel.Hid

open Library

/-! ## Conversions -/

def snto32 (value : BitVec 32) (n : ℕ) : BitVec 32 :=
  if n = 8 then (value.setWidth 8).signExtend 32
  else if n = 16 then (value.setWidth 16).signExtend 32
  else if n = 32 then value
  else if value &&& (1#32 <<< (n - 1)) ≠ 0 then value ||| (-1#32 <<< n) else value

section Conversion

variable (wide : BitVec 32)

/-- `1 << n`, for `n` up to 32 -/
def oneShl (n : ℕ) : BitVec 32 := if n = 32 then wide else 1#32 <<< n

def s32ton (value : BitVec 32) (n : ℕ) : BitVec 32 :=
  let a := value.sshiftRight (n - 1)
  if a ≠ 0 ∧ a ≠ -1 then
    if value.slt 0 then 1#32 <<< (n - 1) else 1#32 <<< (n - 1) - 1#32
  else value &&& (oneShl wide n - 1#32)

theorem toNat_one_shl {k : ℕ} (hk : k < 32) : (1#32 <<< k).toNat = 2 ^ k := by
  rw [BitVec.toNat_shiftLeft, Nat.shiftLeft_eq]
  show 1 * 2 ^ k % 2 ^ 32 = 2 ^ k
  rw [Nat.one_mul, Nat.mod_eq_of_lt (Nat.pow_lt_pow_right (by decide) hk)]

theorem toNat_one_shl_sub {k : ℕ} (hk : k < 32) : (1#32 <<< k - 1#32).toNat = 2 ^ k - 1 := by
  have hle : 1#32 ≤ 1#32 <<< k := by
    rw [BitVec.le_def, toNat_one_shl hk]
    exact Nat.two_pow_pos k
  rw [BitVec.toNat_sub_of_le hle, toNat_one_shl hk]
  rfl

theorem s32ton_lt (value : BitVec 32) {n : ℕ} (h1 : 1 ≤ n) (h32 : n ≤ 32) :
    (s32ton wide value n).toNat < 2 ^ n := by
  rcases Nat.lt_or_ge n 32 with hn | hn
  · have hhalf : 2 ^ (n - 1) < 2 ^ n := Nat.pow_lt_pow_right (by decide) (by omega)
    simp only [s32ton, oneShl, if_neg (show ¬ n = 32 by omega)]
    split_ifs
    · -- the value is clipped at one of the two bounds
      rw [toNat_one_shl (by omega)]
      exact hhalf
    · rw [toNat_one_shl_sub (by omega)]
      exact (Nat.sub_le _ _).trans_lt hhalf
    · -- the low bits
      rw [BitVec.toNat_and, toNat_one_shl_sub hn]
      apply Nat.and_lt_two_pow
      exact Nat.sub_lt (Nat.two_pow_pos n) (by decide)
  · obtain rfl : n = 32 := by omega
    exact (s32ton wide value 32).isLt

end Conversion

/-! ## Windows -/

def bit (data : ℕ → UInt8) (j : ℕ) : Bool := (data (j / 8)).toNat.testBit (j % 8)

/-- `get_unaligned_le64` -/
def getLe64 (data : ℕ → UInt8) (p : ℕ) : BitVec 64 := BitVec.ofNat 64 (leValue (load data p 8))

/-- `put_unaligned_le64` -/
def putLe64 (x : BitVec 64) (data : ℕ → UInt8) (p : ℕ) : ℕ → UInt8 :=
  store data p ((List.range 8).map fun i => UInt8.ofNat (x.toNat >>> (8 * i)))

/-- `(1ULL << n) - 1` -/
def mask (n : ℕ) : BitVec 64 := BitVec.ofNat 64 (2 ^ n - 1)

def extract (report : ℕ → UInt8) (offset n : ℕ) : BitVec 32 :=
  ((getLe64 report (offset >>> 3) >>> (offset &&& 7)) &&& mask n).setWidth 32

def implement (report : ℕ → UInt8) (offset n : ℕ) (value : BitVec 32) : ℕ → UInt8 :=
  let m := mask n
  let value := (value.setWidth 64 &&& m).setWidth 32
  let x := getLe64 report (offset >>> 3)
  let x := x &&& ~~~ (m <<< (offset &&& 7))
  let x := x ||| (value.setWidth 64 <<< (offset &&& 7))
  putLe64 x report (offset >>> 3)

theorem byteOffset (offset : ℕ) : 8 * (offset >>> 3) + (offset &&& 7) = offset := by
  rw [Nat.shiftRight_eq_div_pow, show offset &&& 7 = offset % 8 from
    Nat.and_two_pow_sub_one_eq_mod offset 3]
  exact Nat.div_add_mod offset 8

theorem bitOffset_lt (offset : ℕ) : offset &&& 7 < 8 := by
  rw [show offset &&& 7 = offset % 8 from Nat.and_two_pow_sub_one_eq_mod offset 3]
  exact Nat.mod_lt _ (by decide)

theorem mask_bit {n u : ℕ} (hu : u < 64) : (mask n).getLsbD u = decide (u < n) := by
  rw [mask, BitVec.getLsbD_ofNat, Nat.testBit_two_pow_sub_one]
  simp [hu]

theorem getLe64_bit (data : ℕ → UInt8) (p : ℕ) {k : ℕ} (hk : k < 64) :
    (getLe64 data p).getLsbD k = bit data (8 * p + k) := by
  have hbyte : (load data p 8).getD (k / 8) 0 = data (p + k / 8) := by
    rw [List.getD_eq_getElem?_getD, getElem?_load (by omega)]
    rfl
  rw [getLe64, BitVec.getLsbD_ofNat, testBit_leValue, hbyte, bit,
    show (8 * p + k) / 8 = p + k / 8 by omega, show (8 * p + k) % 8 = k % 8 by omega]
  simp [hk]

theorem putLe64_bit (x : BitVec 64) (data : ℕ → UInt8) (p j : ℕ) :
    bit (putLe64 x data p) j =
      if 8 * p ≤ j ∧ j < 8 * p + 64 then x.getLsbD (j - 8 * p) else bit data j := by
  rw [bit, putLe64]
  split_ifs with h
  · obtain ⟨i, hi⟩ := Nat.exists_eq_add_of_le (show p ≤ j / 8 by omega)
    -- a byte of the window
    rw [hi, store_inside (by simp; omega)]
    simp only [List.get_eq_getElem, List.getElem_map, List.getElem_range, UInt8.toNat_ofNat']
    rw [Nat.testBit_mod_two_pow, Nat.testBit_shiftRight, show 8 * i + j % 8 = j - 8 * p by omega]
    simp [show j % 8 < 8 by omega, BitVec.getLsbD]
  · -- a byte outside it
    rw [store_outside (by simp; omega)]
    rfl

theorem extract_bit (report : ℕ → UInt8) (offset : ℕ) {n u : ℕ} (hu : u < 32) :
    (extract report offset n).getLsbD u = (decide (u < n) && bit report (offset + u)) := by
  have hoff := byteOffset offset
  have hlt := bitOffset_lt offset
  rw [extract, BitVec.getLsbD_setWidth, BitVec.getLsbD_and, BitVec.getLsbD_ushiftRight,
    mask_bit (by omega), getLe64_bit _ _ (by omega), ← Nat.add_assoc, hoff]
  simp [hu, Bool.and_comm]

theorem implement_bit (report : ℕ → UInt8) (offset : ℕ) {n : ℕ} (hn : n ≤ 32) (value : BitVec 32)
    (j : ℕ) :
    bit (implement report offset n value) j =
      if offset ≤ j ∧ j < offset + n then value.getLsbD (j - offset) else bit report j := by
  have hoff := byteOffset offset
  have hlt := bitOffset_lt offset
  rw [implement, putLe64_bit]
  by_cases hwin : 8 * (offset >>> 3) ≤ j ∧ j < 8 * (offset >>> 3) + 64
  · rw [if_pos hwin]
    simp only [BitVec.getLsbD_or, BitVec.getLsbD_and, BitVec.getLsbD_not, BitVec.getLsbD_shiftLeft,
      BitVec.getLsbD_setWidth]
    rw [getLe64_bit _ _ (by omega), show 8 * (offset >>> 3) + (j - 8 * (offset >>> 3)) = j by omega]
    by_cases hlow : offset ≤ j
    · rw [show j - 8 * (offset >>> 3) - (offset &&& 7) = j - offset by omega,
        mask_bit (show j - offset < 64 by omega)]
      by_cases hin : j < offset + n
      · -- a bit of the value
        simp [hlow, hin, show j - 8 * (offset >>> 3) < 64 by omega, show j - offset < n by omega,
          show j - offset < 64 by omega, show j - offset < 32 by omega,
          show ¬ j - 8 * (offset >>> 3) < offset &&& 7 by omega]
      · -- a bit of the window behind the value
        simp [hlow, hin, show j - 8 * (offset >>> 3) < 64 by omega,
          show ¬ j - offset < n by omega]
    · -- a bit of the window before the value
      simp [hlow, show j - 8 * (offset >>> 3) < 64 by omega,
        show j - 8 * (offset >>> 3) < offset &&& 7 by omega]
  · rw [if_neg hwin, if_neg (by omega)]

/-! ## Reports -/

structure Field where
  reportOffset : ℕ
  reportSize : ℕ
  reportCount : ℕ
  logicalMinimum : ℤ

/-- A `struct hid_report` with the values of its fields -/
structure Report where
  id : UInt8
  size : ℕ
  maxfield : ℕ
  field : ℕ → Field

abbrev Values := ℕ → ℕ → BitVec 32

section Report

variable (wide : BitVec 32)

def Field.encode (f : Field) (value : BitVec 32) : BitVec 32 :=
  if f.logicalMinimum < 0 then s32ton wide value f.reportSize else value

def hidOutputField (f : Field) (value : ℕ → BitVec 32) (data : ℕ → UInt8) : ℕ → UInt8 :=
  (List.range f.reportCount).foldl (fun data n =>
    implement data (f.reportOffset + n * f.reportSize) f.reportSize (f.encode wide (value n))) data

/-- The number of bytes that are cleared; `report->size` is an `unsigned int`. -/
def Report.clearLen (report : Report) : ℕ := ((report.size + 2 ^ 32 - 1) % 2 ^ 32) >>> 3 + 1

/-- `hid_output_report`, from the position behind the report id on -/
def outputBody (report : Report) (values : Values) (data : ℕ → UInt8) : ℕ → UInt8 :=
  let data := store data 0 (List.replicate report.clearLen 0)
  (List.range report.maxfield).foldl (fun data n =>
    hidOutputField wide (report.field n) (values n) data) data

def hidOutputReport (report : Report) (values : Values) (data : ℕ → UInt8) : ℕ → UInt8 :=
  if 0 < report.id.toNat then
    store (fun i => outputBody wide report values (fun i => data (i + 1)) (i - 1)) 0 [report.id]
  else outputBody wide report values data

def Field.input (f : Field) (data : ℕ → UInt8) (n : ℕ) : BitVec 32 :=
  let x := extract data (f.reportOffset + n * f.reportSize) f.reportSize
  if f.logicalMinimum < 0 then snto32 x f.reportSize else x

/-- `hid_set_field`: the return value and the new values of the field -/
def hidSetField (f : Field) (values : ℕ → BitVec 32) (offset : ℕ) (value : BitVec 32) :
    ℤ × (ℕ → BitVec 32) :=
  if f.reportCount ≤ offset then (-1, values)
  else if f.logicalMinimum < 0 ∧
      value ≠ snto32 (s32ton wide value f.reportSize) f.reportSize then (-1, values)
  else (0, Function.update values offset value)

structure Call where
  field : ℕ
  offset : ℕ
  value : BitVec 32

/-- The values after some calls, if all of them returned 0 -/
def runCalls (report : Report) : Values → List Call → Option Values
  | values, [] => some values
  | values, c :: calls =>
    if c.field < report.maxfield then
      let r := hidSetField wide (report.field c.field) (values c.field) c.offset c.value
      if r.1 = 0 then runCalls report (Function.update values c.field r.2) calls else none
    else none

/-- The value that was last set, and `v` if there is none -/
def lastSet (v : BitVec 32) (calls : List Call) (i k : ℕ) : BitVec 32 :=
  calls.foldl (fun v c => if c.field = i ∧ c.offset = k then c.value else v) v

/-- A report whose fields do not overlap -/
structure Layout (report : Report) : Prop where
  width : ∀ i < report.maxfield, 1 ≤ (report.field i).reportSize ∧ (report.field i).reportSize ≤ 32
  apart : ∀ i < report.maxfield, ∀ i' < report.maxfield, i < i' →
    (report.field i).reportOffset + (report.field i).reportCount * (report.field i).reportSize ≤
        (report.field i').reportOffset ∨
      (report.field i').reportOffset +
        (report.field i').reportCount * (report.field i').reportSize ≤ (report.field i).reportOffset

/-! ## The bits of a report -/

structure Chunk where
  offset : ℕ
  width : ℕ
  value : BitVec 32

def Chunk.Covers (c : Chunk) (j : ℕ) : Prop := c.offset ≤ j ∧ j < c.offset + c.width

def writeChunks (data : ℕ → UInt8) (chunks : List Chunk) : ℕ → UInt8 :=
  chunks.foldl (fun data c => implement data c.offset c.width c.value) data

theorem writeChunks_outside {chunks : List Chunk} (hwidth : ∀ c ∈ chunks, c.width ≤ 32) {j : ℕ}
    (hj : ∀ c ∈ chunks, ¬ c.Covers j) (data : ℕ → UInt8) :
    bit (writeChunks data chunks) j = bit data j := by
  induction chunks generalizing data with
  | nil => rfl
  | cons c chunks ih =>
    rw [List.forall_mem_cons] at hwidth hj
    rw [writeChunks, List.foldl_cons]
    refine (ih hwidth.2 hj.2 _).trans ?_
    rw [implement_bit _ _ hwidth.1]
    exact if_neg hj.1

theorem writeChunks_inside {chunks : List Chunk} (hwidth : ∀ c ∈ chunks, c.width ≤ 32) {j : ℕ}
    {c : Chunk} (hc : c ∈ chunks) (hcovers : c.Covers j)
    (honly : ∀ c' ∈ chunks, c'.Covers j → c' = c) (data : ℕ → UInt8) :
    bit (writeChunks data chunks) j = c.value.getLsbD (j - c.offset) := by
  induction chunks generalizing data with
  | nil => cases hc
  | cons d chunks ih =>
    rw [List.forall_mem_cons] at hwidth honly
    rw [writeChunks, List.foldl_cons]
    by_cases hlater : c ∈ chunks
    · exact ih hwidth.2 hlater honly.2 _
    · -- it is written now, and not again
      obtain rfl : c = d := (List.mem_cons.mp hc).resolve_right hlater
      refine (writeChunks_outside hwidth.2 (fun c' hc' hcov => hlater ?_) _).trans ?_
      · rw [← honly.2 c' hc' hcov]
        exact hc'
      · rw [implement_bit _ _ hwidth.1]
        exact if_pos hcovers

def Report.chunks (report : Report) (values : Values) : List Chunk :=
  (List.range report.maxfield).flatMap fun i =>
    (List.range (report.field i).reportCount).map fun k =>
      ⟨(report.field i).reportOffset + k * (report.field i).reportSize,
        (report.field i).reportSize, (report.field i).encode wide (values i k)⟩

theorem outputBody_eq (report : Report) (values : Values) (data : ℕ → UInt8) :
    outputBody wide report values data =
      writeChunks (store data 0 (List.replicate report.clearLen 0))
        (report.chunks wide values) := by
  rw [outputBody, writeChunks, Report.chunks, List.foldl_flatMap]
  congr 1
  funext data i
  rw [hidOutputField, List.foldl_map]

variable {wide} {report : Report} {values : Values}

theorem mem_chunks {c : Chunk} : c ∈ report.chunks wide values ↔
    ∃ i < report.maxfield, ∃ k < (report.field i).reportCount,
      (⟨(report.field i).reportOffset + k * (report.field i).reportSize,
        (report.field i).reportSize, (report.field i).encode wide (values i k)⟩ : Chunk) = c := by
  simp [Report.chunks]

theorem chunks_width (hlay : Layout report) : ∀ c ∈ report.chunks wide values, c.width ≤ 32 := by
  intro c hc
  obtain ⟨i, hi, k, _, rfl⟩ := mem_chunks.mp hc
  exact (hlay.width i hi).2

theorem field_bits {offset size count k j : ℕ} (hk : k < count) (hlo : offset + k * size ≤ j)
    (hhi : j < offset + k * size + size) :
    offset ≤ j ∧ j < offset + count * size ∧ (j - offset) / size = k := by
  have hend : k * size + size ≤ count * size := by
    rw [← Nat.succ_mul]
    exact Nat.mul_le_mul_right _ hk
  refine ⟨by omega, by omega, ?_⟩
  rw [Nat.div_eq_iff (by omega)]
  omega

theorem chunks_unique (hlay : Layout report) {c c' : Chunk} (hc : c ∈ report.chunks wide values)
    (hc' : c' ∈ report.chunks wide values) {j : ℕ} (hj : c.Covers j) (hj' : c'.Covers j) :
    c' = c := by
  obtain ⟨i, hi, k, hk, rfl⟩ := mem_chunks.mp hc
  obtain ⟨i', hi', k', hk', rfl⟩ := mem_chunks.mp hc'
  -- each bit determines the number of the value within the field
  obtain ⟨hlo, hhi, hdiv⟩ := field_bits hk hj.1 hj.2
  obtain ⟨hlo', hhi', hdiv'⟩ := field_bits hk' hj'.1 hj'.2
  rcases Nat.lt_trichotomy i i' with hlt | rfl | hlt
  · -- different fields have no bit in common
    have := hlay.apart i hi i' hi' hlt
    omega
  · rw [← hdiv, hdiv']
  · have := hlay.apart i' hi' i hi hlt
    omega

/-! ## The round trip -/

theorem extract_outputBody (hlay : Layout report) {i k : ℕ} (hi : i < report.maxfield)
    (hk : k < (report.field i).reportCount)
    (hfit : ((report.field i).encode wide (values i k)).toNat < 2 ^ (report.field i).reportSize)
    (data : ℕ → UInt8) :
    extract (outputBody wide report values data)
        ((report.field i).reportOffset + k * (report.field i).reportSize)
        (report.field i).reportSize = (report.field i).encode wide (values i k) := by
  have hc : (⟨(report.field i).reportOffset + k * (report.field i).reportSize,
      (report.field i).reportSize, (report.field i).encode wide (values i k)⟩ : Chunk) ∈
        report.chunks wide values := mem_chunks.mpr ⟨i, hi, k, hk, rfl⟩
  apply BitVec.eq_of_getLsbD_eq
  intro u hu
  rw [extract_bit _ _ hu, outputBody_eq]
  by_cases hin : u < (report.field i).reportSize
  · have hcov : Chunk.Covers ⟨(report.field i).reportOffset + k * (report.field i).reportSize,
        (report.field i).reportSize, (report.field i).encode wide (values i k)⟩
          ((report.field i).reportOffset + k * (report.field i).reportSize + u) :=
      ⟨Nat.le_add_right _ _, Nat.add_lt_add_left hin _⟩
    rw [writeChunks_inside (chunks_width hlay) hc hcov
      (fun c' hc' hcov' => chunks_unique hlay hc hc' hcov hcov')]
    simp [hin]
  · -- bits beyond the width are zero on both sides
    have hzero : ((report.field i).encode wide (values i k)).getLsbD u = false :=
      Nat.testBit_lt_two_pow (hfit.trans_le (Nat.pow_le_pow_right (by decide) (by omega)))
    simp [hin, hzero]

theorem outputBody_zero (hlay : Layout report) {j : ℕ} (hj : j < 8 * report.clearLen)
    (hout : ∀ i < report.maxfield, j < (report.field i).reportOffset ∨
      (report.field i).reportOffset +
        (report.field i).reportCount * (report.field i).reportSize ≤ j)
    (data : ℕ → UInt8) : bit (outputBody wide report values data) j = false := by
  rw [outputBody_eq, writeChunks_outside (chunks_width hlay)]
  · -- the bit is in a byte that has been cleared
    have hin : j / 8 < (List.replicate report.clearLen (0 : UInt8)).length := by
      rw [List.length_replicate]
      omega
    have hbyte : store data 0 (List.replicate report.clearLen 0) (j / 8) = 0 := by
      rw [← Nat.zero_add (j / 8), store_inside hin]
      simp
    rw [bit, hbyte]
    exact Nat.zero_testBit _
  · intro c hc hcov
    -- no value covers the bit
    obtain ⟨i, hi, k, hk, rfl⟩ := mem_chunks.mp hc
    have := field_bits hk hcov.1 hcov.2
    have := hout i hi
    omega

/-- The values of signed fields survive the conversions, and those of unsigned ones fit. -/
def Sound (wide : BitVec 32) (report : Report) (values : Values) : Prop :=
  ∀ i < report.maxfield, ∀ k,
    ((report.field i).logicalMinimum < 0 →
      values i k =
        snto32 (s32ton wide (values i k) (report.field i).reportSize) (report.field i).reportSize) ∧
    (0 ≤ (report.field i).logicalMinimum → (values i k).toNat < 2 ^ (report.field i).reportSize)

theorem sound_zero (wide : BitVec 32) (report : Report) : Sound wide report fun _ _ => 0 := by
  intro i _ k
  refine ⟨fun _ => ?_, fun _ => Nat.two_pow_pos _⟩
  have hzero : s32ton wide 0 (report.field i).reportSize = 0 := by
    simp [s32ton]
  rw [hzero, snto32]
  split_ifs <;> simp_all

theorem hidSetField_ok {f : Field} {vals : ℕ → BitVec 32} {offset : ℕ} {value : BitVec 32}
    (h : (hidSetField wide f vals offset value).1 = 0) :
    (hidSetField wide f vals offset value).2 = Function.update vals offset value ∧
      (f.logicalMinimum < 0 → value = snto32 (s32ton wide value f.reportSize) f.reportSize) := by
  rw [hidSetField] at h ⊢
  split_ifs at h ⊢ with hoff hbad
  · exact absurd h (by simp)
  · exact absurd h (by simp)
  · refine ⟨rfl, fun hneg => ?_⟩
    by_contra hne
    exact hbad ⟨hneg, hne⟩

theorem update_update_apply (start : Values) (c : Call) (i k : ℕ) :
    Function.update start c.field (Function.update (start c.field) c.offset c.value) i k =
      if c.field = i ∧ c.offset = k then c.value else start i k := by
  by_cases hi : c.field = i
  · subst hi
    by_cases hk : c.offset = k
    · subst hk
      simp
    · simp [hk, Function.update_of_ne (Ne.symm hk)]
  · simp [hi, Function.update_of_ne (Ne.symm hi)]

theorem runCalls_spec {calls : List Call} {start final : Values}
    (hrun : runCalls wide report start calls = some final) (hstart : Sound wide report start)
    (hfit : ∀ c ∈ calls, 0 ≤ (report.field c.field).logicalMinimum →
      c.value.toNat < 2 ^ (report.field c.field).reportSize) :
    Sound wide report final ∧ ∀ i k, final i k = lastSet (start i k) calls i k := by
  induction calls generalizing start with
  | nil =>
    obtain rfl := Option.some.inj hrun
    exact ⟨hstart, fun _ _ => rfl⟩
  | cons c calls ih =>
    rw [List.forall_mem_cons] at hfit
    rw [runCalls] at hrun
    split_ifs at hrun with hfield
    dsimp only at hrun
    split_ifs at hrun with hret
    obtain ⟨hset, hsigned⟩ := hidSetField_ok hret
    rw [hset] at hrun
    -- the new value was checked, or it fits by assumption
    have hnew : Sound wide report (Function.update start c.field
        (Function.update (start c.field) c.offset c.value)) := by
      intro i hi k
      rw [update_update_apply]
      split_ifs with hsame
      · obtain ⟨rfl, rfl⟩ := hsame
        exact ⟨hsigned, hfit.1⟩
      · exact hstart i hi k
    obtain ⟨hsound, hlast⟩ := ih hrun hnew hfit.2
    refine ⟨hsound, fun i k => ?_⟩
    rw [hlast, update_update_apply]
    rfl

end Report

/-- **A report is read as it was set**: after every run of calls that all returned 0, each value of
    the report that is then put out is read as the one last set, if the values of unsigned fields
    fit into their width; and bits outside the fields are zero. -/
theorem outputReport_roundTrip (wide : BitVec 32) (report : Report) (hlay : Layout report)
    (calls : List Call) (values : Values)
    (hrun : runCalls wide report (fun _ _ => 0) calls = some values)
    (hfit : ∀ c ∈ calls, 0 ≤ (report.field c.field).logicalMinimum →
      c.value.toNat < 2 ^ (report.field c.field).reportSize) (data : ℕ → UInt8) :
    let body := fun i => hidOutputReport wide report values data
      (if 0 < report.id.toNat then i + 1 else i)
    (∀ i < report.maxfield, ∀ k < (report.field i).reportCount,
      (report.field i).input body k = lastSet 0 calls i k) ∧
    ∀ j < 8 * report.clearLen,
      (∀ i < report.maxfield, j < (report.field i).reportOffset ∨
        (report.field i).reportOffset +
          (report.field i).reportCount * (report.field i).reportSize ≤ j) →
      bit body j = false := by
  obtain ⟨hsound, hlast⟩ := runCalls_spec hrun (sound_zero wide report) hfit
  -- the bytes behind the report id
  obtain ⟨before, hbody⟩ : ∃ before, (fun i => hidOutputReport wide report values data
      (if 0 < report.id.toNat then i + 1 else i)) = outputBody wide report values before := by
    by_cases hid : 0 < report.id.toNat
    · refine ⟨fun i => data (i + 1), funext fun i => ?_⟩
      rw [if_pos hid, hidOutputReport, if_pos hid, store_outside (Or.inr (by simp))]
      rfl
    · refine ⟨data, funext fun i => ?_⟩
      rw [if_neg hid, hidOutputReport, if_neg hid]
  simp only [hbody]
  refine ⟨fun i hi k hk => ?_, fun j hj hout => outputBody_zero hlay hj hout before⟩
  obtain ⟨hsigned, hunsigned⟩ := hsound i hi k
  obtain ⟨hpos, h32⟩ := hlay.width i hi
  have hencode : ((report.field i).encode wide (values i k)).toNat <
      2 ^ (report.field i).reportSize := by
    rw [Field.encode]
    split_ifs with hneg
    · exact s32ton_lt wide _ hpos h32
    · exact hunsigned (by omega)
  rw [← hlast, Field.input, extract_outputBody hlay hi hk hencode, Field.encode]
  split_ifs with hneg
  · exact (hsigned hneg).symm
  · rfl

/-- A report with an id, and two fields of 3 bits: the first one signed, the second one not -/
def smallReport : Report where
  id := 5
  size := 6
  maxfield := 2
  field i := if i = 0 then ⟨0, 3, 1, -4⟩ else ⟨3, 3, 1, 0⟩

theorem smallReport_layout : Layout smallReport := by
  constructor <;> decide

theorem outputReport_roundTrip_small :
    (runCalls 0 smallReport (fun _ _ => 0) [⟨0, 0, -3⟩, ⟨1, 0, 6⟩]).isSome ∧
      ∀ values, runCalls 0 smallReport (fun _ _ => 0) [⟨0, 0, -3⟩, ⟨1, 0, 6⟩] = some values →
        (smallReport.field 0).input
          (fun i => hidOutputReport 0 smallReport values (fun _ => 0) (i + 1)) 0 = -3 := by
  refine ⟨by decide, fun values hrun => ?_⟩
  exact (outputReport_roundTrip 0 smallReport smallReport_layout _ values hrun (by decide)
    (fun _ => 0)).1 0 (by decide) 0 (by decide)

/-- The value 9 is accepted for an unsigned field of 3 bits, and read back as 1. -/
theorem unsigned_truncated :
    ∃ values, runCalls 0 smallReport (fun _ _ => 0) [⟨1, 0, 9⟩] = some values ∧
      lastSet 0 [⟨1, 0, 9⟩] 1 0 = 9 ∧
      (smallReport.field 1).input
        (fun i => hidOutputReport 0 smallReport values (fun _ => 0) (i + 1)) 0 = 1 := by
  refine ⟨Function.update (fun _ _ => 0) 1 (Function.update (fun _ => 0) 0 9), ?_, ?_, ?_⟩
  · rfl
  · rfl
  · decide +kernel

end NucKernel.Hid
