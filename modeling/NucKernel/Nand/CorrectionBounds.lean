import Mathlib.Logic.Function.Basic
import NucKernel.Library.ForLoop
import NucKernel.Nand.Correction

/-!
# Where the BCH correction reads and writes (`nuc970_nand.c`)

`fmiSM_CorrectData_BCH` copies the error registers to arrays on its stack, and then flips bytes in
the page and in the OOB area. Two of its arrays have room for the errors of every algorithm. The
first one, `uaErrorData`, has four elements, and more registers are copied to it when `BCH_T24` has
located 16 errors or more.

`correctDataBchIn` is the function with the bounds of the arrays, for every value of the registers;
`correctDataBchIn_layout` says that it is the one in the model of the driver where nothing is out of
bounds. `corrected_iff` has the exact condition.

## Modelling

- SMRA has no lower registers: a byte before REG_SMRA0 is out of bounds
- `uaAddr[ii]` is overwritten with an offset in its own pass only, which is not read again
-/

namespace NucKernel.Nand

open NucKernel.Library

/-! ## Registers -/

/-- The algorithm in REG_SMCSR: bits 18 to 22 -/
def bchOf (smcsr : ℕ) : Option Bch :=
  match smcsr / 262144 % 32 with
  | 1 => some .t24
  | 2 => some .t4
  | 4 => some .t8
  | 8 => some .t12
  | 16 => some .t15
  | _ => none

/-- The page size in REG_SMCSR: bits 16 and 17 -/
def pageLenOf (smcsr : ℕ) : ℕ :=
  match smcsr / 65536 % 4 with
  | 0 => 512
  | 1 => 2048
  | 2 => 4096
  | _ => 8192

def totalFieldNum (smcsr : ℕ) (b : Bch) : ℕ := pageLenOf smcsr / b.fieldLen

/-! ## Arrays on the stack -/

def putAt (size : ℕ) (a : ℕ → ℕ) (i x : ℕ) : Option (ℕ → ℕ) :=
  if i < size then some (Function.update a i x) else none

def getAt (size : ℕ) (a : ℕ → ℕ) (i : ℕ) : Option ℕ := if i < size then some (a i) else none

/-- The arrays of `fmiSM_CorrectData_BCH`: four, 24 and 24 elements -/
structure Frame where
  uaErrorData : ℕ → ℕ
  uaData : ℕ → ℕ
  uaAddr : ℕ → ℕ

def copyErrorData (r : ErrorRegs) (jj : ℕ) (a : ℕ → ℕ) : Option (ℕ → ℕ) :=
  forLoop (fun ii a => putAt 4 a ii (r.data ii)) jj a

def parseData (errorData : ℕ → ℕ) (jj : ℕ) (a : ℕ → ℕ) : Option (ℕ → ℕ) :=
  forLoop (fun ii a => do
    let w ← getAt 4 errorData ii
    let a ← putAt 24 a (ii * 4 + 0) (w % 256)
    let a ← putAt 24 a (ii * 4 + 1) (w / 256 % 256)
    let a ← putAt 24 a (ii * 4 + 2) (w / 65536 % 256)
    putAt 24 a (ii * 4 + 3) (w / 16777216 % 256)) jj a

def parseAddr (r : ErrorRegs) (jj : ℕ) (a : ℕ → ℕ) : Option (ℕ → ℕ) :=
  forLoop (fun ii a => do
    let a ← putAt 24 a (ii * 2 + 0) (r.addr ii % 2048)
    putAt 24 a (ii * 2 + 1) (r.addr ii / 65536 % 2048)) jj a

/-- The number of registers to read: `per` errors in a register, and `most` registers -/
def registerCount (cnt per most : ℕ) : ℕ :=
  let jj := cnt / per + 1
  if most < jj then most else jj

def loadErrors (r : ErrorRegs) (cnt : ℕ) (fr : Frame) : Option Frame := do
  let uaErrorData ← copyErrorData r (registerCount cnt 4 6) fr.uaErrorData
  let uaData ← parseData uaErrorData (registerCount cnt 4 6) fr.uaData
  let uaAddr ← parseAddr r (registerCount cnt 2 12) fr.uaAddr
  return { uaErrorData, uaData, uaAddr }

/-! ## The correction -/

/-- A pass of the last loop. `size` is the size of the OOB area and `n` the number of fields. -/
def correctByteIn (b : Bch) (n size field : ℕ) (m : Mem) (addr : ℕ) (x : UInt8) : Option Mem :=
  if addr < b.fieldLen then
    some { m with dma := xorByte m.dma ((field - 1) * b.fieldLen + addr) x }
  else if addr < b.fieldLen + 3 then
    some { m with smra := xorByte m.smra (addr - b.fieldLen + b.parityLen * (field - 1)) x }
  else
    let offset := addr - (b.fieldLen + b.paddingLen - b.parityLen)
    let index := size + b.parityLen * (field - 1) + offset
    if index < b.parityLen * n then none
    else some { m with smra := xorByte m.smra (index - b.parityLen * n) x }

/-- `fmiSM_CorrectData_BCH` -/
def correctDataBchIn (smcsr reactl : ℕ) (r : ErrorRegs) (field cnt : ℕ) (fr : Frame) (m : Mem) :
    Option Mem :=
  match bchOf smcsr with
  -- the value is printed
  | none => some m
  | some b => do
    let fr ← loadErrors r cnt fr
    forLoop (fun ii m => do
      let addr ← getAt 24 fr.uaAddr ii
      let x ← getAt 24 fr.uaData ii
      correctByteIn b (totalFieldNum smcsr b) (reactl % 512) field m addr (UInt8.ofNat x)) cnt m

/-! ## What is to be corrected -/

/-- A byte of the page or of the OOB area -/
inductive Place
  | data (i : ℕ)
  | oob (i : ℕ)
  deriving DecidableEq

/-- The registers and the field that a correction is about -/
structure Site where
  bch : Bch
  /-- The number of fields in a page -/
  fields : ℕ
  /-- The size of the OOB area -/
  size : ℕ
  /-- Fields are counted from 1. -/
  field : ℕ

namespace Site

def parityAddr (p : Site) : ℕ := p.bch.fieldLen + p.bch.paddingLen - p.bch.parityLen

/-- The addresses that the engine reports -/
def Reportable (p : Site) (addr : ℕ) : Prop :=
  addr < p.bch.fieldLen ∨
    p.field = 1 ∧ p.bch.fieldLen ≤ addr ∧ addr < p.bch.fieldLen + 3 ∨
    p.parityAddr ≤ addr ∧ addr < p.bch.fieldLen + p.bch.paddingLen

instance (p : Site) (addr : ℕ) : Decidable (p.Reportable addr) :=
  inferInstanceAs (Decidable (_ ∨ _))

/-- The bytes from the parity code of the field to the end of the OOB area -/
def parityTail (p : Site) : ℕ := p.bch.parityLen * (p.fields - (p.field - 1))

def place (p : Site) (addr : ℕ) : Place :=
  if addr < p.bch.fieldLen then .data (p.bch.fieldLen * (p.field - 1) + addr)
  else if addr < p.bch.fieldLen + 3 then .oob (addr - p.bch.fieldLen)
  else .oob (p.size - p.parityTail + (addr - p.parityAddr))

/-- The byte that an address stands for lies in the field, in the three bytes that are protected, or
    in the parity code of the field, which lies in the OOB area. -/
def Own (p : Site) (addr : ℕ) : Prop :=
  match p.place addr with
  | .data i => p.bch.fieldLen * (p.field - 1) ≤ i ∧ i < p.bch.fieldLen * p.field
  | .oob i =>
    if addr < p.parityAddr then i < 3
    else p.parityTail ≤ p.size ∧ p.size - p.parityTail ≤ i ∧
      i < p.size - p.parityTail + p.bch.parityLen ∧ p.size - p.parityTail + p.bch.parityLen ≤ p.size

/-- What the first errors of the registers flip in a byte -/
def flips (p : Site) (r : ErrorRegs) : ℕ → Place → UInt8
  | 0, _ => 0
  | k + 1, q => p.flips r k q ^^^ if p.place (r.uaAddr k) = q then r.uaData k else 0

structure Toggled (p : Site) (r : ErrorRegs) (cnt : ℕ) (m m' : Mem) : Prop where
  dma : ∀ i, m'.dma i = m.dma i ^^^ p.flips r cnt (.data i)
  smra : ∀ i, m'.smra i = m.smra i ^^^ p.flips r cnt (.oob i)

end Site

/-- The function stays inside its arrays, flips what is reported and nothing else, and each of these
    bytes belongs to the field. -/
def Corrected (smcsr reactl : ℕ) (r : ErrorRegs) (p : Site) (cnt : ℕ) (fr : Frame) (m : Mem) :
    Prop :=
  (∃ m', correctDataBchIn smcsr reactl r p.field cnt fr m = some m' ∧ p.Toggled r cnt m m') ∧
    ∀ k < cnt, p.Own (r.uaAddr k)

/-! ## The arrays -/

section Arrays

variable {r : ErrorRegs} {jj cnt : ℕ}

theorem copyErrorData_eq_some (r : ErrorRegs) (hjj : jj ≤ 4) (a : ℕ → ℕ) :
    ∃ a', copyErrorData r jj a = some a' ∧ ∀ i < jj, a' i = r.data i := by
  refine forLoop_inv (fun k (a : ℕ → ℕ) => ∀ i < k, a i = r.data i) (fun k hk a ha => ?_) nofun
  refine ⟨_, if_pos (by omega), fun i hi => ?_⟩
  rcases eq_or_ne i k with rfl | hne
  · exact Function.update_self ..
  · rw [Function.update_of_ne hne]
    exact ha i (by omega)

theorem copyErrorData_eq_none (hjj : 4 < jj) (a : ℕ → ℕ) : copyErrorData r jj a = none :=
  forLoop_eq_none hjj (fun _ => rfl) a

theorem parseData_eq_some {errorData : ℕ → ℕ} (hdata : ∀ i < jj, errorData i = r.data i)
    (hjj : jj ≤ 4) (a : ℕ → ℕ) :
    ∃ a', parseData errorData jj a = some a' ∧
      ∀ i < 4 * jj, a' i = r.data (i / 4) / 256 ^ (i % 4) % 256 := by
  refine forLoop_inv (fun k (a : ℕ → ℕ) => ∀ i < 4 * k, a i = r.data (i / 4) / 256 ^ (i % 4) % 256)
    (fun k hk a ha => ?_) nofun
  have hget : getAt 4 errorData k = some (r.data k) := by
    rw [getAt, if_pos (by omega), hdata k hk]
  have hput : ∀ (a : ℕ → ℕ) (j x : ℕ), j < 4 →
      putAt 24 a (k * 4 + j) x = some (Function.update a (k * 4 + j) x) :=
    fun a j x hj => if_pos (by omega)
  refine ⟨_, by
    simp only [hget, Option.bind_eq_bind, Option.bind_some, hput _ 0 _ (by decide),
      hput _ 1 _ (by decide), hput _ 2 _ (by decide), hput _ 3 _ (by decide)]
    rfl, fun i hi => ?_⟩
  rcases Nat.lt_or_ge i (4 * k) with hlow | hhigh
  · -- an older element
    rw [Function.update_of_ne (by omega), Function.update_of_ne (by omega),
      Function.update_of_ne (by omega), Function.update_of_ne (by omega)]
    exact ha i hlow
  · -- one of the four bytes of the register
    obtain ⟨j, rfl⟩ := Nat.exists_eq_add_of_le hhigh
    have hdiv : (4 * k + j) / 4 = k := by omega
    have hmod : (4 * k + j) % 4 = j := by omega
    rw [hdiv, hmod, Nat.mul_comm k 4]
    obtain rfl | rfl | rfl | rfl : j = 0 ∨ j = 1 ∨ j = 2 ∨ j = 3 := by omega
    all_goals simp

theorem parseAddr_eq_some (r : ErrorRegs) (hjj : jj ≤ 12) (a : ℕ → ℕ) :
    ∃ a', parseAddr r jj a = some a' ∧ ∀ i < 2 * jj, a' i = r.uaAddr i := by
  refine forLoop_inv (fun k (a : ℕ → ℕ) => ∀ i < 2 * k, a i = r.uaAddr i) (fun k hk a ha => ?_)
    nofun
  have hput : ∀ (a : ℕ → ℕ) (j x : ℕ), j < 2 →
      putAt 24 a (k * 2 + j) x = some (Function.update a (k * 2 + j) x) :=
    fun a j x hj => if_pos (by omega)
  refine ⟨_, by
    simp only [Option.bind_eq_bind, Option.bind_some, hput _ 0 _ (by decide),
      hput _ 1 _ (by decide)]
    rfl, fun i hi => ?_⟩
  rcases Nat.lt_or_ge i (2 * k) with hlow | hhigh
  · -- an older element
    rw [Function.update_of_ne (by omega), Function.update_of_ne (by omega)]
    exact ha i hlow
  · obtain ⟨j, rfl⟩ := Nat.exists_eq_add_of_le hhigh
    have hdiv : (2 * k + j) / 2 = k := by omega
    have hmod : (2 * k + j) % 2 = j := by omega
    rw [ErrorRegs.uaAddr, hdiv, hmod, Nat.mul_comm k 2]
    obtain rfl | rfl : j = 0 ∨ j = 1 := by omega
    all_goals simp

theorem loadErrors_eq_some (hcnt : cnt < 16) (fr : Frame) :
    ∃ fr', loadErrors r cnt fr = some fr' ∧
      ∀ i < cnt, UInt8.ofNat (fr'.uaData i) = r.uaData i ∧ fr'.uaAddr i = r.uaAddr i := by
  have hjj : registerCount cnt 4 6 = cnt / 4 + 1 := if_neg (by omega)
  have hkk : registerCount cnt 2 12 = cnt / 2 + 1 := if_neg (by omega)
  -- all three loops stay inside their arrays
  obtain ⟨errorData, herror, hvalues⟩ :=
    copyErrorData_eq_some r (by omega : cnt / 4 + 1 ≤ 4) fr.uaErrorData
  obtain ⟨uaData, hdata, hbytes⟩ := parseData_eq_some hvalues (by omega) fr.uaData
  obtain ⟨uaAddr, haddr, haddrs⟩ :=
    parseAddr_eq_some r (by omega : cnt / 2 + 1 ≤ 12) fr.uaAddr
  refine ⟨⟨errorData, uaData, uaAddr⟩, ?_, fun i hi => ⟨?_, haddrs i (by omega)⟩⟩
  · simp only [loadErrors, hjj, hkk, herror, hdata, haddr, Option.bind_eq_bind, Option.bind_some]
    rfl
  · rw [ErrorRegs.uaData, ← hbytes i (by omega)]

theorem loadErrors_eq_none (hcnt : 16 ≤ cnt) (fr : Frame) : loadErrors r cnt fr = none := by
  have hjj : 4 < registerCount cnt 4 6 := by
    unfold registerCount
    dsimp only
    split <;> omega
  rw [loadErrors, copyErrorData_eq_none hjj]
  rfl

end Arrays

/-! ## The bytes -/

namespace Site

variable {p : Site} {r : ErrorRegs} {cnt : ℕ} {m m' : Mem} {addr : ℕ}

theorem parityLen_lt (b : Bch) : b.parityLen < b.fieldLen ∧ b.parityLen + 3 ≤ b.paddingLen ∧
    b.fieldLen + b.paddingLen ≤ 2048 ∧ 0 < b.parityLen := by
  cases b <;> decide

theorem parityTail_add (hfield : 1 ≤ p.field) (hfields : p.field ≤ p.fields) :
    p.parityTail + p.bch.parityLen * (p.field - 1) = p.bch.parityLen * p.fields := by
  rw [parityTail, ← Nat.mul_add]
  congr 1
  omega

theorem parityLen_le_tail (hfield : 1 ≤ p.field) (hfields : p.field ≤ p.fields) :
    p.bch.parityLen ≤ p.parityTail := by
  have hmul := Nat.mul_le_mul_left p.bch.parityLen (by omega : 1 ≤ p.fields - (p.field - 1))
  rwa [Nat.mul_one] at hmul

theorem own_place_iff (hfield : 1 ≤ p.field) (hfields : p.field ≤ p.fields)
    (haddr : p.Reportable addr) :
    p.Own addr ↔ (p.parityAddr ≤ addr → p.parityTail ≤ p.size) := by
  obtain ⟨hlen, hpad, -, hpos⟩ := parityLen_lt p.bch
  have htail := parityLen_le_tail hfield hfields
  have hmul : p.bch.fieldLen * p.field = p.bch.fieldLen * (p.field - 1) + p.bch.fieldLen := by
    rw [← Nat.mul_succ]
    congr 1
    omega
  have hbase : p.bch.fieldLen + 3 ≤ p.parityAddr := by
    unfold parityAddr
    omega
  have hend : p.parityAddr + p.bch.parityLen = p.bch.fieldLen + p.bch.paddingLen := by
    unfold parityAddr
    omega
  unfold Reportable at haddr
  rcases haddr with hdata | ⟨-, hmin, hmax⟩ | ⟨hmin, hmax⟩
  · -- data
    have hplace : p.place addr = .data (p.bch.fieldLen * (p.field - 1) + addr) := if_pos hdata
    rw [Own, hplace]
    exact iff_of_true ⟨by omega, by omega⟩ fun h => by omega
  · -- the three bytes that are protected
    have hplace : p.place addr = .oob (addr - p.bch.fieldLen) := by
      rw [place, if_neg (by omega), if_pos hmax]
    rw [Own, hplace]
    refine iff_of_true ?_ fun h => by omega
    simp only [if_pos (by omega : addr < p.parityAddr)]
    omega
  · -- the parity code
    have hplace : p.place addr = .oob (p.size - p.parityTail + (addr - p.parityAddr)) := by
      rw [place, if_neg (by omega), if_neg (by omega)]
    rw [Own, hplace]
    simp only [if_neg (by omega : ¬ addr < p.parityAddr)]
    refine ⟨fun h _ => h.1, fun h => ?_⟩
    have hroom := h hmin
    exact ⟨hroom, by omega, by omega, by omega⟩

def toggle (m : Mem) (q : Place) (x : UInt8) : Mem :=
  match q with
  | .data i => { m with dma := xorByte m.dma i x }
  | .oob i => { m with smra := xorByte m.smra i x }

theorem correctByteIn_eq (hfield : 1 ≤ p.field) (hfields : p.field ≤ p.fields)
    (haddr : p.Reportable addr) (hroom : p.parityAddr ≤ addr → p.parityTail ≤ p.size) (m : Mem)
    (x : UInt8) :
    correctByteIn p.bch p.fields p.size p.field m addr x = some (toggle m (p.place addr) x) := by
  obtain ⟨hlen, hpad, -, -⟩ := parityLen_lt p.bch
  have htail := parityTail_add hfield hfields
  have hbase : p.bch.fieldLen + 3 ≤ p.parityAddr := by
    unfold parityAddr
    omega
  unfold Reportable at haddr
  unfold correctByteIn place
  by_cases hdata : addr < p.bch.fieldLen
  · rw [if_pos hdata, if_pos hdata, toggle, Nat.mul_comm]
  · rw [if_neg hdata, if_neg hdata]
    by_cases hprotected : addr < p.bch.fieldLen + 3
    · -- only the first field protects these bytes
      have hone : p.field = 1 := by omega
      rw [if_pos hprotected, if_pos hprotected, toggle, hone, Nat.sub_self, Nat.mul_zero,
        Nat.add_zero]
    · -- the parity code of the field starts behind those of the fields before it
      have hmin : p.parityAddr ≤ addr := by omega
      have hfits := hroom hmin
      have hindex : p.size + p.bch.parityLen * (p.field - 1) + (addr - p.parityAddr) -
          p.bch.parityLen * p.fields = p.size - p.parityTail + (addr - p.parityAddr) := by omega
      have hinside : ¬ p.size + p.bch.parityLen * (p.field - 1) + (addr - p.parityAddr) <
          p.bch.parityLen * p.fields := by omega
      rw [if_neg hprotected, if_neg hprotected, toggle]
      dsimp only
      rw [← parityAddr, if_neg hinside, hindex]

theorem Toggled.step {k : ℕ} (h : p.Toggled r k m m') :
    p.Toggled r (k + 1) m (toggle m' (p.place (r.uaAddr k)) (r.uaData k)) := by
  cases hplace : p.place (r.uaAddr k) with
  | data i =>
    refine ⟨fun j => ?_, fun j => ?_⟩
    · simp only [toggle, xorByte, flips, hplace, h.dma, Place.data.injEq, @eq_comm _ i j]
      split
      · rw [UInt8.xor_assoc]
      · rw [UInt8.xor_zero]
    · simp [toggle, flips, hplace, h.smra]
  | oob i =>
    refine ⟨fun j => ?_, fun j => ?_⟩
    · simp [toggle, flips, hplace, h.dma]
    · simp only [toggle, xorByte, flips, hplace, h.smra, Place.oob.injEq, @eq_comm _ i j]
      split
      · rw [UInt8.xor_assoc]
      · rw [UInt8.xor_zero]

end Site

section

variable {smcsr : ℕ} {b : Bch}

theorem correctDataBchIn_eq (hb : bchOf smcsr = some b) (reactl : ℕ) (r : ErrorRegs)
    (field cnt : ℕ) (fr : Frame) (m : Mem) :
    correctDataBchIn smcsr reactl r field cnt fr m =
      (loadErrors r cnt fr).bind fun fr =>
        forLoop (fun ii m => (getAt 24 fr.uaAddr ii).bind fun addr =>
          (getAt 24 fr.uaData ii).bind fun x =>
            correctByteIn b (totalFieldNum smcsr b) (reactl % 512) field m addr
              (UInt8.ofNat x)) cnt m := by
  rw [correctDataBchIn, hb]
  rfl

theorem correctDataBchIn_toggled (hb : bchOf smcsr = some b) {reactl field cnt : ℕ}
    (hfield : 1 ≤ field) (hfields : field ≤ totalFieldNum smcsr b) {r : ErrorRegs}
    (hcnt : cnt < 16)
    (haddr : ∀ k < cnt, (Site.mk b (totalFieldNum smcsr b) (reactl % 512) field).Reportable
      (r.uaAddr k))
    (hroom : ∀ k < cnt,
      (Site.mk b (totalFieldNum smcsr b) (reactl % 512) field).parityAddr ≤ r.uaAddr k →
        (Site.mk b (totalFieldNum smcsr b) (reactl % 512) field).parityTail ≤ reactl % 512)
    (fr : Frame) (m : Mem) :
    ∃ m', correctDataBchIn smcsr reactl r field cnt fr m = some m' ∧
      (Site.mk b (totalFieldNum smcsr b) (reactl % 512) field).Toggled r cnt m m' := by
  obtain ⟨fr', hload, hvalues⟩ := loadErrors_eq_some (r := r) hcnt fr
  rw [correctDataBchIn_eq hb, hload, Option.bind_some]
  -- after k passes the first k errors are corrected
  refine forLoop_inv (fun k m' => Site.Toggled _ r k m m') (fun k hk m' hm' => ?_)
    ⟨fun _ => UInt8.xor_zero.symm, fun _ => UInt8.xor_zero.symm⟩
  refine ⟨_, ?_, hm'.step⟩
  obtain ⟨hdata, hplace⟩ := hvalues k hk
  have hgetAddr : getAt 24 fr'.uaAddr k = some (r.uaAddr k) := by
    rw [getAt, if_pos (by omega), hplace]
  have hgetData : getAt 24 fr'.uaData k = some (fr'.uaData k) := if_pos (by omega)
  rw [hgetAddr, Option.bind_some, hgetData, Option.bind_some, hdata]
  exact Site.correctByteIn_eq (p := ⟨b, totalFieldNum smcsr b, reactl % 512, field⟩) hfield hfields
    (haddr k hk) (hroom k hk) m' _

theorem correctDataBchIn_layout (c : Layout) (hb : bchOf smcsr = some c.page.algo)
    (hfields : totalFieldNum smcsr c.page.algo = c.page.fields) {r : ErrorRegs} {field cnt : ℕ}
    (hcnt : cnt < 16) (fr : Frame) (m : Mem) :
    correctDataBchIn smcsr c.smraSize r field cnt fr m =
      some (correctDataBch c r field cnt m) := by
  -- a pass is the one without bounds, as the OOB area has room for the parity codes
  have hpass : ∀ (m : Mem) (addr : ℕ) (x : UInt8),
      correctByteIn c.page.algo c.page.fields c.smraSize field m addr x =
        some (correctByte c field m addr x) := fun m addr x => by
    have hroom := c.room
    have hnum : c.page.parityNum = c.page.algo.parityLen * c.page.fields := rfl
    unfold correctByteIn correctByte Layout.parityBase
    dsimp only
    split
    · rfl
    · split
      · rfl
      · rw [if_neg (by omega)]
        congr 3
        omega
  obtain ⟨fr', hload, hvalues⟩ := loadErrors_eq_some (r := r) hcnt fr
  rw [correctDataBchIn_eq hb, hload, Option.bind_some, hfields, Nat.mod_eq_of_lt c.nineBits]
  refine forLoop_eq_some (fun k => correctDataBch c r field k m) fun k hk => ?_
  obtain ⟨hdata, hplace⟩ := hvalues k hk
  rw [getAt, if_pos (by omega), Option.bind_some, getAt, if_pos (by omega), Option.bind_some,
    hdata, hplace, hpass]
  simp only [correctDataBch, List.range_succ, List.foldl_append, List.foldl_cons, List.foldl_nil]

/-- **BCH correction**: for every algorithm and page size in REG_SMCSR, every field, and every list
    of errors that the engine can report, the correction stays inside its arrays and flips exactly
    the bytes reported, which are bytes of the field, if and only if there are fewer than 16 errors
    and the OOB area has room for the parity codes in which there are errors. -/
theorem corrected_iff (hb : bchOf smcsr = some b) (reactl : ℕ) {field cnt : ℕ} (hfield : 1 ≤ field)
    (hfields : field ≤ totalFieldNum smcsr b) {r : ErrorRegs}
    (haddr : ∀ k < cnt, (Site.mk b (totalFieldNum smcsr b) (reactl % 512) field).Reportable
      (r.uaAddr k)) (fr : Frame) (m : Mem) :
    let p : Site := ⟨b, totalFieldNum smcsr b, reactl % 512, field⟩
    Corrected smcsr reactl r p cnt fr m ↔
      cnt < 16 ∧ ∀ k < cnt, p.parityAddr ≤ r.uaAddr k → p.parityTail ≤ p.size := by
  intro p
  have hown : (∀ k < cnt, p.Own (r.uaAddr k)) ↔
      ∀ k < cnt, p.parityAddr ≤ r.uaAddr k → p.parityTail ≤ p.size := by
    refine forall₂_congr fun k hk => ?_
    exact Site.own_place_iff hfield hfields (haddr k hk)
  constructor
  · rintro ⟨⟨m', hm', -⟩, hall⟩
    refine ⟨?_, hown.mp hall⟩
    -- a fifth register would be copied
    by_contra hmany
    rw [correctDataBchIn_eq hb, loadErrors_eq_none (Nat.le_of_not_lt hmany)] at hm'
    cases hm'
  · rintro ⟨hfew, hroom⟩
    exact ⟨correctDataBchIn_toggled hb hfield hfields hfew haddr hroom fr m, hown.mpr hroom⟩

end

theorem corrected_second_field :
    Corrected 0x50000 128 ⟨fun _ => 0x0201, fun _ => 5 + 1043 * 65536⟩ ⟨.t24, 2, 128, 2⟩ 2
      ⟨fun _ => 0, fun _ => 0, fun _ => 0⟩ ⟨fun _ => 0, fun _ => 0⟩ :=
  (corrected_iff (rfl : bchOf 0x50000 = some .t24) 128 (by decide) (by decide) (by decide)
    _ _).mpr ⟨by decide, by decide⟩

def errorsAtStart : ErrorRegs := ⟨fun _ => 0x01010101, fun k => 2 * k + (2 * k + 1) * 65536⟩

/-- `BCH_T24` and 16 errors at the start of the first field: a fifth register is copied to
    `uaErrorData`. -/
theorem errorData_overrun :
    let p : Site := ⟨.t24, 2, 128, 1⟩
    16 ≤ p.bch.strength ∧ (∀ k < 16, p.Reportable (errorsAtStart.uaAddr k)) ∧
      ¬ Corrected 0x50000 128 errorsAtStart p 16 ⟨fun _ => 0, fun _ => 0, fun _ => 0⟩
        ⟨fun _ => 0, fun _ => 0⟩ := by
  refine ⟨by decide, by decide, fun h => ?_⟩
  obtain ⟨⟨m', hm', -⟩, -⟩ := h
  rw [correctDataBchIn_eq (b := .t24) rfl, loadErrors_eq_none (by decide)] at hm'
  cases hm'

end NucKernel.Nand
