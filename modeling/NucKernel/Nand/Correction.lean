import Mathlib.Algebra.Group.Int.Defs
import Mathlib.Algebra.GroupWithZero.Nat
import NucKernel.Library.Bytes
import Mathlib.Data.List.GetD

/-!
# BCH correction in the NAND driver (`nuc970_nand.c`)

The controller checks a page field by field while it is read. At a field with errors it stops, puts
the number of errors into the status of this field and their places into a set of registers, and the
driver repairs the copy in memory: `fmiSMCorrectData` looks for the field, `fmiSM_CorrectData_BCH`
flips what is wrong in it.

## Modelling

- shifts and masks of register values are written as quotients and remainders
- the controller reports one field at a time; the status of the other fields is then clean. There is
  one set of error registers only, and the driver stops looking at the first field of a status word
  that has errors
- memory is a function from offsets to bytes
-/

namespace NucKernel.Nand

open NucKernel.Library

/-! ## Geometry -/

inductive Bch
  | t4 | t8 | t12 | t15 | t24
  deriving DecidableEq, Repr

namespace Bch

/-- The number of bit errors in a field that can be located, `chip->ecc.strength` -/
def strength : Bch → ℕ
  | t4 => 4
  | t8 => 8
  | t12 => 12
  | t15 => 15
  | t24 => 24

def fieldLen : Bch → ℕ
  | t24 => 1024
  | _ => 512

/-- `BCH_PADDING_LEN_512`, `BCH_PADDING_LEN_1024` -/
def paddingLen : Bch → ℕ
  | t24 => 64
  | _ => 32

/-- `BCH_PARITY_LEN_T4` and the others -/
def parityLen : Bch → ℕ
  | t4 => 8
  | t8 => 15
  | t12 => 23
  | t15 => 29
  | t24 => 45

end Bch

/-- The page sizes that `nuc970_nand_probe` accepts -/
inductive PageSize
  | size2048 | size4096 | size8192
  deriving DecidableEq, Repr

namespace PageSize

def writesize : PageSize → ℕ
  | size2048 => 2048
  | size4096 => 4096
  | size8192 => 8192

/-- The algorithm that `nuc970_nand_probe` selects for all partitions -/
def algo : PageSize → Bch
  | size2048 => .t4
  | size4096 => .t8
  | size8192 => .t12

def fields (p : PageSize) : ℕ := p.writesize / p.algo.fieldLen

def parityNum (p : PageSize) : ℕ := p.algo.parityLen * p.fields

theorem fieldLen_mul_fields (p : PageSize) : p.algo.fieldLen * p.fields = p.writesize := by
  cases p <;> rfl

end PageSize

/-- A chip: `mtd->oobsize`, and the part of the OOB area that the controller uses (nine bits of
    REG_SMREACTL), which has room for four bytes of marker and the parity codes -/
structure Layout where
  page : PageSize
  oobsize : ℕ
  smraSize : ℕ
  room : 4 + page.parityNum ≤ smraSize
  within : smraSize ≤ oobsize
  nineBits : smraSize < 512

def Layout.parityBase (c : Layout) : ℕ := c.smraSize - c.page.parityNum

/-! ## The driver -/

/-- The DMA buffer `pnand_vaddr`, and the registers REG_SMRA0 and following, which hold the OOB
    area -/
structure Mem where
  dma : ℕ → UInt8
  smra : ℕ → UInt8

/-- `p[i] ^= x` -/
def xorByte (p : ℕ → UInt8) (i : ℕ) (x : UInt8) : ℕ → UInt8 :=
  fun j => if j = i then p j ^^^ x else p j

/-- REG_BCH_ECC_DATA0 and REG_BCH_ECC_ADDR0, and the registers that follow them -/
structure ErrorRegs where
  data : ℕ → ℕ
  addr : ℕ → ℕ

/-- `uaData`: four error bytes in a register -/
def ErrorRegs.uaData (r : ErrorRegs) (ii : ℕ) : UInt8 :=
  UInt8.ofNat (r.data (ii / 4) / 256 ^ (ii % 4) % 256)

/-- `uaAddr`: two addresses of 11 bits in a register -/
def ErrorRegs.uaAddr (r : ErrorRegs) (ii : ℕ) : ℕ :=
  r.addr (ii / 2) / 65536 ^ (ii % 2) % 2048

/-- A pass of the loop in `fmiSM_CorrectData_BCH`. Fields are counted from 1. -/
def correctByte (c : Layout) (field : ℕ) (m : Mem) (addr : ℕ) (x : UInt8) : Mem :=
  let b := c.page.algo
  if addr < b.fieldLen then
    -- wrong data in the field
    { m with dma := xorByte m.dma ((field - 1) * b.fieldLen + addr) x }
  else if addr < b.fieldLen + 3 then
    -- one of the three protected bytes
    { m with smra := xorByte m.smra (addr - b.fieldLen + b.parityLen * (field - 1)) x }
  else
    -- wrong parity code
    let offset := addr - (b.fieldLen + b.paddingLen - b.parityLen)
    { m with smra := xorByte m.smra (c.parityBase + b.parityLen * (field - 1) + offset) x }

/-- `fmiSM_CorrectData_BCH` -/
def correctDataBch (c : Layout) (r : ErrorRegs) (field cnt : ℕ) (m : Mem) : Mem :=
  (List.range cnt).foldl (fun m ii => correctByte c field m (r.uaAddr ii) (r.uaData ii)) m

inductive WordStatus
  | clean
  | correctable (ii cnt : ℕ)
  | uncorrectable
  deriving DecidableEq, Repr

/-- The loop over the fields of a status word, from field `ii` on and for `n` fields -/
def scanWord : ℕ → ℕ → ℕ → WordStatus
  | 0, _, _ => .clean
  | n + 1, ii, uStatus =>
    if uStatus % 4 = 0 then scanWord n (ii + 1) (uStatus / 256)
    else if uStatus % 4 = 1 then .correctable ii (uStatus / 4 % 32)
    else .uncorrectable

def correctWords (c : Layout) (st : ℕ → ℕ) (r : ErrorRegs) : List ℕ → ℕ → Mem → Option ℕ × Mem
  | [], n, m => (some n, m)
  | jj :: rest, n, m =>
    match scanWord 4 1 (st jj) with
    | .clean => correctWords c st r rest n m
    -- the other fields of the word are not looked at
    | .correctable ii cnt =>
      correctWords c st r rest (n + cnt) (correctDataBch c r (jj * 4 + ii) cnt m)
    | .uncorrectable => (none, m)

def PageSize.statusWords (p : PageSize) : ℕ := if p.fields < 4 then 1 else p.fields / 4

/-- `fmiSMCorrectData`, when the controller has set its flag -/
def correctData (c : Layout) (st : ℕ → ℕ) (r : ErrorRegs) (m : Mem) : Option ℕ × Mem :=
  correctWords c st r (List.range c.page.statusWords) 0 m

/-! ## The controller -/

/-- What the controller says of a field: the addresses and the error bytes, or that there are more
    errors than it can locate -/
abbrev Report := Option (List (ℕ × UInt8))

def statusByte : Report → ℕ
  | none => 2
  | some [] => 0
  | some (p :: l) => 1 + 4 * (p :: l).length

/-- The status words when the controller has stopped at field `f`, counted from 0 -/
def statusAt (f : ℕ) (rep : Report) : ℕ → ℕ :=
  fun j => if j = f / 4 then statusByte rep * 256 ^ (f % 4) else 0

def errorRegs (l : List (ℕ × UInt8)) : ErrorRegs where
  data := fun k =>
    (l.getD (4 * k) (0, 0)).2.toNat + (l.getD (4 * k + 1) (0, 0)).2.toNat * 256 +
      (l.getD (4 * k + 2) (0, 0)).2.toNat * 65536 + (l.getD (4 * k + 3) (0, 0)).2.toNat * 16777216
  addr := fun k => (l.getD (2 * k) (0, 0)).1 + (l.getD (2 * k + 1) (0, 0)).1 * 65536

/-! ## From registers to errors -/

theorem uaData_errorRegs (l : List (ℕ × UInt8)) (i : ℕ) :
    (errorRegs l).uaData i = (l.getD i (0, 0)).2 := by
  obtain ⟨k, j, hj, rfl⟩ : ∃ k j, j < 4 ∧ i = 4 * k + j :=
    ⟨i / 4, i % 4, Nat.mod_lt _ (by decide), (Nat.div_add_mod i 4).symm⟩
  have hvalue : (errorRegs l).data k / 256 ^ j % 256 = (l.getD (4 * k + j) (0, 0)).2.toNat := by
    have hbyte : ∀ i, (l.getD i (0, 0)).2.toNat < 256 := fun i => UInt8.toNat_lt _
    have h₀ := hbyte (4 * k)
    have h₁ := hbyte (4 * k + 1)
    have h₂ := hbyte (4 * k + 2)
    have h₃ := hbyte (4 * k + 3)
    -- the four places of a register
    obtain rfl | rfl | rfl | rfl : j = 0 ∨ j = 1 ∨ j = 2 ∨ j = 3 := by omega
    all_goals
      simp only [errorRegs, Nat.add_zero]
      omega
  rw [ErrorRegs.uaData, show (4 * k + j) / 4 = k by omega, show (4 * k + j) % 4 = j by omega,
    hvalue, UInt8.ofNat_toNat]

theorem uaAddr_errorRegs {l : List (ℕ × UInt8)} (hl : ∀ p ∈ l, p.1 < 2048) (i : ℕ) :
    (errorRegs l).uaAddr i = (l.getD i (0, 0)).1 := by
  obtain ⟨k, j, hj, rfl⟩ : ∃ k j, j < 2 ∧ i = 2 * k + j :=
    ⟨i / 2, i % 2, Nat.mod_lt _ (by decide), (Nat.div_add_mod i 2).symm⟩
  have haddr : ∀ i, (l.getD i (0, 0)).1 < 2048 := by
    intro i
    rcases Nat.lt_or_ge i l.length with hi | hi
    · rw [List.getD_eq_getElem _ _ hi]
      exact hl _ (List.getElem_mem hi)
    · rw [List.getD_eq_default _ _ hi]
      decide
  have h₀ := haddr (2 * k)
  have h₁ := haddr (2 * k + 1)
  rw [ErrorRegs.uaAddr, show (2 * k + j) / 2 = k by omega, show (2 * k + j) % 2 = j by omega]
  obtain rfl | rfl : j = 0 ∨ j = 1 := by omega
  all_goals
    simp only [errorRegs, Nat.add_zero]
    omega

def correctAll (c : Layout) (field : ℕ) (l : List (ℕ × UInt8)) (m : Mem) : Mem :=
  l.foldl (fun m p => correctByte c field m p.1 p.2) m

theorem correctDataBch_errorRegs (c : Layout) {l : List (ℕ × UInt8)}
    (hl : ∀ p ∈ l, p.1 < 2048) (field : ℕ) (m : Mem) :
    correctDataBch c (errorRegs l) field l.length m = correctAll c field l m := by
  -- the registers give back the list
  have hlist : (List.range l.length).map (fun i => l.getD i (0, 0)) = l := by
    apply List.ext_getElem
    · rw [List.length_map, List.length_range]
    · intro i _ hi
      rw [List.getElem_map, List.getElem_range, List.getD_eq_getElem _ _ hi]
  calc
    correctDataBch c (errorRegs l) field l.length m
    _ = ((List.range l.length).map fun i => l.getD i (0, 0)).foldl
        (fun m p => correctByte c field m p.1 p.2) m := by
      simp only [correctDataBch, uaData_errorRegs, uaAddr_errorRegs hl, List.foldl_map]
    _ = correctAll c field l m := by rw [hlist, correctAll]

/-! ## From status words to the field -/

theorem scanWord_shift {s : ℕ} (k n ii : ℕ) :
    scanWord (k + n) ii (s * 256 ^ k) = scanWord n (ii + k) s := by
  induction k generalizing ii with
  | zero => simp
  | succ k ih =>
    have hpow : s * 256 ^ (k + 1) = s * 256 ^ k * 256 := by rw [Nat.pow_succ, Nat.mul_assoc]
    rw [show k + 1 + n = (k + n) + 1 by omega, hpow, scanWord, if_pos (by omega),
      Nat.mul_div_cancel _ (by decide), ih, Nat.add_right_comm, Nat.add_assoc]

theorem scanWord_zero (n ii : ℕ) : scanWord n ii 0 = .clean := by
  induction n generalizing ii with
  | zero => rfl
  | succ n ih => exact ih (ii + 1)

theorem scanWord_at (f s : ℕ) :
    ∃ n, scanWord 4 1 (s * 256 ^ (f % 4)) = scanWord (n + 1) (1 + f % 4) s := by
  refine ⟨3 - f % 4, ?_⟩
  rw [← scanWord_shift, show f % 4 + (3 - f % 4 + 1) = 4 by omega]

theorem scanWord_uncorrectable (f : ℕ) :
    scanWord 4 1 (statusAt f none (f / 4)) = .uncorrectable := by
  have hword : statusAt f none (f / 4) = 2 * 256 ^ (f % 4) := if_pos rfl
  obtain ⟨n, hn⟩ := scanWord_at f 2
  rw [hword, hn]
  rfl

theorem scanWord_correctable (f : ℕ) (p : ℕ × UInt8) (l : List (ℕ × UInt8))
    (hlen : (p :: l).length < 32) :
    scanWord 4 1 (statusAt f (some (p :: l)) (f / 4)) =
      .correctable (1 + f % 4) (p :: l).length := by
  have hword : statusAt f (some (p :: l)) (f / 4) =
      (1 + 4 * (p :: l).length) * 256 ^ (f % 4) := if_pos rfl
  obtain ⟨n, hn⟩ := scanWord_at f (1 + 4 * (p :: l).length)
  rw [hword, hn, scanWord, if_neg (by omega), if_pos (by omega)]
  congr 1
  omega

theorem correctWords_clean (c : Layout) {st : ℕ → ℕ} (r : ErrorRegs) {js : List ℕ}
    (hclean : ∀ j ∈ js, st j = 0) (n : ℕ) (m : Mem) :
    correctWords c st r js n m = (some n, m) := by
  induction js with
  | nil => rfl
  | cons j js ih =>
    rw [correctWords, hclean j (List.mem_cons_self ..), scanWord_zero]
    exact ih fun i hi => hclean i (List.mem_cons_of_mem j hi)

theorem correctWords_single (c : Layout) {st : ℕ → ℕ} (r : ErrorRegs) {js : List ℕ} {q : ℕ}
    (hq : q ∈ js) (hnodup : js.Nodup) (hclean : ∀ j, j ≠ q → st j = 0) (m : Mem) :
    correctWords c st r js 0 m = correctWords c st r [q] 0 m := by
  induction js with
  | nil => cases hq
  | cons j js ih =>
    obtain ⟨hj, hrest⟩ := List.nodup_cons.mp hnodup
    by_cases hjq : j = q
    · subst hjq
      -- whatever this word does, the words after it do nothing
      have hothers : ∀ i ∈ js, st i = 0 := fun i hi => hclean i fun h => hj (h ▸ hi)
      unfold correctWords
      split
      · exact correctWords_clean c r hothers 0 m
      · exact correctWords_clean c r hothers _ _
      · rfl
    · -- clean words are passed over
      rw [correctWords, hclean j hjq, scanWord_zero]
      exact ih ((List.mem_cons.mp hq).resolve_left (Ne.symm hjq)) hrest

theorem statusWord_lt (p : PageSize) {f : ℕ} (hf : f < p.fields) : f / 4 < p.statusWords := by
  have hfour : p.fields = 4 * p.statusWords := by cases p <;> rfl
  omega

theorem correctData_statusAt (c : Layout) (r : ErrorRegs) {f : ℕ} (hf : f < c.page.fields)
    (rep : Report) (m : Mem) :
    correctData c (statusAt f rep) r m = correctWords c (statusAt f rep) r [f / 4] 0 m := by
  have hmem : f / 4 ∈ List.range c.page.statusWords :=
    List.mem_range.mpr (statusWord_lt c.page hf)
  have hclean : ∀ j, j ≠ f / 4 → statusAt f rep j = 0 := fun j hj => if_neg hj
  exact correctWords_single c r hmem List.nodup_range hclean m

theorem correctData_uncorrectable (c : Layout) (r : ErrorRegs) {f : ℕ} (hf : f < c.page.fields)
    (m : Mem) : correctData c (statusAt f none) r m = (none, m) := by
  rw [correctData_statusAt c r hf, correctWords, scanWord_uncorrectable]

theorem correctData_report (c : Layout) {f : ℕ} (hf : f < c.page.fields) (p : ℕ × UInt8)
    (l : List (ℕ × UInt8)) (hlen : (p :: l).length < 32) (haddr : ∀ x ∈ p :: l, x.1 < 2048)
    (m : Mem) :
    correctData c (statusAt f (some (p :: l))) (errorRegs (p :: l)) m =
      (some (p :: l).length, correctAll c (f + 1) (p :: l) m) := by
  have hfield : f / 4 * 4 + (1 + f % 4) = f + 1 := by omega
  rw [correctData_statusAt c _ hf, correctWords, scanWord_correctable f p l hlen]
  simp only [correctWords, hfield, correctDataBch_errorRegs c haddr, Nat.zero_add]

/-! ## The data -/

def flipsAt : List (ℕ × UInt8) → ℕ → UInt8
  | [], _ => 0
  | p :: l, a => (if p.1 = a then p.2 else 0) ^^^ flipsAt l a

theorem dma_correctByte (c : Layout) (f : ℕ) (m : Mem) (a : ℕ) (x : UInt8) (i : ℕ) :
    (correctByte c (f + 1) m a x).dma i =
      if a < c.page.algo.fieldLen ∧ c.page.algo.fieldLen * f + a = i then m.dma i ^^^ x
      else m.dma i := by
  unfold correctByte
  dsimp only
  rw [Nat.add_sub_cancel, Nat.mul_comm f]
  split
  · rename_i ha
    -- an error in the data
    simp only [xorByte, ha, true_and, eq_comm]
  · rename_i ha
    -- an error in the OOB area
    simp only [ha, false_and, if_false]
    split <;> rfl

theorem dma_correctAll (c : Layout) {f a : ℕ} (ha : a < c.page.algo.fieldLen)
    (l : List (ℕ × UInt8)) (m : Mem) :
    (correctAll c (f + 1) l m).dma (c.page.algo.fieldLen * f + a) =
      m.dma (c.page.algo.fieldLen * f + a) ^^^ flipsAt l a := by
  -- an address may be reported more than once
  induction l generalizing m with
  | nil => exact UInt8.xor_zero.symm
  | cons p l ih =>
    have hfold : correctAll c (f + 1) (p :: l) m =
        correctAll c (f + 1) l (correctByte c (f + 1) m p.1 p.2) := rfl
    rw [hfold, ih, dma_correctByte, flipsAt, ← UInt8.xor_assoc]
    congr 1
    by_cases hp : p.1 = a
    · -- the error is in this byte
      rw [if_pos ⟨hp ▸ ha, hp ▸ rfl⟩, if_pos hp]
    · rw [if_neg fun h => hp (by omega), if_neg hp, UInt8.xor_zero]

theorem dma_correctAll_of_lt (c : Layout) {f i : ℕ} (hi : i < c.page.algo.fieldLen * f)
    (l : List (ℕ × UInt8)) (m : Mem) : (correctAll c (f + 1) l m).dma i = m.dma i := by
  induction l generalizing m with
  | nil => rfl
  | cons p l ih =>
    have hfold : correctAll c (f + 1) (p :: l) m =
        correctAll c (f + 1) l (correctByte c (f + 1) m p.1 p.2) := rfl
    rw [hfold, ih, dma_correctByte, if_neg fun h => by omega]

end NucKernel.Nand
