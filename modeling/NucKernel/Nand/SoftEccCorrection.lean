import NucKernel.Nand.SoftEcc

/-!
# Correction with the software ECC (`nand_ecc.c`)

`__nand_correct_data` compares the code that was read with the one of the data that were read. If
in every pair of bits exactly one differs, it takes this for an error in the data at the address the
pairs spell, and flips that bit. If a single bit differs, the error is in the code. Everything else
is uncorrectable.

With 256 bytes the lower two bits of the last code byte are not used, and always 1.
-/

namespace NucKernel.Nand.SoftEcc

open Finset NucKernel.Library.PairParity

/-! ## Correction -/

def flipBit (buf : ℕ → BitVec 8) (byte bit : ℕ) : ℕ → BitVec 8 :=
  fun a => if a = byte then buf a ^^^ (1#8 <<< bit) else buf a

/-- `__nand_correct_data` after the differences of the code bytes have been computed -/
def repair (mult : ℕ) (buf : ℕ → BitVec 8) (b0 b1 b2 : BitVec 8) : ℤ × (ℕ → BitVec 8) :=
  if b0 ||| b1 ||| b2 = 0 then (0, buf)
  -- exactly one bit of every pair differs: an error in the data
  else if (b0 ^^^ (b0 >>> 1)) &&& 0x55 = 0x55 ∧ (b1 ^^^ (b1 >>> 1)) &&& 0x55 = 0x55 ∧
      ((mult = 1 ∧ (b2 ^^^ (b2 >>> 1)) &&& 0x54 = 0x54) ∨
        (mult = 2 ∧ (b2 ^^^ (b2 >>> 1)) &&& 0x55 = 0x55)) then
    let byteAddr :=
      if mult = 1 then lookup addressbits b1 <<< 4 + lookup addressbits b0
      else lookup addressbits (b2 &&& 0x3) <<< 8 + lookup addressbits b1 <<< 4 +
        lookup addressbits b0
    let bitAddr := lookup addressbits (b2 >>> 2)
    (1, flipBit buf byteAddr bitAddr)
  -- a single bit differs: an error in the code
  else if lookup bitsperbyte b0 + lookup bitsperbyte b1 + lookup bitsperbyte b2 = 1 then (1, buf)
  else (-1, buf)

/-- `__nand_correct_data`: the value returned, and the buffer -/
def correctData (cfg : EccConfig) (buf readEcc calcEcc : ℕ → BitVec 8) (eccsize : ℕ) :
    ℤ × (ℕ → BitVec 8) :=
  repair (eccsize >>> 8) buf (readEcc (lowByte cfg) ^^^ calcEcc (lowByte cfg))
    (readEcc (highByte cfg) ^^^ calcEcc (highByte cfg)) (readEcc 2 ^^^ calcEcc 2)

/-! ## The tests and tables, pair by pair -/

theorem byte_eq_zero_iff (b : BitVec 8) : b = 0 ↔ ∀ i < 4, ∀ v, pairOf b i v = false := by
  have h : ∀ b : BitVec 8, b = 0 ↔ ∀ i < 4, ∀ v, pairOf b i v = false := by decide +kernel
  exact h b

theorem pairs_iff (b : BitVec 8) : (b ^^^ (b >>> 1)) &&& 0x55 = 0x55 ↔
    ∀ i < 4, pairOf b i false ≠ pairOf b i true := by
  revert b
  decide +kernel

theorem upperPairs_iff (b : BitVec 8) : (b ^^^ (b >>> 1)) &&& 0x54 = 0x54 ↔
    ∀ i < 3, pairOf b (i + 1) false ≠ pairOf b (i + 1) true := by
  revert b
  decide +kernel

theorem lookup_addressbits (b : BitVec 8) : lookup addressbits b =
    (pairOf b 0 true).toNat + (pairOf b 1 true).toNat * 2 + (pairOf b 2 true).toNat * 4 +
      (pairOf b 3 true).toNat * 8 :=
  lookup_of_eq (fun b => (pairOf b 0 true).toNat + (pairOf b 1 true).toNat * 2 +
    (pairOf b 2 true).toNat * 4 + (pairOf b 3 true).toNat * 8) (by decide +kernel) b

theorem lookup_shiftRight (b : BitVec 8) : lookup addressbits (b >>> 2) =
    (pairOf b 1 true).toNat + (pairOf b 2 true).toNat * 2 + (pairOf b 3 true).toNat * 4 := by
  revert b
  decide +kernel

theorem lookup_and (b : BitVec 8) : lookup addressbits (b &&& 0x3) = (pairOf b 0 true).toNat := by
  revert b
  decide +kernel

def pairWeight (p : Bool → Bool) : ℕ := (p false).toNat + (p true).toNat

theorem lookup_bitsperbyte (b : BitVec 8) : lookup bitsperbyte b =
    pairWeight (pairOf b 0) + pairWeight (pairOf b 1) + pairWeight (pairOf b 2) +
      pairWeight (pairOf b 3) :=
  lookup_of_eq (fun b => pairWeight (pairOf b 0) + pairWeight (pairOf b 1) +
    pairWeight (pairOf b 2) + pairWeight (pairOf b 3)) (by decide +kernel) b

def settle (buf : ℕ → BitVec 8) : Verdict → ℤ × (ℕ → BitVec 8)
  | .clean => (0, buf)
  | .data addr => (1, flipBit buf (addr / 8) (addr % 8))
  | .check => (1, buf)
  | .bad => (-1, buf)

section Repair

variable (b0 b1 b2 : BitVec 8)

theorem forall_codePair (P : (Bool → Bool) → Prop) :
    (∀ q < 11, P (codePair b0 b1 b2 q)) ↔
      (∀ i < 4, P (pairOf b0 i)) ∧ (∀ i < 4, P (pairOf b1 i)) ∧ ∀ i < 3, P (pairOf b2 (i + 1)) := by
  simp only [Nat.forall_lt_succ_right, codePair]
  simp
  tauto

theorem forall_codePair_succ (P : (Bool → Bool) → Prop) :
    (∀ q < 12, P (codePair b0 b1 b2 q)) ↔
      (∀ i < 4, P (pairOf b0 i)) ∧ (∀ i < 4, P (pairOf b1 i)) ∧ ∀ i < 4, P (pairOf b2 i) := by
  have hlast : codePair b0 b1 b2 11 = pairOf b2 0 := rfl
  have hsplit : (∀ i < 4, P (pairOf b2 i)) ↔ P (pairOf b2 0) ∧ ∀ i < 3, P (pairOf b2 (i + 1)) :=
    Nat.forall_lt_succ_left
  rw [Nat.forall_lt_succ_right, forall_codePair, hlast, hsplit]
  tauto

theorem or_eq_zero_iff :
    b0 ||| b1 ||| b2 = 0 ↔ ∀ q < 12, ∀ v, codePair b0 b1 b2 q v = false := by
  rw [forall_codePair_succ b0 b1 b2 fun p => ∀ v, p v = false, ← byte_eq_zero_iff,
    ← byte_eq_zero_iff, ← byte_eq_zero_iff]
  exact BitVec.or_eq_zero_iff.trans ((and_congr_left' BitVec.or_eq_zero_iff).trans and_assoc)

theorem weight_eq :
    ∑ q ∈ range 12, pairWeight (codePair b0 b1 b2 q) =
      lookup bitsperbyte b0 + lookup bitsperbyte b1 + lookup bitsperbyte b2 := by
  simp only [lookup_bitsperbyte, sum_range_succ, sum_range_zero, codePair]
  simp
  omega

theorem addr_eq :
    ∑ q ∈ range 11, (codePair b0 b1 b2 q true).toNat * 2 ^ q =
      8 * (lookup addressbits b1 <<< 4 + lookup addressbits b0) +
        lookup addressbits (b2 >>> 2) := by
  rw [lookup_shiftRight, lookup_addressbits, lookup_addressbits, Nat.shiftLeft_eq]
  simp only [sum_range_succ, sum_range_zero, codePair]
  simp
  omega

theorem addr_eq_succ :
    ∑ q ∈ range 12, (codePair b0 b1 b2 q true).toNat * 2 ^ q =
      8 * (lookup addressbits (b2 &&& 0x3) <<< 8 + lookup addressbits b1 <<< 4 +
        lookup addressbits b0) + lookup addressbits (b2 >>> 2) := by
  have hlast : codePair b0 b1 b2 11 = pairOf b2 0 := rfl
  rw [sum_range_succ, addr_eq, hlast, lookup_and, Nat.shiftLeft_eq]
  omega

theorem lookup_shiftRight_lt : lookup addressbits (b2 >>> 2) < 8 := by
  have := Bool.toNat_lt (pairOf b2 1 true)
  have := Bool.toNat_lt (pairOf b2 2 true)
  have := Bool.toNat_lt (pairOf b2 3 true)
  rw [lookup_shiftRight]
  omega

theorem repair_eq_settle {mult n byteAddr : ℕ} (buf : ℕ → BitVec 8)
    (hzero : b0 ||| b1 ||| b2 = 0 ↔ ∀ q < n, ∀ v, codePair b0 b1 b2 q v = false)
    (hpairs : ((b0 ^^^ (b0 >>> 1)) &&& 0x55 = 0x55 ∧ (b1 ^^^ (b1 >>> 1)) &&& 0x55 = 0x55 ∧
      ((mult = 1 ∧ (b2 ^^^ (b2 >>> 1)) &&& 0x54 = 0x54) ∨
        (mult = 2 ∧ (b2 ^^^ (b2 >>> 1)) &&& 0x55 = 0x55))) ↔
      ∀ q < n, codePair b0 b1 b2 q false ≠ codePair b0 b1 b2 q true)
    (hbyte : (if mult = 1 then lookup addressbits b1 <<< 4 + lookup addressbits b0
      else lookup addressbits (b2 &&& 0x3) <<< 8 + lookup addressbits b1 <<< 4 +
        lookup addressbits b0) = byteAddr)
    (haddr : ∑ q ∈ range n, (codePair b0 b1 b2 q true).toNat * 2 ^ q =
      8 * byteAddr + lookup addressbits (b2 >>> 2))
    (hweight : ∑ q ∈ range n, pairWeight (codePair b0 b1 b2 q) =
      lookup bitsperbyte b0 + lookup bitsperbyte b1 + lookup bitsperbyte b2) :
    repair mult buf b0 b1 b2 = settle buf (decode n (codePair b0 b1 b2)) := by
  have hcard : (differing n (codePair b0 b1 b2)).card =
      lookup bitsperbyte b0 + lookup bitsperbyte b1 + lookup bitsperbyte b2 :=
    card_differing.trans hweight
  have hlt := lookup_shiftRight_lt b2
  -- the same tests in the same order on both sides
  simp only [repair, decode, hzero, hpairs, hbyte, hcard, haddr]
  split_ifs
  · rfl
  · -- the byte and the bit are the two parts of the address
    rw [settle, show (8 * byteAddr + lookup addressbits (b2 >>> 2)) / 8 = byteAddr by omega,
      show (8 * byteAddr + lookup addressbits (b2 >>> 2)) % 8 = lookup addressbits (b2 >>> 2) by
        omega]
  · rfl
  · rfl

/-- **The driver decodes**, 512 bytes -/
theorem repair_512 (buf : ℕ → BitVec 8) :
    repair 2 buf b0 b1 b2 = settle buf (decode 12 (codePair b0 b1 b2)) := by
  refine repair_eq_settle b0 b1 b2 buf (or_eq_zero_iff b0 b1 b2) ?_ (if_neg (by decide))
    (addr_eq_succ b0 b1 b2) (weight_eq b0 b1 b2)
  rw [forall_codePair_succ b0 b1 b2 fun p => p false ≠ p true, ← pairs_iff, ← pairs_iff,
    ← pairs_iff]
  simp

/-- **The driver decodes**, 256 bytes: the lower two bits of the last byte must not differ. -/
theorem repair_256 (buf : ℕ → BitVec 8) (hspare : ∀ v, pairOf b2 0 v = false) :
    repair 1 buf b0 b1 b2 = settle buf (decode 11 (codePair b0 b1 b2)) := by
  have hlast : codePair b0 b1 b2 11 = pairOf b2 0 := rfl
  refine repair_eq_settle b0 b1 b2 buf ?_ ?_ (if_pos rfl) (addr_eq b0 b1 b2) ?_
  · -- the two spare bits are equal on both sides
    rw [or_eq_zero_iff, Nat.forall_lt_succ_right, hlast]
    exact and_iff_left hspare
  · rw [forall_codePair b0 b1 b2 fun p => p false ≠ p true, ← pairs_iff, ← pairs_iff,
      ← upperPairs_iff]
    simp
  · rw [← weight_eq, sum_range_succ _ 11, hlast, pairWeight, hspare, hspare]
    exact (Nat.add_zero _).symm

end Repair

/-! ## Errors -/

/-- The data of an ECC step with the code that is stored for them -/
structure EccBlock where
  buf : ℕ → BitVec 8
  code : ℕ → BitVec 8

inductive EccCell
  | data (byte bit : ℕ)
  | code (byte bit : ℕ)
  deriving DecidableEq

/-- The bits that are used: all but two of the code for 256 bytes -/
def EccCell.Used (eccsize : ℕ) : EccCell → Prop
  | data byte bit => byte < eccsize ∧ bit < 8
  | code byte bit => byte < 3 ∧ bit < 8 ∧ (eccsize = 256 → ¬ (byte = 2 ∧ bit < 2))

namespace EccBlock

def store (cfg : EccConfig) (eccsize : ℕ) (buf : ℕ → BitVec 8) : EccBlock :=
  ⟨buf, calculateEcc cfg buf eccsize⟩

def flip (s : EccBlock) : EccCell → EccBlock
  | .data byte bit => { s with buf := flipBit s.buf byte bit }
  | .code byte bit => { s with code := flipBit s.code byte bit }

/-- Reading back: the code of the data is computed, and the data are corrected. -/
def correct (cfg : EccConfig) (eccsize : ℕ) (s : EccBlock) : ℤ × (ℕ → BitVec 8) :=
  correctData cfg s.buf s.code (calculateEcc cfg s.buf eccsize) eccsize

def syndrome (cfg : EccConfig) (eccsize : ℕ) (s : EccBlock) (q : ℕ) (v : Bool) : Bool :=
  codeBits cfg s.code q v ^^ codeBits cfg (calculateEcc cfg s.buf eccsize) q v

def Spare (eccsize : ℕ) (s : EccBlock) : Prop := eccsize = 256 → ∀ v, pairOf (s.code 2) 0 v = true

end EccBlock

def EccCell.toCell (cfg : EccConfig) : EccCell → Cell
  | data byte bit => .data (8 * byte + bit)
  | code byte bit =>
    if byte = lowByte cfg then .check (3 + bit / 2) (bit % 2 == 1)
    else if byte = highByte cfg then .check (7 + bit / 2) (bit % 2 == 1)
    else if bit < 2 then .check 11 (bit % 2 == 1)
    else .check (bit / 2 - 1) (bit % 2 == 1)

theorem codePair_xor (a b c a' b' c' : BitVec 8) (q : ℕ) (v : Bool) :
    codePair (a ^^^ a') (b ^^^ b') (c ^^^ c') q v =
      (codePair a b c q v ^^ codePair a' b' c' q v) := by
  simp only [codePair]
  split_ifs <;> exact BitVec.getLsbD_xor

theorem flipBit_apply (buf : ℕ → BitVec 8) (byte bit a : ℕ) :
    flipBit buf byte bit a = buf a ^^^ if a = byte then 1#8 <<< bit else 0 := by
  rw [flipBit]
  split <;> simp

theorem flipBit_flipBit (buf : ℕ → BitVec 8) (byte bit : ℕ) :
    flipBit (flipBit buf byte bit) byte bit = buf := by
  funext a
  rw [flipBit_apply, flipBit_apply, BitVec.xor_assoc, BitVec.xor_self, BitVec.xor_zero]

theorem codeBits_flip (cfg : EccConfig) (code : ℕ → BitVec 8) {byte bit q : ℕ} (v : Bool)
    (hbyte : byte < 3) (hbit : bit < 8) (hq : q < 12) :
    codeBits cfg (flipBit code byte bit) q v =
      (codeBits cfg code q v ^^ ((EccCell.code byte bit).toCell cfg).syndrome q v) := by
  -- by trying all bits of the code
  have hplace : ∀ e smc, ∀ byte < 3, ∀ bit < 8, ∀ q < 12, ∀ v,
      codePair (if lowByte ⟨e, smc⟩ = byte then 1#8 <<< bit else 0)
        (if highByte ⟨e, smc⟩ = byte then 1#8 <<< bit else 0) (if 2 = byte then 1#8 <<< bit else 0)
        q v = ((EccCell.code byte bit).toCell ⟨e, smc⟩).syndrome q v := by
    decide +kernel
  rw [codeBits, flipBit_apply, flipBit_apply, flipBit_apply, codePair_xor]
  congr 1
  exact hplace _ _ byte hbyte bit hbit q hq v

theorem dataBit_flip (buf : ℕ → BitVec 8) (byte : ℕ) {bit : ℕ} (hbit : bit < 8) :
    dataBit (flipBit buf byte bit) =
      fun a => dataBit buf a ^^ decide (a = 8 * byte + bit) := by
  funext a
  have hone : ∀ i < 8, ∀ j < 8, (1#8 <<< j).getLsbD i = decide (i = j) := by decide
  rw [dataBit, flipBit_apply, BitVec.getLsbD_xor, ← dataBit]
  congr 1
  by_cases ha : a / 8 = byte
  · -- the bit is in the byte that was changed
    rw [if_pos ha, hone _ (by omega) _ hbit]
    exact decide_eq_decide.mpr (by omega)
  · rw [if_neg ha, decide_eq_false (by omega)]
    simp

section Errors

variable {cfg : EccConfig} {eccsize : ℕ} {s : EccBlock} {c d : EccCell}

theorem addrBits_eq (hsize : eccsize = 256 ∨ eccsize = 512) :
    2 ^ addrBits eccsize = 8 * eccsize ∧ 11 ≤ addrBits eccsize ∧ addrBits eccsize ≤ 12 ∧
      (addrBits eccsize = 11 → eccsize = 256) := by
  rcases hsize with rfl | rfl <;> decide

theorem EccCell.Used.valid (cfg : EccConfig) (hsize : eccsize = 256 ∨ eccsize = 512)
    (h : c.Used eccsize) :
    (c.toCell cfg).Valid (addrBits eccsize) := by
  obtain ⟨hpow, hlow, hhigh, hsmall⟩ := addrBits_eq hsize
  cases c with
  | data byte bit =>
    obtain ⟨hbyte, hbit⟩ := h
    change 8 * byte + bit < _
    omega
  | code byte bit =>
    obtain ⟨hbyte, hbit, hspare⟩ := h
    -- every byte of the code has a place in its order
    have hbytes : byte = lowByte cfg ∨ byte = highByte cfg ∨ byte = 2 := by
      rw [lowByte, highByte]
      split <;> omega
    simp only [EccCell.toCell]
    split_ifs <;> simp only [Cell.Valid] <;> omega

theorem EccCell.toCell_code (cfg : EccConfig) (byte bit : ℕ) :
    ∃ q v, (EccCell.code byte bit).toCell cfg = .check q v := by
  simp only [EccCell.toCell]
  split_ifs <;> exact ⟨_, _, rfl⟩

theorem EccCell.toCell_injective (hc : c.Used eccsize) (hd : d.Used eccsize)
    (h : c.toCell cfg = d.toCell cfg) : c = d := by
  have hcode : ∀ e smc, ∀ byte < 3, ∀ bit < 8, ∀ byte' < 3, ∀ bit' < 8,
      (EccCell.code byte bit).toCell ⟨e, smc⟩ = (EccCell.code byte' bit').toCell ⟨e, smc⟩ →
        EccCell.code byte bit = EccCell.code byte' bit' := by
    decide +kernel
  cases c with
  | data byte bit =>
    cases d with
    | data byte' bit' =>
      -- the address of a bit determines its byte
      have heq : 8 * byte + bit = 8 * byte' + bit' := Cell.data.inj h
      obtain ⟨-, hbit⟩ := hc
      obtain ⟨-, hbit'⟩ := hd
      obtain ⟨rfl, rfl⟩ : byte = byte' ∧ bit = bit' := by omega
      rfl
    | code byte' bit' =>
      obtain ⟨q, v, hq⟩ := EccCell.toCell_code cfg byte' bit'
      -- a bit of the data is no check bit
      cases h.trans hq
  | code byte bit =>
    cases d with
    | data byte' bit' =>
      obtain ⟨q, v, hq⟩ := EccCell.toCell_code cfg byte bit
      cases h.symm.trans hq
    | code byte' bit' => exact hcode _ _ byte hc.1 bit hc.2.1 byte' hd.1 bit' hd.2.1 h

theorem EccBlock.syndrome_store {buf : ℕ → BitVec 8} (q : ℕ) (v : Bool) :
    (EccBlock.store cfg eccsize buf).syndrome cfg eccsize q v = false := by
  rw [EccBlock.syndrome, EccBlock.store, Bool.xor_self]

/-- **How an error shows**: in the check bits of its cell -/
theorem EccBlock.syndrome_flip (hsize : eccsize = 256 ∨ eccsize = 512) (hc : c.Used eccsize)
    {q : ℕ} (hq : q < addrBits eccsize) (v : Bool) :
    (s.flip c).syndrome cfg eccsize q v =
      (s.syndrome cfg eccsize q v ^^ (c.toCell cfg).syndrome q v) := by
  obtain ⟨hpow, -, hhigh, -⟩ := addrBits_eq hsize
  cases c with
  | data byte bit =>
    obtain ⟨hbyte, hbit⟩ := hc
    -- the code that was read is unchanged, the one that is computed changes with the data
    have haddr : 8 * byte + bit < 2 ^ addrBits eccsize := by omega
    simp only [EccBlock.syndrome, EccBlock.flip, calculateEcc_bit cfg _ v hsize hq,
      dataBit_flip _ byte hbit, check_flip haddr, EccCell.toCell, Bool.xor_assoc, ← Bool.not_xor]
  | code byte bit =>
    obtain ⟨hbyte, hbit, -⟩ := hc
    -- the other way round
    have hq₁₂ : q < 12 := by omega
    simp only [EccBlock.syndrome, EccBlock.flip, codeBits_flip cfg _ v hbyte hbit hq₁₂]
    rw [Bool.xor_right_comm]

theorem pairOf_calculateEcc (cfg : EccConfig) (buf : ℕ → BitVec 8) (v : Bool) :
    pairOf (calculateEcc cfg buf 256 2) 0 v = true := by
  have hlast := calculateEcc_last cfg buf 1
  rw [if_pos rfl, Nat.mul_one] at hlast
  rw [hlast, pairOf, BitVec.getLsbD_or]
  cases v <;> exact Bool.or_true _

theorem EccBlock.spare_store {buf : ℕ → BitVec 8} :
    (EccBlock.store cfg eccsize buf).Spare eccsize := by
  rintro rfl v
  exact pairOf_calculateEcc cfg buf v

theorem EccBlock.Spare.flip (h : s.Spare eccsize) (hc : c.Used eccsize) :
    (s.flip c).Spare eccsize := by
  intro hsize v
  cases c with
  | data byte bit => exact h hsize v
  | code byte bit =>
    obtain ⟨-, hbit, hused⟩ := hc
    -- a bit that is used is not one of the two
    have hupper : ∀ bit < 8, ¬ bit < 2 → ∀ v, pairOf (1#8 <<< bit) 0 v = false := by decide
    have hcode : pairOf (flipBit s.code byte bit 2) 0 v =
        (pairOf (s.code 2) 0 v ^^ pairOf (if 2 = byte then 1#8 <<< bit else 0) 0 v) := by
      rw [flipBit_apply]
      exact BitVec.getLsbD_xor
    rw [EccBlock.flip, hcode, h hsize v]
    split
    · rename_i hbyte
      rw [hupper bit hbit fun hlt => hused hsize ⟨hbyte.symm, hlt⟩]
      rfl
    · simp [pairOf]

theorem EccBlock.correct_eq (hsize : eccsize = 256 ∨ eccsize = 512) (h : s.Spare eccsize) :
    s.correct cfg eccsize =
      settle s.buf (decode (addrBits eccsize) (s.syndrome cfg eccsize)) := by
  have hsyndrome : s.syndrome cfg eccsize =
      codePair (s.code (lowByte cfg) ^^^ calculateEcc cfg s.buf eccsize (lowByte cfg))
        (s.code (highByte cfg) ^^^ calculateEcc cfg s.buf eccsize (highByte cfg))
        (s.code 2 ^^^ calculateEcc cfg s.buf eccsize 2) := by
    funext q v
    exact (codePair_xor _ _ _ _ _ _ q v).symm
  rw [EccBlock.correct, correctData, hsyndrome]
  rcases hsize with rfl | rfl
  · apply repair_256
    -- the spare bits are ones in both codes
    intro v
    rw [pairOf, BitVec.getLsbD_xor, ← pairOf, ← pairOf, h rfl v, pairOf_calculateEcc]
    rfl
  · exact repair_512 _ _ _ _

theorem EccBlock.correct_single {buf : ℕ → BitVec 8} (hsize : eccsize = 256 ∨ eccsize = 512)
    (hc : c.Used eccsize) :
    ((EccBlock.store cfg eccsize buf).flip c).correct cfg eccsize =
      settle ((EccBlock.store cfg eccsize buf).flip c).buf
        (decode (addrBits eccsize) (c.toCell cfg).syndrome) := by
  rw [EccBlock.correct_eq hsize (EccBlock.spare_store.flip hc)]
  congr 1
  refine decode_congr fun q hq v => ?_
  rw [EccBlock.syndrome_flip hsize hc hq, EccBlock.syndrome_store, Bool.false_xor]

theorem EccBlock.correct_double {buf : ℕ → BitVec 8} (hsize : eccsize = 256 ∨ eccsize = 512)
    (hc : c.Used eccsize) (hd : d.Used eccsize) :
    (((EccBlock.store cfg eccsize buf).flip c).flip d).correct cfg eccsize =
      settle (((EccBlock.store cfg eccsize buf).flip c).flip d).buf
        (decode (addrBits eccsize) fun q v =>
          (c.toCell cfg).syndrome q v ^^ (d.toCell cfg).syndrome q v) := by
  rw [EccBlock.correct_eq hsize ((EccBlock.spare_store.flip hc).flip hd)]
  congr 1
  refine decode_congr fun q hq v => ?_
  rw [EccBlock.syndrome_flip hsize hd hq, EccBlock.syndrome_flip hsize hc hq,
    EccBlock.syndrome_store, Bool.false_xor]

end Errors

/-- **One error is corrected, two are detected**: for all data and both sizes of an ECC step, a
    wrong bit in the data is restored, a wrong bit in the code does no harm, and two wrong bits are
    reported and left as they are. -/
theorem correctsOne_detectsTwo (cfg : EccConfig) (eccsize : ℕ) (buf : ℕ → BitVec 8)
    (hsize : eccsize = 256 ∨ eccsize = 512) :
    (∀ byte bit, (EccCell.data byte bit).Used eccsize →
      ((EccBlock.store cfg eccsize buf).flip (.data byte bit)).correct cfg eccsize = (1, buf)) ∧
    (∀ byte bit, (EccCell.code byte bit).Used eccsize →
      ((EccBlock.store cfg eccsize buf).flip (.code byte bit)).correct cfg eccsize = (1, buf)) ∧
    ∀ c d : EccCell, c.Used eccsize → d.Used eccsize → c ≠ d →
      (((EccBlock.store cfg eccsize buf).flip c).flip d).correct cfg eccsize =
        (-1, (((EccBlock.store cfg eccsize buf).flip c).flip d).buf) := by
  obtain ⟨-, hlow, -, -⟩ := addrBits_eq hsize
  refine ⟨fun byte bit hc => ?_, fun byte bit hc => ?_, fun c d hc hd hne => ?_⟩
  · -- the address found is the one of the error, and flipping the bit again restores it
    have hbit : bit < 8 := hc.2
    rw [EccBlock.correct_single hsize hc, EccCell.toCell,
      decode_data (by omega) (hc.valid cfg hsize)]
    change (1, flipBit (flipBit buf byte bit) ((8 * byte + bit) / 8) ((8 * byte + bit) % 8)) = _
    rw [show (8 * byte + bit) / 8 = byte by omega, show (8 * byte + bit) % 8 = bit by omega,
      flipBit_flipBit]
  · -- one check bit differs, and the data are left as they are
    have hvalid := hc.valid cfg hsize
    obtain ⟨q, v, hcell⟩ := EccCell.toCell_code cfg byte bit
    rw [hcell] at hvalid
    rw [EccBlock.correct_single hsize hc, hcell, decode_check (by omega) hvalid]
    rfl
  · rw [EccBlock.correct_double hsize hc hd, decode_double (by omega) (hc.valid cfg hsize)
      (hd.valid cfg hsize) fun h => hne (EccCell.toCell_injective hc hd h)]
    rfl

theorem correctsOne_detectsTwo_zeros :
    (((EccBlock.store ⟨false, false⟩ 256 fun _ => 0).flip (.data 3 1)).flip (.code 0 5)).correct
      ⟨false, false⟩ 256 =
        (-1, flipBit (fun _ => 0) 3 1) :=
  (correctsOne_detectsTwo ⟨false, false⟩ 256 (fun _ => 0) (.inl rfl)).2.2 _ _
    ⟨by decide, by decide⟩ ⟨by decide, by decide, by decide⟩ (by decide)

end NucKernel.Nand.SoftEcc
