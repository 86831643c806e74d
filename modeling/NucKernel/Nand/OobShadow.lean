import NucKernel.Library.ByteMemory
import NucKernel.Nand.Page

/-!
# The OOB buffer after a write (`nuc970_nand.c`)

The controller computes the parity codes of a page while it is written, and leaves them at the end
of its copy of the OOB area. `nuc970_nand_write_page_hwecc` then takes them over into
`chip->oob_poi`, so that the buffer shows what is on the chip. It reads them at
`oobsize - ecc.total` and writes them at `eccbytes`.

## Modelling

- `oob_poi` and the registers go on beyond `oobsize`
- the parity codes are put at the end of the OOB area by the size in REG_SMREACTL, as
  `fmiSM_CorrectData_BCH` has it
-/

namespace NucKernel.Nand

open NucKernel.Library

/-! ## The geometry that the driver works with -/

structure NandChip where
  page : PageSize
  oobsize : ℕ

/-- `g_SYSAREA_NAND_EXTRA_SIZE` -/
def PageSize.sysareaExtraSize : PageSize → ℕ
  | size2048 => 64
  | size4096 => 128
  | size8192 => 376

namespace NandChip

/-- `mtd->oobsize` after `nuc970_nand_probe` -/
def probedOob (c : NandChip) : ℕ :=
  match c.page with
  | .size8192 => if 376 ≤ c.oobsize then 376 else c.oobsize
  | .size2048 => if 64 ≤ c.oobsize then 64 else c.oobsize
  | .size4096 => c.oobsize

/-- `chip->ecc.layout->eccbytes`, which is `chip->ecc.bytes` too -/
def eccbytes (c : NandChip) : ℕ := c.page.parityNum

/-- `chip->ecc.total` as `nand_scan_tail` computes it, with `chip->ecc.size` a page -/
def eccTotal (c : NandChip) : ℕ := c.page.writesize / c.page.writesize * c.eccbytes

theorem eccTotal_eq (c : NandChip) : c.eccTotal = c.eccbytes := by
  have hsteps : c.page.writesize / c.page.writesize = 1 := by cases c.page <;> rfl
  rw [eccTotal, hsteps, Nat.one_mul]

end NandChip

inductive Area
  | system | execute | user
  deriving DecidableEq, Repr

/-- `m_i32SMRASize` as `nuc970_choice_bch_algo` sets it before the write -/
def NandChip.smraSize (c : NandChip) : Area → ℕ
  | .system => c.page.sysareaExtraSize
  | .execute => c.probedOob
  | .user => c.probedOob

/-! ## The write -/

structure HweccWrite where
  smra : ℕ → UInt8
  eccCalc : ℕ → UInt8
  oobPoi : ℕ → UInt8

/-- `_nuc970_nand_dma_transfer` for a write: the controller puts the parity codes behind the rest of
    the OOB area. -/
def NandChip.transfer (c : NandChip) (area : Area) (parity smra : ℕ → UInt8) : ℕ → UInt8 :=
  store (markDirty smra) (c.smraSize area % 512 - c.eccTotal) (load parity 0 c.eccTotal)

/-- `nuc970_nand_write_page_hwecc`. There is no result where the OOB area is smaller than the parity
    codes: the number of bytes to copy wraps then. -/
def writePageHwecc (c : NandChip) (area : Area) (parity : ℕ → UInt8) (b : HweccWrite) :
    Option HweccWrite :=
  if c.probedOob < c.eccTotal then none
  else
    let smra := store b.smra 0 (List.replicate c.probedOob 0xFF)
    let smra := store smra 0 (load b.oobPoi 0 (c.probedOob - c.eccTotal))
    let smra := c.transfer area parity smra
    let eccCalc := store b.eccCalc 0 (load smra (c.probedOob - c.eccTotal) c.eccTotal)
    let oobPoi := store b.oobPoi c.eccbytes (load eccCalc 0 c.eccTotal)
    some { smra, eccCalc, oobPoi }

/-- After the write the parity codes are at the end of `oob_poi`, as they are in SMRA, and the rest
    of `oob_poi` is what it was. -/
structure Shadowed (c : NandChip) (parity : ℕ → UInt8) (b b' : HweccWrite) : Prop where
  inside : c.eccTotal ≤ c.probedOob
  parity : ∀ k < c.eccTotal, b'.oobPoi (c.probedOob - c.eccTotal + k) = parity k
  same : ∀ i, c.probedOob - c.eccTotal ≤ i → i < c.probedOob → b'.oobPoi i = b'.smra i
  rest : ∀ i, i < c.probedOob - c.eccTotal ∨ c.probedOob ≤ i → b'.oobPoi i = b.oobPoi i

section

variable {c : NandChip} {area : Area} {parity : ℕ → UInt8} {b b' : HweccWrite}

theorem filled_apply (c : NandChip) (b : HweccWrite) {i : ℕ} (hi : i < c.probedOob) :
    store (store b.smra 0 (List.replicate c.probedOob 0xFF)) 0
        (load b.oobPoi 0 (c.probedOob - c.eccTotal)) i =
      if i < c.probedOob - c.eccTotal then b.oobPoi i else 0xFF := by
  -- the buffer is filled with 0xFF first
  have hset : store b.smra 0 (List.replicate c.probedOob 0xFF) i = 0xFF := by
    have hk : i < (List.replicate c.probedOob (0xFF : UInt8)).length := by
      rw [List.length_replicate]
      exact hi
    rw [← Nat.zero_add i, store_inside hk, List.get_eq_getElem, List.getElem_replicate]
  rw [store_load_apply, hset]
  simp

theorem markDirty_congr {smra smra' : ℕ → UInt8} {n : ℕ} (hn : 4 ≤ n)
    (h : ∀ i < n, smra i = smra' i) : ∀ i < n, markDirty smra i = markDirty smra' i := by
  intro i hi
  have h₂ := h 2 (by omega)
  have h₃ := h 3 (by omega)
  unfold markDirty
  simp only [← h₃]
  by_cases hm₃ : smra 3 = 0xFF
  · -- both marker bytes may be changed
    simp only [if_pos hm₃]
    have hset : ∀ s : ℕ → UInt8, setByte s 3 0 2 = s 2 := fun s => rfl
    simp only [hset, ← h₂]
    by_cases hm₂ : smra 2 = 0xFF
    · simp only [if_pos hm₂, setByte, h i hi]
    · simp only [if_neg hm₂, setByte, h i hi]
  · simp only [if_neg hm₃, ← h₂]
    by_cases hm₂ : smra 2 = 0xFF
    · simp only [if_pos hm₂, setByte, h i hi]
    · simp only [if_neg hm₂, h i hi]

theorem writePageHwecc_smra (l : Layout) (hpage : l.page = c.page)
    (hoob : l.oobsize = c.probedOob) (hsize : l.smraSize = c.smraSize area) (w : Write)
    (hblock : ¬ w.page < 2 ^ (w.physEraseShift + 2) / l.page.writesize)
    (hw : w.oobPoi = b.oobPoi)
    (hparity : ∀ k < c.eccTotal, w.parity (l.parityBase + k) = parity k)
    (h : writePageHwecc c area parity b = some b') :
    ∀ i < l.oobsize, b'.smra i = writtenOob l w i := by
  intro i hi
  have hroom := l.room
  have hnine := l.nineBits
  have htotal : l.page.parityNum = c.eccTotal := by rw [hpage, c.eccTotal_eq, NandChip.eccbytes]
  rw [writePageHwecc] at h
  split at h
  · cases h
  rename_i hlt
  obtain rfl := Option.some.inj h
  -- the parity codes are put where the model of the pages has them
  have hbase : c.smraSize area % 512 - c.eccTotal = l.parityBase := by
    rw [← hsize, Nat.mod_eq_of_lt hnine, Layout.parityBase, htotal]
  have hend : l.parityBase + c.eccTotal = l.smraSize := by
    unfold Layout.parityBase
    omega
  have hfill : ∀ i < l.oobsize, store (store b.smra 0 (List.replicate c.probedOob 0xFF)) 0
      (load b.oobPoi 0 (c.probedOob - c.eccTotal)) i = fillSmra l w i := fun i hi => by
    rw [filled_apply c b (hoob ▸ hi), fillSmra, if_neg hblock, hoob, htotal, hw]
  have hfour : 4 ≤ l.oobsize := by
    have := l.within
    omega
  simp only [NandChip.transfer, store_load_apply, hbase, hend, writtenOob]
  split
  · rename_i hin
    -- a parity code
    obtain ⟨k, rfl⟩ := Nat.exists_eq_add_of_le hin.1
    rw [Nat.add_sub_cancel_left, Nat.zero_add, hparity k (by omega)]
  · -- anything else was filled in before the transfer
    exact markDirty_congr hfour hfill i hi

/-! ## When the buffer shows the chip -/

theorem oobPoi_apply (h : writePageHwecc c area parity b = some b') (i : ℕ) :
    b'.oobPoi i =
      if c.eccbytes ≤ i ∧ i < c.eccbytes + c.eccTotal then
        b'.smra (c.probedOob - c.eccTotal + (i - c.eccbytes))
      else b.oobPoi i := by
  rw [writePageHwecc] at h
  split at h
  · cases h
  obtain rfl := Option.some.inj h
  simp only [store_load_apply]
  split
  · rw [if_pos (by omega)]
    simp
  · rfl

theorem smra_parity (h : writePageHwecc c area parity b = some b') {k : ℕ}
    (hk : k < c.eccTotal) : b'.smra (c.smraSize area % 512 - c.eccTotal + k) = parity k := by
  rw [writePageHwecc] at h
  split at h
  · cases h
  obtain rfl := Option.some.inj h
  simp only [NandChip.transfer]
  rw [store_load_apply, if_pos (by omega), Nat.add_sub_cancel_left, Nat.zero_add]

theorem markDirty_apply (smra : ℕ → UInt8) (i : ℕ) :
    markDirty smra i = smra i ∨ markDirty smra i = 0 := by
  unfold markDirty
  generalize (if smra 3 = 0xFF then setByte smra 3 0 else smra) 2 = marked
  by_cases h₃ : smra 3 = 0xFF <;> by_cases h₂ : marked = 0xFF <;>
    simp only [h₃, h₂, if_true, if_false, setByte] <;> grind

theorem smra_elsewhere (h : writePageHwecc c area parity b = some b') {i : ℕ}
    (hfrom : c.probedOob - c.eccTotal ≤ i) (hoob : i < c.probedOob)
    (hi : i < c.smraSize area % 512 - c.eccTotal ∨
      c.smraSize area % 512 - c.eccTotal + c.eccTotal ≤ i) :
    b'.smra i = 0xFF ∨ b'.smra i = 0 := by
  rw [writePageHwecc] at h
  split at h
  · cases h
  obtain rfl := Option.some.inj h
  simp only [NandChip.transfer]
  rw [store_load_apply, if_neg (by omega)]
  refine (markDirty_apply _ i).imp_left fun hkept => ?_
  rw [hkept, filled_apply c b hoob, if_neg (by omega)]

theorem writePageHwecc_eq_some (h : c.eccTotal ≤ c.probedOob) (area : Area)
    (parity : ℕ → UInt8) (b : HweccWrite) : ∃ b', writePageHwecc c area parity b = some b' := by
  rw [writePageHwecc, if_neg (Nat.not_lt.mpr h)]
  exact ⟨_, rfl⟩

def Aligned (c : NandChip) (area : Area) : Prop :=
  c.probedOob = c.eccTotal + c.eccTotal ∧ c.smraSize area % 512 - c.eccTotal = c.eccTotal

theorem shadowed_of_aligned (hc : Aligned c area) (h : writePageHwecc c area parity b = some b') :
    Shadowed c parity b b' := by
  obtain ⟨hprobed, hsize⟩ := hc
  have hbytes := c.eccTotal_eq
  have hsame : ∀ i, c.probedOob - c.eccTotal ≤ i → i < c.probedOob →
      b'.oobPoi i = b'.smra i := fun i hi hlt => by
    -- copied from SMRA, where the two offsets are the same
    rw [oobPoi_apply h, if_pos (by omega)]
    congr 1
    omega
  refine ⟨by omega, fun k hk => ?_, hsame, fun i hi => ?_⟩
  · rw [hsame _ (by omega) (by omega), ← smra_parity h hk]
    congr 1
    omega
  · rw [oobPoi_apply h, if_neg (by omega)]

theorem PageSize.parityNum_pos (p : PageSize) : 0 < p.parityNum := by cases p <;> decide

theorem aligned_of_shadowed
    (hall : ∀ parity b, ∃ b', writePageHwecc c area parity b = some b' ∧ Shadowed c parity b b') :
    Aligned c area := by
  have hbytes := c.eccTotal_eq
  have hpos : 0 < c.eccTotal := by
    rw [hbytes]
    exact c.page.parityNum_pos
  -- an empty buffer, and parity codes that differ from everything else in SMRA
  obtain ⟨b', h, hinside, hparity, hsame, -⟩ :=
    hall (fun _ => 1) { smra := fun _ => 0, eccCalc := fun _ => 0, oobPoi := fun _ => 0 }
  -- a code that was not copied would be 0
  have hcopied : ∀ k < c.eccTotal, c.eccbytes ≤ c.probedOob - c.eccTotal + k ∧
      c.probedOob - c.eccTotal + k < c.eccbytes + c.eccTotal := fun k hk => by
    by_contra hout
    have hkept := hparity k hk
    rw [oobPoi_apply h, if_neg hout] at hkept
    exact absurd hkept UInt8.zero_ne_one
  -- nor can it be a byte that the driver has put into SMRA
  have hcode : ∀ k < c.eccTotal,
      c.smraSize area % 512 - c.eccTotal ≤ c.probedOob - c.eccTotal + k ∧
        c.probedOob - c.eccTotal + k < c.smraSize area % 512 - c.eccTotal + c.eccTotal :=
    fun k hk => by
      by_contra hout
      have hbyte := (hsame (c.probedOob - c.eccTotal + k) (by omega) (by omega)).symm.trans
        (hparity k hk)
      rcases smra_elsewhere h (i := c.probedOob - c.eccTotal + k) (by omega) (by omega)
        (by omega) with hff | hzero
      · rw [hff] at hbyte
        exact absurd hbyte (by decide)
      · rw [hzero] at hbyte
        exact absurd hbyte (by decide)
  -- the first and the last parity code fix the offsets
  have hfirst := hcopied 0 hpos
  have hlast := hcopied (c.eccTotal - 1) (by omega)
  have hfirst' := hcode 0 hpos
  have hlast' := hcode (c.eccTotal - 1) (by omega)
  exact ⟨by omega, by omega⟩

theorem parityNum_size2048 : PageSize.parityNum .size2048 = 32 := by decide

theorem parityNum_size4096 : PageSize.parityNum .size4096 = 120 := by decide

theorem parityNum_size8192 : PageSize.parityNum .size8192 = 368 := by decide

theorem aligned_iff (c : NandChip) (area : Area) :
    Aligned c area ↔
      c.page = .size2048 ∧ 64 ≤ c.oobsize ∨
        c.page = .size4096 ∧ c.oobsize = 240 ∧ area ≠ .system := by
  obtain ⟨page, oobsize⟩ := c
  unfold Aligned
  rw [NandChip.eccTotal_eq]
  cases page with
  | size2048 =>
    have hbytes : (NandChip.mk .size2048 oobsize).eccbytes = 32 := parityNum_size2048
    -- the OOB area is cut to 64 bytes
    have hprobed : (NandChip.mk .size2048 oobsize).probedOob =
        if 64 ≤ oobsize then 64 else oobsize := rfl
    rw [hbytes]
    cases area <;> simp only [NandChip.smraSize, PageSize.sysareaExtraSize, hprobed] <;> grind
  | size4096 =>
    have hbytes : (NandChip.mk .size4096 oobsize).eccbytes = 120 := parityNum_size4096
    have hprobed : (NandChip.mk .size4096 oobsize).probedOob = oobsize := rfl
    rw [hbytes]
    cases area <;> simp only [NandChip.smraSize, PageSize.sysareaExtraSize, hprobed] <;> grind
  | size8192 =>
    have hbytes : (NandChip.mk .size8192 oobsize).eccbytes = 368 := parityNum_size8192
    -- the parity codes do not fit behind the offset at all
    have hprobed : (NandChip.mk .size8192 oobsize).probedOob =
        if 376 ≤ oobsize then 376 else oobsize := rfl
    rw [hbytes, hprobed]
    grind

end

/-- **OOB shadow**: every write leaves the parity codes where the chip has them, and the rest of
    `oob_poi` alone, if and only if the chip has pages of 2048 bytes and 64 bytes of OOB area or
    more, or pages of 4096 bytes and 240 bytes of OOB area and the page is not one of the boot
    loader. -/
theorem shadowed_iff (c : NandChip) (area : Area) :
    (∀ parity b, ∃ b', writePageHwecc c area parity b = some b' ∧ Shadowed c parity b b') ↔
      c.page = .size2048 ∧ 64 ≤ c.oobsize ∨
        c.page = .size4096 ∧ c.oobsize = 240 ∧ area ≠ .system := by
  rw [← aligned_iff]
  refine ⟨aligned_of_shadowed, fun hc parity b => ?_⟩
  have hinside : c.eccTotal ≤ c.probedOob := by
    have := hc.1
    omega
  obtain ⟨b', h⟩ := writePageHwecc_eq_some hinside area parity b
  exact ⟨b', h, shadowed_of_aligned hc h⟩

/-- A chip with pages of 4096 bytes and an OOB area of 128: the parity codes are at 8, and are
    copied to 120. -/
theorem parity_misplaced :
    ∃ b', writePageHwecc ⟨.size4096, 128⟩ .user (fun _ => 1) ⟨fun _ => 0, fun _ => 0, fun _ => 0⟩ =
        some b' ∧
      ¬ Shadowed ⟨.size4096, 128⟩ (fun _ => 1) ⟨fun _ => 0, fun _ => 0, fun _ => 0⟩ b' := by
  obtain ⟨b', h⟩ := writePageHwecc_eq_some (c := ⟨.size4096, 128⟩) (by decide) .user
    (fun _ => 1) ⟨fun _ => 0, fun _ => 0, fun _ => 0⟩
  refine ⟨b', h, fun hshadowed => ?_⟩
  have hfirst := hshadowed.parity 0 (by decide)
  rw [oobPoi_apply h, if_neg (by decide)] at hfirst
  exact absurd hfirst (by decide)

end NucKernel.Nand
