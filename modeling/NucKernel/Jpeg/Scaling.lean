import Mathlib.Tactic.IntervalCases

/-!
# The scaling factors of the JPEG codec (`nuc970_jpeg.c`)

`nuc970_jpeg_CalScalingFactor` computes the two ratios for a mode and four sizes, and
`nuc970_jpeg_SetScalingFactor` stores them in a register; `nuc970_jpeg_GetScalingFactor` reads them.

Sizes of 2, 1 or 0 make a division by zero, depending on the mode. Large upscaling ratios and
vertical ratios of the planar modes above 31 are cut by the masks, and for the planar encoder the
ratios are read from the register of the other modes.

## Modelling

- The sizes are promoted to `int`, and `/` rounds towards zero. A division by zero is `fault`.
- JPSCALU, which switches upscaling on and off, is left out: it holds no ratio.
-/

namespace NucKernel.Jpeg

/-! ## The functions -/

inductive Mode
  | encUpscale
  | decPacketDownscale
  | decPlanarDownscale
  | encPlanarDownscale
  | other
  deriving DecidableEq

/-- What `nuc970_jpeg_CalScalingFactor` does: it divides by zero, returns `-EINVAL`, or returns 0
    with the ratios for the height and for the width. -/
inductive Ratios
  | fault
  | einval
  | ok (ratioH ratioW : UInt16)
  deriving DecidableEq

/-- `a / b` for `int` values -/
def cdiv (a b : ℤ) : Option ℤ := if b = 0 then none else some (a.tdiv b)

def ratios (w h : Option ℤ) (limit : ℤ → ℤ) : Ratios :=
  match w, h with
  | some w, some h => .ok (.ofInt (limit h)) (.ofInt (limit w))
  | _, _ => .fault

/-- A number stored in a `__u32` and limited to 8192 -/
def limit8192 (x : ℤ) : ℤ := if 8192 < x % 0x100000000 then 8192 else x % 0x100000000

variable (mode : Mode) (height width scalingHeight scalingWidth : UInt16)

def planarRatios : Ratios :=
  if height < scalingHeight ∨ width < scalingWidth then .einval
  else if scalingHeight = 0 then .fault
  else if height % scalingHeight ≠ 0 then .einval
  else if scalingWidth = 0 then .fault
  else if width % scalingWidth ≠ 0 then .einval
  else
    let ratioW := width / scalingWidth
    if ratioW = 1 then .einval
    else
      let ratioW := ratioW / 2 - 1
      if 31 < ratioW then .einval
      else
        let ratioH := height / scalingHeight - 1
        if 63 < ratioH then .einval else .ok ratioH ratioW

def calScalingFactor : Ratios :=
  match mode with
  | .encUpscale =>
    if scalingHeight < height ∨ scalingWidth < width then .einval
    else
      ratios (cdiv ((scalingWidth.toNat - 1) * 1024) (width.toNat - 2))
        (cdiv ((scalingHeight.toNat - 1) * 1024) (height.toNat - 2)) id
  | .decPacketDownscale =>
    if height < scalingHeight ∨ width < scalingWidth then .einval
    else
      ratios (cdiv (scalingWidth.toNat * 8192) (width.toNat - 1))
        (cdiv (scalingHeight.toNat * 8192) (height.toNat - 1)) limit8192
  | .decPlanarDownscale | .encPlanarDownscale =>
    planarRatios height width scalingHeight scalingWidth
  | .other => .einval

/-- The registers with ratios -/
structure Regs where
  jpscald : UInt32
  juprat : UInt32
  deriving DecidableEq, Inhabited

def clearFactors (jpscald : UInt32) : UInt32 := jpscald &&& ~~~0x1f3f

/-- JPSCALD with `PSX_ON` and `PS_LPF_ON` -/
def downscaling : UInt32 := 0x8000 ||| 0x4000

def juprat (factorH factorW : UInt16) : UInt32 :=
  (factorH &&& 0x3fff).toUInt32 <<< 16 ||| (factorW &&& 0x3fff).toUInt32

/-- `nuc970_jpeg_SetScalingFactor`; `none` is `-EINVAL`. -/
def setScalingFactor (factorH factorW : UInt16) (r : Regs) : Option Regs :=
  match mode with
  | .encUpscale => some ⟨clearFactors (~~~0x8000), juprat factorH factorW⟩
  | .decPacketDownscale => some ⟨clearFactors downscaling, juprat factorH factorW⟩
  | .decPlanarDownscale | .encPlanarDownscale =>
    some ⟨clearFactors downscaling ||| (factorW &&& 0x1f).toUInt32 <<< 8 |||
      (factorH &&& 0x1f).toUInt32, r.juprat⟩
  | .other => none

/-- `nuc970_jpeg_GetScalingFactor`: the factors for the height and the width -/
def getScalingFactor (r : Regs) : UInt16 × UInt16 :=
  match mode with
  | .decPlanarDownscale =>
    ((r.jpscald &&& 0x3f).toUInt16, ((r.jpscald >>> 8) &&& 0x1f).toUInt16)
  | _ => (((r.juprat >>> 16) &&& 0x3fff).toUInt16, (r.juprat &&& 0x3fff).toUInt16)

/-! ## Storing and reading -/

theorem and_mask_eq_iff {x mask : UInt16} {n : ℕ} (hmask : mask.toNat = 2 ^ n - 1) :
    x &&& mask = x ↔ x ≤ mask := by
  have hpos := Nat.two_pow_pos n
  rw [← UInt16.toNat_inj, UInt16.toNat_and, hmask, Nat.and_two_pow_sub_one_eq_mod,
    UInt16.le_iff_toNat_le, hmask, Nat.mod_eq_iff_lt hpos.ne']
  omega

theorem and_3fff_iff {x : UInt16} : x &&& 0x3fff = x ↔ x ≤ 0x3fff :=
  and_mask_eq_iff (n := 14) rfl

theorem and_1f_iff {x : UInt16} : x &&& 0x1f = x ↔ x ≤ 0x1f :=
  and_mask_eq_iff (n := 5) rfl

theorem juprat_fields (factorH factorW : UInt16) :
    ((juprat factorH factorW >>> 16) &&& 0x3fff).toUInt16 = factorH &&& 0x3fff ∧
      (juprat factorH factorW &&& 0x3fff).toUInt16 = factorW &&& 0x3fff := by
  constructor <;> apply UInt16.toBitVec_inj.mp <;> ext i hi
  · simp only [juprat]
    interval_cases i <;> simp
  · simp only [juprat]
    interval_cases i <;> simp

theorem jpscald_fields (factorH factorW : UInt16) :
    let jpscald := clearFactors downscaling ||| (factorW &&& 0x1f).toUInt32 <<< 8 |||
      (factorH &&& 0x1f).toUInt32
    (jpscald &&& 0x3f).toUInt16 = factorH &&& 0x1f ∧
      ((jpscald >>> 8) &&& 0x1f).toUInt16 = factorW &&& 0x1f := by
  have hclear : clearFactors downscaling = 0xc000 := by decide
  rw [hclear]
  constructor <;> apply UInt16.toBitVec_inj.mp <;> ext i hi
  · interval_cases i <;> simp
  · interval_cases i <;> simp

/-- The ratios fit into the fields of the mode. -/
def Fits (ratioH ratioW : UInt16) : Prop :=
  match mode with
  | .encUpscale | .decPacketDownscale => ratioH ≤ 0x3fff ∧ ratioW ≤ 0x3fff
  | .decPlanarDownscale => ratioH ≤ 0x1f ∧ ratioW ≤ 0x1f
  | .encPlanarDownscale | .other => False

/-- What is stored is read back if and only if it fits. -/
theorem stored_iff (ratioH ratioW : UInt16) :
    (∀ r, ∃ r', setScalingFactor mode ratioH ratioW r = some r' ∧
      getScalingFactor mode r' = (ratioH, ratioW)) ↔ Fits mode ratioH ratioW := by
  obtain ⟨hhigh, hlow⟩ := juprat_fields ratioH ratioW
  obtain ⟨hheight, hwidth⟩ := jpscald_fields ratioH ratioW
  cases mode with
  | encUpscale | decPacketDownscale =>
    -- both fields of JUPRAT have 14 bits
    simp only [setScalingFactor, getScalingFactor, Fits, Option.some.injEq, exists_eq_left',
      forall_const, hhigh, hlow, Prod.mk.injEq, and_3fff_iff]
  | decPlanarDownscale =>
    simp only [setScalingFactor, getScalingFactor, Fits, Option.some.injEq, exists_eq_left',
      forall_const, hheight, hwidth, Prod.mk.injEq, and_1f_iff]
  | encPlanarDownscale =>
    -- the read answers with what JUPRAT had before
    simp only [setScalingFactor, getScalingFactor, Fits, Option.some.injEq, exists_eq_left',
      iff_false]
    intro h
    exact absurd ((h ⟨0, 0⟩).trans (h ⟨0, 1⟩).symm) (by decide)
  | other => simp [setScalingFactor, Fits]

theorem limit8192_le (x : ℤ) : UInt16.ofInt (limit8192 x) ≤ 0x3fff := by
  have hrange : 0 ≤ limit8192 x ∧ limit8192 x ≤ 8192 := by
    rw [limit8192]
    split_ifs <;> omega
  rw [UInt16.le_iff_toNat_le, UInt16.ofInt, UInt16.toNat_ofNat']
  simp only [UInt16.reduceToNat]
  omega

/-! ## The sizes that are right -/

/-- Nothing is divided by zero, and ratios that are computed have the property. -/
def Ratios.Meets (P : UInt16 → UInt16 → Prop) : Ratios → Prop
  | .fault => False
  | .einval => True
  | .ok ratioH ratioW => P ratioH ratioW

theorem ok_meets (P : UInt16 → UInt16 → Prop) (ratioH ratioW : UInt16) :
    (Ratios.ok ratioH ratioW).Meets P ↔ P ratioH ratioW :=
  Iff.rfl

theorem ratios_meets (P : UInt16 → UInt16 → Prop) (a b c d : ℤ) (limit : ℤ → ℤ) :
    (ratios (cdiv a b) (cdiv c d) limit).Meets P ↔
      b ≠ 0 ∧ d ≠ 0 ∧ P (.ofInt (limit (c.tdiv d))) (.ofInt (limit (a.tdiv b))) := by
  by_cases hb : b = 0 <;> by_cases hd : d = 0 <;> simp [ratios, cdiv, hb, hd, Ratios.Meets]

theorem if_einval_meets (P : UInt16 → UInt16 → Prop) {p : Prop} [Decidable p] (r : Ratios) :
    (if p then .einval else r).Meets P ↔ (¬ p → r.Meets P) := by
  split_ifs with h <;> simp [h, Ratios.Meets]

theorem if_fault_meets (P : UInt16 → UInt16 → Prop) {p : Prop} [Decidable p] (r : Ratios) :
    (if p then .fault else r).Meets P ↔ ¬ p ∧ r.Meets P := by
  split_ifs with h <;> simp [h, Ratios.Meets]

/-- The sizes that the planar modes accept when they divide by none that is 0 -/
def PlanarAccepts : Prop :=
  height % scalingHeight = 0 ∧ width % scalingWidth = 0 ∧ 2 ≤ width / scalingWidth ∧
    width / scalingWidth ≤ 65 ∧ height / scalingHeight ≤ 64

theorem planarWidth_iff {ratio : UInt16} :
    ratio ≠ 1 ∧ ratio / 2 - 1 ≤ 31 ↔ 2 ≤ ratio ∧ ratio ≤ 65 := by
  have hlt := ratio.toNat_lt
  simp only [UInt16.le_iff_toNat_le, ne_eq, ← UInt16.toNat_inj, UInt16.toNat_sub,
    UInt16.toNat_div, UInt16.reduceToNat]
  omega

theorem div_sub_one_le_iff {size scaled : UInt16} (hle : scaled ≤ size) (hne : scaled ≠ 0)
    {bound : UInt16} (hbound : bound ≤ 100) :
    size / scaled - 1 ≤ bound ↔ size / scaled ≤ bound + 1 := by
  have hpos : 0 < size.toNat / scaled.toNat := by
    refine Nat.div_pos (UInt16.le_iff_toNat_le.mp hle) (Nat.pos_of_ne_zero fun h => hne ?_)
    exact UInt16.toNat_inj.mp h
  have hlt := (size / scaled).toNat_lt
  rw [UInt16.le_iff_toNat_le] at hbound ⊢
  rw [UInt16.le_iff_toNat_le]
  simp only [UInt16.toNat_sub, UInt16.toNat_add, UInt16.toNat_div, UInt16.reduceToNat] at *
  omega

theorem planarRatios_meets (P : UInt16 → UInt16 → Prop) :
    (planarRatios height width scalingHeight scalingWidth).Meets P ↔
      (scalingHeight ≤ height → scalingWidth ≤ width → scalingHeight ≠ 0 ∧
        (height % scalingHeight = 0 → scalingWidth ≠ 0) ∧
        (PlanarAccepts height width scalingHeight scalingWidth →
          P (height / scalingHeight - 1) (width / scalingWidth / 2 - 1))) := by
  simp only [planarRatios, if_einval_meets, if_fault_meets, ok_meets, not_or, UInt16.not_lt,
    not_not, PlanarAccepts]
  constructor
  · intro h hH hW
    obtain ⟨hne, h⟩ := h ⟨hH, hW⟩
    refine ⟨hne, fun hmod => (h hmod).1, fun ⟨hmod, hmodW, hlow, hhigh, htall⟩ => ?_⟩
    obtain ⟨hone, hsmall⟩ := planarWidth_iff.mpr ⟨hlow, hhigh⟩
    -- the ratio for the height is checked before 1 is subtracted
    exact (h hmod).2 hmodW hone hsmall ((div_sub_one_le_iff hH hne (by decide)).mpr htall)
  · rintro h ⟨hH, hW⟩
    obtain ⟨hne, hneW, h⟩ := h hH hW
    refine ⟨hne, fun hmod => ⟨hneW hmod, fun hmodW hone hsmall htall => ?_⟩⟩
    obtain ⟨hlow, hhigh⟩ := planarWidth_iff.mp ⟨hone, hsmall⟩
    exact h ⟨hmod, hmodW, hlow, hhigh, (div_sub_one_le_iff hH hne (by decide)).mp htall⟩

def UpscaleFits (size scaled : UInt16) : Prop :=
  size ≠ 2 ∧ (((scaled.toNat - 1 : ℤ) * 1024).tdiv (size.toNat - 2)) % 0x10000 ≤ 0x3fff

def Right : Prop :=
  match mode with
  | .encUpscale => height ≤ scalingHeight → width ≤ scalingWidth →
      UpscaleFits width scalingWidth ∧ UpscaleFits height scalingHeight
  | .decPacketDownscale => scalingHeight ≤ height → scalingWidth ≤ width → width ≠ 1 ∧ height ≠ 1
  | .decPlanarDownscale => scalingHeight ≤ height → scalingWidth ≤ width → scalingHeight ≠ 0 ∧
      (height % scalingHeight = 0 → scalingWidth ≠ 0) ∧
      (PlanarAccepts height width scalingHeight scalingWidth → height / scalingHeight ≤ 32)
  | .encPlanarDownscale => scalingHeight ≤ height → scalingWidth ≤ width → scalingHeight ≠ 0 ∧
      (height % scalingHeight = 0 → scalingWidth ≠ 0) ∧
      ¬ PlanarAccepts height width scalingHeight scalingWidth
  | .other => True

theorem toNat_sub_eq_zero {x : UInt16} {n : ℕ} (hn : n < 65536) :
    (x.toNat : ℤ) - n = 0 ↔ x = UInt16.ofNat n := by
  rw [← UInt16.toNat_inj, UInt16.toNat_ofNat_of_lt' hn]
  omega

theorem ofInt_le_iff (x : ℤ) : UInt16.ofInt x ≤ 0x3fff ↔ x % 0x10000 ≤ 0x3fff := by
  rw [UInt16.le_iff_toNat_le, UInt16.ofInt, UInt16.toNat_ofNat']
  simp only [UInt16.reduceToNat]
  omega

theorem calScalingFactor_meets :
    (calScalingFactor mode height width scalingHeight scalingWidth).Meets (Fits mode) ↔
      Right mode height width scalingHeight scalingWidth := by
  cases mode with
  | encUpscale =>
    have htwo : ∀ x : UInt16, (x.toNat : ℤ) - 2 ≠ 0 ↔ x ≠ 2 :=
      fun x => not_congr (toNat_sub_eq_zero (by decide))
    simp only [calScalingFactor, if_einval_meets, ratios_meets, not_or, UInt16.not_lt, htwo, Fits,
      id_eq, ofInt_le_iff, Right, UpscaleFits, and_imp]
    -- the conditions on width and height stand in another order
    refine forall_congr' fun _ => forall_congr' fun _ => ?_
    constructor
    · rintro ⟨hw, hh, hhigh, hwide⟩
      exact ⟨⟨hw, hwide⟩, hh, hhigh⟩
    · rintro ⟨⟨hw, hwide⟩, hh, hhigh⟩
      exact ⟨hw, hh, hhigh, hwide⟩
  | decPacketDownscale =>
    have hone : ∀ x : UInt16, (x.toNat : ℤ) - 1 ≠ 0 ↔ x ≠ 1 :=
      fun x => not_congr (toNat_sub_eq_zero (by decide))
    simp only [calScalingFactor, if_einval_meets, ratios_meets, not_or, UInt16.not_lt, hone, Fits,
      limit8192_le, and_self, and_true, Right, and_imp]
  | decPlanarDownscale =>
    refine (planarRatios_meets _ _ _ _ _).trans (forall_congr' fun hH => forall_congr' fun _ =>
      and_congr_right fun hne => and_congr_right fun _ => forall_congr' fun haccept => ?_)
    -- the ratio for the width has been checked against its field, that for the height has not
    have hwidth : width / scalingWidth / 2 - 1 ≤ 0x1f := by
      obtain ⟨-, -, hlow, hhigh, -⟩ := haccept
      exact (planarWidth_iff.mpr ⟨hlow, hhigh⟩).2
    exact (and_iff_left hwidth).trans (div_sub_one_le_iff hH hne (by decide))
  | encPlanarDownscale => exact planarRatios_meets _ _ _ _ _
  | other => exact Iff.rfl

structure ScalingOk : Prop where
  divides : calScalingFactor mode height width scalingHeight scalingWidth ≠ .fault
  stored : ∀ ratioH ratioW,
    calScalingFactor mode height width scalingHeight scalingWidth = .ok ratioH ratioW →
    ∀ r, ∃ r', setScalingFactor mode ratioH ratioW r = some r' ∧
      getScalingFactor mode r' = (ratioH, ratioW)

/-- **Scaling factors**: the sizes that do no harm, mode by mode -/
theorem scalingOk_iff :
    ScalingOk mode height width scalingHeight scalingWidth ↔
      Right mode height width scalingHeight scalingWidth := by
  rw [← calScalingFactor_meets]
  constructor
  · intro h
    match hcal : calScalingFactor mode height width scalingHeight scalingWidth with
    -- the definition of the right sizes excludes the fault
    | .fault => exact absurd hcal h.divides
    | .einval => trivial
    | .ok ratioH ratioW => exact (stored_iff mode ratioH ratioW).mp (h.stored ratioH ratioW hcal)
  · intro h
    refine ⟨fun hcal => ?_, fun ratioH ratioW hcal => ?_⟩
    · rw [hcal] at h
      exact h
    · rw [hcal] at h
      exact (stored_iff mode ratioH ratioW).mpr h

/-- Divisions by zero in three modes; an upscaling ratio of 20480 and a planar one of 32 that are
    cut by the masks; and ratios of the planar encoder that are not read back -/
theorem scaling_wrong :
    calScalingFactor .encUpscale 4 2 4 4 = .fault ∧
      calScalingFactor .decPacketDownscale 4 1 4 1 = .fault ∧
      calScalingFactor .decPlanarDownscale 4 4 0 0 = .fault ∧
      ¬ ScalingOk .encUpscale 6 6 81 81 ∧
      ¬ ScalingOk .decPlanarDownscale 33 4 1 1 ∧
      ¬ ScalingOk .encPlanarDownscale 8 8 2 2 := by
  refine ⟨by decide, by decide, by decide, fun h => ?_, fun h => ?_, fun h => ?_⟩
  · obtain ⟨r', hset, hget⟩ := h.stored 20480 20480 (by decide) ⟨0, 0⟩
    cases hset
    exact absurd hget (by decide)
  · obtain ⟨r', hset, hget⟩ := h.stored 32 1 (by decide) ⟨0, 0⟩
    cases hset
    exact absurd hget (by decide)
  · obtain ⟨r', hset, hget⟩ := h.stored 3 1 (by decide) ⟨0, 0⟩
    cases hset
    exact absurd hget (by decide)

end NucKernel.Jpeg
