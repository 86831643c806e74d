import Mathlib.Algebra.Group.Int.Defs
import Mathlib.Algebra.Group.Nat.Defs
import NucKernel.Library.Runs

/-!
# Two devices on one SPI controller (`spi-bitbang.c`, `spi-nuc970-p0.c`)

`bitbang_work` runs the queue of messages. It relies on the controller in two ways: to select a chip
is to deselect any other, and `setup_transfer` applies the speed of a transfer. The controller does
neither. A slave has a bit of its own in REG_SSR, which only a call for this slave clears, so a chip
that a message leaves selected stays so during messages for the other one. And REG_DIVIDER is
written by `nuc970_spi0_setup` only, for the speed of the device that is set up.

`disciplined_iff` has the exact condition under which every transfer finds the bus as it should.

## Modelling

- `clk` is the rate of the controller's clock; speeds are not 0 (`spi.c` puts the speed of the
  device into a transfer that has none). Speeds with `clk + 2 * hz >= 2^32`, for which the sums of
  the driver wrap, are left out (`Speed.fits`)
- what a transfer returns is a parameter of the transfer
- `spi_setup` takes effect at once; calls while messages are processed are listed with the transfer
  before which they are made
- `starts` records what the registers held when a transfer of the current message was started
-/

namespace NucKernel.Spi

open NucKernel.Library

/-! ## Speeds -/

/-- A speed for a controller with this clock -/
structure Speed (clk : ℕ) where
  hz : ℕ
  pos : 0 < hz
  fits : clk + hz * 2 < 2 ^ 32

def divRoundUp (n d : ℕ) : ℕ := (n + d - 1) / d

def dividerFor {clk : ℕ} (v : Speed clk) : ℕ := (divRoundUp clk (v.hz * 2) + (2 ^ 32 - 1)) % 2 ^ 32

theorem divRoundUp_le_iff {n d q : ℕ} (hd : 0 < d) : divRoundUp n d ≤ q ↔ n ≤ d * q := by
  rw [divRoundUp, ← Nat.lt_succ_iff, Nat.div_lt_iff_lt_mul hd, Nat.succ_mul, Nat.mul_comm]
  omega

theorem dividerFor_succ {clk : ℕ} (hclk : 0 < clk) (v : Speed clk) :
    dividerFor v + 1 = divRoundUp clk (v.hz * 2) := by
  have hfits := v.fits
  have hpos : 0 < v.hz * 2 := Nat.mul_pos v.pos (by decide)
  have hone : 1 ≤ divRoundUp clk (v.hz * 2) := by
    -- a quotient of 0 would need a clock of 0
    by_contra hlt
    have hzero : divRoundUp clk (v.hz * 2) ≤ 0 := by omega
    have := (divRoundUp_le_iff hpos).mp hzero
    omega
  have hle : divRoundUp clk (v.hz * 2) ≤ clk :=
    (divRoundUp_le_iff hpos).mpr (Nat.le_mul_of_pos_left clk hpos)
  rw [dividerFor]
  omega

/-- With the divider for `v₀` the clock is not faster than `v` if and only if `v` does not need a
    larger divider. -/
theorem slow_iff {clk : ℕ} (v v₀ : Speed clk) :
    clk ≤ v.hz * 2 * (dividerFor v₀ + 1) ↔ dividerFor v ≤ dividerFor v₀ := by
  obtain rfl | hclk := Nat.eq_zero_or_pos clk
  · -- without a clock all dividers are the same
    have hzero : ∀ v : Speed 0, dividerFor v = 2 ^ 32 - 1 := by
      intro v
      have hquot : divRoundUp 0 (v.hz * 2) = 0 := by
        have := v.pos
        exact Nat.div_eq_of_lt (by omega)
      calc
        dividerFor v = (0 + (2 ^ 32 - 1)) % 2 ^ 32 := by rw [dividerFor, hquot]
        _ = 2 ^ 32 - 1 := by decide
    rw [hzero v, hzero v₀]
    exact iff_of_true (Nat.zero_le _) (Nat.le_refl _)
  · rw [← divRoundUp_le_iff (Nat.mul_pos v.pos (by decide)), ← dividerFor_succ hclk v]
    omega

/-! ## The controller -/

inductive Slave
  | slave0 | slave1
  deriving DecidableEq, Repr

def Slave.other : Slave → Slave
  | slave0 => slave1
  | slave1 => slave0

/-- `struct spi_device`: its chip select, SPI_CS_HIGH and its speed -/
structure SpiDevice (clk : ℕ) where
  chipSelect : Slave
  csHigh : Bool
  maxSpeed : Speed clk

structure TxStart (clk : ℕ) where
  slave : Slave
  csHigh : Bool
  speed : Speed clk
  selected : Bool
  otherSelected : Bool
  lev : Bool
  regDivider : ℕ

/-- REG_SSR (SELECTSLAVE0, SELECTSLAVE1 and SELECTLEV), REG_DIVIDER, and the fields `hz` and
    `divider` of the platform data -/
structure Controller (clk : ℕ) where
  sel : Slave → Bool
  lev : Bool
  regDivider : ℕ
  hz : ℕ
  divider : ℕ
  busy : Bool
  starts : List (TxStart clk)

namespace Controller

variable {clk : ℕ}

/-- `nuc970_slave_select` -/
def slaveSelect (c : Controller clk) (spi : SpiDevice clk) (ssr : Bool) : Controller clk :=
  { c with lev := spi.csHigh, sel := fun x => if x = spi.chipSelect then ssr else c.sel x }

/-- `nuc970_spi0_update_state` -/
def updateState (c : Controller clk) (v : Speed clk) : Controller clk :=
  if c.hz ≠ v.hz then { c with hz := v.hz, divider := dividerFor v } else c

/-- `nuc970_set_divider` -/
def setDivider (c : Controller clk) : Controller clk := { c with regDivider := c.divider }

/-- `nuc970_spi0_setup` -/
def setup (c : Controller clk) (spi : SpiDevice clk) : Controller clk :=
  let c := c.updateState spi.maxSpeed
  if c.busy then c else c.setDivider.slaveSelect spi false

end Controller

/-! ## The queue runner -/

/-- `struct spi_transfer`, with what `txrx_bufs` returns for it and the devices that are set up
    before it, while `bitbang_work` is busy -/
structure Transfer (clk : ℕ) where
  speed : Speed clk
  len : ℕ
  hasBuf : Bool
  csChange : Bool
  result : ℤ
  setups : List (SpiDevice clk)

structure Message (clk : ℕ) where
  spi : SpiDevice clk
  transfers : List (Transfer clk)

namespace Transfer

variable {clk : ℕ}

def refused (t : Transfer clk) : Bool := !t.hasBuf && t.len ≠ 0

/-- The status is compared with the length, as an unsigned number. -/
def succeeds (t : Transfer clk) : Bool := (if t.len ≠ 0 then t.result else 0) % 2 ^ 32 = t.len

end Transfer

section Work

variable {clk : ℕ} (spi : SpiDevice clk)

def Controller.txrx (c : Controller clk) (t : Transfer clk) : Controller clk :=
  { c with
    starts := c.starts ++ [⟨spi.chipSelect, spi.csHigh, t.speed, c.sel spi.chipSelect,
      c.sel spi.chipSelect.other, c.lev, c.regDivider⟩] }

/-- The part of a round before the data is moved. As no speed is 0, `setup_transfer` is called for
    each transfer. -/
def Controller.prepare (c : Controller clk) (t : Transfer clk) (csChange : Bool) :
    Controller clk :=
  let c := (t.setups.foldl Controller.setup c).updateState t.speed
  if csChange then c.slaveSelect spi true else c

/-- The loop over the transfers of a message. It ends with whether the status is 0, and with
    `cs_change`. -/
def runTransfers : List (Transfer clk) → Bool → Controller clk → Controller clk × Bool × Bool
  | [], csChange, c => (c, true, csChange)
  | t :: ts, csChange, c =>
    let c := c.prepare spi t csChange
    if t.refused then (c, false, t.csChange)
    else
      let c := if t.len ≠ 0 then c.txrx spi t else c
      if t.succeeds then
        runTransfers ts t.csChange
          (if t.csChange ∧ ts ≠ [] then c.slaveSelect spi false else c)
      else (c, false, t.csChange)

def Controller.clearStarts (c : Controller clk) : Controller clk := { c with starts := [] }

def Controller.setBusy (c : Controller clk) (busy : Bool) : Controller clk :=
  { c with busy := busy }

def Controller.finish (r : Controller clk × Bool × Bool) : Controller clk :=
  if r.2.1 && r.2.2 then r.1 else r.1.slaveSelect spi false

/-- `bitbang_work` for one message -/
def bitbangWork (c : Controller clk) (m : Message clk) : Controller clk :=
  (Controller.finish m.spi
    (runTransfers m.spi m.transfers true (c.clearStarts.setBusy true))).setBusy false

end Work

/-! ## What the speed has to do with the registers -/

section Frame

variable {clk : ℕ} {c : Controller clk}

def Paired (c : Controller clk) : Prop := ∀ v : Speed clk, v.hz = c.hz → c.divider = dividerFor v

def Controller.line (c : Controller clk) : (Slave → Bool) × Bool × ℕ × Bool × List (TxStart clk) :=
  (c.sel, c.lev, c.regDivider, c.busy, c.starts)

theorem dividerFor_congr {v v' : Speed clk} (h : v.hz = v'.hz) : dividerFor v = dividerFor v' := by
  rw [dividerFor, dividerFor, h]

theorem updateState_line (v : Speed clk) : (c.updateState v).line = c.line := by
  rw [Controller.updateState]
  split <;> rfl

theorem updateState_divider (h : Paired c) (v : Speed clk) :
    Paired (c.updateState v) ∧ (c.updateState v).divider = dividerFor v := by
  rw [Controller.updateState]
  split
  · exact ⟨fun v' hv' => dividerFor_congr hv'.symm, rfl⟩
  · rename_i hhz
    exact ⟨h, h v (not_not.mp hhz).symm⟩

theorem setup_busy (hbusy : c.busy = true) (spi : SpiDevice clk) :
    c.setup spi = c.updateState spi.maxSpeed := by
  have hkept : (c.updateState spi.maxSpeed).busy = true :=
    (congrArg (fun l => l.2.2.2.1) (updateState_line (c := c) spi.maxSpeed)).trans hbusy
  rw [Controller.setup, if_pos hkept]

theorem setups_line (hbusy : c.busy = true) (h : Paired c) (spis : List (SpiDevice clk)) :
    (spis.foldl Controller.setup c).line = c.line ∧ Paired (spis.foldl Controller.setup c) := by
  induction spis generalizing c with
  | nil => exact ⟨rfl, h⟩
  | cons spi spis ih =>
    have hline := updateState_line (c := c) spi.maxSpeed
    have hkept := (congrArg (fun l => l.2.2.2.1) hline).trans hbusy
    rw [List.foldl_cons, setup_busy hbusy]
    obtain ⟨hrest, hpaired⟩ := ih hkept (updateState_divider h spi.maxSpeed).1
    exact ⟨hrest.trans hline, hpaired⟩

end Frame

/-! ## One message -/

section Message

variable {clk : ℕ} {spi : SpiDevice clk} {c : Controller clk}

/-- The transfers for which `txrx_bufs` is called: a transfer that fails is the last one. -/
def started : List (Transfer clk) → List (Transfer clk)
  | [] => []
  | t :: ts =>
    if t.refused then []
    else (if t.len ≠ 0 then [t] else []) ++ (if t.succeeds then started ts else [])

/-- All transfers succeed, and the last one has the hint to leave the chip selected. -/
def endsHinted : Bool → List (Transfer clk) → Bool
  | csChange, [] => csChange
  | _, t :: ts => !t.refused && t.succeeds && endsHinted t.csChange ts

def Selected (spi : SpiDevice clk) (c : Controller clk) : Prop :=
  c.sel spi.chipSelect = true ∧ c.lev = spi.csHigh

def startOf (spi : SpiDevice clk) (c : Controller clk) (t : Transfer clk) : TxStart clk :=
  ⟨spi.chipSelect, spi.csHigh, t.speed, true, c.sel spi.chipSelect.other, spi.csHigh, c.regDivider⟩

theorem Slave.other_ne (x : Slave) : x.other ≠ x := by cases x <;> decide

structure Kept (spi : SpiDevice clk) (c c' : Controller clk) : Prop where
  other : c'.sel spi.chipSelect.other = c.sel spi.chipSelect.other
  regDivider : c'.regDivider = c.regDivider
  busy : c'.busy = c.busy

theorem Kept.trans {c₁ c₂ c₃ : Controller clk} (h : Kept spi c₁ c₂) (h' : Kept spi c₂ c₃) :
    Kept spi c₁ c₃ :=
  ⟨h'.other.trans h.other, h'.regDivider.trans h.regDivider, h'.busy.trans h.busy⟩

theorem kept_slaveSelect (ssr : Bool) : Kept spi c (c.slaveSelect spi ssr) :=
  ⟨if_neg (Slave.other_ne _), rfl, rfl⟩

theorem selected_slaveSelect : Selected spi (c.slaveSelect spi true) := ⟨if_pos rfl, rfl⟩

theorem startOf_congr {c' : Controller clk} (h : Kept spi c c') (t : Transfer clk) :
    startOf spi c' t = startOf spi c t := by
  rw [startOf, startOf, h.other, h.regDivider]

theorem prepare_spec (hbusy : c.busy = true) (hpaired : Paired c) {csChange : Bool}
    (hpre : csChange = true ∨ Selected spi c) (t : Transfer clk) :
    Kept spi c (c.prepare spi t csChange) ∧ Selected spi (c.prepare spi t csChange) ∧
      Paired (c.prepare spi t csChange) ∧ (c.prepare spi t csChange).starts = c.starts := by
  obtain ⟨hsetups, hpaired'⟩ := setups_line hbusy hpaired t.setups
  -- nothing but the noted speed is changed before the chip is selected
  have hline := (updateState_line t.speed).trans hsetups
  have hnoted := (updateState_divider hpaired' t.speed).1
  have hsel := congrArg (fun l => l.1) hline
  have hlev := congrArg (fun l => l.2.1) hline
  have hdiv := congrArg (fun l => l.2.2.1) hline
  have hbusy' := congrArg (fun l => l.2.2.2.1) hline
  have hstarts := congrArg (fun l => l.2.2.2.2) hline
  simp only [Controller.line] at hsel hlev hdiv hbusy' hstarts
  have hkept : Kept spi c ((t.setups.foldl Controller.setup c).updateState t.speed) :=
    ⟨congrFun hsel _, hdiv, hbusy'⟩
  rw [Controller.prepare]
  cases csChange with
  | true => exact ⟨hkept.trans (kept_slaveSelect true), selected_slaveSelect, hnoted, hstarts⟩
  | false =>
    -- the chip is selected from the transfer before
    obtain ⟨hs, hl⟩ := hpre.resolve_left (by decide)
    exact ⟨hkept, ⟨(congrFun hsel _).trans hs, hlev.trans hl⟩, hnoted, hstarts⟩

theorem txrx_eq (h : Selected spi c) (t : Transfer clk) :
    c.txrx spi t = { c with starts := c.starts ++ [startOf spi c t] } := by
  rw [Controller.txrx, startOf, h.1, h.2]

theorem txrx_spec (h : Selected spi c) (hpaired : Paired c) (t : Transfer clk) :
    let c' := if t.len ≠ 0 then c.txrx spi t else c
    Kept spi c c' ∧ Selected spi c' ∧ Paired c' ∧
      c'.starts = c.starts ++ (if t.len ≠ 0 then [t] else []).map (startOf spi c) := by
  intro c'
  by_cases hlen : t.len ≠ 0
  · -- the registers are recorded
    have hc' : c' = { c with starts := c.starts ++ [startOf spi c t] } :=
      (if_pos hlen).trans (txrx_eq h t)
    rw [hc', if_pos hlen]
    exact ⟨⟨rfl, rfl, rfl⟩, h, hpaired, rfl⟩
  · have hc' : c' = c := if_neg hlen
    rw [hc', if_neg hlen]
    exact ⟨⟨rfl, rfl, rfl⟩, h, hpaired, (List.append_nil _).symm⟩

structure Ran (spi : SpiDevice clk) (ts : List (Transfer clk)) (csChange : Bool)
    (c : Controller clk) (r : Controller clk × Bool × Bool) : Prop where
  kept : Kept spi c r.1
  paired : Paired r.1
  starts : r.1.starts = c.starts ++ (started ts).map (startOf spi c)
  hint : (r.2.1 && r.2.2) = endsHinted csChange ts
  selected : (r.2.1 && r.2.2) = true → r.1.sel spi.chipSelect = true

theorem runTransfers_spec {ts : List (Transfer clk)} {csChange : Bool} (hbusy : c.busy = true)
    (hpaired : Paired c) (hpre : (ts ≠ [] ∧ csChange = true) ∨ Selected spi c) :
    Ran spi ts csChange c (runTransfers spi ts csChange c) := by
  induction ts generalizing csChange c with
  | nil =>
    have hsel := hpre.resolve_left fun h => h.1 rfl
    -- nothing is done
    exact ⟨⟨rfl, rfl, rfl⟩, hpaired, (List.append_nil _).symm, Bool.true_and _, fun _ => hsel.1⟩
  | cons t ts ih =>
    obtain ⟨hkept₁, hsel₁, hpaired₁, hstarts₁⟩ :=
      prepare_spec hbusy hpaired (hpre.imp_left And.right) t
    rw [runTransfers]
    generalize c.prepare spi t csChange = c₁ at *
    cases hrefused : t.refused with
    | true =>
      -- the transfer is refused, and the message ends
      refine ⟨hkept₁, hpaired₁, ?_, ?_, ?_⟩
      · simp [started, hrefused, hstarts₁]
      · simp [endsHinted, hrefused]
      · simp
    | false =>
      obtain ⟨hkept₂, hsel₂, hpaired₂, hstarts₂⟩ := txrx_spec hsel₁ hpaired₁ t
      generalize (if t.len ≠ 0 then c₁.txrx spi t else c₁) = c₂ at *
      have hkept := hkept₁.trans hkept₂
      have hstarts : c₂.starts =
          c.starts ++ (if t.len ≠ 0 then [t] else []).map (startOf spi c) := by
        rw [hstarts₂, hstarts₁]
        refine congrArg (c.starts ++ ·) (List.map_congr_left fun x _ => ?_)
        exact startOf_congr hkept₁ x
      cases hok : t.succeeds with
      | false =>
        -- the transfer fails, and the message ends
        refine ⟨hkept, hpaired₂, ?_, ?_, ?_⟩
        · simp [started, hrefused, hok, hstarts]
        · simp [endsHinted, hrefused, hok]
        · simp
      | true =>
        -- the chip is deselected if a transfer follows that selects it again
        have hnext : ∃ c₃, (if t.csChange ∧ ts ≠ [] then c₂.slaveSelect spi false else c₂) = c₃ ∧
            Kept spi c₂ c₃ ∧ Paired c₃ ∧ c₃.starts = c₂.starts ∧
            ((ts ≠ [] ∧ t.csChange = true) ∨ Selected spi c₃) := by
          by_cases hcs : t.csChange ∧ ts ≠ []
          · exact ⟨_, if_pos hcs, kept_slaveSelect false, hpaired₂, rfl, Or.inl ⟨hcs.2, hcs.1⟩⟩
          · exact ⟨_, if_neg hcs, ⟨rfl, rfl, rfl⟩, hpaired₂, rfl, Or.inr hsel₂⟩
        obtain ⟨c₃, heq, hkept₃, hpaired₃, hstarts₃, hpre₃⟩ := hnext
        -- the rest runs from here
        have hrest := ih ((hkept.trans hkept₃).busy.trans hbusy) hpaired₃ hpre₃
        simp only [heq, Bool.false_eq_true, if_false, if_true]
        refine ⟨(hkept.trans hkept₃).trans hrest.kept, hrest.paired, ?_, ?_, hrest.selected⟩
        · rw [hrest.starts, hstarts₃, hstarts, started, hrefused, hok]
          simp only [Bool.false_eq_true, if_false, if_true, List.map_append, List.append_assoc]
          have hmap : (started ts).map (startOf spi c₃) = (started ts).map (startOf spi c) :=
            List.map_congr_left fun x _ => startOf_congr (hkept.trans hkept₃) x
          rw [hmap]
        · rw [hrest.hint, endsHinted, hrefused, hok]
          simp

end Message

/-! ## Sequences of messages -/

/-- The controller, with the chips that a message has left selected by its hint and the speed of the
    device that was set up last, as they follow from the messages and devices alone -/
structure Session (clk : ℕ) where
  ctl : Controller clk
  hinted : Slave → Bool
  setupSpeed : Speed clk

/-- A device is set up while the queue is empty, or a message is processed. -/
inductive Event (clk : ℕ)
  | setup (spi : SpiDevice clk)
  | message (m : Message clk)

namespace Session

variable {clk : ℕ}

def setup (s : Session clk) (spi : SpiDevice clk) : Session clk :=
  ⟨s.ctl.clearStarts.setup spi, fun x => if x = spi.chipSelect then false else s.hinted x,
    spi.maxSpeed⟩

def message (s : Session clk) (m : Message clk) : Session clk :=
  ⟨bitbangWork s.ctl m,
    fun x => if m.transfers ≠ [] ∧ x = m.spi.chipSelect then endsHinted true m.transfers
      else s.hinted x,
    s.setupSpeed⟩

end Session

def busStep {clk : ℕ} (s : Session clk) : Event clk → Option (Session clk)
  | .setup spi => some (s.setup spi)
  | .message m => some (s.message m)

/-- The controller after `nuc970_init_spi` -/
def initSpi (clk : ℕ) : Controller clk := ⟨fun _ => false, false, 4, 0, 4, false, []⟩

/-- Both devices have been added, the one at slave 1 last. -/
def registered {clk : ℕ} (spi₀ spi₁ : SpiDevice clk) : Session clk :=
  (Session.setup ⟨initSpi clk, fun _ => false, spi₀.maxSpeed⟩ spi₀).setup spi₁

/-- The chip of the transfer is selected, the other one is not, and the clock is not faster than the
    speed of the transfer. -/
structure TxStart.Right {clk : ℕ} (x : TxStart clk) : Prop where
  selected : x.selected = true
  level : x.lev = x.csHigh
  alone : x.otherSelected = false
  slow : clk ≤ x.speed.hz * 2 * (x.regDivider + 1)

instance {clk : ℕ} (x : TxStart clk) : Decidable x.Right :=
  decidable_of_iff
    (x.selected = true ∧ x.lev = x.csHigh ∧ x.otherSelected = false ∧
      clk ≤ x.speed.hz * 2 * (x.regDivider + 1))
    ⟨fun h => ⟨h.1, h.2.1, h.2.2.1, h.2.2.2⟩, fun h => ⟨h.selected, h.level, h.alone, h.slow⟩⟩

/-- All calls of `txrx_bufs` that an event leads to find the bus as they should. -/
def BusRight {clk : ℕ} (_ : Session clk) (_ : Event clk) (s' : Session clk) : Prop :=
  ∀ x ∈ s'.ctl.starts, x.Right

instance {clk : ℕ} (s : Session clk) (e : Event clk) (s' : Session clk) :
    Decidable (BusRight s e s') :=
  inferInstanceAs (Decidable (∀ x ∈ s'.ctl.starts, x.Right))

/-- A message with data comes only while the other chip has not been left selected by a hint, and
    only with speeds that need no larger divider than the device that was set up last. -/
def BusFree {clk : ℕ} (s : Session clk) (e : Event clk) (_ : Session clk) : Prop :=
  match e with
  | .setup _ => True
  | .message m => ∀ t ∈ started m.transfers,
      s.hinted m.spi.chipSelect.other = false ∧ dividerFor t.speed ≤ dividerFor s.setupSpeed

structure InStep {clk : ℕ} (s : Session clk) : Prop where
  sel : ∀ x, s.ctl.sel x = s.hinted x
  regDivider : s.ctl.regDivider = dividerFor s.setupSpeed
  paired : Paired s.ctl
  busy : s.ctl.busy = false

section Sessions

variable {clk : ℕ} {s : Session clk}

theorem setup_idle {c : Controller clk} (hbusy : c.busy = false) (spi : SpiDevice clk) :
    c.setup spi = (c.updateState spi.maxSpeed).setDivider.slaveSelect spi false := by
  have hkept : (c.updateState spi.maxSpeed).busy = false :=
    (congrArg (fun l => l.2.2.2.1) (updateState_line (c := c) spi.maxSpeed)).trans hbusy
  rw [Controller.setup, if_neg (by rw [hkept]; decide)]

theorem inStep_setup (hin : ∀ x, s.ctl.sel x = s.hinted x) (hp : Paired s.ctl)
    (hbusy : s.ctl.busy = false) (spi : SpiDevice clk) :
    InStep (s.setup spi) ∧ (s.setup spi).ctl.starts = [] := by
  have hline := updateState_line (c := s.ctl.clearStarts) spi.maxSpeed
  obtain ⟨hpaired, hdiv⟩ := updateState_divider (c := s.ctl.clearStarts) hp spi.maxSpeed
  have hctl : (s.setup spi).ctl =
      (s.ctl.clearStarts.updateState spi.maxSpeed).setDivider.slaveSelect spi false :=
    setup_idle (c := s.ctl.clearStarts) hbusy spi
  -- the bits of the slaves, the divider, and the rest
  refine ⟨⟨fun x => ?_, ?_, ?_, ?_⟩, ?_⟩
  · have hsel := congrFun (congrArg (fun l => l.1) hline) x
    rw [hctl]
    change (if x = spi.chipSelect then false
      else (s.ctl.clearStarts.updateState spi.maxSpeed).sel x) =
        if x = spi.chipSelect then false else s.hinted x
    rw [show (s.ctl.clearStarts.updateState spi.maxSpeed).sel x = s.hinted x from
      hsel.trans (hin x)]
  · rw [hctl]
    exact hdiv
  · rw [hctl]
    exact hpaired
  · rw [hctl]
    exact (congrArg (fun l => l.2.2.2.1) hline).trans hbusy
  · rw [hctl]
    exact congrArg (fun l => l.2.2.2.2) hline

theorem Slave.eq_other {x y : Slave} (h : x ≠ y) : x = y.other := by
  revert h
  cases x <;> cases y <;> decide

theorem finish_spec {spi : SpiDevice clk} {ts : List (Transfer clk)} {csChange : Bool}
    {c : Controller clk} {r : Controller clk × Bool × Bool} (h : Ran spi ts csChange c r) :
    Kept spi c (Controller.finish spi r) ∧ Paired (Controller.finish spi r) ∧
      (Controller.finish spi r).starts = r.1.starts ∧
      (Controller.finish spi r).sel spi.chipSelect = endsHinted csChange ts := by
  rw [Controller.finish, ← h.hint]
  cases hend : r.2.1 && r.2.2 with
  | true => exact ⟨h.kept, h.paired, rfl, h.selected hend⟩
  | false => exact ⟨h.kept.trans (kept_slaveSelect false), h.paired, rfl, if_pos rfl⟩

theorem message_spec (h : InStep s) (m : Message clk) :
    InStep (s.message m) ∧
      (s.message m).ctl.starts = (started m.transfers).map (startOf m.spi s.ctl) := by
  obtain ⟨spi, ts⟩ := m
  by_cases hts : ts = []
  · subst hts
    -- a message without transfers changes nothing
    refine ⟨⟨fun x => (h.sel x).trans ?_, h.regDivider, h.paired, rfl⟩, rfl⟩
    simp [Session.message]
  · have hran : Ran spi ts true (s.ctl.clearStarts.setBusy true) _ :=
      runTransfers_spec rfl h.paired (Or.inl ⟨hts, rfl⟩)
    obtain ⟨hkept, hpaired, hstarts, hsel⟩ := finish_spec hran
    refine ⟨⟨fun x => ?_, hkept.regDivider.trans h.regDivider, hpaired, rfl⟩,
      hstarts.trans hran.starts⟩
    by_cases hx : x = spi.chipSelect
    · -- the chip of the message follows its hint
      subst hx
      exact hsel.trans (if_pos ⟨hts, rfl⟩).symm
    · refine Eq.trans ?_ (if_neg fun hx' => hx hx'.2).symm
      rw [Slave.eq_other hx]
      exact hkept.other.trans (h.sel _)

theorem busRight_iff (h : InStep s) {e : Event clk} {s' : Session clk}
    (hstep : busStep s e = some s') : InStep s' ∧ (BusRight s e s' ↔ BusFree s e s') := by
  cases e with
  | setup spi =>
    obtain rfl := Option.some.inj hstep
    obtain ⟨hin, hstarts⟩ := inStep_setup h.sel h.paired h.busy spi
    refine ⟨hin, iff_of_true ?_ trivial⟩
    -- no transfer is started
    intro x hx
    rw [hstarts] at hx
    cases hx
  | message m =>
    obtain rfl := Option.some.inj hstep
    obtain ⟨hin, hstarts⟩ := message_spec h m
    refine ⟨hin, ?_⟩
    simp only [BusRight, BusFree, hstarts, List.forall_mem_map]
    refine forall₂_congr fun t _ => ?_
    -- what is asked of the history is asked of the registers
    rw [← h.sel, ← slow_iff, ← h.regDivider]
    exact ⟨fun hr => ⟨hr.alone, hr.slow⟩, fun hf => ⟨rfl, rfl, hf.1, hf.2⟩⟩

theorem inStep_registered (spi₀ spi₁ : SpiDevice clk) : InStep (registered spi₀ spi₁) := by
  -- no speed is 0, so the first device gets a divider of its own
  have hinit : Paired (initSpi clk) := fun v hv => absurd hv (Nat.ne_of_gt v.pos)
  obtain ⟨h₀, -⟩ := inStep_setup (s := ⟨initSpi clk, fun _ => false, spi₀.maxSpeed⟩) (fun _ => rfl)
    hinit rfl spi₀
  exact (inStep_setup h₀.sel h₀.paired h₀.busy spi₁).1

end Sessions

/-- In a run of set-ups and messages for two devices, every transfer finds its chip alone selected,
    and a clock that is not too fast, if and only if the bus is free for every message. -/
theorem disciplined_iff {clk : ℕ} (spi₀ spi₁ : SpiDevice clk) (events : List (Event clk)) :
    Along busStep BusRight (registered spi₀ spi₁) events ↔
      Along busStep BusFree (registered spi₀ spi₁) events :=
  along_iff (fun _ _ _ h hstep => (busRight_iff h hstep).2)
    (fun _ _ _ h hstep _ => (busRight_iff h hstep).1) (inStep_registered spi₀ spi₁)

def fastDevice (x : Slave) : SpiDevice 75000000 := ⟨x, false, ⟨25000000, by decide, by decide⟩⟩

def fastByte (csChange : Bool) : Transfer 75000000 :=
  ⟨⟨25000000, by decide, by decide⟩, 1, true, csChange, 1, []⟩

def slowByte : Transfer 75000000 := ⟨⟨1000000, by decide, by decide⟩, 1, true, false, 1, []⟩

/-- After a message that leaves slave 0 selected, a message for slave 1 is sent to both; and a byte
    at 1 MHz is sent with the clock for 25 MHz. -/
theorem sharedBus_undisciplined :
    ¬ Along busStep BusRight (registered (fastDevice .slave0) (fastDevice .slave1))
        [.message ⟨fastDevice .slave0, [fastByte true]⟩,
          .message ⟨fastDevice .slave1, [fastByte false]⟩] ∧
      ¬ Along busStep BusRight (registered (fastDevice .slave0) (fastDevice .slave1))
        [.message ⟨fastDevice .slave0, [slowByte]⟩] := by
  decide +kernel

end NucKernel.Spi
