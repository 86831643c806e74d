import Mathlib.Data.Int.Notation
import Mathlib.Data.List.Basic

/-!
# Remote input signals (`hnos_input_core.c`, `hnos_input_hntt1800x.c`)

An input device has a block of GPIO lines and a block of bus channels. One channel is read with
`rmi_read_channel`, all of them with `rmi_read_all`.
A line that cannot be read is shown as 1 by the read of all channels. The two reads can also part
when the blocks overlap, when the GPIO block has an offset, and when it is registered with another
size than it has.

## Modelling

- An item has the value that its `read_data` or its pin would give now. An array of items that is
  `NULL` is one whose items have neither.
- `wideShl` is what a shift by 32 or more gives (C does not say).
- The bus is that of `hnos_input_hntt1800x.c`, with the bytes at its two addresses; they do not
  change between the two reads. The device lock is left out.
-/

namespace NucKernel.CharDevices.RemoteInput

/-! ## The device -/

def efault : ℤ := 14

def eio : ℤ := 5

/-- `struct proc_item` -/
structure Item where
  readData : Option ℤ
  pin : Option ℤ

/-- `struct gpio_rmi_data`; `size` is a `u8`. -/
structure Gpio where
  items : List Item
  size_lt : items.length < 256

def Gpio.size (gpio : Gpio) : UInt8 := UInt8.ofNat gpio.items.length

/-- `struct smcbus_rmi_data`: whether `read` is set, and the bytes at `bases` -/
structure Smcbus where
  hasRead : Bool
  base0 : BitVec 8
  base1 : BitVec 8

/-- `struct hndl_rmi_device`. A bus block that ends at `INPUT_CHAN_MAX` or later is refused. -/
structure Rmi where
  gpio : Option Gpio
  gpioOffset : UInt8
  gpioEnd : UInt8
  smcbus : Option Smcbus
  smcbusOffset : UInt8
  smcbusEnd : UInt8
  smcbusEnd_lt : smcbusEnd < 32

/-- `rmi_device_alloc` -/
def deviceAlloc : Rmi := ⟨none, 0, 0, none, 0, 0, by decide⟩

/-- `rmi_gpio_register` -/
def gpioRegister (rmi : Rmi) (gpio : Gpio) (offset size : UInt8) : Rmi :=
  { rmi with gpio := some gpio, gpioOffset := offset, gpioEnd := size - 1 }

/-- `rmi_smcbus_register`; `none` is `-EFAULT`. -/
def smcbusRegister (rmi : Rmi) (bus : Smcbus) (offset size : UInt8) : Option Rmi :=
  let smcbusOff :=
    if offset = 0 then if rmi.gpio.isSome then rmi.gpioEnd + 1 else 0 else offset
  if h : smcbusOff + size - 1 < 32 then
    some { rmi with
      smcbus := some bus, smcbusOffset := smcbusOff, smcbusEnd := smcbusOff + size - 1,
      smcbusEnd_lt := h }
  else none

/-! ## Reading one channel -/

/-- `rmi_read_gpio_chan` for an item of the array -/
def Item.read (item : Item) : ℤ :=
  match item.readData with
  | some value => value
  | none =>
    match item.pin with
    | some value => value
    | none => -efault

/-- `rmi_read_gpio_chan` -/
def readGpioChan (gpio : Gpio) (ch : ℕ) : ℤ :=
  match gpio.items[ch]? with
  | some item => item.read
  | none => -efault

/-- `smcbus_read_channel`, from a channel of the block on; `none` is `-EFAULT`. -/
def smcbusReadChannel (bus : Smcbus) (smcbusOff ch : UInt8) : Option (BitVec 8) :=
  if smcbusOff.toNat + 2 * 8 ≤ ch.toNat then none
  else
    let smcbusCh := (ch - smcbusOff).toNat
    let data := if smcbusCh / 8 = 0 then bus.base0 else bus.base1
    some ((data &&& (1#8 <<< (smcbusCh % 8))) >>> (smcbusCh % 8))

/-- `rmi_read_smcbus_chan`. A channel that gets here is not `SMCBUS_CHAN_ALL`. -/
def readSmcbusChan (bus : Smcbus) (smcbusOff ch : UInt8) : ℤ :=
  if bus.hasRead then
    match smcbusReadChannel bus smcbusOff ch with
    | some data => data.toNat
    | none => -eio
  else -efault

/-- `rmi_is_gpio` -/
def isGpio (rmi : Rmi) (ch : UInt8) : Bool := rmi.gpioOffset ≤ ch && ch ≤ rmi.gpioEnd

/-- `rmi_is_smcbus` -/
def isSmcbus (rmi : Rmi) (ch : UInt8) : Bool := rmi.smcbusOffset ≤ ch && ch ≤ rmi.smcbusEnd

/-- The second branch of `rmi_read_channel` -/
def readBusChannel (rmi : Rmi) (ch : UInt8) : ℤ :=
  match rmi.smcbus with
  | some bus => if isSmcbus rmi ch then readSmcbusChan bus rmi.smcbusOffset ch else -efault
  | none => -efault

/-- `rmi_read_channel` -/
def readChannel (rmi : Rmi) (ch : UInt8) : ℤ :=
  if 32 < ch then -efault
  else
    match rmi.gpio with
    | some gpio => if isGpio rmi ch then readGpioChan gpio ch.toNat else readBusChannel rmi ch
    | none => readBusChannel rmi ch

/-! ## Reading all channels -/

variable (wideShl : BitVec 32 → ℕ → BitVec 32)

/-- `x << n` -/
def shl (x : BitVec 32) (n : ℕ) : BitVec 32 := if n < 32 then x <<< n else wideShl x n

/-- `rmi_gpio_read_all` after a number of rounds of its loop -/
def gpioReadAll (gpio : Gpio) : ℕ → BitVec 32
  | 0 => 0
  | i + 1 => gpioReadAll gpio i ||| shl wideShl (if readGpioChan gpio i ≠ 0 then 1 else 0) i

def smcbusReadAll (bus : Smcbus) : BitVec 32 :=
  bus.base1.setWidth 32 <<< 8 ||| bus.base0.setWidth 32

/-- The GPIO lines in a read of all channels -/
def gpioBits (rmi : Rmi) : BitVec 32 :=
  match rmi.gpio with
  | some gpio => gpioReadAll wideShl gpio gpio.size.toNat
  | none => 0

/-- `rmi_read_all`; `none` is `-EFAULT`. -/
def readAll (rmi : Rmi) : Option (BitVec 32) :=
  match rmi.smcbus with
  | some bus =>
    if bus.hasRead then
      some (shl wideShl (smcbusReadAll bus) rmi.smcbusOffset.toNat ||| gpioBits wideShl rmi)
    else none
  | none => some (shl wideShl 0 rmi.smcbusOffset.toNat ||| gpioBits wideShl rmi)

/-! ## Agreement -/

/-- What a line gives, if it can be read -/
def Item.level (item : Item) : Option ℤ := item.readData.or item.pin

/-- The GPIO line that a read of all channels puts into bit `ch` -/
def lineAt (rmi : Rmi) (ch : UInt8) : Option Item :=
  rmi.gpio.bind fun gpio => gpio.items[ch.toNat]?

/-- Line `j` of the bus -/
def Smcbus.line (bus : Smcbus) (j : ℕ) : Bool :=
  if j < 8 then bus.base0.getLsbD j else bus.base1.getLsbD (j - 8)

/-- A GPIO line is shown as 1 in bit `ch`: it is not at 0, or it cannot be read. -/
def LineShown (rmi : Rmi) (ch : UInt8) : Prop := ∃ item ∈ lineAt rmi ch, item.level ≠ some 0

/-- A bus line is shown as 1 in bit `ch`. -/
def BusShown (rmi : Rmi) (ch : UInt8) : Prop :=
  ch < 32 ∧ ∃ bus ∈ rmi.smcbus, rmi.smcbusOffset ≤ ch ∧
    bus.line (ch.toNat - rmi.smcbusOffset.toNat) = true

/-- Channel `ch` can be read: it is a GPIO line with a level, or a line of the bus block. -/
def Readable (rmi : Rmi) (ch : UInt8) : Prop :=
  (∃ item ∈ lineAt rmi ch, ∃ level ∈ item.level, 0 ≤ level) ∨
    ∃ bus ∈ rmi.smcbus, bus.hasRead = true ∧ isSmcbus rmi ch = true ∧
      ch.toNat < rmi.smcbusOffset.toNat + 16

/-- The shifts of a read of all channels are by less than 32. -/
def Defined (rmi : Rmi) : Prop :=
  rmi.smcbusOffset < 32 ∧ ∀ gpio ∈ rmi.gpio, gpio.items.length ≤ 32

/-- The reads are defined and agree on channel `ch`, and an error is returned for one that cannot be
    read. -/
structure Consistent (rmi : Rmi) (ch : UInt8) : Prop where
  shifts : Defined rmi
  level : ∃ all, readAll wideShl rmi = some all ∧
    (0 < readChannel rmi ch ↔ all.getLsbD ch.toNat = true)
  error : ¬ Readable rmi ch → readChannel rmi ch < 0

/-- What the blocks may hold at channel `ch` -/
def Agrees (rmi : Rmi) (ch : UInt8) : Prop :=
  if rmi.gpio.isSome ∧ isGpio rmi ch then
    -- a line there has a level, and no bus line at 1 is shown unless the line is at 1 as well
    (∀ item ∈ lineAt rmi ch, ∃ level ∈ item.level, 0 ≤ level) ∧
      (BusShown rmi ch → LineShown rmi ch)
  else if rmi.smcbus.isSome ∧ isSmcbus rmi ch then
    LineShown rmi ch → BusShown rmi ch
  else
    ¬ LineShown rmi ch ∧ ¬ BusShown rmi ch

/-! ## The bits of a read -/

theorem toNat_size (gpio : Gpio) : gpio.size.toNat = gpio.items.length := by
  rw [Gpio.size, UInt8.toNat_ofNat']
  exact Nat.mod_eq_of_lt gpio.size_lt

theorem shl_getLsbD {x : BitVec 32} {n i : ℕ} (hn : n < 32) :
    (shl wideShl x n).getLsbD i = (decide (i < 32) && !decide (i < n) && x.getLsbD (i - n)) := by
  rw [shl, if_pos hn, BitVec.getLsbD_shiftLeft]

theorem gpioReadAll_getLsbD (gpio : Gpio) {n : ℕ} (hn : n ≤ 32) (i : ℕ) :
    (gpioReadAll wideShl gpio n).getLsbD i = true ↔ i < n ∧ readGpioChan gpio i ≠ 0 := by
  induction n with
  | zero => simp [gpioReadAll]
  | succ n ih =>
    rw [gpioReadAll, BitVec.getLsbD_or, shl_getLsbD wideShl (by omega), Bool.or_eq_true,
      ih (by omega)]
    -- bit `n` is the only one that this round can set
    have hbit : (if readGpioChan gpio n ≠ 0 then (1 : BitVec 32) else 0).getLsbD (i - n) = true ↔
        readGpioChan gpio n ≠ 0 ∧ i - n = 0 := by
      split_ifs with h <;> simp [h, BitVec.getLsbD_one]
    simp only [Bool.and_eq_true, hbit, decide_eq_true_eq, Bool.not_eq_true',
      decide_eq_false_iff_not]
    constructor
    · rintro (⟨hi, hread⟩ | ⟨⟨_, hi⟩, hread, hzero⟩)
      · exact ⟨by omega, hread⟩
      · obtain rfl : i = n := by omega
        exact ⟨by omega, hread⟩
    · rintro ⟨hi, hread⟩
      rcases Nat.lt_succ_iff_lt_or_eq.mp hi with hlt | rfl
      · exact .inl ⟨hlt, hread⟩
      · exact .inr ⟨⟨by omega, by omega⟩, hread, Nat.sub_self i⟩

theorem toNat_mask (data : BitVec 8) (shift : Fin 8) :
    0 < ((data &&& (1#8 <<< shift.val)) >>> shift.val).toNat ↔ data.getLsbD shift.val = true := by
  revert data shift
  decide +kernel

theorem smcbusReadAll_getLsbD (bus : Smcbus) (j : ℕ) :
    (smcbusReadAll bus).getLsbD j = bus.line j := by
  rw [smcbusReadAll, BitVec.getLsbD_or, BitVec.getLsbD_shiftLeft, BitVec.getLsbD_setWidth,
    BitVec.getLsbD_setWidth, Smcbus.line]
  by_cases hlow : j < 8
  · simp [hlow, show j < 32 by omega]
  · rw [BitVec.getLsbD_of_ge bus.base0 j (by omega)]
    by_cases hwide : j < 16
    · simp [hlow, show j < 32 by omega, show j - 8 < 32 by omega]
    · simp [hlow, BitVec.getLsbD_of_ge bus.base1 (j - 8) (by omega)]

theorem line_eq_byte (bus : Smcbus) {j : ℕ} (hj : j < 16) :
    bus.line j = (if j / 8 = 0 then bus.base0 else bus.base1).getLsbD (j % 8) := by
  rw [Smcbus.line]
  by_cases hlow : j < 8
  · rw [if_pos hlow, if_pos (Nat.div_eq_of_lt hlow), Nat.mod_eq_of_lt hlow]
  · rw [if_neg hlow, if_neg (by omega), show j % 8 = j - 8 by omega]

theorem readGpioChan_eq (gpio : Gpio) (i : ℕ) :
    readGpioChan gpio i = (gpio.items[i]?.bind Item.level).getD (-efault) := by
  rw [readGpioChan]
  cases gpio.items[i]? with
  | none => rfl
  | some item =>
    simp only [Item.read, Item.level, Option.bind_some]
    cases item.readData <;> cases item.pin <;> rfl

theorem readGpioChan_ne_zero_iff {rmi : Rmi} {gpio : Gpio} (hg : rmi.gpio = some gpio)
    (ch : UInt8) :
    ch.toNat < gpio.items.length ∧ readGpioChan gpio ch.toNat ≠ 0 ↔ LineShown rmi ch := by
  rw [LineShown, lineAt, hg, Option.bind_some, readGpioChan_eq]
  cases hitem : gpio.items[ch.toNat]? with
  | none => simp [Nat.not_lt.mpr (List.getElem?_eq_none_iff.mp hitem)]
  | some item =>
    have hlt := (List.getElem?_eq_some_iff.mp hitem).1
    cases hlevel : item.level <;> simp [hlt, hlevel, efault]

theorem readAll_getLsbD {rmi : Rmi} (h : Defined rmi)
    (hread : ∀ bus ∈ rmi.smcbus, bus.hasRead = true) : ∃ all, readAll wideShl rmi = some all ∧
    ∀ ch : UInt8, all.getLsbD ch.toNat = true ↔ BusShown rmi ch ∨ LineShown rmi ch := by
  obtain ⟨hoff, hsize⟩ := h
  have hgpio : ∀ ch : UInt8, (gpioBits wideShl rmi).getLsbD ch.toNat = true ↔ LineShown rmi ch := by
    intro ch
    rw [gpioBits]
    cases hg : rmi.gpio with
    | none => simp [LineShown, lineAt, hg]
    | some gpio =>
      have hle := hsize gpio hg
      rw [← readGpioChan_ne_zero_iff hg ch, ← toNat_size gpio]
      exact gpioReadAll_getLsbD wideShl gpio (by rw [toNat_size]; exact hle) _
  rw [readAll]
  -- without a bus block only the GPIO lines are shown
  cases hb : rmi.smcbus with
  | none =>
    refine ⟨_, rfl, fun ch => ?_⟩
    rw [BitVec.getLsbD_or, shl_getLsbD wideShl (UInt8.lt_iff_toNat_lt.mp hoff), Bool.or_eq_true,
      hgpio]
    simp [BusShown, hb]
  | some bus =>
    simp only [if_pos (hread bus hb)]
    refine ⟨_, rfl, fun ch => ?_⟩
    rw [BitVec.getLsbD_or, shl_getLsbD wideShl (UInt8.lt_iff_toNat_lt.mp hoff), Bool.or_eq_true,
      hgpio, smcbusReadAll_getLsbD]
    simp [BusShown, hb, UInt8.lt_iff_toNat_lt, UInt8.le_iff_toNat_le, and_assoc]

/-! ## One channel -/

variable {rmi : Rmi} {ch : UInt8}

theorem lineAt_of_lt (h : Defined rmi) (hch : 32 < ch) : lineAt rmi ch = none := by
  rw [UInt8.lt_iff_toNat_lt] at hch
  rw [lineAt]
  cases hg : rmi.gpio with
  | none => rfl
  | some gpio =>
    have hle := h.2 gpio hg
    exact List.getElem?_eq_none (Nat.le_trans hle (Nat.le_of_lt hch))

theorem readChannel_gpio (h : Defined rmi) (his : rmi.gpio.isSome ∧ isGpio rmi ch) :
    readChannel rmi ch = ((lineAt rmi ch).bind Item.level).getD (-efault) := by
  obtain ⟨gpio, hg⟩ := Option.isSome_iff_exists.mp his.1
  by_cases hch : 32 < ch
  · rw [readChannel, if_pos hch, lineAt_of_lt h hch]
    rfl
  · rw [readChannel, if_neg hch, hg]
    simp only [if_pos his.2]
    rw [readGpioChan_eq, lineAt, hg]
    rfl

theorem readBusChannel_of_not (his : ¬ (rmi.smcbus.isSome ∧ isSmcbus rmi ch)) :
    readBusChannel rmi ch = -efault := by
  rw [readBusChannel]
  cases hb : rmi.smcbus with
  | none => rfl
  | some bus =>
    rw [hb] at his
    exact if_neg fun h => his ⟨rfl, h⟩

theorem readChannel_bus (his : ¬ (rmi.gpio.isSome ∧ isGpio rmi ch)) :
    readChannel rmi ch = readBusChannel rmi ch := by
  by_cases hch : 32 < ch
  · -- the bus block ends before channel 32
    rw [readChannel, if_pos hch]
    refine (readBusChannel_of_not fun hbus => ?_).symm
    have hend := rmi.smcbusEnd_lt
    simp only [isSmcbus, Bool.and_eq_true, decide_eq_true_eq, UInt8.le_iff_toNat_le,
      UInt8.lt_iff_toNat_lt] at hbus hch hend
    omega
  · rw [readChannel, if_neg hch]
    cases hg : rmi.gpio with
    | none => rfl
    | some gpio =>
      rw [hg] at his
      exact if_neg fun h => his ⟨rfl, h⟩

theorem readSmcbusChan_pos {bus : Smcbus} (hread : bus.hasRead = true) {off : UInt8}
    (hoff : off ≤ ch) :
    (0 < readSmcbusChan bus off ch ↔ bus.line (ch.toNat - off.toNat) = true) ∧
      (off.toNat + 16 ≤ ch.toNat → readSmcbusChan bus off ch < 0) := by
  rw [readSmcbusChan, if_pos hread, smcbusReadChannel]
  by_cases hbehind : off.toNat + 2 * 8 ≤ ch.toNat
  · -- behind the two bytes of the bus
    rw [if_pos hbehind, Smcbus.line, if_neg (by omega), BitVec.getLsbD_of_ge bus.base1 _ (by omega)]
    simp [eio]
  · rw [if_neg hbehind, line_eq_byte bus (by omega), UInt8.toNat_sub_of_le ch off hoff]
    have hmask := toNat_mask
      (if (ch.toNat - off.toNat) / 8 = 0 then bus.base0 else bus.base1)
      ⟨(ch.toNat - off.toNat) % 8, Nat.mod_lt _ (by decide)⟩
    refine ⟨?_, fun hge => absurd hge hbehind⟩
    simp only [Int.natCast_pos]
    exact hmask

theorem readBusChannel_pos (hread : ∀ bus ∈ rmi.smcbus, bus.hasRead = true)
    (his : rmi.smcbus.isSome ∧ isSmcbus rmi ch) :
    0 < readBusChannel rmi ch ↔ BusShown rmi ch := by
  obtain ⟨bus, hb⟩ := Option.isSome_iff_exists.mp his.1
  have hin := his.2
  rw [isSmcbus, Bool.and_eq_true, decide_eq_true_eq, decide_eq_true_eq] at hin
  have hch : ch < 32 := UInt8.lt_of_le_of_lt hin.2 rmi.smcbusEnd_lt
  rw [readBusChannel, hb]
  simp only [if_pos his.2, BusShown, hb, Option.mem_some_iff, exists_eq_left', hch, hin.1, true_and]
  exact (readSmcbusChan_pos (hread bus hb) hin.1).1

theorem readChannel_neg (h : Defined rmi) (hun : ¬ Readable rmi ch) : readChannel rmi ch < 0 := by
  by_cases hgpio : rmi.gpio.isSome ∧ isGpio rmi ch
  · rw [readChannel_gpio h hgpio]
    -- a GPIO channel, with an item or beyond the last one
    cases hline : lineAt rmi ch with
    | none => decide
    | some item =>
      cases hlevel : item.level with
      | none =>
        rw [Option.bind_some, hlevel]
        decide
      | some level =>
        rw [Option.bind_some, hlevel]
        exact Int.lt_of_not_ge fun hpos => hun (.inl ⟨item, hline, level, hlevel, hpos⟩)
  · rw [readChannel_bus hgpio]
    by_cases hbus : rmi.smcbus.isSome ∧ isSmcbus rmi ch
    · obtain ⟨bus, hb⟩ := Option.isSome_iff_exists.mp hbus.1
      rw [readBusChannel, hb]
      simp only [if_pos hbus.2]
      by_cases hread : bus.hasRead = true
      · -- the channel is behind the last line of the bus
        have hin := hbus.2
        rw [isSmcbus, Bool.and_eq_true, decide_eq_true_eq] at hin
        apply (readSmcbusChan_pos hread hin.1).2
        exact Nat.le_of_not_lt fun hlt => hun (.inr ⟨bus, hb, hread, hbus.2, hlt⟩)
      · rw [readSmcbusChan, if_neg hread]
        decide
    · rw [readBusChannel_of_not hbus]
      decide

theorem level_iff_agrees (h : Defined rmi) (hread : ∀ bus ∈ rmi.smcbus, bus.hasRead = true) :
    (0 < readChannel rmi ch ↔ BusShown rmi ch ∨ LineShown rmi ch) ↔ Agrees rmi ch := by
  rw [Agrees]
  split_ifs with hgpio hbus
  · -- a GPIO channel
    rw [readChannel_gpio h hgpio, LineShown]
    cases hline : lineAt rmi ch with
    | none => simp [efault]
    | some item =>
      cases hlevel : item.level with
      | none => simp [hlevel, efault]
      | some level =>
        simp only [Option.bind_some, hlevel, Option.getD_some, Option.mem_some_iff,
          exists_eq_left', forall_eq', ne_eq, Option.some.injEq]
        by_cases hshown : BusShown rmi ch <;> simp only [hshown] <;> simp <;> omega
  · -- a bus channel
    rw [readChannel_bus hgpio, readBusChannel_pos hread hbus]
    tauto
  · -- a channel of no block
    rw [readChannel_bus hgpio, readBusChannel_of_not hbus]
    simp [efault, and_comm]

/-- **Remote inputs**: when the read of one channel and the read of all channels agree -/
theorem consistent_iff :
    Consistent wideShl rmi ch ↔
      Defined rmi ∧ (∀ bus ∈ rmi.smcbus, bus.hasRead = true) ∧ Agrees rmi ch := by
  constructor
  · rintro ⟨hdef, ⟨all, hall, hlevel⟩, -⟩
    -- without `read` the read of all channels fails
    have hread : ∀ bus ∈ rmi.smcbus, bus.hasRead = true := by
      intro bus hb
      rw [readAll, Option.mem_def.mp hb] at hall
      simp only [Option.ite_none_right_eq_some] at hall
      exact hall.1
    obtain ⟨all', hall', hbits⟩ := readAll_getLsbD wideShl hdef hread
    obtain rfl := Option.some.inj (hall.symm.trans hall')
    exact ⟨hdef, hread, (level_iff_agrees hdef hread).mp (hlevel.trans (hbits ch))⟩
  · rintro ⟨hdef, hread, hagrees⟩
    obtain ⟨all, hall, hbits⟩ := readAll_getLsbD wideShl hdef hread
    exact ⟨hdef, ⟨all, hall, ((level_iff_agrees hdef hread).mpr hagrees).trans (hbits ch).symm⟩,
      readChannel_neg hdef⟩

/-! ## Devices on which the reads differ -/

/-- Five GPIO lines whose pins are at 1 -/
def highLines : Gpio := ⟨List.replicate 5 ⟨none, some 1⟩, by decide⟩

/-- One GPIO line with neither a function nor a pin -/
def deadLine : Gpio := ⟨[⟨none, none⟩], by decide⟩

/-- One GPIO line whose pin is at 0 -/
def lowLine : Gpio := ⟨[⟨none, some 0⟩], by decide⟩

/-- A line that cannot be read is shown as 1; so is a GPIO line at 0 registered over a bus channel
    at 1; and the first line of a block with an offset is in bit 0 but not read as channel 0. -/
theorem inputs_inconsistent :
    ¬ Consistent (fun x _ => x) (gpioRegister deviceAlloc deadLine 0 1) 0 ∧
      (∃ rmi, smcbusRegister deviceAlloc ⟨true, 0x01#8, 0#8⟩ 0 8 = some rmi ∧
        ¬ Consistent (fun x _ => x) (gpioRegister rmi lowLine 0 1) 0) ∧
      ¬ Consistent (fun x _ => x) (gpioRegister deviceAlloc highLines 1 5) 0 := by
  refine ⟨?_, ⟨_, rfl, ?_⟩, ?_⟩
  all_goals
    rintro ⟨-, ⟨all, hall, hiff⟩, -⟩
    cases hall
    exact absurd (hiff.mpr (by decide)) (by decide)

end NucKernel.CharDevices.RemoteInput
