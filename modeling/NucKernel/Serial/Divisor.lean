import Mathlib.Algebra.Group.Nat.Defs

/-!
# The baud rate divisor of the NUC970 UART (`nuc970_serial.c`)

`nuc970serial_set_termios` writes `uartclk / baud - 2` to the 16 bits of the divisor, together with
the mode bits `0x30000000`. For the infrared line discipline `nuc970serial_set_ldisc` reads the
divisor back, divides it by 16 and subtracts 2 once more.

The bounds that are given to `uart_get_baud_rate` are not those of the two computations: the lower
one is a rounded quotient, and the upper one is for a divisor of 11, which is less than 32.
`divisorOk_iff` has the exact bounds.

## Modelling

- `unsigned int` is `UInt32`. A division by zero has no result.
- `struct ktermios` is a type of its own, with `tty_termios_baud_rate`, the clearing of `CBAUD` and
  `tty_termios_encode_baud_rate` as arbitrary functions: their constants are not in the tree.
-/

namespace NucKernel.Serial.Divisor

/-! ## The baud rate -/

structure TermiosOps (T : Type) where
  baudRate : T → UInt32
  clearCbaud : T → T
  encodeBaudRate : T → UInt32 → T

/-- `port->flags & UPF_SPD_MASK` -/
inductive Spd
  | none
  | hi
  | vhi
  | shi
  | warp

def Spd.altbaud : Spd → UInt32
  | none => 38400
  | hi => 57600
  | vhi => 115200
  | shi => 230400
  | warp => 460800

section BaudRate

variable {T : Type} (ops : TermiosOps T) (min max : UInt32)

/-- A try of `uart_get_baud_rate`: a rate, or the settings for the next try. `special` is the
    treatment of 38400 in the first try. -/
def tryBaud (special : UInt32 → UInt32) (hungUp : Bool) (termios : T) (old : Option T) :
    UInt32 ⊕ Bool × T :=
  let baud := special (ops.baudRate termios)
  -- special case: B0 rate
  let hungUp := hungUp || baud == 0
  let baud := if baud = 0 then 9600 else baud
  if min ≤ baud ∧ baud ≤ max then .inl baud
  else
    let termios := ops.clearCbaud termios
    match old with
    | some old =>
      .inr (hungUp, if hungUp then termios else ops.encodeBaudRate termios (ops.baudRate old))
    | none =>
      -- as a last resort, clip to the nearest chip supported rate
      .inr (hungUp, if hungUp then termios
        else if baud ≤ min then ops.encodeBaudRate termios (min + 1)
        else ops.encodeBaudRate termios (max - 1))

def uartGetBaudRate (spd : Spd) (termios : T) (old : Option T) : UInt32 :=
  match tryBaud ops min max (fun b => if b = 38400 then spd.altbaud else b) false termios old with
  | .inl baud => baud
  | .inr (hungUp, termios) =>
    match tryBaud ops min max id hungUp termios none with
    | .inl baud => baud
    | .inr _ => 0

end BaudRate

/-! ## The divisor -/

def nuc970serialGetDivisor (uartclk baud : UInt32) : Option UInt32 :=
  if baud = 0 then none else some (uartclk / baud - 2)

section Termios

variable {T : Type} (ops : TermiosOps T) (uartclk : UInt32) (spd : Spd) (termios : T)
  (old : Option T)

def termiosBaud : UInt32 :=
  uartGetBaudRate ops (uartclk / 0xffff) (uartclk / 11) spd termios old

/-- What `nuc970serial_set_termios` writes to `UART_REG_BAUD` -/
def setTermios : Option UInt32 :=
  (nuc970serialGetDivisor uartclk (termiosBaud ops uartclk spd termios old)).map fun quot =>
    quot ||| 0x30000000

end Termios

/-- The divisor that `nuc970serial_set_ldisc` computes for `N_IRDA`, before it subtracts 2 -/
def irdaQuotient (baud : UInt32) : UInt32 := ((baud &&& 0xffff) + 2) / 16

/-- A register whose divisor is in its field, with the mode bits beside it, and is large enough for
    the infrared mode -/
structure DivisorOk (uartclk baud reg : UInt32) : Prop where
  field : (reg &&& 0xffff).toNat = uartclk.toNat / baud.toNat - 2
  mode : reg >>> 16 = 0x3000
  irda : 2 ≤ irdaQuotient reg

theorem fields_of_lt {quot : UInt32} (h : quot.toNat < 0x10000) :
    (quot ||| 0x30000000) &&& 0xffff = quot ∧ (quot ||| 0x30000000) >>> 16 = 0x3000 := by
  -- the mode bits are above the divisor
  have hor : (quot ||| 0x30000000).toNat = 2 ^ 16 * 0x3000 + quot.toNat := by
    rw [UInt32.toNat_or, Nat.two_pow_add_eq_or_of_lt h, Nat.or_comm]
    rfl
  constructor
  · apply UInt32.toNat_inj.mp
    rw [UInt32.toNat_and, hor]
    exact (Nat.and_two_pow_sub_one_eq_mod _ 16).trans (by omega)
  · apply UInt32.toNat_inj.mp
    rw [UInt32.toNat_shiftRight, hor]
    exact (Nat.shiftRight_eq_div_pow _ 16).trans (by simp; omega)

theorem irdaQuotient_ge_iff (reg : UInt32) :
    2 ≤ irdaQuotient reg ↔ 30 ≤ (reg &&& 0xffff).toNat := by
  have hfield : (reg &&& 0xffff).toNat < 2 ^ 16 := by
    rw [UInt32.toNat_and]
    exact Nat.and_lt_two_pow _ (by decide)
  rw [irdaQuotient, UInt32.le_iff_toNat_le, UInt32.toNat_div, UInt32.toNat_add]
  simp only [UInt32.reduceToNat]
  omega

/-- **Divisors**: with the rate of `uart_get_baud_rate`, whatever the settings are, the divisor fits
    and is large enough for the infrared mode exactly if the quotient is from 32 to 65537. -/
theorem divisorOk_iff {T : Type} (ops : TermiosOps T) (uartclk : UInt32) (spd : Spd) (termios : T)
    (old : Option T) :
    (∃ reg, setTermios ops uartclk spd termios old = some reg ∧
        DivisorOk uartclk (termiosBaud ops uartclk spd termios old) reg) ↔
      termiosBaud ops uartclk spd termios old ≠ 0 ∧
        32 ≤ uartclk.toNat / (termiosBaud ops uartclk spd termios old).toNat ∧
        uartclk.toNat / (termiosBaud ops uartclk spd termios old).toNat ≤ 0x10001 := by
  rw [setTermios]
  generalize termiosBaud ops uartclk spd termios old = baud
  rw [nuc970serialGetDivisor]
  constructor
  · rintro ⟨reg, hreg, hok⟩
    have hbaud : baud ≠ 0 := by
      rintro rfl
      cases hreg
    -- the lower bound comes from the infrared mode, the upper one from the field
    have hirda := (irdaQuotient_ge_iff reg).mp hok.irda
    have hfield : (reg &&& 0xffff).toNat < 2 ^ 16 := by
      rw [UInt32.toNat_and]
      exact Nat.and_lt_two_pow _ (by decide)
    have heq := hok.field
    exact ⟨hbaud, by omega, by omega⟩
  · rintro ⟨hbaud, hlo, hhi⟩
    -- the subtraction does not wrap around
    have hquot : (uartclk / baud - 2).toNat = uartclk.toNat / baud.toNat - 2 := by
      rw [UInt32.toNat_sub_of_le, UInt32.toNat_div]
      · rfl
      · rw [UInt32.le_iff_toNat_le, UInt32.toNat_div]
        exact Nat.le_trans (by decide) hlo
    have hlt : (uartclk / baud - 2).toNat < 0x10000 := by omega
    obtain ⟨hfield, hmode⟩ := fields_of_lt hlt
    rw [if_neg hbaud]
    refine ⟨_, rfl, ⟨?_, hmode, ?_⟩⟩
    · rw [hfield, hquot]
    · rw [irdaQuotient_ge_iff, hfield, hquot]
      omega

def plainSpeeds : TermiosOps UInt32 := ⟨id, fun _ => 0, fun _ b => b⟩

/-- A clock of 12 MHz. At 183 baud, the lower bound, the divisor is 65571 and spills over into the
    mode bits. At 1090909 baud, the upper one, it is 9, and the infrared mode divides it to 0. -/
theorem bounds_too_wide :
    setTermios plainSpeeds 12000000 .none 183 none = some 0x30010023 ∧
      setTermios plainSpeeds 12000000 .none 1090909 none = some 0x30000009 ∧
      irdaQuotient 0x30000009 = 0 := by
  decide

end NucKernel.Serial.Divisor
