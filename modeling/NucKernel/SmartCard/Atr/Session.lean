import NucKernel.SmartCard.Atr.Parser
import NucKernel.SmartCard.T1.Block

/-!
# From the ATR to the parameters of a session

The functions that read the record of an ATR: `ATR_GetIntegerValue`, `ATR_GetParameter`,
`ATR_GetDefaultProtocol` and `ATR_Parse`. They look at every group that the record has room for.

## Modelling

- `CONFIG_EMV_CHECK` is a parameter
- the exchange of a PPS is a parameter: what the card answers to the four bytes sent, or nothing if
  the exchange ended with an error
- a register reads back what was last written to it
-/

namespace NucKernel.SmartCard.Atr

open NucKernel.SmartCard.T1 (Checksum)

def scErrPps : ℕ := 0x0A

/-- An interface byte, if its flag is set -/
def AtrT.byte (atr : AtrT) (i : ℕ) (k : InterfaceByte) : Option UInt8 :=
  if (atr.ib i k).present ≠ 0 then some (atr.ib i k).value else none

/-! ## Values and parameters -/

inductive IntegerValue
  | FI | DI | II | PI1 | N | PI2
  deriving DecidableEq, Repr

/-- `ATR_GetIntegerValue`; no value is `ATR_NOT_FOUND` -/
def atrGetIntegerValue (atr : AtrT) : IntegerValue → Option UInt8
  | .FI => (atr.byte 0 .TA).map fun v : UInt8 => (v &&& 0xF0) >>> 4
  | .DI => (atr.byte 0 .TA).map fun v => v &&& 0x0F
  | .II => (atr.byte 0 .TB).map fun v : UInt8 => (v &&& 0x60) >>> 5
  | .PI1 => (atr.byte 0 .TB).map fun v => v &&& 0x1F
  | .N => atr.byte 0 .TC
  | .PI2 => atr.byte 1 .TB

inductive Parameter
  | F | D | I | P | N
  deriving DecidableEq, Repr

def atrFTable : List ℕ :=
  [372, 372, 558, 744, 1116, 1488, 1860, 0, 0, 512, 768, 1024, 1536, 2048, 0, 0]

def atrDTable : List ℕ := [0, 1, 2, 4, 8, 16, 32, 64, 12, 20, 0, 0, 0, 0, 0, 0]

def atrDefaultF : ℕ := 372

def atrDefaultD : ℕ := 1

def atrDefaultN : ℕ := 0

/-- `ATR_GetParameter`; no value is `ATR_NOT_FOUND` -/
def atrGetParameter (atr : AtrT) : Parameter → Option ℕ
  | .F => (atrGetIntegerValue atr .FI).elim (some atrDefaultF) fun v => atrFTable[v.toNat]?
  | .D => (atrGetIntegerValue atr .DI).elim (some atrDefaultD) fun v => atrDTable[v.toNat]?
  | .N => (atrGetIntegerValue atr .N).elim (some atrDefaultN) fun v => some v.toNat
  | .I => none
  | .P => none

/-! ## The default protocol -/

/-- One round of the loop over the groups: the first protocol found, and all protocols as bits -/
def findProtocol (atr : AtrT) (s : Option ℕ × ℕ) (i : ℕ) : Option ℕ × ℕ :=
  match atr.byte i .TD with
  | some td =>
    let T := (td &&& 0x0F).toNat
    (some (s.1.getD T), s.2 ||| 1 <<< T)
  | none => s

/-- `ATR_GetDefaultProtocol`: the protocol and the available protocols -/
def atrGetDefaultProtocol (atr : AtrT) : ℕ × ℕ :=
  let s := (List.range atrMaxProtocols).foldl (findProtocol atr) (none, 0)
  -- specific mode if TA2 present
  match atr.byte 1 .TA with
  | some ta2 => ((ta2 &&& 0x0F).toNat, 1 <<< (ta2 &&& 0x0F).toNat)
  | none =>
    match s.1 with
    | some protocol => (protocol, s.2)
    | none => (0, 1 <<< 0)

/-! ## `ATR_Parse` -/

/-- The fields of `struct nuc970_sc` that `ATR_Parse` sets -/
structure Params where
  F : ℕ
  D : ℕ
  N : ℕ
  protocol : ℕ
  EDC : Checksum
  CWI : ℕ
  BWI : ℕ
  CWT : ℕ
  BWT : ℕ
  IFSC : UInt8
  WI : ℕ
  WT : ℕ
  etuctl : ℕ
  deriving DecidableEq, Repr

abbrev PpsAnswer := List UInt8 → Option (ℕ → UInt8)

/-- F and D from TA1, with the bytes `pps[1]` and `pps[2]` -/
def setSpeed (atr : AtrT) (sc : Params) (pps1 : UInt8) : Params × UInt8 × UInt8 :=
  match atr.byte 0 .TA with
  | some ta1 =>
    let D := (atrGetParameter atr .D).getD sc.D
    let F := (atrGetParameter atr .F).getD sc.F
    -- may happen with non ISO cards
    let (F, D) := if F = 0 ∨ D = 0 then (372, 1) else (F, D)
    let cardBaudrate := 4000000 * D / F
    let defaultBaudrate := 4000000 * atrDefaultD / atrDefaultF
    ({ sc with F := F, D := D },
      if cardBaudrate > defaultBaudrate then (pps1 ||| 0x10, ta1) else (pps1, 0))
  | none => ({ sc with F := 372, D := 1 }, pps1, 0)

/-- The PPS is sent, and the answer has to confirm it. -/
def exchangePps (answer : PpsAnswer) (pps1 pps2 : UInt8) : Bool :=
  match answer [0xFF, pps1, pps2, 0xFF ^^^ pps1 ^^^ pps2] with
  | none => false
  | some r =>
    r 0 = 0xFF ∧ r 1 &&& 0x0F = pps1 &&& 0x0F ∧ (r 1 &&& 0xF0 = 0x10 ∨ r 1 &&& 0xF0 = 0) ∧
      r 2 = pps2 ∧ r 3 = r 0 ^^^ r 1 ^^^ r 2

/-- Negotiation of the speed, where TA2 is absent -/
def negotiate (emv : Bool) (answer : PpsAnswer) (atr : AtrT) (sc : Params) (pps1 pps2 : UInt8) :
    Params × Bool :=
  if (atr.byte 1 .TA).isSome then (sc, true)
  else if emv then
    (if (atr.byte 0 .TA).isSome then { sc with F := 372, D := 1 } else sc, true)
  else if (pps1 &&& 0x0F).toNat ≠ (atrGetDefaultProtocol atr).1 ∨ pps2 ≠ 0 then
    (sc, exchangePps answer pps1 pps2)
  else (sc, true)

def t1Groups : List ℕ := List.range' 2 (atrMaxProtocols - 2)

/-- The loop over TC. Only the first one counts; a group without it leaves LRC. -/
def chooseEdc (tc : ℕ → Option UInt8) : List ℕ → Checksum → Checksum
  | [], edc => edc
  | i :: is, edc =>
    match tc i with
    | some v => if v = 0 then .lrc else if v = 1 then .crc else edc
    | none => chooseEdc tc is .lrc

def firstByte (atr : AtrT) (k : InterfaceByte) : Option UInt8 :=
  t1Groups.findSome? fun i => atr.byte i k

/-- `11 + (2^BWI * 960 * 372) / etu`, with the product in 32 bits -/
def blockWaitingTime (BWI etuctl : ℕ) : ℕ :=
  (11 + 2 ^ BWI * 960 * 372 % 2 ^ 32 / (etuctl + 1)) % 2 ^ 32

def setT1 (atr : AtrT) (sc : Params) : Params :=
  let tb := firstByte atr .TB
  let CWI := (tb.map fun v => (v &&& 0xF).toNat).getD 13
  let BWI := (tb.map fun v : UInt8 => (v >>> 4).toNat).getD 4
  { sc with
    EDC := chooseEdc (fun i => atr.byte i .TC) t1Groups sc.EDC
    CWI := CWI
    CWT := 2 ^ CWI + 11
    BWI := BWI
    BWT := blockWaitingTime BWI sc.etuctl
    IFSC := (firstByte atr .TA).getD 32 }

/-- WI is TC2, where the flag is compared with 1. -/
def waitingInteger (atr : AtrT) : ℕ :=
  if (atr.ib 1 .TC).present = 1 then (atr.ib 1 .TC).value.toNat else 10

def setT0 (atr : AtrT) (sc : Params) (protocol : ℕ) : Params :=
  let WI := waitingInteger atr
  { sc with
    protocol := protocol
    N := (atrGetParameter atr .N).getD sc.N
    WI := WI
    WT := WI * 960 * sc.F / (sc.etuctl + 1) + 500 * sc.D }

def atrParse (emv : Bool) (answer : PpsAnswer) (sc : Params) (atr : AtrT) : Params × ℕ :=
  let protocol := (atrGetDefaultProtocol atr).1
  if protocol ≠ 0 ∧ protocol ≠ 1 then (sc, scErrAtr)
  else
    let (sc, pps1, pps2) := setSpeed atr sc (UInt8.ofNat protocol)
    let (sc, ok) := negotiate emv answer atr sc pps1 pps2
    if ok then
      let sc := { sc with etuctl := sc.F / sc.D - 1 }
      let sc := if protocol = 1 then setT1 atr sc else sc
      (setT0 atr sc protocol, 0)
    else (sc, scErrPps)

end NucKernel.SmartCard.Atr
