import NucKernel.Gpio.Drive

/-!
# Masking of GPIO interrupts

A pin raises interrupts for the bits it has in the rising-enable and falling-enable registers of its
port. The trigger of a pin is kept a second time in the shadow arrays `RType` and `FType` of
`arch/arm/mach-nuc970/irq.c`, from which `unmask` restores what `mask` has cleared.

## Modelling

- The registers start with any contents, the shadow arrays with zeros.
- The latest mask or unmask call and the latest trigger of each pin are tracked next to the
  registers. A pin that has not been given a trigger has none to be compared with.
-/

namespace NucKernel.Gpio

open NucKernel.Library

/-! ## Triggers -/

def irqTypeEdgeRising : BitVec 32 := 0x1

def irqTypeEdgeFalling : BitVec 32 := 0x2

def irqTypeLevelHigh : BitVec 32 := 0x4

def irqTypeLevelLow : BitVec 32 := 0x8

def irqTypeLevelMask : BitVec 32 := irqTypeLevelLow ||| irqTypeLevelHigh

def irqTypeProbe : BitVec 32 := 0x10

inductive Trigger
  | rising
  | falling
  | both
  | levelHigh
  | levelLow

/-- The argument of `type` -/
def Trigger.flags : Trigger → BitVec 32
  | rising => irqTypeEdgeRising
  | falling => irqTypeEdgeFalling
  | both => irqTypeEdgeRising ||| irqTypeEdgeFalling
  | levelHigh => irqTypeLevelHigh
  | levelLow => irqTypeLevelLow

/-- The registers at +0x0C, +0x10 and +0x14 of the ports, and the shadow arrays -/
structure IrqPorts where
  level : Bank (Fin 10) 32
  rising : Bank (Fin 10) 32
  falling : Bank (Fin 10) 32
  rType : Bank (Fin 10) 16
  fType : Bank (Fin 10) 16

namespace IrqPorts

def setLevel (s : IrqPorts) (p : Pin) : IrqPorts := { s with level := p.setIn s.level }

def clearLevel (s : IrqPorts) (p : Pin) : IrqPorts := { s with level := p.clearIn s.level }

def setRising (s : IrqPorts) (p : Pin) : IrqPorts :=
  { s with rising := p.setIn s.rising, rType := p.setIn s.rType }

def clearRising (s : IrqPorts) (p : Pin) : IrqPorts :=
  { s with rising := p.clearIn s.rising, rType := p.clearIn s.rType }

def setFalling (s : IrqPorts) (p : Pin) : IrqPorts :=
  { s with falling := p.setIn s.falling, fType := p.setIn s.fType }

def clearFalling (s : IrqPorts) (p : Pin) : IrqPorts :=
  { s with falling := p.clearIn s.falling, fType := p.clearIn s.fType }

/-- `nuc970_irq_gpio_unmask` -/
def unmask (s : IrqPorts) (p : Pin) : IrqPorts :=
  { s with
    rising := s.rising.orWord p.port ((s.rType p.port).setWidth 32 &&& oneBit 32 p.num)
    falling := s.falling.orWord p.port ((s.fType p.port).setWidth 32 &&& oneBit 32 p.num) }

/-- `nuc970_irq_gpio_mask` -/
def mask (s : IrqPorts) (p : Pin) : IrqPorts :=
  { s with rising := p.clearIn s.rising, falling := p.clearIn s.falling }

/-- `nuc970_irq_gpio_type` -/
def type (s : IrqPorts) (p : Pin) (type : BitVec 32) : IrqPorts :=
  if type = irqTypeProbe then (s.setRising p).setFalling p
  else if type &&& irqTypeLevelMask ≠ 0 then
    -- a level is selected with the enable bit of the edge that leads to it
    let s := ((s.setLevel p).clearRising p).clearFalling p
    if type = irqTypeLevelHigh then s.setRising p
    else if type = irqTypeLevelLow then s.setFalling p
    else s
  else
    let s := s.clearLevel p
    let s := if type &&& irqTypeEdgeRising ≠ 0 then s.setRising p else s.clearRising p
    if type &&& irqTypeEdgeFalling ≠ 0 then s.setFalling p else s.clearFalling p

variable (s : IrqPorts) (p q : Pin)

end IrqPorts

/-! ## Sequences of calls -/

inductive IrqCall
  | type (p : Pin) (t : Trigger)
  | mask (p : Pin)
  | unmask (p : Pin)

def IrqCall.pin : IrqCall → Pin
  | type p _ => p
  | mask p => p
  | unmask p => p

/-- The registers, with the latest mask (`true`) or unmask (`false`) call and the latest trigger of
    each pin -/
structure IrqSession where
  ports : IrqPorts
  masked : Pin → Option Bool
  trigger : Pin → Option Trigger

def IrqSession.start (level rising falling : Bank (Fin 10) 32) : IrqSession :=
  ⟨⟨level, rising, falling, fun _ => 0, fun _ => 0⟩, fun _ => none, fun _ => none⟩

def irqStep (s : IrqSession) : IrqCall → Option IrqSession
  | .type p t =>
    some ⟨s.ports.type p t.flags, s.masked, fun q => if q = p then some t else s.trigger q⟩
  | .mask p => some ⟨s.ports.mask p, fun q => if q = p then some true else s.masked q, s.trigger⟩
  | .unmask p =>
    some ⟨s.ports.unmask p, fun q => if q = p then some false else s.masked q, s.trigger⟩

end NucKernel.Gpio
