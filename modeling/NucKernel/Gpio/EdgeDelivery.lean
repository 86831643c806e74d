import Mathlib.Data.List.FinRange
import NucKernel.Gpio.Drive

/-!
# Delivery of edges to the interrupt handlers of the pins

The two chained handlers of `arch/arm/mach-nuc970/irq.c` find the pin an interrupt comes from:
`nuc970_irq_demux_intgroup` for all ports, `nuc970_irq_demux_intgroup2` for the eight external
lines. Edges are latched in the status registers of the ports at any moment.

## Modelling

- `generic_handle_irq` is the start of the handler of its interrupt number. Whether the interrupt
  core masks the pin meanwhile is not in this repository; an edge of a masked pin is not latched,
  and such edges do not occur in the runs.
- The chained handlers run with interrupts disabled and do not nest.
- The contents of `REG_GPIO_ISR` are an input. Which pins of the external lines have that function
  selected is a parameter: it decides, in `nuc970_gpio_core_to_irq`, the interrupt number that the
  user of the pin has requested.
-/

namespace NucKernel.Gpio

open NucKernel.Library

/-! ## Interrupt numbers -/

/-- `EXT`: the GPIO numbers of the pins of the external lines, PH0 to PH7 and the second pins PF11
    to PF15, PG15, PI1 and PI2 -/
def extNumber (k : Fin 16) : ℕ :=
  [0xE0, 0xE1, 0xE2, 0xE3, 0xE4, 0xE5, 0xE6, 0xE7,
    0xA0 + 11, 0xA0 + 12, 0xA0 + 13, 0xA0 + 14, 0xA0 + 15, 0xC0 + 15, 0x100 + 1, 0x100 + 2].getD k 0

def extPin (k : Fin 16) : Pin :=
  ⟨extNumber k, by revert k; decide, by revert k; decide⟩

/-- The first pin of a line -/
def firstOf (n : Fin 8) : Fin 16 := ⟨n, Nat.lt_trans n.isLt (by decide)⟩

/-- The second pin of a line -/
def secondOf (n : Fin 8) : Fin 16 := ⟨n + 8, Nat.add_lt_add_right n.isLt 8⟩

/-- `IRQ_GPIO_START + p` and `EXT0_BASE + k` -/
inductive Irq
  | gpio (p : Pin)
  | ext (k : Fin 16)
deriving DecidableEq

/-- `nuc970_gpio_core_to_irq`: the interrupt number of a pin -/
def toIrq (selected : Fin 16 → Bool) (p : Pin) : Irq :=
  match (List.finRange 16).find? fun k => extPin k = p with
  | some k => if selected k then .ext k else .gpio p
  | none => .gpio p

/-- Pin `j` of port `i` -/
def portPin (i : Fin 10) (j : Fin 16) : Pin :=
  ⟨i * gpioOffset + j, by unfold gpioOffset; omega, by unfold gpioOffset; omega⟩

/-! ## The chained handlers, step by step -/

inductive Op
  /-- Read the status register of a port. -/
  | readPort (i : Fin 10)
  /-- Call `generic_handle_irq`, and clear the status bit of the pin next. -/
  | handle (irq : Irq) (p : Pin)
  /-- Write the bit of the pin to the status register. -/
  | clear (p : Pin)
  /-- Test the first pin of an external line. -/
  | testFirst (n : Fin 8)
  /-- Test the second pin of an external line. -/
  | testSecond (n : Fin 8)

structure Demux where
  /-- The registers at +0x18 -/
  status : Bank (Fin 10) 32
  /-- An edge has been latched since the handler of the pin was started last. -/
  waiting : Pin → Bool
  /-- What is left of the running chained handler -/
  todo : List Op

inductive DemuxEvent
  | edge (p : Pin)
  | gpioIrq (isr : BitVec 32)
  | extIrq (n : Fin 8)
  | cpu

section Step

variable (selected : Fin 16 → Bool)

def portsOf (isr : BitVec 32) : List (Fin 10) := (List.finRange 10).filter fun i => isr.getLsbD i

def latchedPins (status : Bank (Fin 10) 32) (i : Fin 10) : List Pin :=
  ((List.finRange 16).map (portPin i)).filter fun p => p.bitOf status

def exec (s : Demux) (rest : List Op) : Op → Demux
  | .readPort i =>
    { s with todo := (latchedPins s.status i).map (fun p => .handle (.gpio p) p) ++ rest }
  | .handle irq p =>
    { s with
      -- the edges so far of every pin with this interrupt number are followed by a start
      waiting := fun q => if toIrq selected q = irq then false else s.waiting q
      todo := .clear p :: rest }
  | .clear p => { s with status := p.clearIn s.status, todo := rest }
  | .testFirst n =>
    if (extPin (firstOf n)).bitOf s.status then
      { s with todo := .handle (.ext (firstOf n)) (extPin (firstOf n)) :: rest }
    else { s with todo := .testSecond n :: rest }
  | .testSecond n =>
    if (extPin (secondOf n)).bitOf s.status then
      { s with todo := .handle (.ext (secondOf n)) (extPin (secondOf n)) :: rest }
    else { s with todo := rest }

def demuxStep (s : Demux) : DemuxEvent → Option Demux
  -- an edge comes at any moment, also while a chained handler runs
  | .edge p => some { s with
      status := p.setIn s.status
      waiting := fun q => if q = p then true else s.waiting q }
  | .gpioIrq isr =>
    if s.todo.isEmpty then some { s with todo := (portsOf isr).map .readPort } else none
  | .extIrq n => if s.todo.isEmpty then some { s with todo := [.testFirst n] } else none
  | .cpu =>
    match s.todo with
    | [] => none
    | op :: rest => some (exec selected s rest op)

/-- No status bit is cleared while an edge of its pin waits for the handler. -/
def Delivered (s : Demux) (e : DemuxEvent) (_ : Demux) : Prop :=
  ∀ p rest, e = .cpu → s.todo = .clear p :: rest → s.waiting p = false

/-- No edge comes between the call of the handler of a pin and the clearing of its status bit, and a
    chained handler finds only those pins latched whose handlers it calls. -/
def Quiet (s : Demux) (e : DemuxEvent) (_ : Demux) : Prop :=
  match e, s.todo with
  | .edge p, .clear q :: _ => p ≠ q
  | .cpu, .readPort i :: _ => ∀ p ∈ latchedPins s.status i, toIrq selected p = .gpio p
  | .cpu, .testFirst n :: _ =>
    (extPin (firstOf n)).bitOf s.status = true →
      toIrq selected (extPin (firstOf n)) = .ext (firstOf n)
  | .cpu, .testSecond n :: _ =>
    (extPin (secondOf n)).bitOf s.status = true →
      toIrq selected (extPin (secondOf n)) = .ext (secondOf n)
  | _, _ => True

/-! ## No edge is lost -/

/-- A step that calls the right handler, if it calls one, and clears nothing -/
def Op.Right : Op → Prop
  | .handle irq p => toIrq selected p = irq
  | .clear _ => False
  | _ => True

/-- All that is left calls the right handlers; if a status bit is to be cleared next, no edge of its
    pin waits. -/
def Orderly (s : Demux) : Prop :=
  (∀ op ∈ s.todo, op.Right selected) ∨
    ∃ p rest, s.todo = .clear p :: rest ∧ s.waiting p = false ∧ ∀ op ∈ rest, op.Right selected

variable {selected} {s s' : Demux}

theorem Orderly.rest_right (h : Orderly selected s) {op : Op} {rest : List Op}
    (htodo : s.todo = op :: rest) : ∀ op ∈ rest, op.Right selected := by
  rcases h with hall | ⟨p, rest', htodo', -, hrest⟩
  · intro op' hop'
    exact hall op' (htodo ▸ List.mem_cons_of_mem _ hop')
  · obtain ⟨-, rfl⟩ := List.cons.inj (htodo.symm.trans htodo')
    exact hrest

theorem Orderly.handle_right (h : Orderly selected s) {irq : Irq} {p : Pin} {rest : List Op}
    (htodo : s.todo = .handle irq p :: rest) : toIrq selected p = irq := by
  rcases h with hall | ⟨q, rest', htodo', -, -⟩
  · exact hall (.handle irq p) (htodo ▸ List.mem_cons_self)
  · cases htodo.symm.trans htodo'

theorem Orderly.clear_served (h : Orderly selected s) {p : Pin} {rest : List Op}
    (htodo : s.todo = .clear p :: rest) : s.waiting p = false := by
  rcases h with hall | ⟨q, rest', htodo', hserved, -⟩
  · exact absurd (hall (.clear p) (htodo ▸ List.mem_cons_self)) id
  · cases htodo.symm.trans htodo'
    exact hserved

theorem orderly_exec (h : Orderly selected s) {op : Op} {rest : List Op}
    (htodo : s.todo = op :: rest) (hquiet : Quiet selected s .cpu s') :
    Orderly selected (exec selected s rest op) := by
  have hrest := h.rest_right htodo
  cases op with
  | readPort i =>
    -- the calls that are added are for pins found latched now
    simp only [Quiet, htodo] at hquiet
    left
    intro op hop
    rcases List.mem_append.mp hop with hop | hop
    · obtain ⟨p, hp, rfl⟩ := List.mem_map.mp hop
      exact hquiet p hp
    · exact hrest op hop
  | handle irq p =>
    -- the handler starts now, so no edge of the pin waits any more
    exact Or.inr ⟨p, rest, rfl, if_pos (h.handle_right htodo), hrest⟩
  | clear p => exact Or.inl hrest
  | testFirst n =>
    simp only [Quiet, htodo] at hquiet
    rw [exec]
    split
    · rename_i hlatched
      exact Or.inl (List.forall_mem_cons.mpr ⟨hquiet hlatched, hrest⟩)
    · exact Or.inl (List.forall_mem_cons.mpr ⟨trivial, hrest⟩)
  | testSecond n =>
    simp only [Quiet, htodo] at hquiet
    rw [exec]
    split
    · rename_i hlatched
      exact Or.inl (List.forall_mem_cons.mpr ⟨hquiet hlatched, hrest⟩)
    · exact Or.inl hrest

theorem orderly_step (h : Orderly selected s) {e : DemuxEvent}
    (hstep : demuxStep selected s e = some s') (hquiet : Quiet selected s e s') :
    Orderly selected s' := by
  cases e with
  | edge p =>
    cases hstep
    rcases h with hall | ⟨q, rest, htodo, hserved, hrest⟩
    · exact Or.inl hall
    · -- a status bit is about to be cleared, and the edge is not one of its pin
      simp only [Quiet, htodo] at hquiet
      exact Or.inr ⟨q, rest, htodo, (if_neg hquiet.symm).trans hserved, hrest⟩
  | gpioIrq isr =>
    obtain ⟨-, rfl⟩ := of_guard_eq_some hstep
    left
    -- all ports are read first
    intro op hop
    obtain ⟨i, -, rfl⟩ := List.mem_map.mp hop
    trivial
  | extIrq n =>
    obtain ⟨-, rfl⟩ := of_guard_eq_some hstep
    exact Or.inl (List.forall_mem_singleton.mpr trivial)
  | cpu =>
    cases htodo : s.todo with
    | nil => simp [demuxStep, htodo] at hstep
    | cons op rest =>
      obtain rfl : exec selected s rest op = s' := by simpa [demuxStep, htodo] using hstep
      exact orderly_exec h htodo hquiet

end Step

def Demux.idle (status : Bank (Fin 10) 32) (waiting : Pin → Bool) : Demux := ⟨status, waiting, []⟩

/-- **Delivery**: in every interleaving of edges with the steps of the chained handlers in which no
    edge comes between the call of the handler of its pin and the clearing of the status bit, and
    each chained handler finds only its own pins latched, no edge is cleared before the handler of
    its pin has been started after it. -/
theorem delivered_of_quiet (selected : Fin 16 → Bool) (status : Bank (Fin 10) 32)
    (waiting : Pin → Bool) (events : List DemuxEvent)
    (h : Along (demuxStep selected) (Quiet selected) (.idle status waiting) events) :
    Along (demuxStep selected) Delivered (.idle status waiting) events := by
  refine along_of_along (I := Orderly selected) ?_ ?_ ?_ h
  · intro s e s' hs hstep hquiet
    exact orderly_step hs hstep hquiet
  · intro s e s' hs _ _ p rest _ htodo
    exact hs.clear_served htodo
  · exact Or.inl fun op hop => absurd hop List.not_mem_nil

def quietBoard : Demux := .idle (fun _ => 0) fun _ => false

/-- An edge of PA0 is handled and its status bit cleared. -/
theorem delivered_of_quiet_pa0 :
    Along (demuxStep fun _ => false) Delivered quietBoard
      [.edge pa0, .gpioIrq 1, .cpu, .cpu, .cpu] := by
  apply delivered_of_quiet
  rintro _ ⟨⟩
  refine ⟨trivial, ?_⟩
  rintro _ ⟨⟩
  refine ⟨trivial, ?_⟩
  rintro _ ⟨⟩
  refine ⟨show ∀ p ∈ latchedPins _ 0, _ from by decide, ?_⟩
  rintro _ ⟨⟩
  refine ⟨trivial, ?_⟩
  rintro _ ⟨⟩
  exact ⟨trivial, trivial⟩

/-- The chained handler has called the handler of PA0 when a second edge comes. -/
def secondEdge : List DemuxEvent := [.edge pa0, .gpioIrq 1, .cpu, .cpu, .edge pa0]

/-- PH0 has its external function; its edge is found by the chained handler of the ports. -/
def extEdgeInGroup : List DemuxEvent := [.edge (extPin 0), .gpioIrq 0x80, .cpu, .cpu]

/-- The second edge is cleared without a later start of the handler of PA0, and the edge of PH0 is
    cleared without any start of its handler. -/
theorem edge_lost :
    ¬ Along (demuxStep fun _ => false) Delivered quietBoard (secondEdge ++ [.cpu]) ∧
      ¬ Along (demuxStep fun k => k = 0) Delivered quietBoard (extEdgeInGroup ++ [.cpu]) := by
  constructor
  · intro h
    have hserved := h.last rfl rfl pa0 _ rfl rfl
    exact absurd hserved (by decide)
  · intro h
    have hserved := h.last rfl rfl (extPin 0) _ rfl rfl
    exact absurd hserved (by decide)

end NucKernel.Gpio
