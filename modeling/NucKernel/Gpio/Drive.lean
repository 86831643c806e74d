import NucKernel.Library.Runs
import NucKernel.Library.RegisterBank

/-!
# GPIO outputs

Model of the direction and value calls of `drivers/gpio/gpio-nuc970.c`. Every call reads a register
of the pin's port, changes one bit and writes the register back; `direction_out` does so twice, for
the direction and then for the value. The level on an output is its bit in the data-out register,
so what counts is the state after each single write.

## Modelling

- The variants with the suffix 1 have the same bodies and are not repeated.
- The lock only orders the calls; a run is any sequence of them.
- The value most recently requested for a pin is tracked next to the registers. A pin that is an
  output in the beginning counts as requested to drive what it drives.
-/

namespace NucKernel.Gpio

open NucKernel.Library

/-! ## Pins -/

/-- `GPIO_OFFSET`: the distance of the numbers of two ports -/
def gpioOffset : ℕ := 0x20

/-- A GPIO number that belongs to a pin -/
structure Pin where
  number : ℕ
  port_lt : number / gpioOffset < 10
  num_lt : number % gpioOffset < 16
deriving DecidableEq

namespace Pin

def port (p : Pin) : Fin 10 := ⟨p.number / gpioOffset, p.port_lt⟩

/-- The bit of a pin in the registers of its port -/
def num (p : Pin) : ℕ := p.number % gpioOffset

theorem eq_iff {p q : Pin} : p = q ↔ p.port = q.port ∧ p.num = q.num := by
  constructor
  · rintro rfl
    exact ⟨rfl, rfl⟩
  · rintro ⟨hport, hnum⟩
    have hdiv : p.number / gpioOffset = q.number / gpioOffset := congrArg Fin.val hport
    have hnumber : p.number = q.number := by
      rw [← Nat.div_add_mod p.number gpioOffset, ← Nat.div_add_mod q.number gpioOffset, hdiv]
      exact congrArg (gpioOffset * (q.number / gpioOffset) + ·) hnum
    cases p
    cases q
    cases hnumber
    rfl

variable {w : ℕ}

/-- The bit of a pin in a bank of port registers -/
def bitOf (p : Pin) (b : Bank (Fin 10) w) : Bool := b.bit p.port p.num

/-- `reg | (1 << num)` -/
def setIn (p : Pin) (b : Bank (Fin 10) w) : Bank (Fin 10) w := b.orWord p.port (oneBit w p.num)

/-- `reg & ~(1 << num)` -/
def clearIn (p : Pin) (b : Bank (Fin 10) w) : Bank (Fin 10) w :=
  b.andNotWord p.port (oneBit w p.num)

theorem bit_oneBit (p q : Pin) (hw : 16 ≤ w) :
    (decide (q.port = p.port) && (oneBit w p.num).getLsbD q.num) = decide (q = p) := by
  have hp : p.num < w := Nat.lt_of_lt_of_le p.num_lt hw
  rw [getLsbD_oneBit _ hp, Bool.eq_iff_iff]
  simp [eq_iff]

@[simp] theorem bitOf_setIn (p q : Pin) (b : Bank (Fin 10) w) (hw : 16 ≤ w) :
    q.bitOf (p.setIn b) = (q.bitOf b || decide (q = p)) := by
  rw [bitOf, setIn, Bank.bit_orWord, bit_oneBit p q hw]
  rfl

@[simp] theorem bitOf_clearIn (p q : Pin) (b : Bank (Fin 10) w) (hw : 16 ≤ w) :
    q.bitOf (p.clearIn b) = (q.bitOf b && !decide (q = p)) := by
  have hq : q.num < w := Nat.lt_of_lt_of_le q.num_lt hw
  rw [bitOf, clearIn, Bank.bit_andNotWord _ _ _ _ hq, bit_oneBit p q hw]
  rfl

end Pin

/-! ## Calls -/

/-- The registers `dir`, `out` and `in` of the ports -/
structure Ports where
  dir : Bank (Fin 10) 32
  dataOut : Bank (Fin 10) 32
  dataIn : Bank (Fin 10) 32

def writeValue (b : Bank (Fin 10) 32) (p : Pin) (val : Int) : Bank (Fin 10) 32 :=
  if val ≠ 0 then p.setIn b else p.clearIn b

/-- `nuc970_gpio_core_direction_in` -/
def coreDirectionIn (s : Ports) (p : Pin) : List Ports := [{ s with dir := p.clearIn s.dir }]

/-- `nuc970_gpio_core_set`: the value of an input goes to the data-in register. -/
def coreSet (s : Ports) (p : Pin) (val : Int) : List Ports :=
  if p.bitOf s.dir then [{ s with dataOut := writeValue s.dataOut p val }]
  else [{ s with dataIn := writeValue s.dataIn p val }]

/-- `nuc970_gpio_core_direction_out` -/
def coreDirectionOut (s : Ports) (p : Pin) (val : Int) : List Ports :=
  -- the pin drives from here on, with the data-out bit it happens to have
  let s₁ := { s with dir := p.setIn s.dir }
  s₁ :: coreSet s₁ p val

inductive Call
  | directionIn (p : Pin)
  | set (p : Pin) (val : Int)
  | directionOut (p : Pin) (val : Int)

namespace Call

/-- The registers after each register write of a call -/
def writes (s : Ports) : Call → List Ports
  | directionIn p => coreDirectionIn s p
  | set p val => coreSet s p val
  | directionOut p val => coreDirectionOut s p val

def pin : Call → Pin
  | directionIn p => p
  | set p _ => p
  | directionOut p _ => p

/-- The value that a call requests for its pin -/
def value : Call → Option Bool
  | directionIn _ => none
  | set _ val => some (decide (val ≠ 0))
  | directionOut _ val => some (decide (val ≠ 0))

end Call

@[simp] theorem bitOf_writeValue (b : Bank (Fin 10) 32) (p q : Pin) (val : Int) :
    q.bitOf (writeValue b p val) = if q = p then decide (val ≠ 0) else q.bitOf b := by
  by_cases hval : val = 0 <;> by_cases hq : q = p <;> simp [writeValue, hval, hq]

theorem getLastD_writes (s : Ports) (c : Call) : (c.writes s).getLastD s ∈ c.writes s := by
  cases c with
  | directionIn p => exact List.mem_singleton_self _
  | set p val => simp only [Call.writes, coreSet]; split <;> exact List.mem_singleton_self _
  | directionOut p val =>
    simp only [Call.writes, coreDirectionOut, coreSet]
    split <;> exact List.mem_cons_of_mem _ (List.mem_singleton_self _)

theorem writes_frame {s t : Ports} {c : Call} {q : Pin} (ht : t ∈ c.writes s) (hq : q ≠ c.pin) :
    q.bitOf t.dir = q.bitOf s.dir ∧ q.bitOf t.dataOut = q.bitOf s.dataOut := by
  cases c with
  -- a pin that becomes an input drives nothing
  | directionIn p =>
    have hqp : q ≠ p := hq
    obtain rfl : t = _ := List.mem_singleton.mp ht
    simp [hqp]
  | set p val =>
    have hqp : q ≠ p := hq
    simp only [Call.writes, coreSet] at ht
    split at ht
    · obtain rfl : t = _ := List.mem_singleton.mp ht
      simp [hqp]
    · obtain rfl : t = _ := List.mem_singleton.mp ht
      exact ⟨rfl, rfl⟩
  | directionOut p val =>
    have hqp : q ≠ p := hq
    -- after the first write `set` finds an output
    have hdir : p.bitOf (p.setIn s.dir) = true := by simp
    simp only [Call.writes, coreDirectionOut, coreSet, hdir, if_true, List.mem_cons,
      List.not_mem_nil, or_false] at ht
    obtain rfl | rfl := ht <;> simp [hqp]

/-! ## What the outputs drive -/

/-- The registers, with the value most recently requested for each pin -/
structure Session where
  ports : Ports
  requested : Pin → Option Bool

def Session.start (s : Ports) : Session :=
  ⟨s, fun p => if p.bitOf s.dir then some (p.bitOf s.dataOut) else none⟩

def driveStep (s : Session) (c : Call) : Option Session :=
  some ⟨(c.writes s.ports).getLastD s.ports,
    -- `direction_in` requests nothing, and the older request stays
    fun q => if q = c.pin then c.value.or (s.requested q) else s.requested q⟩

/-- After each register write of the call every output drives the value most recently requested for
    it or that of the call, and the other pins are as they were. -/
def Driven (s : Session) (c : Call) (_ : Session) : Prop :=
  ∀ t ∈ c.writes s.ports,
    (∀ q : Pin, q.bitOf t.dir = true →
      s.requested q = some (q.bitOf t.dataOut) ∨
        q = c.pin ∧ c.value = some (q.bitOf t.dataOut)) ∧
    ∀ q : Pin, q ≠ c.pin →
      q.bitOf t.dir = q.bitOf s.ports.dir ∧ q.bitOf t.dataOut = q.bitOf s.ports.dataOut

/-- `direction_out` is called only on pins whose data-out bit is a requested value. -/
def Prepared (s : Session) (c : Call) (_ : Session) : Prop :=
  match c with
  | .directionOut p val =>
    s.requested p = some (p.bitOf s.ports.dataOut) ∨ p.bitOf s.ports.dataOut = decide (val ≠ 0)
  | _ => True

/-- Every output drives the value most recently requested for it. -/
def Settled (s : Session) : Prop :=
  ∀ q : Pin, q.bitOf s.ports.dir = true → s.requested q = some (q.bitOf s.ports.dataOut)

theorem settled_start (s : Ports) : Settled (Session.start s) := by
  intro q hq
  exact if_pos hq

theorem driven_of_pin {s s' : Session} {c : Call} (h : Settled s)
    (hpin : ∀ t ∈ c.writes s.ports, c.pin.bitOf t.dir = true →
      s.requested c.pin = some (c.pin.bitOf t.dataOut) ∨
        c.value = some (c.pin.bitOf t.dataOut)) : Driven s c s' := by
  intro t ht
  refine ⟨?_, fun q hq => writes_frame ht hq⟩
  intro q hdir
  by_cases hq : q = c.pin
  · subst hq
    exact (hpin t ht hdir).imp id fun hval => ⟨rfl, hval⟩
  · -- another pin is as before
    obtain ⟨hsame, hout⟩ := writes_frame ht hq
    rw [hout]
    exact Or.inl (h q (hsame.symm.trans hdir))

theorem driven_iff_prepared {s s' : Session} {c : Call} (h : Settled s) :
    Driven s c s' ↔ Prepared s c s' := by
  cases c with
  | directionIn p =>
    refine ⟨fun _ => trivial, fun _ => driven_of_pin h ?_⟩
    intro t ht hdir
    obtain rfl : t = _ := List.mem_singleton.mp ht
    simp [Call.pin] at hdir
  | set p val =>
    refine ⟨fun _ => trivial, fun _ => driven_of_pin h ?_⟩
    -- an output gets the value, an input is not driven
    intro t ht hdir
    simp only [Call.writes, coreSet] at ht
    split at ht
    · obtain rfl : t = _ := List.mem_singleton.mp ht
      exact Or.inr (by simp [Call.pin, Call.value])
    · rename_i hin
      obtain rfl : t = _ := List.mem_singleton.mp ht
      exact absurd hdir hin
  | directionOut p val =>
    have hset : p.bitOf (p.setIn s.ports.dir) = true := by simp
    constructor
    · -- between the two writes the pin drives its old data-out bit
      intro hdriven
      have hfirst := (hdriven _ List.mem_cons_self).1 p hset
      exact hfirst.imp id fun hval => (Option.some.inj hval.2).symm
    · intro hprep
      refine driven_of_pin h ?_
      intro t ht _
      simp only [Call.writes, coreDirectionOut, coreSet, hset, if_true, List.mem_cons,
        List.not_mem_nil, or_false] at ht
      -- after the second write the pin drives the value of the call
      obtain rfl | rfl := ht
      · exact hprep.imp id fun hval => congrArg some hval.symm
      · exact Or.inr (by simp [Call.pin, Call.value])

theorem settled_step {s s' : Session} {c : Call} (h : Settled s)
    (hstep : driveStep s c = some s') : Settled s' := by
  cases hstep
  intro q hdir
  by_cases hq : q = c.pin
  · -- the last write leaves the pin of the call an input or drives the value of the call
    subst hq
    cases c with
    | directionIn p => simp [Call.writes, coreDirectionIn, Call.pin] at hdir
    | set p val =>
      by_cases hp : p.bitOf s.ports.dir = true
      · simp [Call.writes, coreSet, hp, Call.pin, Call.value]
      · exact absurd hdir (by simp [Call.writes, coreSet, hp, Call.pin])
    | directionOut p val =>
      simp [Call.writes, coreDirectionOut, coreSet, Call.pin, Call.value]
  · obtain ⟨hsame, hout⟩ := writes_frame (getLastD_writes s.ports c) hq
    dsimp only at hdir ⊢
    rw [if_neg hq, hout]
    exact h q (hsame.symm.trans hdir)

/-- **Exact condition for the outputs**: between any two register writes of any sequence of calls
    every output drives a requested value, and every call leaves the other pins alone, exactly when
    `direction_out` is called only on pins whose data-out bit holds a requested value. -/
theorem driven_iff (s : Ports) (calls : List Call) :
    Along driveStep Driven (.start s) calls ↔ Along driveStep Prepared (.start s) calls :=
  along_iff (I := Settled) (fun _ _ _ h _ => driven_iff_prepared h)
    (fun _ _ _ h hstep _ => settled_step h hstep) (settled_start s)

def pa0 : Pin := ⟨0, by decide, by decide⟩

/-- PA0 has driven 1, has been made an input and has been requested to be 0. -/
def loweredInput : List Call :=
  [.directionOut pa0 0, .set pa0 1, .directionIn pa0, .set pa0 0]

/-- Made an output of 0, the pin drives 1 between the two writes of `direction_out`: the value of an
    input does not reach the data-out register. -/
theorem directionOut_drivesStale :
    ¬ Along driveStep Driven (.start ⟨fun _ => 0, fun _ => 0, fun _ => 0⟩)
      (loweredInput ++ [.directionOut pa0 0]) := by
  intro h
  have hdriven := h.last rfl rfl
  have hfirst := (hdriven _ List.mem_cons_self).1 pa0 (by decide)
  revert hfirst
  decide

end NucKernel.Gpio
