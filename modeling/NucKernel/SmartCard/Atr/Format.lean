import Mathlib.Algebra.GroupWithZero.Nat
import NucKernel.Library.Bytes
import Mathlib.Data.List.Basic

/-!
# The Answer To Reset as a format

An ATR describes itself: T0 announces the first group of interface bytes and the number of
historical bytes, and each TD byte announces a further group. TCK is there if a TD byte names a
protocol other than T=0. This module has the format as data, with the bytes it is written in; the
driver's two decoders are compared with it.

## Modelling

- a byte sequence is a function from positions to bytes, as the sequences of the driver are a buffer
  that is read beyond the ATR, and a card that goes on sending
-/

namespace NucKernel.SmartCard.Atr

open NucKernel.Library

/-- Numerals of nibbles -/
scoped instance neZero_sixteen : NeZero 16 := ⟨by decide⟩

/-! ## Byte sequences -/

/-- The sequence has the bytes of the list at `pos`. -/
def Spells (buf : ℕ → UInt8) : ℕ → List UInt8 → Prop
  | _, [] => True
  | pos, b :: bytes => buf pos = b ∧ Spells buf (pos + 1) bytes

@[simp] theorem spells_nil (buf : ℕ → UInt8) (pos : ℕ) : Spells buf pos [] := trivial

@[simp] theorem spells_cons {buf : ℕ → UInt8} {pos : ℕ} {b : UInt8} {bytes : List UInt8} :
    Spells buf pos (b :: bytes) ↔ buf pos = b ∧ Spells buf (pos + 1) bytes := Iff.rfl

@[simp] theorem spells_append {buf : ℕ → UInt8} {pos : ℕ} {a b : List UInt8} :
    Spells buf pos (a ++ b) ↔ Spells buf pos a ∧ Spells buf (pos + a.length) b := by
  induction a generalizing pos with
  | nil => simp
  | cons x a ih => simp [ih, and_assoc, Nat.add_assoc, Nat.add_comm 1]

theorem Spells.congr {buf buf' : ℕ → UInt8} {pos : ℕ} {bytes : List UInt8}
    (h : Spells buf pos bytes)
    (heq : ∀ i, pos ≤ i → i < pos + bytes.length → buf' i = buf i) : Spells buf' pos bytes := by
  induction bytes generalizing pos with
  | nil => trivial
  | cons b bytes ih =>
    rw [List.length_cons] at heq
    refine ⟨(heq pos (Nat.le_refl _) (by omega)).trans h.1, ih h.2 fun i hi hlt => ?_⟩
    exact heq i (by omega) (by omega)

def bytesAt (buf : ℕ → UInt8) : ℕ → ℕ → List UInt8
  | _, 0 => []
  | pos, n + 1 => buf pos :: bytesAt buf (pos + 1) n

@[simp] theorem length_bytesAt (buf : ℕ → UInt8) (pos n : ℕ) : (bytesAt buf pos n).length = n := by
  induction n generalizing pos with
  | zero => rfl
  | succ n ih => simp [bytesAt, ih]

theorem spells_bytesAt (buf : ℕ → UInt8) (pos n : ℕ) : Spells buf pos (bytesAt buf pos n) := by
  induction n generalizing pos with
  | zero => trivial
  | succ n ih => exact ⟨rfl, ih _⟩

theorem Spells.bytesAt_eq {buf : ℕ → UInt8} {pos : ℕ} {bytes : List UInt8}
    (h : Spells buf pos bytes) : bytesAt buf pos bytes.length = bytes := by
  induction bytes generalizing pos with
  | nil => rfl
  | cons b bytes ih => simp only [List.length_cons, bytesAt, h.1, ih h.2]

/-! ## The format -/

/-- The interface bytes TA, TB and TC of one group -/
structure Group where
  ta : Option UInt8
  tb : Option UInt8
  tc : Option UInt8
  deriving DecidableEq, Repr

def Group.bytes (g : Group) : List UInt8 := g.ta.toList ++ g.tb.toList ++ g.tc.toList

def headerByte (a b c d : Bool) (low : Fin 16) : UInt8 :=
  (if a then 0x10 else 0) ||| (if b then 0x20 else 0) ||| (if c then 0x40 else 0) |||
    (if d then 0x80 else 0) ||| UInt8.ofNat low

def Group.header (g : Group) (more : Bool) (low : Fin 16) : UInt8 :=
  headerByte g.ta.isSome g.tb.isSome g.tc.isSome more low

/-- The groups from `g` on. Each further one has the protocol of the TD byte that announces it. -/
def encodeGroups : Group → List (Fin 16 × Group) → List UInt8
  | g, [] => g.bytes
  | g, (t, g') :: more => g.bytes ++ g'.header (!more.isEmpty) t :: encodeGroups g' more

/-- An ATR up to its historical bytes -/
structure AtrHead where
  ts : UInt8
  first : Group
  more : List (Fin 16 × Group)
  hist : List UInt8
  hist_lt : hist.length < 16

namespace AtrHead

def t0 (h : AtrHead) : UInt8 := h.first.header (!h.more.isEmpty) ⟨h.hist.length, h.hist_lt⟩

def encode (h : AtrHead) : List UInt8 := h.ts :: h.t0 :: (encodeGroups h.first h.more ++ h.hist)

def hasTck (h : AtrHead) : Bool := h.more.any fun m => m.1 ≠ 0

def groups (h : AtrHead) : List Group := h.first :: h.more.map (·.2)

end AtrHead

/-- An ATR as the standard has it -/
structure IsoAtr extends AtrHead where
  tck : Option UInt8
  tck_isSome : tck.isSome = toAtrHead.hasTck

namespace IsoAtr

def encode (x : IsoAtr) : List UInt8 := x.toAtrHead.encode ++ x.tck.toList

/-- TCK makes the exclusive-or of all bytes but TS vanish. -/
def TckCorrect (x : IsoAtr) : Prop := x.tck.isSome → x.encode.tail.foldl (· ^^^ ·) 0 = 0

instance (x : IsoAtr) : Decidable x.TckCorrect := by unfold TckCorrect; infer_instance

end IsoAtr

/-! ## Header bytes -/

theorem eq_headerByte (y : UInt8) :
    ∃ low, y = headerByte (y &&& 0x10 != 0) (y &&& 0x20 != 0) (y &&& 0x40 != 0)
      (y &&& 0x80 != 0) low := by
  revert y
  apply forall_uint8
  decide +kernel

theorem headerByte_bits (a b c d : Bool) (low : Fin 16) :
    (headerByte a b c d low &&& 0x10 != 0) = a ∧ (headerByte a b c d low &&& 0x20 != 0) = b ∧
      (headerByte a b c d low &&& 0x40 != 0) = c ∧ (headerByte a b c d low &&& 0x80 != 0) = d ∧
        headerByte a b c d low &&& 0x0F = UInt8.ofNat low := by
  revert a b c d low
  decide +kernel

theorem headerByte_or (a b c d : Bool) (low : Fin 16) :
    (headerByte a b c d low ||| 0xEF = 0xFF ↔ a = true) ∧
      (headerByte a b c d low ||| 0xDF = 0xFF ↔ b = true) ∧
      (headerByte a b c d low ||| 0xBF = 0xFF ↔ c = true) ∧
      (headerByte a b c d low ||| 0x7F = 0xFF ↔ d = true) := by
  revert a b c d low
  decide +kernel

/-! ## Reading a group off a sequence -/

def groupAt (buf : ℕ → UInt8) (y : UInt8) (pos : ℕ) : Group where
  ta := if y &&& 0x10 != 0 then some (buf pos) else none
  tb := if y &&& 0x20 != 0 then some (buf (pos + (y &&& 0x10 != 0).toNat)) else none
  tc := if y &&& 0x40 != 0 then
      some (buf (pos + (y &&& 0x10 != 0).toNat + (y &&& 0x20 != 0).toNat))
    else none

theorem spells_groupAt (buf : ℕ → UInt8) (y : UInt8) (pos : ℕ) :
    Spells buf pos (groupAt buf y pos).bytes := by
  simp only [groupAt, Group.bytes]
  cases y &&& 0x10 != 0 <;> cases y &&& 0x20 != 0 <;> cases y &&& 0x40 != 0 <;> simp

theorem isSome_ite_some (c : Bool) (b : UInt8) : (if c then some b else none).isSome = c := by
  cases c <;> rfl

theorem header_groupAt (buf : ℕ → UInt8) (y : UInt8) (pos : ℕ) :
    ∃ low, y = (groupAt buf y pos).header (y &&& 0x80 != 0) low := by
  obtain ⟨low, hy⟩ := eq_headerByte y
  refine ⟨low, hy.trans ?_⟩
  simp only [Group.header, groupAt, isSome_ite_some]

theorem exists_head {buf : ℕ → UInt8} {g : Group} {more : List (Fin 16 × Group)} {low : Fin 16}
    (ht0 : buf 1 = g.header (!more.isEmpty) low) (hspell : Spells buf 2 (encodeGroups g more)) :
    ∃ h : AtrHead, Spells buf 0 h.encode ∧ h.first = g ∧ h.more = more ∧ h.hist.length = low := by
  let hist := bytesAt buf (2 + (encodeGroups g more).length) low
  have hlen : hist.length = low := length_bytesAt _ _ _
  refine ⟨⟨buf 0, g, more, hist, by omega⟩, ⟨rfl, ?_, ?_⟩, rfl, rfl, hlen⟩
  · rw [ht0]
    simp only [AtrHead.t0, hlen]
  · rw [spells_append]
    exact ⟨hspell, spells_bytesAt _ _ _⟩

end NucKernel.SmartCard.Atr
