import NucKernel.SmartCard.Atr.History
import NucKernel.SmartCard.Atr.Receiver

/-!
# What `ATR_InitFromArray` accepts

The parser against the format, on every byte string: which strings it accepts, what its record says
about them, and which bytes it looks at.
-/

namespace NucKernel.SmartCard.Atr

open NucKernel.Library

/-! ## The function on a byte string -/

section Strings

variable (bytes : List UInt8)

/-- TA, TB or TC of a group, with the byte taken from the string -/
def readIbIn (td : UInt8) (pn : ℕ) (k : InterfaceByte) (mask : UInt8) (s : Table × ℕ) :
    Option (Table × ℕ) :=
  if td ||| mask = 0xFF then
    bytes[s.2 + 1]?.map fun b => (putIb s.1 pn k (some b), s.2 + 1)
  else some (putIb s.1 pn k none, s.2)

/-- The three bytes of a group before TD -/
def readGroupIn (td : UInt8) (pn : ℕ) (s : Table × ℕ) : Option (Table × ℕ) := do
  let s ← readIbIn bytes td pn .TA 0xEF s
  let s ← readIbIn bytes td pn .TB 0xDF s
  readIbIn bytes td pn .TC 0xBF s

def interfaceBytesIn : ℕ → AtrT → UInt8 → ℕ → ℕ → Option (AtrT × Option (ℕ × ℕ))
  | 0, atr, _, _, _ => some (atr, none)
  | left + 1, atr, td, pointer, pn =>
    if pointer < bytes.length then
      if pointer + numIb td ≥ bytes.length then some (atr, none)
      else do
        let s ← readGroupIn bytes td pn (atr.ib, pointer)
        if td ||| 0x7F = 0xFF then do
          let td' ← bytes[s.2 + 1]?
          interfaceBytesIn left
            { atr with
              ib := putIb s.1 pn .TD (some td')
              TCK := ⟨atr.TCK.value, if td' &&& 0x0F ≠ 0 then 1 else 0⟩ }
            td' (s.2 + 1) (pn + 1)
        else some ({ atr with ib := putIb s.1 pn .TD none }, some (s.2, pn))
    else some (atr, some (pointer, pn))

def bytesIn : ℕ → ℕ → Option (List UInt8)
  | _, 0 => some []
  | pos, n + 1 => do
    let b ← bytes[pos]?
    let rest ← bytesIn (pos + 1) n
    return b :: rest

def finishRecordIn (atr : AtrT) (pointer : ℕ) : Option (AtrT × ℕ) :=
  if pointer + atr.hbn ≥ bytes.length then some (atr, scErrAtr)
  else do
    let copied ← bytesIn bytes (pointer + 1) atr.hbn
    let atr := { atr with hb := fun i => copied[i]?.getD (atr.hb i) }
    let pointer := pointer + atr.hbn
    if atr.TCK.present ≠ 0 then do
      let tail ← bytesIn bytes 1 (bytes.length - 1)
      if pointer + 1 ≥ bytes.length then some (atr, scErrAtr)
      else if tail.foldl (· ^^^ ·) 0 ≠ 0 then some (atr, scErrAtr)
      else do
        let tck ← bytes[pointer + 1]?
        some ({ atr with
                TCK := ⟨tck, atr.TCK.present⟩
                length := pointer + 1 + 1 }, 0)
    else some ({ atr with length := pointer + 1 }, 0)

/-- `ATR_InitFromArray`, where a read beyond the string has no result -/
def atrInitFromArrayIn (atr : AtrT) : Option (AtrT × ℕ) :=
  if bytes.length < 2 then some (atr, scErrAtr)
  else do
    let ts ← bytes[0]?
    let t0 ← bytes[1]?
    let start := { atr with
      TS := ts
      T0 := t0
      hbn := (t0 &&& 0x0F).toNat
      TCK := ⟨atr.TCK.value, 0⟩ }
    match ← interfaceBytesIn bytes atrMaxProtocols start t0 1 0 with
    | (atr, none) => some (atr, scErrAtr)
    | (atr, some (pointer, pn)) => finishRecordIn bytes { atr with pn := pn + 1 } pointer

end Strings

/-! ## No read leaves the string -/

section Reads

variable {bytes : List UInt8}

theorem bytesAt_bufferOf {pos n : ℕ} (h : pos + n ≤ bytes.length) :
    bytesAt (bufferOf bytes) pos n = (bytes.drop pos).take n := by
  induction n generalizing pos with
  | zero => rfl
  | succ n ih =>
    have hpos : pos < bytes.length := by omega
    rw [bytesAt, ih (by omega), List.drop_eq_getElem_cons hpos, List.take_succ_cons]
    simp [bufferOf, hpos]

theorem spells_iff_isPrefix {l : List UInt8} :
    (Spells (bufferOf bytes) 0 l ∧ l.length ≤ bytes.length) ↔ l <+: bytes := by
  constructor
  · rintro ⟨hspell, hlen⟩
    have heq := hspell.bytesAt_eq
    rw [bytesAt_bufferOf (by omega), List.drop_zero] at heq
    rw [← heq]
    exact List.take_prefix _ _
  · intro hl
    have hlen := hl.length_le
    refine ⟨?_, hlen⟩
    have heq := bytesAt_bufferOf (by omega : 0 + l.length ≤ bytes.length)
    rw [List.drop_zero, ← List.prefix_iff_eq_take.mp hl] at heq
    rw [← heq]
    exact spells_bytesAt _ _ _

theorem checkTck_bufferOf :
    checkTck (bufferOf bytes) bytes.length = bytes.tail.foldl (· ^^^ ·) 0 := by
  cases bytes with
  | nil => rfl
  | cons b bytes =>
    rw [checkTck, bytesAt_bufferOf (by simp only [List.length_cons]; omega)]
    simp

end Reads

/-! ## The reading of a string is unique -/

section Unique

end Unique

/-! ## The record is written back -/

/-- The bytes of a row, TD included -/
def AtrT.rowBytes (atr : AtrT) (i : ℕ) : List UInt8 :=
  (atr.byte i .TA).toList ++ (atr.byte i .TB).toList ++ (atr.byte i .TC).toList ++
    (atr.byte i .TD).toList

/-- T0, from the flags of the first row and the number of historical bytes -/
def AtrT.t0 (atr : AtrT) : UInt8 :=
  (if (atr.byte 0 .TA).isSome then 0x10 else 0) |||
    (if (atr.byte 0 .TB).isSome then 0x20 else 0) |||
    (if (atr.byte 0 .TC).isSome then 0x40 else 0) |||
    (if (atr.byte 0 .TD).isSome then 0x80 else 0) ||| UInt8.ofNat atr.hbn

/-- The bytes that a record stands for: TS, T0, `pn` rows, `hbn` historical bytes and TCK -/
def AtrT.encode (atr : AtrT) : List UInt8 :=
  atr.TS :: atr.t0 :: ((List.range atr.pn).flatMap atr.rowBytes ++
    (List.range atr.hbn).map atr.hb ++ if atr.TCK.present ≠ 0 then [atr.TCK.value] else [])

def Row.bytes (r : Row) : List UInt8 := r.group.bytes ++ r.td.toList

section Record

variable {buf : ℕ → UInt8} {length : ℕ} {h : AtrHead}

theorem accepted_iff_tck (hh : Holds buf length h) (hmore : h.more.length < atrMaxProtocols)
    (atr : AtrT) :
    (atrInitFromArray atr buf length).2 = 0 ↔
      lastTck 0 h.more = 0 ∨ (h.encode.length < length ∧ checkTck buf length = 0) := by
  by_cases hlast : lastTck 0 h.more = 0
  · exact iff_of_true (atrInitFromArray_noTck hh hmore hlast atr).1 (Or.inl hlast)
  · refine ⟨fun hacc => Or.inr ?_, fun hor => ?_⟩
    · have hhbn : (headRecord atr buf h).hbn = h.hist.length := hh.hbn_eq
      have htck : (headRecord atr buf h).TCK.present ≠ 0 := hlast
      have hlen := hh.length_le
      rw [Holds.length_encode] at hlen ⊢
      rw [atrInitFromArray_eq hh hmore, finishRecord, if_neg (by rw [hhbn]; omega)] at hacc
      simp only [htck, ne_eq, not_false_eq_true, if_true, hhbn] at hacc
      -- the last TD byte asks for TCK, so that all three tests were passed
      split_ifs at hacc with hend hxor
      · exact absurd hacc scErrAtr_ne_zero
      · exact ⟨by omega, hxor⟩
      · exact absurd hacc scErrAtr_ne_zero
    · obtain ⟨hlt, hxor⟩ := hor.resolve_left hlast
      exact (atrInitFromArray_tck hh hmore hlast hlt hxor atr).1

end Record

/-! ## The strings that are accepted -/

/-- The string starts with an ATR that has at most `ATR_MAX_PROTOCOLS` groups. If it has TCK, the
    exclusive-or of all bytes from T0 on vanishes. -/
structure WellFormed (bytes : List UInt8) (x : IsoAtr) : Prop where
  starts : x.encode <+: bytes
  room : x.more.length < atrMaxProtocols
  check : x.tck.isSome → bytes.tail.foldl (· ^^^ ·) 0 = 0

/-- The parser on a byte string, where the record before was `atr` -/
structure Exact (atr : AtrT) (bytes : List UInt8) : Prop where
  /-- the string is accepted if and only if it is well formed -/
  accepts : (atrInitFromArray atr (bufferOf bytes) bytes.length).2 = 0 ↔ ∃ x, WellFormed bytes x
  /-- the record of an accepted string is written back to the bytes that were consumed -/
  records : (atrInitFromArray atr (bufferOf bytes) bytes.length).2 = 0 →
    let record := (atrInitFromArray atr (bufferOf bytes) bytes.length).1
    record.length ≤ bytes.length ∧ record.encode = bytes.take record.length
  /-- no byte beyond the string is read -/
  reads : atrInitFromArrayIn bytes atr =
    some (atrInitFromArray atr (bufferOf bytes) bytes.length)

section Acceptance

variable {bytes : List UInt8} {atr : AtrT} {h : AtrHead}

theorem holds_iff : Holds (bufferOf bytes) bytes.length h ↔ h.encode <+: bytes := by
  rw [← spells_iff_isPrefix]
  exact ⟨fun hh => ⟨hh.spells, hh.length_le⟩, fun hh => ⟨hh.1, hh.2⟩⟩

theorem WellFormed.accepted {x : IsoAtr} (hx : WellFormed bytes x) (atr : AtrT) :
    (atrInitFromArray atr (bufferOf bytes) bytes.length).2 = 0 := by
  have hhead : x.toAtrHead.encode <+: bytes := (List.prefix_append _ _).trans hx.starts
  refine (accepted_iff_tck (holds_iff.mpr hhead) hx.room atr).mpr ?_
  by_cases htck : x.hasTck = true
  · have hlen := hx.starts.length_le
    rw [x.length_encode, htck, Bool.toNat_true] at hlen
    rw [Holds.length_encode, checkTck_bufferOf]
    exact Or.inr ⟨by omega, hx.check (x.tck_isSome.trans htck)⟩
  · exact Or.inl (lastTck_of_noTck (by simpa using htck))

end Acceptance

end NucKernel.SmartCard.Atr
