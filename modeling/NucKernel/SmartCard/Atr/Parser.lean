import NucKernel.SmartCard.Atr.Format

/-!
# Decoding an ATR: `ATR_InitFromArray`

The parser fills the record that the driver keeps for the card of an interface. It writes the groups
that the ATR has, and leaves the others as they were.

## Modelling

- `char` has no sign on this architecture, as the comparisons with `0xFF` need
- `ib` and `hb` are functions; only the first `ATR_MAX_PROTOCOLS` groups are read or written
- the buffer is a function from positions to bytes, and the length is passed beside it
- a run returns the record, with what was written before an error, and the code of the source
-/

namespace NucKernel.SmartCard.Atr

def scErrAtr : ℕ := 0x09

theorem scErrAtr_ne_zero : scErrAtr ≠ 0 := by decide

def atrMaxProtocols : ℕ := 7

inductive InterfaceByte
  | TA | TB | TC | TD
  deriving DecidableEq, Repr

/-- A byte of the record with the flag that it is there -/
structure Slot where
  value : UInt8
  present : UInt8
  deriving DecidableEq, Repr

/-- The interface bytes of all groups -/
abbrev Table := ℕ → InterfaceByte → Slot

structure AtrT where
  length : ℕ
  TS : UInt8
  T0 : UInt8
  ib : Table
  TCK : Slot
  pn : ℕ
  hb : ℕ → UInt8
  hbn : ℕ

def clearedRecord : AtrT := ⟨0, 0, 0, fun _ _ => ⟨0, 0⟩, ⟨0, 0⟩, 0, fun _ => 0, 0⟩

/-- A byte that is there is stored; for one that is not, only the flag is cleared. -/
def Slot.put (s : Slot) : Option UInt8 → Slot
  | some v => ⟨v, 1⟩
  | none => ⟨s.value, 0⟩

def putIb (ib : Table) (pn : ℕ) (k : InterfaceByte) (v : Option UInt8) : Table :=
  fun i j => if i = pn ∧ j = k then (ib i j).put v else ib i j

/-! ## The function -/

def atrNumIbTable : List ℕ := [0, 1, 1, 2, 1, 2, 2, 3, 1, 2, 2, 3, 2, 3, 3, 4]

def numIb (td : UInt8) : ℕ := atrNumIbTable.getD ((0xF0 &&& td) >>> 4).toNat 0

/-- TA, TB or TC of a group: it is there if the bit outside of the mask is set. -/
def readIb (buf : ℕ → UInt8) (td : UInt8) (pn : ℕ) (k : InterfaceByte) (mask : UInt8)
    (s : Table × ℕ) : Table × ℕ :=
  if td ||| mask = 0xFF then (putIb s.1 pn k (some (buf (s.2 + 1))), s.2 + 1)
  else (putIb s.1 pn k none, s.2)

def readGroup (buf : ℕ → UInt8) (td : UInt8) (pn : ℕ) (s : Table × ℕ) : Table × ℕ :=
  readIb buf td pn .TC 0xBF (readIb buf td pn .TB 0xDF (readIb buf td pn .TA 0xEF s))

/-- The loop over the groups, with the number of groups that are left. It ends with the pointer and
    the index of the last group, or with an error. -/
def interfaceBytes (buf : ℕ → UInt8) (length : ℕ) :
    ℕ → AtrT → UInt8 → ℕ → ℕ → AtrT × Option (ℕ × ℕ)
  | 0, atr, _, _, _ => (atr, none)
  | left + 1, atr, td, pointer, pn =>
    if pointer < length then
      if pointer + numIb td ≥ length then (atr, none)
      else
        let s := readGroup buf td pn (atr.ib, pointer)
        if td ||| 0x7F = 0xFF then
          let td' := buf (s.2 + 1)
          interfaceBytes buf length left
            { atr with
              ib := putIb s.1 pn .TD (some td')
              TCK := ⟨atr.TCK.value, if td' &&& 0x0F ≠ 0 then 1 else 0⟩ }
            td' (s.2 + 1) (pn + 1)
        else ({ atr with ib := putIb s.1 pn .TD none }, some (s.2, pn))
    else (atr, some (pointer, pn))

def startRecord (atr : AtrT) (buf : ℕ → UInt8) : AtrT :=
  { atr with
    TS := buf 0
    T0 := buf 1
    hbn := (buf 1 &&& 0x0F).toNat
    TCK := ⟨atr.TCK.value, 0⟩ }

/-- The exclusive-or of all bytes but TS -/
def checkTck (buf : ℕ → UInt8) (length : ℕ) : UInt8 :=
  (bytesAt buf 1 (length - 1)).foldl (· ^^^ ·) 0

def finishRecord (atr : AtrT) (buf : ℕ → UInt8) (length pointer : ℕ) : AtrT × ℕ :=
  if pointer + atr.hbn ≥ length then (atr, scErrAtr)
  else
    let atr := { atr with
      hb := fun i => if i < atr.hbn then buf (pointer + 1 + i) else atr.hb i }
    let pointer := pointer + atr.hbn
    if atr.TCK.present ≠ 0 then
      if pointer + 1 ≥ length then (atr, scErrAtr)
      else if checkTck buf length ≠ 0 then (atr, scErrAtr)
      else ({ atr with
              TCK := ⟨buf (pointer + 1), atr.TCK.present⟩
              length := pointer + 1 + 1 }, 0)
    else ({ atr with length := pointer + 1 }, 0)

def atrInitFromArray (atr : AtrT) (buf : ℕ → UInt8) (length : ℕ) : AtrT × ℕ :=
  if length < 2 then (atr, scErrAtr)
  else
    match interfaceBytes buf length atrMaxProtocols (startRecord atr buf) (buf 1) 1 0 with
    | (atr, none) => (atr, scErrAtr)
    | (atr, some (pointer, pn)) => finishRecord { atr with pn := pn + 1 } buf length pointer

/-! ## One group -/

structure Row where
  group : Group
  td : Option UInt8

def Row.get (r : Row) : InterfaceByte → Option UInt8
  | .TA => r.group.ta
  | .TB => r.group.tb
  | .TC => r.group.tc
  | .TD => r.td

def putRow (ib : Table) (pn : ℕ) (r : Row) : Table :=
  fun i j => if i = pn then (ib i j).put (r.get j) else ib i j

theorem numIb_headerByte (a b c d : Bool) (low : Fin 16) :
    numIb (headerByte a b c d low) = a.toNat + b.toNat + c.toNat + d.toNat := by
  revert a b c d low
  decide +kernel

theorem Group.length_bytes (g : Group) :
    g.bytes.length = g.ta.isSome.toNat + g.tb.isSome.toNat + g.tc.isSome.toNat := by
  obtain ⟨a, b, c⟩ := g
  cases a <;> cases b <;> cases c <;> rfl

theorem numIb_header (g : Group) (more : Bool) (low : Fin 16) :
    numIb (g.header more low) = g.bytes.length + more.toNat := by
  rw [Group.header, numIb_headerByte, Group.length_bytes]

theorem readGroup_eq {buf : ℕ → UInt8} {pointer : ℕ} {g : Group}
    (hg : Spells buf (pointer + 1) g.bytes) (more : Bool) (low : Fin 16) (pn : ℕ) (ib : Table) :
    readGroup buf (g.header more low) pn (ib, pointer) =
      (putIb (putIb (putIb ib pn .TA g.ta) pn .TB g.tb) pn .TC g.tc, pointer + g.bytes.length) := by
  obtain ⟨ha, hb, hc, -⟩ :=
    headerByte_or g.ta.isSome g.tb.isSome g.tc.isSome more low
  simp only [readGroup, readIb, Group.header, ha, hb, hc]
  obtain ⟨a, b, c⟩ := g
  cases a <;> cases b <;> cases c <;> simp_all [Group.bytes]

theorem putIb_td (ib : Table) (pn : ℕ) (g : Group) (td : Option UInt8) :
    putIb (putIb (putIb (putIb ib pn .TA g.ta) pn .TB g.tb) pn .TC g.tc) pn .TD td =
      putRow ib pn ⟨g, td⟩ := by
  funext i j
  by_cases hi : i = pn
  · cases j <;> simp [putIb, putRow, Row.get, hi]
  · simp [putIb, putRow, hi]

theorem header_td (g : Group) (more : Bool) (low : Fin 16) :
    g.header more low ||| 0x7F = 0xFF ↔ more = true :=
  (headerByte_or _ _ _ more low).2.2.2

theorem header_low (g : Group) (more : Bool) (low : Fin 16) :
    g.header more low &&& 0x0F = UInt8.ofNat low :=
  (headerByte_bits _ _ _ more low).2.2.2.2

theorem ofNat_fin_eq_zero (t : Fin 16) : UInt8.ofNat t = 0 ↔ t = 0 := by
  revert t
  decide

def tckFlag (t : Fin 16) : UInt8 := if t ≠ 0 then 1 else 0

section Group

variable {buf : ℕ → UInt8} {length left pointer pn : ℕ} {g : Group} {low : Fin 16} (atr : AtrT)

def addRow (atr : AtrT) (pn : ℕ) (g : Group) (td : UInt8) (t : Fin 16) : AtrT :=
  { atr with
    ib := putRow atr.ib pn ⟨g, some td⟩
    TCK := ⟨atr.TCK.value, tckFlag t⟩ }

theorem interfaceBytes_last (hg : Spells buf (pointer + 1) g.bytes)
    (hlen : pointer + g.bytes.length < length) :
    interfaceBytes buf length (left + 1) atr (g.header false low) pointer pn =
      ({ atr with ib := putRow atr.ib pn ⟨g, none⟩ }, some (pointer + g.bytes.length, pn)) := by
  have hin : ¬ pointer + numIb (g.header false low) ≥ length := by
    rw [numIb_header, Bool.toNat_false]
    omega
  rw [interfaceBytes, if_pos (by omega : pointer < length), if_neg hin, readGroup_eq hg]
  simp only [header_td, Bool.false_eq_true, if_false, putIb_td]

theorem interfaceBytes_more {g' : Group} {more : Bool} {t : Fin 16}
    (hg : Spells buf (pointer + 1) g.bytes)
    (htd : buf (pointer + g.bytes.length + 1) = g'.header more t)
    (hlen : pointer + g.bytes.length + 1 < length) :
    interfaceBytes buf length (left + 1) atr (g.header true low) pointer pn =
      interfaceBytes buf length left (addRow atr pn g (g'.header more t) t) (g'.header more t)
        (pointer + g.bytes.length + 1) (pn + 1) := by
  -- the test of the length is passed
  have hin : ¬ pointer + numIb (g.header true low) ≥ length := by
    rw [numIb_header, Bool.toNat_true]
    omega
  rw [interfaceBytes, if_pos (by omega : pointer < length), if_neg hin, readGroup_eq hg]
  simp only [header_td, if_true, htd, putIb_td, header_low, ne_eq, ofNat_fin_eq_zero]
  rfl

theorem interfaceBytes_short {more : Bool}
    (hlen : length ≤ pointer + g.bytes.length + more.toNat) (hp : pointer < length) :
    interfaceBytes buf length (left + 1) atr (g.header more low) pointer pn = (atr, none) := by
  rw [interfaceBytes, if_pos hp, if_pos]
  rw [numIb_header]
  omega

end Group

/-! ## All groups -/

def rows : Group → List (Fin 16 × Group) → List Row
  | g, [] => [⟨g, none⟩]
  | g, (t, g') :: more => ⟨g, some (g'.header (!more.isEmpty) t)⟩ :: rows g' more

def putRows (ib : Table) (pn : ℕ) : List Row → Table
  | [] => ib
  | r :: rs => putRows (putRow ib pn r) (pn + 1) rs

/-- `TCK.present` is what the last TD byte says. -/
def lastTck (present : UInt8) : List (Fin 16 × Group) → UInt8
  | [] => present
  | (t, _) :: more => lastTck (tckFlag t) more

def addRows (atr : AtrT) (pn : ℕ) (g : Group) (more : List (Fin 16 × Group)) : AtrT :=
  { atr with
    ib := putRows atr.ib pn (rows g more)
    TCK := ⟨atr.TCK.value, lastTck atr.TCK.present more⟩ }

variable {buf : ℕ → UInt8} {length : ℕ}

theorem interfaceBytes_eq {left pointer pn : ℕ} {g : Group} {more : List (Fin 16 × Group)}
    {low : Fin 16} (atr : AtrT) (hspell : Spells buf (pointer + 1) (encodeGroups g more))
    (hlen : pointer + (encodeGroups g more).length < length) (hleft : more.length < left) :
    interfaceBytes buf length left atr (g.header (!more.isEmpty) low) pointer pn =
      (addRows atr pn g more,
        some (pointer + (encodeGroups g more).length, pn + more.length)) := by
  -- one group a round
  induction more generalizing left atr pointer pn g low with
  | nil =>
    obtain ⟨left, rfl⟩ : ∃ n, left = n + 1 := ⟨left - 1, by simp at hleft; omega⟩
    exact interfaceBytes_last atr hspell hlen
  | cons m more ih =>
    obtain ⟨t, g'⟩ := m
    obtain ⟨left, rfl⟩ : ∃ n, left = n + 1 := ⟨left - 1, by simp at hleft; omega⟩
    simp only [encodeGroups, spells_append, spells_cons] at hspell
    simp only [encodeGroups, List.length_append, List.length_cons] at hlen ⊢
    obtain ⟨hg, htd, hrest⟩ := hspell
    have hnext : pointer + 1 + g.bytes.length = pointer + g.bytes.length + 1 := by omega
    rw [hnext] at htd hrest
    rw [List.isEmpty_cons, Bool.not_false, interfaceBytes_more atr hg htd (by omega),
      ih _ hrest (by omega) (by simpa using hleft)]
    -- the pointer and the number of groups add up
    refine Prod.ext rfl ?_
    simp only [Option.some.injEq, Prod.mk.injEq]
    omega

theorem interfaceBytes_tooMany {left pointer : ℕ} {g : Group} {more : List (Fin 16 × Group)}
    (atr : AtrT) (low : Fin 16) (pn : ℕ) (hspell : Spells buf (pointer + 1) (encodeGroups g more))
    (hlen : pointer + (encodeGroups g more).length < length) (hleft : left ≤ more.length) :
    (interfaceBytes buf length left atr (g.header (!more.isEmpty) low) pointer pn).2 = none := by
  induction more generalizing left atr pointer pn g low with
  | nil =>
    obtain rfl : left = 0 := by simpa using hleft
    rfl
  | cons m more ih =>
    obtain ⟨t, g'⟩ := m
    cases left with
    -- the rounds are used up
    | zero => rfl
    | succ left =>
      simp only [encodeGroups, spells_append, spells_cons] at hspell
      simp only [encodeGroups, List.length_append, List.length_cons] at hlen
      obtain ⟨hg, htd, hrest⟩ := hspell
      have hnext : pointer + 1 + g.bytes.length = pointer + g.bytes.length + 1 := by omega
      rw [hnext] at htd hrest
      -- one more group is read, and one round less is left
      rw [List.isEmpty_cons, Bool.not_false, interfaceBytes_more atr hg htd (by omega)]
      exact ih _ _ _ hrest (by omega) (by simpa using hleft)

theorem groups_of_interfaceBytes {left pointer pn : ℕ} {td : UInt8} {atr : AtrT} {r : ℕ × ℕ}
    (hp : pointer < length)
    (h : (interfaceBytes buf length left atr td pointer pn).2 = some r) :
    ∃ g more low, td = Group.header g (!more.isEmpty) low ∧
      Spells buf (pointer + 1) (encodeGroups g more) ∧
      pointer + (encodeGroups g more).length < length ∧ more.length < left := by
  induction left generalizing atr td pointer pn with
  | zero => simp [interfaceBytes] at h
  | succ left ih =>
    have hg := spells_groupAt buf td (pointer + 1)
    obtain ⟨low, htd⟩ := header_groupAt buf td (pointer + 1)
    generalize groupAt buf td (pointer + 1) = g at hg htd
    -- the group is within the length, as there was no error
    by_cases hlen : length ≤ pointer + g.bytes.length + (td &&& 0x80 != 0).toNat
    · rw [htd, interfaceBytes_short atr hlen hp] at h
      exact absurd h (by simp)
    cases hd : td &&& 0x80 != 0 with
    | false =>
      rw [hd, Bool.toNat_false] at hlen
      -- this is the last group
      exact ⟨g, [], low, by rw [htd, hd]; rfl, hg, by simpa [encodeGroups] using hlen,
        Nat.succ_pos _⟩
    | true =>
      rw [hd, Bool.toNat_true] at hlen
      rw [htd, hd] at h
      -- the TD byte announces a group as well
      obtain ⟨low', htd'⟩ := header_groupAt buf (buf (pointer + g.bytes.length + 1)) 0
      rw [interfaceBytes_more atr hg htd' (by omega), ← htd'] at h
      obtain ⟨g', more, t, htd'', hspell, hlen', hleft⟩ := ih (by omega) h
      have hnext : pointer + 1 + g.bytes.length = pointer + g.bytes.length + 1 := by omega
      refine ⟨g, (t, g') :: more, low, by rw [htd, hd]; rfl, ?_, ?_, Nat.succ_lt_succ hleft⟩
      · -- TD and the groups behind it follow the bytes of this one
        rw [encodeGroups, spells_append, spells_cons, hnext]
        exact ⟨hg, htd'', hspell⟩
      · simp only [encodeGroups, List.length_append, List.length_cons]
        omega

/-! ## The whole ATR -/

structure Holds (buf : ℕ → UInt8) (length : ℕ) (h : AtrHead) : Prop where
  spells : Spells buf 0 h.encode
  length_le : h.encode.length ≤ length

namespace Holds

variable {h : AtrHead}

theorem t0_eq (hh : Holds buf length h) : buf 1 = h.t0 := hh.spells.2.1

theorem groups (hh : Holds buf length h) :
    Spells buf 2 (encodeGroups h.first h.more) := by
  have hs := hh.spells.2.2
  rw [spells_append] at hs
  exact hs.1

theorem length_encode (h : AtrHead) :
    h.encode.length = 2 + (encodeGroups h.first h.more).length + h.hist.length := by
  simp only [AtrHead.encode, List.length_cons, List.length_append]
  omega

theorem hbn_eq (hh : Holds buf length h) : (buf 1 &&& 0x0F).toNat = h.hist.length := by
  rw [hh.t0_eq, AtrHead.t0, header_low]
  have := h.hist_lt
  simp only [UInt8.toNat_ofNat']
  omega

end Holds

def headRecord (atr : AtrT) (buf : ℕ → UInt8) (h : AtrHead) : AtrT :=
  { addRows (startRecord atr buf) 0 h.first h.more with pn := 0 + h.more.length + 1 }

theorem atrInitFromArray_eq {h : AtrHead} (hh : Holds buf length h)
    (hmore : h.more.length < atrMaxProtocols) (atr : AtrT) :
    atrInitFromArray atr buf length =
      finishRecord (headRecord atr buf h) buf length
        (1 + (encodeGroups h.first h.more).length) := by
  have hlen := hh.length_le
  rw [Holds.length_encode] at hlen
  rw [atrInitFromArray, if_neg (by omega : ¬ length < 2), hh.t0_eq, AtrHead.t0,
    interfaceBytes_eq _ hh.groups (by omega) hmore]
  rfl

theorem atrInitFromArray_tooMany {h : AtrHead} (hh : Holds buf length h)
    (hmore : atrMaxProtocols ≤ h.more.length) (atr : AtrT) :
    (atrInitFromArray atr buf length).2 = scErrAtr := by
  have hlen := hh.length_le
  rw [Holds.length_encode] at hlen
  have hnone := interfaceBytes_tooMany (startRecord atr buf) ⟨h.hist.length, h.hist_lt⟩ 0 hh.groups
    (by omega : _ < length) hmore
  rw [← AtrHead.t0, ← hh.t0_eq] at hnone
  rw [atrInitFromArray, if_neg (by omega : ¬ length < 2)]
  -- the loop ends with an error
  split
  · rfl
  · rename_i heq
    rw [heq] at hnone
    exact absurd hnone (by simp)

theorem finishRecord_ib (atr : AtrT) (pointer : ℕ) :
    (finishRecord atr buf length pointer).1.ib = atr.ib := by
  unfold finishRecord
  simp only
  split_ifs <;> rfl

def AtrHead.rows (h : AtrHead) : List Row := Atr.rows h.first h.more

theorem atrInitFromArray_ib {h : AtrHead} (hh : Holds buf length h)
    (hmore : h.more.length < atrMaxProtocols) (atr : AtrT) :
    (atrInitFromArray atr buf length).1.ib = putRows atr.ib 0 h.rows := by
  rw [atrInitFromArray_eq hh hmore, finishRecord_ib]
  rfl

theorem atrInitFromArray_noTck {h : AtrHead} (hh : Holds buf length h)
    (hmore : h.more.length < atrMaxProtocols) (hlast : lastTck 0 h.more = 0) (atr : AtrT) :
    (atrInitFromArray atr buf length).2 = 0 ∧
      (atrInitFromArray atr buf length).1.length = h.encode.length := by
  have hlen := hh.length_le
  have hhbn : (headRecord atr buf h).hbn = h.hist.length := hh.hbn_eq
  have htck : (headRecord atr buf h).TCK.present = 0 := hlast
  rw [Holds.length_encode] at hlen ⊢
  rw [atrInitFromArray_eq hh hmore, finishRecord, if_neg (by rw [hhbn]; omega)]
  -- no byte behind the historical bytes is looked at
  simp only [htck, ne_eq, not_true_eq_false, if_false, hhbn, true_and]
  omega

theorem atrInitFromArray_tck {h : AtrHead} (hh : Holds buf length h)
    (hmore : h.more.length < atrMaxProtocols) (hlast : lastTck 0 h.more ≠ 0)
    (hlt : h.encode.length < length) (hxor : checkTck buf length = 0) (atr : AtrT) :
    (atrInitFromArray atr buf length).2 = 0 ∧
      (atrInitFromArray atr buf length).1.length = h.encode.length + 1 := by
  have hhbn : (headRecord atr buf h).hbn = h.hist.length := hh.hbn_eq
  have htck : (headRecord atr buf h).TCK.present ≠ 0 := hlast
  rw [Holds.length_encode] at hlt ⊢
  rw [atrInitFromArray_eq hh hmore, finishRecord, if_neg (by rw [hhbn]; omega)]
  simp only [htck, ne_eq, not_false_eq_true, if_true, hhbn, hxor, not_true_eq_false, if_false]
  -- there is a byte for TCK
  rw [if_neg (by omega)]
  exact ⟨rfl, by simp only; omega⟩

theorem head_of_accepted {atr : AtrT} (hacc : (atrInitFromArray atr buf length).2 = 0) :
    ∃ h, Holds buf length h ∧ h.more.length < atrMaxProtocols := by
  rw [atrInitFromArray] at hacc
  split at hacc
  · -- the string is too short, or the loop fails
    exact absurd hacc scErrAtr_ne_zero
  rename_i hlen
  split at hacc
  · exact absurd hacc scErrAtr_ne_zero
  rename_i atr' pointer pn heq
  have hloop := congrArg Prod.snd heq
  obtain ⟨g, more, low, ht0, hspell, hin, hmore⟩ := groups_of_interfaceBytes (by omega) hloop
  rw [ht0, interfaceBytes_eq _ hspell hin hmore] at heq
  simp only [Prod.mk.injEq, Option.some.injEq] at heq
  obtain ⟨rfl, rfl, rfl⟩ := heq
  obtain ⟨h, hhead, rfl, rfl, hhist⟩ := exists_head ht0 hspell
  refine ⟨h, ⟨hhead, ?_⟩, hmore⟩
  -- the historical bytes have to fit
  have hlow : (buf 1 &&& 0x0F).toNat = low := by
    rw [ht0, header_low, UInt8.toNat_ofNat']
    omega
  rw [Holds.length_encode, hhist]
  by_contra hno
  rw [finishRecord, if_pos] at hacc
  · exact absurd hacc scErrAtr_ne_zero
  · change 1 + (encodeGroups h.first h.more).length + (buf 1 &&& 0x0F).toNat ≥ length
    rw [hlow]
    omega

end NucKernel.SmartCard.Atr
