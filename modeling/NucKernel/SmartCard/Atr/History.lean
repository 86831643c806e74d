import NucKernel.SmartCard.Atr.Session
import Mathlib.Data.Fintype.Card

/-!
# What an earlier card leaves in the record

`SC_IOC_ACTIVATE` does not clear the record, as `SC_IOC_DEACTIVATE` and the removal of a card do.
`ATR_InitFromArray` clears the flags of the groups that the new ATR has, and the functions that read
the record look at all groups. So the parameters of a session are those of the card if its ATR
leaves nothing open: it has all groups, or it names the protocol in TA2 and, for T=1, has every
parameter of the protocol itself. This condition is exact (`historyIndependent_iff`).
-/

namespace NucKernel.SmartCard.Atr

open NucKernel.SmartCard.T1 (Checksum)

/-! ## The record after an ATR -/

section Rows

variable {pn i : ℕ} {rs : List Row} (ib : Table) (k : InterfaceByte)

theorem putRows_outside (h : i < pn ∨ pn + rs.length ≤ i) : putRows ib pn rs i k = ib i k := by
  induction rs generalizing ib pn with
  | nil => rfl
  | cons r rs ih =>
    rw [List.length_cons] at h
    rw [putRows, ih _ (by omega), putRow, if_neg (by omega)]

variable (pn) in
theorem putRows_inside {r : Row} (h : rs[i]? = some r) :
    putRows ib pn rs (pn + i) k = (ib (pn + i) k).put (r.get k) := by
  induction rs generalizing ib pn i with
  | nil => simp at h
  | cons r' rs ih =>
    cases i with
    | zero =>
      -- the first row goes to this place
      obtain rfl : r' = r := by simpa using h
      rw [putRows, putRows_outside _ _ (by omega), Nat.add_zero, putRow, if_pos rfl]
    | succ i =>
      -- the others go behind it
      rw [putRows, show pn + (i + 1) = pn + 1 + i by omega, ih _ _ (by simpa using h), putRow,
        if_neg (by omega)]

theorem length_rows (g : Group) (more : List (Fin 16 × Group)) :
    (rows g more).length = more.length + 1 := by
  induction more generalizing g with
  | nil => rfl
  | cons m more ih => rw [rows, List.length_cons, ih, List.length_cons]

theorem map_group_rows (g : Group) (more : List (Fin 16 × Group)) :
    (rows g more).map Row.group = g :: more.map (·.2) := by
  induction more generalizing g with
  | nil => rfl
  | cons m more ih => rw [rows, List.map_cons, ih, List.map_cons]

theorem td_rows {g : Group} {more : List (Fin 16 × Group)} {r : Row} {td : UInt8}
    (hr : r ∈ rows g more) (htd : r.td = some td) :
    ∃ m ∈ more, td &&& 0x0F = UInt8.ofNat m.1 := by
  induction more generalizing g with
  | nil =>
    rw [rows, List.mem_singleton] at hr
    -- the last group has no TD
    subst hr
    cases htd
  | cons m more ih =>
    rw [rows, List.mem_cons] at hr
    obtain rfl | hr := hr
    · -- TD announces the next group
      obtain rfl := Option.some.inj htd
      exact ⟨m, List.mem_cons_self, header_low _ _ _⟩
    · obtain ⟨m', hm', h⟩ := ih hr
      exact ⟨m', List.mem_cons_of_mem _ hm', h⟩

end Rows

section Record

variable {buf : ℕ → UInt8} {length : ℕ} {h : AtrHead}

/-- The record after an ATR, where the prior one was `atr` -/
def parsed (buf : ℕ → UInt8) (length : ℕ) (atr : AtrT) : AtrT := (atrInitFromArray atr buf length).1

theorem byte_parsed (hh : Holds buf length h) (hmore : h.more.length < atrMaxProtocols) {i : ℕ}
    {r : Row} (hr : h.rows[i]? = some r) (k : InterfaceByte) (atr : AtrT) :
    (parsed buf length atr).byte i k = r.get k := by
  have hput := putRows_inside 0 atr.ib k hr
  rw [Nat.zero_add] at hput
  rw [AtrT.byte, parsed, atrInitFromArray_ib hh hmore, hput]
  cases r.get k <;> rfl

theorem byte_stale (hh : Holds buf length h) (hmore : h.more.length < atrMaxProtocols) {i : ℕ}
    (hi : h.rows.length ≤ i) (k : InterfaceByte) (atr : AtrT) :
    (parsed buf length atr).byte i k = atr.byte i k := by
  have hput := putRows_outside atr.ib k (Or.inr (by omega : 0 + h.rows.length ≤ i))
  rw [AtrT.byte, parsed, atrInitFromArray_ib hh hmore, hput]
  rfl

theorem waitingInteger_parsed (hh : Holds buf length h) (hmore : h.more.length < atrMaxProtocols)
    {r : Row} (hr : h.rows[1]? = some r) (atr : AtrT) :
    waitingInteger (parsed buf length atr) = ((r.get .TC).map UInt8.toNat).getD 10 := by
  have hput := putRows_inside 0 atr.ib .TC hr
  rw [Nat.zero_add] at hput
  rw [waitingInteger, parsed, atrInitFromArray_ib hh hmore, hput]
  cases r.get .TC <;> rfl

end Record

/-! ## What the functions read -/

theorem atrGetParameter_congr {x y : AtrT} (h0 : ∀ k, x.byte 0 k = y.byte 0 k) (name : Parameter) :
    atrGetParameter x name = atrGetParameter y name := by
  cases name <;> simp only [atrGetParameter, atrGetIntegerValue, h0]

theorem setSpeed_congr {x y : AtrT} (h0 : ∀ k, x.byte 0 k = y.byte 0 k) (sc : Params)
    (pps1 : UInt8) : setSpeed x sc pps1 = setSpeed y sc pps1 := by
  simp only [setSpeed, h0, atrGetParameter_congr h0]

theorem negotiate_congr {x y : AtrT} (hp : atrGetDefaultProtocol x = atrGetDefaultProtocol y)
    (h0 : ∀ k, x.byte 0 k = y.byte 0 k) (hta2 : x.byte 1 .TA = y.byte 1 .TA) (emv : Bool)
    (answer : PpsAnswer) (sc : Params) (pps1 pps2 : UInt8) :
    negotiate emv answer x sc pps1 pps2 = negotiate emv answer y sc pps1 pps2 := by
  simp only [negotiate, hp, h0, hta2]

theorem setT0_congr {x y : AtrT} (h0 : ∀ k, x.byte 0 k = y.byte 0 k)
    (hwi : waitingInteger x = waitingInteger y) (sc : Params) (protocol : ℕ) :
    setT0 x sc protocol = setT0 y sc protocol := by
  simp only [setT0, hwi, atrGetParameter_congr h0]

/-- `ATR_Parse` depends on the record through the protocol, the first group, TA2, TC2 and, for T=1,
    the parameters of that protocol. -/
theorem atrParse_congr {x y : AtrT} (hp : atrGetDefaultProtocol x = atrGetDefaultProtocol y)
    (h0 : ∀ k, x.byte 0 k = y.byte 0 k) (hta2 : x.byte 1 .TA = y.byte 1 .TA)
    (hwi : waitingInteger x = waitingInteger y)
    (ht1 : (atrGetDefaultProtocol y).1 = 1 → ∀ sc, setT1 x sc = setT1 y sc) (emv : Bool)
    (answer : PpsAnswer) (sc : Params) :
    atrParse emv answer sc x = atrParse emv answer sc y := by
  simp only [atrParse, hp, setSpeed_congr h0, negotiate_congr hp h0 hta2, setT0_congr h0 hwi]
  by_cases h1 : (atrGetDefaultProtocol y).1 = 1
  · simp only [h1, ht1 h1]
  · simp only [h1, if_false]

theorem chooseEdc_congr {f f' : ℕ → Option UInt8} {l m : List ℕ} (hl : ∀ i ∈ l, f i = f' i)
    (hm : m = [] ∨ ∃ i ∈ l, (f i).isSome) (edc : Checksum) :
    chooseEdc f (l ++ m) edc = chooseEdc f' (l ++ m) edc := by
  induction l generalizing edc with
  | nil =>
    obtain rfl | ⟨i, hi, -⟩ := hm
    · rfl
    · cases hi
  | cons i l ih =>
    have hi := hl i List.mem_cons_self
    simp only [List.cons_append, chooseEdc, ← hi]
    cases hf : f i with
    -- the loop ends with this byte
    | some v => rfl
    | none =>
      refine ih (fun j hj => hl j (List.mem_cons_of_mem _ hj)) ?_ _
      refine hm.imp_right ?_
      rintro ⟨j, hj, hsome⟩
      obtain rfl | hj := List.mem_cons.mp hj
      · -- this group has no such byte, so that it is one of the others
        rw [hf] at hsome
        cases hsome
      · exact ⟨j, hj, hsome⟩

theorem findSome_congr {f f' : ℕ → Option UInt8} {l m : List ℕ} (hl : ∀ i ∈ l, f i = f' i)
    (hm : m = [] ∨ ∃ i ∈ l, (f i).isSome) :
    (l ++ m).findSome? f = (l ++ m).findSome? f' := by
  have heq : l.findSome? f = l.findSome? f' := by
    clear hm
    induction l with
    | nil => rfl
    | cons i l ih =>
      rw [List.findSome?_cons, List.findSome?_cons, hl i List.mem_cons_self,
        ih fun j hj => hl j (List.mem_cons_of_mem _ hj)]
  rw [List.findSome?_append, List.findSome?_append, ← heq]
  obtain rfl | hsome := hm
  · rfl
  · -- a byte found in the first part is the result
    obtain ⟨i, hi, hfi⟩ := hsome
    have : (l.findSome? f).isSome := List.findSome?_isSome_iff.mpr ⟨i, hi, hfi⟩
    obtain ⟨v, hv⟩ := Option.isSome_iff_exists.mp this
    rw [hv]
    rfl

theorem atrGetDefaultProtocol_specific {x : AtrT} {ta2 : UInt8} (h : x.byte 1 .TA = some ta2) :
    atrGetDefaultProtocol x = ((ta2 &&& 0x0F).toNat, 1 <<< (ta2 &&& 0x0F).toNat) := by
  simp only [atrGetDefaultProtocol, h]

theorem atrGetDefaultProtocol_congr {x y : AtrT}
    (h : ∀ i < atrMaxProtocols, ∀ k, x.byte i k = y.byte i k) :
    atrGetDefaultProtocol x = atrGetDefaultProtocol y := by
  have hfold : (List.range atrMaxProtocols).foldl (findProtocol x) (none, 0) =
      (List.range atrMaxProtocols).foldl (findProtocol y) (none, 0) := by
    refine List.foldl_ext _ _ _ fun s i hi => ?_
    simp only [findProtocol, h i (List.mem_range.mp hi)]
  simp only [atrGetDefaultProtocol, hfold, h 1 (by decide)]

/-! ## The protocols that the record makes available -/

theorem testBit_findProtocol (x : AtrT) (l : List ℕ) (s : Option ℕ × ℕ) (t : ℕ) :
    (l.foldl (findProtocol x) s).2.testBit t =
      (s.2.testBit t || l.any fun i => (x.byte i .TD).any fun td => (td &&& 0x0F).toNat = t) := by
  induction l generalizing s with
  | nil => simp
  | cons i l ih =>
    rw [List.foldl_cons, ih, List.any_cons, findProtocol]
    cases x.byte i .TD with
    | none => simp
    | some td =>
      -- the bit of this protocol is added
      simp only [Nat.testBit_or, Nat.one_shiftLeft, Nat.testBit_two_pow, Option.any_some,
        Bool.or_assoc]

theorem noTd_of_findProtocol {x : AtrT} {l : List ℕ} {s : Option ℕ × ℕ}
    (h : (l.foldl (findProtocol x) s).1 = none) : s.1 = none ∧ ∀ i ∈ l, x.byte i .TD = none := by
  induction l generalizing s with
  | nil => exact ⟨h, by simp⟩
  | cons i l ih =>
    obtain ⟨hs, hl⟩ := ih h
    rw [findProtocol] at hs
    cases htd : x.byte i .TD with
    | none =>
      rw [htd] at hs
      exact ⟨hs, by simpa [htd] using hl⟩
    | some td =>
      rw [htd] at hs
      -- the protocol was found
      cases hs

theorem available_iff {x : AtrT} {t : ℕ} (ht : t ≠ 0) (hta2 : x.byte 1 .TA = none) :
    (atrGetDefaultProtocol x).2.testBit t ↔
      ∃ i < atrMaxProtocols, ∃ td, x.byte i .TD = some td ∧ (td &&& 0x0F).toNat = t := by
  have hbit := testBit_findProtocol x (List.range atrMaxProtocols) (none, 0) t
  simp only [atrGetDefaultProtocol, hta2]
  cases hs : ((List.range atrMaxProtocols).foldl (findProtocol x) (none, 0)).1 with
  | some protocol => simp [hbit, Option.any_eq_true]
  | none =>
    -- without a TD byte, T=0 is the only protocol
    have hno := (noTd_of_findProtocol hs).2
    simp only [List.mem_range] at hno
    constructor
    · intro h
      rw [Nat.one_shiftLeft, Nat.testBit_two_pow] at h
      simp only [decide_eq_true_eq] at h
      exact absurd h.symm ht
    · rintro ⟨i, hi, td, htd, -⟩
      rw [hno i hi] at htd
      cases htd

/-! ## ATRs that leave nothing open -/

def outputs (emv : Bool) (answer : PpsAnswer) (sc : Params) (atr : AtrT) :
    (ℕ × ℕ) × (Parameter → Option ℕ) × (Params × ℕ) :=
  (atrGetDefaultProtocol atr, atrGetParameter atr, atrParse emv answer sc atr)

def HistoryIndependent (emv : Bool) (buf : ℕ → UInt8) (length : ℕ) : Prop :=
  ∀ answer sc atr atr',
    outputs emv answer sc (parsed buf length atr) = outputs emv answer sc (parsed buf length atr')

def AtrHead.ta2 (h : AtrHead) : Option UInt8 := h.groups[1]?.bind Group.ta

/-- The groups that have parameters of T=1 have each of them. -/
structure StatesT1 (h : AtrHead) : Prop where
  ta : ∃ g ∈ h.groups.drop 2, g.ta.isSome
  tb : ∃ g ∈ h.groups.drop 2, g.tb.isSome
  tc : ∃ g ∈ h.groups.drop 2, g.tc.isSome

/-- The ATR has all groups, or it has TA2 and, if that names T=1, all parameters of T=1. -/
def NothingOpen (h : AtrHead) : Prop :=
  h.groups.length = atrMaxProtocols ∨
    ∃ ta2, h.ta2 = some ta2 ∧ ((ta2 &&& 0x0F).toNat = 1 → StatesT1 h)

theorem AtrHead.groups_eq (h : AtrHead) : h.groups = h.rows.map Row.group :=
  (map_group_rows h.first h.more).symm

theorem AtrHead.length_rows (h : AtrHead) : h.rows.length = h.more.length + 1 :=
  Atr.length_rows h.first h.more

theorem AtrHead.length_groups (h : AtrHead) : h.groups.length = h.rows.length := by
  rw [h.groups_eq, List.length_map]

theorem ta2_eq_some {h : AtrHead} {ta2 : UInt8} :
    h.ta2 = some ta2 ↔ ∃ r, h.rows[1]? = some r ∧ r.get .TA = some ta2 := by
  rw [AtrHead.ta2, h.groups_eq, List.getElem?_map]
  cases h.rows[1]? <;> simp [Row.get]

theorem exists_late_group {h : AtrHead} {p : Group → Prop} :
    (∃ g ∈ h.groups.drop 2, p g) ↔ ∃ i r, 2 ≤ i ∧ h.rows[i]? = some r ∧ p r.group := by
  rw [h.groups_eq, ← List.map_drop]
  constructor
  · rintro ⟨g, hg, hp⟩
    -- counted from the third group on
    obtain ⟨r, hr, rfl⟩ := List.mem_map.mp hg
    obtain ⟨i, hi⟩ := List.mem_iff_getElem?.mp hr
    rw [List.getElem?_drop] at hi
    exact ⟨2 + i, r, by omega, hi, hp⟩
  · rintro ⟨i, r, h2, hi, hp⟩
    obtain ⟨j, rfl⟩ := Nat.exists_eq_add_of_le h2
    rw [← List.getElem?_drop] at hi
    exact ⟨r.group, List.mem_map_of_mem (List.mem_of_getElem? hi), hp⟩

/-! ## Nothing open is enough -/

section Agree

variable {buf : ℕ → UInt8} {length : ℕ} {h : AtrHead}

theorem byte_agree (hh : Holds buf length h) (hmore : h.more.length < atrMaxProtocols) {i : ℕ}
    (hi : i < h.rows.length) (k : InterfaceByte) (atr atr' : AtrT) :
    (parsed buf length atr).byte i k = (parsed buf length atr').byte i k := by
  have hr := List.getElem?_eq_getElem hi
  rw [byte_parsed hh hmore hr, byte_parsed hh hmore hr]

theorem t1Groups_split {n : ℕ} (h2 : 2 ≤ n) (h7 : n ≤ atrMaxProtocols) :
    t1Groups = List.range' 2 (n - 2) ++ List.range' n (atrMaxProtocols - n) := by
  have hall : ∀ n ≤ atrMaxProtocols, 2 ≤ n →
      t1Groups = List.range' 2 (n - 2) ++ List.range' n (atrMaxProtocols - n) := by decide
  exact hall n h7 h2

theorem setT1_congr {x y : AtrT} {n : ℕ} (h2 : 2 ≤ n) (h7 : n ≤ atrMaxProtocols)
    (hagree : ∀ i < n, ∀ k, x.byte i k = y.byte i k)
    (hstated : ∀ k ≠ .TD, n = atrMaxProtocols ∨ ∃ i, 2 ≤ i ∧ i < n ∧ (x.byte i k).isSome)
    (sc : Params) : setT1 x sc = setT1 y sc := by
  have hl : ∀ k, ∀ i ∈ List.range' 2 (n - 2), x.byte i k = y.byte i k := by
    intro k i hi
    rw [List.mem_range'_1] at hi
    exact hagree i (by omega) k
  have hm : ∀ k ≠ .TD, List.range' n (atrMaxProtocols - n) = [] ∨
      ∃ i ∈ List.range' 2 (n - 2), (x.byte i k).isSome := by
    intro k hk
    -- no group is left, or the byte was found
    obtain rfl | ⟨i, hi, hin, hsome⟩ := hstated k hk
    · exact Or.inl (by simp)
    · exact Or.inr ⟨i, List.mem_range'_1.mpr (by omega), hsome⟩
  have hfirst : ∀ k ≠ .TD, firstByte x k = firstByte y k := by
    intro k hk
    rw [firstByte, firstByte, t1Groups_split h2 h7]
    exact findSome_congr (hl k) (hm k hk)
  have hedc : chooseEdc (fun i => x.byte i .TC) t1Groups sc.EDC =
      chooseEdc (fun i => y.byte i .TC) t1Groups sc.EDC := by
    rw [t1Groups_split h2 h7]
    exact chooseEdc_congr (hl .TC) (hm .TC (by decide)) _
  simp only [setT1, hedc, hfirst .TA (by decide), hfirst .TB (by decide)]

theorem StatesT1.stated (hst : StatesT1 h) (hh : Holds buf length h)
    (hmore : h.more.length < atrMaxProtocols) (atr : AtrT) (k : InterfaceByte) (hk : k ≠ .TD) :
    ∃ i, 2 ≤ i ∧ i < h.rows.length ∧ ((parsed buf length atr).byte i k).isSome := by
  have hrow : ∃ i r, 2 ≤ i ∧ h.rows[i]? = some r ∧ (r.get k).isSome := by
    cases k with
    | TA => exact exists_late_group.mp hst.ta
    | TB => exact exists_late_group.mp hst.tb
    | TC => exact exists_late_group.mp hst.tc
    | TD => exact absurd rfl hk
  obtain ⟨i, r, h2, hr, hsome⟩ := hrow
  refine ⟨i, h2, (List.getElem?_eq_some_iff.mp hr).1, ?_⟩
  rw [byte_parsed hh hmore hr]
  exact hsome

theorem historyIndependent_of_nothingOpen (hh : Holds buf length h)
    (hmore : h.more.length < atrMaxProtocols) (hopen : NothingOpen h) (emv : Bool) :
    HistoryIndependent emv buf length := by
  intro answer sc atr atr'
  have hlen := h.length_rows
  have hagree := fun i (hi : i < h.rows.length) k => byte_agree hh hmore hi k atr atr'
  -- in both cases the second group is there, the protocol is the same, and so are its parameters
  have hkey : 2 ≤ h.rows.length ∧
      atrGetDefaultProtocol (parsed buf length atr) =
        atrGetDefaultProtocol (parsed buf length atr') ∧
      ((atrGetDefaultProtocol (parsed buf length atr')).1 = 1 → ∀ k ≠ .TD,
        h.rows.length = atrMaxProtocols ∨
          ∃ i, 2 ≤ i ∧ i < h.rows.length ∧ ((parsed buf length atr).byte i k).isSome) := by
    obtain hall | ⟨ta2, hta2, hst⟩ := hopen
    · -- the ATR has all groups
      rw [h.length_groups] at hall
      refine ⟨by rw [hall]; decide, ?_, fun _ _ _ => Or.inl hall⟩
      exact atrGetDefaultProtocol_congr fun i hi k => hagree i (hall ▸ hi) k
    · -- TA2 decides about the protocol
      obtain ⟨r, hr, hta⟩ := ta2_eq_some.mp hta2
      have hp : ∀ a, atrGetDefaultProtocol (parsed buf length a) = _ := fun a =>
        atrGetDefaultProtocol_specific ((byte_parsed hh hmore hr .TA a).trans hta)
      refine ⟨(List.getElem?_eq_some_iff.mp hr).1, by rw [hp, hp], ?_⟩
      rw [hp]
      exact fun h1 k hk => Or.inr ((hst h1).stated hh hmore atr k hk)
  obtain ⟨h2, hp, hstated⟩ := hkey
  have h0 := hagree 0 (by omega)
  have hwi : waitingInteger (parsed buf length atr) = waitingInteger (parsed buf length atr') := by
    have hr := List.getElem?_eq_getElem (by omega : 1 < h.rows.length)
    rw [waitingInteger_parsed hh hmore hr, waitingInteger_parsed hh hmore hr]
  have ht1 := fun h1 => setT1_congr h2 (by omega) hagree (hstated h1)
  refine Prod.ext hp (Prod.ext ?_ ?_)
  · exact funext (atrGetParameter_congr h0)
  · exact atrParse_congr hp h0 (hagree 1 (by omega) .TA) hwi ht1 emv answer sc

end Agree

/-! ## What is left open is taken from the prior record -/

def staleRecord (k : InterfaceByte) (v : UInt8) : AtrT :=
  { clearedRecord with ib := putIb clearedRecord.ib (atrMaxProtocols - 1) k (some v) }

def clearedParams : Params := ⟨0, 0, 0, 0, .lrc, 0, 0, 0, 0, 0, 0, 0, 0⟩

theorem byte_clearedRecord (i : ℕ) (k : InterfaceByte) : clearedRecord.byte i k = none := rfl

theorem byte_staleRecord (i : ℕ) (j k : InterfaceByte) (v : UInt8) :
    (staleRecord k v).byte i j = if i = 6 ∧ j = k then some v else none := by
  have hib : (staleRecord k v).ib i j = if i = 6 ∧ j = k then ⟨v, 1⟩ else ⟨0, 0⟩ := rfl
  by_cases h : i = 6 ∧ j = k
  · rw [AtrT.byte, hib, if_pos h, if_pos h]
    rfl
  · rw [AtrT.byte, hib, if_neg h, if_neg h]
    rfl

section Open

variable {buf : ℕ → UInt8} {length : ℕ} {h : AtrHead} {k : InterfaceByte}

theorem late_byte_eq (hh : Holds buf length h) (hmore : h.more.length + 1 < atrMaxProtocols)
    (hno : ∀ i r, 2 ≤ i → h.rows[i]? = some r → r.get k = none) {i : ℕ} (hi : 2 ≤ i) (v : UInt8) :
    (parsed buf length clearedRecord).byte i k = none ∧
      (parsed buf length (staleRecord k v)).byte i k = if i = 6 then some v else none := by
  have hlt : h.more.length < atrMaxProtocols := by omega
  have hlen := h.length_rows
  by_cases hin : i < h.rows.length
  · -- a group of the ATR, which has not all groups
    have hr := List.getElem?_eq_getElem hin
    have h6 : i ≠ 6 := by
      have : atrMaxProtocols = 7 := rfl
      omega
    rw [byte_parsed hh hlt hr, byte_parsed hh hlt hr, hno i _ hi hr, if_neg h6]
    exact ⟨rfl, rfl⟩
  · -- a group of the prior record
    rw [byte_stale hh hlt (by omega), byte_stale hh hlt (by omega), byte_staleRecord]
    simp [byte_clearedRecord]

theorem firstByte_open (hh : Holds buf length h) (hmore : h.more.length + 1 < atrMaxProtocols)
    (hno : ∀ i r, 2 ≤ i → h.rows[i]? = some r → r.get k = none) (v : UInt8) :
    firstByte (parsed buf length clearedRecord) k = none ∧
      firstByte (parsed buf length (staleRecord k v)) k = some v := by
  have hb := fun i hi => late_byte_eq (i := i) hh hmore hno hi v
  have hgroups : t1Groups = [2, 3, 4, 5, 6] := rfl
  simp [firstByte, hgroups, hb]

theorem chooseEdc_open (hh : Holds buf length h) (hmore : h.more.length + 1 < atrMaxProtocols)
    (hno : ∀ i r, 2 ≤ i → h.rows[i]? = some r → r.get .TC = none) (edc edc' : Checksum) :
    chooseEdc (fun i => (parsed buf length clearedRecord).byte i .TC) t1Groups edc = .lrc ∧
      chooseEdc (fun i => (parsed buf length (staleRecord .TC 1)).byte i .TC) t1Groups edc' =
        .crc := by
  have hb := fun i hi => late_byte_eq (i := i) hh hmore hno hi 1
  have hgroups : t1Groups = [2, 3, 4, 5, 6] := rfl
  simp [chooseEdc, hgroups, hb]

theorem atrParse_specific {x : AtrT} {ta2 : UInt8} (hta2 : x.byte 1 .TA = some ta2)
    (h1 : (ta2 &&& 0x0F).toNat = 1) (emv : Bool) (answer : PpsAnswer) (sc : Params) :
    ∃ sc', (atrParse emv answer sc x).1 = setT0 x (setT1 x sc') 1 := by
  have hp := atrGetDefaultProtocol_specific hta2
  rw [h1] at hp
  simp only [atrParse, hp, negotiate, hta2]
  exact ⟨_, rfl⟩

/-- So with T=1 they have to be in the ATR. -/
theorem statesT1_of_historyIndependent (hh : Holds buf length h)
    (hmore : h.more.length + 1 < atrMaxProtocols) {emv : Bool}
    (hind : HistoryIndependent emv buf length) {ta2 : UInt8} (hta2 : h.ta2 = some ta2)
    (h1 : (ta2 &&& 0x0F).toNat = 1) : StatesT1 h := by
  obtain ⟨r, hr, hta⟩ := ta2_eq_some.mp hta2
  let sc := clearedParams
  have hset := fun a => atrParse_specific
    ((byte_parsed hh (by omega : h.more.length < atrMaxProtocols) hr .TA a).trans hta) h1 emv
    (fun _ => none) sc
  -- the parameters after a cleared record and after any other one
  have hsame : ∀ a, ∃ s s', setT0 (parsed buf length clearedRecord)
      (setT1 (parsed buf length clearedRecord) s) 1 =
        setT0 (parsed buf length a) (setT1 (parsed buf length a) s') 1 := by
    intro a
    obtain ⟨s, hs⟩ := hset clearedRecord
    obtain ⟨s', hs'⟩ := hset a
    have heq := congrArg (fun o => o.2.2.1) (hind (fun _ => none) sc clearedRecord a)
    exact ⟨s, s', hs.symm.trans (heq.trans hs')⟩
  -- a byte that no late group has
  have hno : ∀ {p : Group → Option UInt8}, ¬ (∃ g ∈ h.groups.drop 2, (p g).isSome) →
      ∀ i r, 2 ≤ i → h.rows[i]? = some r → p r.group = none := by
    intro p hp i r hi hr
    rw [exists_late_group] at hp
    by_contra hsome
    exact hp ⟨i, r, hi, hr, Option.isSome_iff_ne_none.mpr hsome⟩
  -- otherwise IFSC, CWI or EDC would come from the prior record
  refine ⟨?_, ?_, ?_⟩ <;> by_contra hnone
  · obtain ⟨s, s', heq⟩ := hsame (staleRecord .TA 0)
    obtain ⟨hc, hs⟩ := firstByte_open (k := .TA) hh hmore (hno hnone) 0
    have hifsc := congrArg Params.IFSC heq
    simp [setT0, setT1, hc, hs] at hifsc
  · obtain ⟨s, s', heq⟩ := hsame (staleRecord .TB 0)
    obtain ⟨hc, hs⟩ := firstByte_open (k := .TB) hh hmore (hno hnone) 0
    have hcwi := congrArg Params.CWI heq
    simp [setT0, setT1, hc, hs] at hcwi
  · obtain ⟨s, s', heq⟩ := hsame (staleRecord .TC 1)
    obtain ⟨hc, hs⟩ := chooseEdc_open hh hmore (hno hnone) s.EDC s'.EDC
    have hedc := congrArg Params.EDC heq
    simp [setT0, setT1, hc, hs] at hedc

theorem exists_other_protocol (hmore : h.more.length + 1 < atrMaxProtocols) :
    ∃ t : Fin 16, t ≠ 0 ∧ ∀ m ∈ h.more, m.1 ≠ t := by
  by_contra hall
  push Not at hall
  -- otherwise the groups would name all sixteen protocols
  have hsub : (Finset.univ : Finset (Fin 16)) ⊆ (0 :: h.more.map Prod.fst).toFinset := by
    intro t _
    rw [List.mem_toFinset, List.mem_cons, List.mem_map]
    exact or_iff_not_imp_left.mpr (hall t)
  have hcard := (Finset.card_le_card hsub).trans (List.toFinset_card_le _)
  rw [Finset.card_univ, Fintype.card_fin, List.length_cons, List.length_map] at hcard
  have : atrMaxProtocols = 7 := rfl
  omega

/-- Without TA2, a protocol of the prior record becomes available. -/
theorem ta2_of_historyIndependent (hh : Holds buf length h)
    (hmore : h.more.length + 1 < atrMaxProtocols) {emv : Bool}
    (hind : HistoryIndependent emv buf length) : ∃ ta2, h.ta2 = some ta2 := by
  by_contra hno
  have hlt : h.more.length < atrMaxProtocols := by omega
  have hlen := h.length_rows
  obtain ⟨t, ht0, ht⟩ := exists_other_protocol hmore
  have hval : ∀ t : Fin 16, (UInt8.ofNat t &&& 0x0F).toNat = t := by decide
  have hseven : atrMaxProtocols = 7 := rfl
  have htne : (t : ℕ) ≠ 0 := fun h0 => ht0 (Fin.ext h0)
  -- TA2 is in neither record
  have hta2 : ∀ a : AtrT, a.byte 1 .TA = none → (parsed buf length a).byte 1 .TA = none := by
    intro a ha
    -- the second group of the ATR has no TA
    by_cases hin : 1 < h.rows.length
    · have hr := List.getElem?_eq_getElem hin
      rw [byte_parsed hh hlt hr]
      by_contra hsome
      obtain ⟨v, hv⟩ := Option.ne_none_iff_exists'.mp hsome
      exact hno ⟨v, ta2_eq_some.mpr ⟨_, hr, hv⟩⟩
    · rw [byte_stale hh hlt (by omega), ha]
  have hstale := available_iff htne
    (hta2 (staleRecord .TD (UInt8.ofNat t)) (by rw [byte_staleRecord]; rfl))
  have hclear := available_iff htne (hta2 clearedRecord rfl)
  have heq := congrArg (fun o => o.1.2)
    (hind (fun _ => none) clearedParams clearedRecord (staleRecord .TD (UInt8.ofNat t)))
  simp only [outputs] at heq
  rw [← heq, hclear] at hstale
  -- the prior record has the protocol in its last group
  obtain ⟨i, hi, td, htd, htt⟩ := hstale.mpr
    ⟨6, by decide, UInt8.ofNat t, by rw [byte_stale hh hlt (by omega), byte_staleRecord]; rfl,
      hval t⟩
  by_cases hin : i < h.rows.length
  · -- the ATR does not name this protocol, and the cleared record names none
    rw [byte_parsed hh hlt (List.getElem?_eq_getElem hin)] at htd
    obtain ⟨m, hm, hlow⟩ := td_rows (List.getElem_mem hin) htd
    rw [hlow] at htt
    have hm1 : (UInt8.ofNat m.1).toNat = m.1 := by
      rw [UInt8.toNat_ofNat']
      omega
    exact ht m hm (Fin.ext (hm1.symm.trans htt))
  · rw [byte_stale hh hlt (by omega)] at htd
    cases htd

end Open

/-! ## The condition is exact -/

/-- For an ATR that is accepted, what is read from the record does not depend on earlier cards if
    and only if the ATR leaves nothing open. -/
theorem historyIndependent_iff (emv : Bool) (buf : ℕ → UInt8) (length : ℕ)
    (atr : AtrT) (hacc : (atrInitFromArray atr buf length).2 = 0) :
    HistoryIndependent emv buf length ↔ ∃ h, Holds buf length h ∧ NothingOpen h := by
  constructor
  · intro hind
    obtain ⟨h, hh, hmore⟩ := head_of_accepted hacc
    refine ⟨h, hh, ?_⟩
    by_cases hall : h.groups.length = atrMaxProtocols
    · exact Or.inl hall
    rw [h.length_groups, h.length_rows] at hall
    have hmore' : h.more.length + 1 < atrMaxProtocols := by omega
    obtain ⟨ta2, hta2⟩ := ta2_of_historyIndependent hh hmore' hind
    exact Or.inr ⟨ta2, hta2, statesT1_of_historyIndependent hh hmore' hind hta2⟩
  · rintro ⟨h, hh, hopen⟩
    have hmore : h.more.length < atrMaxProtocols := by
      -- too many groups would have been an error
      by_contra hmany
      have herr := atrInitFromArray_tooMany hh (by omega) atr
      exact scErrAtr_ne_zero (herr.symm.trans hacc)
    exact historyIndependent_of_nothingOpen hh hmore hopen emv

def specificAtr : AtrHead where
  ts := 0x3B
  first := ⟨none, none, none⟩
  more := [(1, ⟨some 0x01, none, none⟩), (1, ⟨some 0xFE, some 0x45, some 0x00⟩)]
  hist := []
  hist_lt := by decide

/-- The bytes that a list has, then zeros -/
def bufferOf (bytes : List UInt8) (i : ℕ) : UInt8 := bytes.getD i 0

theorem specificAtr_independent :
    (atrInitFromArray clearedRecord (bufferOf (specificAtr.encode ++ [0xDA])) 9).2 = 0 ∧
      HistoryIndependent false (bufferOf (specificAtr.encode ++ [0xDA])) 9 := by
  have hacc :
      (atrInitFromArray clearedRecord (bufferOf (specificAtr.encode ++ [0xDA])) 9).2 = 0 := by
    decide +kernel
  refine ⟨hacc, (historyIndependent_iff false _ 9 clearedRecord hacc).mpr
    ⟨specificAtr, ⟨?_, ?_⟩, ?_⟩⟩
  · exact ⟨rfl, rfl, rfl, rfl, rfl, rfl, rfl, rfl, trivial⟩
  · decide
  · exact Or.inr ⟨0x01, rfl, fun _ => ⟨⟨_, List.mem_singleton_self _, rfl⟩,
      ⟨_, List.mem_singleton_self _, rfl⟩, ⟨_, List.mem_singleton_self _, rfl⟩⟩⟩

/-- After a card with the ATR 3B 80 81 31 FE 45 8B, which offers T=1, a card with the ATR 3B 00,
    which knows only T=0, is taken for a card of T=1, with the IFSC of the former. -/
theorem oldCard_decides_protocol :
    let old := parsed (bufferOf [0x3B, 0x80, 0x81, 0x31, 0xFE, 0x45, 0x8B]) 7 clearedRecord
    let new := bufferOf [0x3B, 0x00]
    (atrInitFromArray old new 2).2 = 0 ∧
      (atrGetDefaultProtocol (parsed new 2 clearedRecord)).1 = 0 ∧
      (atrGetDefaultProtocol (parsed new 2 old)).1 = 1 ∧
      firstByte (parsed new 2 old) .TA = some 0xFE ∧
      ¬ HistoryIndependent false new 2 := by
  intro old new
  have hfresh : (atrGetDefaultProtocol (parsed new 2 clearedRecord)).1 = 0 := by decide +kernel
  have hold : (atrGetDefaultProtocol (parsed new 2 old)).1 = 1 := by decide +kernel
  refine ⟨by decide +kernel, hfresh, hold, by decide +kernel, fun hind => ?_⟩
  have heq := congrArg (fun o => o.1.1) (hind (fun _ => none) clearedParams clearedRecord old)
  simp only [outputs] at heq
  omega

end NucKernel.SmartCard.Atr
