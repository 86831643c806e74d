import NucKernel.SmartCard.Atr.Parser

/-!
# Receiving an ATR: `nuc970_sc_interrupt` in `SC_OP_READ_ATR`

The interrupt handler decides byte by byte whether the ATR is over. It keeps the number of bytes
that are known to come (`atr_remain`), the number of bytes up to the next one that announces others
(`ifbyte_flag`), and whether TCK was counted (`tck`). This module follows the three along the
format, and compares the handler with the parser.

The handler stops after exactly the bytes of the ATR. It has no bound of its own, so a stream with a
longer ATR, or with none, is written beyond `atrbuf`; and the parser takes TCK from the last TD byte
alone. `agrees_iff` has the exact condition.

## Modelling

- a step is an interrupt with `SC_INTSTS_RDAIF` set, so with a byte received, without the timers
- `atrbuf` is a function, so that a store beyond `ATR_MAX_SIZE` is seen
- one interface receives; the counters, which both interfaces share, are those of this reception
-/

namespace NucKernel.SmartCard.Atr

def atrMaxSize : ℕ := 33

/-! ## The handler -/

/-- `atr_remain`, `ifbyte_flag` and `tck` -/
structure Counters where
  remain : ℕ
  flag : ℤ
  tck : Bool
  deriving DecidableEq

/-- The variables of the reception. `idle` is the state after it. -/
structure Rx extends Counters where
  atrlen : ℕ
  atrbuf : ℕ → UInt8
  idle : Bool

def countBit (b mask : UInt8) (c : Counters) : Counters :=
  if b &&& mask ≠ 0 then { c with remain := c.remain + 1, flag := c.flag + 1 } else c

/-- TCK is counted at the first TD byte with a protocol other than T=0. -/
def countTck (b : UInt8) (atrlen : ℕ) (c : Counters) : Counters :=
  if c.tck = false ∧ atrlen ≠ 1 ∧ b &&& 0x0F ≠ 0 then { c with remain := c.remain + 1, tck := true }
  else c

def countHeader (b : UInt8) (atrlen : ℕ) (c : Counters) : Counters :=
  let c := countBit b 0x40 (countBit b 0x20 (countBit b 0x10 c))
  if b &&& 0x80 ≠ 0 then
    countTck b atrlen { c with remain := c.remain + 1, flag := c.flag + 1 }
  else { countTck b atrlen c with flag := -1 }

def count (b : UInt8) (atrlen : ℕ) (c : Counters) : Counters :=
  let c := { c with remain := c.remain - 1, flag := c.flag - 1 }
  -- T0 has the number of historical bytes, and announces interface bytes as well
  let c :=
    if atrlen = 1 then { c with remain := c.remain + (b &&& 0x0F).toNat, flag := 0 } else c
  if c.flag = 0 then countHeader b atrlen c else c

def Rx.counters (rx : Rx) : Counters :=
  if rx.atrlen = 0 then ⟨2, -1, false⟩ else rx.toCounters

def receive (rx : Rx) (b : UInt8) : Rx :=
  if rx.idle then rx
  else if rx.counters.remain ≠ 0 then
    let c := count b rx.atrlen rx.counters
    { toCounters := c
      atrlen := rx.atrlen + 1
      atrbuf := fun i => if i = rx.atrlen then b else rx.atrbuf i
      idle := c.remain = 0 }
  else { rx with idle := true }

/-- The reception starts with a reset: whatever was there before, the length is 0. -/
def startReception (prev : Rx) : Rx := { prev with atrlen := 0, idle := false }

def rxAfter (prev : Rx) (stream : ℕ → UInt8) : ℕ → Rx
  | 0 => startReception prev
  | k + 1 => receive (rxAfter prev stream k) (stream k)

/-! ## One byte -/

/-- After `k` bytes the counters have these values, the bytes are in the buffer, and the reception
    is over if nothing remains. It was not over before. -/
structure Progress (prev : Rx) (stream : ℕ → UInt8) (k : ℕ) (c : Counters) : Prop where
  counters_eq : (rxAfter prev stream k).toCounters = c
  atrlen_eq : (rxAfter prev stream k).atrlen = k
  idle_eq : (rxAfter prev stream k).idle = decide (c.remain = 0)
  atrbuf_eq : ∀ i < k, (rxAfter prev stream k).atrbuf i = stream i
  before : ∀ j < k, (rxAfter prev stream j).idle = false

section Step

variable {prev : Rx} {stream : ℕ → UInt8} {k : ℕ} {c : Counters}

theorem receive_eq {rx : Rx} {b : UInt8} (hidle : rx.idle = false) (hr : rx.counters.remain ≠ 0) :
    receive rx b =
      ⟨count b rx.atrlen rx.counters, rx.atrlen + 1,
        fun i => if i = rx.atrlen then b else rx.atrbuf i,
        (count b rx.atrlen rx.counters).remain = 0⟩ := by
  rw [receive, hidle, if_neg (by decide), if_pos hr]

variable (prev stream) in
theorem progress_one : Progress prev stream 1 ⟨1, -2, false⟩ := by
  have hcounters : (startReception prev).counters = ⟨2, -1, false⟩ := rfl
  have hstep : rxAfter prev stream 1 = _ := receive_eq rfl (hcounters ▸ Nat.succ_ne_zero 1)
  -- TS is stored, and T0 remains
  refine ⟨?_, ?_, ?_, ?_, ?_⟩
  · rw [hstep]
    rfl
  · rw [hstep]
    rfl
  · rw [hstep]
    rfl
  · intro i hi
    obtain rfl : i = 0 := by omega
    rw [hstep]
    rfl
  · intro j hj
    obtain rfl : j = 0 := by omega
    rfl

theorem Progress.step (h : Progress prev stream k c) (hk : k ≠ 0) (hr : c.remain ≠ 0) :
    Progress prev stream (k + 1) (count (stream k) k c) := by
  have hidle : (rxAfter prev stream k).idle = false := by rw [h.idle_eq, decide_eq_false hr]
  have hcounters : (rxAfter prev stream k).counters = c := by
    rw [Rx.counters, h.atrlen_eq, if_neg hk, h.counters_eq]
  have hstep : rxAfter prev stream (k + 1) = _ :=
    receive_eq (b := stream k) hidle (by rwa [hcounters])
  rw [hcounters, h.atrlen_eq] at hstep
  refine ⟨?_, ?_, ?_, ?_, ?_⟩
  · rw [hstep]
  · rw [hstep]
  · rw [hstep]
  · intro i hi
    rw [hstep]
    by_cases hik : i = k
    · -- the byte stored now
      simp [hik]
    · simp only [hik, if_false]
      exact h.atrbuf_eq i (by omega)
  · intro j hj
    -- the reception was not over before this byte
    by_cases hjk : j = k
    · rw [hjk, hidle]
    · exact h.before j (by omega)

end Step

/-! ## The counters along the format -/

section Counters

variable {prev : Rx} {stream : ℕ → UInt8} {k remain : ℕ} {flag : ℤ} {tck : Bool}

theorem Progress.skip {n : ℕ} (h : Progress prev stream k ⟨remain + n, flag, tck⟩) (hk : 2 ≤ k)
    (hflag : (n : ℤ) < flag ∨ flag < 0) :
    Progress prev stream (k + n) ⟨remain, flag - n, tck⟩ := by
  induction n generalizing k flag with
  | zero => simpa using h
  | succ n ih =>
    have hcount : count (stream k) k ⟨remain + (n + 1), flag, tck⟩ =
        ⟨remain + n, flag - 1, tck⟩ := by
      simp only [count, ← Nat.add_assoc, Nat.add_sub_cancel, if_neg (by omega : ¬ k = 1)]
      -- the flag does not become 0
      rw [if_neg (by omega)]
    have hstep := h.step (by omega) (Nat.succ_ne_zero _)
    rw [hcount] at hstep
    have hnext := ih hstep (by omega) (by omega)
    rw [show k + (n + 1) = k + 1 + n by omega,
      show flag - ((n + 1 : ℕ) : ℤ) = flag - 1 - n by omega]
    exact hnext

theorem Progress.finish {n : ℕ} (h : Progress prev stream k ⟨n, flag, tck⟩) (hk : 2 ≤ k)
    (hflag : flag < 0) : Progress prev stream (k + n) ⟨0, flag - n, tck⟩ :=
  Progress.skip (by rwa [Nat.zero_add]) hk (Or.inr hflag)

def groupFlag (g : Group) (more : Bool) : ℤ := if more then g.bytes.length + 1 else -1

theorem countBit_eq (b mask : UInt8) (c : Counters) :
    countBit b mask c =
      ⟨c.remain + (b &&& mask != 0).toNat, c.flag + (b &&& mask != 0).toNat, c.tck⟩ := by
  by_cases h : b &&& mask = 0
  · simp [countBit, h]
  · simp [countBit, h, bne_iff_ne.mpr h]

def newTck (tck : Bool) (atrlen : ℕ) (low : Fin 16) : Bool := !tck && atrlen != 1 && low ≠ 0

theorem countTck_eq {b : UInt8} {low : Fin 16} (hlow : b &&& 0x0F = UInt8.ofNat low) (atrlen : ℕ)
    (c : Counters) :
    countTck b atrlen c =
      ⟨c.remain + (newTck c.tck atrlen low).toNat, c.flag, c.tck || newTck c.tck atrlen low⟩ := by
  have hiff : (c.tck = false ∧ atrlen ≠ 1 ∧ b &&& 0x0F ≠ 0) ↔ newTck c.tck atrlen low = true := by
    rw [hlow, Ne, Ne, ofNat_fin_eq_zero]
    simp [newTck, and_assoc]
  rw [countTck]
  cases h : newTck c.tck atrlen low with
  -- TCK is counted now
  | true => rw [if_pos (hiff.mpr h), Bool.or_true, Bool.toNat_true]
  | false =>
    -- it is not asked for, or has been counted
    rw [if_neg fun h' => Bool.false_ne_true (h.symm.trans (hiff.mp h')), Bool.or_false,
      Bool.toNat_false, Nat.add_zero]

theorem countHeader_header (g : Group) (more : Bool) (low : Fin 16) (atrlen : ℕ) :
    countHeader (g.header more low) atrlen ⟨remain, 0, tck⟩ =
      ⟨remain + (newTck tck atrlen low).toNat + g.bytes.length + more.toNat, groupFlag g more,
        tck || newTck tck atrlen low⟩ := by
  obtain ⟨ha, hb, hc, hd, hlow⟩ :=
    headerByte_bits g.ta.isSome g.tb.isSome g.tc.isSome more low
  -- the flag is set if TD follows
  have hmore : g.header more low &&& 0x80 ≠ 0 ↔ more = true := by
    rw [← bne_iff_ne, Group.header, hd]
  have hlen := g.length_bytes
  rw [← Group.header] at ha hb hc hlow
  simp only [countHeader, countBit_eq, countTck_eq hlow, ha, hb, hc, hmore, groupFlag, hlen]
  cases more
  · simp only [Bool.false_eq_true, if_false, Counters.mk.injEq, and_true, Bool.toNat_false]
    omega
  · simp only [if_true, Counters.mk.injEq, and_true, Bool.toNat_true]
    omega

variable (prev) in
theorem progress_two {g : Group} {more : Bool} {low : Fin 16}
    (ht0 : stream 1 = g.header more low) :
    Progress prev stream 2 ⟨low + g.bytes.length + more.toNat, groupFlag g more, false⟩ := by
  have hstep := (progress_one prev stream).step (by decide) (by decide)
  have hlow : (g.header more low &&& 0x0F).toNat = low := by
    rw [header_low, UInt8.toNat_ofNat']
    omega
  rw [ht0, count] at hstep
  simp only [if_true, hlow, Nat.sub_self, Nat.zero_add, countHeader_header] at hstep
  simpa [newTck] using hstep

theorem Progress.header {g : Group} {more : Bool} {low : Fin 16}
    (h : Progress prev stream k ⟨remain + 1, 1, tck⟩) (hk : 2 ≤ k)
    (htd : stream k = g.header more low) :
    Progress prev stream (k + 1)
      ⟨remain + (!tck && decide (low ≠ 0)).toNat + g.bytes.length + more.toNat, groupFlag g more,
        tck || decide (low ≠ 0)⟩ := by
  have hstep := h.step (by omega) (Nat.succ_ne_zero _)
  have hk1 : (k != 1) = true := bne_iff_ne.mpr (by omega)
  rw [htd, count] at hstep
  simp only [if_neg (by omega : ¬ k = 1), Nat.add_sub_cancel, Int.sub_self, if_true,
    countHeader_header, newTck, hk1, Bool.and_true] at hstep
  -- TCK has been counted if a protocol asks for it
  have htck : ∀ a b : Bool, (a || (!a && b)) = (a || b) := by decide
  rwa [htck] at hstep

theorem Progress.groups {g : Group} {more : List (Fin 16 × Group)}
    (h : Progress prev stream k
      ⟨remain + g.bytes.length + (!more.isEmpty).toNat, groupFlag g (!more.isEmpty), tck⟩)
    (hk : 2 ≤ k) (hspell : Spells stream k (encodeGroups g more)) :
    ∃ flag < 0, Progress prev stream (k + (encodeGroups g more).length)
      ⟨remain + (!tck && more.any fun m => m.1 ≠ 0).toNat, flag,
        tck || more.any fun m => m.1 ≠ 0⟩ := by
  -- one group a round; TCK is counted at the first protocol that asks for it
  induction more generalizing k remain g tck with
  | nil =>
    simp only [List.isEmpty_nil, Bool.not_true, Bool.toNat_false, Nat.add_zero, groupFlag,
      Bool.false_eq_true, if_false] at h
    -- the last group is counted down without a further header
    refine ⟨_, ?_, by simpa [encodeGroups] using h.skip hk (Or.inr (by decide))⟩
    omega
  | cons m more ih =>
    obtain ⟨t, g'⟩ := m
    simp only [encodeGroups, spells_append, spells_cons] at hspell
    obtain ⟨-, htd, hrest⟩ := hspell
    simp only [List.isEmpty_cons, Bool.not_false, Bool.toNat_true, groupFlag, if_true] at h
    rw [Nat.add_right_comm] at h
    -- the bytes of the group are counted, and TD is next
    have hskip := h.skip hk (Or.inl (by omega))
    rw [show (g.bytes.length + 1 : ℤ) - g.bytes.length = 1 by omega] at hskip
    obtain ⟨flag, hflag, hend⟩ := ih (hskip.header (by omega) htd) (by omega) hrest
    refine ⟨flag, hflag, ?_⟩
    have hpos : k + (encodeGroups g ((t, g') :: more)).length =
        k + g.bytes.length + 1 + (encodeGroups g' more).length := by
      simp only [encodeGroups, List.length_append, List.length_cons]
      omega
    -- TCK is counted once
    have hcount : ∀ a b c : Bool,
        (!a && (b || c)).toNat = (!a && b).toNat + (!(a || b) && c).toNat := by decide
    rw [hpos, List.any_cons, hcount, ← Nat.add_assoc, ← Bool.or_assoc]
    exact hend

end Counters

/-! ## The reception of an ATR -/

section Reception

variable {prev : Rx} {stream : ℕ → UInt8}

theorem IsoAtr.length_encode (x : IsoAtr) :
    x.encode.length =
      2 + (encodeGroups x.first x.more).length + x.hist.length + x.hasTck.toNat := by
  have htck : x.tck.toList.length = x.hasTck.toNat := by
    rw [← x.tck_isSome]
    cases x.tck <;> rfl
  rw [IsoAtr.encode, List.length_append, Holds.length_encode, htck]

theorem IsoAtr.spells_head {x : IsoAtr} {pos : ℕ} (h : Spells stream pos x.encode) :
    Spells stream pos x.toAtrHead.encode :=
  (spells_append.mp h).1

variable (prev) in
theorem progress_atr {x : IsoAtr} (h : Spells stream 0 x.encode) :
    ∃ flag tck, Progress prev stream x.encode.length ⟨0, flag, tck⟩ := by
  have hhead := IsoAtr.spells_head h
  have hgroups : Spells stream 2 (encodeGroups x.first x.more) := (spells_append.mp hhead.2.2).1
  obtain ⟨flag, hflag, hp⟩ := (progress_two prev hhead.2.1).groups (Nat.le_refl 2) hgroups
  rw [Bool.not_false, Bool.true_and] at hp
  have hend := hp.finish (by omega) hflag
  rw [x.length_encode, AtrHead.hasTck, Nat.add_assoc]
  exact ⟨_, _, hend⟩

theorem idle_of_le {j k : ℕ} (hjk : j ≤ k) (h : (rxAfter prev stream j).idle = true) :
    rxAfter prev stream k = rxAfter prev stream j := by
  induction hjk with
  | refl => rfl
  | step _ ih => rw [rxAfter, ih, receive, h, if_pos rfl]

variable (prev) in
theorem idle_iff {x : IsoAtr} (h : Spells stream 0 x.encode) (k : ℕ) :
    (rxAfter prev stream k).idle = true ↔ x.encode.length ≤ k := by
  obtain ⟨flag, tck, hp⟩ := progress_atr prev h
  constructor
  · intro hidle
    -- it has not stopped before
    by_contra hlt
    rw [hp.before k (by omega)] at hidle
    cases hidle
  · intro hle
    have hidle : (rxAfter prev stream x.encode.length).idle = true := hp.idle_eq
    rw [idle_of_le hle hidle, hidle]

theorem atrlen_eq {k : ℕ} (h : (rxAfter prev stream k).idle = false) :
    (rxAfter prev stream k).atrlen = k := by
  induction k with
  | zero => rfl
  | succ k ih =>
    have hk : (rxAfter prev stream k).idle = false := by
      -- once it is over, it stays over
      by_contra hidle
      rw [Bool.not_eq_false] at hidle
      rw [idle_of_le (Nat.le_succ k) hidle, hidle] at h
      cases h
    rw [rxAfter, receive, hk, if_neg (by decide)] at h ⊢
    split at h
    · rw [if_pos ‹_›, ih hk]
    · cases h

theorem Progress.lt_of_idle {k K : ℕ} {c : Counters} (h : Progress prev stream k c)
    (hr : c.remain ≠ 0) (hidle : (rxAfter prev stream K).idle = true) : k < K := by
  by_contra hle
  have hfalse : (rxAfter prev stream K).idle = false := by
    obtain hlt | rfl := Nat.lt_or_eq_of_le (Nat.le_of_not_lt hle)
    · exact h.before K hlt
    · rw [h.idle_eq, decide_eq_false hr]
  rw [hidle] at hfalse
  cases hfalse

theorem exists_groups {K k : ℕ} (td : UInt8)
    (hidle : (rxAfter prev stream K).idle = true) (hk : 2 ≤ k)
    (h : ∀ g more low, td = Group.header g more low →
      ∃ remain tck,
        Progress prev stream k ⟨remain + g.bytes.length + more.toNat, groupFlag g more, tck⟩) :
    ∃ g more low, td = Group.header g (!more.isEmpty) low ∧
      Spells stream k (encodeGroups g more) := by
  -- each TD byte that is read leaves fewer bytes up to the end
  induction hn : K - k using Nat.strongRecOn generalizing k td with
  | ind n ih =>
    have hg := spells_groupAt stream td k
    obtain ⟨low, htd⟩ := header_groupAt stream td k
    generalize groupAt stream td k = g at hg htd
    obtain ⟨remain, tck, hp⟩ := h g _ low htd
    cases hd : td &&& 0x80 != 0 with
    | false =>
      rw [hd] at htd
      -- TD does not announce another group
      exact ⟨g, [], low, htd, hg⟩
    | true =>
      rw [hd] at htd hp
      simp only [Bool.toNat_true, groupFlag, if_true] at hp
      rw [Nat.add_right_comm] at hp
      -- the next header is TD
      have hskip := hp.skip hk (Or.inl (by omega))
      rw [show (g.bytes.length + 1 : ℤ) - g.bytes.length = 1 by omega] at hskip
      have hlt := hskip.lt_of_idle (Nat.succ_ne_zero _) hidle
      obtain ⟨g', more, t, htd', hspell⟩ := ih (K - (k + g.bytes.length + 1)) (by omega) _
        (by omega) (fun g' more' t htd' => ⟨_, _, hskip.header (by omega) htd'⟩) rfl
      refine ⟨g, (t, g') :: more, low, htd, ?_⟩
      rw [encodeGroups, spells_append, spells_cons]
      exact ⟨hg, htd', hspell⟩

theorem exists_atr {K : ℕ} (hidle : (rxAfter prev stream K).idle = true) :
    ∃ x : IsoAtr, Spells stream 0 x.encode ∧ x.encode.length ≤ K := by
  obtain ⟨g, more, low, ht0, hspell⟩ := exists_groups (stream 1) hidle (Nat.le_refl 2)
    fun g more low ht0 => ⟨_, _, progress_two prev ht0⟩
  obtain ⟨head, hhead, -⟩ := exists_head ht0 hspell
  -- TCK is the byte behind the head
  let x : IsoAtr := ⟨head, if head.hasTck then some (stream head.encode.length) else none, by
    cases head.hasTck <;> rfl⟩
  have hx : Spells stream 0 x.encode := by
    rw [IsoAtr.encode, spells_append, Nat.zero_add]
    refine ⟨hhead, ?_⟩
    simp only [x]
    cases head.hasTck <;> simp
  exact ⟨x, hx, (idle_iff prev hx K).mp hidle⟩

end Reception

/-! ## The handler and the parser -/

theorem lastTck_eq (more : List (Fin 16 × Group)) (present : UInt8) :
    lastTck present more = (more.getLast?.map fun m => tckFlag m.1).getD present := by
  induction more generalizing present with
  | nil => rfl
  | cons m more ih =>
    rw [lastTck, ih, List.getLast?_cons]
    cases more.getLast? <;> rfl

/-- The record has room for the groups, and the last TD byte says whether TCK is there. -/
def ParserReady (h : AtrHead) : Prop :=
  h.more.length < atrMaxProtocols ∧ (h.hasTck → ∃ m, h.more.getLast? = some m ∧ m.1 ≠ 0)

theorem lastTck_ne_zero {h : AtrHead} :
    lastTck 0 h.more ≠ 0 ↔ ∃ m, h.more.getLast? = some m ∧ m.1 ≠ 0 := by
  rw [lastTck_eq]
  cases hlast : h.more.getLast? with
  | none => simp
  | some m => simp [tckFlag]

theorem lastTck_of_noTck {h : AtrHead} (htck : h.hasTck = false) : lastTck 0 h.more = 0 := by
  rw [lastTck_eq]
  cases hlast : h.more.getLast? with
  | none => rfl
  | some m =>
    have hm := List.mem_of_getLast? hlast
    simp only [AtrHead.hasTck, List.any_eq_false, decide_eq_true_eq, not_not] at htck
    simp [tckFlag, htck m hm]

theorem checkTck_eq {buf : ℕ → UInt8} {x : IsoAtr} (h : Spells buf 0 x.encode) :
    checkTck buf x.encode.length = x.encode.tail.foldl (· ^^^ ·) 0 := by
  have hcons : x.encode = x.ts :: x.encode.tail := rfl
  rw [hcons] at h
  rw [checkTck, ← List.length_tail, h.2.bytesAt_eq]

theorem accepted_iff {buf : ℕ → UInt8} {x : IsoAtr} (h : Spells buf 0 x.encode)
    (hcorrect : x.TckCorrect) (atr : AtrT) :
    ((atrInitFromArray atr buf x.encode.length).2 = 0 ∧
      (atrInitFromArray atr buf x.encode.length).1.length = x.encode.length) ↔
        ParserReady x.toAtrHead := by
  have hlen : x.encode.length = x.toAtrHead.encode.length + x.hasTck.toNat := by
    rw [x.length_encode, Holds.length_encode]
  have hh : Holds buf x.encode.length x.toAtrHead := ⟨IsoAtr.spells_head h, by omega⟩
  by_cases hmore : x.more.length < atrMaxProtocols
  · cases htck : x.hasTck with
    | false =>
      rw [htck, Bool.toNat_false, Nat.add_zero] at hlen
      have hacc := atrInitFromArray_noTck hh hmore (lastTck_of_noTck htck) atr
      rw [← hlen] at hacc
      -- no TCK in both
      exact iff_of_true hacc ⟨hmore, by simp [htck]⟩
    | true =>
      rw [htck, Bool.toNat_true] at hlen
      by_cases hlast : lastTck 0 x.more = 0
      · -- TCK is taken for a byte after the ATR
        obtain ⟨-, hshort⟩ := atrInitFromArray_noTck hh hmore hlast atr
        refine iff_of_false (fun hacc => ?_) fun hready => ?_
        · omega
        · exact lastTck_ne_zero.mpr (hready.2 htck) hlast
      · have hxor : checkTck buf x.encode.length = 0 := by
          rw [checkTck_eq h]
          exact hcorrect (x.tck_isSome.trans htck)
        have hacc := atrInitFromArray_tck hh hmore hlast (by omega) hxor atr
        rw [← hlen] at hacc
        exact iff_of_true hacc ⟨hmore, fun _ => lastTck_ne_zero.mp hlast⟩
  · -- the record has no room for the groups
    have herr := atrInitFromArray_tooMany hh (by omega) atr
    refine iff_of_false (fun hacc => ?_) fun hready => hmore hready.1
    exact scErrAtr_ne_zero (herr.symm.trans hacc.1)

structure Agrees (prev : Rx) (stream : ℕ → UInt8) (sent : ℕ) : Prop where
  /-- the reception stops after exactly the bytes of the ATR -/
  stops : ∀ x : IsoAtr, Spells stream 0 x.encode → ∀ k ≤ sent,
    (rxAfter prev stream k).idle = true ↔ x.encode.length ≤ k
  /-- a byte that is stored is stored in `atrbuf` -/
  inBuffer : ∀ k < sent, (rxAfter prev stream k).idle = false →
    (rxAfter prev stream k).atrlen < atrMaxSize
  /-- the parser accepts a complete ATR with a correct TCK -/
  accepted : ∀ x : IsoAtr, Spells stream 0 x.encode → x.encode.length ≤ sent → x.TckCorrect →
    ∀ atr, let rx := rxAfter prev stream sent
      (atrInitFromArray atr rx.atrbuf rx.atrlen).2 = 0 ∧
        (atrInitFromArray atr rx.atrbuf rx.atrlen).1.length = x.encode.length

section Agrees

variable {prev : Rx} {stream : ℕ → UInt8} {sent : ℕ}

variable (prev) in
theorem captured {x : IsoAtr} (h : Spells stream 0 x.encode) (hsent : x.encode.length ≤ sent) :
    (rxAfter prev stream sent).atrlen = x.encode.length ∧
      Spells (rxAfter prev stream sent).atrbuf 0 x.encode := by
  obtain ⟨flag, tck, hp⟩ := progress_atr prev h
  rw [idle_of_le hsent hp.idle_eq]
  exact ⟨hp.atrlen_eq, h.congr fun i _ hi => hp.atrbuf_eq i (by omega)⟩

theorem inBuffer_iff :
    (∀ k < sent, (rxAfter prev stream k).idle = false →
      (rxAfter prev stream k).atrlen < atrMaxSize) ↔
      sent ≤ atrMaxSize ∨
        ∃ x : IsoAtr, Spells stream 0 x.encode ∧ x.encode.length ≤ atrMaxSize := by
  constructor
  · intro hin
    by_cases hsent : sent ≤ atrMaxSize
    · exact Or.inl hsent
    right
    -- the byte at the end of the buffer comes after the ATR
    cases hidle : (rxAfter prev stream atrMaxSize).idle with
    | true => exact exists_atr hidle
    | false =>
      have hlt := hin atrMaxSize (by omega) hidle
      rw [atrlen_eq hidle] at hlt
      exact absurd hlt (Nat.lt_irrefl _)
  · intro hok k hk hidle
    rw [atrlen_eq hidle]
    obtain hsent | ⟨x, hx, hlen⟩ := hok
    · omega
    · by_contra hge
      -- the handler had stopped before this byte
      have := (idle_iff prev hx k).mpr (by omega)
      rw [hidle] at this
      cases this

end Agrees

/-- The handler and the parser agree on what a card sends if and only if the parser is ready for the
    ATR, where it is complete and its TCK correct, and what is sent fits into the buffer or starts
    with an ATR that does. -/
theorem agrees_iff (prev : Rx) (stream : ℕ → UInt8) (sent : ℕ) :
    Agrees prev stream sent ↔
      (∀ x : IsoAtr, Spells stream 0 x.encode → x.encode.length ≤ sent → x.TckCorrect →
        ParserReady x.toAtrHead) ∧
      (sent ≤ atrMaxSize ∨
        ∃ x : IsoAtr, Spells stream 0 x.encode ∧ x.encode.length ≤ atrMaxSize) := by
  have hready : ∀ x : IsoAtr, Spells stream 0 x.encode → x.encode.length ≤ sent → x.TckCorrect →
      ∀ atr, (let rx := rxAfter prev stream sent
        (atrInitFromArray atr rx.atrbuf rx.atrlen).2 = 0 ∧
          (atrInitFromArray atr rx.atrbuf rx.atrlen).1.length = x.encode.length) ↔
            ParserReady x.toAtrHead := by
    intro x hx hsent hcorrect atr
    obtain ⟨hlen, hbuf⟩ := captured prev hx hsent
    simp only [hlen]
    -- the record is filled from the bytes of the ATR
    exact accepted_iff hbuf hcorrect atr
  constructor
  · intro h
    refine ⟨fun x hx hsent hcorrect => ?_, inBuffer_iff.mp h.inBuffer⟩
    exact (hready x hx hsent hcorrect clearedRecord).mp
      (h.accepted x hx hsent hcorrect clearedRecord)
  · rintro ⟨hparser, hbuffer⟩
    exact ⟨fun x hx k _ => idle_iff prev hx k, inBuffer_iff.mpr hbuffer,
      fun x hx hsent hcorrect atr =>
        (hready x hx hsent hcorrect atr).mpr (hparser x hx hsent hcorrect)⟩

def freshRx : Rx := ⟨⟨0, 0, false⟩, 0, fun _ => 0, false⟩

def endlessTd (i : ℕ) : UInt8 := if i = 0 then 0x3B else 0x80

/-- TD1 names T=1, TD2 names T=0, and TCK is 01 -/
def mixedAtr (i : ℕ) : UInt8 := [0x3B, 0x80, 0x81, 0x00, 0x01].getD i 0

/-- TD bytes without an end are stored beyond `atrbuf`. Of an ATR whose TD bytes name T=1 and then
    T=0 the handler takes five bytes, and the parser four. -/
theorem endlessTd_overruns :
    ((rxAfter freshRx endlessTd 33).idle = false ∧ (rxAfter freshRx endlessTd 33).atrlen = 33 ∧
      ¬ Agrees freshRx endlessTd 34) ∧
    ((rxAfter freshRx mixedAtr 4).idle = false ∧ (rxAfter freshRx mixedAtr 5).idle = true ∧
      checkTck mixedAtr 5 = 0 ∧ (atrInitFromArray clearedRecord mixedAtr 5).1.length = 4) := by
  have hidle : (rxAfter freshRx endlessTd 33).idle = false := by decide +kernel
  have hlen : (rxAfter freshRx endlessTd 33).atrlen = 33 := by decide +kernel
  refine ⟨⟨hidle, hlen, fun h => ?_⟩, by decide +kernel⟩
  have hin := h.inBuffer 33 (by decide) hidle
  -- the store was beyond the buffer
  rw [hlen] at hin
  exact absurd hin (by decide)

end NucKernel.SmartCard.Atr
