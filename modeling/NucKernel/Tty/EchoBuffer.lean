import NucKernel.Library.Ring
import NucKernel.Library.Runs

/-!
# The echo buffer of the line discipline (`n_tty.c`)

Characters to be echoed wait in a ring, together with operations on the column, until the driver has
room for them. An operation is a group of two or three bytes, and so are a control character to be
shown as `^X` and a character that looks like the start of a group. When the ring is full, each byte
that is added makes room by dropping the oldest group.

## Modelling

- what `do_output_char` does to the columns and the space is a parameter; what is written to the
  device is left out
- `N_TTY_BUF_SIZE` and `iscntrl` are not part of the source: 4096, and the codes 0 to 31 and 127
- each function is one step, as `echo_lock` is held
-/

namespace NucKernel.Tty.EchoBuffer

open NucKernel.Library

/-- `N_TTY_BUF_SIZE` -/
def bufSize : ℕ := 4096

/-- `ECHO_OP_START` -/
def opStart : UInt8 := 0xff

/-- `ECHO_OP_MOVE_BACK_COL` -/
def opMoveBackCol : UInt8 := 0x80

/-- `ECHO_OP_SET_CANON_COL` -/
def opSetCanonCol : UInt8 := 0x81

/-- `ECHO_OP_ERASE_TAB` -/
def opEraseTab : UInt8 := 0x82

def isCntrl (c : UInt8) : Bool := c < 32 || c = 127

structure NTtyData where
  echoBuf : ℕ → UInt8
  echoPos : ℕ
  echoCnt : ℕ
  echoOverrun : Bool
  column : ℕ
  canonColumn : ℕ

def NTtyData.init : NTtyData := ⟨fun _ => 0, 0, 0, false, 0, 0⟩

def NTtyData.content (d : NTtyData) : List UInt8 := ringList d.echoBuf bufSize d.echoPos d.echoCnt

/-! ## Adding -/

def addEchoByte (c : UInt8) (d : NTtyData) : NTtyData :=
  if d.echoCnt = bufSize then
    let d' := { d with echoBuf := Function.update d.echoBuf d.echoPos c, echoOverrun := true }
    if d.echoBuf d.echoPos = opStart then
      if d.echoBuf ((d.echoPos + 1) % bufSize) = opEraseTab then
        { d' with echoPos := (d.echoPos + 3) % bufSize, echoCnt := d.echoCnt - 2 }
      else { d' with echoPos := (d.echoPos + 2) % bufSize, echoCnt := d.echoCnt - 1 }
    else { d' with echoPos := (d.echoPos + 1) % bufSize }
  else
    { d with
      echoBuf := Function.update d.echoBuf ((d.echoPos + d.echoCnt) % bufSize) c
      echoCnt := d.echoCnt + 1 }

def echoMoveBackCol (d : NTtyData) : NTtyData := addEchoByte opMoveBackCol (addEchoByte opStart d)

def echoSetCanonCol (d : NTtyData) : NTtyData := addEchoByte opSetCanonCol (addEchoByte opStart d)

/-- The byte that `echo_erase_tab` stores for `num_chars` -/
def tabByte (numChars : ℕ) (afterTab : Bool) : UInt8 :=
  UInt8.ofNat (numChars % 8 + if afterTab then 0x80 else 0)

def echoEraseTab (numChars : ℕ) (afterTab : Bool) (d : NTtyData) : NTtyData :=
  addEchoByte (tabByte numChars afterTab) (addEchoByte opEraseTab (addEchoByte opStart d))

def echoCharRaw (c : UInt8) (d : NTtyData) : NTtyData :=
  if c = opStart then addEchoByte opStart (addEchoByte opStart d) else addEchoByte c d

/-- `echo_char`, where `echoctl` is `L_ECHOCTL` -/
def echoChar (c : UInt8) (echoctl : Bool) (d : NTtyData) : NTtyData :=
  if c = opStart then addEchoByte opStart (addEchoByte opStart d)
  else if echoctl ∧ isCntrl c ∧ c ≠ 9 then addEchoByte c (addEchoByte opStart d)
  else addEchoByte c d

/-! ## Processing -/

structure Output where
  column : ℕ
  canonColumn : ℕ
  space : ℕ

/-- What `do_output_char` does to the columns and the space, and whether there was space -/
abbrev OutputChar := UInt8 → Output → Output × Bool

def tabWidth (arg : UInt8) (canonColumn : ℕ) : ℕ :=
  8 - (if arg.toNat < 0x80 then arg.toNat + canonColumn else arg.toNat) % 8

/-- A round of the loop of `process_echoes`, for the byte `c` and the two after it: how many bytes
    are done, unless there is no space -/
def processRound (cooked : Bool) (doOutputChar : OutputChar) (c op arg : UInt8) (o : Output) :
    Option ℕ × Output :=
  if c = opStart then
    if op = opEraseTab then
      let numBs := tabWidth arg o.canonColumn
      if numBs > o.space then (none, o)
      else (some 3, { o with column := o.column - numBs, space := o.space - numBs })
    else if op = opSetCanonCol then (some 2, { o with canonColumn := o.column })
    else if op = opMoveBackCol then (some 2, { o with column := o.column - 1 })
    else if op = opStart then
      if o.space = 0 then (none, o)
      else (some 2, { o with column := o.column + 1, space := o.space - 1 })
    else if o.space < 2 then (none, o)
    else (some 2, { o with column := o.column + 2, space := o.space - 2 })
  else if cooked then
    let (o', ok) := doOutputChar c o
    (if ok then some 1 else none, o')
  else if o.space = 0 then (none, o)
  else (some 1, { o with space := o.space - 1 })

section

variable (doOutputChar : OutputChar)

/-- The loop of `process_echoes`: `nr` and the columns when it ends. Every round lowers `nr`, so
    that `echo_cnt` of them are enough. -/
def processLoop (cooked : Bool) (buf : ℕ → UInt8) : ℕ → ℕ → ℤ → Output → ℤ × Output
  | 0, _, nr, o => (nr, o)
  | rounds + 1, cp, nr, o =>
    if nr ≤ 0 then (nr, o)
    else
      match processRound cooked doOutputChar (buf cp) (buf ((cp + 1) % bufSize))
          (buf ((cp + 2) % bufSize)) o with
      | (none, o') => (nr, o')
      | (some k, o') =>
        processLoop cooked buf rounds (if cp + k ≥ bufSize then cp + k - bufSize else cp + k)
          (nr - k) o'

/-- `process_echoes`, where `room` is what `tty_write_room` returns, and `cooked` says that output
    is processed here -/
def processEchoes (room : ℕ) (cooked : Bool) (d : NTtyData) : NTtyData :=
  if d.echoCnt = 0 then d
  else
    let (nr, o) := processLoop doOutputChar cooked d.echoBuf d.echoCnt d.echoPos d.echoCnt
      ⟨d.column, d.canonColumn, room⟩
    let d' := { d with column := o.column, canonColumn := o.canonColumn }
    if nr = 0 then { d' with echoPos := 0, echoCnt := 0, echoOverrun := false }
    else
      let numProcessed := d.echoCnt - nr
      { d' with
        echoPos := (d.echoPos + numProcessed).toNat % bufSize
        echoCnt := nr.toNat
        echoOverrun := if numProcessed > 0 then false else d.echoOverrun }

end

/-! ## Groups -/

/-- What is echoed as a whole -/
inductive EchoGroup where
  | char (c : UInt8) (h : c ≠ opStart)
  | escaped
  | ctrl (c : UInt8) (h : isCntrl c = true)
  | moveBackCol
  | setCanonCol
  | eraseTab (arg : UInt8)

def EchoGroup.bytes : EchoGroup → List UInt8
  | char c _ => [c]
  | escaped => [opStart, opStart]
  | ctrl c _ => [opStart, c]
  | moveBackCol => [opStart, opMoveBackCol]
  | setCanonCol => [opStart, opSetCanonCol]
  | eraseTab arg => [opStart, opEraseTab, arg]

def groupBytes (gs : List EchoGroup) : List UInt8 := gs.flatMap EchoGroup.bytes

def groupLen (c op : UInt8) : ℕ := if c = opStart then if op = opEraseTab then 3 else 2 else 1

theorem isCntrl_ne {c : UInt8} (h : isCntrl c = true) : c ≠ opEraseTab := by
  rintro rfl
  revert h
  decide

theorem groupLen_two {op : UInt8} (hop : op ≠ opEraseTab) : groupLen opStart op = 2 := by
  rw [groupLen, if_pos rfl, if_neg hop]

theorem groupLen_eq (g : EchoGroup) {rest : List UInt8} (f : ℕ → UInt8)
    (hf : ∀ i < (g.bytes ++ rest).length, (g.bytes ++ rest)[i]? = some (f i)) :
    groupLen (f 0) (f 1) = g.bytes.length := by
  -- a group of more than one byte starts with the code and what it stands for
  have hpair : ∀ {op rest'}, g.bytes = opStart :: op :: rest' → f 0 = opStart ∧ f 1 = op := by
    intro op rest' hbytes
    have hstart := hf 0 (by simp [hbytes])
    have hop := hf 1 (by simp [hbytes])
    simp only [hbytes, List.cons_append, List.getElem?_cons_zero, List.getElem?_cons_succ,
      Option.some_inj] at hstart hop
    exact ⟨hstart.symm, hop.symm⟩
  cases g with
  | char c h =>
    -- a character of its own is not the start code
    obtain rfl : c = f 0 := by simpa [EchoGroup.bytes] using hf 0 (by simp [EchoGroup.bytes])
    exact if_neg h
  | ctrl c h =>
    rw [(hpair rfl).1, (hpair rfl).2]
    exact groupLen_two (isCntrl_ne h)
  | escaped =>
    rw [(hpair rfl).1, (hpair rfl).2]
    exact groupLen_two (by decide)
  | moveBackCol =>
    rw [(hpair rfl).1, (hpair rfl).2]
    exact groupLen_two (by decide)
  | setCanonCol =>
    rw [(hpair rfl).1, (hpair rfl).2]
    exact groupLen_two (by decide)
  | eraseTab arg =>
    rw [(hpair rfl).1, (hpair rfl).2]
    rfl

theorem EchoGroup.bytes_length (g : EchoGroup) : 1 ≤ g.bytes.length ∧ g.bytes.length ≤ 3 := by
  cases g <;> simp [EchoGroup.bytes]

theorem groupBytes_cons (g : EchoGroup) (gs : List EchoGroup) :
    groupBytes (g :: gs) = g.bytes ++ groupBytes gs := List.flatMap_cons

theorem groupBytes_append (gs gs' : List EchoGroup) :
    groupBytes (gs ++ gs') = groupBytes gs ++ groupBytes gs' := List.flatMap_append

theorem ring_group {buf : ℕ → UInt8} {pos n : ℕ} (hpos : pos < bufSize) {g : EchoGroup}
    {rest : List UInt8} (h : ringList buf bufSize pos n = g.bytes ++ rest) :
    groupLen (buf pos) (buf ((pos + 1) % bufSize)) = g.bytes.length ∧ g.bytes.length ≤ n ∧
      ringList buf bufSize ((pos + g.bytes.length) % bufSize) (n - g.bytes.length) = rest := by
  have hlen : n = (g.bytes ++ rest).length := by rw [← h, ringList_length]
  refine ⟨?_, by rw [hlen, List.length_append]; omega, ?_⟩
  · -- the bytes of the ring, seen from `echo_pos`
    have hget : ∀ i < (g.bytes ++ rest).length,
        (g.bytes ++ rest)[i]? = some (buf ((pos + i) % bufSize)) := fun i hi => by
      rw [← hlen] at hi
      rw [← h, List.getElem?_eq_getElem (by simpa using hi)]
      simp [ringList]
    simpa [Nat.mod_eq_of_lt hpos] using groupLen_eq g (fun i => buf ((pos + i) % bufSize)) hget
  · rw [← ringList_drop, h, List.drop_left]

/-! ## Adding a group -/

structure NTtyData.Holds (d : NTtyData) (bs : List UInt8) : Prop where
  pos : d.echoPos < bufSize
  cnt : d.echoCnt ≤ bufSize
  content : d.content = bs

theorem NTtyData.Holds.length {d : NTtyData} {bs : List UInt8} (h : d.Holds bs) :
    bs.length = d.echoCnt := by
  rw [← h.content, NTtyData.content, ringList_length]

theorem addEchoByte_full {d : NTtyData} (hfull : d.echoCnt = bufSize) (c : UInt8) :
    addEchoByte c d =
      { d with
        echoBuf := Function.update d.echoBuf d.echoPos c
        echoOverrun := true
        echoPos := (d.echoPos + groupLen (d.echoBuf d.echoPos)
          (d.echoBuf ((d.echoPos + 1) % bufSize))) % bufSize
        echoCnt := bufSize - groupLen (d.echoBuf d.echoPos)
          (d.echoBuf ((d.echoPos + 1) % bufSize)) + 1 } := by
  rw [addEchoByte, if_pos hfull, groupLen]
  simp only [hfull]
  split_ifs <;> rfl

/-- A byte of a group is added, of which `part` is in the ring already. Whole groups make room for
    it, as `part` does not fill the ring. -/
theorem addEchoByte_spec {d : NTtyData} {gs : List EchoGroup} {part : List UInt8}
    (h : d.Holds (groupBytes gs ++ part)) (hpart : part.length ≤ 2) (c : UInt8) :
    ∃ k, (d.echoCnt < bufSize → k = 0 ∧ (addEchoByte c d).echoCnt = d.echoCnt + 1) ∧
      (addEchoByte c d).Holds (groupBytes (gs.drop k) ++ (part ++ [c])) := by
  have hpos := h.pos
  have hcontent := h.content
  rcases h.cnt.lt_or_eq with hroom | hfull
  · -- there is room
    refine ⟨0, fun _ => ⟨rfl, ?_⟩, ?_, ?_, ?_⟩ <;> rw [addEchoByte, if_neg hroom.ne]
    · exact hpos
    · exact hroom
    · rw [NTtyData.content] at hcontent ⊢
      rw [ringList_push _ c hroom, hcontent, List.drop_zero, List.append_assoc]
  · cases gs with
    | nil =>
      -- the ring would hold two bytes only
      have hlen := h.length
      rw [hfull, groupBytes, List.flatMap_nil, List.nil_append, bufSize] at hlen
      omega
    | cons g gs =>
      rw [NTtyData.content, groupBytes_cons, List.append_assoc] at hcontent
      -- the oldest group makes room
      obtain ⟨hgroup, -, hrest⟩ := ring_group hpos hcontent
      obtain ⟨hone, hthree⟩ := g.bytes_length
      refine ⟨1, fun hlt => absurd hfull hlt.ne, ?_⟩
      rw [addEchoByte_full hfull, hgroup]
      refine ⟨Nat.mod_lt _ (by decide), by simp only; omega, ?_⟩
      -- the byte goes where the group started, which is the end of what is left
      have hend : d.echoPos = ((d.echoPos + g.bytes.length) % bufSize +
          (bufSize - g.bytes.length)) % bufSize := by
        rw [Nat.mod_add_mod, Nat.add_assoc, Nat.add_sub_cancel' (by rw [bufSize]; omega),
          Nat.add_mod_right, Nat.mod_eq_of_lt hpos]
      rw [hfull] at hrest
      rw [NTtyData.content]
      simp only
      nth_rewrite 1 [hend]
      rw [ringList_push _ c (by rw [bufSize]; omega), hrest, List.append_assoc]
      rfl

theorem addEchoBytes_spec {d : NTtyData} {gs : List EchoGroup} {part : List UInt8}
    (h : d.Holds (groupBytes gs ++ part)) (bs : List UInt8) (hlen : part.length + bs.length ≤ 3) :
    ∃ k, (d.echoCnt + bs.length ≤ bufSize → k = 0) ∧
      (bs.foldl (fun d c => addEchoByte c d) d).Holds (groupBytes (gs.drop k) ++ (part ++ bs)) := by
  induction bs generalizing d gs part with
  | nil => exact ⟨0, fun _ => rfl, by simpa using h⟩
  | cons c bs ih =>
    rw [List.length_cons] at hlen
    obtain ⟨k, hroom, hbyte⟩ := addEchoByte_spec h (by omega) c
    obtain ⟨k', hroom', hrest⟩ := ih hbyte (by simp; omega)
    refine ⟨k + k', fun hfit => ?_, ?_⟩
    · -- there was room for all bytes
      rw [List.length_cons] at hfit
      obtain ⟨rfl, hcnt⟩ := hroom (by omega)
      rw [hroom' (by omega)]
    · rwa [List.drop_drop, List.append_assoc] at hrest

theorem addGroup_spec {d : NTtyData} {gs : List EchoGroup} (h : d.Holds (groupBytes gs))
    (g : EchoGroup) :
    ∃ k, (d.echoCnt + g.bytes.length ≤ bufSize → k = 0) ∧
      (g.bytes.foldl (fun d c => addEchoByte c d) d).Holds (groupBytes (gs.drop k ++ [g])) := by
  have hnone : d.Holds (groupBytes gs ++ []) := by rwa [List.append_nil]
  obtain ⟨k, hroom, hgroup⟩ := addEchoBytes_spec hnone g.bytes (by simp [g.bytes_length.2])
  refine ⟨k, hroom, ?_⟩
  have hlast : groupBytes [g] = g.bytes := List.append_nil _
  rwa [groupBytes_append, hlast]

/-! ## Processing groups -/

theorem processRound_some {doOutputChar : OutputChar} {cooked : Bool} {c op arg : UInt8}
    {o o' : Output} {k : ℕ}
    (h : processRound cooked doOutputChar c op arg o = (some k, o')) : k = groupLen c op := by
  simp only [processRound] at h
  rw [groupLen]
  split_ifs at h ⊢ <;> simp_all

theorem processLoop_spec (doOutputChar : OutputChar) (cooked : Bool) {buf : ℕ → UInt8}
    {rounds cp n : ℕ} (hcp : cp < bufSize) {gs : List EchoGroup}
    (h : ringList buf bufSize cp n = groupBytes gs) (hn : n ≤ rounds) (o : Output) :
    ∃ (k m : ℕ) (o' : Output), processLoop doOutputChar cooked buf rounds cp n o = ((m : ℤ), o') ∧
      m ≤ n ∧ ringList buf bufSize ((cp + (n - m)) % bufSize) m = groupBytes (gs.drop k) := by
  induction rounds generalizing cp n gs o with
  | zero =>
    -- nothing is left
    obtain rfl : n = 0 := by omega
    exact ⟨gs.length, 0, o, rfl, le_rfl, by simp [groupBytes]⟩
  | succ rounds ih =>
    rw [processLoop]
    by_cases hzero : n = 0
    · subst hzero
      exact ⟨gs.length, 0, o, rfl, le_rfl, by simp [groupBytes]⟩
    · have hstay : ringList buf bufSize ((cp + (n - n)) % bufSize) n = groupBytes (gs.drop 0) := by
        rw [Nat.sub_self, Nat.add_zero, Nat.mod_eq_of_lt hcp, h, List.drop_zero]
      rw [if_neg (by omega)]
      split
      -- there is no space for the group
      next o' hround => exact ⟨0, n, o', rfl, le_rfl, hstay⟩
      next k o' hround =>
        cases gs with
        | nil =>
          -- bytes are left, and so a group is
          have hlen := congrArg List.length h
          rw [ringList_length] at hlen
          exact absurd hlen hzero
        | cons g gs =>
          rw [groupBytes_cons] at h
          obtain ⟨hgroup, hle, hrest⟩ := ring_group hcp h
          obtain ⟨hone, hthree⟩ := g.bytes_length
          obtain rfl : k = g.bytes.length := (processRound_some hround).trans hgroup
          -- the position wraps around at the end of the ring
          have hwrap : (if cp + g.bytes.length ≥ bufSize then cp + g.bytes.length - bufSize
              else cp + g.bytes.length) = (cp + g.bytes.length) % bufSize := by
            rw [bufSize] at hcp ⊢
            split <;> omega
          obtain ⟨k, m, o'', hloop, hm, hleft⟩ :=
            ih (Nat.mod_lt _ (by decide)) hrest (by omega) o'
          refine ⟨k + 1, m, o'', ?_, by omega, ?_⟩
          · rw [hwrap, ← Int.ofNat_sub hle]
            exact hloop
          · rw [List.drop_succ_cons, ← hleft, Nat.mod_add_mod, Nat.add_assoc]
            congr 2
            omega

theorem processEchoes_spec (doOutputChar : OutputChar) {d : NTtyData} {gs : List EchoGroup}
    (h : d.Holds (groupBytes gs)) (room : ℕ) (cooked : Bool) :
    ∃ k, (processEchoes doOutputChar room cooked d).Holds (groupBytes (gs.drop k)) := by
  have hcnt := h.cnt
  rw [processEchoes]
  by_cases hzero : d.echoCnt = 0
  · rw [if_pos hzero]
    exact ⟨0, h⟩
  · obtain ⟨k, m, o', hloop, hm, hleft⟩ := processLoop_spec doOutputChar cooked h.pos h.content
      le_rfl ⟨d.column, d.canonColumn, room⟩
    rw [if_neg hzero, hloop]
    simp only
    split
    next hdone =>
      -- everything was processed, and the ring is reset
      exact ⟨gs.length, (by decide : 0 < bufSize), Nat.zero_le _,
        by simp [groupBytes, NTtyData.content]⟩
    next hdone =>
      -- the rest begins where the loop stopped
      refine ⟨k, Nat.mod_lt _ (by decide), by simp only [Int.toNat_natCast]; omega, ?_⟩
      simp only [NTtyData.content, Int.toNat_natCast]
      rw [← Int.ofNat_sub hm, ← Int.natCast_add, Int.toNat_natCast, hleft]

/-! ## Runs -/

inductive EchoOp where
  | moveBackCol
  | setCanonCol
  | eraseTab (numChars : ℕ) (afterTab : Bool)
  | charRaw (c : UInt8)
  | char (c : UInt8) (echoctl : Bool)
  | process (room : ℕ) (cooked : Bool)
  deriving DecidableEq, Repr

def EchoOp.group : EchoOp → Option EchoGroup
  | moveBackCol => some .moveBackCol
  | setCanonCol => some .setCanonCol
  | eraseTab numChars afterTab => some (.eraseTab (tabByte numChars afterTab))
  | charRaw c => some (if h : c = opStart then .escaped else .char c h)
  | char c echoctl =>
    some (if h : c = opStart then .escaped
      else if hctl : echoctl ∧ isCntrl c ∧ c ≠ 9 then .ctrl c hctl.2.1 else .char c h)
  | process _ _ => none

def echoStep (doOutputChar : OutputChar) (d : NTtyData) : EchoOp → NTtyData
  | .moveBackCol => echoMoveBackCol d
  | .setCanonCol => echoSetCanonCol d
  | .eraseTab numChars afterTab => echoEraseTab numChars afterTab d
  | .charRaw c => echoCharRaw c d
  | .char c echoctl => echoChar c echoctl d
  | .process room cooked => processEchoes doOutputChar room cooked d

/-- The ring holds whole groups before and after a call, which drops some of the oldest ones and
    adds its own. None is dropped where there is room. -/
def Whole (d : NTtyData) (op : EchoOp) (d' : NTtyData) : Prop :=
  ∃ gs k, d.Holds (groupBytes gs) ∧ d'.Holds (groupBytes (gs.drop k ++ op.group.toList)) ∧
    ∀ g, op.group = some g → d.echoCnt + g.bytes.length ≤ bufSize → k = 0

theorem echoStep_group {doOutputChar : OutputChar} {op : EchoOp}
    {g : EchoGroup} (hop : op.group = some g) (d : NTtyData) :
    echoStep doOutputChar d op = g.bytes.foldl (fun d c => addEchoByte c d) d := by
  cases op with
  | moveBackCol =>
    cases hop
    rfl
  | setCanonCol =>
    cases hop
    rfl
  | eraseTab numChars afterTab =>
    cases hop
    rfl
  | charRaw c =>
    cases hop
    rw [echoStep, echoCharRaw]
    split <;> rfl
  | char c echoctl =>
    cases hop
    rw [echoStep, echoChar]
    split_ifs <;> rfl
  | process room cooked => cases hop

theorem echoStep_whole (doOutputChar : OutputChar) (d : NTtyData) (op : EchoOp)
    (h : ∃ gs, d.Holds (groupBytes gs)) :
    ∃ d', some (echoStep doOutputChar d op) = some d' ∧ (∃ gs, d'.Holds (groupBytes gs)) ∧
      Whole d op d' := by
  obtain ⟨gs, hgs⟩ := h
  refine ⟨_, rfl, ?_⟩
  cases hop : op.group with
  | some g =>
    -- the group is added as a whole
    obtain ⟨k, hroom, hadd⟩ := addGroup_spec hgs g
    rw [echoStep_group hop]
    refine ⟨⟨_, hadd⟩, gs, k, hgs, by rwa [hop], ?_⟩
    intro g' hg'
    rw [hop] at hg'
    cases hg'
    exact hroom
  | none =>
    cases op with
    | process room cooked =>
      -- groups are taken from the oldest end
      obtain ⟨k, hprocess⟩ := processEchoes_spec doOutputChar hgs room cooked
      refine ⟨⟨_, hprocess⟩, gs, k, hgs, ?_, nofun⟩
      rw [hop, Option.toList_none, List.append_nil]
      exact hprocess
    | _ => cases hop

/-- **Echo buffer**: along every run of echo operations and of `process_echoes` with any room, the
    ring holds whole groups, from `echo_pos` on, and every call drops whole groups only. -/
theorem echo_buffer_whole (doOutputChar : OutputChar) (ops : List EchoOp) :
    (∃ d, runFrom (fun d op => some (echoStep doOutputChar d op)) .init ops = some d) ∧
      Along (fun d op => some (echoStep doOutputChar d op)) Whole .init ops := by
  refine runs_along (I := fun d => ∃ gs, d.Holds (groupBytes gs)) (C := fun _ => True)
    (fun d op h _ => echoStep_whole doOutputChar d op h) ?_ fun _ _ => trivial
  exact ⟨[], (by decide : 0 < bufSize), Nat.zero_le _, rfl⟩

end NucKernel.Tty.EchoBuffer
