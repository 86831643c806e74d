import NucKernel.Library.Runs

/-!
# Reading back a card's response (`sc_write` and `sc_read` of `nuc970-sc.c`)

`sc_write` runs a whole transaction and leaves the response in `rbuf`; `sc_read` hands it out in
pieces and advances `rhead`. Every read copies from the start of `rbuf`, so only a response that is
fetched by a single read, or one that repeats itself, reaches the user as it is.

## Modelling

- `rbuf` is the list of its first `rtail` bytes
- what `CmdXfrT0` or `CmdXfrT1` leaves behind is part of the event, see `Transfer`
- `sc_write` with more than `MAX_LEN` bytes copies beyond `tbuf` and has no defined effect
- the lock, the registers and the errors raised by the card's removal are left out
-/

namespace NucKernel.SmartCard

open NucKernel.Library

def maxLen : ℕ := 300

def efault : ℤ := 14

/-! ## The two calls -/

structure Sc where
  rbuf : List UInt8
  rhead : ℕ
  err : ℕ
  act : Bool
  tcnt : ℕ
  deriving DecidableEq, Repr

/-- What a transaction with the card leaves in `rbuf`, `rhead` and `err`. -/
inductive Transfer where
  | response (bytes : List UInt8)
  | failed (err : ℕ) (rbuf : List UInt8) (rhead : ℕ) (err_ne : err ≠ 0)
      (rhead_le : rhead ≤ rbuf.length)
  deriving DecidableEq

def Sc.transferred (sc : Sc) : Transfer → Sc
  | .response bytes => { sc with rbuf := bytes, rhead := 0 }
  | .failed err rbuf rhead _ _ => { sc with rbuf := rbuf, rhead := rhead, err := err }

/-- `sc_write`, with the value it returns -/
def scWrite (sc : Sc) (count : ℕ) (copied : Bool) (t : Transfer) : Option (Sc × ℤ) :=
  if count = 0 then some (sc, 0)
  else if sc.act = false then some (sc, 0)
  else if maxLen < count then none
  else
    -- this is a new transaction, drop old data
    let sc := { sc with tcnt := count, err := 0, rbuf := [], rhead := 0 }
    if copied = false then some (sc, -efault)
    else
      let sc := sc.transferred t
      if sc.err ≠ 0 then some (sc, -efault) else some (sc, sc.tcnt)

structure ReadResult where
  sc : Sc
  ret : ℤ
  bytes : List UInt8

def Sc.readLen (sc : Sc) (count : ℕ) : ℕ := min (min count maxLen) (sc.rbuf.length - sc.rhead)

/-- `sc_read`, with the value it returns and the bytes it hands out -/
def scRead (sc : Sc) (count : ℕ) (copied : Bool) : ReadResult :=
  if count = 0 ∨ sc.rhead = sc.rbuf.length then ⟨sc, 0, []⟩
  else if sc.err ≠ 0 then ⟨sc, -efault, []⟩
  else if copied = false then ⟨sc, -efault, []⟩
  else
    -- the copy starts at `rbuf[0]`, not at `rbuf[rhead]`
    ⟨{ sc with rhead := sc.rhead + sc.readLen count }, sc.readLen count,
      sc.rbuf.take (sc.readLen count)⟩

/-! ## Sequences of calls -/

inductive Call where
  | write (count : ℕ) (copied : Bool) (t : Transfer)
  | read (count : ℕ) (copied : Bool)

/-- The driver, and the bytes read since the last transaction -/
structure Session where
  sc : Sc
  delivered : List UInt8
  deriving DecidableEq, Repr

def Sc.starts (sc : Sc) (count : ℕ) : Bool := count ≠ 0 && sc.act

def callStep (s : Session) : Call → Option Session
  | .write count copied t =>
    (scWrite s.sc count copied t).map fun r =>
      ⟨r.1, if s.sc.starts count then [] else s.delivered⟩
  | .read count copied =>
    let r := scRead s.sc count copied
    some ⟨r.sc, s.delivered ++ r.bytes⟩

/-- After a read, what has been delivered is the beginning of the response; the read returns 0 only
    if the whole response had been delivered before. -/
def ReadsBack (s : Session) (c : Call) (s' : Session) : Prop :=
  match c with
  | .write _ _ _ => True
  | .read count copied =>
    s'.delivered <+: s.sc.rbuf ∧
      ((scRead s.sc count copied).ret = 0 → s.sc.rhead = s.sc.rbuf.length)

/-- The `len` bytes at `pos` are the first `len` bytes again. -/
def RepeatsAt (bytes : List UInt8) (pos len : ℕ) : Prop :=
  ∀ k < len, bytes[pos + k]? = bytes[k]?

/-- The read asks for something, unless nothing is left; and when it hands out bytes, it is the
    first read of the response, or the response repeats itself at this place. -/
def ReadIsSafe (s : Session) (c : Call) (_ : Session) : Prop :=
  match c with
  | .write _ _ _ => True
  | .read count copied =>
    s.sc.rhead = s.sc.rbuf.length ∨
      (0 < count ∧ (s.sc.err = 0 → copied = true → s.sc.rhead = 0 ∨
        RepeatsAt s.sc.rbuf s.sc.rhead (s.sc.readLen count)))

instance (s : Session) (c : Call) (s' : Session) : Decidable (ReadsBack s c s') := by
  cases c <;> (unfold ReadsBack; infer_instance)

/-! ## The bytes that are delivered -/

/-- A response without error has been delivered up to `rhead`. -/
structure Consistent (s : Session) : Prop where
  rhead_le : s.sc.rhead ≤ s.sc.rbuf.length
  delivered : s.sc.err = 0 → s.delivered = s.sc.rbuf.take s.sc.rhead
  failed : s.sc.err ≠ 0 → s.delivered = []

theorem consistent_write {s s' : Session} {count : ℕ} {copied : Bool} {t : Transfer}
    (h : Consistent s) (hstep : callStep s (.write count copied t) = some s') :
    Consistent s' := by
  obtain ⟨⟨sc, ret⟩, hwrite, rfl⟩ := Option.map_eq_some_iff.mp hstep
  simp only [scWrite] at hwrite
  split at hwrite
  case isTrue hcount =>
    cases hwrite
    -- nothing is written
    have hidle : s.sc.starts count = false := by simp [Sc.starts, hcount]
    rw [hidle]
    exact h
  case isFalse hcount =>
    split at hwrite
    case isTrue hact =>
      cases hwrite
      -- the card is not active
      have hidle : s.sc.starts count = false := by simp [Sc.starts, hact]
      rw [hidle]
      exact h
    case isFalse hact =>
      have hstart : s.sc.starts count = true := by
        simpa [Sc.starts, hcount] using hact
      simp only [hstart, if_true]
      split at hwrite
      · cases hwrite
      · split at hwrite
        · cases hwrite
          -- the copy fails, and there is no response
          exact ⟨Nat.le_refl 0, fun _ => rfl, fun _ => rfl⟩
        · cases t with
          | response bytes =>
            cases hwrite
            -- nothing of the new response has been delivered
            exact ⟨Nat.zero_le _, fun _ => rfl, fun _ => rfl⟩
          | failed err rbuf rhead err_ne rhead_le =>
            split at hwrite
            · cases hwrite
              exact ⟨rhead_le, fun herr => absurd herr err_ne, fun _ => rfl⟩
            · exact absurd err_ne (by assumption)

theorem scRead_cases (sc : Sc) (count : ℕ) (copied : Bool) :
    ((count = 0 ∨ sc.rhead = sc.rbuf.length) ∧ scRead sc count copied = ⟨sc, 0, []⟩) ∨
      (0 < count ∧ sc.rhead ≠ sc.rbuf.length ∧ ¬ (sc.err = 0 ∧ copied = true) ∧
        scRead sc count copied = ⟨sc, -efault, []⟩) ∨
      (0 < count ∧ sc.rhead ≠ sc.rbuf.length ∧ (sc.err = 0 ∧ copied = true) ∧
        scRead sc count copied =
          ⟨{ sc with rhead := sc.rhead + sc.readLen count }, sc.readLen count,
            sc.rbuf.take (sc.readLen count)⟩) := by
  unfold scRead
  split
  -- there is nothing to read
  case isTrue hidle => exact .inl ⟨hidle, rfl⟩
  case isFalse hgo =>
    obtain ⟨hcount, hleft⟩ := not_or.mp hgo
    refine .inr ?_
    split
    -- the transaction has failed, or the copy fails
    case isTrue herr => exact .inl ⟨by omega, hleft, fun h => herr h.1, rfl⟩
    case isFalse herr =>
      split
      case isTrue hcopy => exact .inl ⟨by omega, hleft, fun h => by simp [hcopy] at h, rfl⟩
      case isFalse hcopy =>
        exact .inr ⟨by omega, hleft, ⟨by simpa using herr, by simpa using hcopy⟩, rfl⟩

theorem Sc.rhead_add_readLen {sc : Sc} (h : sc.rhead ≤ sc.rbuf.length) (count : ℕ) :
    sc.rhead + sc.readLen count ≤ sc.rbuf.length := by
  unfold Sc.readLen
  omega

theorem take_append_take_prefix_iff {bytes : List UInt8} {pos len : ℕ}
    (h : pos + len ≤ bytes.length) :
    bytes.take pos ++ bytes.take len <+: bytes ↔ RepeatsAt bytes pos len := by
  have hsplit : bytes.take pos ++ bytes.take len <+: bytes ↔
      bytes.take len <+: bytes.drop pos := by
    -- the beginning is split off
    nth_rewrite 3 [← List.take_append_drop pos bytes]
    exact List.prefix_append_right_inj _
  have hlen : (bytes.take len).length = len := by simp; omega
  rw [hsplit, List.prefix_iff_eq_take, hlen, List.ext_getElem?_iff]
  constructor
  · intro heq k hk
    have hk' := heq k
    rw [List.getElem?_take_of_lt hk, List.getElem?_take_of_lt hk, List.getElem?_drop] at hk'
    exact hk'.symm
  · intro hrep k
    rcases Nat.lt_or_ge k len with hk | hk
    · -- these bytes are compared
      rw [List.getElem?_take_of_lt hk, List.getElem?_take_of_lt hk, List.getElem?_drop]
      exact (hrep k hk).symm
    · rw [List.getElem?_take_eq_none hk, List.getElem?_take_eq_none hk]

theorem Consistent.isPrefix {s : Session} (h : Consistent s) : s.delivered <+: s.sc.rbuf := by
  by_cases herr : s.sc.err = 0
  case pos =>
    rw [h.delivered herr]
    exact List.take_prefix _ _
  case neg =>
    rw [h.failed herr]
    exact List.nil_prefix

/-! ## When the response is read back -/

theorem readsBack_iff {s s' : Session} {c : Call} (h : Consistent s)
    (hstep : callStep s c = some s') : ReadsBack s c s' ↔ ReadIsSafe s c s' := by
  cases c with
  | write count copied t => exact Iff.rfl
  | read count copied =>
    obtain rfl := Option.some.inj hstep
    rcases scRead_cases s.sc count copied with
      ⟨hidle, hread⟩ | ⟨hcount, hleft, hfail, hread⟩ | ⟨hcount, hleft, hok, hread⟩
    case inl =>
      simp only [ReadsBack, ReadIsSafe, hread, List.append_nil, h.isPrefix, true_and, forall_const]
      constructor
      · exact .inl
      · -- the read returns 0, as it should at the end only
        rintro (hend | ⟨hcount, -⟩)
        · exact hend
        · exact hidle.resolve_left (by omega)
    case inr.inl =>
      have hret : -efault ≠ 0 := by decide
      simp only [ReadsBack, ReadIsSafe, hread, List.append_nil, h.isPrefix, hret, false_imp_iff,
        true_and, true_iff]
      -- nothing is handed out
      exact .inr ⟨hcount, fun herr hcopy => absurd ⟨herr, hcopy⟩ hfail⟩
    case inr.inr =>
      obtain ⟨herr, rfl⟩ := hok
      have hbound := Sc.rhead_add_readLen h.rhead_le count
      have hret : ((s.sc.readLen count : ℕ) : ℤ) ≠ 0 := by
        have hle := h.rhead_le
        unfold Sc.readLen maxLen
        omega
      -- a response is continued by its own beginning if it repeats itself there
      simp only [ReadsBack, ReadIsSafe, hread, h.delivered herr, hret, hleft, hcount, herr,
        take_append_take_prefix_iff hbound, false_imp_iff, and_true, false_or, true_and,
        forall_const]
      refine ⟨.inr, fun hsafe => hsafe.elim (fun hzero k _ => ?_) id⟩
      -- the first read hands out the beginning
      rw [hzero, Nat.zero_add]

theorem consistent_step {s s' : Session} {c : Call} (h : Consistent s)
    (hstep : callStep s c = some s') (hsafe : ReadIsSafe s c s') : Consistent s' := by
  cases c with
  | write count copied t => exact consistent_write h hstep
  | read count copied =>
    have hback := (readsBack_iff h hstep).mpr hsafe
    obtain rfl := Option.some.inj hstep
    rcases scRead_cases s.sc count copied with
      ⟨-, hread⟩ | ⟨-, -, -, hread⟩ | ⟨-, -, hok, hread⟩
    case inl => simpa [hread] using h
    case inr.inl => simpa [hread] using h
    case inr.inr =>
      have hbound := Sc.rhead_add_readLen h.rhead_le count
      simp only [hread] at hback ⊢
      refine ⟨hbound, fun _ => ?_, fun herr => absurd hok.1 herr⟩
      -- the delivered bytes are counted by `rhead`
      have hlen : (s.delivered ++ s.sc.rbuf.take (s.sc.readLen count)).length =
          s.sc.rhead + s.sc.readLen count := by
        rw [h.delivered hok.1, List.length_append, List.length_take, List.length_take]
        omega
      exact (List.prefix_iff_eq_take.mp hback.1).trans (by rw [hlen])

def opened (act : Bool) : Session := ⟨⟨[], 0, 0, act, 0⟩, []⟩

/-- **When a response is read back as it is**: in a run of transactions and reads, every read
    delivers the next bytes of the response exactly if every read is safe. -/
theorem readsBack_along_iff (act : Bool) (calls : List Call) :
    Along callStep ReadsBack (opened act) calls ↔ Along callStep ReadIsSafe (opened act) calls := by
  refine along_iff (I := Consistent) ?_ ?_ ?_
  · intro s c s' h hstep
    exact readsBack_iff h hstep
  · intro s c s' h hstep hsafe
    exact consistent_step h hstep hsafe
  · exact ⟨Nat.le_refl 0, fun _ => rfl, fun _ => rfl⟩

/-- A response of four bytes that is read in two halves: the first half is delivered twice. -/
theorem halves_not_readBack :
    ¬ Along callStep ReadsBack (opened true)
      [.write 5 true (.response [0x11, 0x22, 0x90, 0x00]), .read 2 true, .read 2 true] := by
  decide

end NucKernel.SmartCard
