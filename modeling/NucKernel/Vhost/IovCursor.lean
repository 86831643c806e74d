import Mathlib.Algebra.GroupWithZero.Nat
import NucKernel.Library.Runs

/-!
# The cursor of a list of buffers (`vringh.c`)

`vringh_iov_xfer` moves bytes from or to the buffers of a chain, one after the other. The buffer it
stops in is shortened, and `consumed` counts by how much, so that base and length can be put right
again when the rest of it is moved. `__vringh_iov` fills the list with the next chain.

## Modelling

- pointers and `size_t` have 32 bits, and the transfer of a piece succeeds
- the list has as many elements as `used` says; what is behind them is not read
- the elements of the next chain are given, where `__vringh_iov` takes them from the descriptors
-/

namespace NucKernel.Vhost

open NucKernel.Library

structure Kvec where
  iovBase : BitVec 32
  iovLen : ℕ
  deriving DecidableEq, Repr

/-- The addresses of a buffer -/
def Kvec.bytes (e : Kvec) : List (BitVec 32) :=
  (List.range e.iovLen).map fun k => e.iovBase + BitVec.ofNat 32 k

def chainBytes (es : List Kvec) : List (BitVec 32) := es.flatMap Kvec.bytes

structure VringhKiov where
  iov : List Kvec
  i : ℕ
  consumed : ℕ
  deriving DecidableEq, Repr

/-- What a transfer has made of the elements from `i` on: how many are finished, and the pieces -/
structure Xfer where
  elems : List Kvec
  finished : ℕ
  consumed : ℕ
  pieces : List Kvec

/-- The loop of `vringh_iov_xfer`, over the elements from `i` on -/
def xferLoop : List Kvec → ℕ → ℕ → Xfer
  | [], _, consumed => ⟨[], 0, consumed, []⟩
  | e :: es, len, consumed =>
    if len = 0 then ⟨e :: es, 0, consumed, []⟩
    else
      let partlen := min e.iovLen len
      let consumed' := (consumed + partlen) % 2 ^ 32
      let e' : Kvec := ⟨e.iovBase + BitVec.ofNat 32 partlen, e.iovLen - partlen⟩
      if e'.iovLen = 0 then
        let e'' : Kvec := ⟨e'.iovBase - BitVec.ofNat 32 consumed', consumed'⟩
        let rest := xferLoop es (len - partlen) 0
        ⟨e'' :: rest.elems, rest.finished + 1, rest.consumed, ⟨e.iovBase, partlen⟩ :: rest.pieces⟩
      else
        -- `partlen` is `len`, so that this was the last round
        ⟨e' :: es, 0, consumed', [⟨e.iovBase, partlen⟩]⟩

/-- `vringh_iov_xfer`, with the pieces that were moved -/
def VringhKiov.vringhIovXfer (s : VringhKiov) (len : ℕ) : VringhKiov × List Kvec :=
  let x := xferLoop (s.iov.drop s.i) len s.consumed
  (⟨s.iov.take s.i ++ x.elems, s.i + x.finished, x.consumed⟩, x.pieces)

/-- How a list is given to `__vringh_iov`: for reading, for writing alone, or for writing beside one
    for reading -/
inductive Role where
  | riov
  | wiovAlone
  | wiov
  deriving DecidableEq, Repr

/-- `__vringh_iov`: the reset of the list, and the elements of the chain that are added to it -/
def VringhKiov.vringhIov (s : VringhKiov) (role : Role) (chain : List Kvec) : VringhKiov :=
  match role with
  | .riov => ⟨chain, 0, s.consumed⟩
  | .wiovAlone => ⟨chain, 0, s.consumed⟩
  | .wiov => ⟨s.iov ++ chain, s.i, s.consumed⟩

/-! ## Pieces of a chain -/

def shorten (c : ℕ) : List Kvec → List Kvec
  | [] => []
  | e :: es => ⟨e.iovBase + BitVec.ofNat 32 c, e.iovLen - c⟩ :: es

def Inside (c : ℕ) : List Kvec → Prop
  | [] => c = 0
  | e :: _ => c < e.iovLen

/-- Lengths of buffers are positive. -/
def Filled (es : List Kvec) : Prop := ∀ e ∈ es, 1 ≤ e.iovLen ∧ e.iovLen < 2 ^ 32

theorem bytes_length (e : Kvec) : e.bytes.length = e.iovLen := by
  rw [Kvec.bytes, List.length_map, List.length_range]

theorem bytes_drop (e : Kvec) (c : ℕ) :
    Kvec.bytes ⟨e.iovBase + BitVec.ofNat 32 c, e.iovLen - c⟩ = e.bytes.drop c := by
  apply List.ext_getElem
  · simp [Kvec.bytes]
  · intro k hk hk'
    simp [Kvec.bytes, BitVec.add_assoc, BitVec.ofNat_add]

theorem bytes_take (e : Kvec) {len : ℕ} (hlen : len ≤ e.iovLen) :
    Kvec.bytes ⟨e.iovBase, len⟩ = e.bytes.take len := by
  apply List.ext_getElem
  · simp [Kvec.bytes, hlen]
  · intro k hk hk'
    simp [Kvec.bytes]

theorem filled_cons {e : Kvec} {es : List Kvec} (h : Filled (e :: es)) :
    (1 ≤ e.iovLen ∧ e.iovLen < 2 ^ 32) ∧ Filled es :=
  ⟨h e (List.mem_cons_self ..), fun e' he' => h e' (List.mem_cons_of_mem e he')⟩

theorem Filled.inside {es : List Kvec} (h : Filled es) : Inside 0 es := by
  cases es with
  | nil => rfl
  | cons e es => exact (filled_cons h).1.1

@[simp] theorem shorten_zero (es : List Kvec) : shorten 0 es = es := by
  cases es with
  | nil => rfl
  | cons e es => simp [shorten]

theorem chainBytes_append (es es' : List Kvec) :
    chainBytes (es ++ es') = chainBytes es ++ chainBytes es' := List.flatMap_append

theorem chainBytes_cons (e : Kvec) (es : List Kvec) :
    chainBytes (e :: es) = e.bytes ++ chainBytes es := List.flatMap_cons

theorem restored (e : Kvec) {c : ℕ} (hc : c ≤ e.iovLen) (hlen : e.iovLen < 2 ^ 32) :
    (⟨e.iovBase + BitVec.ofNat 32 c + BitVec.ofNat 32 (e.iovLen - c) -
        BitVec.ofNat 32 ((c + (e.iovLen - c)) % 2 ^ 32), (c + (e.iovLen - c)) % 2 ^ 32⟩ : Kvec) =
      e := by
  rw [Nat.add_sub_cancel' hc, Nat.mod_eq_of_lt hlen, BitVec.add_assoc, ← BitVec.ofNat_add,
    Nat.add_sub_cancel' hc, BitVec.add_sub_cancel]

theorem xferLoop_spec {es : List Kvec} (h : Filled es) {c : ℕ} (hc : Inside c es) (len : ℕ) :
    ∃ pre post c' pieces, es = pre ++ post ∧ Inside c' post ∧
      xferLoop (shorten c es) len c = ⟨pre ++ shorten c' post, pre.length, c', pieces⟩ ∧
      chainBytes pieces = ((chainBytes es).drop c).take len ∧
      (chainBytes pre).length + c' = c + (chainBytes pieces).length := by
  induction es generalizing c len with
  | nil =>
    -- no buffer is left
    obtain rfl : c = 0 := hc
    exact ⟨[], [], 0, [], rfl, rfl, rfl, by simp [chainBytes], rfl⟩
  | cons e es ih =>
    obtain ⟨⟨hpos, hlt⟩, hfilled⟩ := filled_cons h
    replace hc : c < e.iovLen := hc
    rw [shorten, xferLoop]
    by_cases hzero : len = 0
    · subst hzero
      -- nothing is left to move
      exact ⟨[], e :: es, c, [], rfl, hc, rfl, by simp [chainBytes], by simp [chainBytes]⟩
    · rw [if_neg hzero]
      by_cases hend : e.iovLen - c ≤ len
      · -- the buffer is moved to its end
        obtain ⟨pre, post, c', pieces, rfl, hinside, hloop, hbytes, hcount⟩ :=
          ih hfilled hfilled.inside (len - (e.iovLen - c))
        rw [shorten_zero] at hloop
        refine ⟨e :: pre, post, c', ⟨e.iovBase + BitVec.ofNat 32 c, e.iovLen - c⟩ :: pieces, rfl,
          hinside, ?_, ?_, ?_⟩
        · -- the buffer has its base and length again
          simp only [Nat.min_eq_left hend, Nat.sub_self, if_true, hloop,
            restored e (Nat.le_of_lt hc) hlt]
          rfl
        · have hdrop : (e.bytes ++ chainBytes (pre ++ post)).drop c =
              e.bytes.drop c ++ chainBytes (pre ++ post) :=
            List.drop_append_of_le_length (by rw [bytes_length]; omega)
          -- all of the buffer that is left is moved
          have hwhole : (e.bytes.drop c).take len = e.bytes.drop c :=
            List.take_of_length_le (by rw [List.length_drop, bytes_length]; exact hend)
          rw [chainBytes_cons, chainBytes_cons, bytes_drop, hbytes, List.drop_zero, hdrop,
            List.take_append, hwhole, List.length_drop, bytes_length]
        · rw [chainBytes_cons, chainBytes_cons, List.length_append, List.length_append,
            bytes_length, bytes_length]
          simp only
          omega
      · -- the transfer ends inside of the buffer
        have hlen : len < e.iovLen - c := Nat.lt_of_not_le hend
        refine ⟨[], e :: es, c + len, [⟨e.iovBase + BitVec.ofNat 32 c, len⟩], rfl,
          show c + len < e.iovLen by omega, ?_, ?_, ?_⟩
        · -- the buffer is shortened once more
          simp only [Nat.min_eq_right (Nat.le_of_lt hlen), shorten, BitVec.ofNat_add,
            Nat.mod_eq_of_lt (show c + len < 2 ^ 32 by omega), BitVec.add_assoc, Nat.sub_sub,
            if_neg (show ¬ e.iovLen - (c + len) = 0 by omega)]
          rfl
        · -- the piece is the beginning of what is left
          have hpiece := bytes_take ⟨e.iovBase + BitVec.ofNat 32 c, e.iovLen - c⟩
            (Nat.le_of_lt hlen)
          have hdrop : (e.bytes ++ chainBytes es).drop c = e.bytes.drop c ++ chainBytes es :=
            List.drop_append_of_le_length (by rw [bytes_length]; omega)
          rw [chainBytes_cons, hpiece, bytes_drop, chainBytes_cons, hdrop,
            List.take_append_of_le_length (by rw [List.length_drop, bytes_length]; omega)]
          exact List.append_nil _
        · simp [chainBytes, bytes_length]

/-! ## Runs -/

inductive IovOp where
  | refill (role : Role) (chain : List Kvec)
  | xfer (len : ℕ)
  deriving DecidableEq, Repr

/-- A list, the chain it was filled with last, how many of its bytes were moved, and the bytes moved
    by the last call -/
structure IovRun where
  kiov : VringhKiov
  chain : List Kvec
  pos : ℕ
  moved : List (BitVec 32)

def IovRun.init : IovRun := ⟨⟨[], 0, 0⟩, [], 0, []⟩

def iovStep (s : IovRun) : IovOp → Option IovRun
  | .refill role chain => some ⟨s.kiov.vringhIov role chain, chain, 0, []⟩
  | .xfer len =>
    let (kiov, pieces) := s.kiov.vringhIovXfer len
    some ⟨kiov, s.chain, s.pos + (chainBytes pieces).length, chainBytes pieces⟩

/-- A transfer moves the next bytes of the chain, and the elements that were passed over are as they
    are in the chain. -/
structure Consecutive (s : IovRun) (op : IovOp) (s' : IovRun) : Prop where
  moved : ∀ len, op = .xfer len → s'.moved = ((chainBytes s.chain).drop s.pos).take len
  restored : s'.kiov.iov.take s'.kiov.i = s'.chain.take s'.kiov.i ∧ s'.kiov.i ≤ s'.chain.length

/-- Lengths are positive. A list is reset when it is filled, and the chain before was not left
    inside of a buffer. -/
def IovOp.Fits (s : IovRun) : IovOp → Prop
  | .refill role chain => role ≠ .wiov ∧ s.kiov.consumed = 0 ∧ Filled chain
  | .xfer _ => True

instance (s : IovRun) : (op : IovOp) → Decidable (op.Fits s)
  | .refill _ chain =>
    inferInstanceAs (Decidable (_ ∧ _ ∧ ∀ e ∈ chain, 1 ≤ e.iovLen ∧ e.iovLen < 2 ^ 32))
  | .xfer _ => .isTrue trivial

structure IovRun.Inv (s : IovRun) : Prop where
  filled : Filled s.chain
  stands : ∃ pre post, s.chain = pre ++ post ∧ Inside s.kiov.consumed post ∧
    s.kiov.iov = pre ++ shorten s.kiov.consumed post ∧ s.kiov.i = pre.length ∧
    s.pos = (chainBytes pre).length + s.kiov.consumed

theorem IovRun.Inv.restored {s : IovRun} (h : s.Inv) :
    s.kiov.iov.take s.kiov.i = s.chain.take s.kiov.i ∧ s.kiov.i ≤ s.chain.length := by
  obtain ⟨pre, post, hchain, -, hiov, hi, -⟩ := h.stands
  rw [hiov, hchain, hi, List.take_left, List.take_left]
  exact ⟨rfl, by simp⟩

theorem iovStep_consecutive (s : IovRun) (op : IovOp) (h : s.Inv) (hop : op.Fits s) :
    ∃ s', iovStep s op = some s' ∧ s'.Inv ∧ Consecutive s op s' := by
  cases op with
  | refill role chain =>
    obtain ⟨hrole, hconsumed, hfilled⟩ := hop
    -- the list is reset
    have hkiov : s.kiov.vringhIov role chain = ⟨chain, 0, 0⟩ := by
      cases role with
      | riov => rw [VringhKiov.vringhIov, hconsumed]
      | wiovAlone => rw [VringhKiov.vringhIov, hconsumed]
      | wiov => exact absurd rfl hrole
    have hinv : IovRun.Inv ⟨⟨chain, 0, 0⟩, chain, 0, []⟩ :=
      -- nothing of the new chain has been moved
      ⟨hfilled, [], chain, rfl, hfilled.inside, by simp, rfl, rfl⟩
    refine ⟨_, rfl, ?_⟩
    rw [hkiov]
    exact ⟨hinv, nofun, hinv.restored⟩
  | xfer len =>
    obtain ⟨pre, post, hchain, hinside, hiov, hi, hpos⟩ := h.stands
    -- the buffers that are left have a length
    have hfilled : Filled post := fun e he => h.filled e (hchain ▸ List.mem_append_right pre he)
    obtain ⟨pre', post', c', pieces, hpost, hinside', hloop, hbytes, hcount⟩ :=
      xferLoop_spec hfilled hinside len
    -- the buffers before are not touched
    have hxfer : s.kiov.vringhIovXfer len =
        (⟨pre ++ (pre' ++ shorten c' post'), pre.length + pre'.length, c'⟩, pieces) := by
      rw [VringhKiov.vringhIovXfer, hiov, hi, List.drop_left, List.take_left, hloop]
    have hinv : IovRun.Inv ⟨⟨pre ++ (pre' ++ shorten c' post'), pre.length + pre'.length, c'⟩,
        s.chain, s.pos + (chainBytes pieces).length, chainBytes pieces⟩ := by
      refine ⟨h.filled, pre ++ pre', post', ?_, hinside', ?_, ?_, ?_⟩
      · rw [hchain, hpost, List.append_assoc]
      · rw [List.append_assoc]
      · rw [List.length_append]
      · -- the bytes moved add up
        simp only [hpos, chainBytes_append, List.length_append]
        omega
    refine ⟨_, by rw [iovStep, hxfer], hinv, ?_, hinv.restored⟩
    rintro len ⟨⟩
    -- the bytes are those behind the ones moved before
    rw [hchain, hpos, chainBytes_append, ← List.drop_drop, List.drop_left]
    exact hbytes

/-- **Cursor**: for every run that fills the list with chains of buffers and moves bytes, if each
    chain is put into a list that is reset and that was not left inside of a buffer, every transfer
    moves the next bytes of the chain, and the buffers passed over have their base and length. -/
theorem vringh_iov_cursor (ops : List IovOp)
    (hops : Admitted iovStep (fun s op => op.Fits s) .init ops) :
    (∃ s, runFrom iovStep .init ops = some s) ∧ Along iovStep Consecutive .init ops :=
  admitted_along (I := IovRun.Inv) iovStep_consecutive
    ⟨nofun, [], [], rfl, rfl, rfl, rfl, rfl⟩ hops

theorem vringh_iov_cursor_two :
    Along iovStep Consecutive .init [.refill .riov [⟨4096, 8⟩, ⟨8192, 4⟩], .xfer 5, .xfer 6,
      .xfer 9, .refill .riov [⟨12288, 6⟩], .xfer 2] :=
  (vringh_iov_cursor _ (by decide)).2

/-- Four of eight bytes are read, and the list is filled with another chain. When its first buffer
    at 8192 with 8 bytes is read, it is put to 8188 with 12 bytes. A list for writing still has the
    old chain, of which the next bytes are moved. -/
theorem refilled_inside_buffer :
    (runFrom iovStep .init [.refill .riov [⟨4096, 8⟩], .xfer 4, .refill .riov [⟨8192, 8⟩],
        .xfer 8]).map (fun s => (s.kiov.iov, s.kiov.i)) = some ([⟨8188, 12⟩], 1) ∧
      (runFrom iovStep .init [.refill .wiov [⟨4096, 8⟩], .xfer 4, .refill .wiov [⟨8192, 8⟩],
        .xfer 2]).map (·.moved) = some [4100, 4101] := by
  decide

end NucKernel.Vhost
