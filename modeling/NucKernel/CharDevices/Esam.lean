import Mathlib.Algebra.Group.Nat.Defs
import NucKernel.Library.Runs

/-!
# The ESAM chip (`hnos_esam_intf.c`)

A command is written with `esam_write`; the answer of the chip is fetched with `esam_read`. The
flag `CMD_SENT` says that a command has been sent and no answer fetched: a read without it gives an
empty answer and leaves the chip alone.

`esam_spi_read` has two early exits behind the poll of the chip: the chip stays silent, or the
answer does not fit the reader's buffer. Both leave `CMD_SENT` set, though its comment says that the
device returns to its initial state. Commands and answers are paired exactly as long as no read
takes one of them.

## Modelling

- the chip is the sequence of levels it puts on MISO while it is clocked during one call
- the reader's memory is a function; copies to and from it succeed
- a read that runs over `rx_buf` has no defined effect (`none`)
- chip select, the other pins and the delays are left out
-/

namespace NucKernel.CharDevices.Esam

open NucKernel.Library

/-! ## The driver -/

def esamBufSize : ℕ := 2048

def eio : ℤ := 5

def efault : ℤ := 14

def ebusy : ℤ := 16

def einval : ℤ := 22

/-- `CMD_SENT`, with the fields of `struct esam_spi_device` that the calls use. -/
structure EsamState where
  cmdSent : Bool
  rxBuf : ℕ → UInt8
  isOpen : Bool

/-- `ESAM_ReceiveByte`, for the `n`-th byte of a call: eight samples of MISO, highest bit first. -/
def esamReceiveByte (miso : ℕ → Bool) (n : ℕ) : UInt8 :=
  (List.range 8).foldl (fun rx i => (rx <<< 1) ||| (if miso (8 * n + i) then 1 else 0)) 0

def calLrc (data : ℕ → UInt8) (len : ℕ) : UInt8 :=
  if len = 0 then 0
  else if len = 1 then ~~~ data 0
  else ~~~ (List.range (len - 1)).foldl (fun lrc i => lrc ^^^ data (i + 1)) (data 0)

/-- What a call of `esam_spi_write` does: the return value and the bytes put on MOSI. -/
structure SpiWrite where
  ret : ℤ
  state : EsamState
  sent : List UInt8

/-- `esam_spi_write`. The sum `len + 2` is one of `u32`s; where it wraps, `tx_buf` is overrun. -/
def esamSpiWrite (s : EsamState) (len : ℕ) (user : Option (ℕ → UInt8)) : Option SpiWrite :=
  match user with
  | none => some { ret := -einval, state := s, sent := [] }
  | some data =>
    if esamBufSize < (len + 2) % 2 ^ 32 then some { ret := -einval, state := s, sent := [] }
    else if esamBufSize < len + 2 then none
    else
      some
        { ret := 0
          state := { s with cmdSent := true }
          sent := 0x55 :: (List.range len).map data ++ [calLrc data len] }

/-- The loop `_waitread`: whether the start byte was seen, and the next byte to clock in. -/
def waitRead (miso : ℕ → Bool) (n timeout : ℕ) : Bool × ℕ :=
  if esamReceiveByte miso n = 0x55 then (true, n + 1)
  else if 3200 * 1000 / 50 ≤ timeout + 1 then (false, n + 1)
  else waitRead miso (n + 1) (timeout + 1)
termination_by 3200 * 1000 / 50 - timeout

/-- `for (i = 0; i < count; i++) rx_buf[off + i] = ESAM_ReceiveByte();` -/
def receiveInto (miso : ℕ → Bool) (n : ℕ) (rx : ℕ → UInt8) (off : ℕ) : ℕ → ℕ → UInt8
  | 0 => rx
  | count + 1 =>
    Function.update (receiveInto miso n rx off count) (off + count)
      (esamReceiveByte miso (n + count))

/-- `copy_to_user(reslt + off, rx_buf + off, count)`. -/
def copyToUser (user : ℕ → UInt8) (rx : ℕ → UInt8) (off count : ℕ) : ℕ → UInt8 :=
  fun i => if off ≤ i ∧ i < off + count then rx i else user i

/-- What a call of `esam_spi_read` does. -/
structure SpiRead where
  ret : ℤ
  state : EsamState
  user : ℕ → UInt8

/-- The length field of a header. -/
def frameLen (rx : ℕ → UInt8) : ℕ := (rx 2).toNat * 256 + (rx 3).toNat

/-- The answer when no command was sent: its first bytes are zero. -/
def emptyAnswer (s : EsamState) (maxlen : ℕ) (user : ℕ → UInt8) : SpiRead :=
  let count := if 5 < maxlen then 5 else maxlen
  let rx := fun i => if i < count then 0 else s.rxBuf i
  { ret := 0, state := { s with rxBuf := rx }, user := copyToUser user rx 0 count }

/-- `esam_spi_read` from the header on, with `n` the next byte to clock in. -/
def readFrame (s : EsamState) (maxlen : ℕ) (user : ℕ → UInt8) (miso : ℕ → Bool) (n : ℕ) :
    Option SpiRead :=
  let rx := receiveInto miso n s.rxBuf 0 4
  let user := copyToUser user rx 0 4
  let len := frameLen rx
  -- the early exit leaves `CMD_SENT` as it is
  if maxlen < len + 4 then some { ret := -einval, state := { s with rxBuf := rx }, user }
  else if esamBufSize ≤ len + 4 then none
  else
    let rx := receiveInto miso (n + 4) rx 4 len
    let user := copyToUser user rx 4 len
    let rx := Function.update rx (len + 4) (esamReceiveByte miso (n + 4 + len))
    some
      { ret := if rx (len + 4) = calLrc rx (len + 4) then 0 else -eio
        state := { s with cmdSent := false, rxBuf := rx }
        user }

/-- `esam_spi_read`, for a buffer that is not `NULL`. -/
def esamSpiRead (s : EsamState) (maxlen : ℕ) (user : ℕ → UInt8) (miso : ℕ → Bool) :
    Option SpiRead :=
  if s.cmdSent = false then some (emptyAnswer s maxlen user)
  else
    match waitRead miso 0 0 with
    | (false, n) =>
      -- the chip stayed silent; `CMD_SENT` is left as it is here too
      let rx := Function.update s.rxBuf 0 (esamReceiveByte miso (n - 1))
      some { ret := -eio, state := { s with rxBuf := rx }, user }
    | (true, n) => readFrame s maxlen user miso n

def esamWrite (s : EsamState) (count : ℕ) (user : Option (ℕ → UInt8)) : Option SpiWrite :=
  if s.isOpen = false then some { ret := -efault, state := s, sent := [] }
  else
    (esamSpiWrite s count user).map fun w =>
      { w with ret := if w.ret ≠ 0 then -eio else count }

/-- `esam_read`. On success it reads the length back from the reader's memory. -/
def esamRead (s : EsamState) (count : ℕ) (user : Option (ℕ → UInt8)) (miso : ℕ → Bool) :
    Option (ℤ × EsamState × Option (ℕ → UInt8)) :=
  if s.isOpen = false then some (-efault, s, user)
  else
    match user with
    | none => some (-eio, s, none)
    | some mem =>
      (esamSpiRead s count mem miso).map fun r =>
        (if r.ret ≠ 0 then -eio else frameLen r.user + 4, r.state, some r.user)

def esamOpen (s : EsamState) : ℤ × EsamState :=
  if s.isOpen then (-ebusy, s) else (0, { s with isOpen := true })

def esamRelease (s : EsamState) : ℤ × EsamState :=
  if s.isOpen then (0, { s with isOpen := false }) else (-einval, s)

/-! ## Histories of calls -/

/-- A call, with the levels of MISO while it runs. -/
inductive EsamCall where
  | openDevice
  | release
  | write (count : ℕ) (user : Option (ℕ → UInt8))
  | read (count : ℕ) (user : Option (ℕ → UInt8)) (miso : ℕ → Bool)

/-- The device, and whether a command has been written that no read has taken to the chip. -/
structure EsamHistory where
  dev : EsamState
  owed : Bool

def EsamHistory.start : EsamHistory :=
  { dev := { cmdSent := false, rxBuf := fun _ => 0, isOpen := false }, owed := false }

/-- A read with this buffer gets past `CMD_SENT` and clocks the chip. -/
def EsamState.reaches (s : EsamState) (user : Option (ℕ → UInt8)) : Bool :=
  s.isOpen && user.isSome && s.cmdSent

def esamStep (h : EsamHistory) : EsamCall → Option EsamHistory
  | .openDevice => some { h with dev := (esamOpen h.dev).2 }
  | .release => some { h with dev := (esamRelease h.dev).2 }
  | .write count user =>
    (esamWrite h.dev count user).map fun w =>
      { dev := w.state, owed := if (0 : ℤ) ≤ w.ret then true else h.owed }
  | .read count user miso =>
    (esamRead h.dev count user miso).map fun r =>
      { dev := r.2.1, owed := if h.dev.reaches user then false else h.owed }

/-- The bytes of the frame that starts with the `n`-th byte clocked in. -/
def frameFrom (miso : ℕ → Bool) (n : ℕ) : ℕ → UInt8 := fun i => esamReceiveByte miso (n + i)

/-- The first start byte `0x55` is the `k`-th byte clocked in, within the 64000 bytes the driver
    polls. -/
def StartsAt (miso : ℕ → Bool) (k : ℕ) : Prop :=
  k < 64000 ∧ esamReceiveByte miso k = 0x55 ∧ ∀ j < k, esamReceiveByte miso j ≠ 0x55

/-- The answer handed to the reader is the frame behind the start byte, and its LRC verifies. -/
def Checked (miso : ℕ → Bool) (user : ℕ → UInt8) : Prop :=
  ∃ k, StartsAt miso k ∧
    (∀ i < frameLen (frameFrom miso (k + 1)) + 4, user i = frameFrom miso (k + 1) i) ∧
    frameFrom miso (k + 1) (frameLen (frameFrom miso (k + 1)) + 4) =
      calLrc (frameFrom miso (k + 1)) (frameLen (frameFrom miso (k + 1)) + 4)

/-- A read that reaches the chip ends the exchange; without a new command a read gives the empty
    answer; success means a checked frame. -/
structure Paired (h : EsamHistory) (c : EsamCall) (h' : EsamHistory) : Prop where
  cleared : ∀ count user miso, c = .read count user miso → h.dev.reaches user = true →
    h'.dev.cmdSent = false
  fresh : ∀ count mem miso, c = .read count (some mem) miso → h.dev.isOpen = true →
    h.owed = false → esamSpiRead h.dev count mem miso = some (emptyAnswer h.dev count mem)
  checked : ∀ count mem miso r, c = .read count (some mem) miso →
    h.dev.reaches (some mem) = true → esamSpiRead h.dev count mem miso = some r → r.ret = 0 →
    Checked miso r.user

/-- A read that reaches the chip is answered in time, by a frame that fits the reader's buffer. -/
def ReplyFits (h : EsamHistory) (c : EsamCall) (_ : EsamHistory) : Prop :=
  ∀ count user miso, c = .read count user miso → h.dev.reaches user = true →
    ∃ k, StartsAt miso k ∧ frameLen (frameFrom miso (k + 1)) + 4 ≤ count

/-! ## One read -/

theorem waitRead_eq_true {miso : ℕ → Bool} {n timeout : ℕ} (h : timeout < 64000) {m : ℕ} :
    waitRead miso n timeout = (true, m) ↔
      ∃ k, timeout + k < 64000 ∧ esamReceiveByte miso (n + k) = 0x55 ∧
        (∀ j < k, esamReceiveByte miso (n + j) ≠ 0x55) ∧ m = n + k + 1 := by
  fun_induction waitRead miso n timeout with
  | case1 n timeout hstart =>
    constructor
    · intro heq
      obtain rfl : n + 1 = m := by simpa using heq
      exact ⟨0, h, hstart, fun j hj => absurd hj (Nat.not_lt_zero j), rfl⟩
    · rintro ⟨k, -, -, hfirst, rfl⟩
      -- an earlier byte would not be the first
      rcases Nat.eq_zero_or_pos k with rfl | hk
      · rfl
      · exact absurd hstart (hfirst 0 hk)
  | case2 n timeout hstart hlast =>
    -- the last byte the poll may clock in was not the start byte
    simp only [Prod.mk.injEq, Bool.false_eq_true, false_and, false_iff]
    rintro ⟨k, hk, hbyte, -, -⟩
    obtain rfl : k = 0 := by omega
    exact hstart hbyte
  | case3 n timeout hstart hmore ih =>
    -- the distance to the start byte is one more than seen from the next byte
    rw [ih (by omega)]
    constructor
    · rintro ⟨k, hk, hbyte, hfirst, rfl⟩
      refine ⟨k + 1, by omega, ?_, ?_, by omega⟩
      · rwa [show n + (k + 1) = n + 1 + k by omega]
      · intro j hj
        rcases j with _ | j
        · exact hstart
        · rw [show n + (j + 1) = n + 1 + j by omega]
          exact hfirst j (by omega)
    · rintro ⟨k, hk, hbyte, hfirst, rfl⟩
      rcases k with _ | k
      · exact absurd hbyte hstart
      · refine ⟨k, by omega, ?_, ?_, by omega⟩
        · rwa [show n + 1 + k = n + (k + 1) by omega]
        · intro j hj
          rw [show n + 1 + j = n + (j + 1) by omega]
          exact hfirst (j + 1) (by omega)

theorem waitRead_iff_startsAt (miso : ℕ → Bool) (m : ℕ) :
    waitRead miso 0 0 = (true, m) ↔ ∃ k, StartsAt miso k ∧ m = k + 1 := by
  rw [waitRead_eq_true (by decide)]
  simp only [StartsAt, Nat.zero_add, and_assoc]

theorem receiveInto_apply (miso : ℕ → Bool) (n : ℕ) (rx : ℕ → UInt8) (off count i : ℕ) :
    receiveInto miso n rx off count i =
      if off ≤ i ∧ i < off + count then frameFrom miso n (i - off) else rx i := by
  induction count with
  | zero =>
    unfold receiveInto
    rw [if_neg (by omega)]
  | succ count ih =>
    unfold receiveInto
    -- the byte received last, or one of those before
    rcases eq_or_ne i (off + count) with rfl | hne
    · rw [Function.update_self, if_pos (by omega), frameFrom, Nat.add_sub_cancel_left]
    · rw [Function.update_of_ne hne, ih]
      -- the two ranges differ by `off + count` only
      congr 1
      apply propext
      omega

theorem calLrc_congr {data data' : ℕ → UInt8} {len : ℕ} (h : ∀ i < len, data i = data' i) :
    calLrc data len = calLrc data' len := by
  unfold calLrc
  split_ifs with h0 h1
  · rfl
  · rw [h 0 (by omega)]
  · rw [h 0 (by omega)]
    congr 1
    apply List.foldl_ext
    intro lrc i hi
    rw [h (i + 1) (by have := List.mem_range.mp hi; omega)]

theorem frameLen_header (miso : ℕ → Bool) (n : ℕ) (rx : ℕ → UInt8) :
    frameLen (receiveInto miso n rx 0 4) = frameLen (frameFrom miso n) := by
  simp [frameLen, receiveInto_apply]

theorem rxBuf_frame (miso : ℕ → Bool) (n : ℕ) (rx : ℕ → UInt8) (len i : ℕ) (hi : i < len + 5) :
    Function.update (receiveInto miso (n + 4) (receiveInto miso n rx 0 4) 4 len) (len + 4)
      (esamReceiveByte miso (n + 4 + len)) i = frameFrom miso n i := by
  rcases eq_or_ne i (len + 4) with rfl | hne
  · rw [Function.update_self, frameFrom]
    congr 1
    omega
  · -- the data loop starts behind the header and leaves it alone
    rw [Function.update_of_ne hne, receiveInto_apply, receiveInto_apply]
    by_cases hdata : 4 ≤ i ∧ i < 4 + len
    · rw [if_pos hdata, frameFrom, frameFrom]
      congr 1
      omega
    · rw [if_neg hdata, if_pos (by omega), Nat.sub_zero]

theorem user_frame (miso : ℕ → Bool) (n : ℕ) (rx user : ℕ → UInt8) {len i : ℕ}
    (hi : i < len + 4) :
    copyToUser (copyToUser user (receiveInto miso n rx 0 4) 0 4)
      (receiveInto miso (n + 4) (receiveInto miso n rx 0 4) 4 len) 4 len i =
        frameFrom miso n i := by
  unfold copyToUser
  by_cases hdata : 4 ≤ i
  · -- the second copy, of the data
    rw [if_pos (by omega), receiveInto_apply, if_pos (by omega), frameFrom, frameFrom]
    congr 1
    omega
  · -- the header is not touched by the second copy
    rw [if_neg (by omega), if_pos (by omega), receiveInto_apply, if_pos (by omega), Nat.sub_zero]

theorem readFrame_oversize {s : EsamState} {maxlen n : ℕ} {user : ℕ → UInt8} {miso : ℕ → Bool}
    {r : SpiRead} (hr : readFrame s maxlen user miso n = some r)
    (hbig : maxlen < frameLen (frameFrom miso n) + 4) :
    r.ret = -einval ∧ r.state.cmdSent = s.cmdSent := by
  unfold readFrame at hr
  simp only [frameLen_header, hbig, if_true, Option.some.injEq] at hr
  subst hr
  exact ⟨rfl, rfl⟩

theorem readFrame_fits {s : EsamState} {maxlen n : ℕ} {user : ℕ → UInt8} {miso : ℕ → Bool}
    {r : SpiRead} (hr : readFrame s maxlen user miso n = some r)
    (hfit : frameLen (frameFrom miso n) + 4 ≤ maxlen) :
    r.state.cmdSent = false ∧
      (r.ret = 0 →
        (∀ i < frameLen (frameFrom miso n) + 4, r.user i = frameFrom miso n i) ∧
        frameFrom miso n (frameLen (frameFrom miso n) + 4) =
          calLrc (frameFrom miso n) (frameLen (frameFrom miso n) + 4)) := by
  unfold readFrame at hr
  simp only [frameLen_header, Nat.not_lt.mpr hfit, if_false] at hr
  split at hr
  · -- a frame longer than `rx_buf` has no defined effect
    cases hr
  rw [Option.some.injEq] at hr
  subst hr
  refine ⟨rfl, fun hret => ⟨?_, ?_⟩⟩
  · exact fun i hi => user_frame miso n s.rxBuf user hi
  · -- the driver compares bytes of `rx_buf`, which are those of the frame
    simp only [ite_eq_left_iff, eio] at hret
    by_contra hne
    rw [rxBuf_frame _ _ _ _ _ (by omega),
      calLrc_congr (fun i hi => rxBuf_frame miso n s.rxBuf _ i (by omega))] at hret
    exact absurd (hret hne) (by decide)

theorem esamSpiRead_idle {s : EsamState} (h : s.cmdSent = false) (maxlen : ℕ) (user : ℕ → UInt8)
    (miso : ℕ → Bool) : esamSpiRead s maxlen user miso = some (emptyAnswer s maxlen user) := by
  unfold esamSpiRead
  rw [if_pos h]

theorem esamSpiRead_silent {s : EsamState} (h : s.cmdSent = true) (maxlen : ℕ) (user : ℕ → UInt8)
    {miso : ℕ → Bool} {n : ℕ} (hw : waitRead miso 0 0 = (false, n)) :
    esamSpiRead s maxlen user miso =
      some
        { ret := -eio
          state := { s with rxBuf := Function.update s.rxBuf 0 (esamReceiveByte miso (n - 1)) }
          user } := by
  simp [esamSpiRead, h, hw]

theorem esamSpiRead_answered {s : EsamState} (h : s.cmdSent = true) (maxlen : ℕ)
    (user : ℕ → UInt8) {miso : ℕ → Bool} {n : ℕ} (hw : waitRead miso 0 0 = (true, n)) :
    esamSpiRead s maxlen user miso = readFrame s maxlen user miso n := by
  simp [esamSpiRead, h, hw]

theorem esamSpiRead_cleared_iff {s : EsamState} (h : s.cmdSent = true) {maxlen : ℕ}
    {user : ℕ → UInt8} {miso : ℕ → Bool} {r : SpiRead}
    (hr : esamSpiRead s maxlen user miso = some r) :
    r.state.cmdSent = false ↔
      ∃ k, StartsAt miso k ∧ frameLen (frameFrom miso (k + 1)) + 4 ≤ maxlen := by
  have hpoll : (∃ k, StartsAt miso k ∧ frameLen (frameFrom miso (k + 1)) + 4 ≤ maxlen) ↔
      ∃ n, waitRead miso 0 0 = (true, n) ∧ frameLen (frameFrom miso n) + 4 ≤ maxlen := by
    simp only [waitRead_iff_startsAt]
    constructor
    · rintro ⟨k, hk, hle⟩
      exact ⟨k + 1, ⟨k, hk, rfl⟩, hle⟩
    · rintro ⟨n, ⟨k, hk, rfl⟩, hle⟩
      exact ⟨k, hk, hle⟩
  rw [hpoll]
  -- a silent chip, a frame that does not fit, a frame that fits
  rcases hw : waitRead miso 0 0 with ⟨_ | _, n⟩
  · rw [esamSpiRead_silent h maxlen user hw] at hr
    obtain rfl := Option.some.inj hr
    simp [h]
  · rw [esamSpiRead_answered h maxlen user hw] at hr
    rcases Nat.lt_or_ge maxlen (frameLen (frameFrom miso n) + 4) with hbig | hfit
    · -- `CMD_SENT` is still set
      obtain ⟨-, hkept⟩ := readFrame_oversize hr hbig
      rw [hkept, h]
      simp only [Bool.true_eq_false, Prod.mk.injEq, true_and, exists_eq_left', false_iff]
      omega
    · exact iff_of_true (readFrame_fits hr hfit).1 ⟨n, rfl, hfit⟩

theorem esamSpiRead_checked {s : EsamState} (h : s.cmdSent = true) {maxlen : ℕ}
    {user : ℕ → UInt8} {miso : ℕ → Bool} {r : SpiRead}
    (hr : esamSpiRead s maxlen user miso = some r) (hret : r.ret = 0) : Checked miso r.user := by
  rcases hw : waitRead miso 0 0 with ⟨_ | _, n⟩
  · rw [esamSpiRead_silent h maxlen user hw] at hr
    obtain rfl := Option.some.inj hr
    simp [eio] at hret
  · rw [esamSpiRead_answered h maxlen user hw] at hr
    rcases Nat.lt_or_ge maxlen (frameLen (frameFrom miso n) + 4) with hbig | hfit
    · rw [(readFrame_oversize hr hbig).1] at hret
      exact absurd hret (by decide)
    · obtain ⟨k, hk, rfl⟩ := (waitRead_iff_startsAt miso n).mp hw
      exact ⟨k, hk, (readFrame_fits hr hfit).2 hret⟩

/-! ## Whole histories -/

/-- A command is owed exactly when `CMD_SENT` says so. -/
def EsamHistory.Inv (h : EsamHistory) : Prop := h.dev.cmdSent = h.owed

theorem esamStep_write {h h' : EsamHistory} (hi : h.Inv) {count : ℕ} {user : Option (ℕ → UInt8)}
    (hs : esamStep h (.write count user) = some h') : h'.Inv := by
  unfold esamStep at hs
  obtain ⟨w, hw, rfl⟩ := Option.map_eq_some_iff.mp hs
  unfold esamWrite at hw
  split at hw
  · -- a closed device
    obtain rfl := Option.some.inj hw
    exact hi
  obtain ⟨v, hv, rfl⟩ := Option.map_eq_some_iff.mp hw
  unfold esamSpiWrite at hv
  split at hv
  · -- no buffer
    obtain rfl := Option.some.inj hv
    exact hi
  split_ifs at hv
  · -- a command that is too long
    obtain rfl := Option.some.inj hv
    exact hi
  · obtain rfl := Option.some.inj hv
    simp [EsamHistory.Inv]

theorem esamStep_read {h h' : EsamHistory} {count : ℕ} {user : Option (ℕ → UInt8)}
    {miso : ℕ → Bool} (hs : esamStep h (.read count user miso) = some h') :
    h'.owed = (if h.dev.reaches user then false else h.owed) ∧
      (h.dev.reaches user = false → h'.dev.cmdSent = h.dev.cmdSent) ∧
      (h.dev.reaches user = true → (h'.dev.cmdSent = false ↔
        ∃ k, StartsAt miso k ∧ frameLen (frameFrom miso (k + 1)) + 4 ≤ count)) := by
  unfold esamStep at hs
  obtain ⟨r, hr, rfl⟩ := Option.map_eq_some_iff.mp hs
  refine ⟨rfl, ?_⟩
  unfold esamRead at hr
  split at hr
  · -- a closed device
    rename_i hclosed
    obtain rfl := Option.some.inj hr
    simp [EsamState.reaches, hclosed]
  rename_i hopen
  split at hr
  · -- no buffer
    obtain rfl := Option.some.inj hr
    simp [EsamState.reaches]
  rename_i mem
  obtain ⟨a, ha, rfl⟩ := Option.map_eq_some_iff.mp hr
  -- past these tests the flag alone decides whether the chip is reached
  have hreach : h.dev.reaches (some mem) = h.dev.cmdSent := by
    simp [EsamState.reaches, hopen]
  rw [hreach]
  refine ⟨fun hidle => ?_, fun hsent => esamSpiRead_cleared_iff hsent ha⟩
  rw [esamSpiRead_idle hidle] at ha
  obtain rfl := Option.some.inj ha
  rfl

/-- **Pairing, exactly**: over every history of calls and every behaviour of the chip, commands and
    answers are paired if and only if every read that reaches the chip is answered in time by a
    frame that fits the reader's buffer. -/
theorem paired_iff (calls : List EsamCall) :
    Along esamStep Paired EsamHistory.start calls ↔
      Along esamStep ReplyFits EsamHistory.start calls := by
  have h₀ : EsamHistory.start.Inv := rfl
  apply along_iff (I := EsamHistory.Inv) _ _ h₀
  · intro h c h' hi hs
    constructor
    · rintro hp count user miso rfl hreach
      exact ((esamStep_read hs).2.2 hreach).mp (hp.cleared count user miso rfl hreach)
    · intro hfit
      refine ⟨?_, ?_, ?_⟩
      · rintro count user miso rfl hreach
        exact ((esamStep_read hs).2.2 hreach).mpr (hfit count user miso rfl hreach)
      · rintro count mem miso rfl - howed
        -- no command is owed, so the flag is clear
        exact esamSpiRead_idle (Eq.trans hi howed) count mem miso
      · rintro count mem miso r rfl hreach hr hret
        have hsent : h.dev.cmdSent = true := by
          simp only [EsamState.reaches, Bool.and_eq_true] at hreach
          exact hreach.2
        exact esamSpiRead_checked hsent hr hret
  · -- the flag says whether a command is owed, after every call
    intro h c h' hi hs hfit
    cases c with
    | openDevice =>
      obtain rfl := Option.some.inj hs
      unfold EsamHistory.Inv esamOpen
      split <;> exact hi
    | release =>
      obtain rfl := Option.some.inj hs
      unfold EsamHistory.Inv esamRelease
      split <;> exact hi
    | write count user => exact esamStep_write hi hs
    | read count user miso =>
      obtain ⟨howed, hkept, hcleared⟩ := esamStep_read hs
      unfold EsamHistory.Inv
      cases hreach : h.dev.reaches user with
      | false => rw [howed, hkept hreach, hreach, hi]; rfl
      | true =>
        rw [howed, hreach, (hcleared hreach).mpr (hfit count user miso rfl hreach)]
        rfl

theorem not_startsAt_silent (k : ℕ) : ¬ StartsAt (fun _ => false) k := by
  rintro ⟨-, hstart, -⟩
  simp only [esamReceiveByte, Bool.false_eq_true, if_false] at hstart
  exact absurd hstart (by decide)

/-- The levels of MISO while the chip sends these bytes. -/
def misoOf (bytes : List UInt8) (k : ℕ) : Bool :=
  (bytes.getD (k / 8) 0).toNat.testBit (7 - k % 8)

/-- A command, a read during which the chip stays silent, and a second read, during which the chip
    sends the answer: header `90 00 00 00` and its LRC. -/
def lateReply : List EsamCall :=
  [.openDevice, .write 1 (some fun _ => 0xa1), .read 4 (some fun _ => 0) (fun _ => false),
    .read 4 (some fun _ => 0) (misoOf [0x55, 0x90, 0, 0, 0, 0x6f])]

def commandSent : EsamHistory :=
  { dev := { cmdSent := true, rxBuf := fun _ => 0, isOpen := true }, owed := true }

/-- The read that times out leaves the command open. -/
theorem lateReply_unpaired : ¬ Along esamStep Paired EsamHistory.start lateReply := by
  intro hall
  -- the 64000 polls are not run: a start byte is excluded instead
  rcases hw : waitRead (fun _ => false) 0 0 with ⟨found, n⟩
  cases found with
  | true =>
    obtain ⟨k, hk, -⟩ := (waitRead_iff_startsAt _ n).mp hw
    exact not_startsAt_silent k hk
  | false =>
    have hsome : (esamStep commandSent
        (.read 4 (some fun _ => 0) (fun _ => false))).isSome = true := by
      have hread := esamSpiRead_silent (s := commandSent.dev) rfl 4 (fun _ => 0) hw
      simp only [commandSent] at hread
      simp [esamStep, esamRead, commandSent, hread]
    obtain ⟨h', hstep⟩ := Option.isSome_iff_exists.mp hsome
    -- the first two calls do what `commandSent` says
    obtain ⟨-, hwrite⟩ := hall _ rfl
    obtain ⟨-, hread⟩ := hwrite commandSent rfl
    obtain ⟨hpaired, -⟩ := hread h' hstep
    obtain ⟨k, hk, -⟩ := ((esamStep_read hstep).2.2 rfl).mp (hpaired.cleared 4 _ _ rfl rfl)
    exact not_startsAt_silent k hk

end NucKernel.CharDevices.Esam
