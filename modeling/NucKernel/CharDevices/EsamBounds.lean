import NucKernel.CharDevices.Esam

/-!
# Which memory a read of the ESAM chip touches

`esam_spi_read` takes the length of the answer from the chip and compares it with the length of the
reader's buffer, and with nothing else. The header is handed to the reader before that test.

`esamSpiReadRaw` is the function with `rx_buf` going on beyond its end, and with the indices of
every access. The model of the driver has no result where one is outside (`esamSpiRead_eq`).
-/

namespace NucKernel.CharDevices.Esam

/-- The indices of `rx_buf` that are written, those that the LRC is computed from, and the indices
    of the reader's buffer that are written -/
structure Accesses where
  stores : List ℕ
  lrc : List ℕ
  copied : List ℕ

/-! ## The function with its accesses -/

/-- `esam_spi_read` from the header on -/
def readFrameRaw (s : EsamState) (maxlen : ℕ) (user : ℕ → UInt8) (miso : ℕ → Bool) (n : ℕ) :
    SpiRead × Accesses :=
  let rx := receiveInto miso n s.rxBuf 0 4
  let user := copyToUser user rx 0 4
  let len := frameLen rx
  -- the poll has stored at index 0 before
  let stores := 0 :: List.range 4
  if maxlen < len + 4 then
    ({ ret := -einval, state := { s with rxBuf := rx }, user }, ⟨stores, [], List.range 4⟩)
  else
    let rx := receiveInto miso (n + 4) rx 4 len
    let user := copyToUser user rx 4 len
    let rx := Function.update rx (len + 4) (esamReceiveByte miso (n + 4 + len))
    ({ ret := if rx (len + 4) = calLrc rx (len + 4) then 0 else -eio
       state := { s with cmdSent := false, rxBuf := rx }
       user },
      ⟨stores ++ List.range' 4 len ++ [len + 4], List.range (len + 4),
        List.range 4 ++ List.range' 4 len⟩)

/-- `esam_spi_read`, for a buffer that is not `NULL` -/
def esamSpiReadRaw (s : EsamState) (maxlen : ℕ) (user : ℕ → UInt8) (miso : ℕ → Bool) :
    SpiRead × Accesses :=
  if s.cmdSent = false then
    let count := if 5 < maxlen then 5 else maxlen
    (emptyAnswer s maxlen user, ⟨List.range count, [], List.range count⟩)
  else
    match waitRead miso 0 0 with
    | (false, n) =>
      let rx := Function.update s.rxBuf 0 (esamReceiveByte miso (n - 1))
      ({ ret := -eio, state := { s with rxBuf := rx }, user }, ⟨[0], [], []⟩)
    | (true, n) => readFrameRaw s maxlen user miso n

/-- All accesses are inside `rx_buf`, and no more than `maxlen` bytes go to the reader. -/
structure Bounded (s : EsamState) (maxlen : ℕ) (user : ℕ → UInt8) (miso : ℕ → Bool) : Prop where
  stores : ∀ i ∈ (esamSpiReadRaw s maxlen user miso).2.stores, i < esamBufSize
  lrc : ∀ i ∈ (esamSpiReadRaw s maxlen user miso).2.lrc, i < esamBufSize
  copied : (esamSpiReadRaw s maxlen user miso).2.copied.length ≤ maxlen

/-! ## The same function -/

section

variable {s : EsamState} {maxlen : ℕ} {user : ℕ → UInt8} {miso : ℕ → Bool}

theorem esamSpiReadRaw_idle (h : s.cmdSent = false) :
    esamSpiReadRaw s maxlen user miso =
      (emptyAnswer s maxlen user, ⟨List.range (if 5 < maxlen then 5 else maxlen), [],
        List.range (if 5 < maxlen then 5 else maxlen)⟩) := by
  rw [esamSpiReadRaw, if_pos h]

theorem esamSpiReadRaw_silent (h : s.cmdSent = true) {n : ℕ}
    (hw : waitRead miso 0 0 = (false, n)) :
    esamSpiReadRaw s maxlen user miso =
      ({ ret := -eio
         state := { s with rxBuf := Function.update s.rxBuf 0 (esamReceiveByte miso (n - 1)) }
         user }, ⟨[0], [], []⟩) := by
  simp [esamSpiReadRaw, h, hw]

theorem esamSpiReadRaw_answered (h : s.cmdSent = true) {n : ℕ}
    (hw : waitRead miso 0 0 = (true, n)) :
    esamSpiReadRaw s maxlen user miso = readFrameRaw s maxlen user miso n := by
  simp [esamSpiReadRaw, h, hw]

theorem mem_empty_lt {i : ℕ} (h : i ∈ List.range (if 5 < maxlen then 5 else maxlen)) :
    i < esamBufSize := by
  have hcount := List.mem_range.mp h
  simp only [esamBufSize]
  split at hcount <;> omega

theorem stores_poll : ∀ i ∈ [0], i < esamBufSize := by decide

theorem stores_header : ∀ i ∈ 0 :: List.range 4, i < esamBufSize := by decide

theorem stores_frame_iff (len : ℕ) :
    (∀ i ∈ 0 :: List.range 4 ++ List.range' 4 len ++ [len + 4], i < esamBufSize) ↔
      len + 4 < esamBufSize := by
  constructor
  · intro h
    exact h (len + 4) (by simp)
  · intro h i hi
    simp only [List.mem_append, List.mem_cons, List.mem_range, List.mem_range'_1,
      List.not_mem_nil, or_false] at hi
    omega

theorem readFrame_eq (s : EsamState) (maxlen : ℕ) (user : ℕ → UInt8) (miso : ℕ → Bool) (n : ℕ) :
    readFrame s maxlen user miso n =
      if ∀ i ∈ (readFrameRaw s maxlen user miso n).2.stores, i < esamBufSize then
        some (readFrameRaw s maxlen user miso n).1
      else none := by
  unfold readFrame readFrameRaw
  dsimp only
  -- a frame that does not fit stores the header only
  by_cases hmax : maxlen < frameLen (receiveInto miso n s.rxBuf 0 4) + 4
  · simp only [if_pos hmax]
    rw [if_pos stores_header]
  · simp only [if_neg hmax, stores_frame_iff]
    by_cases hlen : esamBufSize ≤ frameLen (receiveInto miso n s.rxBuf 0 4) + 4
    · rw [if_pos hlen, if_neg (Nat.not_lt.mpr hlen)]
    · rw [if_neg hlen, if_pos (Nat.lt_of_not_le hlen)]

theorem esamSpiRead_eq (s : EsamState) (maxlen : ℕ) (user : ℕ → UInt8) (miso : ℕ → Bool) :
    esamSpiRead s maxlen user miso =
      if ∀ i ∈ (esamSpiReadRaw s maxlen user miso).2.stores, i < esamBufSize then
        some (esamSpiReadRaw s maxlen user miso).1
      else none := by
  cases hsent : s.cmdSent with
  | false =>
    rw [esamSpiReadRaw_idle hsent, if_pos fun i hi => mem_empty_lt hi]
    simp [esamSpiRead, hsent]
  | true =>
    rcases hw : waitRead miso 0 0 with ⟨answered, n⟩
    cases answered with
    | false =>
      rw [esamSpiReadRaw_silent hsent hw, if_pos stores_poll]
      simp [esamSpiRead, hsent, hw]
    | true =>
      rw [esamSpiReadRaw_answered hsent hw, ← readFrame_eq]
      simp [esamSpiRead, hsent, hw]

theorem readFrameRaw_user {n i : ℕ} (hi : i ∉ (readFrameRaw s maxlen user miso n).2.copied) :
    (readFrameRaw s maxlen user miso n).1.user i = user i := by
  unfold readFrameRaw at hi ⊢
  dsimp only at hi ⊢
  generalize frameLen (receiveInto miso n s.rxBuf 0 4) = len at hi ⊢
  by_cases hmax : maxlen < len + 4
  · simp only [if_pos hmax, List.mem_range] at hi ⊢
    rw [copyToUser, if_neg (by omega)]
  · simp only [if_neg hmax, List.mem_append, List.mem_range, List.mem_range'_1, not_or] at hi ⊢
    rw [copyToUser, if_neg (by omega), copyToUser, if_neg (by omega)]

theorem user_eq_of_not_copied {i : ℕ}
    (hi : i ∉ (esamSpiReadRaw s maxlen user miso).2.copied) :
    (esamSpiReadRaw s maxlen user miso).1.user i = user i := by
  cases hsent : s.cmdSent with
  | false =>
    rw [esamSpiReadRaw_idle hsent] at hi ⊢
    -- the zeros of the empty answer
    have hcount : ¬ i < if 5 < maxlen then 5 else maxlen := fun h => hi (List.mem_range.mpr h)
    simp only [emptyAnswer]
    rw [copyToUser, if_neg (by omega)]
  | true =>
    rcases hw : waitRead miso 0 0 with ⟨answered, n⟩
    cases answered with
    | false => rw [esamSpiReadRaw_silent hsent hw]
    | true =>
      rw [esamSpiReadRaw_answered hsent hw] at hi ⊢
      exact readFrameRaw_user hi

/-! ## When the accesses are inside -/

theorem bounded_idle (h : s.cmdSent = false) : Bounded s maxlen user miso := by
  refine ⟨?_, ?_, ?_⟩
  · rw [esamSpiReadRaw_idle h]
    exact fun i hi => mem_empty_lt hi
  · rw [esamSpiReadRaw_idle h]
    exact nofun
  · rw [esamSpiReadRaw_idle h, List.length_range]
    split <;> omega

theorem bounded_silent (h : s.cmdSent = true) {n : ℕ} (hw : waitRead miso 0 0 = (false, n)) :
    Bounded s maxlen user miso := by
  refine ⟨?_, ?_, ?_⟩
  · rw [esamSpiReadRaw_silent h hw]
    exact stores_poll
  · rw [esamSpiReadRaw_silent h hw]
    exact nofun
  · rw [esamSpiReadRaw_silent h hw]
    exact Nat.zero_le _

theorem bounded_answered_iff (h : s.cmdSent = true) {n : ℕ} (hw : waitRead miso 0 0 = (true, n)) :
    Bounded s maxlen user miso ↔
      4 ≤ maxlen ∧ (maxlen < frameLen (frameFrom miso n) + 4 ∨
        frameLen (frameFrom miso n) + 4 < esamBufSize) := by
  -- the accesses depend on the announced length only
  have hacc : (esamSpiReadRaw s maxlen user miso).2 =
      if maxlen < frameLen (frameFrom miso n) + 4 then
        ⟨0 :: List.range 4, [], List.range 4⟩
      else
        ⟨0 :: List.range 4 ++ List.range' 4 (frameLen (frameFrom miso n)) ++
            [frameLen (frameFrom miso n) + 4],
          List.range (frameLen (frameFrom miso n) + 4),
          List.range 4 ++ List.range' 4 (frameLen (frameFrom miso n))⟩ := by
    rw [esamSpiReadRaw_answered h hw, readFrameRaw]
    simp only [frameLen_header]
    split <;> rfl
  generalize frameLen (frameFrom miso n) = len at hacc
  by_cases hlen : maxlen < len + 4
  · rw [if_pos hlen] at hacc
    constructor
    · -- only the header is stored and handed over
      intro hb
      have hcopied := hb.copied
      rw [hacc, List.length_range] at hcopied
      exact ⟨hcopied, Or.inl hlen⟩
    · rintro ⟨h4, -⟩
      refine ⟨?_, ?_, ?_⟩
      · rw [hacc]
        exact stores_header
      · rw [hacc]
        exact nofun
      · rw [hacc, List.length_range]
        exact h4
  · rw [if_neg hlen] at hacc
    constructor
    · intro hb
      -- header, data and the LRC behind them are stored
      have hstores := hb.stores
      rw [hacc] at hstores
      exact ⟨by omega, Or.inr ((stores_frame_iff len).mp hstores)⟩
    · rintro ⟨-, hor⟩
      have hin := hor.resolve_left hlen
      refine ⟨?_, ?_, ?_⟩
      · rw [hacc]
        exact (stores_frame_iff len).mpr hin
      · rw [hacc]
        intro i hi
        have := List.mem_range.mp hi
        omega
      · rw [hacc, List.length_append, List.length_range, List.length_range']
        omega

end

/-- The accesses of a read are inside if and only if, whenever a command was sent and the chip
    answers, the reader's buffer has room for the header and the answer is too long for it or short
    enough for `rx_buf`. -/
theorem bounded_iff (s : EsamState) (maxlen : ℕ) (user : ℕ → UInt8) (miso : ℕ → Bool) :
    Bounded s maxlen user miso ↔
      (s.cmdSent = true → ∀ k, StartsAt miso k →
        4 ≤ maxlen ∧ (maxlen < frameLen (frameFrom miso (k + 1)) + 4 ∨
          frameLen (frameFrom miso (k + 1)) + 4 < esamBufSize)) := by
  cases hsent : s.cmdSent with
  | false => exact iff_of_true (bounded_idle hsent) nofun
  | true =>
    rcases hw : waitRead miso 0 0 with ⟨answered, n⟩
    cases answered with
    | false =>
      refine iff_of_true (bounded_silent hsent hw) fun _ k hk => ?_
      have hstart := (waitRead_iff_startsAt miso (k + 1)).mpr ⟨k, hk, rfl⟩
      rw [hw] at hstart
      cases hstart
    | true =>
      obtain ⟨k, hk, rfl⟩ := (waitRead_iff_startsAt miso n).mp hw
      rw [bounded_answered_iff hsent hw]
      refine ⟨fun hb _ k' hk' => ?_, fun hall => hall rfl k hk⟩
      -- the start byte is the first one, so there is no other
      have hstart := (waitRead_iff_startsAt miso (k' + 1)).mpr ⟨k', hk', rfl⟩
      rw [hw] at hstart
      obtain rfl : k = k' := by simpa using hstart
      exact hb

/-- A chip that announces 2044 bytes to a reader with room for 2048: the LRC is stored at
    `rx_buf[2048]`. A reader with room for three bytes gets the four of the header. -/
theorem answer_overruns :
    let s : EsamState := ⟨true, fun _ => 0, true⟩
    ¬ Bounded s 2048 (fun _ => 0) (misoOf [0x55, 0, 0, 0x07, 0xFC]) ∧
      ¬ Bounded s 3 (fun _ => 0) (misoOf [0x55, 0, 0, 0, 0]) := by
  intro s
  have hstart : ∀ bytes : List UInt8, esamReceiveByte (misoOf bytes) 0 = 0x55 →
      waitRead (misoOf bytes) 0 0 = (true, 1) := fun bytes hbyte => by
    rw [waitRead, if_pos hbyte]
  constructor
  · rw [bounded_answered_iff rfl (hstart _ (by decide))]
    decide
  · rw [bounded_answered_iff rfl (hstart _ (by decide))]
    decide

end NucKernel.CharDevices.Esam
