import NucKernel.Library.Ring
import NucKernel.Library.Runs
import Mathlib.Tactic.Linarith

/-!
# Keyboard circular buffer: `kb_buf_put` and `kb_buf_get`

The byte buffer of `hnos_kbd_core.c`: a `struct circ_buf` of `KB_BUF_LEN` cells with the macros of
`linux/circ_buf.h`. Both operations copy contiguous segments in a loop.
-/

namespace NucKernel.CharDevices.Keyboard

open NucKernel.Library

/-! ## The macros of `linux/circ_buf.h`

`x & (size - 1)` on an `int` and a power of two `size` is the non-negative remainder. -/

/-- `CIRC_CNT`: the number of bytes in the buffer. -/
def circCnt (head tail size : ℤ) : ℤ := (head - tail) % size

/-- `CIRC_SPACE`: the free bytes; one cell always stays unused. -/
def circSpace (head tail size : ℤ) : ℤ := circCnt tail (head + 1) size

/-- `CIRC_CNT_TO_END`: the bytes up to the end of the buffer. -/
def circCntToEnd (head tail size : ℤ) : ℤ :=
  let e := size - tail
  let n := (head + e) % size
  if n < e then n else e

/-- `CIRC_SPACE_TO_END`: the free bytes up to the end of the buffer. -/
def circSpaceToEnd (head tail size : ℤ) : ℤ :=
  let e := size - 1 - head
  let n := (e + tail) % size
  if n ≤ e then n else e + 1

/-! ## The buffer -/

structure CircBuf where
  buf : ℕ → UInt8
  head : ℤ
  tail : ℤ

def kbBufLen : ℤ := 256

def kbBufClear (cb : CircBuf) : CircBuf := { cb with head := 0, tail := 0 }

def kbBufDataAvail (cb : CircBuf) : ℤ := circCnt cb.head cb.tail kbBufLen

def kbBufSpaceAvail (cb : CircBuf) : ℤ := circSpace cb.head cb.tail kbBufLen

/-- The segment `c` copied by one round of the loop of `kb_buf_put`. -/
def putSegment (cb : CircBuf) (count : ℤ) : ℤ :=
  let c := circSpaceToEnd cb.head cb.tail kbBufLen
  if count < c then count else c

/-- The segment `c` copied by one round of the loop of `kb_buf_get`. -/
def getSegment (cb : CircBuf) (count : ℤ) : ℤ :=
  let c := circCntToEnd cb.head cb.tail kbBufLen
  if count < c then count else c

theorem putSegment_eq (cb : CircBuf) (count : ℤ) :
    putSegment cb count = min count (circSpaceToEnd cb.head cb.tail kbBufLen) := by
  simp only [putSegment]
  omega

theorem getSegment_eq (cb : CircBuf) (count : ℤ) :
    getSegment cb count = min count (circCntToEnd cb.head cb.tail kbBufLen) := by
  simp only [getSegment]
  omega

def CircBuf.push (cb : CircBuf) (src : ℕ → UInt8) (c : ℤ) : CircBuf :=
  { cb with
    buf := copyInto cb.buf cb.head.toNat src c.toNat
    head := (cb.head + c) % kbBufLen }

/-- The loop of `kb_buf_put`, with the bytes still to copy and those copied so far. -/
def kbBufPutLoop (cb : CircBuf) (src : ℕ → UInt8) (count ret : ℤ) : ℤ × CircBuf :=
  -- the source leaves the loop on `c <= 0`: a full buffer, nothing to copy or a negative count
  if putSegment cb count ≤ 0 then (ret, cb)
  else
    kbBufPutLoop (cb.push src (putSegment cb count))
      (fun i => src (i + (putSegment cb count).toNat))
      (count - putSegment cb count) (ret + putSegment cb count)
termination_by count.toNat
decreasing_by
  have := putSegment_eq cb count
  omega

/-- `kb_buf_put`: the number of bytes copied, and the buffer. -/
def kbBufPut (cb : CircBuf) (src : ℕ → UInt8) (count : ℤ) : ℤ × CircBuf :=
  kbBufPutLoop cb src count 0

def CircBuf.pop (cb : CircBuf) (c : ℤ) : CircBuf :=
  { cb with tail := (cb.tail + c) % kbBufLen }

/-- The loop of `kb_buf_get`; `out` is what has been written to the caller's buffer. -/
def kbBufGetLoop (cb : CircBuf) (count ret : ℤ) (out : List UInt8) :
    ℤ × List UInt8 × CircBuf :=
  -- as in `kb_buf_put`, with the data in place of the space
  if getSegment cb count ≤ 0 then (ret, out, cb)
  else
    kbBufGetLoop (cb.pop (getSegment cb count)) (count - getSegment cb count)
      (ret + getSegment cb count)
      (out ++ (List.range (getSegment cb count).toNat).map fun i => cb.buf (cb.tail.toNat + i))
termination_by count.toNat
decreasing_by
  have := getSegment_eq cb count
  omega

/-- `kb_buf_get`: the number of bytes copied, the bytes, and the buffer. -/
def kbBufGet (cb : CircBuf) (count : ℤ) : ℤ × List UInt8 × CircBuf :=
  kbBufGetLoop cb count 0 []

/-! ## The queue a buffer stands for -/

/-- `head` and `tail` are cell numbers. -/
structure CircBuf.InRange (cb : CircBuf) : Prop where
  head_nonneg : 0 ≤ cb.head
  head_lt : cb.head < kbBufLen
  tail_nonneg : 0 ≤ cb.tail
  tail_lt : cb.tail < kbBufLen

/-- The bytes held, oldest first. -/
def CircBuf.contents (cb : CircBuf) : List UInt8 :=
  ringList cb.buf 256 cb.tail.toNat (kbBufDataAvail cb).toNat

def bytesOf (src : ℕ → UInt8) (n : ℤ) : List UInt8 := (List.range n.toNat).map src

theorem kbBufClear_inRange (cb : CircBuf) : (kbBufClear cb).InRange := by
  constructor <;> simp [kbBufClear, kbBufLen]

@[simp] theorem kbBufClear_contents (cb : CircBuf) : (kbBufClear cb).contents = [] := by
  simp [CircBuf.contents, kbBufDataAvail, circCnt, kbBufClear]

theorem avail_add_space (cb : CircBuf) :
    kbBufDataAvail cb + kbBufSpaceAvail cb = kbBufLen - 1 := by
  simp only [kbBufDataAvail, kbBufSpaceAvail, circSpace, circCnt, kbBufLen]
  omega

theorem kbBufSpaceAvail_nonneg (cb : CircBuf) : 0 ≤ kbBufSpaceAvail cb := by
  simp only [kbBufSpaceAvail, circSpace, circCnt, kbBufLen]
  omega

theorem kbBufDataAvail_nonneg (cb : CircBuf) : 0 ≤ kbBufDataAvail cb := by
  simp only [kbBufDataAvail, circCnt, kbBufLen]
  omega

theorem contents_length (cb : CircBuf) : (cb.contents.length : ℤ) = kbBufDataAvail cb := by
  simp [CircBuf.contents, kbBufDataAvail_nonneg]

/-! ## One round of each loop -/

theorem spaceToEnd_bounds {cb : CircBuf} (h : cb.InRange) :
    0 ≤ circSpaceToEnd cb.head cb.tail kbBufLen ∧
      circSpaceToEnd cb.head cb.tail kbBufLen ≤ kbBufSpaceAvail cb ∧
      cb.head + circSpaceToEnd cb.head cb.tail kbBufLen ≤ kbBufLen ∧
      (circSpaceToEnd cb.head cb.tail kbBufLen = 0 → kbBufSpaceAvail cb = 0) := by
  obtain ⟨h₁, h₂, h₃, h₄⟩ := h
  -- all four are arithmetic modulo 256, with the two cases of the macro
  simp only [circSpaceToEnd, kbBufSpaceAvail, circSpace, circCnt, kbBufLen] at *
  split_ifs <;> omega

theorem cntToEnd_bounds {cb : CircBuf} (h : cb.InRange) :
    0 ≤ circCntToEnd cb.head cb.tail kbBufLen ∧
      circCntToEnd cb.head cb.tail kbBufLen ≤ kbBufDataAvail cb ∧
      cb.tail + circCntToEnd cb.head cb.tail kbBufLen ≤ kbBufLen ∧
      (circCntToEnd cb.head cb.tail kbBufLen = 0 → kbBufDataAvail cb = 0) := by
  obtain ⟨h₁, h₂, h₃, h₄⟩ := h
  simp only [circCntToEnd, kbBufDataAvail, circCnt, kbBufLen] at *
  split_ifs <;> omega

theorem push_spec {cb : CircBuf} (h : cb.InRange) (src : ℕ → UInt8) {c : ℤ} (hc : 0 ≤ c)
    (hspace : c ≤ kbBufSpaceAvail cb) (hend : cb.head + c ≤ kbBufLen) :
    (cb.push src c).InRange ∧
      kbBufSpaceAvail (cb.push src c) = kbBufSpaceAvail cb - c ∧
      (cb.push src c).contents = cb.contents ++ bytesOf src c := by
  obtain ⟨h₁, h₂, h₃, h₄⟩ := h
  -- the data grow by `c` because `head` does not overtake `tail`
  have hdata : kbBufDataAvail (cb.push src c) = kbBufDataAvail cb + c := by
    simp only [kbBufDataAvail, kbBufSpaceAvail, circSpace, circCnt, kbBufLen, CircBuf.push] at *
    omega
  refine ⟨⟨?_, ?_, h₃, h₄⟩, ?_, ?_⟩
  · simp only [CircBuf.push, kbBufLen]
    omega
  · simp only [CircBuf.push, kbBufLen]
    omega
  · -- what is held and what is free add up to the same before and after
    have := avail_add_space cb
    have := avail_add_space (cb.push src c)
    omega
  · -- `head` is the cell after the last one held
    have hnn := kbBufDataAvail_nonneg cb
    have hpos : cb.head.toNat = (cb.tail.toNat + (kbBufDataAvail cb).toNat) % 256 := by
      simp only [kbBufDataAvail, circCnt, kbBufLen] at *
      omega
    have hroom := avail_add_space cb
    simp only [kbBufLen] at hroom hend
    rw [CircBuf.contents, hdata, show (kbBufDataAvail cb + c).toNat =
      (kbBufDataAvail cb).toNat + c.toNat by omega]
    simp only [CircBuf.push, hpos, CircBuf.contents, bytesOf]
    exact ringList_append cb.buf src (by omega) (by omega)

theorem pop_spec {cb : CircBuf} (h : cb.InRange) {c : ℤ} (hc : 0 ≤ c)
    (hdata : c ≤ kbBufDataAvail cb) (hend : cb.tail + c ≤ kbBufLen) :
    (cb.pop c).InRange ∧
      kbBufDataAvail (cb.pop c) = kbBufDataAvail cb - c ∧
      cb.contents = ((List.range c.toNat).map fun i => cb.buf (cb.tail.toNat + i)) ++
        (cb.pop c).contents := by
  obtain ⟨h₁, h₂, h₃, h₄⟩ := h
  -- `tail` does not overtake `head`
  have havail : kbBufDataAvail (cb.pop c) = kbBufDataAvail cb - c := by
    simp only [kbBufDataAvail, circCnt, kbBufLen, CircBuf.pop] at *
    omega
  refine ⟨⟨h₁, h₂, ?_, ?_⟩, havail, ?_⟩
  · simp only [CircBuf.pop, kbBufLen]
    omega
  · simp only [CircBuf.pop, kbBufLen]
    omega
  · -- the segment read ends before the buffer does, so its cells are consecutive
    simp only [kbBufLen] at hend
    have htail : (cb.pop c).tail.toNat = (cb.tail.toNat + c.toNat) % 256 := by
      simp only [CircBuf.pop, kbBufLen]
      omega
    rw [CircBuf.contents, show (kbBufDataAvail cb).toNat =
      c.toNat + (kbBufDataAvail (cb.pop c)).toNat by omega]
    rw [CircBuf.contents, htail]
    exact ringList_split cb.buf _ (by omega)

/-! ## The loops -/

theorem bytesOf_add (src : ℕ → UInt8) {m n : ℤ} (hm : 0 ≤ m) (hn : 0 ≤ n) :
    bytesOf src (m + n) = bytesOf src m ++ bytesOf (fun i => src (i + m.toNat)) n := by
  simp only [bytesOf, show (m + n).toNat = m.toNat + n.toNat by omega, List.range_add,
    List.map_append, List.map_map]
  congr 2
  funext i
  simp [Nat.add_comm]

/-- The number of bytes an operation asked for `count` bytes moves when `room` are possible. -/
def moved (count room : ℤ) : ℤ := max 0 (min count room)

theorem kbBufPutLoop_spec (cb : CircBuf) (src : ℕ → UInt8) (count ret : ℤ) (h : cb.InRange) :
    (kbBufPutLoop cb src count ret).1 = ret + moved count (kbBufSpaceAvail cb) ∧
      (kbBufPutLoop cb src count ret).2.InRange ∧
      (kbBufPutLoop cb src count ret).2.contents =
        cb.contents ++ bytesOf src (moved count (kbBufSpaceAvail cb)) := by
  fun_induction kbBufPutLoop cb src count ret with
  | case1 cb src count ret hc =>
    -- nothing left to copy, or no space left
    obtain ⟨hnn, hle, hend, hfull⟩ := spaceToEnd_bounds h
    have hseg := putSegment_eq cb count
    have hzero : moved count (kbBufSpaceAvail cb) = 0 := by
      simp only [moved]
      omega
    refine ⟨by simp [hzero], h, by simp [hzero, bytesOf]⟩
  | case2 cb src count ret hc ih =>
    -- one segment, then the rest: what both move adds up to what the whole call moves
    obtain ⟨hnn, hle, hend, hfull⟩ := spaceToEnd_bounds h
    have hseg := putSegment_eq cb count
    obtain ⟨hin, hspace, hcont⟩ := push_spec h src (c := putSegment cb count) (by omega) (by omega)
      (by omega)
    obtain ⟨hret, hin', hcont'⟩ := ih hin
    have hmoved : moved count (kbBufSpaceAvail cb) = putSegment cb count +
        moved (count - putSegment cb count)
          (kbBufSpaceAvail (cb.push src (putSegment cb count))) := by
      simp only [moved, hspace]
      omega
    refine ⟨by rw [hret, hmoved]; omega, hin', ?_⟩
    rw [hcont', hcont, hmoved, bytesOf_add src (by omega) (by simp [moved]), List.append_assoc]

theorem kbBufPut_spec {cb : CircBuf} (h : cb.InRange) (src : ℕ → UInt8) (count : ℤ) :
    (kbBufPut cb src count).1 = moved count (kbBufSpaceAvail cb) ∧
      (kbBufPut cb src count).2.InRange ∧
      (kbBufPut cb src count).2.contents =
        cb.contents ++ bytesOf src (moved count (kbBufSpaceAvail cb)) := by
  have := kbBufPutLoop_spec cb src count 0 h
  simpa [kbBufPut] using this

theorem kbBufGetLoop_spec (cb : CircBuf) (count ret : ℤ) (out : List UInt8) (h : cb.InRange) :
    (kbBufGetLoop cb count ret out).1 = ret + moved count (kbBufDataAvail cb) ∧
      (kbBufGetLoop cb count ret out).2.2.InRange ∧
      ∃ taken, (kbBufGetLoop cb count ret out).2.1 = out ++ taken ∧
        (taken.length : ℤ) = moved count (kbBufDataAvail cb) ∧
        cb.contents = taken ++ (kbBufGetLoop cb count ret out).2.2.contents := by
  fun_induction kbBufGetLoop cb count ret out with
  | case1 cb count ret out hc =>
    -- nothing asked for, or nothing there
    obtain ⟨hnn, hle, hend, hempty⟩ := cntToEnd_bounds h
    have hseg := getSegment_eq cb count
    have hzero : moved count (kbBufDataAvail cb) = 0 := by
      simp only [moved]
      omega
    exact ⟨by simp [hzero], h, [], by simp, by simp [hzero], rfl⟩
  | case2 cb count ret out hc ih =>
    obtain ⟨hnn, hle, hend, hempty⟩ := cntToEnd_bounds h
    have hseg := getSegment_eq cb count
    obtain ⟨hin, havail, hcont⟩ := pop_spec h (c := getSegment cb count) (by omega) (by omega)
      (by omega)
    -- the rest is taken from the shortened queue
    obtain ⟨hret, hin', taken, hout, hlen, hrest⟩ := ih hin
    have hmoved : moved count (kbBufDataAvail cb) = getSegment cb count +
        moved (count - getSegment cb count) (kbBufDataAvail (cb.pop (getSegment cb count))) := by
      simp only [moved, havail]
      omega
    -- the bytes of this segment come before those the remaining rounds take
    refine ⟨by rw [hret, hmoved]; omega, hin',
      ((List.range (getSegment cb count).toNat).map fun i => cb.buf (cb.tail.toNat + i)) ++ taken,
      by rw [hout, List.append_assoc], ?_, ?_⟩
    · simp only [List.length_append, List.length_map, List.length_range]
      omega
    · rw [hcont, hrest, List.append_assoc]

theorem kbBufGet_spec {cb : CircBuf} (h : cb.InRange) (count : ℤ) :
    (kbBufGet cb count).1 = moved count (kbBufDataAvail cb) ∧
      (kbBufGet cb count).2.2.InRange ∧
      ((kbBufGet cb count).2.1.length : ℤ) = moved count (kbBufDataAvail cb) ∧
      cb.contents = (kbBufGet cb count).2.1 ++ (kbBufGet cb count).2.2.contents := by
  obtain ⟨hret, hin, taken, hout, hlen, hrest⟩ := kbBufGetLoop_spec cb count 0 [] h
  rw [List.nil_append] at hout
  exact ⟨by simpa [kbBufGet] using hret, hin, by rw [kbBufGet, hout, hlen],
    by rw [kbBufGet, hout]; exact hrest⟩

/-! ## The byte FIFO over whole histories -/

/-- A call of one of the two operations, with the caller's arguments. -/
inductive BufCall where
  | put (src : ℕ → UInt8) (count : ℤ)
  | get (count : ℤ)

/-- The buffer, with the bytes that were stored and returned so far. -/
structure BufHistory where
  cb : CircBuf
  stored : List UInt8
  returned : List UInt8

/-- One call. -/
def BufHistory.call (h : BufHistory) : BufCall → BufHistory
  | .put src count =>
    { h with
      cb := (kbBufPut h.cb src count).2
      stored := h.stored ++ bytesOf src (kbBufPut h.cb src count).1 }
  | .get count =>
    { h with
      cb := (kbBufGet h.cb count).2.2
      returned := h.returned ++ (kbBufGet h.cb count).2.1 }

/-- A cleared buffer, before any call. -/
def BufHistory.start (cb : CircBuf) : BufHistory :=
  { cb := kbBufClear cb, stored := [], returned := [] }

/-- Every byte stored is returned or still held, in order. -/
def BufHistory.Fifo (h : BufHistory) : Prop :=
  h.cb.InRange ∧ h.returned ++ h.cb.contents = h.stored

theorem BufHistory.start_fifo (cb : CircBuf) : (BufHistory.start cb).Fifo :=
  ⟨kbBufClear_inRange cb, by simp [BufHistory.start]⟩

theorem BufHistory.call_fifo {h : BufHistory} (hf : h.Fifo) (c : BufCall) : (h.call c).Fifo := by
  obtain ⟨hin, hbytes⟩ := hf
  cases c with
  | put src count =>
    -- what is stored is appended to the queue
    obtain ⟨hret, hin', hcont⟩ := kbBufPut_spec hin src count
    refine ⟨hin', ?_⟩
    simp only [BufHistory.call]
    rw [hcont, hret, ← List.append_assoc, hbytes]
  | get count =>
    -- what is returned leaves it at the front
    obtain ⟨-, hin', -, hcont⟩ := kbBufGet_spec hin count
    refine ⟨hin', ?_⟩
    simp only [BufHistory.call]
    rw [List.append_assoc, ← hcont, hbytes]

theorem BufHistory.calls_fifo {h : BufHistory} (hf : h.Fifo) (calls : List BufCall) :
    (calls.foldl BufHistory.call h).Fifo := by
  induction calls generalizing h with
  | nil => exact hf
  | cons c calls ih => exact ih (BufHistory.call_fifo hf c)

/-- **Byte FIFO**: after any sequence of calls on a cleared buffer `head` and `tail` are cell
    numbers, one cell is unused, the next call moves exactly the bytes that were asked for and are
    possible, and the bytes returned so far, followed by the bytes held, are the bytes stored. -/
theorem kbBuf_fifo (cb : CircBuf) (calls : List BufCall) :
    let h := calls.foldl BufHistory.call (BufHistory.start cb)
    (0 ≤ h.cb.head ∧ h.cb.head < kbBufLen) ∧
      (0 ≤ h.cb.tail ∧ h.cb.tail < kbBufLen) ∧
      kbBufDataAvail h.cb + kbBufSpaceAvail h.cb = kbBufLen - 1 ∧
      (∀ src count, (kbBufPut h.cb src count).1 = max 0 (min count (kbBufSpaceAvail h.cb)) ∧
        (kbBufPut h.cb src count).2.contents =
          h.cb.contents ++ bytesOf src (kbBufPut h.cb src count).1) ∧
      (∀ count, (kbBufGet h.cb count).1 = max 0 (min count (kbBufDataAvail h.cb)) ∧
        ((kbBufGet h.cb count).2.1.length : ℤ) = (kbBufGet h.cb count).1) ∧
      (h.cb.contents.length : ℤ) = kbBufDataAvail h.cb ∧
      h.returned ++ h.cb.contents = h.stored := by
  intro h
  obtain ⟨hin, hbytes⟩ := BufHistory.calls_fifo (BufHistory.start_fifo cb) calls
  refine ⟨⟨hin.head_nonneg, hin.head_lt⟩, ⟨hin.tail_nonneg, hin.tail_lt⟩, avail_add_space h.cb,
    ?_, ?_, contents_length h.cb, hbytes⟩
  · intro src count
    obtain ⟨hret, -, hcont⟩ := kbBufPut_spec hin src count
    exact ⟨hret, by rw [hcont, hret]⟩
  · intro count
    obtain ⟨hret, -, hlen, -⟩ := kbBufGet_spec hin count
    exact ⟨hret, by rw [hlen, hret]⟩

end NucKernel.CharDevices.Keyboard
