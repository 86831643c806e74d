import NucKernel.Library.Ring

/-!
# Transmission of the UART (`nuc970_serial.c`)

Bytes to be sent wait in the ring `xmit`. `transmit_chars` moves up to twelve of them to the FIFO of
the controller without looking at the FIFO; it is called by the interrupt handler when the FIFO is
empty, and by `nuc970serial_start_tx` when the ring has fewer bytes than the FIFO has free cells.
The FIFO is drained at any moment, also between two register accesses.

## Modelling

- There is one processor, and neither `start_tx` nor the handler is interrupted by the other (a
  port with `low_latency` is excluded by the contract of `tty_flip_buffer_push`).
- `uart_write_wakeup` may queue bytes and call `start_tx`; no access to `THR` follows it in
  `transmit_chars`, so that such a call is one that comes next.
- `THRE_IF` is read as set only when the FIFO is empty, and bits 16 to 21 of `FSR` are the number of
  bytes in the FIFO; a byte written to a full FIFO is lost.
- `UART_XMIT_SIZE` is 4096, the size of a page; its definition is not in the tree.
- The settings for RS-485 and IrDA touch other registers and are left out.
-/

namespace NucKernel.Serial

open NucKernel.Library

/-! ## The port -/

def uartXmitSize : ℕ := 4096

/-- A byte written to `THR`: from the ring, or `x_char` -/
inductive Sent
  | data (b : UInt8)
  | xChar (b : UInt8)

namespace Sent

def byte : Sent → UInt8
  | .data b => b
  | .xChar b => b

def data? : Sent → Option UInt8
  | .data b => some b
  | .xChar _ => none

def xChar? : Sent → Option UInt8
  | .data _ => none
  | .xChar b => some b

end Sent

/-- Where the processor is; `start` tells whether `transmit_chars` was called by `start_tx`. -/
inductive Pc
  | idle
  /-- At the beginning of `transmit_chars` -/
  | enter (start : Bool)
  /-- In the loop that waits for room for `x_char` -/
  | waitX (start : Bool)
  /-- Before the write of `x_char` -/
  | writeX (start : Bool)
  /-- Before a write of the `do` loop, with the value of `count` -/
  | loop (start : Bool) (count : ℕ)

structure Port where
  /-- `xmit->buf`, `xmit->head` and `xmit->tail` -/
  buf : ℕ → UInt8
  head : ℕ
  tail : ℕ
  /-- `port.x_char` -/
  xChar : UInt8
  /-- `uart_tx_stopped` -/
  stopped : Bool
  /-- `THRE_IEN` -/
  threIen : Bool
  fifo : List UInt8
  /-- The bytes that have left the FIFO -/
  shifted : List UInt8
  /-- A byte was written to a full FIFO. -/
  overrun : Bool
  pc : Pc
  /-- All bytes queued, all values of `x_char` set, and all writes to `THR` so far -/
  queued : List UInt8
  xChars : List UInt8
  written : List Sent

namespace Port

def init : Port where
  buf _ := 0
  head := 0
  tail := 0
  xChar := 0
  stopped := false
  threIen := false
  fifo := []
  shifted := []
  overrun := false
  pc := .idle
  queued := []
  xChars := []
  written := []

/-- `uart_circ_chars_pending` -/
def pending (s : Port) : ℕ := (s.head + uartXmitSize - s.tail) % uartXmitSize

def writeThr (s : Port) (x : Sent) : Port :=
  if s.fifo.length < 16 then { s with fifo := s.fifo ++ [x.byte], written := s.written ++ [x] }
  else { s with overrun := true, written := s.written ++ [x] }

/-- The return from `transmit_chars`; `start_tx` enables the interrupt again. -/
def leave (s : Port) (start : Bool) : Port :=
  { s with pc := .idle, threIen := s.threIen || start }

def stopTx (s : Port) : Port := { s with threIen := false }

def sendNext (s : Port) : Port :=
  { s.writeThr (.data (s.buf s.tail)) with tail := (s.tail + 1) % uartXmitSize }

def cpuStep (s : Port) : Port :=
  match s.pc with
  | .idle => s
  | .enter start =>
    if s.xChar ≠ 0 then { s with pc := .waitX start }
    else if s.stopped then s.stopTx.leave start
    else if s.head = s.tail then s.stopTx.leave start
    else { s with pc := .loop start 12 }
  | .waitX start => if s.fifo.length = 16 then s else { s with pc := .writeX start }
  | .writeX start => { s.writeThr (.xChar s.xChar) with xChar := 0 }.leave start
  | .loop start count =>
    let s := s.sendNext
    if s.head = s.tail then s.stopTx.leave start
    else if 0 < count - 1 then { s with pc := .loop start (count - 1) }
    else s.leave start

end Port

/-! ## Events -/

inductive Event
  /-- `uart_put_char`, or one byte of `uart_write` -/
  | queue (b : UInt8)
  /-- `port->x_char = ch` -/
  | setXchar (ch : UInt8)
  | setStopped (stopped : Bool)
  | startTx
  /-- An interrupt whose handler reads `THRE_IF` as set -/
  | thre
  /-- A byte leaves the FIFO. -/
  | drain
  | cpu

/-- One event; events that cannot happen leave the port as it is. -/
def step (s : Port) : Event → Port
  | .queue b =>
    match s.pc with
    | .idle =>
      if s.pending + 1 < uartXmitSize then
        { s with
          buf := Function.update s.buf s.head b
          head := (s.head + 1) % uartXmitSize
          queued := s.queued ++ [b] }
      else s
    | _ => s
  | .setXchar ch =>
    match s.pc with
    | .idle => { s with xChar := ch, xChars := s.xChars ++ [ch] }
    | _ => s
  | .setStopped stopped =>
    match s.pc with
    | .idle => { s with stopped := stopped }
    | _ => s
  | .startTx =>
    match s.pc with
    | .idle =>
      -- the interrupt is disabled around the call
      if s.pending < 16 - s.fifo.length then { s with threIen := false, pc := .enter true }
      else { s with threIen := true }
    | _ => s
  | .thre =>
    match s.pc, s.fifo with
    | .idle, [] => { s with pc := .enter false }
    | _, _ => s
  | .drain =>
    match s.fifo with
    | [] => s
    | b :: rest => { s with fifo := rest, shifted := s.shifted ++ [b] }
  | .cpu => s.cpuStep

/-! ## The invariant -/

def Port.waitingX (s : Port) : List UInt8 := if s.xChar = 0 then [] else [s.xChar]

/-- The FIFO has room for what `transmit_chars` will write without looking, `n` bytes being in the
    ring; `x` is `x_char`. -/
def Pc.Room (level n : ℕ) (x : UInt8) : Pc → Prop
  | .idle => True
  | .enter _ => level + min 12 n ≤ 16
  | .waitX _ => x ≠ 0
  | .writeX _ => x ≠ 0 ∧ level < 16
  | .loop _ count => 0 < count ∧ 0 < n ∧ level + min count n ≤ 16

/-- What holds between two register accesses while `n` bytes are in the ring -/
structure Sound (s : Port) (n : ℕ) : Prop where
  overrun : s.overrun = false
  level : s.fifo.length ≤ 16
  shifted : s.shifted ++ s.fifo = s.written.map Sent.byte
  tail_lt : s.tail < uartXmitSize
  count_lt : n < uartXmitSize
  head_eq : s.head = (s.tail + n) % uartXmitSize
  queued : s.queued = s.written.filterMap Sent.data? ++ ringList s.buf uartXmitSize s.tail n
  xChars : (s.written.filterMap Sent.xChar? ++ s.waitingX).Sublist s.xChars
  room : s.pc.Room s.fifo.length n s.xChar

theorem Pc.Room.mono {level n : ℕ} {x : UInt8} {pc : Pc} (h : pc.Room (level + 1) n x) :
    pc.Room level n x := by
  cases pc with
  | idle => trivial
  | enter start =>
    have hfits : level + 1 + min 12 n ≤ 16 := h
    show level + min 12 n ≤ 16
    omega
  | waitX start => exact h
  | writeX start => exact ⟨h.1, Nat.lt_of_succ_lt h.2⟩
  | loop start count =>
    obtain ⟨hcount, hn, hfits⟩ := h
    exact ⟨hcount, hn, by omega⟩

namespace Sound

variable {s : Port} {n : ℕ}

theorem init : Sound Port.init 0 :=
  ⟨rfl, by simp [Port.init], rfl, by decide, by decide, rfl, rfl,
    by simp [Port.init, Port.waitingX], trivial⟩

theorem pending_eq (h : Sound s n) : s.pending = n := by
  rw [Port.pending, h.head_eq]
  exact ring_distance h.tail_lt h.count_lt

theorem head_eq_tail_iff (h : Sound s n) : s.head = s.tail ↔ n = 0 := by
  have hpending := h.pending_eq
  have htail := h.tail_lt
  constructor
  · intro heq
    rw [← hpending, Port.pending, heq, Nat.add_sub_cancel_left, Nat.mod_self]
  · rintro rfl
    rw [h.head_eq, Nat.add_zero, Nat.mod_eq_of_lt htail]

theorem setPc (h : Sound s n) {pc : Pc} (threIen : Bool) (hroom : pc.Room s.fifo.length n s.xChar) :
    Sound { s with pc := pc, threIen := threIen } n :=
  ⟨h.overrun, h.level, h.shifted, h.tail_lt, h.count_lt, h.head_eq, h.queued, h.xChars, hroom⟩

theorem leave (h : Sound s n) (start : Bool) : Sound (s.leave start) n := h.setPc _ trivial

theorem stopTx_leave (h : Sound s n) (start : Bool) : Sound (s.stopTx.leave start) n :=
  h.setPc _ trivial

theorem writeThr_eq (x : Sent) (hlevel : s.fifo.length < 16) :
    s.writeThr x = { s with fifo := s.fifo ++ [x.byte], written := s.written ++ [x] } := by
  rw [Port.writeThr, if_pos hlevel]

theorem sendNext (h : Sound s (n + 1)) (hlevel : s.fifo.length < 16) :
    Sound { s.sendNext with pc := .idle } n ∧ s.sendNext.fifo.length = s.fifo.length + 1 := by
  have hcount := h.count_lt
  have hlength : (s.fifo ++ [s.buf s.tail]).length = s.fifo.length + 1 := by simp
  rw [Port.sendNext, writeThr_eq _ hlevel]
  refine ⟨⟨h.overrun, hlength.trans_le hlevel, ?_, Nat.mod_lt _ (by decide), by omega, ?_, ?_, ?_,
    trivial⟩, hlength⟩
  · -- the byte is the last one written
    rw [List.map_append, ← h.shifted, List.append_assoc]
    rfl
  · rw [ring_pos_tail_succ]
    exact h.head_eq
  · -- it was the first of the ring
    rw [h.queued, ringList_pop _ _ h.tail_lt, List.filterMap_append, List.append_assoc]
    rfl
  · -- it is no flow control character
    have hnone : [Sent.data (s.buf s.tail)].filterMap Sent.xChar? = [] := rfl
    rw [List.filterMap_append, hnone, List.append_nil]
    exact h.xChars

theorem write_xChar (h : Sound s n) (hx : s.xChar ≠ 0) (hlevel : s.fifo.length < 16)
    (start : Bool) : Sound ({ s.writeThr (.xChar s.xChar) with xChar := 0 }.leave start) n := by
  have hxChars := h.xChars
  rw [Port.waitingX, if_neg hx] at hxChars
  rw [writeThr_eq _ hlevel]
  -- the FIFO, the bytes of the ring, and the flow control characters
  refine ⟨h.overrun, ?_, ?_, h.tail_lt, h.count_lt, h.head_eq, ?_, ?_, trivial⟩
  · exact (List.length_append ..).trans_le hlevel
  · show s.shifted ++ (s.fifo ++ [s.xChar]) = (s.written ++ [Sent.xChar s.xChar]).map Sent.byte
    rw [List.map_append, ← h.shifted, List.append_assoc]
    rfl
  · show s.queued = (s.written ++ [Sent.xChar s.xChar]).filterMap Sent.data? ++ _
    have hnone : [Sent.xChar s.xChar].filterMap Sent.data? = [] := rfl
    rw [List.filterMap_append, hnone, List.append_nil]
    exact h.queued
  · show ((s.written ++ [Sent.xChar s.xChar]).filterMap Sent.xChar? ++ []).Sublist s.xChars
    rw [List.filterMap_append, List.append_nil]
    exact hxChars

theorem cpuStep (h : Sound s n) : ∃ m, Sound s.cpuStep m := by
  rw [Port.cpuStep]
  have hroom := h.room
  split
  · -- nothing is to be done
    exact ⟨n, h⟩
  · rename_i start hpc
    rw [hpc] at hroom
    split_ifs with hx hstopped hempty
    · exact ⟨n, h.setPc _ hx⟩
    · exact ⟨n, h.stopTx_leave start⟩
    · exact ⟨n, h.stopTx_leave start⟩
    · -- the loop is entered with a byte in the ring
      have hn : n ≠ 0 := fun hzero => hempty (h.head_eq_tail_iff.mpr hzero)
      exact ⟨n, h.setPc _ ⟨by decide, Nat.pos_of_ne_zero hn, hroom⟩⟩
  · rename_i start hpc
    rw [hpc] at hroom
    split_ifs with hfull
    · -- the FIFO is full, and is read again
      exact ⟨n, h⟩
    · exact ⟨n, h.setPc _ ⟨hroom, Nat.lt_of_le_of_ne h.level hfull⟩⟩
  · rename_i start hpc
    rw [hpc] at hroom
    exact ⟨n, h.write_xChar hroom.1 hroom.2 start⟩
  · rename_i start count hpc
    rw [hpc] at hroom
    obtain ⟨hcount, hn, hfits⟩ := hroom
    obtain ⟨m, rfl⟩ : ∃ m, n = m + 1 := ⟨n - 1, by omega⟩
    have hlevel : s.fifo.length < 16 := by omega
    obtain ⟨hsent, hlength⟩ := h.sendNext hlevel
    -- the ring is empty, or the loop goes on, or twelve bytes have been sent
    refine ⟨m, ?_⟩
    dsimp only
    split
    · exact hsent.setPc _ trivial
    · rename_i hne
      have hm : m ≠ 0 := fun hzero => hne (hsent.head_eq_tail_iff.mpr hzero)
      split
      · rename_i hmore
        refine hsent.setPc _ ⟨hmore, Nat.pos_of_ne_zero hm, ?_⟩
        show s.sendNext.fifo.length + _ ≤ 16
        rw [hlength]
        omega
      · exact hsent.setPc _ trivial

theorem enqueue (h : Sound s n) (hpc : s.pc = .idle) (hspace : n + 1 < uartXmitSize) (b : UInt8) :
    Sound { s with
      buf := Function.update s.buf s.head b
      head := (s.head + 1) % uartXmitSize
      queued := s.queued ++ [b] } (n + 1) := by
  refine ⟨h.overrun, h.level, h.shifted, h.tail_lt, hspace, ?_, ?_, h.xChars, ?_⟩
  · -- the head moves on, and the byte is behind the others
    show (s.head + 1) % uartXmitSize = (s.tail + (n + 1)) % uartXmitSize
    rw [h.head_eq, ring_pos_head_succ]
  · show s.queued ++ [b] = _ ++ ringList (Function.update s.buf s.head b) _ _ _
    rw [h.head_eq, ringList_push _ _ h.count_lt, h.queued, List.append_assoc]
  · show s.pc.Room _ _ _
    rw [hpc]
    trivial

theorem setXchar (h : Sound s n) (hpc : s.pc = .idle) (ch : UInt8) :
    Sound { s with xChar := ch, xChars := s.xChars ++ [ch] } n := by
  refine ⟨h.overrun, h.level, h.shifted, h.tail_lt, h.count_lt, h.head_eq, h.queued, ?_, ?_⟩
  · have hsent := (List.sublist_append_left _ _).trans h.xChars
    refine hsent.append ?_
    rw [Port.waitingX]
    split <;> simp
  · show s.pc.Room _ _ _
    rw [hpc]
    trivial

theorem drain (h : Sound s n) {b : UInt8} {rest : List UInt8} (hfifo : s.fifo = b :: rest) :
    Sound { s with fifo := rest, shifted := s.shifted ++ [b] } n := by
  have hlevel := h.level
  have hroom := h.room
  have hshifted := h.shifted
  rw [hfifo, List.length_cons] at hlevel hroom
  rw [hfifo] at hshifted
  refine ⟨h.overrun, Nat.le_of_succ_le hlevel, ?_, h.tail_lt, h.count_lt, h.head_eq, h.queued,
    h.xChars, hroom.mono⟩
  -- the byte was the first of the FIFO
  rw [← hshifted, List.append_assoc]
  rfl

theorem step (h : Sound s n) (e : Event) : ∃ m, Sound (step s e) m := by
  cases e with
  | queue b =>
    rw [Serial.step]
    split
    · rename_i hpc
      split_ifs with hspace
      · rw [h.pending_eq] at hspace
        exact ⟨n + 1, h.enqueue hpc hspace b⟩
      · exact ⟨n, h⟩
    · exact ⟨n, h⟩
  | setXchar ch =>
    rw [Serial.step]
    split
    · rename_i hpc
      exact ⟨n, h.setXchar hpc ch⟩
    · exact ⟨n, h⟩
  | setStopped stopped =>
    rw [Serial.step]
    split
    · exact ⟨n, h.overrun, h.level, h.shifted, h.tail_lt, h.count_lt, h.head_eq, h.queued, h.xChars,
        h.room⟩
    · exact ⟨n, h⟩
  | startTx =>
    rw [Serial.step]
    split
    · split_ifs with hguard
      · -- the ring has fewer bytes than the FIFO has free cells, so that all of them fit
        rw [h.pending_eq] at hguard
        refine ⟨n, h.setPc _ ?_⟩
        show s.fifo.length + min 12 n ≤ 16
        omega
      · exact ⟨n, h.setPc _ h.room⟩
    · exact ⟨n, h⟩
  | thre =>
    rw [Serial.step]
    split
    · -- an empty FIFO has room for the twelve bytes of the loop
      rename_i hempty
      refine ⟨n, h.setPc _ ?_⟩
      show s.fifo.length + min 12 n ≤ 16
      rw [hempty, List.length_nil]
      omega
    · exact ⟨n, h⟩
  | drain =>
    rw [Serial.step]
    split
    · exact ⟨n, h⟩
    · rename_i b rest hfifo
      exact ⟨n, h.drain hfifo⟩
  | cpu => exact h.cpuStep

end Sound

/-- **Transmission**: after any events, no byte was written to a full FIFO; the bytes shifted out,
    followed by those in the FIFO, are the bytes written; without the flow control characters these
    are the queued bytes in order, up to those still in the ring; and the flow control characters
    sent are among those set, in order. -/
theorem transmit_in_order (events : List Event) :
    let s := events.foldl step Port.init
    s.overrun = false ∧ s.shifted ++ s.fifo = s.written.map Sent.byte ∧
      s.queued = s.written.filterMap Sent.data? ++ ringList s.buf uartXmitSize s.tail s.pending ∧
      (s.written.filterMap Sent.xChar?).Sublist s.xChars := by
  obtain ⟨n, h⟩ : ∃ n, Sound (events.foldl step Port.init) n :=
    List.foldlRecOn events step (motive := fun s => ∃ n, Sound s n) ⟨0, Sound.init⟩
      fun s ⟨n, h⟩ e _ => h.step e
  refine ⟨h.overrun, h.shifted, ?_, (List.sublist_append_left _ _).trans h.xChars⟩
  rw [h.pending_eq]
  exact h.queued

/-- Two bytes are queued and sent, a flow control character before the second one. -/
example : (([.queue 1, .startTx, .cpu, .cpu, .queue 2, .setXchar 0x13, .startTx, .cpu, .cpu, .cpu,
    .drain, .startTx, .cpu, .cpu] : List Event).foldl step Port.init).fifo = [0x13, 2] := by
  decide +kernel

end NucKernel.Serial
