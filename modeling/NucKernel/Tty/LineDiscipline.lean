import NucKernel.Library.Ring

/-!
# The read queue of the canonical line discipline (`n_tty.c`)

Received characters are queued in a ring. `canon_head` is where the line that is being typed starts:
what is before it are finished lines, each closed by a flag in `read_flags`; what is after it can
still be erased. An end-of-file character closes a line with a marker that is not data.

## Modelling

- `ICANON` is set and the termios settings are fixed, so that `raw` and `real_raw` are 0 and
  `process_char_map` is a function of the settings. `tty->closing` is 0.
- Echo, flow control of the output and the signals are left out: they do not change the read queue.
- A received character is one step. `read_lock` is held wherever the ring is changed.
- `N_TTY_BUF_SIZE`, `__DISABLED_CHAR`, `tolower` and `isalnum` come from headers outside the tree;
  the two functions are parameters.
- `typed` and `first` are not in the source. They record how many characters the line being typed
  has, and for each queued character whether it was the first of its line.
-/

namespace NucKernel.Tty.LineDiscipline

open NucKernel.Library

/-! ## Settings -/

def nTtyBufSize : ℕ := 4096

def disabledChar : UInt8 := 0

/-- The settings that the line discipline reads: flags of `c_iflag` and `c_lflag`, the characters of
    `c_cc`, and the character classes. -/
structure Termios where
  istrip : Bool
  iuclc : Bool
  igncr : Bool
  icrnl : Bool
  inlcr : Bool
  ixon : Bool
  ignbrk : Bool
  brkint : Bool
  ignpar : Bool
  parmrk : Bool
  inpck : Bool
  iutf8 : Bool
  isig : Bool
  iexten : Bool
  extproc : Bool
  noflsh : Bool
  echo : Bool
  echoe : Bool
  echok : Bool
  echoke : Bool
  intrChar : UInt8
  quitChar : UInt8
  suspChar : UInt8
  startChar : UInt8
  stopChar : UInt8
  eraseChar : UInt8
  weraseChar : UInt8
  killChar : UInt8
  lnextChar : UInt8
  reprintChar : UInt8
  eofChar : UInt8
  eolChar : UInt8
  eol2Char : UInt8
  tolower : UInt8 → UInt8
  isalnum : UInt8 → Bool

namespace Termios

/-- The characters with a bit in `process_char_map` (`n_tty_set_termios`) -/
def processCharMap (t : Termios) (c : UInt8) : Bool :=
  c != disabledChar &&
    ((c == 0x0d && (t.igncr || t.icrnl)) || c == 0x0a ||
      c == t.eraseChar || c == t.killChar || c == t.eofChar || c == t.eolChar ||
      (t.iexten && (c == t.weraseChar || c == t.lnextChar || c == t.eol2Char ||
        (t.echo && c == t.reprintChar))) ||
      (t.ixon && (c == t.startChar || c == t.stopChar)) ||
      (t.isig && (c == t.intrChar || c == t.quitChar || c == t.suspChar)))

def strip (t : Termios) (c : UInt8) : UInt8 :=
  let c := if t.istrip then c &&& 0x7f else c
  if t.iuclc && t.iexten then t.tolower c else c

def mapNewline (t : Termios) (c : UInt8) : UInt8 :=
  if c == 0x0d then
    if t.icrnl then 0x0a else c
  else if c == 0x0a && t.inlcr then 0x0d else c

def isContinuation (t : Termios) (c : UInt8) : Bool := t.iutf8 && (c &&& 0xc0) == 0x80

/-- `parmrk`: the character is marked by doubling it. -/
def doubles (t : Termios) (c : UInt8) : ℕ := if c == 0xff && t.parmrk then 1 else 0

end Termios

/-! ## The ring -/

structure Queue where
  readBuf : ℕ → UInt8
  readFlags : ℕ → Bool
  readHead : ℕ
  readTail : ℕ
  readCnt : ℕ
  canonData : ℕ
  canonHead : ℕ
  /-- The number of characters of the line that is being typed -/
  typed : ℕ
  /-- The character at a position was received with nothing typed on its line. -/
  first : ℕ → Bool

namespace Queue

/-- `n_tty_open` -/
def init : Queue := ⟨fun _ => 0, fun _ => false, 0, 0, 0, 0, 0, 0, fun _ => false⟩

def putTtyQueue (l : Queue) (c : UInt8) : Queue :=
  if l.readCnt < nTtyBufSize then
    { l with
      readBuf := Function.update l.readBuf l.readHead c
      readHead := (l.readHead + 1) % nTtyBufSize
      readCnt := l.readCnt + 1
      typed := l.typed + 1
      first := Function.update l.first l.readHead (l.typed == 0) }
  else l

def putAll (l : Queue) (cs : List UInt8) : Queue := cs.foldl putTtyQueue l

@[simp] theorem putAll_nil (l : Queue) : l.putAll [] = l := rfl

@[simp] theorem putAll_cons (l : Queue) (c : UInt8) (cs : List UInt8) :
    l.putAll (c :: cs) = (l.putTtyQueue c).putAll cs := rfl

def resetBufferFlags (l : Queue) : Queue :=
  { l with
    readFlags := fun _ => false
    readHead := 0
    readTail := 0
    readCnt := 0
    canonData := 0
    canonHead := 0
    typed := 0 }

def handleNewline (l : Queue) (c : UInt8) : Queue :=
  let l := { l with readFlags := Function.update l.readFlags l.readHead true }.putTtyQueue c
  { l with canonHead := l.readHead, canonData := l.canonData + 1, typed := 0 }

/-- `if (parmrk) put_tty_queue(c, ldata)` -/
def putMark (l : Queue) (t : Termios) (c : UInt8) : Queue :=
  if t.doubles c = 1 then l.putTtyQueue c else l

theorem putMark_readCnt_lt (l : Queue) {t : Termios} {c : UInt8}
    (hroom : l.readCnt < nTtyBufSize - t.doubles c) : (l.putMark t c).readCnt < nTtyBufSize := by
  rw [putMark]
  split_ifs with hdouble
  · rw [hdouble] at hroom
    rw [putTtyQueue, if_pos (by omega)]
    exact Nat.add_lt_of_lt_sub hroom
  · omega

def putChar (l : Queue) (t : Termios) (c : UInt8) : Queue :=
  if l.readCnt ≥ nTtyBufSize - t.doubles c - 1 then l else (l.putMark t c).putTtyQueue c

/-! ## Erasing -/

def erase (l : Queue) (head : ℕ) : Queue :=
  let cnt := (l.readHead + nTtyBufSize - head) % nTtyBufSize
  { l with readHead := head, readCnt := l.readCnt - cnt, typed := l.typed - cnt }

def distance (l : Queue) : ℕ := (l.readHead + nTtyBufSize - l.canonHead) % nTtyBufSize

/-- The loop that looks for the start of a possibly multibyte character. It stops at `canon_head`
    at the latest: the first argument is the distance to it. -/
def stepBack (l : Queue) (t : Termios) : ℕ → ℕ → ℕ
  | 0, head => head
  | d + 1, head =>
    let head := (head + nTtyBufSize - 1) % nTtyBufSize
    if t.isContinuation (l.readBuf head) ∧ head ≠ l.canonHead then l.stepBack t d head else head

end Queue

inductive KillType
  | erase
  | werase
  | kill
  deriving DecidableEq

namespace Queue

def isWord (t : Termios) (c : UInt8) : Bool := t.isalnum c || c == 0x5f

/-- The loop of `eraser`, which erases at least one character a round -/
def eraseLoop (t : Termios) (kind : KillType) : ℕ → Bool → Queue → Queue
  | 0, _, l => l
  | rounds + 1, seenAlnums, l =>
    if l.readHead = l.canonHead then l
    else
      let head := l.stepBack t l.distance l.readHead
      let c := l.readBuf head
      -- do not partially erase
      if t.isContinuation c then l
      else if kind = .werase ∧ isWord t c = false ∧ seenAlnums then l
      else if kind = .erase then l.erase head
      else eraseLoop t kind rounds (seenAlnums || isWord t c) (l.erase head)

def eraser (l : Queue) (t : Termios) (c : UInt8) : Queue :=
  if l.readHead = l.canonHead then l
  else if c == t.eraseChar then eraseLoop t .erase l.distance false l
  else if c == t.weraseChar then eraseLoop t .werase l.distance false l
  else if !t.echo || !t.echok || !t.echoke || !t.echoe then l.erase l.canonHead
  else eraseLoop t .kill l.distance false l

end Queue

/-! ## Received characters -/

/-- What the flip buffers deliver: a character with its flag -/
inductive Received
  | normal (c : UInt8)
  | break
  /-- `TTY_PARITY` or `TTY_FRAME` -/
  | parity (c : UInt8)
  | overrun

structure Ldisc where
  queue : Queue
  lnext : Bool
  push : Bool

namespace Ldisc

/-- The canonical part of `n_tty_receive_char` -/
def receiveCanon (s : Ldisc) (t : Termios) (c : UInt8) : Ldisc :=
  if c == t.eraseChar || c == t.killChar || (c == t.weraseChar && t.iexten) then
    { s with queue := s.queue.eraser t c }
  else if c == t.lnextChar && t.iexten then { s with lnext := true }
  else if c == t.reprintChar && t.echo && t.iexten then s
  else if c == 0x0a then
    if s.queue.readCnt ≥ nTtyBufSize then s else { s with queue := s.queue.handleNewline c }
  else if c == t.eofChar then
    if s.queue.readCnt ≥ nTtyBufSize then s
    else
      { s with
        push := s.push || s.queue.canonHead != s.queue.readHead
        queue := s.queue.handleNewline disabledChar }
  else if c == t.eolChar || (c == t.eol2Char && t.iexten) then
    if s.queue.readCnt ≥ nTtyBufSize - t.doubles c then s
    else { s with queue := (s.queue.putMark t c).handleNewline c }
  else { s with queue := s.queue.putChar t c }

/-- A character that is queued as it is, with `EXTPROC`: it closes a line if the settings say so. -/
def putExternal (s : Ldisc) (t : Termios) (c : UInt8) : Ldisc :=
  let queue := s.queue.putTtyQueue c
  if c == 0x0a || c == t.eofChar || c == t.eolChar || (c == t.eol2Char && t.iexten) then
    { s with queue := { queue with typed := 0 } }
  else { s with queue := queue }

/-- A character that is handled like any other: `process_char_map` does not have it, or it follows
    `LNEXT_CHAR`. -/
def shortcut (s : Ldisc) (t : Termios) (c : UInt8) : Bool := !t.processCharMap c || s.lnext

def signals (t : Termios) (c : UInt8) : Bool :=
  t.isig && (c == t.intrChar || c == t.quitChar || c == t.suspChar)

def controlsFlow (t : Termios) (c : UInt8) : Bool :=
  t.ixon && (c == t.startChar || c == t.stopChar)

def nTtyReceiveChar (s : Ldisc) (t : Termios) (c : UInt8) : Ldisc :=
  let c := t.strip c
  if t.extproc then s.putExternal t c
  else if s.shortcut t c then { s with lnext := false, queue := s.queue.putChar t c }
  else if controlsFlow t c then s
  else if signals t c then
    if t.noflsh then s else { s with queue := s.queue.resetBufferFlags }
  else if c == 0x0d && t.igncr then s
  else s.receiveCanon t (t.mapNewline c)

def nTtyReceiveBreak (s : Ldisc) (t : Termios) : Ldisc :=
  if t.ignbrk then s
  else if t.brkint then
    if t.noflsh then s else { s with queue := s.queue.resetBufferFlags }
  else { s with queue := s.queue.putAll (if t.parmrk then [0xff, 0, 0] else [0]) }

def nTtyReceiveParityError (s : Ldisc) (t : Termios) (c : UInt8) : Ldisc :=
  if t.ignpar then s
  else if t.parmrk then { s with queue := s.queue.putAll [0xff, 0, c] }
  else { s with queue := s.queue.putTtyQueue (if t.inpck then 0 else c) }

/-- One round of the loop of `n_tty_receive_buf` -/
def receive (s : Ldisc) (t : Termios) : Received → Ldisc
  | .normal c => s.nTtyReceiveChar t c
  | .break => s.nTtyReceiveBreak t
  | .parity c => s.nTtyReceiveParityError t c
  | .overrun => s

/-- A received character that discards the input: `n_tty_flush_buffer` is called. -/
def flushes (s : Ldisc) (t : Termios) : Received → Bool
  | .normal c =>
    !t.extproc && !s.shortcut t (t.strip c) && !controlsFlow t (t.strip c) &&
      signals t (t.strip c) && !t.noflsh
  | .break => !t.ignbrk && t.brkint && !t.noflsh
  | .parity _ => false
  | .overrun => false

end Ldisc

/-! ## Finished lines and the line being typed -/

/-- A queued character with its flag in `read_flags` -/
structure Cell where
  char : UInt8
  eol : Bool
  first : Bool
  deriving DecidableEq

/-- The marker of an end-of-file character that was received behind other characters of its line -/
def Cell.isPush (x : Cell) : Bool := x.eol && x.char == disabledChar && !x.first

structure Lines where
  /-- The finished lines, one behind the other -/
  done : List Cell
  /-- The line that is being typed -/
  cur : List Cell

def Queue.cell (l : Queue) (pos : ℕ) : Cell := ⟨l.readBuf pos, l.readFlags pos, l.first pos⟩

/-- The ring holds the finished lines from `read_tail` to `canon_head` and the line being typed from
    there to `read_head`. -/
structure Represents (l : Queue) (q : Lines) : Prop where
  tail_lt : l.readTail < nTtyBufSize
  cnt : l.readCnt = q.done.length + q.cur.length
  cnt_le : l.readCnt ≤ nTtyBufSize
  head : l.readHead = (l.readTail + l.readCnt) % nTtyBufSize
  canonHead : l.canonHead = (l.readTail + q.done.length) % nTtyBufSize
  cells : ringList l.cell nTtyBufSize l.readTail l.readCnt = q.done ++ q.cur
  typed : l.typed = q.cur.length
  canonData : l.canonData = q.done.countP Cell.eol
  flags : ∀ pos, l.readFlags pos = true →
    ∃ i < q.done.length, pos = (l.readTail + i) % nTtyBufSize

namespace Represents

variable {l : Queue} {q : Lines}

theorem init : Represents Queue.init ⟨[], []⟩ := by
  constructor <;> simp [Queue.init, nTtyBufSize]

theorem flag_eq_false (h : Represents l q) {i : ℕ} (hi : q.done.length ≤ i)
    (hsize : i < nTtyBufSize) : l.readFlags ((l.readTail + i) % nTtyBufSize) = false := by
  rw [Bool.eq_false_iff]
  intro hflag
  obtain ⟨j, hj, heq⟩ := h.flags _ hflag
  exact ring_pos_ne (by omega) hsize heq.symm

theorem cur_eol (h : Represents l q) {x : Cell} (hx : x ∈ q.cur) : x.eol = false := by
  obtain ⟨i, hi, rfl⟩ := List.getElem_of_mem hx
  have hcnt := h.cnt
  have hle := h.cnt_le
  -- the cell is behind the finished ones
  have hget : (ringList l.cell nTtyBufSize l.readTail l.readCnt)[q.done.length + i]? =
      some q.cur[i] := by
    rw [h.cells, List.getElem?_append_right (by omega), Nat.add_sub_cancel_left,
      List.getElem?_eq_getElem hi]
  rw [ringList, List.getElem?_map, List.getElem?_range (by omega)] at hget
  rw [← Option.some.inj hget]
  exact h.flag_eq_false (by omega) (by omega)

/-! ### Queueing -/

theorem cell_put (l : Queue) (c : UInt8) (hroom : l.readCnt < nTtyBufSize) :
    (l.putTtyQueue c).cell =
      Function.update l.cell l.readHead ⟨c, l.readFlags l.readHead, l.typed == 0⟩ := by
  funext pos
  rw [Queue.putTtyQueue, if_pos hroom]
  by_cases hpos : pos = l.readHead
  · subst hpos
    simp [Queue.cell]
  · simp [Queue.cell, hpos]

theorem put (h : Represents l q) (c : UInt8) (hroom : l.readCnt < nTtyBufSize) :
    Represents (l.putTtyQueue c) ⟨q.done, q.cur ++ [⟨c, false, q.cur.length == 0⟩]⟩ := by
  have hcnt := h.cnt
  have hcell := cell_put l c hroom
  rw [h.head, h.flag_eq_false (by omega) hroom, h.typed] at hcell
  -- the fields that change when there is room
  have hput : l.putTtyQueue c = { l with
      readBuf := (l.putTtyQueue c).readBuf
      readHead := (l.readHead + 1) % nTtyBufSize
      readCnt := l.readCnt + 1
      typed := l.typed + 1
      first := (l.putTtyQueue c).first } := by
    rw [Queue.putTtyQueue, if_pos hroom]
  constructor
  case cells =>
    rw [hcell, hput, ringList_push _ _ hroom, h.cells, List.append_assoc]
  all_goals rw [hput]; dsimp only
  case tail_lt => exact h.tail_lt
  case cnt => simp; omega
  case cnt_le => omega
  case head => rw [h.head, ring_pos_head_succ]
  case canonHead => exact h.canonHead
  case typed => simp [h.typed]
  case canonData => exact h.canonData
  case flags => exact h.flags

theorem putAll (h : Represents l q) (cs : List UInt8) :
    ∃ xs, Represents (l.putAll cs) ⟨q.done, q.cur ++ xs⟩ := by
  induction cs generalizing l q with
  | nil => exact ⟨[], by simpa using h⟩
  | cons c cs ih =>
    rw [Queue.putAll_cons]
    by_cases hroom : l.readCnt < nTtyBufSize
    · -- there is room for this character
      obtain ⟨xs, hxs⟩ := ih (h.put c hroom)
      exact ⟨_, by simpa using hxs⟩
    · rw [Queue.putTtyQueue, if_neg hroom]
      exact ih h

theorem putTtyQueue (h : Represents l q) (c : UInt8) :
    ∃ xs, Represents (l.putTtyQueue c) ⟨q.done, q.cur ++ xs⟩ := h.putAll [c]

theorem putMark (h : Represents l q) (t : Termios) (c : UInt8) :
    ∃ xs, Represents (l.putMark t c) ⟨q.done, q.cur ++ xs⟩ := by
  rw [Queue.putMark]
  split_ifs
  · exact h.putTtyQueue c
  · exact ⟨[], by simpa using h⟩

theorem putChar (h : Represents l q) (t : Termios) (c : UInt8) :
    ∃ xs, Represents (l.putChar t c) ⟨q.done, q.cur ++ xs⟩ := by
  rw [Queue.putChar]
  split_ifs
  · exact ⟨[], by simpa using h⟩
  · obtain ⟨xs, hxs⟩ := h.putMark t c
    obtain ⟨ys, hys⟩ := hxs.putTtyQueue c
    exact ⟨xs ++ ys, by simpa using hys⟩

theorem cell_handleNewline (l : Queue) (c : UInt8) (hroom : l.readCnt < nTtyBufSize) :
    (l.handleNewline c).cell = Function.update l.cell l.readHead ⟨c, true, l.typed == 0⟩ := by
  funext pos
  rw [Queue.handleNewline, Queue.putTtyQueue, if_pos hroom]
  by_cases hpos : pos = l.readHead
  · subst hpos
    simp [Queue.cell]
  · simp [Queue.cell, hpos]

theorem handleNewline (h : Represents l q) (c : UInt8) (hroom : l.readCnt < nTtyBufSize) :
    Represents (l.handleNewline c)
      ⟨q.done ++ (q.cur ++ [⟨c, true, q.cur.length == 0⟩]), []⟩ := by
  have hcnt := h.cnt
  -- no character of the line being typed has a flag, so that the new one counts once
  have heol : q.cur.countP Cell.eol = 0 := by
    rw [List.countP_eq_zero]
    intro x hx
    simp [h.cur_eol hx]
  have hcell := cell_handleNewline l c hroom
  rw [h.head, h.typed] at hcell
  -- the fields that change
  have hline : l.handleNewline c = { l with
      readBuf := (l.handleNewline c).readBuf
      readFlags := Function.update l.readFlags l.readHead true
      readHead := (l.readHead + 1) % nTtyBufSize
      readCnt := l.readCnt + 1
      canonData := l.canonData + 1
      canonHead := (l.readHead + 1) % nTtyBufSize
      typed := 0
      first := (l.handleNewline c).first } := by
    rw [Queue.handleNewline, Queue.putTtyQueue, if_pos hroom]
  have hhead : (l.readHead + 1) % nTtyBufSize = (l.readTail + (l.readCnt + 1)) % nTtyBufSize := by
    rw [h.head, ring_pos_head_succ]
  have hlength (x : Cell) : (q.done ++ (q.cur ++ [x])).length = l.readCnt + 1 := by
    simp
    omega
  constructor
  case cells =>
    rw [hcell, hline, ringList_push _ _ hroom, h.cells]
    simp
  all_goals rw [hline]; dsimp only
  case tail_lt => exact h.tail_lt
  case cnt => rw [hlength]; rfl
  case cnt_le => omega
  case head => exact hhead
  case canonHead => rw [hlength, hhead]
  case typed => rfl
  case canonData => simp [h.canonData, heol]
  case flags =>
    intro pos hpos
    rw [hlength]
    by_cases hend : pos = l.readHead
    · -- the flag of the new character
      exact ⟨l.readCnt, by omega, hend.trans h.head⟩
    · -- the flag of a finished line
      rw [Function.update_of_ne hend] at hpos
      obtain ⟨i, hi, heq⟩ := h.flags pos hpos
      exact ⟨i, by omega, heq⟩

/-! ### Discarding -/

theorem resetBufferFlags (l : Queue) : Represents l.resetBufferFlags ⟨[], []⟩ := by
  constructor <;> simp [Queue.resetBufferFlags, nTtyBufSize]

theorem erase (h : Represents l q) {k : ℕ} (hk : k ≤ q.cur.length)
    (hroom : q.cur.length < nTtyBufSize) :
      Represents (l.erase ((l.canonHead + k) % nTtyBufSize)) ⟨q.done, q.cur.take k⟩ := by
  have hcnt := h.cnt
  -- as many characters are erased as are behind `head`
  have hsub : (l.readHead + nTtyBufSize - (l.canonHead + k) % nTtyBufSize) % nTtyBufSize =
      q.cur.length - k := by
    have hhead : l.readHead =
        ((l.canonHead + k) % nTtyBufSize + (q.cur.length - k)) % nTtyBufSize := by
      rw [h.head, h.canonHead, hcnt, Nat.mod_add_mod, Nat.add_assoc, Nat.mod_add_mod,
        Nat.add_sub_cancel' hk, Nat.add_assoc]
    rw [hhead]
    exact ring_distance (Nat.mod_lt _ (by decide)) (by omega)
  have herase : l.erase ((l.canonHead + k) % nTtyBufSize) = { l with
      readHead := (l.canonHead + k) % nTtyBufSize
      readCnt := q.done.length + k
      typed := k } := by
    rw [Queue.erase, hsub, h.typed, hcnt]
    congr 1 <;> omega
  rw [herase]
  constructor
  case cells =>
    -- the first cells stay
    have hcells := congrArg (List.take (q.done.length + k)) h.cells
    rw [ringList_take _ (by omega), List.take_length_add_append] at hcells
    exact hcells
  all_goals dsimp only
  case tail_lt => exact h.tail_lt
  case cnt => rw [List.length_take, Nat.min_eq_left hk]
  case cnt_le => exact Nat.le_trans (by omega) h.cnt_le
  case head => rw [h.canonHead, Nat.mod_add_mod, Nat.add_assoc]
  case canonHead => exact h.canonHead
  case typed => rw [List.length_take, Nat.min_eq_left hk]
  case canonData => exact h.canonData
  case flags => exact h.flags

theorem head_ne_canonHead (h : Represents l q) :
    l.readHead ≠ l.canonHead → 0 < q.cur.length ∧ q.cur.length < nTtyBufSize := by
  intro hne
  have hcnt := h.cnt
  have hle := h.cnt_le
  rw [h.head, h.canonHead] at hne
  refine ⟨Nat.pos_of_ne_zero fun hzero => hne (by rw [hcnt, hzero, Nat.add_zero]), ?_⟩
  refine Nat.lt_of_le_of_ne (by omega) fun hfull => hne ?_
  rw [hcnt, hfull, ← Nat.add_assoc, Nat.add_mod_right]

theorem head_eq (h : Represents l q) :
    l.readHead = (l.canonHead + q.cur.length) % nTtyBufSize := by
  rw [h.head, h.canonHead, h.cnt, Nat.mod_add_mod, Nat.add_assoc]

theorem canonHead_lt (h : Represents l q) : l.canonHead < nTtyBufSize := by
  rw [h.canonHead]
  exact Nat.mod_lt _ (by decide)

theorem distance_eq (h : Represents l q) (hroom : q.cur.length < nTtyBufSize) :
    l.distance = q.cur.length := by
  rw [Queue.distance, h.head_eq]
  exact ring_distance h.canonHead_lt hroom

theorem stepBack_eq (l : Queue) (t : Termios) (hlt : l.canonHead < nTtyBufSize) {d : ℕ}
    (hpos : 0 < d) (hd : d < nTtyBufSize) :
    ∃ k < d, l.stepBack t d ((l.canonHead + d) % nTtyBufSize) =
      (l.canonHead + k) % nTtyBufSize := by
  induction d with
  | zero => omega
  | succ d ih =>
    -- one position back, around the end of the ring
    have hback : ((l.canonHead + (d + 1)) % nTtyBufSize + nTtyBufSize - 1) % nTtyBufSize =
        (l.canonHead + d) % nTtyBufSize := by
      rw [nTtyBufSize] at hlt hd ⊢
      omega
    rw [Queue.stepBack, hback]
    split_ifs with hmore
    · -- the loop goes on only before it reaches `canon_head`
      have hd' : 0 < d := by
        refine Nat.pos_of_ne_zero fun hzero => hmore.2 ?_
        rw [hzero, Nat.add_zero, Nat.mod_eq_of_lt hlt]
      obtain ⟨k, hk, heq⟩ := ih hd' (by omega)
      exact ⟨k, by omega, heq⟩
    · -- the start of the character is found
      exact ⟨d, by omega, rfl⟩

theorem kept (h : Represents l q) :
    ∃ k ≤ q.cur.length, Represents l ⟨q.done, q.cur.take k⟩ :=
  ⟨q.cur.length, Nat.le_refl _, by simpa using h⟩

theorem eraseLoop (h : Represents l q) (t : Termios) (kind : KillType) (rounds : ℕ)
    (seenAlnums : Bool) (hroom : q.cur.length < nTtyBufSize) :
    ∃ k ≤ q.cur.length,
      Represents (Queue.eraseLoop t kind rounds seenAlnums l) ⟨q.done, q.cur.take k⟩ := by
  induction rounds generalizing l q seenAlnums with
  | zero => exact h.kept
  | succ rounds ih =>
    rw [Queue.eraseLoop]
    by_cases hempty : l.readHead = l.canonHead
    · -- nothing is left to erase
      rw [if_pos hempty]
      exact h.kept
    rw [if_neg hempty]
    dsimp only
    rw [h.distance_eq hroom, h.head_eq]
    obtain ⟨k, hk, hback⟩ :=
      stepBack_eq l t h.canonHead_lt (h.head_ne_canonHead hempty).1 hroom
    rw [hback]
    have herase := h.erase (Nat.le_of_lt hk) hroom
    split_ifs
    · -- a part of a character
      exact h.kept
    · -- the word has ended
      exact h.kept
    · exact ⟨k, Nat.le_of_lt hk, herase⟩
    · -- the rest is shorter
      have hlength : (q.cur.take k).length = k := by
        rw [List.length_take]
        omega
      obtain ⟨j, hj, hloop⟩ := ih herase _ (by rw [hlength]; omega)
      rw [hlength] at hj
      refine ⟨j, by omega, ?_⟩
      simpa [List.take_take, Nat.min_eq_left hj] using hloop

theorem eraser (h : Represents l q) (t : Termios) (c : UInt8) :
    ∃ k ≤ q.cur.length, Represents (l.eraser t c) ⟨q.done, q.cur.take k⟩ := by
  rw [Queue.eraser]
  by_cases hempty : l.readHead = l.canonHead
  · rw [if_pos hempty]
    exact h.kept
  rw [if_neg hempty]
  have hroom := (h.head_ne_canonHead hempty).2
  split_ifs
  · exact h.eraseLoop t _ _ _ hroom
  · exact h.eraseLoop t _ _ _ hroom
  · -- the whole line is erased
    have herase := h.erase (Nat.zero_le _) hroom
    rw [Nat.add_zero, Nat.mod_eq_of_lt h.canonHead_lt] at herase
    exact ⟨0, Nat.zero_le _, herase⟩
  · exact h.eraseLoop t _ _ _ hroom

end Represents

/-! ## What a received character does -/

/-- Everything that a received character can do to the lines, unless it discards them -/
inductive Takes : Lines → Lines → Prop
  | typed (q : Lines) (xs : List Cell) : Takes q ⟨q.done, q.cur ++ xs⟩
  | erased (q : Lines) (k : ℕ) : Takes q ⟨q.done, q.cur.take k⟩
  /-- An end-of-file character that only pushes finishes a line with something on it. -/
  | ended (q : Lines) (xs : List Cell) (x : Cell) (hline : ∀ y ∈ q.cur ++ xs, y.eol = false)
      (heol : x.eol = true) (hpush : x.isPush = true → q.cur ++ xs ≠ []) :
      Takes q ⟨q.done ++ (q.cur ++ xs ++ [x]), []⟩

namespace Ldisc

def TakesTo (q : Lines) (s : Ldisc) : Prop := ∃ q', Takes q q' ∧ Represents s.queue q'

variable {s : Ldisc} {q : Lines}

theorem TakesTo.same (h : Represents s.queue q) : TakesTo q s :=
  ⟨_, .typed q [], by simpa using h⟩

theorem TakesTo.typed (h : ∃ xs, Represents s.queue ⟨q.done, q.cur ++ xs⟩) : TakesTo q s := by
  obtain ⟨xs, hxs⟩ := h
  exact ⟨_, .typed q xs, hxs⟩

theorem TakesTo.ended {l : Queue} {xs : List Cell} (h : Represents l ⟨q.done, q.cur ++ xs⟩)
    (c : UInt8) (hroom : l.readCnt < nTtyBufSize) (hs : s.queue = l.handleNewline c) :
    TakesTo q s := by
  refine ⟨_, .ended q xs _ (fun _ hy => h.cur_eol hy) rfl ?_, hs ▸ h.handleNewline c hroom⟩
  simp only [Cell.isPush, Bool.true_and, Bool.and_eq_true, Bool.not_eq_true', beq_eq_false_iff_ne,
    List.length_eq_zero_iff.not]
  exact fun hpush => hpush.2

theorem receiveCanon_takes (h : Represents s.queue q) (t : Termios) (c : UInt8) :
    TakesTo q (s.receiveCanon t c) := by
  have hnil : Represents s.queue ⟨q.done, q.cur ++ []⟩ := by simpa using h
  rw [receiveCanon]
  split_ifs with _ _ _ _ hfull _ hfull _ hfull
  · -- a character that erases
    obtain ⟨k, _, herase⟩ := h.eraser t c
    exact ⟨_, .erased q k, herase⟩
  · exact .same h
  · exact .same h
  · exact .same h
  · -- a newline, an end of file, or another character that ends a line
    exact .ended hnil c (Nat.lt_of_not_le hfull) rfl
  · exact .same h
  · exact .ended hnil disabledChar (Nat.lt_of_not_le hfull) rfl
  · exact .same h
  · obtain ⟨xs, hxs⟩ := h.putMark t c
    exact .ended hxs c (s.queue.putMark_readCnt_lt (Nat.lt_of_not_le hfull)) rfl
  · exact .typed (h.putChar t c)

theorem receive_takes (h : Represents s.queue q) (t : Termios) (hext : t.extproc = false)
    (r : Received) (hflush : s.flushes t r = false) : TakesTo q (s.receive t r) := by
  cases r with
  | normal c =>
    rw [receive, nTtyReceiveChar, if_neg (by simp [hext])]
    simp only [flushes, hext, Bool.not_false, Bool.true_and] at hflush
    split_ifs with hshort hflow hsignal hnoflsh hignore
    · -- a character like any other
      exact .typed (h.putChar t _)
    · exact .same h
    · exact .same h
    · -- the input would be discarded
      simp [hshort, hflow, hsignal, hnoflsh] at hflush
    · exact .same h
    · exact receiveCanon_takes h t _
  | «break» =>
    rw [receive, nTtyReceiveBreak]
    simp only [flushes] at hflush
    split_ifs with hignore hint hnoflsh
    · exact .same h
    · exact .same h
    · -- a break that would discard the input
      simp [hignore, hint, hnoflsh] at hflush
    · exact .typed (h.putAll _)
    · exact .typed (h.putAll _)
  | parity c =>
    rw [receive, nTtyReceiveParityError]
    split_ifs
    · exact .same h
    · exact .typed (h.putAll _)
    · exact .typed (h.putTtyQueue _)
    · exact .typed (h.putTtyQueue _)
  | overrun => exact .same h

theorem receive_flushes (s : Ldisc) (t : Termios) (r : Received) (hflush : s.flushes t r = true) :
    Represents (s.receive t r).queue ⟨[], []⟩ := by
  cases r with
  | normal c =>
    simp only [flushes, Bool.and_eq_true, Bool.not_eq_true'] at hflush
    obtain ⟨⟨⟨⟨hext, hshort⟩, hflow⟩, hsignal⟩, hnoflsh⟩ := hflush
    simp only [receive, nTtyReceiveChar, hext, hshort, hflow, hsignal, hnoflsh, Bool.false_eq_true,
      if_false, if_true]
    exact .resetBufferFlags _
  | «break» =>
    simp only [flushes, Bool.and_eq_true, Bool.not_eq_true'] at hflush
    obtain ⟨⟨hignore, hint⟩, hnoflsh⟩ := hflush
    simp only [receive, nTtyReceiveBreak, hignore, hint, hnoflsh, Bool.false_eq_true, if_false,
      if_true]
    exact .resetBufferFlags _
  | parity c => cases hflush
  | overrun => cases hflush

end Ldisc

end NucKernel.Tty.LineDiscipline
