import NucKernel.Library.Runs
import NucKernel.Tty.LineDiscipline

/-!
# End of file in canonical mode (`n_tty_read`)

A read that has consumed nothing but the marker of an end-of-file character would return 0. If
`TTY_PUSH` is set it starts again instead: the bit says that some end-of-file character has pushed a
line that was not empty. There is one bit for all the markers in the queue.

## Modelling

- The reads come one after the other, in the foreground, without packet mode, hangup, signals or
  faults of the user buffer: reads that these end fail, or return what is not an end of file.
- The result of a read of 0 bytes says nothing and is not kept in `returned`.
- An iteration of the copy loop is one step, as `read_lock` is dropped in between. Characters that
  `input_available_p` flushes from the flip buffers are received before it.
-/

namespace NucKernel.Tty.LineDiscipline

open NucKernel.Library

/-! ## The reader -/

/-- Where a reader is, with the room left in its buffer and what it has copied -/
inductive Reader
  | idle
  /-- In front of `input_available_p` -/
  | waiting (nr : ℕ)
  /-- In the copy loop -/
  | copying (nr : ℕ) (out : List UInt8)
  /-- Behind the loop. If the pass has consumed an end-of-file character, `eof` says whether that
      was received at the beginning of a line. -/
  | leaving (nr : ℕ) (out : List UInt8) (eof : Option Bool)

/-- What a read returned, and the end-of-file character that its last pass has consumed -/
structure Return where
  bytes : List UInt8
  eof : Option Bool
  deriving DecidableEq

structure State where
  ldisc : Ldisc
  reader : Reader
  returned : List Return

/-- The state after `n_tty_open` -/
def State.init : State := ⟨⟨Queue.init, false, false⟩, .idle, []⟩

namespace Queue

/-- `input_available_p` -/
def inputAvailable (l : Queue) (t : Termios) : Bool :=
  if t.extproc then 1 ≤ l.readCnt else l.canonData ≠ 0

def pop (l : Queue) : Queue :=
  { l with
    readFlags := Function.update l.readFlags l.readTail false
    readTail := (l.readTail + 1) % nTtyBufSize
    readCnt := l.readCnt - 1
    canonData := if l.readFlags l.readTail then l.canonData - 1 else l.canonData }

/-- `copy_from_read_buf`: the queue, what was copied, and whether a single end-of-file character was
    turned into a read of length zero -/
def copyFromReadBuf (l : Queue) (t : Termios) (nr : ℕ) : Queue × List UInt8 × Option Bool :=
  let n := min nr (min l.readCnt (nTtyBufSize - l.readTail))
  let l' := { l with readTail := (l.readTail + n) % nTtyBufSize, readCnt := l.readCnt - n }
  if n = 1 ∧ l.readBuf l.readTail = t.eofChar ∧ t.extproc ∧ l'.readCnt = 0 then
    (l', [], some (l.first l.readTail))
  else (l', (List.range n).map fun i => l.readBuf (l.readTail + i), none)

end Queue

namespace State

def copyRound (s : State) (nr : ℕ) (out : List UInt8) : State :=
  let l := s.ldisc.queue
  let c := l.readBuf l.readTail
  if nr = 0 ∨ l.readCnt = 0 then { s with reader := .leaving nr out none }
  else
    { s with
      ldisc := { s.ldisc with queue := l.pop }
      reader :=
        if l.readFlags l.readTail then
          if c = disabledChar then .leaving nr out (some (l.first l.readTail))
          else .leaving (nr - 1) (out ++ [c]) none
        else .copying (nr - 1) (out ++ [c]) }

def copyExternal (s : State) (t : Termios) (nr : ℕ) : State :=
  let (l, out, eof) := s.ldisc.queue.copyFromReadBuf t nr
  let (l', out', eof') := l.copyFromReadBuf t (nr - out.length)
  { s with
    ldisc := { s.ldisc with queue := l' }
    reader := .leaving (nr - out.length - out'.length) (out ++ out') (eof' <|> eof) }

/-- The end of `n_tty_read` -/
def leave (s : State) (nr : ℕ) (out : List UInt8) (eof : Option Bool) : State :=
  if out ≠ [] then
    { s with
      ldisc := { s.ldisc with push := if nr ≠ 0 then false else s.ldisc.push }
      reader := .idle
      returned := s.returned ++ [⟨out, eof⟩] }
  else if s.ldisc.push then
    -- `goto do_it_again`
    { s with ldisc := { s.ldisc with push := false }, reader := .waiting nr }
  else { s with reader := .idle, returned := s.returned ++ [⟨[], eof⟩] }

def runReader (t : Termios) (s : State) : Option State :=
  match s.reader with
  | .idle => none
  | .waiting nr =>
    some <|
      if s.ldisc.queue.inputAvailable t then
        if t.extproc then s.copyExternal t nr else { s with reader := .copying nr [] }
      else s
  | .copying nr out => some (s.copyRound nr out)
  | .leaving nr out eof => some (s.leave nr out eof)

end State

inductive Event
  | receive (r : Received)
  /-- `n_tty_read` is called with a buffer of `nr` bytes. -/
  | read (nr : ℕ)
  | run

/-- One step. There is one reader. -/
def step (t : Termios) (s : State) : Event → Option State
  | .receive r => some { s with ldisc := s.ldisc.receive t r }
  | .read nr =>
    match s.reader with
    | .idle =>
      some <|
        if 0 < nr then { s with reader := .waiting nr }
        -- a read of 0 bytes returns 0, but not without `test_and_clear_bit(TTY_PUSH, ..)`
        else { s with ldisc := { s.ldisc with push := false } }
    | _ => none
  | .run => s.runReader t

/-! ## The property -/

/-- A read returns 0 only if it consumed an end-of-file character that was received at the beginning
    of a line: one that pushed a line never makes it return 0. -/
def Truthful (r : Return) : Prop := r.bytes = [] → r.eof = some true

instance (r : Return) : Decidable (Truthful r) := inferInstanceAs (Decidable (_ → _))

def Reader.isCopying : Reader → Bool
  | .copying _ _ => true
  | _ => false

def Reader.atLastByte : Reader → Bool
  | .copying 1 _ => true
  | _ => false

/-- The marker of a pushed line does not follow the last byte that a read has room for, which is at
    least one, and no signal discards the line that is being copied. -/
def Undisturbed (t : Termios) (s : State) (e : Event) (_ : State) : Prop :=
  match e with
  | .receive r => s.reader.isCopying = true → s.ldisc.flushes t r = false
  | .read nr => 0 < nr
  | .run => s.reader.atLastByte = true →
    (s.ldisc.queue.cell ((s.ldisc.queue.readTail + 1) % nTtyBufSize)).isPush = false

instance (t : Termios) (s : State) : (e : Event) → (s' : State) → Decidable (Undisturbed t s e s')
  | .receive _, _ => inferInstanceAs (Decidable (_ → _))
  | .read _, _ => inferInstanceAs (Decidable (_ < _))
  | .run, _ => inferInstanceAs (Decidable (_ → _))

/-! ## Taking a character out of the queue -/

namespace Represents

variable {l : Queue} {q : Lines}

theorem cell_tail (h : Represents l q) {x : Cell} {rest : List Cell} (hdone : q.done = x :: rest) :
    l.cell l.readTail = x := by
  have hcells := h.cells
  rw [h.cnt, hdone, List.length_cons, Nat.add_right_comm, ringList_pop _ _ h.tail_lt] at hcells
  exact (List.cons.inj hcells).1

theorem cell_next (h : Represents l q) {x y : Cell} {rest : List Cell}
    (hdone : q.done = x :: y :: rest) : l.cell ((l.readTail + 1) % nTtyBufSize) = y := by
  have hcells := h.cells
  rw [h.cnt, hdone, List.length_cons, Nat.add_right_comm, ringList_pop _ _ h.tail_lt,
    List.length_cons, Nat.add_right_comm, ringList_pop _ _ (Nat.mod_lt _ (by decide))] at hcells
  exact (List.cons.inj (List.cons.inj hcells).2).1

theorem cell_pop (l : Queue) {pos : ℕ} (hpos : pos ≠ l.readTail) : l.pop.cell pos = l.cell pos := by
  simp [Queue.pop, Queue.cell, hpos]

theorem pop (h : Represents l q) {x : Cell} {rest : List Cell} (hdone : q.done = x :: rest) :
    Represents l.pop ⟨rest, q.cur⟩ := by
  -- there is a character to be taken
  have hcnt : l.readCnt = rest.length + q.cur.length + 1 := by
    rw [h.cnt, hdone, List.length_cons]
    omega
  have hle := h.cnt_le
  constructor
  case tail_lt => exact Nat.mod_lt _ (by decide)
  case cnt => exact Nat.sub_eq_of_eq_add hcnt
  case cnt_le => exact Nat.le_trans (Nat.sub_le _ _) hle
  case head =>
    show l.readHead = ((l.readTail + 1) % nTtyBufSize + (l.readCnt - 1)) % nTtyBufSize
    rw [h.head, ring_pos_tail_succ, Nat.sub_add_cancel (by omega)]
  case canonHead =>
    show l.canonHead = ((l.readTail + 1) % nTtyBufSize + rest.length) % nTtyBufSize
    rw [h.canonHead, ring_pos_tail_succ, hdone, List.length_cons]
  case cells =>
    have hcells := h.cells
    -- the first cell is taken from the list
    rw [hcnt, ringList_pop _ _ h.tail_lt, hdone, List.cons_append] at hcells
    rw [← (List.cons.inj hcells).2]
    show ringList l.pop.cell nTtyBufSize ((l.readTail + 1) % nTtyBufSize) (l.readCnt - 1) = _
    rw [hcnt, Nat.add_sub_cancel]
    apply ringList_congr
    intro i hi
    rw [ring_pos_tail_succ]
    exact cell_pop l (ring_pos_ne_tail h.tail_lt (by omega))
  case typed => exact h.typed
  case canonData =>
    -- the flag of the cell tells whether a line was counted
    have heol : l.readFlags l.readTail = x.eol := congrArg Cell.eol (h.cell_tail hdone)
    show (if l.readFlags l.readTail then l.canonData - 1 else l.canonData) = rest.countP Cell.eol
    rw [heol, h.canonData, hdone, List.countP_cons]
    cases x.eol <;> simp
  case flags =>
    intro pos hflag
    -- the flag of the cell is cleared
    have hpos : pos ≠ l.readTail := by
      rintro rfl
      simp [Queue.pop] at hflag
    have hold : l.readFlags pos = true := by simpa [Queue.pop, hpos] using hflag
    obtain ⟨i, hi, heq⟩ := h.flags pos hold
    cases i with
    -- this is the cell that was taken
    | zero => exact absurd (heq.trans (Nat.mod_eq_of_lt h.tail_lt)) hpos
    | succ i =>
      rw [hdone, List.length_cons] at hi
      exact ⟨i, Nat.lt_of_succ_lt_succ hi, heq.trans (ring_pos_tail_succ ..).symm⟩

end Represents

/-! ## The lines that a reader can meet -/

/-- In finished lines, the marker of a pushed line follows a character of its line. `inside` says
    that the reader has taken such a character in this pass. -/
def PushesFollow : Bool → List Cell → Prop
  | _, [] => True
  | inside, x :: rest => (x.isPush = true → inside = true) ∧ PushesFollow (!x.eol) rest

/-- The last finished character finishes a line. -/
def Closed (done : List Cell) : Prop := ∀ x ∈ done.getLast?, x.eol = true

theorem PushesFollow.append {inside : Bool} {done line : List Cell}
    (h : PushesFollow inside done) (hline : ∀ b, PushesFollow b line) :
    PushesFollow inside (done ++ line) := by
  induction done generalizing inside with
  | nil => exact hline inside
  | cons x rest ih => exact ⟨h.1, ih h.2⟩

theorem PushesFollow.line {cur : List Cell} {x : Cell} (hcur : ∀ y ∈ cur, y.eol = false)
    (hpush : x.isPush = true → cur ≠ []) (inside : Bool) : PushesFollow inside (cur ++ [x]) := by
  induction cur generalizing inside with
  -- a marker alone does not push
  | nil => exact ⟨fun hx => absurd rfl (hpush hx), trivial⟩
  | cons y rest ih =>
    have hy := hcur y List.mem_cons_self
    refine ⟨by simp [Cell.isPush, hy], ?_⟩
    cases rest with
    -- the marker follows a character
    | nil => exact ⟨fun _ => by simp [hy], trivial⟩
    | cons z rest =>
      exact ih (fun w hw => hcur w (List.mem_cons_of_mem _ hw)) (fun _ => List.cons_ne_nil _ _) _

theorem PushesFollow.weaken {done : List Cell} (h : PushesFollow false done) (inside : Bool) :
    PushesFollow inside done := by
  cases done with
  | nil => trivial
  | cons x rest => exact ⟨fun hx => absurd (h.1 hx) (by simp), h.2⟩

theorem PushesFollow.strengthen {inside : Bool} {done : List Cell} (h : PushesFollow inside done)
    (hnext : ∀ x ∈ done.head?, x.isPush = false) : PushesFollow false done := by
  cases done with
  | nil => trivial
  | cons x rest => exact ⟨fun hx => by simp [hnext x rfl] at hx, h.2⟩

theorem Closed.tail {x : Cell} {rest : List Cell} (h : Closed (x :: rest)) : Closed rest := by
  intro y hy
  cases rest with
  | nil => cases hy
  | cons z rest => exact h y (by rwa [List.getLast?_cons_cons])

/-! ## The invariant -/

def Reader.isInside : Reader → Bool
  | .copying nr out => nr != 0 && !out.isEmpty
  | _ => false

def Reader.Ready : Reader → Prop
  | .idle => True
  | .waiting nr => 0 < nr
  | .copying nr out => 0 < nr ∨ out ≠ []
  | .leaving nr out eof => out = [] → 0 < nr ∧ eof = some true

structure Sound (s : State) (q : Lines) : Prop where
  queue : Represents s.ldisc.queue q
  closed : Closed q.done
  pushes : PushesFollow s.reader.isInside q.done
  line : s.reader.isCopying = true → q.done ≠ []
  ready : s.reader.Ready
  returned : ∀ r ∈ s.returned, Truthful r

theorem Sound.init : Sound State.init ⟨[], []⟩ where
  queue := .init
  closed := by simp [Closed]
  pushes := trivial
  line := by simp [State.init, Reader.isCopying]
  ready := trivial
  returned := by simp [State.init]

namespace Sound

variable {s : State} {q : Lines} {t : Termios}

theorem receive (h : Sound s q) (hext : t.extproc = false) (r : Received)
    (hkeep : s.reader.isCopying = true → s.ldisc.flushes t r = false) :
    ∃ q', Sound { s with ldisc := s.ldisc.receive t r } q' := by
  by_cases hflush : s.ldisc.flushes t r = true
  · -- the input is discarded, which does not happen during a copy
    refine ⟨⟨[], []⟩, s.ldisc.receive_flushes t r hflush, by simp [Closed], trivial, ?_, h.ready,
      h.returned⟩
    intro hcopy
    rw [hkeep hcopy] at hflush
    cases hflush
  · rw [Bool.not_eq_true] at hflush
    obtain ⟨q', htakes, hqueue⟩ := Ldisc.receive_takes h.queue t hext r hflush
    cases htakes with
    | typed xs => exact ⟨_, hqueue, h.closed, h.pushes, h.line, h.ready, h.returned⟩
    | erased k => exact ⟨_, hqueue, h.closed, h.pushes, h.line, h.ready, h.returned⟩
    | ended xs x hline heol hpush =>
      refine ⟨_, hqueue, ?_, h.pushes.append (.line hline hpush), ?_, h.ready, h.returned⟩
      · -- the line ends with its flag
        intro y hy
        rw [← List.append_assoc, List.getLast?_concat] at hy
        cases hy
        exact heol
      · intro _
        simp

theorem begin (h : Sound s q) {nr : ℕ} (hreader : s.reader = .waiting nr)
    (hdata : s.ldisc.queue.canonData ≠ 0) : Sound { s with reader := .copying nr [] } q where
  queue := h.queue
  closed := h.closed
  pushes := by
    have hpushes := h.pushes
    rw [hreader] at hpushes
    exact hpushes.weaken _
  line := by
    rintro _ hnil
    exact hdata (by rw [h.queue.canonData, hnil, List.countP_nil])
  ready := by
    have hready := h.ready
    rw [hreader] at hready
    exact .inl hready
  returned := h.returned

section CopyRound

variable {nr : ℕ} {out : List UInt8} {x : Cell} {rest : List Cell}

theorem copyRound_eq (h : Represents s.ldisc.queue q) (hdone : q.done = x :: rest) (hnr : nr ≠ 0) :
    s.copyRound nr out = { s with
      ldisc := { s.ldisc with queue := s.ldisc.queue.pop }
      reader :=
        if x.eol then
          if x.char = disabledChar then .leaving nr out (some x.first)
          else .leaving (nr - 1) (out ++ [x.char]) none
        else .copying (nr - 1) (out ++ [x.char]) } := by
  have hcell := h.cell_tail hdone
  have heol : s.ldisc.queue.readFlags s.ldisc.queue.readTail = x.eol := congrArg Cell.eol hcell
  have hchar : s.ldisc.queue.readBuf s.ldisc.queue.readTail = x.char := congrArg Cell.char hcell
  have hfirst : s.ldisc.queue.first s.ldisc.queue.readTail = x.first := congrArg Cell.first hcell
  -- the queue is not empty
  have hcnt : s.ldisc.queue.readCnt ≠ 0 := by
    rw [h.cnt, hdone]
    simp
  rw [State.copyRound, if_neg (by simp [hnr, hcnt]), heol, hchar, hfirst]

theorem copyRound_full (h : Sound s q) (hreader : s.reader = .copying 0 out) :
    Sound (s.copyRound 0 out) q := by
  have hpushes := h.pushes
  have hready := h.ready
  rw [hreader] at hpushes hready
  rw [State.copyRound, if_pos (.inl rfl)]
  refine ⟨h.queue, h.closed, hpushes, by simp [Reader.isCopying], ?_, h.returned⟩
  intro hnil
  simp [Reader.Ready, hnil] at hready

theorem copyRound_eol (h : Sound s q) (hreader : s.reader = .copying nr out)
    (hdone : q.done = x :: rest) (hnr : nr ≠ 0) (hx : x.eol = true) :
    Sound (s.copyRound nr out) ⟨rest, q.cur⟩ := by
  have hpushes := h.pushes
  have hclosed := h.closed
  rw [hreader, hdone, PushesFollow, hx] at hpushes
  rw [hdone] at hclosed
  rw [copyRound_eq h.queue hdone hnr, if_pos hx]
  -- the line is at its end, and the read leaves
  refine ⟨h.queue.pop hdone, hclosed.tail, ?_, ?_, ?_, h.returned⟩
  · split_ifs <;> exact hpushes.2
  · split_ifs <;> simp [Reader.isCopying]
  · split_ifs with hmark
    · -- a marker that is all the pass has taken does not push a line
      intro hnil
      refine ⟨Nat.pos_of_ne_zero hnr, ?_⟩
      have hpush := hpushes.1
      simpa [Cell.isPush, hx, hmark, hnil, Reader.isInside] using hpush
    · intro hnil
      simp at hnil

theorem copyRound_inside (h : Sound s q) (hreader : s.reader = .copying nr out)
    (hdone : q.done = x :: rest) (hnr : nr ≠ 0) (hx : x.eol = false)
    (hlast : nr = 1 →
      (s.ldisc.queue.cell ((s.ldisc.queue.readTail + 1) % nTtyBufSize)).isPush = false) :
    Sound (s.copyRound nr out) ⟨rest, q.cur⟩ := by
  have hpushes := h.pushes
  have hclosed := h.closed
  rw [hreader, hdone, PushesFollow, hx] at hpushes
  rw [hdone] at hclosed
  -- the line goes on
  have hrest : rest ≠ [] := by
    rintro rfl
    simp [Closed, hx] at hclosed
  rw [copyRound_eq h.queue hdone hnr, if_neg (by simp [hx])]
  refine ⟨h.queue.pop hdone, hclosed.tail, ?_, fun _ => hrest, .inr (by simp), h.returned⟩
  by_cases hone : nr = 1
  · -- the buffer is full now, so that a marker must not come next
    refine (hpushes.2.strengthen ?_).weaken _
    intro y hy
    obtain ⟨z, rest, rfl⟩ := List.exists_cons_of_ne_nil hrest
    cases hy
    rw [← h.queue.cell_next hdone]
    exact hlast hone
  · -- there is room for the next character
    have hinside : (Reader.copying (nr - 1) (out ++ [x.char])).isInside = true := by
      simp [Reader.isInside]
      omega
    rw [hinside]
    exact hpushes.2

theorem copyRound (h : Sound s q) (hreader : s.reader = .copying nr out)
    (hlast : nr = 1 →
      (s.ldisc.queue.cell ((s.ldisc.queue.readTail + 1) % nTtyBufSize)).isPush = false) :
    ∃ q', Sound (s.copyRound nr out) q' := by
  obtain ⟨x, rest, hdone⟩ := List.exists_cons_of_ne_nil (h.line (by rw [hreader]; rfl))
  by_cases hnr : nr = 0
  · subst hnr
    exact ⟨q, h.copyRound_full hreader⟩
  · cases hx : x.eol with
    | true => exact ⟨_, h.copyRound_eol hreader hdone hnr hx⟩
    | false => exact ⟨_, h.copyRound_inside hreader hdone hnr hx hlast⟩

end CopyRound

theorem leave (h : Sound s q) {nr : ℕ} {out : List UInt8} {eof : Option Bool}
    (hreader : s.reader = .leaving nr out eof) : Sound (s.leave nr out eof) q := by
  have hpushes := h.pushes
  have hready := h.ready
  rw [hreader] at hpushes hready
  -- what is returned fits what was taken
  have hreturn {bytes : List UInt8} (htrue : bytes = [] → eof = some true) :
      ∀ r ∈ s.returned ++ [⟨bytes, eof⟩], Truthful r := by
    intro r hr
    rw [List.mem_append, List.mem_singleton] at hr
    obtain hr | rfl := hr
    · exact h.returned r hr
    · exact htrue
  rw [State.leave]
  by_cases hout : out ≠ []
  · -- bytes were copied
    rw [if_pos hout]
    exact ⟨h.queue, h.closed, hpushes, by simp [Reader.isCopying], trivial,
      hreturn fun hnil => absurd hnil hout⟩
  rw [if_neg hout]
  split_ifs
  · -- the read starts again
    exact ⟨h.queue, h.closed, hpushes, by simp [Reader.isCopying],
      (hready (by simpa using hout)).1, h.returned⟩
  · -- an end of file was taken
    exact ⟨h.queue, h.closed, hpushes, by simp [Reader.isCopying], trivial,
      hreturn fun _ => (hready (by simpa using hout)).2⟩

theorem step {s' : State} {e : Event} (h : ∃ q, Sound s q) (hext : t.extproc = false)
    (hkeep : Undisturbed t s e s') (hstep : LineDiscipline.step t s e = some s') :
    ∃ q, Sound s' q := by
  obtain ⟨q, h⟩ := h
  cases e with
  | receive r =>
    obtain rfl := Option.some.inj hstep
    exact h.receive hext r hkeep
  | read nr =>
    rw [LineDiscipline.step] at hstep
    cases hreader : s.reader with
    | idle =>
      rw [hreader] at hstep
      obtain rfl := Option.some.inj hstep
      -- the read has room for a byte
      have hnr : 0 < nr := hkeep
      have hpushes := h.pushes
      rw [hreader] at hpushes
      rw [if_pos hnr]
      exact ⟨q, h.queue, h.closed, hpushes, by simp [Reader.isCopying], hnr, h.returned⟩
    | waiting nr => simp [hreader] at hstep
    | copying nr out => simp [hreader] at hstep
    | leaving nr out eof => simp [hreader] at hstep
  | run =>
    rw [LineDiscipline.step, State.runReader] at hstep
    cases hreader : s.reader with
    | idle => simp [hreader] at hstep
    | waiting nr =>
      rw [hreader] at hstep
      obtain rfl := Option.some.inj hstep
      simp only [hext, Bool.false_eq_true, if_false]
      split_ifs with hdata
      · exact ⟨q, h.begin hreader (by simpa [Queue.inputAvailable, hext] using hdata)⟩
      · exact ⟨q, h⟩
    | copying nr out =>
      rw [hreader] at hstep
      obtain rfl := Option.some.inj hstep
      refine h.copyRound hreader ?_
      -- the marker of a pushed line does not come next
      rintro rfl
      exact hkeep (by rw [hreader]; rfl)
    | leaving nr out eof =>
      rw [hreader] at hstep
      obtain rfl := Option.some.inj hstep
      exact ⟨q, h.leave hreader⟩

end Sound

/-! ## End of file -/

/-- As long as no read stops right before the marker of a pushed line, and no signal discards the
    line that a read is copying, a read returns 0 only if it consumed an end-of-file character that
    was received at the beginning of a line. -/
theorem truthful_of_undisturbed (t : Termios) (hext : t.extproc = false) (events : List Event)
    (s : State) (hkeep : Along (step t) (Undisturbed t) State.init events)
    (hrun : runFrom (step t) State.init events = some s) : ∀ r ∈ s.returned, Truthful r := by
  have hinv : ∀ s e s', (∃ q, Sound s q) → step t s e = some s' → Undisturbed t s e s' →
      ∃ q, Sound s' q :=
    fun _ _ _ hs hstep hkeep => Sound.step hs hext hkeep hstep
  obtain ⟨q, hq⟩ := inv_of_along hinv ⟨_, Sound.init⟩ hkeep hrun
  exact hq.returned

def cooked : Termios where
  istrip := false
  iuclc := false
  igncr := false
  icrnl := true
  inlcr := false
  ixon := true
  ignbrk := false
  brkint := false
  ignpar := false
  parmrk := false
  inpck := false
  iutf8 := false
  isig := true
  iexten := true
  extproc := false
  noflsh := false
  echo := true
  echoe := true
  echok := true
  echoke := true
  intrChar := 0x03
  quitChar := 0x1c
  suspChar := 0x1a
  startChar := 0x11
  stopChar := 0x13
  eraseChar := 0x7f
  weraseChar := 0x17
  killChar := 0x15
  lnextChar := 0x16
  reprintChar := 0x12
  eofChar := 0x04
  eolChar := 0
  eol2Char := 0
  tolower := fun c => if 0x41 ≤ c ∧ c ≤ 0x5a then c + 0x20 else c
  isalnum := fun c =>
    (0x30 ≤ c ∧ c ≤ 0x39) ∨ (0x41 ≤ c ∧ c ≤ 0x5a) ∨ (0x61 ≤ c ∧ c ≤ 0x7a)

def typing (cs : List UInt8) : List Event := cs.map fun c => .receive (.normal c)

def reading (nr steps : ℕ) : List Event := .read nr :: List.replicate steps .run

def results (t : Termios) (events : List Event) : Option (List Return) :=
  (runFrom (step t) State.init events).map State.returned

/-- `"abx"`, an erase, an end of file that pushes `"ab"`, and one at the beginning of a line -/
theorem truthful_of_undisturbed_typing :
    let events := typing [0x61, 0x62, 0x78, 0x7f, 0x04] ++ reading 10 5 ++ typing [0x04] ++
      reading 10 3
    results cooked events = some [⟨[0x61, 0x62], some false⟩, ⟨[], some true⟩] ∧
      ∀ s, runFrom (step cooked) State.init events = some s → ∀ r ∈ s.returned, Truthful r :=
  ⟨by decide +kernel, fun s hrun =>
    truthful_of_undisturbed cooked rfl _ s (by decide +kernel) hrun⟩

/-- Two pushed lines `"ab"` and `"cd"` that are read with a buffer of two bytes: the third read
    returns 0. So does the read behind a pushed line whose bit was cleared by a read of an earlier
    line, the read behind a pushed line with `EXTPROC`, and a read whose line is discarded. -/
theorem pushed_line_reads_zero :
    results cooked (typing [0x61, 0x62, 0x04, 0x63, 0x64, 0x04] ++ reading 2 5 ++ reading 2 8 ++
      reading 2 3) = some [⟨[0x61, 0x62], none⟩, ⟨[0x63, 0x64], none⟩, ⟨[], some false⟩] ∧
    results cooked (typing [0x61, 0x0a, 0x63, 0x64, 0x04] ++ reading 9 4 ++ reading 2 5 ++
      reading 2 3) = some [⟨[0x61, 0x0a], none⟩, ⟨[0x63, 0x64], none⟩, ⟨[], some false⟩] ∧
    results { cooked with extproc := true } (typing [0x61, 0x62, 0x04] ++ reading 2 2 ++
      reading 2 2) = some [⟨[0x61, 0x62], none⟩, ⟨[], some false⟩] ∧
    results cooked (typing [0x61, 0x0a] ++ reading 9 1 ++ typing [0x03] ++ [.run, .run]) =
      some [⟨[], none⟩] ∧
    ¬Truthful ⟨[], some false⟩ ∧ ¬Truthful ⟨[], none⟩ := by
  decide +kernel

end NucKernel.Tty.LineDiscipline
