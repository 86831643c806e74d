import NucKernel.Tty.EndOfFile

/-!
# Lines through the canonical queue (`n_tty.c`)

The runs of `EndOfFile` with a log of the lines that were finished. The counters and the flags of
the ring always agree, erasing stays inside the line being typed, and the reads take the finished
lines in order.

A read that has taken nothing but the marker of an end-of-file character starts again if `TTY_PUSH`
is set, and then takes a second line.

## Modelling

- A line is what the queue holds behind the lines finished before, when `canon_data` is incremented.
- A read is what it takes from the queue, the markers included; they are not copied to the user.
-/

namespace NucKernel.Tty.LineDiscipline

open NucKernel.Library

/-! ## Runs with a log -/

namespace Queue

def contents (l : Queue) : List Cell := ringList l.cell nTtyBufSize l.readTail l.readCnt

def finished (l : Queue) : List Cell := l.contents.take (l.readCnt - l.typed)

end Queue

/-- The line that was finished between two states of the queue, if any -/
def completedLine (l l' : Queue) : List (List Cell) :=
  if l'.canonData = l.canonData + 1 then [l'.contents.drop l.finished.length] else []

/-- A read that starts again, by `goto do_it_again` -/
def restarts (s : State) : Event → Bool
  | .run =>
    match s.reader with
    | .leaving _ out _ => out.isEmpty && s.ldisc.push
    | _ => false
  | _ => false

/-- A state with the lines that were finished so far, and whether a read has started again -/
structure Logged where
  state : State
  completed : List (List Cell)
  restarted : Bool

def Logged.init : Logged := ⟨State.init, [], false⟩

def Logged.queue (g : Logged) : Queue := g.state.ldisc.queue

def logStep (t : Termios) (g : Logged) (e : Event) : Option Logged :=
  (step t g.state e).map fun s =>
    ⟨s, g.completed ++ completedLine g.queue s.ldisc.queue, g.restarted || restarts g.state e⟩

/-- The input is not discarded by a signal. -/
def Kept (t : Termios) (g : Logged) (e : Event) (_ : Logged) : Prop :=
  match e with
  | .receive r => g.state.ldisc.flushes t r = false
  | _ => True

instance (t : Termios) (g : Logged) : (e : Event) → (g' : Logged) → Decidable (Kept t g e g')
  | .receive _, _ => inferInstanceAs (Decidable (_ = _))
  | .read _, _ => inferInstanceAs (Decidable True)
  | .run, _ => inferInstanceAs (Decidable True)

/-! ## The properties -/

/-- The counters and the flags of the ring -/
structure Counters (t : Termios) (l : Queue) : Prop where
  /-- The distance from `read_tail` to `read_head`, or the size of a full ring -/
  cnt : l.readCnt = (l.readHead + nTtyBufSize - l.readTail) % nTtyBufSize ∨
    l.readCnt = nTtyBufSize ∧ l.readHead = l.readTail
  canonData : l.canonData = (List.range nTtyBufSize).countP l.readFlags
  canonHead : l.canonHead = (l.readTail + l.finished.length) % nTtyBufSize
  flags : ∀ pos, l.readFlags pos = true →
    ∃ i < l.finished.length, pos = (l.readTail + i) % nTtyBufSize
  eraser : ∀ c, (l.eraser t c).finished = l.finished

def data (cells : List Cell) : List UInt8 :=
  (cells.filter fun x => !(x.eol && x.char == disabledChar)).map Cell.char

/-- A line has one flag, at its end. -/
def IsLine (line : List Cell) : Prop :=
  ∃ xs x, line = xs ++ [x] ∧ (∀ y ∈ xs, y.eol = false) ∧ x.eol = true

/-- Nothing behind the end of a line -/
def OneLine (cells : List Cell) : Prop := ∀ x ∈ cells.dropLast, x.eol = false

def Reader.out : Reader → List UInt8
  | .idle => []
  | .waiting _ => []
  | .copying _ out => out
  | .leaving _ out _ => out

/-- The finished lines are, in this order, what the reads have taken, what the current one has
    taken, and what is finished in the queue. -/
structure DeliveredBy (g : Logged) (taken : List (List Cell)) (now : List Cell) : Prop where
  lines : ∀ line ∈ g.completed, IsLine line
  order : g.completed.flatten = taken.flatten ++ now ++ g.queue.finished
  bytes : taken.map data = g.state.returned.map Return.bytes
  out : data now = g.state.reader.out

/-- The reads take the finished lines in order, each read at most one. -/
def OneLinePerRead (g : Logged) : Prop :=
  ∃ taken now, DeliveredBy g taken now ∧ ∀ cells ∈ taken, OneLine cells

/-! ## The counters -/

namespace Represents

variable {l : Queue} {q : Lines}

theorem finished_eq (h : Represents l q) : l.finished = q.done := by
  have hlength : l.readCnt - l.typed = q.done.length := by
    rw [h.cnt, h.typed, Nat.add_sub_cancel]
  rw [Queue.finished, Queue.contents, h.cells, hlength, List.take_left]

theorem countP_flags (h : Represents l q) :
    (List.range nTtyBufSize).countP l.readFlags = q.done.countP Cell.eol := by
  have hle : q.done.length ≤ nTtyBufSize := by
    have hcnt := h.cnt
    have hcnt_le := h.cnt_le
    omega
  have hcount : (List.range nTtyBufSize).countP l.readFlags =
      (ringList l.cell nTtyBufSize l.readTail nTtyBufSize).countP Cell.eol := by
    rw [(ringList_perm l.cell nTtyBufSize l.readTail).countP_eq, List.countP_map]
    rfl
  -- the finished characters come first
  have htake : (ringList l.cell nTtyBufSize l.readTail nTtyBufSize).take q.done.length =
      q.done := by
    rw [ringList_take _ hle, ← ringList_take l.cell (n := l.readCnt) (by rw [h.cnt]; omega),
      h.cells, List.take_left]
  have hdrop : ((ringList l.cell nTtyBufSize l.readTail nTtyBufSize).drop
      q.done.length).countP Cell.eol = 0 := by
    rw [List.countP_eq_zero]
    -- behind them no flag is set
    intro x hx
    obtain ⟨i, hi, rfl⟩ := List.getElem_of_mem hx
    rw [List.length_drop, ringList_length] at hi
    have hflag := h.flag_eq_false (i := q.done.length + i) (by omega) (by omega)
    simpa [ringList, Queue.cell] using hflag
  rw [hcount, ← List.take_append_drop q.done.length (ringList _ _ _ _), List.countP_append, htake,
    hdrop, Nat.add_zero]

theorem counters (h : Represents l q) (t : Termios) : Counters t l where
  cnt := by
    by_cases hfull : l.readCnt < nTtyBufSize
    · -- the ring is not full
      left
      rw [h.head]
      exact (ring_distance h.tail_lt hfull).symm
    · have heq : l.readCnt = nTtyBufSize := Nat.le_antisymm h.cnt_le (Nat.le_of_not_lt hfull)
      right
      refine ⟨heq, ?_⟩
      rw [h.head, heq, Nat.add_mod_right, Nat.mod_eq_of_lt h.tail_lt]
  canonData := by rw [h.countP_flags, h.canonData]
  canonHead := by rw [h.finished_eq, h.canonHead]
  flags := by
    rw [h.finished_eq]
    exact h.flags
  eraser := by
    intro c
    obtain ⟨k, _, herase⟩ := h.eraser t c
    rw [herase.finished_eq, h.finished_eq]

end Represents

/-! ## The invariant -/

theorem data_append (xs ys : List Cell) : data (xs ++ ys) = data xs ++ data ys := by
  simp [data]

def Reader.Within : Reader → List Cell → Prop
  | .idle, now => now = []
  | .waiting _, now => now = []
  | .copying _ _, now => ∀ x ∈ now, x.eol = false
  | .leaving _ _ _, now => OneLine now

structure Logs (g : Logged) (q : Lines) (taken : List (List Cell)) (now : List Cell) : Prop where
  queue : Represents g.queue q
  closed : Closed q.done
  line : g.state.reader.isCopying = true → q.done ≠ []
  delivered : DeliveredBy g taken now
  oneLine : g.restarted = false →
    (∀ cells ∈ taken, OneLine cells) ∧ g.state.reader.Within now

theorem Logs.init : Logs Logged.init ⟨[], []⟩ [] [] where
  queue := .init
  closed := by simp [Closed]
  line := by simp [Logged.init, State.init, Reader.isCopying]
  delivered := ⟨by simp [Logged.init], rfl, rfl, rfl⟩
  oneLine := by
    intro _
    exact ⟨by simp, rfl⟩

theorem completedLine_eq_nil {l l' : Queue} (h : l'.canonData ≤ l.canonData) :
    completedLine l l' = [] := by
  rw [completedLine, if_neg (by omega)]

theorem completedLine_eq {l l' : Queue} {q : Lines} {line : List Cell} (h : Represents l q)
    (h' : Represents l' ⟨q.done ++ line, []⟩) (hline : line.countP Cell.eol = 1) :
    completedLine l l' = [line] := by
  have hdata : l'.canonData = l.canonData + 1 := by
    rw [h'.canonData, h.canonData, List.countP_append, hline]
  rw [completedLine, if_pos hdata, Queue.contents, h'.cells, h.finished_eq, List.append_nil,
    List.drop_left]

namespace Logs

variable {g : Logged} {q : Lines} {taken : List (List Cell)} {now : List Cell} {t : Termios}

theorem order_done (h : Logs g q taken now) :
    g.completed.flatten = taken.flatten ++ now ++ q.done := by
  rw [h.delivered.order, h.queue.finished_eq]

theorem receive (h : Logs g q taken now) (hext : t.extproc = false) {r : Received}
    (hkeep : g.state.ldisc.flushes t r = false) :
    ∃ q', Logs ⟨{ g.state with ldisc := g.state.ldisc.receive t r },
      g.completed ++ completedLine g.queue (g.state.ldisc.receive t r).queue, g.restarted⟩
      q' taken now := by
  obtain ⟨q', htakes, hqueue⟩ := Ldisc.receive_takes h.queue t hext r hkeep
  -- the finished lines stay when only the line being typed changes
  have hsame (cur : List Cell) (hqueue : Represents (g.state.ldisc.receive t r).queue
      ⟨q.done, cur⟩) : Logs ⟨{ g.state with ldisc := g.state.ldisc.receive t r },
      g.completed ++ completedLine g.queue (g.state.ldisc.receive t r).queue, g.restarted⟩
      ⟨q.done, cur⟩ taken now := by
    have hnil : completedLine g.queue (g.state.ldisc.receive t r).queue = [] :=
      completedLine_eq_nil (by rw [hqueue.canonData, h.queue.canonData])
    rw [hnil, List.append_nil]
    refine ⟨hqueue, h.closed, h.line, ⟨h.delivered.lines, ?_, h.delivered.bytes, h.delivered.out⟩,
      h.oneLine⟩
    rw [Logged.queue, hqueue.finished_eq, h.order_done]
  cases htakes with
  | typed xs => exact ⟨_, hsame _ hqueue⟩
  | erased k => exact ⟨_, hsame _ hqueue⟩
  | ended xs x hline heol hpush =>
    -- the character that ends the line is the only one with a flag
    have hcount : (q.cur ++ xs ++ [x]).countP Cell.eol = 1 := by
      have hzero : (q.cur ++ xs).countP Cell.eol = 0 := by
        rw [List.countP_eq_zero]
        intro y hy
        simp [hline y hy]
      rw [List.countP_append, hzero]
      simp [heol]
    rw [completedLine_eq h.queue hqueue hcount]
    refine ⟨_, hqueue, ?_, ?_, ⟨?_, ?_, h.delivered.bytes, h.delivered.out⟩, h.oneLine⟩
    · -- the last finished character has a flag
      intro y hy
      rw [← List.append_assoc, List.getLast?_concat] at hy
      cases hy
      exact heol
    · intro _
      simp
    · intro line hmem
      rw [List.mem_append, List.mem_singleton] at hmem
      obtain hmem | rfl := hmem
      · exact h.delivered.lines line hmem
      · -- the line that ends here
        exact ⟨q.cur ++ xs, x, rfl, hline, heol⟩
    · rw [Logged.queue, hqueue.finished_eq, List.flatten_append, h.order_done]
      simp

theorem move (h : Logs g q taken now) {s : State} (hqueue : s.ldisc.queue = g.queue)
    (hline : s.reader.isCopying = true → q.done ≠ []) (hreturned : s.returned = g.state.returned)
    (hout : s.reader.out = g.state.reader.out) {restarted : Bool}
    (hwithin : restarted = false → g.restarted = false ∧ s.reader.Within now) :
    Logs ⟨s, g.completed ++ completedLine g.queue s.ldisc.queue, restarted⟩ q taken now := by
  -- the queue is as before
  have hrep : Represents s.ldisc.queue q := by
    rw [hqueue]
    exact h.queue
  rw [hqueue, completedLine_eq_nil (Nat.le_refl _), List.append_nil]
  refine ⟨hrep, h.closed, hline, ⟨h.delivered.lines, ?_, ?_, ?_⟩, fun hnot => ?_⟩
  · rw [Logged.queue, hqueue]
    exact h.delivered.order
  · rw [hreturned]
    exact h.delivered.bytes
  · rw [hout]
    exact h.delivered.out
  · exact ⟨(h.oneLine (hwithin hnot).1).1, (hwithin hnot).2⟩

theorem ret (h : Logs g q taken now) {s : State} {out : List UInt8} {eof : Option Bool}
    (hqueue : s.ldisc.queue = g.queue) (hreader : s.reader = .idle)
    (hreturned : s.returned = g.state.returned ++ [⟨out, eof⟩]) (hout : g.state.reader.out = out)
    (hwithin : g.restarted = false → OneLine now) {restarted : Bool}
    (hnot : restarted = false → g.restarted = false) :
    Logs ⟨s, g.completed ++ completedLine g.queue s.ldisc.queue, restarted⟩ q
      (taken ++ [now]) [] := by
  have hrep : Represents s.ldisc.queue q := by
    rw [hqueue]
    exact h.queue
  rw [hqueue, completedLine_eq_nil (Nat.le_refl _), List.append_nil]
  refine ⟨hrep, h.closed, ?_, ⟨h.delivered.lines, ?_, ?_, ?_⟩, fun hfalse => ⟨?_, ?_⟩⟩
  · -- the call is over, and the next one has taken nothing
    simp [hreader, Reader.isCopying]
  · rw [Logged.queue, hqueue]
    simpa using h.delivered.order
  · simp [hreturned, h.delivered.bytes, h.delivered.out, hout]
  · simp [hreader, Reader.out, data]
  · intro cells hcells
    rw [List.mem_append, List.mem_singleton] at hcells
    obtain hcells | rfl := hcells
    · exact (h.oneLine (hnot hfalse)).1 cells hcells
    · -- what this call has taken is within one line
      exact hwithin (hnot hfalse)
  · simp [hreader, Reader.Within]

section CopyRound

variable {nr : ℕ} {out : List UInt8} {x : Cell} {rest : List Cell}

theorem take (h : Logs g q taken now) (hreader : g.state.reader = .copying nr out)
    (hdone : q.done = x :: rest) (hnr : nr ≠ 0) :
    Logs ⟨g.state.copyRound nr out,
      g.completed ++ completedLine g.queue (g.state.copyRound nr out).ldisc.queue, g.restarted⟩
      ⟨rest, q.cur⟩ taken (now ++ [x]) := by
  have hclosed := h.closed
  have hout := h.delivered.out
  rw [hdone] at hclosed
  rw [hreader, Reader.out] at hout
  have hpop : Represents g.queue.pop ⟨rest, q.cur⟩ := h.queue.pop hdone
  -- no line is finished by taking a character
  have hnil : completedLine g.queue g.queue.pop = [] := by
    apply completedLine_eq_nil
    rw [hpop.canonData, h.queue.canonData, hdone, List.countP_cons]
    exact Nat.le_add_right _ _
  rw [Sound.copyRound_eq h.queue hdone hnr]
  show Logs ⟨_, g.completed ++ completedLine g.queue g.queue.pop, _⟩ _ _ _
  rw [hnil, List.append_nil]
  refine ⟨hpop, hclosed.tail, ?_, ⟨h.delivered.lines, ?_, h.delivered.bytes, ?_⟩, fun hnot => ?_⟩
  · -- the last finished cell ends a line, so that the loop goes on only before it
    rintro hcopy rfl
    have hx : x.eol = true := hclosed x rfl
    simp only [hx, if_true] at hcopy
    split_ifs at hcopy <;> cases hcopy
  · -- the character goes from the queue to the read
    show g.completed.flatten = taken.flatten ++ (now ++ [x]) ++ g.queue.pop.finished
    rw [hpop.finished_eq, h.order_done, hdone]
    simp
  · -- a marker is not data
    rw [data_append, hout]
    by_cases hx : x.eol = true <;> by_cases hmark : x.char = disabledChar <;>
      simp [data, hx, hmark, Reader.out]
  · have hwithin := (h.oneLine hnot).2
    rw [hreader] at hwithin
    refine ⟨(h.oneLine hnot).1, ?_⟩
    by_cases hx : x.eol = true
    · simp only [hx, if_true]
      -- the line ends here
      have hone : OneLine (now ++ [x]) := by
        rw [OneLine, List.dropLast_concat]
        exact hwithin
      split_ifs <;> exact hone
    · -- the line goes on
      simp only [hx, Bool.false_eq_true, if_false]
      intro y hy
      rw [List.mem_append, List.mem_singleton] at hy
      obtain hy | rfl := hy
      · exact hwithin y hy
      · exact Bool.eq_false_iff.mpr hx

theorem full (h : Logs g q taken now) (hreader : g.state.reader = .copying 0 out) :
    Logs ⟨g.state.copyRound 0 out,
      g.completed ++ completedLine g.queue (g.state.copyRound 0 out).ldisc.queue, g.restarted⟩
      q taken now := by
  -- the buffer is full, and the read ends
  rw [State.copyRound, if_pos (.inl rfl)]
  apply h.move
  · rfl
  · simp [Reader.isCopying]
  · rfl
  · rw [hreader]
    rfl
  · intro hnot
    have hwithin := (h.oneLine hnot).2
    rw [hreader] at hwithin
    exact ⟨hnot, fun x hx => hwithin x (List.dropLast_subset now hx)⟩

end CopyRound

theorem leave (h : Logs g q taken now) {nr : ℕ} {out : List UInt8} {eof : Option Bool}
    (hreader : g.state.reader = .leaving nr out eof) :
    ∃ taken' now', Logs ⟨g.state.leave nr out eof,
      g.completed ++ completedLine g.queue (g.state.leave nr out eof).ldisc.queue,
      g.restarted || restarts g.state .run⟩ q taken' now' := by
  have hwithin : g.restarted = false → OneLine now := by
    intro hnot
    have hnow := (h.oneLine hnot).2
    rw [hreader] at hnow
    exact hnow
  have hout : g.state.reader.out = out := by rw [hreader]; rfl
  have hnot : (g.restarted || restarts g.state .run) = false → g.restarted = false := fun hor =>
    (Bool.or_eq_false_iff.mp hor).1
  rw [State.leave]
  by_cases hsome : out ≠ []
  · -- the read returns what it has copied
    rw [if_pos hsome]
    refine ⟨taken ++ [now], [], ?_⟩
    apply h.ret
    · rfl
    · rfl
    · rfl
    · exact hout
    · exact hwithin
    · exact hnot
  have hnil : out = [] := not_ne_iff.mp hsome
  rw [if_neg hsome]
  split_ifs with hpush
  · -- the read starts again
    have hrestart : restarts g.state .run = true := by simp [restarts, hreader, hnil, hpush]
    refine ⟨taken, now, ?_⟩
    apply h.move
    · rfl
    · simp [Reader.isCopying]
    · rfl
    · rw [hout, hnil]
      rfl
    · intro hor
      rw [hrestart, Bool.or_true] at hor
      cases hor
  · -- the read returns nothing
    refine ⟨taken ++ [now], [], ?_⟩
    apply h.ret
    · rfl
    · rfl
    · rfl
    · exact hout.trans hnil
    · exact hwithin
    · exact hnot

theorem call (h : Logs g q taken now) (hreader : g.state.reader = .idle) (nr : ℕ) :
    Logs ⟨{ g.state with reader := .waiting nr },
      g.completed ++ completedLine g.queue g.queue, g.restarted⟩ q taken now := by
  apply h.move
  · rfl
  · simp [Reader.isCopying]
  · rfl
  · rw [hreader]
    rfl
  · intro hnot
    have hwithin := (h.oneLine hnot).2
    rw [hreader] at hwithin
    exact ⟨hnot, hwithin⟩

theorem clearPush (h : Logs g q taken now) (hreader : g.state.reader = .idle) :
    Logs ⟨⟨{ g.state.ldisc with push := false }, .idle, g.state.returned⟩,
      g.completed ++ completedLine g.queue g.queue, g.restarted⟩ q taken now := by
  have hwithin := fun hnot => (h.oneLine hnot).2
  rw [hreader] at hwithin
  apply h.move
  · rfl
  · simp [Reader.isCopying]
  · rfl
  · rw [hreader]
  · exact fun hnot => ⟨hnot, hwithin hnot⟩

theorem begin (h : Logs g q taken now) {nr : ℕ} (hreader : g.state.reader = .waiting nr)
    (hdata : g.queue.canonData ≠ 0) :
    Logs ⟨{ g.state with reader := .copying nr [] },
      g.completed ++ completedLine g.queue g.queue, g.restarted⟩ q taken now := by
  apply h.move
  · rfl
  · rintro _ hnil
    -- `canon_data` counts the lines
    exact hdata (by rw [h.queue.canonData, hnil, List.countP_nil])
  · rfl
  · rw [hreader]
    rfl
  · intro hnot
    have hnow := (h.oneLine hnot).2
    rw [hreader] at hnow
    -- nothing has been taken
    have hempty : now = [] := hnow
    exact ⟨hnot, by simp [hempty, Reader.Within]⟩

theorem wait (h : Logs g q taken now) :
    Logs ⟨g.state, g.completed ++ completedLine g.queue g.queue, g.restarted⟩ q taken now := by
  apply h.move
  · rfl
  · exact h.line
  · rfl
  · rfl
  · exact fun hnot => ⟨hnot, (h.oneLine hnot).2⟩

theorem runReader (h : Logs g q taken now) (hext : t.extproc = false) {s : State}
    (hs : g.state.runReader t = some s) :
    ∃ q taken now, Logs ⟨s, g.completed ++ completedLine g.queue s.ldisc.queue,
      g.restarted || restarts g.state .run⟩ q taken now := by
  rw [State.runReader] at hs
  cases hreader : g.state.reader with
  | idle => simp [hreader] at hs
  | waiting nr =>
    rw [hreader] at hs
    obtain rfl := Option.some.inj hs
    simp only [restarts, hreader, Bool.or_false, hext, Bool.false_eq_true, if_false]
    refine ⟨q, taken, now, ?_⟩
    split_ifs with hdata
    · simp only [Queue.inputAvailable, hext, Bool.false_eq_true, if_false] at hdata
      -- a line is finished
      exact h.begin hreader (of_decide_eq_true hdata)
    · exact h.wait
  | copying nr out =>
    rw [hreader] at hs
    obtain rfl := Option.some.inj hs
    simp only [restarts, hreader, Bool.or_false]
    by_cases hnr : nr = 0
    · -- the buffer is full
      subst hnr
      exact ⟨q, taken, now, h.full hreader⟩
    · -- a character is left, as the line is not at its end
      obtain ⟨x, rest, hdone⟩ := List.exists_cons_of_ne_nil (h.line (by rw [hreader]; rfl))
      exact ⟨_, taken, _, h.take hreader hdone hnr⟩
  | leaving nr out eof =>
    rw [hreader] at hs
    obtain rfl := Option.some.inj hs
    exact ⟨q, h.leave hreader⟩

theorem step {g' : Logged} {e : Event} (h : ∃ q taken now, Logs g q taken now)
    (hext : t.extproc = false) (hkeep : Kept t g e g') (hstep : logStep t g e = some g') :
    ∃ q taken now, Logs g' q taken now := by
  obtain ⟨q, taken, now, h⟩ := h
  obtain ⟨s, hs, rfl⟩ := Option.map_eq_some_iff.mp hstep
  cases e with
  | receive r =>
    obtain rfl := Option.some.inj hs
    obtain ⟨q', hq'⟩ := h.receive hext hkeep
    simp only [restarts, Bool.or_false]
    exact ⟨q', taken, now, hq'⟩
  | read nr =>
    rw [LineDiscipline.step] at hs
    cases hreader : g.state.reader with
    | idle =>
      rw [hreader] at hs
      obtain rfl := Option.some.inj hs
      simp only [restarts, Bool.or_false]
      split_ifs
      · exact ⟨q, taken, now, h.call hreader nr⟩
      · -- a read of no bytes only clears the bit
        exact ⟨q, taken, now, h.clearPush hreader⟩
    | waiting nr => simp [hreader] at hs
    | copying nr out => simp [hreader] at hs
    | leaving nr out eof => simp [hreader] at hs
  | run => exact h.runReader hext hs

end Logs

/-! ## Every run -/

/-- **Canonical queue**: in every run in which no signal discards the input, the counters and flags
    of the ring agree, `eraser` leaves the finished lines alone, and the reads take the finished
    lines in order; each takes at most one if no read has started again. -/
theorem canonicalQueue_ok (t : Termios) (hext : t.extproc = false) (events : List Event)
    (g : Logged) (hkeep : Along (logStep t) (Kept t) Logged.init events)
    (hrun : runFrom (logStep t) Logged.init events = some g) :
    Counters t g.queue ∧ (∃ taken now, DeliveredBy g taken now) ∧
      (g.restarted = false → OneLinePerRead g) := by
  -- a step keeps the invariant
  have hinv : ∀ g e g', (∃ q taken now, Logs g q taken now) → logStep t g e = some g' →
      Kept t g e g' → ∃ q taken now, Logs g' q taken now :=
    fun _ _ _ hg hstep hkeep => Logs.step hg hext hkeep hstep
  obtain ⟨q, taken, now, h⟩ := inv_of_along hinv ⟨_, _, _, Logs.init⟩ hkeep hrun
  refine ⟨h.queue.counters t, ⟨taken, now, h.delivered⟩, fun hnot => ?_⟩
  exact ⟨taken, now, h.delivered, (h.oneLine hnot).1⟩

/-- `"abx"`, an erase and a newline, and then `"cd"` with an end of file, read with buffers of two
    and of ten bytes -/
theorem canonicalQueue_ok_typing :
    let events := typing [0x61, 0x62, 0x78, 0x7f, 0x0a, 0x63, 0x64, 0x04] ++ reading 2 5 ++
      reading 10 3 ++ reading 10 5
    (runFrom (logStep cooked) Logged.init events).map
        (fun g => (g.state.returned.map Return.bytes, g.restarted)) =
      some ([[0x61, 0x62], [0x0a], [0x63, 0x64]], false) ∧
      ∀ g, runFrom (logStep cooked) Logged.init events = some g →
        Counters cooked g.queue ∧ (∃ taken now, DeliveredBy g taken now) ∧
          (g.restarted = false → OneLinePerRead g) :=
  ⟨by decide +kernel, fun g hrun =>
    canonicalQueue_ok cooked rfl _ g (by decide +kernel) hrun⟩

/-- The run of the counterexample: an end of file on an empty line, then one that pushes `"ab"`, and
    one read -/
def twoEnds : List Event := typing [0x04, 0x61, 0x62, 0x04] ++ reading 10 8

/-- The read takes the marker of the empty line and, as `TTY_PUSH` is set, `"ab"` with it. -/
theorem two_lines_in_one_read :
    Along (logStep cooked) (Kept cooked) Logged.init twoEnds ∧
      ∃ g, runFrom (logStep cooked) Logged.init twoEnds = some g ∧
        g.state.returned.map Return.bytes = [[0x61, 0x62]] ∧ ¬ OneLinePerRead g := by
  refine ⟨by decide +kernel, ?_⟩
  have hrun : (runFrom (logStep cooked) Logged.init twoEnds).map (fun g =>
      (g.state.returned.map Return.bytes, g.completed.flatten, g.queue.finished)) =
      some ([[0x61, 0x62]],
        [⟨0, true, true⟩, ⟨0x61, false, true⟩, ⟨0x62, false, false⟩, ⟨0, true, false⟩], []) := by
    decide +kernel
  obtain ⟨g, hg, heq⟩ := Option.map_eq_some_iff.mp hrun
  simp only [Prod.mk.injEq] at heq
  obtain ⟨hreturned, hcompleted, hfinished⟩ := heq
  refine ⟨g, hg, hreturned, ?_⟩
  rintro ⟨taken, now, hdelivered, hone⟩
  have horder := hdelivered.order
  have hbytes := hdelivered.bytes
  rw [hreturned, List.map_eq_singleton_iff] at hbytes
  obtain ⟨cells, rfl, hdata⟩ := hbytes
  rw [hcompleted, hfinished, List.flatten_singleton, List.append_nil] at horder
  -- the read has taken the first marker and something behind it
  match cells, hdata, horder, hone with
  | [], hdata, _, _ => cases hdata
  | [x], hdata, horder, _ =>
    rw [List.cons_append] at horder
    rw [← (List.cons.inj horder).1] at hdata
    cases hdata
  | x :: y :: rest, _, horder, hone =>
    rw [List.cons_append] at horder
    have hx := hone _ List.mem_cons_self x (by simp)
    rw [← (List.cons.inj horder).1] at hx
    cases hx

end NucKernel.Tty.LineDiscipline
