import Mathlib.Algebra.Ring.Int.Defs
import Mathlib.Algebra.BigOperators.Group.List.Basic
import NucKernel.Library.Ranges

/-!
# Flip buffers (`tty_buffer.c`)

Characters with their flags are collected in a chain of buffers. A driver inserts at the last buffer
and publishes what it inserted with a push; a full buffer is published when a new one is added. The
work function hands the published characters to the line discipline, as far as that has room, and
recycles the buffers it has emptied.

## Modelling

- The elements are pairs of a character and a flag: both arrays of a buffer are written and read at
  the same positions.
- A round of an insert function is one step, an iteration of `flush_to_ldisc` is another: the lock
  is taken within a round and dropped within an iteration, and what a round does without the lock
  touches only cells that are not yet published. There is one inserting driver.
- The outcome of `kmalloc` is an input: nothing, or memory with any contents.
- `TTY_BUFFER_PAGE`, a constant of a header outside the tree, is a parameter.
- `memory_used` does not overflow. A buffer taken from the free list is added to it without the test
  of `tty_buffer_alloc`, so the buffers in use can hold more than 65536 (up to 131072) elements.
-/

namespace NucKernel.Tty

open NucKernel.Library

universe u

variable {α : Type u}

/-! ## Buffers -/

structure TtyBuffer (α : Type u) where
  size : ℕ
  used : ℕ
  commit : ℕ
  read : ℕ
  data : ℕ → α

/-- `struct tty_bufhead`: `older` is the chain from `head` on without its last buffer, `tail`. -/
structure TtyBufhead (α : Type u) where
  older : List (TtyBuffer α)
  tail : Option (TtyBuffer α)
  free : List (TtyBuffer α)
  memoryUsed : ℤ
  /-- `TTYP_FLUSHING` -/
  flushing : Bool

namespace TtyBufhead

/-- `tty_buffer_init` -/
def init : TtyBufhead α := ⟨[], none, [], 0, false⟩

def queue (buf : TtyBufhead α) : List (TtyBuffer α) := buf.older ++ buf.tail.toList

def ttyBufferAlloc (buf : TtyBufhead α) (kmalloc : Option (ℕ → α)) (size : ℕ) :
    Option (TtyBuffer α × TtyBufhead α) :=
  if buf.memoryUsed + size > 65536 then none
  else kmalloc.map fun data =>
    (⟨size, 0, 0, 0, data⟩, { buf with memoryUsed := buf.memoryUsed + size })

def ttyBufferFind (buf : TtyBufhead α) (kmalloc : Option (ℕ → α)) (size : ℕ) :
    Option (TtyBuffer α × TtyBufhead α) :=
  match buf.free.find? fun t => decide (size ≤ t.size) with
  | some t => some (⟨t.size, 0, 0, 0, t.data⟩,
      { buf with
        free := buf.free.eraseP fun t => decide (size ≤ t.size)
        memoryUsed := buf.memoryUsed + t.size })
  -- `(size + 0xFF) & ~0xFF`
  | none => buf.ttyBufferAlloc kmalloc ((size + 0xFF) / 0x100 * 0x100)

def ttyBufferFree (buf : TtyBufhead α) (b : TtyBuffer α) : TtyBufhead α :=
  let buf := { buf with memoryUsed := buf.memoryUsed - b.size }
  if b.size ≥ 512 then buf else { buf with free := b :: buf.free }

def left (buf : TtyBufhead α) : ℕ := buf.tail.elim 0 fun b => b.size - b.used

/-- `b->commit = b->used` -/
def commitTail (buf : TtyBufhead α) : TtyBufhead α :=
  { buf with tail := buf.tail.map fun b => { b with commit := b.used } }

def append (buf : TtyBufhead α) (n : TtyBuffer α) : TtyBufhead α :=
  { buf with older := buf.commitTail.queue, tail := some n }

def ttyBufferRequestRoom (buf : TtyBufhead α) (kmalloc : Option (ℕ → α)) (size : ℕ) :
    ℕ × TtyBufhead α :=
  if buf.left < size then
    match buf.ttyBufferFind kmalloc size with
    | some (n, buf) => (size, buf.append n)
    | none => (buf.left, buf)
  else (size, buf)

def copyIn (buf : TtyBufhead α) (xs : List α) : TtyBufhead α :=
  { buf with tail := buf.tail.map fun b =>
      { b with data := writeList b.data b.used xs, used := b.used + xs.length } }

end TtyBufhead

/-! ## Calls -/

/-- The chain, what is left to insert of a running insert function, and the history -/
structure Session (α : Type u) where
  buf : TtyBufhead α
  inserting : List α
  /-- The elements counted in return values, of the running call those copied so far -/
  inserted : List α
  /-- The elements given to `receive_buf` -/
  handed : List α

namespace Session

def start : Session α := ⟨.init, [], [], []⟩

/-- One round of the loop of the insert functions -/
def insertRound (page : ℕ) (s : Session α) (kmalloc : Option (ℕ → α)) : Session α :=
  let goal := min s.inserting.length page
  let (space, buf) := s.buf.ttyBufferRequestRoom kmalloc goal
  if space = 0 then { s with buf := buf, inserting := [] }
  else
    { s with
      buf := buf.copyIn (s.inserting.take space)
      inserting := s.inserting.drop space
      inserted := s.inserted ++ s.inserting.take space }

def hand (s : Session α) (b : TtyBuffer α) (count : ℕ) : Session α :=
  { s with handed := s.handed ++ cells b.data b.read count }

/-- One iteration of the loop of `flush_to_ldisc`, with the value of `receive_room` -/
def flushIteration (s : Session α) (room : ℕ) : Session α :=
  let stop := { s with buf := { s.buf with flushing := false } }
  match s.buf.older, s.buf.tail with
  | head :: rest, _ =>
    let count := min (head.commit - head.read) room
    if head.commit - head.read = 0 then
      -- all of the buffer was handed over and there is a next one
      { s with buf := { s.buf with older := rest }.ttyBufferFree head }
    else if room = 0 then stop
    else { s with
      buf := { s.buf with
        older := { head with read := head.read + count } :: rest } }.hand head count
  | [], some head =>
    let count := min (head.commit - head.read) room
    if head.commit - head.read = 0 then stop
    else if room = 0 then stop
    else { s with
      buf := { s.buf with tail := some { head with read := head.read + count } } }.hand head count
  | [], none => stop

end Session

inductive Call (α : Type u)
  /-- An insert function is called. -/
  | insert (xs : List α)
  | round (kmalloc : Option (ℕ → α))
  /-- `tty_flip_buffer_push` -/
  | push
  /-- `flush_to_ldisc` begins. -/
  | flush
  | iteration (receiveRoom : ℕ)

def ttyInsertFlipStringFixedFlag {C F : Type u} (chars : List C) (flag : F) : Call (C × F) :=
  .insert (chars.map fun c => (c, flag))

def ttyInsertFlipStringFlags {C F : Type u} (chars : List C) (flags : List F) : Call (C × F) :=
  .insert (chars.zip flags)

/-- One step of the calls; steps of functions that do not run leave the chain as it is. -/
def step (page : ℕ) (s : Session α) : Call α → Session α
  | .insert xs => if s.inserting.isEmpty then { s with inserting := xs } else s
  | .round kmalloc => if s.inserting.isEmpty then s else s.insertRound page kmalloc
  | .push => { s with buf := s.buf.commitTail }
  | .flush => { s with buf := { s.buf with flushing := true } }
  | .iteration receiveRoom => if s.buf.flushing then s.flushIteration receiveRoom else s

/-! ## The invariant -/

namespace TtyBuffer

def unread (b : TtyBuffer α) : List α := cells b.data b.read (b.used - b.read)

/-- `read <= commit <= used <= size` -/
structure InBounds (b : TtyBuffer α) : Prop where
  read_le : b.read ≤ b.commit
  commit_le : b.commit ≤ b.used
  used_le : b.used ≤ b.size

end TtyBuffer

namespace TtyBuffer

theorem unread_write {b : TtyBuffer α} (h : b.InBounds) (xs : List α) :
    unread { b with data := writeList b.data b.used xs, used := b.used + xs.length } =
      b.unread ++ xs := by
  obtain ⟨hread, hcommit, -⟩ := h
  have hlen : b.used + xs.length - b.read = (b.used - b.read) + xs.length := by omega
  have hend : b.read + (b.used - b.read) = b.used := by omega
  rw [unread, hlen, cells_add, hend, cells_writeList,
    cells_writeList_before _ _ _ _ (Nat.le_of_eq hend)]
  rfl

theorem unread_split {b : TtyBuffer α} (h : b.InBounds) {count : ℕ}
    (hcount : count ≤ b.commit - b.read) :
    b.unread = cells b.data b.read count ++ unread { b with read := b.read + count } := by
  obtain ⟨hread, hcommit, -⟩ := h
  have hlen : b.used - b.read = count + (b.used - (b.read + count)) := by omega
  rw [unread, hlen, cells_add]
  rfl

theorem InBounds.advance {b : TtyBuffer α} (h : b.InBounds) {count : ℕ}
    (hcount : count ≤ b.commit - b.read) : InBounds { b with read := b.read + count } := by
  obtain ⟨hread, hcommit, hused⟩ := h
  exact ⟨by show b.read + count ≤ b.commit; omega, hcommit, hused⟩

end TtyBuffer

def totalSize (bs : List (TtyBuffer α)) : ℤ := (bs.map fun b => (b.size : ℤ)).sum

structure Sound (s : Session α) : Prop where
  inBounds : ∀ b ∈ s.buf.queue, b.InBounds
  /-- Buffers before the last one are published as a whole. -/
  published : ∀ b ∈ s.buf.older, b.commit = b.used
  inserted : s.inserted = s.handed ++ s.buf.queue.flatMap TtyBuffer.unread
  memoryUsed : s.buf.memoryUsed = totalSize s.buf.queue

theorem totalSize_append (bs cs : List (TtyBuffer α)) :
    totalSize (bs ++ cs) = totalSize bs + totalSize cs := by
  rw [totalSize, List.map_append, List.sum_append]
  rfl

theorem totalSize_cons (b : TtyBuffer α) (bs : List (TtyBuffer α)) :
    totalSize (b :: bs) = b.size + totalSize bs := by
  rw [totalSize, List.map_cons, List.sum_cons]
  rfl

namespace TtyBufhead

theorem ttyBufferFind_eq_some {buf buf' : TtyBufhead α} {kmalloc : Option (ℕ → α)} {size : ℕ}
    {n : TtyBuffer α} (h : buf.ttyBufferFind kmalloc size = some (n, buf')) :
    size ≤ n.size ∧ n.used = 0 ∧ n.commit = 0 ∧ n.read = 0 ∧
      buf' = { buf with free := buf'.free, memoryUsed := buf.memoryUsed + n.size } := by
  rw [ttyBufferFind] at h
  split at h
  · -- a free buffer is large enough
    rename_i t hfind
    cases h
    exact ⟨by simpa using List.find?_some hfind, rfl, rfl, rfl, rfl⟩
  · -- a new one has a size that is rounded up
    rw [ttyBufferAlloc] at h
    split_ifs at h
    obtain ⟨data, -, heq⟩ := Option.map_eq_some_iff.mp h
    cases heq
    exact ⟨by show size ≤ (size + 0xFF) / 0x100 * 0x100; omega, rfl, rfl, rfl, rfl⟩

theorem unread_commitTail (buf : TtyBufhead α) :
    buf.commitTail.queue.flatMap TtyBuffer.unread = buf.queue.flatMap TtyBuffer.unread := by
  rw [queue, queue, commitTail]
  cases buf.tail <;> simp [TtyBuffer.unread]

theorem totalSize_commitTail (buf : TtyBufhead α) :
    totalSize buf.commitTail.queue = totalSize buf.queue := by
  rw [queue, queue, commitTail, totalSize_append, totalSize_append]
  cases buf.tail <;> rfl

theorem mem_commitTail {buf : TtyBufhead α} {b : TtyBuffer α} (hb : b ∈ buf.commitTail.queue) :
    b ∈ buf.older ∨ ∃ t ∈ buf.queue, b = { t with commit := t.used } := by
  rcases List.mem_append.mp hb with hb | hb
  · exact .inl hb
  · cases htail : buf.tail with
    | none => simp [commitTail, htail] at hb
    | some t =>
      have ht : t ∈ buf.queue := List.mem_append_right _ (by simp [htail])
      exact .inr ⟨t, ht, by simpa [commitTail, htail] using hb⟩

end TtyBufhead

namespace Sound

variable {s : Session α}

theorem start : Sound (Session.start : Session α) :=
  ⟨by simp [Session.start, TtyBufhead.init, TtyBufhead.queue],
    by simp [Session.start, TtyBufhead.init], rfl, rfl⟩

theorem inBounds_commitTail (h : Sound s) : ∀ b ∈ s.buf.commitTail.queue, b.InBounds := by
  intro b hb
  obtain hb | ⟨t, ht, rfl⟩ := TtyBufhead.mem_commitTail hb
  · exact h.inBounds b (List.mem_append_left _ hb)
  · have hbounds := h.inBounds t ht
    exact ⟨Nat.le_trans hbounds.read_le hbounds.commit_le, Nat.le_refl _, hbounds.used_le⟩

theorem published_commitTail (h : Sound s) : ∀ b ∈ s.buf.commitTail.queue, b.commit = b.used := by
  intro b hb
  obtain hb | ⟨t, -, rfl⟩ := TtyBufhead.mem_commitTail hb
  · exact h.published b hb
  · rfl

theorem push (h : Sound s) : Sound { s with buf := s.buf.commitTail } :=
  ⟨h.inBounds_commitTail, h.published, by rw [TtyBufhead.unread_commitTail]; exact h.inserted,
    by rw [TtyBufhead.totalSize_commitTail]; exact h.memoryUsed⟩

theorem requestRoom (h : Sound s) (kmalloc : Option (ℕ → α)) (size : ℕ) :
    let (space, buf) := s.buf.ttyBufferRequestRoom kmalloc size
    Sound { s with buf := buf } ∧ space ≤ size ∧ space ≤ buf.left := by
  rw [TtyBufhead.ttyBufferRequestRoom]
  split_ifs with hleft
  · cases hfind : s.buf.ttyBufferFind kmalloc size with
    | none =>
      -- without memory, what is left in the last buffer is granted
      exact ⟨h, Nat.le_of_lt hleft, Nat.le_refl _⟩
    | some p =>
      obtain ⟨n, buf'⟩ := p
      obtain ⟨hsize, hused, hcommit, hread, hbuf'⟩ := TtyBufhead.ttyBufferFind_eq_some hfind
      have holder : buf'.commitTail.queue = s.buf.commitTail.queue := by
        rw [hbuf']
        rfl
      have hqueue : (buf'.append n).queue = s.buf.commitTail.queue ++ [n] := by
        rw [← holder]
        rfl
      have hempty : n.unread = [] := by rw [TtyBuffer.unread, hused, hread]; rfl
      -- the old last buffer is published, and an empty one is behind it
      refine ⟨⟨?_, ?_, ?_, ?_⟩, Nat.le_refl _, ?_⟩
      · intro b hb
        rw [hqueue] at hb
        rcases List.mem_append.mp hb with hb | hb
        · exact h.inBounds_commitTail b hb
        · obtain rfl := List.mem_singleton.mp hb
          -- the new buffer is empty
          exact ⟨by omega, by omega, by omega⟩
      · intro b hb
        have hb' : b ∈ buf'.commitTail.queue := hb
        rw [holder] at hb'
        exact h.published_commitTail b hb'
      · rw [hqueue, List.flatMap_append, TtyBufhead.unread_commitTail, List.flatMap_singleton,
          hempty, List.append_nil]
        exact h.inserted
      · rw [hqueue, totalSize_append, TtyBufhead.totalSize_commitTail, totalSize_cons]
        show buf'.memoryUsed = _
        rw [hbuf', ← h.memoryUsed]
        simp [totalSize]
      · show size ≤ n.size - n.used
        omega
  · -- there is room in the last buffer
    exact ⟨h, Nat.le_refl _, Nat.not_lt.mp hleft⟩

theorem copyIn (h : Sound s) (xs rest : List α) (hfits : xs.length ≤ s.buf.left)
    (hpos : 0 < xs.length) :
    Sound { s with buf := s.buf.copyIn xs, inserting := rest, inserted := s.inserted ++ xs } := by
  -- there is a last buffer, as it has room
  obtain ⟨t, htail⟩ : ∃ t, s.buf.tail = some t := by
    cases htail : s.buf.tail with
    | none =>
      rw [TtyBufhead.left, htail, Option.elim_none] at hfits
      omega
    | some t => exact ⟨t, rfl⟩
  have hleft : xs.length ≤ t.size - t.used := by
    rw [TtyBufhead.left, htail] at hfits
    exact hfits
  have hqueue : s.buf.queue = s.buf.older ++ [t] := by rw [TtyBufhead.queue, htail]; rfl
  have hcopied : (s.buf.copyIn xs).queue = s.buf.older ++
      [{ t with data := writeList t.data t.used xs, used := t.used + xs.length }] := by
    rw [TtyBufhead.queue, TtyBufhead.copyIn, htail]
    rfl
  have hbounds := h.inBounds t (by simp [hqueue])
  refine ⟨?_, h.published, ?_, ?_⟩
  · intro b hb
    rw [hcopied] at hb
    rcases List.mem_append.mp hb with hb | hb
    · exact h.inBounds b (List.mem_append_left _ hb)
    · -- the last buffer has room for the elements
      obtain rfl := List.mem_singleton.mp hb
      obtain ⟨hread, hcommit, hused⟩ := hbounds
      exact ⟨hread, Nat.le_add_right_of_le hcommit, by show t.used + xs.length ≤ t.size; omega⟩
  · -- they are added behind all others
    rw [hcopied, h.inserted, hqueue]
    simp only [List.flatMap_append, List.flatMap_singleton, TtyBuffer.unread_write hbounds,
      List.append_assoc]
  · rw [hcopied, totalSize_append]
    refine h.memoryUsed.trans ?_
    rw [hqueue, totalSize_append]
    rfl

theorem insertRound (h : Sound s) (page : ℕ) (kmalloc : Option (ℕ → α)) :
    Sound (s.insertRound page kmalloc) := by
  have hroom := h.requestRoom kmalloc (min s.inserting.length page)
  rw [Session.insertRound]
  dsimp only
  generalize s.buf.ttyBufferRequestRoom kmalloc (min s.inserting.length page) = granted at hroom ⊢
  obtain ⟨space, buf⟩ := granted
  obtain ⟨hsound, hspace, hleft⟩ := hroom
  split_ifs with hzero
  · -- nothing is granted, and the insertion ends
    exact ⟨hsound.inBounds, hsound.published, hsound.inserted, hsound.memoryUsed⟩
  · -- as many elements are copied as were granted
    have hlength : (s.inserting.take space).length = space := by
      rw [List.length_take]
      omega
    exact hsound.copyIn (s.inserting.take space) (s.inserting.drop space) (hlength.trans_le hleft)
      (by omega)

theorem setFlushing (h : Sound s) (flushing : Bool) :
    Sound { s with buf := { s.buf with flushing := flushing } } :=
  ⟨h.inBounds, h.published, h.inserted, h.memoryUsed⟩

theorem free {head : TtyBuffer α} {rest : List (TtyBuffer α)} (h : Sound s)
    (holder : s.buf.older = head :: rest) (hcount : head.commit - head.read = 0) :
    Sound { s with buf := { s.buf with older := rest }.ttyBufferFree head } := by
  have hqueue : s.buf.queue = head :: (rest ++ s.buf.tail.toList) := by
    rw [TtyBufhead.queue, holder]
    rfl
  have hfreed : ({ s.buf with older := rest }.ttyBufferFree head).queue =
      rest ++ s.buf.tail.toList := by
    rw [TtyBufhead.ttyBufferFree]
    split_ifs <;> rfl
  have holder' : ({ s.buf with older := rest }.ttyBufferFree head).older = rest := by
    rw [TtyBufhead.ttyBufferFree]
    split_ifs <;> rfl
  have hmemory : ({ s.buf with older := rest }.ttyBufferFree head).memoryUsed =
      s.buf.memoryUsed - head.size := by
    rw [TtyBufhead.ttyBufferFree]
    split_ifs <;> rfl
  -- all of the buffer was published, so that nothing of it is left
  have hempty : head.unread = [] := by
    have hpublished := h.published head (by simp [holder])
    rw [TtyBuffer.unread, ← hpublished, hcount]
    rfl
  refine ⟨?_, ?_, ?_, ?_⟩
  · intro b hb
    rw [hfreed] at hb
    exact h.inBounds b (by rw [hqueue]; exact List.mem_cons_of_mem _ hb)
  · intro b hb
    rw [holder'] at hb
    exact h.published b (by rw [holder]; exact List.mem_cons_of_mem _ hb)
  · rw [hfreed, h.inserted, hqueue, List.flatMap_cons, hempty, List.nil_append]
  · rw [hfreed, hmemory, h.memoryUsed, hqueue, totalSize_cons]
    omega

theorem hand {buf : TtyBufhead α} {head : TtyBuffer α} {rest : List (TtyBuffer α)} {count : ℕ}
    (h : Sound s) (hqueue : s.buf.queue = head :: rest)
    (hbuf : buf.queue = { head with read := head.read + count } :: rest)
    (hpublished : ∀ b ∈ buf.older, b.commit = b.used)
    (hmemory : buf.memoryUsed = s.buf.memoryUsed) (hcount : count ≤ head.commit - head.read) :
    Sound ({ s with buf := buf }.hand head count) := by
  have hbounds := h.inBounds head (by simp [hqueue])
  refine ⟨?_, hpublished, ?_, ?_⟩
  · intro b hb
    have hb' : b ∈ buf.queue := hb
    rw [hbuf] at hb'
    rcases List.mem_cons.mp hb' with rfl | hb'
    · -- the elements have been published
      exact hbounds.advance hcount
    · exact h.inBounds b (by rw [hqueue]; exact List.mem_cons_of_mem _ hb')
  · show s.inserted = s.handed ++ cells head.data head.read count ++ buf.queue.flatMap _
    -- the elements handed over come first
    rw [hbuf, h.inserted, hqueue, List.flatMap_cons, List.flatMap_cons,
      TtyBuffer.unread_split hbounds hcount]
    simp only [List.append_assoc]
  · show buf.memoryUsed = totalSize buf.queue
    rw [hmemory, hbuf, h.memoryUsed, hqueue, totalSize_cons, totalSize_cons]

theorem flushIteration (h : Sound s) (room : ℕ) : Sound (s.flushIteration room) := by
  rw [Session.flushIteration]
  split
  · rename_i head rest holder
    have hqueue : s.buf.queue = head :: (rest ++ s.buf.tail.toList) := by
      rw [TtyBufhead.queue, holder]
      rfl
    dsimp only
    split_ifs with hcount hroom
    · -- the buffer was emptied before
      exact h.free holder hcount
    · exact h.setFlushing false
    · refine h.hand hqueue rfl ?_ rfl (Nat.min_le_left _ _)
      intro b hb
      rcases List.mem_cons.mp hb with rfl | hb
      · exact h.published head (by simp [holder])
      · exact h.published b (by simp [holder, hb])
  · rename_i head holder htail
    have hqueue : s.buf.queue = [head] := by rw [TtyBufhead.queue, holder, htail]; rfl
    dsimp only
    split_ifs with hcount hroom
    · -- the last buffer is never freed: more may be written to it
      exact h.setFlushing false
    · exact h.setFlushing false
    · refine h.hand hqueue ?_ h.published rfl (Nat.min_le_left _ _)
      rw [TtyBufhead.queue, holder]
      rfl
  · -- the chain is empty
    exact h.setFlushing false

theorem step (h : Sound s) (page : ℕ) (call : Call α) : Sound (step page s call) := by
  cases call with
  | insert xs =>
    rw [Tty.step]
    split
    · exact ⟨h.inBounds, h.published, h.inserted, h.memoryUsed⟩
    · exact h
  | round kmalloc =>
    rw [Tty.step]
    split
    · exact h
    · exact h.insertRound page kmalloc
  | push => exact h.push
  | flush => exact h.setFlushing true
  | iteration receiveRoom =>
    rw [Tty.step]
    split
    · exact h.flushIteration receiveRoom
    · exact h

end Sound

/-- **Flip buffers lose nothing**: after any calls, the elements counted as inserted are those given
    to the line discipline, followed by those in the chain; in every buffer of the chain `read`,
    `commit`, `used` and `size` are in order; and `memory_used` is the total size of the chain. -/
theorem flip_buffers_lossless (page : ℕ) (calls : List (Call α)) :
    let s := calls.foldl (step page) Session.start
    s.inserted = s.handed ++ s.buf.queue.flatMap TtyBuffer.unread ∧
      (∀ b ∈ s.buf.queue, b.InBounds) ∧ s.buf.memoryUsed = totalSize s.buf.queue := by
  have h : Sound (calls.foldl (step page) Session.start) :=
    List.foldlRecOn calls (step page) Sound.start fun s hs call _ => hs.step page call
  exact ⟨h.inserted, h.inBounds, h.memoryUsed⟩

end NucKernel.Tty
