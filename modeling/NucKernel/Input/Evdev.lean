import Mathlib.Data.List.Chain
import Mathlib.Data.Nat.Log
import NucKernel.Library.Ring

/-!
# The event queue of an evdev client (`evdev.c`)

Input events are passed to a ring in the client and fetched by `read`. `packet_head` keeps a reader
from events whose packet is not complete. When the ring is full, the events that were not fetched
are dropped: the ring is rewritten to a `SYN_DROPPED` marker and the newest event.

## Modelling

- Indices are taken modulo the size of the ring, a power of two.
- `evdev_read` takes the lock for every event it fetches, so that each fetch is a call of its own.
- The type of time stamps does not matter.
- `EV_SYN`, `SYN_REPORT`, `SYN_DROPPED` have the values of `input.h`, which is not in the tree.
-/

namespace NucKernel.Input

open NucKernel.Library

universe u

variable {T : Type u}

/-! ## The ring -/

structure InputEvent (T : Type u) where
  time : T
  type : UInt16
  code : UInt16
  value : Int32
  deriving DecidableEq

def evSyn : UInt16 := 0

def synReport : UInt16 := 0

def synDropped : UInt16 := 3

namespace InputEvent

def IsReport (e : InputEvent T) : Prop := e.type = evSyn ∧ e.code = synReport

/-- The event tells the reader that others were dropped. -/
def IsDropped (e : InputEvent T) : Prop := e.type = evSyn ∧ e.code = synDropped ∧ e.value = 0

instance (e : InputEvent T) : Decidable e.IsReport := inferInstanceAs (Decidable (_ ∧ _))

instance (e : InputEvent T) : Decidable e.IsDropped := inferInstanceAs (Decidable (_ ∧ _))

end InputEvent

structure EvdevClient (T : Type u) where
  head : ℕ
  tail : ℕ
  packetHead : ℕ
  buffer : ℕ → InputEvent T

def evdevComputeBufferSize (hintEventsPerPacket : ℕ) : ℕ :=
  2 ^ Nat.clog 2 (max (hintEventsPerPacket * 8 % 2 ^ 32) 64)

namespace EvdevClient

/-- The queue is rewritten to a marker and the newest event. -/
def dropAll (bufsize : ℕ) (client : EvdevClient T) (event : InputEvent T) : EvdevClient T :=
  let tail := (client.head + bufsize - 2) % bufsize
  { client with
    tail := tail
    buffer := Function.update client.buffer tail ⟨event.time, evSyn, synDropped, 0⟩
    packetHead := tail }

/-- The first part of `__pass_event`: the event is stored, and a full ring is rewritten. -/
def store (bufsize : ℕ) (client : EvdevClient T) (event : InputEvent T) : EvdevClient T :=
  let client :=
    { client with
      buffer := Function.update client.buffer client.head event
      head := (client.head + 1) % bufsize }
  if client.head = client.tail then client.dropAll bufsize event else client

def passEvent (bufsize : ℕ) (client : EvdevClient T) (event : InputEvent T) : EvdevClient T :=
  let client := client.store bufsize event
  if event.IsReport then { client with packetHead := client.head } else client

def evdevFetchNextEvent (bufsize : ℕ) (client : EvdevClient T) :
    Option (InputEvent T) × EvdevClient T :=
  if client.packetHead ≠ client.tail then
    (some (client.buffer client.tail), { client with tail := (client.tail + 1) % bufsize })
  else (none, client)

end EvdevClient

/-! ## Passed and fetched events -/

structure EvdevSession (T : Type u) where
  client : EvdevClient T
  passed : List (InputEvent T)
  fetched : List (InputEvent T)

structure InputValue where
  type : UInt16
  code : UInt16
  value : Int32

def InputValue.event (time : T) (v : InputValue) : InputEvent T := ⟨time, v.type, v.code, v.value⟩

inductive EvdevCall (T : Type u)
  | pass (time : T) (vals : List InputValue)
  | fetch

namespace EvdevSession

/-- A client that has just been opened; its buffer is cleared. -/
def start (zero : InputEvent T) : EvdevSession T := ⟨⟨0, 0, 0, fun _ => zero⟩, [], []⟩

def pass (bufsize : ℕ) (s : EvdevSession T) (event : InputEvent T) : EvdevSession T :=
  { s with client := s.client.passEvent bufsize event, passed := s.passed ++ [event] }

def fetch (bufsize : ℕ) (s : EvdevSession T) : EvdevSession T :=
  let (event, client) := s.client.evdevFetchNextEvent bufsize
  { s with client := client, fetched := s.fetched ++ event.toList }

def step (bufsize : ℕ) (s : EvdevSession T) : EvdevCall T → EvdevSession T
  | .pass time vals => vals.foldl (fun s v => s.pass bufsize (v.event time)) s
  | .fetch => s.fetch bufsize

end EvdevSession

/-- Two events fetched one after the other, or to be fetched: if none of them is a marker, they were
    passed one after the other. -/
def Next (o o' : Option ℕ) : Prop := ∀ i j, o = some i → o' = some j → j = i + 1

/-- An event comes from a position of the input, or is a marker. -/
def ComesFrom (passed : List (InputEvent T)) : Option ℕ → InputEvent T → Prop
  | some i, e => passed[i]? = some e
  | none, e => e.IsDropped

/-- The packet of the `i`-th event is complete. -/
def Complete (passed : List (InputEvent T)) (i : ℕ) : Prop :=
  ∃ k e, i ≤ k ∧ passed[k]? = some e ∧ e.IsReport

/-- Fetched events with the positions in the input that they come from: a subsequence of the input
    with markers, a marker at every gap, and nothing of a packet that is not complete -/
structure Delivery (passed fetched : List (InputEvent T)) (origins : List (Option ℕ)) : Prop where
  comesFrom : List.Forall₂ (ComesFrom passed) origins fetched
  increasing : (origins.filterMap id).Pairwise (· < ·)
  gapless : origins.IsChain Next
  complete : ∀ i, some i ∈ origins → Complete passed i

/-- `tail`, `packet_head` and `head` follow each other around the ring. -/
def Ordered (bufsize : ℕ) (client : EvdevClient T) : Prop :=
  (client.packetHead + bufsize - client.tail) % bufsize ≤
    (client.head + bufsize - client.tail) % bufsize

/-! ## Positions in the input -/

structure Trail (len : ℕ) (origins : List (Option ℕ)) : Prop where
  bounded : ∀ i, some i ∈ origins → i < len
  increasing : (origins.filterMap id).Pairwise (· < ·)
  gapless : origins.IsChain Next
  newest : ∀ o ∈ origins.getLast?, ∃ i, o = some i ∧ i + 1 = len

namespace Trail

variable {len : ℕ} {origins queued : List (Option ℕ)}

theorem nil : Trail 0 [] := ⟨by simp, by simp, by simp, by simp⟩

theorem pairwise_push (hbounded : ∀ i, some i ∈ origins → i < len)
    (hincreasing : (origins.filterMap id).Pairwise (· < ·)) :
    ((origins ++ [some len]).filterMap id).Pairwise (· < ·) := by
  rw [List.filterMap_append, List.pairwise_append]
  refine ⟨hincreasing, by simp, ?_⟩
  intro i hi j hj
  obtain rfl : j = len := by simpa using hj
  exact hbounded i (by simpa using hi)

theorem bounded_push (hbounded : ∀ i, some i ∈ origins → i < len) (i : ℕ)
    (hi : some i ∈ origins ++ [some len]) : i < len + 1 := by
  rcases List.mem_append.mp hi with h | h
  · exact Nat.lt_succ_of_lt (hbounded i h)
  · obtain rfl : i = len := by simpa using h
    exact Nat.lt_succ_self _

theorem push (h : Trail len origins) : Trail (len + 1) (origins ++ [some len]) := by
  refine ⟨bounded_push h.bounded, pairwise_push h.bounded h.increasing, ?_, by simp⟩
  rw [List.isChain_append]
  refine ⟨h.gapless, .singleton _, ?_⟩
  intro o ho o' ho' i j hi hj
  -- the newest event so far was passed right before
  obtain ⟨k, hk, hlen⟩ := h.newest o ho
  simp only [List.head?_cons, Option.mem_def, Option.some.injEq] at ho'
  subst hi ho'
  cases hk
  cases hj
  omega

theorem drop (h : Trail len (origins ++ queued)) :
    Trail (len + 1) (origins ++ [none, some len]) := by
  have hbounded : ∀ i, some i ∈ origins ++ [none] → i < len := by
    intro i hi
    exact h.bounded i (by simpa using Or.inl (by simpa using hi))
  have hincreasing : ((origins ++ [none]).filterMap id).Pairwise (· < ·) := by
    have hinc := h.increasing
    rw [List.filterMap_append] at hinc
    simpa using (List.pairwise_append.mp hinc).1
  have hlist : origins ++ [none, some len] = origins ++ [none] ++ [some len] := by simp
  rw [hlist]
  refine ⟨bounded_push hbounded, pairwise_push hbounded hincreasing, ?_, by simp⟩
  -- nothing is required next to a marker
  rw [← hlist, List.isChain_append]
  refine ⟨(List.isChain_append.mp h.gapless).1, ?_, ?_⟩
  · exact List.isChain_pair.mpr fun i j hi _ => by cases hi
  · intro o ho o' ho' i j hi hj
    simp only [List.head?_cons, Option.mem_def, Option.some.injEq] at ho'
    subst ho'
    cases hj

end Trail

theorem ComesFrom.append {passed : List (InputEvent T)} {o : Option ℕ} {e : InputEvent T}
    (h : ComesFrom passed o e) (event : InputEvent T) : ComesFrom (passed ++ [event]) o e := by
  cases o with
  | none => exact h
  | some i =>
    have hlt : i < passed.length := by
      by_contra hge
      rw [ComesFrom, List.getElem?_eq_none (by omega)] at h
      cases h
    exact (List.getElem?_append_left hlt).trans h

theorem Complete.append {passed : List (InputEvent T)} {i : ℕ} (h : Complete passed i)
    (event : InputEvent T) : Complete (passed ++ [event]) i := by
  obtain ⟨k, e, hik, he, hreport⟩ := h
  exact ⟨k, e, hik, ComesFrom.append (o := some k) he event, hreport⟩

theorem complete_of_isReport {passed : List (InputEvent T)} {event : InputEvent T}
    (hreport : event.IsReport) {i : ℕ} (hi : i < passed.length + 1) :
    Complete (passed ++ [event]) i :=
  ⟨passed.length, event, by omega, by simp, hreport⟩

/-! ## The invariant -/

/-- The ring holds `count` events, of which `ready` can be fetched. -/
structure Represents (bufsize : ℕ) (s : EvdevSession T) (count ready : ℕ)
    (origins queued : List (Option ℕ)) : Prop where
  tail_lt : s.client.tail < bufsize
  head_eq : s.client.head = (s.client.tail + count) % bufsize
  packetHead_eq : s.client.packetHead = (s.client.tail + ready) % bufsize
  ready_le : ready ≤ count
  count_lt : count < bufsize
  fetchedFrom : List.Forall₂ (ComesFrom s.passed) origins s.fetched
  queuedFrom : List.Forall₂ (ComesFrom s.passed) queued
    (ringList s.client.buffer bufsize s.client.tail count)
  trail : Trail s.passed.length (origins ++ queued)
  complete : ∀ i, some i ∈ origins ++ queued.take ready → Complete s.passed i

section Steps

variable {bufsize : ℕ} {s : EvdevSession T} {count ready : ℕ} {origins queued : List (Option ℕ)}

theorem Represents.length_queued (h : Represents bufsize s count ready origins queued) :
    queued.length = count := by
  have hlen := h.queuedFrom.length_eq
  rwa [ringList_length] at hlen

theorem Represents.full_iff (h : Represents bufsize s count ready origins queued) :
    (s.client.head + 1) % bufsize = s.client.tail ↔ count + 1 = bufsize := by
  have htail := h.tail_lt
  have hcount := h.count_lt
  rw [h.head_eq, ring_pos_head_succ]
  constructor
  · intro heq
    -- one cell stays free, so the two cannot meet before
    by_contra hne
    exact ring_pos_ne_tail htail (by omega) heq
  · intro heq
    rw [heq, Nat.add_mod_right, Nat.mod_eq_of_lt htail]

theorem Represents.store_room (h : Represents bufsize s count ready origins queued)
    (hroom : count + 1 < bufsize) (event : InputEvent T) :
    Represents bufsize ⟨s.client.store bufsize event, s.passed ++ [event], s.fetched⟩ (count + 1)
      ready origins (queued ++ [some s.passed.length]) := by
  have hne : (s.client.head + 1) % bufsize ≠ s.client.tail := fun heq => by
    have := h.full_iff.mp heq
    omega
  have hready := h.ready_le
  simp only [EvdevClient.store, if_neg hne]
  refine ⟨h.tail_lt, ?_, h.packetHead_eq, by omega, hroom,
    h.fetchedFrom.imp fun _ _ hc => hc.append event, ?_, ?_, ?_⟩
  · rw [h.head_eq, ring_pos_head_succ]
  · rw [h.head_eq, ringList_push _ event h.count_lt]
    -- the queue gets the event at its end
    refine List.rel_append (h.queuedFrom.imp fun _ _ hc => hc.append event) ?_
    exact .cons (by simp [ComesFrom]) .nil
  · rw [List.length_append, ← List.append_assoc]
    exact h.trail.push
  · intro i hi
    -- what could be fetched before has not changed
    rw [List.take_append_of_le_length (by rw [h.length_queued]; exact hready)] at hi
    exact (h.complete i hi).append event

/-- Without room, the queue becomes a marker and the event, none of which can be fetched. -/
theorem Represents.store_full (h : Represents bufsize s count ready origins queued)
    (hfull : count + 1 = bufsize) (hsize : 2 < bufsize) (event : InputEvent T) :
    Represents bufsize ⟨s.client.store bufsize event, s.passed ++ [event], s.fetched⟩ 2 0 origins
      [none, some s.passed.length] := by
  have hpos : 0 < bufsize := by omega
  have htail := h.tail_lt
  have hmeet := h.full_iff.mpr hfull
  -- the marker goes to the cell before that of the event
  have hbefore : (s.client.tail + bufsize - 2) % bufsize + 1 ≡ s.client.head [MOD bufsize] := by
    rw [h.head_eq]
    refine ((Nat.mod_modEq _ _).add_right 1).trans ?_
    rw [show s.client.tail + bufsize - 2 + 1 = s.client.tail + count from by omega]
    exact (Nat.mod_modEq _ _).symm
  have hhead : s.client.head < bufsize := h.head_eq ▸ Nat.mod_lt _ hpos
  have hcell : ((s.client.tail + bufsize - 2) % bufsize + 1) % bufsize = s.client.head := by
    rw [← Nat.mod_eq_of_lt hhead]
    exact hbefore
  have hne : s.client.head ≠ (s.client.tail + bufsize - 2) % bufsize := by
    intro heq
    have hsucc : s.client.head + 1 ≡ s.client.head [MOD bufsize] := by
      nth_rewrite 1 [heq]
      exact hbefore
    have hdvd := (Nat.modEq_iff_dvd' (Nat.le_succ _)).mp hsucc.symm
    have := Nat.le_of_dvd (by omega) hdvd
    omega
  -- the queue is the marker and the event
  have hring : ringList (Function.update (Function.update s.client.buffer s.client.head event)
      ((s.client.tail + bufsize - 2) % bufsize) ⟨event.time, evSyn, synDropped, 0⟩) bufsize
      ((s.client.tail + bufsize - 2) % bufsize) 2 =
      [⟨event.time, evSyn, synDropped, 0⟩, event] := by
    rw [ringList_pop _ _ (Nat.mod_lt _ hpos), hcell, ringList_pop _ _ hhead, Function.update_self,
      Function.update_of_ne hne, Function.update_self]
    rfl
  simp only [EvdevClient.store, hmeet, if_true, EvdevClient.dropAll]
  refine ⟨Nat.mod_lt _ hpos, ?_, ?_, by omega, hsize,
    h.fetchedFrom.imp fun _ _ hc => hc.append event, ?_, ?_, ?_⟩
  · have hsum : s.client.tail + bufsize - 2 + 2 = s.client.tail + bufsize := by omega
    rw [Nat.mod_add_mod, hsum, Nat.add_mod_right, Nat.mod_eq_of_lt htail]
  · rw [Nat.add_zero, Nat.mod_mod]
  · rw [hring]
    exact .cons ⟨rfl, rfl, rfl⟩ (.cons (by simp [ComesFrom]) .nil)
  · rw [List.length_append]
    exact h.trail.drop
  · intro i hi
    have horigin : some i ∈ origins := by simpa using hi
    exact (h.complete i (List.mem_append_left _ horigin)).append event

theorem Represents.report (h : Represents bufsize s count ready origins queued)
    (hcomplete : ∀ i < s.passed.length, Complete s.passed i) :
    Represents bufsize { s with client := { s.client with packetHead := s.client.head } } count
      count origins queued := by
  refine ⟨h.tail_lt, h.head_eq, h.head_eq, Nat.le_refl _, h.count_lt, h.fetchedFrom, h.queuedFrom,
    h.trail, ?_⟩
  intro i hi
  rw [← h.length_queued, List.take_length] at hi
  exact hcomplete i (h.trail.bounded i hi)

/-- The state between two calls -/
def Consistent (bufsize : ℕ) (s : EvdevSession T) : Prop :=
  ∃ count ready origins queued, Represents bufsize s count ready origins queued

theorem consistent_pass (hsize : 2 < bufsize) (h : Consistent bufsize s) (event : InputEvent T) :
    Consistent bufsize (s.pass bufsize event) := by
  obtain ⟨count, ready, origins, queued, h⟩ := h
  obtain ⟨count', ready', queued', hstore⟩ : ∃ count' ready' queued',
      Represents bufsize ⟨s.client.store bufsize event, s.passed ++ [event], s.fetched⟩ count'
        ready' origins queued' := by
    by_cases hfull : count + 1 = bufsize
    · exact ⟨_, _, _, h.store_full hfull hsize event⟩
    · exact ⟨_, _, _, h.store_room (by have := h.count_lt; omega) event⟩
  rw [EvdevSession.pass, EvdevClient.passEvent]
  split
  · rename_i hreport
    -- the report makes the whole queue ready
    refine ⟨_, _, _, _, hstore.report fun i hi => complete_of_isReport hreport ?_⟩
    simpa using hi
  · exact ⟨_, _, _, _, hstore⟩

theorem consistent_fetch (h : Consistent bufsize s) : Consistent bufsize (s.fetch bufsize) := by
  obtain ⟨count, ready, origins, queued, h⟩ := h
  have htail := h.tail_lt
  have hready := h.ready_le
  have hcount := h.count_lt
  rw [EvdevSession.fetch, EvdevClient.evdevFetchNextEvent]
  split
  · rename_i heq
    split at heq
    · -- the oldest event moves from the queue to the fetched events
      rename_i hne
      cases heq
      -- there is something to fetch, since `packet_head` is not at `tail`
      have hpos : 0 < ready := by
        rcases Nat.eq_zero_or_pos ready with hzero | hpos
        · have hpacket := h.packetHead_eq
          rw [hzero, Nat.add_zero, Nat.mod_eq_of_lt htail] at hpacket
          exact absurd hpacket hne
        · exact hpos
      obtain ⟨n, rfl⟩ : ∃ n, count = n + 1 := ⟨count - 1, by omega⟩
      obtain ⟨m, rfl⟩ : ∃ m, ready = m + 1 := ⟨ready - 1, by omega⟩
      have hqueued := h.queuedFrom
      rw [ringList_pop _ _ htail] at hqueued
      obtain ⟨o, rest, ho, hrest, rfl⟩ := List.forall₂_cons_right_iff.mp hqueued
      refine ⟨n, m, origins ++ [o], rest, Nat.mod_lt _ (by omega), ?_, ?_, by omega, by omega, ?_,
        hrest, ?_, ?_⟩
      · rw [ring_pos_tail_succ]
        exact h.head_eq
      · rw [ring_pos_tail_succ]
        exact h.packetHead_eq
      · exact List.rel_append h.fetchedFrom (.cons ho .nil)
      · rw [List.append_assoc]
        exact h.trail
      · intro i hi
        rw [List.append_assoc] at hi
        exact h.complete i hi
    · -- nothing is fetched
      cases heq
      refine ⟨count, ready, origins, queued, ?_⟩
      simpa using h

theorem Represents.ordered (h : Represents bufsize s count ready origins queued) :
    Ordered bufsize s.client := by
  have htail := h.tail_lt
  have hready := h.ready_le
  have hcount := h.count_lt
  rw [Ordered, h.packetHead_eq, h.head_eq, ring_distance htail (by omega),
    ring_distance htail hcount]
  exact hready

theorem Represents.delivery (h : Represents bufsize s count ready origins queued) :
    Delivery s.passed s.fetched origins := by
  refine ⟨h.fetchedFrom, ?_, (List.isChain_append.mp h.trail.gapless).1,
    fun i hi => h.complete i (List.mem_append_left _ hi)⟩
  have hincreasing := h.trail.increasing
  rw [List.filterMap_append] at hincreasing
  exact (List.pairwise_append.mp hincreasing).1

end Steps

theorem two_lt_evdevComputeBufferSize (hint : ℕ) : 2 < evdevComputeBufferSize hint := by
  have hle : max (hint * 8 % 2 ^ 32) 64 ≤ evdevComputeBufferSize hint :=
    Nat.le_pow_clog (by decide) _
  omega

/-- **The queue of a client**: after any events and fetches, `tail`, `packet_head` and `head` follow
    each other around the ring, and the fetched events are a subsequence of the passed ones with
    markers, with a marker wherever events are missing and nothing of a packet whose report has not
    been passed. -/
theorem delivery_of_calls (hint : ℕ) (zero : InputEvent T) (calls : List (EvdevCall T)) :
    let s := calls.foldl (EvdevSession.step (evdevComputeBufferSize hint)) (.start zero)
    Ordered (evdevComputeBufferSize hint) s.client ∧
      ∃ origins, Delivery s.passed s.fetched origins := by
  have hsize := two_lt_evdevComputeBufferSize hint
  have hstart : Consistent (evdevComputeBufferSize hint) (EvdevSession.start zero) :=
    ⟨0, 0, [], [], show 0 < _ by omega, (Nat.zero_mod _).symm, (Nat.zero_mod _).symm,
      Nat.le_refl _, by omega, .nil, .nil, .nil, by simp⟩
  have hkeep : ∀ (s : EvdevSession T) (call : EvdevCall T),
      Consistent (evdevComputeBufferSize hint) s →
      Consistent (evdevComputeBufferSize hint) (s.step (evdevComputeBufferSize hint) call) := by
    intro s call hs
    cases call with
    | fetch => exact consistent_fetch hs
    | pass time vals =>
      exact List.foldlRecOn vals _ hs fun s hs v _ => consistent_pass hsize hs (v.event time)
  obtain ⟨count, ready, origins, queued, h⟩ :=
    List.foldlRecOn calls _ hstart fun s hs call _ => hkeep s call hs
  exact ⟨h.ordered, origins, h.delivery⟩

end NucKernel.Input
