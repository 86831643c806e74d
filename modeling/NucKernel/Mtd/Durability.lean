import NucKernel.Mtd.BlockCache

/-!
# What mtdblock promises about the flash

The cached sector of `drivers/mtd/mtdblock.c` is written back from three places: by a flush, when
the device is released, and by a write that needs the cache for another sector. Only the last one
looks at the result.

## Modelling

- A byte is accepted when `writesect` has returned 0 for its block. After an error the contents of
  the block are up to the medium.
- `mtdblock_release` returns nothing, so whatever it loses is lost without a report.
- A device that is not open has no cache: it is freed with the last release.
-/

namespace NucKernel.Mtd

open NucKernel.Library

variable {α : Type}

def openDevice (s : Mtdblk α) : Mtdblk α :=
  if s.count ≠ 0 then { s with count := s.count + 1 }
  else { s with count := 1, cacheState := .empty }

def release (d : Device) (s : Mtdblk α) : Mtdblk α :=
  { (writeCachedData d s).2 with count := (writeCachedData d s).2.count - 1 }

structure DurableSession (α : Type) where
  blk : Mtdblk α
  accepted : ℕ → Option α

inductive DurableCall (α : Type)
  | write (block : ℕ) (buf : ℕ → α) (faults : List (Option (Fault α)))
  | flush (faults : List (Option (Fault α)))
  | openDevice
  | release (faults : List (Option (Fault α)))

def Mtdblk.withFaults (s : Mtdblk α) (faults : List (Option (Fault α))) : Mtdblk α :=
  { s with faults := faults }

def DurableSession.write (d : Device) (s : DurableSession α) (block : ℕ) (buf : ℕ → α)
    (faults : List (Option (Fault α))) : DurableSession α :=
  let r := writesect d (s.blk.withFaults faults) block buf
  ⟨r.2, overwrite s.accepted (block * 512) 512 fun i => if r.1 = none then some (buf i) else none⟩

def durableStep (d : Device) (s : DurableSession α) : DurableCall α → Option (DurableSession α)
  | .write block buf faults =>
    if s.blk.count ≠ 0 ∧ (block + 1) * 512 ≤ d.size then some (s.write d block buf faults) else none
  | .flush faults =>
    if s.blk.count ≠ 0 then some ⟨(flush d (s.blk.withFaults faults)).2, s.accepted⟩ else none
  | .openDevice => some ⟨openDevice s.blk, s.accepted⟩
  | .release faults =>
    if s.blk.count ≠ 0 then some ⟨release d (s.blk.withFaults faults), s.accepted⟩ else none

def DurableSession.start (flash : ℕ → α) : DurableSession α :=
  ⟨⟨flash, flash, 0, .empty, 0, []⟩, fun _ => none⟩

/-- Accepted bytes are in the flash or in the cache; and if a flush returns 0, they are in the
    flash. -/
def Durable (d : Device) (s : DurableSession α) (c : DurableCall α) (s' : DurableSession α) :
    Prop :=
  (∀ a v, s'.accepted a = some v → view d s'.blk a = v) ∧
    match c with
    | .flush faults => (flush d (s.blk.withFaults faults)).1 = none →
        ∀ a v, s'.accepted a = some v → s'.blk.flash a = v
    | _ => True

/-- Every failure is reported, and none occurs when a flush or the last release writes the cached
    sector back; blocks are below 4 GiB. -/
def WritesBack (d : Device) (s : DurableSession α) (c : DurableCall α) (_ : DurableSession α) :
    Prop :=
  match c with
  | .write block _ faults => block < 2 ^ 23 ∧ ∀ fault, some fault ∈ faults → fault.Reported d
  | .flush faults => (∀ fault, some fault ∈ faults → fault.Reported d) ∧
      (s.blk.cacheState = .dirty → faults.head?.join = none)
  | .openDevice => True
  | .release faults => (∀ fault, some fault ∈ faults → fault.Reported d) ∧
      (s.blk.count = 1 → s.blk.cacheState = .dirty → faults.head?.join = none)

structure Kept (d : Device) (s : DurableSession α) : Prop where
  coherent : s.blk.count ≠ 0 → Coherent d s.blk
  reported : ∀ fault, some fault ∈ s.blk.faults → fault.Reported d
  seen : ∀ a v, s.accepted a = some v → view d s.blk a = v

section Steps

variable {d : Device} {s s' : DurableSession α}

theorem kept_start (flash : ℕ → α) : Kept d (.start flash) :=
  ⟨fun h => absurd rfl h, (fun _ h => nomatch h), fun _ _ h => nomatch h⟩

theorem Coherent.withFaults {s : Mtdblk α} {faults : List (Option (Fault α))} (hc : Coherent d s)
    (hreported : ∀ fault, some fault ∈ faults → fault.Reported d) :
    Coherent d (s.withFaults faults) :=
  ⟨hc.isOpen, hc.not_clean, hc.aligned, hc.crosses, hc.inside, hreported⟩

theorem kept_write {block : ℕ} {buf : ℕ → α} {faults : List (Option (Fault α))} (h : Kept d s)
    (hopen : s.blk.count ≠ 0) (hblock : block < 2 ^ 23)
    (hreported : ∀ fault, some fault ∈ faults → fault.Reported d) :
    Kept d (s.write d block buf faults) := by
  have hwrote := writesect_spec buf ((h.coherent hopen).withFaults hreported) hblock
  refine ⟨fun _ => hwrote.coherent, hwrote.coherent.reported, ?_⟩
  intro a v hav
  simp only [DurableSession.write] at hav ⊢
  by_cases ha : block * 512 ≤ a ∧ a < block * 512 + 512
  · -- a byte of the block is accepted only if 0 was returned
    rw [overwrite_inside _ _ _ _ ha] at hav
    obtain ⟨hok, hv⟩ := Option.ite_none_right_eq_some.mp hav
    rw [hwrote.done hok, overwrite_inside _ _ _ _ ha]
    exact Option.some.inj hv
  · rw [overwrite_outside _ _ _ _ ha] at hav
    exact (hwrote.frame a ha).trans (h.seen a v hav)

theorem kept_flush {faults : List (Option (Fault α))} (h : Kept d s) (hopen : s.blk.count ≠ 0)
    (hreported : ∀ fault, some fault ∈ faults → fault.Reported d) :
    Kept d ⟨(flush d (s.blk.withFaults faults)).2, s.accepted⟩ := by
  obtain ⟨hc, hview, -⟩ := writeCachedData_spec ((h.coherent hopen).withFaults hreported)
  exact ⟨fun _ => hc, hc.reported, fun a v hav => (congrFun hview a).trans (h.seen a v hav)⟩

theorem kept_open (h : Kept d s) : Kept d ⟨openDevice s.blk, s.accepted⟩ := by
  unfold openDevice
  by_cases hcount : s.blk.count ≠ 0
  · -- the device was open already
    have hc := h.coherent hcount
    rw [if_pos hcount]
    refine ⟨fun _ => ⟨Nat.succ_ne_zero _, hc.not_clean, hc.aligned, hc.crosses, hc.inside,
      h.reported⟩, h.reported, ?_⟩
    intro a v hav
    rw [← h.seen a v hav]
    simp [view, hcount]
  · -- a closed device has no cache, so what was seen is the flash
    rw [if_neg hcount]
    refine ⟨fun _ => .of_empty Nat.one_ne_zero rfl h.reported, h.reported, ?_⟩
    intro a v hav
    rw [← h.seen a v hav]
    simp [view, hcount]

theorem writeCachedData_count (d : Device) (s : Mtdblk α) :
    (writeCachedData d s).2.count = s.count := by
  unfold writeCachedData eraseWrite writeFlash
  split
  · rfl
  · split
    · rfl
    · split
      · rfl
      · rename_i fault _
        cases fault <;> rfl

theorem kept_release {faults : List (Option (Fault α))} (h : Kept d s) (hopen : s.blk.count ≠ 0)
    (hreported : ∀ fault, some fault ∈ faults → fault.Reported d)
    (hfault : s.blk.count = 1 → s.blk.cacheState = .dirty → faults.head?.join = none) :
    Kept d ⟨release d (s.blk.withFaults faults), s.accepted⟩ := by
  have hc₀ := (h.coherent hopen).withFaults hreported
  obtain ⟨hc, hview, hempty⟩ := writeCachedData_spec hc₀
  have hcount : (writeCachedData d (s.blk.withFaults faults)).2.count = s.blk.count :=
    writeCachedData_count d _
  -- what was accepted is seen after the write-back
  have hseen : ∀ a v, s.accepted a = some v →
      view d (writeCachedData d (s.blk.withFaults faults)).2 a = v := by
    intro a v hav
    rw [hview]
    exact h.seen a v hav
  by_cases hlast : s.blk.count = 1
  · -- the cache is freed, and the flash is what is left
    have hclosed : (release d (s.blk.withFaults faults)).count = 0 := by
      rw [release, hcount, hlast]
    have hflash := view_of_empty (d := d) (hempty (writeCachedData_ok hc₀ (hfault hlast)))
    refine ⟨fun hne => absurd hclosed hne, hc.reported, ?_⟩
    intro a v hav
    rw [← hseen a v hav, hflash]
    exact congrFun (if_neg fun hcached => hcached.1 hclosed) a
  · -- other users are left, and a dirty sector stays in the cache for them
    have hrest : (release d (s.blk.withFaults faults)).count ≠ 0 := by
      change (writeCachedData d (s.blk.withFaults faults)).2.count - 1 ≠ 0
      rw [hcount]
      omega
    refine ⟨fun _ => ⟨hrest, hc.not_clean, hc.aligned, hc.crosses, hc.inside, hc.reported⟩,
      hc.reported, ?_⟩
    intro a v hav
    have hsame : view d (release d (s.blk.withFaults faults)) =
        view d (writeCachedData d (s.blk.withFaults faults)).2 := by
      simp only [view, hrest, hc.isOpen, ne_eq, not_false_iff, true_and]
      rfl
    rw [hsame]
    exact hseen a v hav

theorem kept_step (h : Kept d s) {c : DurableCall α} (hstep : durableStep d s c = some s')
    (hback : WritesBack d s c s') : Kept d s' := by
  cases c with
  | write block buf faults =>
    obtain ⟨⟨hopen, -⟩, rfl⟩ := of_guard_eq_some hstep
    exact kept_write h hopen hback.1 hback.2
  | flush faults =>
    obtain ⟨hopen, rfl⟩ := of_guard_eq_some hstep
    exact kept_flush h hopen hback.1
  | openDevice =>
    cases hstep
    exact kept_open h
  | release faults =>
    obtain ⟨hopen, rfl⟩ := of_guard_eq_some hstep
    exact kept_release h hopen hback.1 hback.2

theorem durable_step (h : Kept d s) {c : DurableCall α} (hstep : durableStep d s c = some s')
    (hback : WritesBack d s c s') : Durable d s c s' := by
  refine ⟨(kept_step h hstep hback).seen, ?_⟩
  cases c with
  | flush faults =>
    -- a flush that returns 0 has emptied the cache
    obtain ⟨hopen, rfl⟩ := of_guard_eq_some hstep
    intro _ a v hav
    rw [flash_flush ((h.coherent hopen).withFaults hback.1) hback.2]
    exact h.seen a v hav
  | write block buf faults => trivial
  | openDevice => trivial
  | release faults => trivial

end Steps

/-- **Durability**: in every sequence of calls with any faults of the medium that are reported, but
    none while a flush or the last release writes the cached sector back, and with blocks below
    4 GiB, accepted bytes are never lost, and they are on the flash when a flush has returned 0. -/
theorem durable_of_writeBack (d : Device) (flash : ℕ → α) (calls : List (DurableCall α))
    (h : Along (durableStep d) (WritesBack d) (.start flash) calls) :
    Along (durableStep d) (Durable d) (.start flash) calls := by
  refine along_of_along (I := Kept d) ?_ ?_ (kept_start flash) h
  · intro s c s' hs hstep hback
    exact kept_step hs hstep hback
  · intro s c s' hs hstep hback
    exact durable_step hs hstep hback

theorem durable_retry :
    Along (durableStep twoSectors) (Durable twoSectors) (.start fun _ => false)
      [.openDevice, .write 0 (fun _ => true) [],
        .write 2 (fun _ => true) [some (.erase fun _ => false)],
        .write 2 (fun _ => true) [], .flush [], .release []] := by
  have hnone : ∀ fault : Fault Bool, some fault ∈ [] → fault.Reported twoSectors :=
    fun _ hmem => nomatch hmem
  have herase : ∀ fault : Fault Bool, some fault ∈ [some (.erase fun _ => false)] →
      fault.Reported twoSectors := by
    intro fault hmem
    cases Option.some.inj (List.mem_singleton.mp hmem)
    trivial
  apply durable_of_writeBack
  rintro _ ⟨⟩
  refine ⟨trivial, ?_⟩
  rintro _ ⟨⟩
  refine ⟨⟨by decide, hnone⟩, ?_⟩
  rintro _ ⟨⟩
  refine ⟨⟨by decide, herase⟩, ?_⟩
  rintro _ ⟨⟩
  refine ⟨⟨by decide, hnone⟩, ?_⟩
  rintro _ ⟨⟩
  refine ⟨⟨hnone, fun _ => rfl⟩, ?_⟩
  rintro _ ⟨⟩
  exact ⟨⟨hnone, fun _ _ => rfl⟩, trivial⟩

/-- The program of the cached sector fails: a flush returns 0 all the same, and the last release
    frees the cache. And if the erase fails with `erase.state` as the only report, a write that
    needs the cache for another sector returns 0 and has lost the cached one. -/
theorem writeBack_lost :
    ¬ Along (durableStep twoSectors) (Durable twoSectors) (.start fun _ => false)
        [.openDevice, .write 0 (fun _ => true) [], .flush [some (.program fun _ => false)]] ∧
      ¬ Along (durableStep twoSectors) (Durable twoSectors) (.start fun _ => false)
        [.openDevice, .write 0 (fun _ => true) [], .release [some (.program fun _ => false)]] ∧
      ¬ Along (durableStep twoSectors) (Durable twoSectors) (.start fun _ => false)
        [.openDevice, .write 0 (fun _ => true) [],
          .write 2 (fun _ => true) [some (.eraseState fun _ => false)]] := by
  refine ⟨?_, ?_, ?_⟩
  · intro h
    have hdurable := ((((h _ rfl).2 _ rfl).2) _ rfl).1
    exact absurd (hdurable.2 rfl 0 true (by decide +kernel)) (by decide +kernel)
  · intro h
    have hdurable := ((((h _ rfl).2 _ rfl).2) _ rfl).1
    exact absurd (hdurable.1 0 true (by decide +kernel)) (by decide +kernel)
  · intro h
    have hdurable := ((((h _ rfl).2 _ rfl).2) _ rfl).1
    exact absurd (hdurable.1 0 true (by decide +kernel)) (by decide +kernel)

end NucKernel.Mtd
