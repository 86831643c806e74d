import NucKernel.Drm.MmSafety

/-!
# Searching for the smallest hole

With `best_match` a search goes over all holes and keeps the best one that can hold the request.
What it compares is the size of the node in front of a hole, not that of the hole, and a node whose
size is the largest word (the head, when a single address is managed) is never better than nothing.
-/

namespace NucKernel.Drm

open NucKernel.Library

namespace DrmMm

variable {s : DrmMm} {lo hi : ℕ}

/-- The length of the hole behind a node -/
def holeSize (s : DrmMm) (n : ℕ) : ℕ := s.holeNodeEnd n - s.holeNodeStart n

/-- No hole that is suitable is smaller than the one behind `n`. -/
def Best (s : DrmMm) (r : Request) (n : ℕ) : Prop :=
  s.Suitable r n ∧ ∀ m, s.Suitable r m → s.holeSize n ≤ s.holeSize m

/-- The node `n` is the first one on the stack that is smallest among those in front of a suitable
    hole. -/
def FirstSmallest (s : DrmMm) (r : Request) (n : ℕ) : Prop :=
  s.Suitable r n ∧ ∃ before after, s.holeStack = before ++ n :: after ∧
    (∀ m ∈ before, s.Suitable r m → (s.node n).size < (s.node m).size) ∧
      ∀ m ∈ after, s.Suitable r m → (s.node n).size ≤ (s.node m).size

/-- No hole is suitable, or the first smallest node in front of one has not the largest size there
    is, and a smallest hole. -/
def SmallestAgree (s : DrmMm) (r : Request) : Prop :=
  (∀ n, ¬ s.Suitable r n) ∨
    ∃ n, s.FirstSmallest r n ∧ (s.node n).size < 2 ^ 32 - 1 ∧ s.Best r n

theorem FirstSmallest.eq {r : Request} {n m : ℕ} (hn : s.FirstSmallest r n)
    (hm : s.FirstSmallest r m) : n = m := by
  obtain ⟨hnok, before, after, hsplit, hnlt, hnle⟩ := hn
  obtain ⟨hmok, before', after', hsplit', hmlt, hmle⟩ := hm
  rw [hsplit] at hsplit'
  rcases List.append_eq_append_iff.mp hsplit' with ⟨l, hl, htail⟩ | ⟨l, hl, htail⟩
  · -- `n` stands before `m`, or is `m`
    cases l with
    | nil => exact (List.cons.inj htail).1
    | cons a l =>
      obtain ⟨rfl, hafter⟩ := List.cons.inj htail
      have hlt := hmlt n (by simp [hl]) hnok
      have hle := hnle m (by simp [hafter]) hmok
      omega
  · cases l with
    | nil => exact (List.cons.inj htail).1.symm
    | cons a l =>
      obtain ⟨rfl, hafter⟩ := List.cons.inj htail
      have hlt := hnlt m (by simp [hl]) hmok
      have hle := hmle n (by simp [hafter]) hnok
      omega

theorem searchFree_bestMatch (accept : ℕ → ℕ → Bool) {l : List ℕ}
    (hl : ∀ n ∈ l, (s.node n).holeFollows = true) (best : Option ℕ) (bestSize : ℕ) :
    ∃ res, s.searchFree accept true l best bestSize = some res ∧
      ((res = best ∧ ∀ m ∈ l, accept (s.holeNodeStart m) (s.holeNodeEnd m) = true →
          bestSize ≤ (s.node m).size) ∨
        ∃ before n after, l = before ++ n :: after ∧ res = some n ∧
          accept (s.holeNodeStart n) (s.holeNodeEnd n) = true ∧ (s.node n).size < bestSize ∧
          (∀ m ∈ before, accept (s.holeNodeStart m) (s.holeNodeEnd m) = true →
            (s.node n).size < (s.node m).size) ∧
          ∀ m ∈ after, accept (s.holeNodeStart m) (s.holeNodeEnd m) = true →
            (s.node n).size ≤ (s.node m).size) := by
  induction l generalizing best bestSize with
  | nil => exact ⟨best, rfl, .inl ⟨rfl, nofun⟩⟩
  | cons entry l ih =>
    have hflags : ∀ n ∈ l, (s.node n).holeFollows = true := fun n hn =>
      hl n (List.mem_cons_of_mem entry hn)
    rw [searchFree, if_neg (not_not.mpr (hl entry (List.mem_cons_self ..)))]
    by_cases haccept : accept (s.holeNodeStart entry) (s.holeNodeEnd entry) = true
    · rw [if_neg (not_not.mpr haccept), if_neg (not_not.mpr rfl)]
      by_cases hsmaller : (s.node entry).size < bestSize
      · -- the entry is the best one so far
        rw [if_pos hsmaller]
        obtain ⟨res, hres, ⟨rfl, hleast⟩ |
          ⟨before, n, after, rfl, rfl, hok, hlt, hbefore, hafter⟩⟩ :=
          ih hflags (some entry) (s.node entry).size
        · exact ⟨_, hres, .inr ⟨[], entry, l, rfl, rfl, haccept, hsmaller, nofun, hleast⟩⟩
        · exact ⟨_, hres, .inr ⟨entry :: before, n, after, rfl, rfl, hok, hlt.trans hsmaller,
            List.forall_mem_cons.mpr ⟨fun _ => hlt, hbefore⟩, hafter⟩⟩
      · rw [if_neg hsmaller]
        obtain ⟨res, hres, ⟨rfl, hleast⟩ |
          ⟨before, n, after, rfl, rfl, hok, hlt, hbefore, hafter⟩⟩ :=
          ih hflags best bestSize
        · exact ⟨_, hres, .inl ⟨rfl,
            List.forall_mem_cons.mpr ⟨fun _ => not_lt.mp hsmaller, hleast⟩⟩⟩
        · exact ⟨_, hres, .inr ⟨entry :: before, n, after, rfl, rfl, hok, hlt,
            List.forall_mem_cons.mpr ⟨fun _ => by omega, hbefore⟩, hafter⟩⟩
    · rw [if_pos haccept]
      obtain ⟨res, hres, ⟨rfl, hleast⟩ | ⟨before, n, after, rfl, rfl, hok, hlt, hbefore, hafter⟩⟩ :=
        ih hflags best bestSize
      · exact ⟨_, hres, .inl ⟨rfl, List.forall_mem_cons.mpr ⟨(absurd · haccept), hleast⟩⟩⟩
      · exact ⟨_, hres, .inr ⟨entry :: before, n, after, rfl, rfl, hok, hlt,
          List.forall_mem_cons.mpr ⟨(absurd · haccept), hbefore⟩, hafter⟩⟩

/-- A search that accepts the holes that are suitable returns the first smallest node, unless all
    the nodes have the largest size. -/
theorem Inv.searchFree_firstSmallest (h : s.Inv lo hi) {r : Request} {accept : ℕ → ℕ → Bool}
    (haccept : ∀ m ∈ s.nodeList, accept (s.holeNodeStart m) (s.holeNodeEnd m) = true ↔
      r.FitsIn (s.holeNodeStart m) (s.holeNodeEnd m)) :
    (s.searchFree accept true s.holeStack none (2 ^ 32 - 1) = some none ∧
        ∀ m, s.Suitable r m → 2 ^ 32 - 1 ≤ (s.node m).size) ∨
      ∃ n, s.searchFree accept true s.holeStack none (2 ^ 32 - 1) = some (some n) ∧
        s.FirstSmallest r n ∧ (s.node n).size < 2 ^ 32 - 1 := by
  have hsuitable : ∀ m, s.Suitable r m ↔
      m ∈ s.holeStack ∧ accept (s.holeNodeStart m) (s.holeNodeEnd m) = true := fun m => by
    rw [Suitable, h.stack m, and_assoc]
    apply and_congr_right
    intro hm
    rw [h.flag m hm, haccept m hm]
  obtain ⟨res, hres, ⟨rfl, hleast⟩ | ⟨before, n, after, hstack, rfl, hok, hlt, hbefore, hafter⟩⟩ :=
    searchFree_bestMatch accept (fun n hn => ((h.stack n).mp hn).2) none (2 ^ 32 - 1)
  · refine .inl ⟨hres, fun m hm => ?_⟩
    obtain ⟨hmem, hok⟩ := (hsuitable m).mp hm
    exact hleast m hmem hok
  · have hmem : n ∈ s.holeStack := by simp [hstack]
    refine .inr ⟨n, hres, ⟨(hsuitable n).mpr ⟨hmem, hok⟩, before, after, hstack, ?_, ?_⟩, hlt⟩
    · exact fun m hm hmok => hbefore m hm ((hsuitable m).mp hmok).2
    · exact fun m hm hmok => hafter m hm ((hsuitable m).mp hmok).2

/-- Whenever a hole is suitable, the search returns a best one. -/
def Found (s : DrmMm) (r : Request) (res : Option (Option ℕ)) : Prop :=
  (∃ m, s.Suitable r m) → ∃ n, res = some (some n) ∧ s.Best r n

theorem Inv.found_iff (h : s.Inv lo hi) {r : Request} {accept : ℕ → ℕ → Bool}
    (haccept : ∀ m ∈ s.nodeList, accept (s.holeNodeStart m) (s.holeNodeEnd m) = true ↔
      r.FitsIn (s.holeNodeStart m) (s.holeNodeEnd m)) :
    s.Found r (s.searchFree accept true s.holeStack none (2 ^ 32 - 1)) ↔ s.SmallestAgree r := by
  rcases h.searchFree_firstSmallest haccept with ⟨hres, hlarge⟩ | ⟨n, hres, hfirst, hlt⟩ <;>
    rw [hres]
  · constructor
    · refine fun hfound => .inl fun m hm => ?_
      obtain ⟨n, hn, -⟩ := hfound ⟨m, hm⟩
      exact nomatch hn
    · rintro (hnone | ⟨n, hfirst, hlt, -⟩) ⟨m, hm⟩
      · exact absurd hm (hnone m)
      · exact absurd (hlarge n hfirst.1) (not_le.mpr hlt)
  · constructor
    · intro hfound
      obtain ⟨m, hm, hbest⟩ := hfound ⟨n, hfirst.1⟩
      cases hm
      exact .inr ⟨n, hfirst, hlt, hbest⟩
    · rintro (hnone | ⟨m, hm, -, hbest⟩) -
      · exact absurd hfirst.1 (hnone n)
      · exact ⟨m, by rw [hfirst.eq hm], hbest⟩

end DrmMm

/-- **Best match**: after every run of calls, a search for a request whose sums do not overflow
    returns a smallest hole among those that can hold it, whenever there is one, exactly if the
    first smallest of the nodes in front of these holes has not the largest size and a smallest
    hole. -/
theorem drm_mm_best_match (start size : ℕ) (hsize : 1 ≤ size) (hend : start + size < 2 ^ 32)
    (ops : List DrmMmOp)
    (hops : Admitted drmMmStep (fun s op => op.Fits (start + size) s) (.init start size) ops)
    {t : DrmMmRun} (hrun : runFrom drmMmStep (.init start size) ops = some t) (r : Request) :
    (r.start = 0 → r.stop = 2 ^ 32 → start + size + r.alignment < 2 ^ 32 →
      (t.mm.Found r (t.mm.drmMmSearchFreeGeneric r.size r.alignment true) ↔
        t.mm.SmallestAgree r)) ∧
      (max r.start (start + size) + r.alignment + r.size < 2 ^ 32 →
        (t.mm.Found r
            (t.mm.drmMmSearchFreeInRangeGeneric r.size r.alignment r.start r.stop true) ↔
          t.mm.SmallestAgree r)) := by
  have hinv := DrmMmRun.Inv.of_run start size hsize hend ops hops hrun
  obtain ⟨rsize, alignment, rstart, stop⟩ := r
  constructor
  · rintro ⟨⟩ ⟨⟩ hfit
    exact hinv.mm.found_iff fun m hm => (hinv.mm.check_spec hm hfit).1
  · intro hfit
    exact hinv.mm.found_iff fun m hm => (hinv.mm.checkRange_spec hm stop hfit).1

/-- A hole of 10 addresses behind a node of 10, and one of 60 behind a node of 20 -/
theorem drm_mm_best_match_first :
    ∃ n s, runFrom drmMmStep (.init 0 100)
        [.createBlock (some 1) 0 10, .createBlock (some 2) 20 20] = some s ∧
      s.mm.drmMmSearchFreeInRangeGeneric 5 4 0 100 true = some (some n) ∧
      s.mm.Best ⟨5, 4, 0, 100⟩ n := by
  have hfound := (drm_mm_best_match 0 100 (by decide) (by decide)
    [.createBlock (some 1) 0 10, .createBlock (some 2) 20 20] (by decide) rfl
    ⟨5, 4, 0, 100⟩).2 (by decide)
  have hfit : Request.FitsIn ⟨5, 4, 0, 100⟩ 10 20 :=
    ⟨12, ⟨fun _ => by decide, by decide, by decide⟩, by decide, by decide⟩
  refine Exists.imp (fun n hn => ⟨_, rfl, hn⟩) (hfound.mpr (.inr ⟨1,
    ⟨⟨by decide, by decide, hfit⟩, [2], [], rfl, ?_, nofun⟩, by decide,
    ⟨by decide, by decide, hfit⟩, ?_⟩) ⟨1, by decide, by decide, hfit⟩)
  · exact List.forall_mem_singleton.mpr fun _ => by decide
  · rintro m ⟨hm, hmhole, -⟩
    revert m
    decide

/-- A hole of 40 addresses behind a node of 10 is returned, though there is one of 30 behind a node
    of 20. And where a single address is managed and free, a search for it finds nothing. -/
theorem searches_return_larger_hole :
    (∃ s, runFrom drmMmStep (.init 0 100)
        [.createBlock (some 1) 0 10, .createBlock (some 2) 50 20] = some s ∧
      s.mm.drmMmSearchFreeGeneric 5 0 true = some (some 1) ∧
      s.mm.drmMmSearchFreeInRangeGeneric 5 0 0 100 true = some (some 1) ∧ s.mm.holeSize 1 = 40 ∧
      s.mm.Suitable ⟨5, 0, 0, 100⟩ 2 ∧ s.mm.holeSize 2 = 30) ∧
      (DrmMmRun.init 0 1).mm.drmMmSearchFreeGeneric 1 0 true = some none ∧
      (DrmMmRun.init 0 1).mm.Suitable ⟨1, 0, 0, 1⟩ headNode := by
  refine ⟨⟨_, rfl, by decide, by decide, by decide, ?_, by decide⟩, by decide, ?_⟩
  · exact ⟨by decide, by decide, 70, ⟨fun h => absurd rfl h, by decide, by decide⟩, by decide,
      by decide⟩
  · exact ⟨by decide, by decide, 0, ⟨fun h => absurd rfl h, by decide, by decide⟩, by decide,
      by decide⟩

end NucKernel.Drm
