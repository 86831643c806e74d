import Mathlib.Algebra.GroupWithZero.Nat
import Mathlib.Data.List.GetD
import Mathlib.Data.List.Nodup
import NucKernel.Library.Ranges

/-!
# Client bytes in the free areas of the OOB (`nand_base.c`)

In the automatic mode the bytes of a client are spread over the free areas that the ECC layout
lists. `nand_fill_oob` and `nand_transfer_oob` walk along the list in the same way: `autoPieces` is
the walk, a piece for every `memcpy`.

## Modelling

- The array of areas is a list, which ends where an entry of length 0 ends the array.
- `boffs`, `roffs` and `len` do not overflow, as the areas are inside of the OOB.
-/

namespace NucKernel.Nand.OobPlacement

open NucKernel.Library

/-- `struct nand_oobfree` -/
structure OobFree where
  offset : ℕ
  length : ℕ
  deriving DecidableEq

inductive Mode
  | placeOob
  | autoOob
  | raw

/-- The loop over the free areas: place and length of every `memcpy`. `bytes` is what the last one
    copied, and is subtracted from `len` for a skipped area, too. -/
def autoPieces : List OobFree → ℕ → ℕ → ℕ → List (ℕ × ℕ)
  | [], _, _, _ => []
  | free :: rest, roffs, len, bytes =>
    if free.length = 0 ∨ len = 0 then []
    else if roffs ≠ 0 then
      -- request not from offset 0
      if free.length ≤ roffs then autoPieces rest (roffs - free.length) (len - bytes) bytes
      else
        let bytes := min len (free.length - roffs)
        (free.offset + roffs, bytes) :: autoPieces rest 0 (len - bytes) bytes
    else
      let bytes := min len free.length
      (free.offset, bytes) :: autoPieces rest 0 (len - bytes) bytes

def pieces (oobfree : List OobFree) (mode : Mode) (ooboffs len : ℕ) : List (ℕ × ℕ) :=
  match mode with
  | .placeOob | .raw => [(ooboffs, len)]
  | .autoOob => autoPieces oobfree ooboffs len 0

/-- `nand_transfer_oob`: the bytes copied to the client -/
def transferOob (oobfree : List OobFree) (mode : Mode) (ooboffs len : ℕ) (oobPoi : ℕ → UInt8) :
    List UInt8 :=
  (pieces oobfree mode ooboffs len).flatMap fun p => cells oobPoi p.1 p.2

def fillPieces : List (ℕ × ℕ) → List UInt8 → (ℕ → UInt8) → ℕ → UInt8
  | [], _, oobPoi => oobPoi
  | p :: ps, oob, oobPoi =>
    fillPieces ps (oob.drop p.2) (writeList oobPoi p.1 (oob.take p.2))

/-- `nand_fill_oob`: `oob_poi` afterwards -/
def fillOob (oobfree : List OobFree) (oobsize : ℕ) (mode : Mode) (ooboffs : ℕ) (oob : List UInt8)
    (oobPoi : ℕ → UInt8) : ℕ → UInt8 :=
  fillPieces (pieces oobfree mode ooboffs oob.length) oob
    (overwrite oobPoi 0 oobsize fun _ => 0xff)

/-! ## The walk -/

def positions (ps : List (ℕ × ℕ)) : List ℕ := ps.flatMap fun p => List.range' p.1 p.2

def freeBytes (oobfree : List OobFree) : List ℕ :=
  oobfree.flatMap fun a => List.range' a.offset a.length

def addressed (oobfree : List OobFree) (ooboffs len : ℕ) : List ℕ :=
  ((freeBytes oobfree).drop ooboffs).take len

theorem range'_drop_take (s n k m : ℕ) :
    ((List.range' s n).drop k).take m = List.range' (s + k) (min m (n - k)) := by
  refine List.ext_getElem (by simp) fun i _ _ => ?_
  simp only [List.getElem_take, List.getElem_drop, List.getElem_range']
  omega

/-- An area is skipped before anything was copied only, so that nothing is subtracted for it. -/
theorem positions_autoPieces {oobfree : List OobFree} (hpos : ∀ a ∈ oobfree, 0 < a.length)
    (roffs len : ℕ) {bytes : ℕ} (hbytes : roffs = 0 ∨ bytes = 0) :
    positions (autoPieces oobfree roffs len bytes) = addressed oobfree roffs len := by
  induction oobfree generalizing roffs len bytes with
  | nil => simp [autoPieces, positions, addressed, freeBytes]
  | cons free rest ih =>
    have hrest : ∀ a ∈ rest, 0 < a.length := fun a ha => hpos a (List.mem_cons_of_mem _ ha)
    have hfree : free.length ≠ 0 := Nat.ne_of_gt (hpos free List.mem_cons_self)
    have hsplit : addressed (free :: rest) roffs len =
        ((List.range' free.offset free.length).drop roffs).take len ++
          addressed rest (roffs - free.length) (len - (free.length - roffs)) := by
      simp only [addressed, freeBytes, List.flatMap_cons, List.drop_append, List.take_append,
        List.length_drop, List.length_range']
    rw [hsplit, range'_drop_take, autoPieces]
    by_cases hlen : len = 0
    · rw [if_pos (.inr hlen), hlen]
      simp [positions, addressed]
    · rw [if_neg (by tauto)]
      split_ifs with hroffs hskip
      · -- the request begins behind this area
        have hzero : bytes = 0 := hbytes.resolve_left hroffs
        rw [hzero, Nat.sub_zero, ih hrest _ len (.inr rfl), Nat.sub_eq_zero_of_le hskip]
        simp
      · -- it begins within this area
        have hcopy : roffs - free.length = 0 := by omega
        rw [hcopy]
        simp only [positions, List.flatMap_cons] at ih ⊢
        rw [ih hrest _ _ (.inl rfl), show len - min len (free.length - roffs) =
          len - (free.length - roffs) by omega]
      · -- it has begun before
        have hzero : roffs = 0 := Decidable.of_not_not hroffs
        subst hzero
        simp only [positions, List.flatMap_cons, Nat.zero_sub, Nat.sub_zero, Nat.add_zero] at ih ⊢
        rw [ih hrest _ _ (.inl rfl), show len - min len free.length = len - free.length by omega]

/-! ## Filling and transferring -/

theorem flatMap_cells (oobPoi : ℕ → UInt8) (ps : List (ℕ × ℕ)) :
    (ps.flatMap fun p => cells oobPoi p.1 p.2) = (positions ps).map oobPoi := by
  simp only [positions, List.map_flatMap, cells, List.range'_eq_map_range, List.map_map,
    Function.comp_def]

theorem fillPieces_outside (ps : List (ℕ × ℕ)) (oob : List UInt8) (oobPoi : ℕ → UInt8) {i : ℕ}
    (h : i ∉ positions ps) : fillPieces ps oob oobPoi i = oobPoi i := by
  induction ps generalizing oob oobPoi with
  | nil => rfl
  | cons p ps ih =>
    simp only [positions, List.flatMap_cons, List.mem_append, List.mem_range'_1, not_or] at h
    rw [fillPieces, ih _ _ h.2, writeList]
    split_ifs with hle
    · exact List.getD_eq_default _ _ (by rw [List.length_take]; omega)
    · rfl

theorem map_fillPieces (ps : List (ℕ × ℕ)) (oob : List UInt8) (oobPoi : ℕ → UInt8)
    (hnodup : (positions ps).Nodup) (hlen : (positions ps).length = oob.length) :
    (positions ps).map (fillPieces ps oob oobPoi) = oob := by
  induction ps generalizing oob oobPoi with
  | nil => exact (List.length_eq_zero_iff.mp hlen.symm).symm
  | cons p ps ih =>
    have hsplit : positions (p :: ps) = List.range' p.1 p.2 ++ positions ps := rfl
    rw [hsplit, List.nodup_append] at hnodup
    rw [hsplit, List.length_append, List.length_range'] at hlen
    have htake : (oob.take p.2).length = p.2 := by
      rw [List.length_take]
      omega
    have hfirst : (List.range' p.1 p.2).map (fillPieces (p :: ps) oob oobPoi) = oob.take p.2 := by
      -- the later pieces leave the first one alone
      have hsame : (List.range' p.1 p.2).map (fillPieces (p :: ps) oob oobPoi) =
          (List.range' p.1 p.2).map (writeList oobPoi p.1 (oob.take p.2)) := by
        refine List.map_congr_left fun i hi => ?_
        exact fillPieces_outside ps _ _ fun hmem => hnodup.2.2 i hi i hmem rfl
      have hcells := cells_writeList oobPoi p.1 (oob.take p.2)
      rw [htake] at hcells
      rw [hsame, List.range'_eq_map_range, List.map_map]
      exact hcells
    have hrest : (positions ps).map (fillPieces (p :: ps) oob oobPoi) = oob.drop p.2 :=
      ih (oob.drop p.2) _ hnodup.2.1 (by rw [List.length_drop]; omega)
    rw [hsplit, List.map_append, hfirst, hrest, List.take_append_drop]

/-- Free areas: not empty, inside of the OOB and apart from one another -/
structure Layout (oobfree : List OobFree) (oobsize : ℕ) : Prop where
  nonempty : ∀ a ∈ oobfree, 0 < a.length
  inside : ∀ a ∈ oobfree, a.offset + a.length ≤ oobsize
  disjoint : oobfree.Pairwise fun a b =>
    a.offset + a.length ≤ b.offset ∨ b.offset + b.length ≤ a.offset

theorem Layout.nodup {oobfree : List OobFree} {oobsize : ℕ} (h : Layout oobfree oobsize) :
    (freeBytes oobfree).Nodup := by
  refine List.nodup_flatMap.mpr ⟨fun a _ => List.nodup_range', ?_⟩
  refine h.disjoint.imp fun hab i hi hi' => ?_
  rw [List.mem_range'_1] at hi hi'
  omega

/-- **Automatic placement**: the bytes of a request that fits into the free areas are transferred
    back unchanged, and every other byte of the image is `0xff`. -/
theorem transferOob_fillOob {oobfree : List OobFree} {oobsize : ℕ} (h : Layout oobfree oobsize)
    (ooboffs : ℕ) (oob : List UInt8) (oobPoi : ℕ → UInt8)
    (hfit : ooboffs + oob.length ≤ (oobfree.map OobFree.length).sum) :
    transferOob oobfree .autoOob ooboffs oob.length
        (fillOob oobfree oobsize .autoOob ooboffs oob oobPoi) = oob ∧
      ∀ i < oobsize, i ∉ addressed oobfree ooboffs oob.length →
        fillOob oobfree oobsize .autoOob ooboffs oob oobPoi i = 0xff := by
  have hpositions := positions_autoPieces h.nonempty ooboffs oob.length (.inr rfl)
  have htotal : (freeBytes oobfree).length = (oobfree.map OobFree.length).sum := by
    simp [freeBytes, List.length_flatMap]
  refine ⟨?_, fun i hi hout => ?_⟩
  · rw [transferOob, flatMap_cells]
    refine map_fillPieces _ _ _ ?_ ?_
    · rw [pieces, hpositions]
      exact (h.nodup.sublist (List.drop_sublist _ _)).sublist (List.take_sublist _ _)
    · -- the areas have room for all bytes
      rw [pieces, hpositions, addressed, List.length_take, List.length_drop, htotal]
      omega
  · rw [fillOob, fillPieces_outside _ _ _ (by rwa [pieces, hpositions]),
      overwrite_inside _ _ _ _ ⟨Nat.zero_le i, by omega⟩]

theorem transferOob_fillOob_three :
    transferOob [⟨2, 3⟩, ⟨8, 4⟩, ⟨20, 6⟩] .autoOob 3 6
      (fillOob [⟨2, 3⟩, ⟨8, 4⟩, ⟨20, 6⟩] 64 .autoOob 3 [1, 2, 3, 4, 5, 6] fun _ => 0) =
        [1, 2, 3, 4, 5, 6] :=
  (transferOob_fillOob ⟨by decide, by decide, by decide⟩ 3 [1, 2, 3, 4, 5, 6] (fun _ => 0)
    (by decide)).1

end NucKernel.Nand.OobPlacement
