import Mathlib.Algebra.Group.Nat.Defs
import NucKernel.Library.ByteMemory
import NucKernel.Library.Splice

/-!
# Concatenated flash devices (`mtdconcat.c`)

A concatenated device hands each request to the subdevices that it falls on, piece by piece. A
vectored write edits a copy of the vector for this: the entry in which a device ends is shortened
for that device, and then begins behind the part that was written.

## Modelling

- A device is the list of its cells. What a cell holds after it was written may depend on what it
  held before, as in a flash; `prog` says how.
- `fault i` is the error of the `i`-th subdevice, 0 if it works. One that fails a write does not
  change.
- `*retlen` is 0 before a call, as `mtd_read` and the others set it. `size_t` has 32 bits; only the
  sum of the lengths of a vector can exceed them. The copy of the vector is allocated.
-/

namespace NucKernel.Mtd.Concat

open Library Library.Splice

variable {β : Type*}

/-! ## One device -/

structure Result (σ : Type*) where
  err : ℤ
  retlen : ℕ
  state : σ

/-- `mtd_read` of a device, into `buf` from `bufPos` on -/
def mtdRead (dev : List β) (pos len : ℕ) (buf : ℕ → β) (bufPos : ℕ) : Result (ℕ → β) :=
  if dev.length < pos ∨ dev.length - pos < len then ⟨-22, 0, buf⟩
  else ⟨0, len, store buf bufPos (slice dev pos len)⟩

def mtdWrite (prog : β → β → β) (dev : List β) (pos : ℕ) (data : List β) : Result (List β) :=
  if dev.length < pos ∨ dev.length - pos < data.length then ⟨-22, 0, dev⟩
  else ⟨0, data.length, overwrite prog dev pos data⟩

/-- `struct kvec`: an address in memory and a length -/
structure Kvec where
  iovBase : ℕ
  iovLen : ℕ

def Kvec.bytes (mem : ℕ → β) (v : Kvec) : List β := load mem v.iovBase v.iovLen

def bytesOf (mem : ℕ → β) (vecs : List Kvec) : List β := vecs.flatMap (Kvec.bytes mem)

def defaultMtdWritev (prog : β → β → β) (mem : ℕ → β) :
    (vecs : List Kvec) → (dev : List β) → (pos totlen : ℕ) → Result (List β)
  | [], dev, _, totlen => ⟨0, totlen, dev⟩
  | v :: vecs, dev, pos, totlen =>
    if v.iovLen = 0 then defaultMtdWritev prog mem vecs dev pos totlen
    else
      let s := mtdWrite prog dev pos (v.bytes mem)
      if s.err ≠ 0 ∨ s.retlen ≠ v.iovLen then ⟨s.err, totlen + s.retlen, s.state⟩
      else defaultMtdWritev prog mem vecs s.state (pos + v.iovLen) (totlen + s.retlen)

/-! ## The concatenated device -/

section Concat

variable (prog : β → β → β) (fault : ℕ → ℤ)

def Result.cons (sub : List β) (r : Result (List (List β))) : Result (List (List β)) :=
  { r with state := sub :: r.state }

/-- The loop of `concat_read`. After `-EBADMSG` and `-EUCLEAN` it goes on. -/
def readLoop : (subs : List (List β)) → (i pos len bufPos : ℕ) → (ret : ℤ) → (retlen : ℕ) →
    (buf : ℕ → β) → Result (ℕ → β)
  | [], _, _, _, _, _, retlen, buf => ⟨-22, retlen, buf⟩
  | sub :: rest, i, pos, len, bufPos, ret, retlen, buf =>
    if sub.length ≤ pos then readLoop rest (i + 1) (pos - sub.length) len bufPos ret retlen buf
    else
      let size := if sub.length < pos + len then sub.length - pos else len
      let s := mtdRead sub pos size buf bufPos
      let err := if s.err = 0 then fault i else s.err
      if err ≠ 0 ∧ err ≠ -74 ∧ err ≠ -117 then ⟨err, retlen, s.state⟩
      else
        let ret := if err = -74 then err else if err = -117 ∧ ret = 0 then err else ret
        if len - size = 0 then ⟨ret, retlen + s.retlen, s.state⟩
        else readLoop rest (i + 1) 0 (len - size) (bufPos + size) ret (retlen + s.retlen) s.state

def concatRead (subs : List (List β)) (pos len : ℕ) (buf : ℕ → β) : Result (ℕ → β) :=
  readLoop fault subs 0 pos len 0 0 0 buf

def writeLoop : (subs : List (List β)) → (i pos : ℕ) → (data : List β) → (retlen : ℕ) →
    Result (List (List β))
  | [], _, _, _, retlen => ⟨-22, retlen, []⟩
  | sub :: rest, i, pos, data, retlen =>
    if sub.length ≤ pos then (writeLoop rest (i + 1) (pos - sub.length) data retlen).cons sub
    else
      let size := if sub.length < pos + data.length then sub.length - pos else data.length
      let s := if fault i = 0 then mtdWrite prog sub pos (data.take size) else ⟨fault i, 0, sub⟩
      if s.err ≠ 0 then ⟨s.err, retlen, s.state :: rest⟩
      else if data.length - size = 0 then ⟨0, retlen + s.retlen, s.state :: rest⟩
      else (writeLoop rest (i + 1) 0 (data.drop size) (retlen + s.retlen)).cons s.state

def concatWrite (subs : List (List β)) (pos : ℕ) (data : List β) : Result (List (List β)) :=
  writeLoop prog fault subs 0 pos data 0

/-- The loop that looks for `entry_high`: how many entries fit whole, and what of `size` is left -/
def entryHigh : List Kvec → (size : ℕ) → ℕ × ℕ
  | [], size => (0, size)
  | v :: vecs, size =>
    if size ≤ v.iovLen then (0, size)
    else
      let r := entryHigh vecs (size - v.iovLen)
      (r.1 + 1, r.2)

/-- The loop of `concat_writev` over the subdevices. It has no result if it reads beyond the copy of
    the vector. -/
def writevLoop (mem : ℕ → β) : (subs : List (List β)) → (i pos entryLow : ℕ) →
    (vecsCopy : List Kvec) → (totalLen retlen : ℕ) → Option (Result (List (List β)))
  | [], _, _, _, _, _, retlen => some ⟨-22, retlen, []⟩
  | sub :: rest, i, pos, entryLow, vecsCopy, totalLen, retlen =>
    if sub.length ≤ pos then
      (writevLoop mem rest (i + 1) (pos - sub.length) entryLow vecsCopy totalLen retlen).map
        (Result.cons sub)
    else
      let wsize := min totalLen (sub.length - pos)
      let cut := entryHigh (vecsCopy.drop entryLow) wsize
      let high := entryLow + cut.1
      match vecsCopy[high]? with
      | none => none
      | some v =>
        -- the entry is shortened for the subdevice only
        let shortened := vecsCopy.set high { v with iovLen := cut.2 }
        let given := (shortened.drop entryLow).take (high - entryLow + 1)
        let s := if fault i = 0 then defaultMtdWritev prog mem given sub pos 0
          else ⟨fault i, 0, sub⟩
        let vecsCopy := vecsCopy.set high ⟨v.iovBase + cut.2, v.iovLen - cut.2⟩
        if s.err ≠ 0 then some ⟨s.err, retlen, s.state :: rest⟩
        else if totalLen - wsize = 0 then some ⟨0, retlen + s.retlen, s.state :: rest⟩
        else
          (writevLoop mem rest (i + 1) 0 high vecsCopy (totalLen - wsize) (retlen + s.retlen)).map
            (Result.cons s.state)

def totalLen (vecs : List Kvec) : ℕ := vecs.foldl (fun n v => (n + v.iovLen) % 2 ^ 32) 0

def Misaligned (writesize pos len : ℕ) : Prop :=
  1 < writesize ∧ (pos % writesize ≠ 0 ∨ len % writesize ≠ 0)

instance (writesize pos len : ℕ) : Decidable (Misaligned writesize pos len) :=
  inferInstanceAs (Decidable (_ ∧ _))

def concatWritev (writesize : ℕ) (mem : ℕ → β) (subs : List (List β)) (vecs : List Kvec)
    (pos : ℕ) : Option (Result (List (List β))) :=
  if Misaligned writesize pos (totalLen vecs) then some ⟨-22, 0, subs⟩
  else writevLoop prog fault mem subs 0 pos 0 vecs (totalLen vecs) 0

end Concat

structure Joins (subs : List (List β)) (r : Result (List (List β))) (flat : Result (List β)) :
    Prop where
  err : r.err = flat.err
  retlen : r.retlen = flat.retlen
  state : r.state.flatten = flat.state
  sizes : r.state.map List.length = subs.map List.length

/-! ## Reads and writes -/

section Flat

variable {prog : β → β → β}

theorem store_append (buf : ℕ → β) (pos : ℕ) (a b : List β) :
    store (store buf pos a) (pos + a.length) b = store buf pos (a ++ b) := by
  funext i
  rcases Nat.lt_or_ge i pos with hlow | hlow
  · rw [store_outside (Or.inl (by omega)), store_outside (Or.inl hlow), store_outside (Or.inl hlow)]
  · obtain ⟨k, rfl⟩ := Nat.exists_eq_add_of_le hlow
    rcases Nat.lt_or_ge k a.length with hk | hk
    · -- a position of the first list
      rw [store_outside (Or.inl (by omega)), store_inside hk,
        store_inside (show k < (a ++ b).length by rw [List.length_append]; omega)]
      simp [List.getElem_append_left hk]
    · obtain ⟨m, rfl⟩ := Nat.exists_eq_add_of_le hk
      rcases Nat.lt_or_ge m b.length with hm | hm
      · -- a position of the second list
        rw [← Nat.add_assoc, store_inside hm, Nat.add_assoc,
          store_inside (show a.length + m < (a ++ b).length by rw [List.length_append]; omega)]
        simp
      · rw [store_outside (Or.inr (by omega)), store_outside (Or.inr (by omega)),
          store_outside (Or.inr (by rw [List.length_append]; omega))]

theorem store_slice_across (buf : ℕ → β) (p : ℕ) (xs ys : List β) {off n : ℕ}
    (hoff : off + n = xs.length) (m : ℕ) :
    store buf p (slice (xs ++ ys) off (n + m)) =
      store (store buf p (slice xs off n)) (p + n) (slice ys 0 m) := by
  have hjoin := store_append buf p (slice xs off n) (slice ys 0 m)
  rw [length_slice _ _ _ (by omega)] at hjoin
  have hslice := slice_append_across xs ys off (n + m) (by omega) (by omega)
  rw [show xs.length - off = n by omega, Nat.add_sub_cancel_left] at hslice
  rw [hjoin, hslice]

theorem mtdRead_ok {dev : List β} {pos len : ℕ} (buf : ℕ → β) (bufPos : ℕ)
    (h : pos + len ≤ dev.length) :
    mtdRead dev pos len buf bufPos = ⟨0, len, store buf bufPos (slice dev pos len)⟩ := by
  rw [mtdRead, if_neg (by omega)]

theorem readLoop_flat (subs : List (List β)) (i pos len bufPos retlen : ℕ) (buf : ℕ → β)
    (hlen : 1 ≤ len) (hrange : pos + len ≤ subs.flatten.length) :
    readLoop (fun _ => 0) subs i pos len bufPos 0 retlen buf =
      ⟨0, retlen + len, store buf bufPos (slice subs.flatten pos len)⟩ := by
  induction subs generalizing i pos len bufPos retlen buf with
  | nil =>
    rw [List.flatten_nil, List.length_nil] at hrange
    omega
  | cons sub rest ih =>
    rw [List.flatten_cons, List.length_append] at hrange
    rw [readLoop, List.flatten_cons]
    by_cases hskip : sub.length ≤ pos
    · -- the request begins behind this subdevice
      rw [if_pos hskip, ih _ _ _ _ _ _ hlen (by omega), slice_append_of_le _ _ _ _ hskip]
    · rw [if_neg hskip]
      by_cases hpart : sub.length < pos + len
      · -- this subdevice takes a part of it
        have hread := mtdRead_ok buf bufPos (show pos + (sub.length - pos) ≤ sub.length by omega)
        have hbuf := store_slice_across buf bufPos sub rest.flatten
          (show pos + (sub.length - pos) = sub.length by omega) (len - (sub.length - pos))
        rw [show sub.length - pos + (len - (sub.length - pos)) = len by omega] at hbuf
        simp only [if_pos hpart, hread]
        rw [if_neg (by simp), if_neg (by omega)]
        simp only [if_true, show ¬ (0 : ℤ) = -74 by decide, show ¬ (0 : ℤ) = -117 by decide,
          if_false, false_and]
        rw [ih _ _ _ _ _ _ (by omega) (by omega), hbuf]
        congr 1
        omega
      · -- it takes the rest
        have hread := mtdRead_ok buf bufPos (show pos + len ≤ sub.length by omega)
        simp only [if_neg hpart, hread]
        rw [if_neg (by simp), if_pos (by omega), slice_append_inside _ _ _ _ (by omega)]
        simp

theorem mtdWrite_ok (dev : List β) (pos : ℕ) (data : List β) (h : pos + data.length ≤ dev.length) :
    mtdWrite prog dev pos data = ⟨0, data.length, overwrite prog dev pos data⟩ := by
  rw [mtdWrite, if_neg (by omega)]

theorem Joins.skip {sub : List β} {subs : List (List β)} {r : Result (List (List β))} {pos n : ℕ}
    {data : List β} (hskip : sub.length ≤ pos)
    (h : Joins subs r ⟨0, n, overwrite prog subs.flatten (pos - sub.length) data⟩) :
    Joins (sub :: subs) (r.cons sub) ⟨0, n, overwrite prog (sub :: subs).flatten pos data⟩ where
  err := h.err
  retlen := h.retlen
  state := by
    show sub ++ r.state.flatten = overwrite prog (sub ++ subs.flatten) pos data
    rw [overwrite_append_of_le _ _ _ _ _ hskip, h.state]
  sizes := by
    rw [List.map_cons, ← h.sizes]
    rfl

theorem Joins.last {sub : List β} {subs : List (List β)} {pos n : ℕ} {data : List β}
    (hpos : pos ≤ sub.length) (hend : pos + data.length ≤ sub.length) :
    Joins (sub :: subs) ⟨0, n, overwrite prog sub pos data :: subs⟩
      ⟨0, n, overwrite prog (sub :: subs).flatten pos data⟩ where
  err := rfl
  retlen := rfl
  state := by
    rw [List.flatten_cons, List.flatten_cons, overwrite_append_inside _ _ _ _ _ hpos,
      List.take_of_length_le (by omega), List.drop_eq_nil_of_le (by omega), overwrite_nil]
  sizes := by simp

theorem Joins.across {sub : List β} {subs : List (List β)} {r : Result (List (List β))}
    {pos n : ℕ} {data : List β} (hpos : pos ≤ sub.length)
    (h : Joins subs r ⟨0, n, overwrite prog subs.flatten 0 (data.drop (sub.length - pos))⟩) :
    Joins (sub :: subs) (r.cons (overwrite prog sub pos (data.take (sub.length - pos))))
      ⟨0, n, overwrite prog (sub :: subs).flatten pos data⟩ where
  err := h.err
  retlen := h.retlen
  state := by
    show overwrite prog sub pos (data.take (sub.length - pos)) ++ r.state.flatten =
      overwrite prog (sub ++ subs.flatten) pos data
    rw [overwrite_append_inside _ _ _ _ _ hpos, h.state]
  sizes := by
    rw [List.map_cons, ← h.sizes]
    simp [Result.cons]

theorem writeLoop_wrote (subs : List (List β)) (i pos : ℕ) (data : List β) (retlen : ℕ)
    (hlen : 1 ≤ data.length) (hrange : pos + data.length ≤ subs.flatten.length) :
    Joins subs (writeLoop prog (fun _ => 0) subs i pos data retlen)
      ⟨0, retlen + data.length, overwrite prog subs.flatten pos data⟩ := by
  induction subs generalizing i pos data retlen with
  | nil =>
    rw [List.flatten_nil, List.length_nil] at hrange
    omega
  | cons sub rest ih =>
    rw [List.flatten_cons, List.length_append] at hrange
    rw [writeLoop]
    by_cases hskip : sub.length ≤ pos
    · rw [if_pos hskip]
      apply Joins.skip hskip
      exact ih _ _ _ _ hlen (by omega)
    · rw [if_neg hskip]
      by_cases hpart : sub.length < pos + data.length
      · -- the subdevice gets as much as it has room for
        have htake : (data.take (sub.length - pos)).length = sub.length - pos := by
          rw [List.length_take]
          omega
        have hdrop : (data.drop (sub.length - pos)).length = data.length - (sub.length - pos) :=
          List.length_drop
        have hwrite : mtdWrite prog sub pos (data.take (sub.length - pos)) = _ :=
          mtdWrite_ok sub pos _ (by omega)
        rw [htake] at hwrite
        simp only [if_pos hpart, hwrite, if_true, ne_eq, not_true_eq_false, if_false]
        rw [if_neg (by omega)]
        apply Joins.across (by omega)
        have hrest := ih (i + 1) 0 (data.drop (sub.length - pos)) (retlen + (sub.length - pos))
          (by omega) (by omega)
        rw [hdrop, show retlen + (sub.length - pos) + (data.length - (sub.length - pos)) =
          retlen + data.length by omega] at hrest
        exact hrest
      · have hwrite : mtdWrite prog sub pos data = _ := mtdWrite_ok sub pos data (by omega)
        simp only [if_neg hpart, List.take_length, hwrite, if_true, ne_eq, not_true_eq_false,
          if_false, Nat.sub_self]
        apply Joins.last <;> omega

/-! ## Vectored writes -/

theorem bytesOf_cons (mem : ℕ → β) (v : Kvec) (vecs : List Kvec) :
    bytesOf mem (v :: vecs) = v.bytes mem ++ bytesOf mem vecs := List.flatMap_cons

@[simp] theorem length_bytes (mem : ℕ → β) (v : Kvec) : (v.bytes mem).length = v.iovLen :=
  length_load _ _ _

theorem bytes_take (mem : ℕ → β) (v : Kvec) {n : ℕ} (hn : n ≤ v.iovLen) :
    ({ v with iovLen := n } : Kvec).bytes mem = (v.bytes mem).take n :=
  (take_load mem v.iovBase hn).symm

theorem bytes_drop (mem : ℕ → β) (v : Kvec) {n : ℕ} (hn : n ≤ v.iovLen) :
    (⟨v.iovBase + n, v.iovLen - n⟩ : Kvec).bytes mem = (v.bytes mem).drop n := by
  have hsplit := load_add mem v.iovBase n (v.iovLen - n)
  rw [Nat.add_sub_cancel' hn] at hsplit
  rw [Kvec.bytes, Kvec.bytes, hsplit]
  simp

theorem defaultMtdWritev_ok (mem : ℕ → β) (vecs : List Kvec) (dev : List β) (pos totlen : ℕ)
    (hrange : pos + (bytesOf mem vecs).length ≤ dev.length) :
    defaultMtdWritev prog mem vecs dev pos totlen =
      ⟨0, totlen + (bytesOf mem vecs).length, overwrite prog dev pos (bytesOf mem vecs)⟩ := by
  induction vecs generalizing dev pos totlen with
  | nil => simp [defaultMtdWritev, bytesOf]
  | cons v vecs ih =>
    rw [bytesOf_cons, List.length_append, length_bytes] at hrange
    rw [defaultMtdWritev, bytesOf_cons, List.length_append, length_bytes]
    split_ifs with hempty
    · -- empty entries are passed over
      have hnil : v.bytes mem = [] := List.length_eq_zero_iff.mp (by rw [length_bytes, hempty])
      rw [ih _ _ _ (by omega), hnil, List.nil_append, hempty, Nat.zero_add]
    · have hwrite : mtdWrite prog dev pos (v.bytes mem) = _ :=
        mtdWrite_ok dev pos _ (by rw [length_bytes]; omega)
      rw [length_bytes] at hwrite
      have hover := overwrite_overwrite prog (v.bytes mem) (bytesOf mem vecs) dev pos
      rw [length_bytes] at hover
      simp only [hwrite, ne_eq, not_true_eq_false, or_self, if_false]
      rw [ih _ _ _ (by rw [length_overwrite]; omega), hover, Nat.add_assoc]

theorem entryHigh_cut (mem : ℕ → β) (vecs : List Kvec) {size : ℕ} (hpos : 1 ≤ size)
    (hsize : size ≤ (bytesOf mem vecs).length) :
    ∃ v, vecs[(entryHigh vecs size).1]? = some v ∧
      bytesOf mem ((vecs.set (entryHigh vecs size).1
        { v with iovLen := (entryHigh vecs size).2 }).take ((entryHigh vecs size).1 + 1)) =
          (bytesOf mem vecs).take size ∧
      bytesOf mem ((vecs.set (entryHigh vecs size).1
        ⟨v.iovBase + (entryHigh vecs size).2, v.iovLen - (entryHigh vecs size).2⟩).drop
          (entryHigh vecs size).1) = (bytesOf mem vecs).drop size := by
  induction vecs generalizing size with
  | nil =>
    rw [bytesOf, List.flatMap_nil, List.length_nil] at hsize
    omega
  | cons v vecs ih =>
    rw [bytesOf_cons, List.length_append, length_bytes] at hsize
    rw [entryHigh, bytesOf_cons]
    split_ifs with hfits
    · -- the cut is in this entry
      refine ⟨v, rfl, ?_, ?_⟩
      · simp [bytes_take mem v hfits, bytesOf, List.take_append_of_le_length, hfits]
      · simp [bytesOf_cons, bytes_drop mem v hfits, List.drop_append_of_le_length, hfits]
    · -- the entry fits whole; the cut is further behind
      obtain ⟨w, hget, htake, hdrop⟩ := ih (show 1 ≤ size - v.iovLen by omega) (by omega)
      have hwhole : (v.bytes mem).length ≤ size := by
        rw [length_bytes]
        omega
      refine ⟨w, by simpa using hget, ?_, ?_⟩
      · simp only [List.set_cons_succ, List.take_succ_cons, bytesOf_cons, htake]
        rw [List.take_append, length_bytes, List.take_of_length_le hwhole]
      · simp only [List.set_cons_succ, List.drop_succ_cons, hdrop]
        rw [List.drop_append, length_bytes, List.drop_eq_nil_of_le hwhole, List.nil_append]

theorem writevLoop_wrote (mem : ℕ → β) (subs : List (List β)) (i pos entryLow : ℕ)
    (vecs : List Kvec) (data : List β) (retlen : ℕ)
    (hdata : bytesOf mem (vecs.drop entryLow) = data) (hlen : 1 ≤ data.length)
    (hrange : pos + data.length ≤ subs.flatten.length) :
    ∃ r, writevLoop prog (fun _ => 0) mem subs i pos entryLow vecs data.length retlen = some r ∧
      Joins subs r ⟨0, retlen + data.length, overwrite prog subs.flatten pos data⟩ := by
  induction subs generalizing i pos entryLow vecs data retlen with
  | nil =>
    rw [List.flatten_nil, List.length_nil] at hrange
    omega
  | cons sub rest ih =>
    rw [List.flatten_cons, List.length_append] at hrange
    rw [writevLoop]
    by_cases hskip : sub.length ≤ pos
    · rw [if_pos hskip]
      obtain ⟨r, hrun, hr⟩ := ih (i + 1) (pos - sub.length) entryLow vecs data retlen hdata hlen
        (by omega)
      exact ⟨r.cons sub, by rw [hrun]; rfl, hr.skip hskip⟩
    · rw [if_neg hskip]
      obtain ⟨v, hget, htake, hdrop⟩ := entryHigh_cut mem (vecs.drop entryLow)
        (show 1 ≤ min data.length (sub.length - pos) by omega) (by rw [hdata]; omega)
      rw [List.getElem?_drop] at hget
      -- the edits of the copy, seen from `entryLow` on
      have hset : ∀ n w, (vecs.set (entryLow + n) w).drop entryLow =
          (vecs.drop entryLow).set n w := fun n w => by
        rw [List.drop_set, if_neg (by omega), Nat.add_sub_cancel_left]
      have hsetDrop : ∀ n w, (vecs.set (entryLow + n) w).drop (entryLow + n) =
          ((vecs.drop entryLow).set n w).drop n := fun n w => by
        rw [← hset, List.drop_drop]
      have hpart : (data.take (min data.length (sub.length - pos))).length =
          min data.length (sub.length - pos) := by
        rw [List.length_take]
        omega
      rw [hdata] at htake hdrop
      simp only [hget, if_true, Nat.add_sub_cancel_left, hset]
      rw [defaultMtdWritev_ok mem _ sub pos 0 (by rw [htake, hpart]; omega), htake, hpart]
      simp only [ne_eq, not_true_eq_false, if_false, Nat.zero_add]
      by_cases hend : data.length ≤ sub.length - pos
      · -- the request ends in this subdevice
        rw [Nat.min_eq_left hend, Nat.sub_self, if_pos rfl, List.take_length]
        refine ⟨_, rfl, ?_⟩
        apply Joins.last <;> omega
      · rw [Nat.min_eq_right (by omega)] at hdrop ⊢
        rw [if_neg (by omega)]
        -- the entries from the cut on hold what is left
        have hrest : (data.drop (sub.length - pos)).length = data.length - (sub.length - pos) :=
          List.length_drop
        obtain ⟨r, hrun, hr⟩ := ih (i + 1) 0 _ _ (data.drop (sub.length - pos))
          (retlen + (sub.length - pos)) ((congrArg _ (hsetDrop _ _)).trans hdrop) (by omega)
          (by omega)
        rw [hrest] at hrun
        rw [hrest, show retlen + (sub.length - pos) + (data.length - (sub.length - pos)) =
          retlen + data.length by omega] at hr
        exact ⟨_, by rw [hrun]; rfl, hr.across (by omega)⟩

theorem totalLen_eq (mem : ℕ → β) (vecs : List Kvec) (hshort : (bytesOf mem vecs).length < 2 ^ 32) :
    totalLen vecs = (bytesOf mem vecs).length := by
  -- the sum does not wrap around
  have hfold : ∀ n, n + (bytesOf mem vecs).length < 2 ^ 32 →
      vecs.foldl (fun n v => (n + v.iovLen) % 2 ^ 32) n = n + (bytesOf mem vecs).length := by
    clear hshort
    induction vecs with
    | nil => exact fun n _ => rfl
    | cons v vecs ih =>
      intro n hn
      rw [bytesOf_cons, List.length_append, length_bytes] at hn ⊢
      rw [List.foldl_cons, Nat.mod_eq_of_lt (by omega), ih _ (by omega), Nat.add_assoc]
  rw [totalLen, hfold 0 (by omega), Nat.zero_add]

end Flat

/-! ## All three operations -/

/-- **A concatenated device is one device**: for every list of subdevices and every request of at
    least one byte within them, a read fills the buffer as the flat device does, and a write or a
    vectored write, however its data is split, leaves the subdevices as parts of the flat device.
    Only a vector that is not made of whole write units is refused. -/
theorem concat_flat (prog : β → β → β) (subs : List (List β)) (pos : ℕ) :
    (∀ (len : ℕ) (buf : ℕ → β), 1 ≤ len → pos + len ≤ subs.flatten.length →
      concatRead (fun _ => 0) subs pos len buf = mtdRead subs.flatten pos len buf 0) ∧
    (∀ data : List β, 1 ≤ data.length → pos + data.length ≤ subs.flatten.length →
      Joins subs (concatWrite prog (fun _ => 0) subs pos data)
        (mtdWrite prog subs.flatten pos data)) ∧
    ∀ (writesize : ℕ) (mem : ℕ → β) (vecs : List Kvec), 1 ≤ (bytesOf mem vecs).length →
      (bytesOf mem vecs).length < 2 ^ 32 → pos + (bytesOf mem vecs).length ≤ subs.flatten.length →
      if Misaligned writesize pos (bytesOf mem vecs).length then
        concatWritev prog (fun _ => 0) writesize mem subs vecs pos = some ⟨-22, 0, subs⟩
      else
        ∃ r, concatWritev prog (fun _ => 0) writesize mem subs vecs pos = some r ∧
          Joins subs r (defaultMtdWritev prog mem vecs subs.flatten pos 0) := by
  refine ⟨?_, ?_, ?_⟩
  · intro len buf hlen hrange
    rw [concatRead, readLoop_flat subs 0 pos len 0 0 buf hlen hrange, mtdRead_ok _ _ hrange,
      Nat.zero_add]
  · intro data hlen hrange
    rw [mtdWrite_ok _ _ _ hrange, ← Nat.zero_add data.length]
    exact writeLoop_wrote subs 0 pos data 0 hlen hrange
  · intro writesize mem vecs hlen hshort hrange
    rw [concatWritev, totalLen_eq mem vecs hshort]
    split_ifs with halign
    · rfl
    · rw [defaultMtdWritev_ok mem vecs _ pos 0 hrange]
      exact writevLoop_wrote mem subs 0 pos 0 vecs _ 0 rfl hlen hrange

theorem concat_flat_threeDevices :
    (bytesOf id [⟨10, 2⟩, ⟨0, 0⟩, ⟨20, 2⟩]).length = 4 ∧
      (∃ r, concatWritev (fun _ new => new) (fun _ => 0) 1 id [[1, 2, 3], [], [4, 5, 6]]
          [⟨10, 2⟩, ⟨0, 0⟩, ⟨20, 2⟩] 1 = some r ∧
        Joins [[1, 2, 3], [], [4, 5, 6]] r (defaultMtdWritev (fun _ new => new) id
          [⟨10, 2⟩, ⟨0, 0⟩, ⟨20, 2⟩] [1, 2, 3, 4, 5, 6] 1 0)) ∧
      Joins [[1, 2, 3], [], [4, 5, 6]]
        (concatWrite (fun _ new => new) (fun _ => 0) [[1, 2, 3], [], [4, 5, 6]] 2 [7, 8])
        (mtdWrite (fun _ new => new) [1, 2, 3, 4, 5, 6] 2 [7, 8]) ∧
      concatRead (fun _ => 0) [[1, 2, 3], [], [4, 5, 6]] 2 2 id =
        mtdRead [1, 2, 3, 4, 5, 6] 2 2 id 0 := by
  refine ⟨by decide, ?_, ?_, ?_⟩
  · exact (concat_flat (fun _ new => new) [[1, 2, 3], [], [4, 5, 6]] 1).2.2 1 id
      [⟨10, 2⟩, ⟨0, 0⟩, ⟨20, 2⟩] (by decide) (by decide) (by decide)
  · exact (concat_flat (fun _ new => new) [[1, 2, 3], [], [4, 5, 6]] 2).2.1 [7, 8] (by decide)
      (by decide)
  · exact (concat_flat (fun _ new => new) [[1, 2, 3], [], [4, 5, 6]] 2).1 2 id (by decide)
      (by decide)

/-- One byte at offset 1 with a write unit of 2: the flat device takes it. -/
theorem misaligned_refused :
    concatWritev (fun _ new => new) (fun _ => 0) 2 id [[1, 2], [3, 4]] [⟨10, 1⟩] 1 =
        some ⟨-22, 0, [[1, 2], [3, 4]]⟩ ∧
      defaultMtdWritev (fun _ new => new) id [⟨10, 1⟩] [1, 2, 3, 4] 1 0 =
        ⟨0, 1, [1, 10, 3, 4]⟩ ∧
      ¬ Joins [[1, 2], [3, 4]] ⟨-22, 0, [[1, 2], [3, 4]]⟩
        (defaultMtdWritev (fun _ new => new) id [⟨10, 1⟩] [1, 2, 3, 4] 1 0) := by
  refine ⟨by rfl, by rfl, fun h => ?_⟩
  exact absurd h.err (by decide)

end NucKernel.Mtd.Concat
