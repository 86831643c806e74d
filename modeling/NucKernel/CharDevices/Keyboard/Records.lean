import NucKernel.CharDevices.Keyboard.CircBuf
import NucKernel.Library.FixedRecords

/-!
# Keyboard records: `kb_custom_key_insert` and `kb_read`

Board drivers queue fixed-size records (a `struct input_event`, or a 32-bit key value) through
`kb_custom_key_insert`; a reader takes them out four bytes at a time through `kb_read`.

`kb_custom_key_insert` ignores how many bytes `kb_buf_put` copied. The stream consists of records
exactly as long as every insertion finds room for its whole record, or no room at all.
-/

namespace NucKernel.CharDevices.Keyboard

open NucKernel.Library

/-! ## The driver entry points -/

/-- `kb_custom_key_insert`, for the `key` bytes at the caller's pointer. -/
def kbCustomKeyInsert (cb : CircBuf) (key : List UInt8) : CircBuf :=
  (kbBufPut cb (fun i => key.getD i 0) key.length).2

/-- What `kb_read` returns: an error code, or the bytes copied to the user. -/
inductive KbReadResult where
  | eagain
  | erestartsys
  | efault
  | ok (bytes : List UInt8)
  deriving DecidableEq, Repr

/-- `sz_key_kernel`: the bytes a read of `count` bytes takes out of the buffer. -/
def szKeyKernel (count : ℕ) : ℤ := if count = 4 then 4 else 1

/-- `sz_key_userspace`: the bytes it copies to the user. -/
def szKeyUserspace (count : ℕ) : ℕ := if count = 4 then 4 else 2

/-- `kb_read`. A blocking reader that finds the buffer empty sleeps; the call recorded here ends its
    sleep, so on an empty buffer by a signal. `userOk` is the outcome of `copy_to_user`. -/
def kbRead (cb : CircBuf) (count : ℕ) (nonblock userOk : Bool) : KbReadResult × CircBuf :=
  if kbBufDataAvail cb ≤ 0 then
    (if nonblock then .eagain else .erestartsys, cb)
  -- a short record has left the buffer when the error is returned
  else if (kbBufGet cb (szKeyKernel count)).1 ≠ szKeyKernel count then
    (.efault, (kbBufGet cb (szKeyKernel count)).2.2)
  else if userOk then
    -- `key_v` starts as `0xffffffff`, so the bytes after the key are `0xff`
    (.ok (((kbBufGet cb (szKeyKernel count)).2.1 ++ List.replicate 3 0xff).take
        (szKeyUserspace count)),
      (kbBufGet cb (szKeyKernel count)).2.2)
  else (.efault, (kbBufGet cb (szKeyKernel count)).2.2)

/-- The bytes `kb_read` moves from the buffer to `key_v`, whatever it returns. -/
def keyTaken (cb : CircBuf) (count : ℕ) : List UInt8 :=
  if kbBufDataAvail cb ≤ 0 then [] else (kbBufGet cb (szKeyKernel count)).2.1

/-! ## Histories of inserts and reads -/

/-- The two kinds of records the board drivers insert. -/
inductive RecordKind where
  | inputEvent
  | word
  deriving DecidableEq, Repr

/-- `sizeof(struct input_event)` on 32-bit ARM, and 4. -/
def RecordKind.size : RecordKind → ℕ
  | .inputEvent => 16
  | .word => 4

/-- A record carries its size. -/
structure Record (k : RecordKind) where
  bytes : List UInt8
  length_eq : bytes.length = k.size

/-- A call made on the device: an insertion, or a read of any size by any reader. -/
inductive KbCall (k : RecordKind) where
  | insert (r : Record k)
  | read (count : ℕ) (nonblock userOk : Bool)

/-- The buffer, with the records inserted and the bytes taken out by readers so far. -/
structure KbHistory where
  cb : CircBuf
  inserted : List (List UInt8)
  taken : List UInt8

/-- The bytes a finished `kb_read` gave to the user. -/
def KbReadResult.bytes : KbReadResult → List UInt8
  | .ok bytes => bytes
  | _ => []

def kbStep (k : RecordKind) (h : KbHistory) : KbCall k → Option KbHistory
  | .insert r =>
    some
      { h with
        cb := kbCustomKeyInsert h.cb r.bytes
        inserted := h.inserted ++ [r.bytes] }
  | .read count nonblock userOk =>
    some
      { h with
        cb := (kbRead h.cb count nonblock userOk).2
        taken := h.taken ++ keyTaken h.cb count }

def KbHistory.start (cb : CircBuf) : KbHistory :=
  { cb := kbBufClear cb, inserted := [], taken := [] }

/-- The stream taken out or held is made of whole records, each inserted before, in order. Where
    the readers have consumed whole records, the buffer holds whole records. -/
def KbHistory.Intact (k : RecordKind) (h : KbHistory) : Prop :=
  ∃ kept : List (List UInt8), kept.Sublist h.inserted ∧
    h.taken ++ h.cb.contents = kept.flatten ∧
    ∀ n, h.taken.length = n * k.size →
      h.taken = (kept.take n).flatten ∧ h.cb.contents = (kept.drop n).flatten

/-- The stream stays intact, and a reader of whole words never finds a short one: it is given the
    very bytes that leave the buffer. -/
def RecordIntegrity (k : RecordKind) (h : KbHistory) (c : KbCall k) (h' : KbHistory) : Prop :=
  h'.Intact k ∧ ∀ nonblock, c = .read 4 nonblock true → 4 ∣ h.taken.length →
    (kbRead h.cb 4 nonblock true).1 ≠ .efault ∧
      h'.taken = h.taken ++ (kbRead h.cb 4 nonblock true).1.bytes

/-- An insertion finds room for the whole record, or no room at all. -/
def InsertFits (k : RecordKind) (h : KbHistory) (c : KbCall k) (_ : KbHistory) : Prop :=
  ∀ r, c = .insert r → (k.size : ℤ) ≤ kbBufSpaceAvail h.cb ∨ kbBufSpaceAvail h.cb = 0

/-! ## One call -/

theorem bytesOf_getD (l : List UInt8) {n : ℤ} (hn : n ≤ l.length) :
    bytesOf (fun i => l.getD i 0) n = l.take n.toNat := by
  apply List.ext_getElem
  · simp [bytesOf]
    omega
  · intro i h₁ h₂
    simp only [bytesOf, List.length_map, List.length_range] at h₁
    simp [bytesOf, show i < l.length by omega]

theorem kbCustomKeyInsert_spec {cb : CircBuf} (h : cb.InRange) (key : List UInt8) :
    (kbCustomKeyInsert cb key).InRange ∧
      (kbCustomKeyInsert cb key).contents =
        cb.contents ++ key.take (kbBufSpaceAvail cb).toNat := by
  obtain ⟨-, hin, hcont⟩ := kbBufPut_spec h (fun i => key.getD i 0) key.length
  have hnn := kbBufSpaceAvail_nonneg cb
  refine ⟨hin, ?_⟩
  rw [kbCustomKeyInsert, hcont, bytesOf_getD key (by simp only [moved]; omega)]
  congr 1
  simp only [moved]
  -- `count` is the length of the record or the room that is left
  rcases Int.le_total key.length (kbBufSpaceAvail cb) with hle | hle
  · rw [List.take_of_length_le (by omega), List.take_of_length_le (by omega)]
  · congr 1
    omega

theorem kbRead_takes {cb : CircBuf} (h : cb.InRange) (count : ℕ) (nonblock userOk : Bool) :
    (kbRead cb count nonblock userOk).2.InRange ∧
      cb.contents = keyTaken cb count ++ (kbRead cb count nonblock userOk).2.contents := by
  by_cases hempty : kbBufDataAvail cb ≤ 0
  · -- the call ends without a byte
    have hread : (kbRead cb count nonblock userOk).2 = cb := by
      simp [kbRead, hempty]
    rw [hread]
    exact ⟨h, by simp [keyTaken, hempty]⟩
  · obtain ⟨-, hin, -, hcont⟩ := kbBufGet_spec h (szKeyKernel count)
    -- an error after `kb_buf_get` does not put the bytes back
    have hread : (kbRead cb count nonblock userOk).2 = (kbBufGet cb (szKeyKernel count)).2.2 := by
      simp only [kbRead, hempty, if_false]
      split_ifs <;> rfl
    rw [hread]
    exact ⟨hin, by simpa only [keyTaken, hempty, if_false] using hcont⟩

theorem kbRead_four {cb : CircBuf} (h : cb.InRange) (hdvd : 4 ∣ cb.contents.length)
    (nonblock : Bool) :
    (kbRead cb 4 nonblock true).1 ≠ .efault ∧
      (kbRead cb 4 nonblock true).1.bytes = keyTaken cb 4 := by
  have hlen := contents_length cb
  by_cases hempty : kbBufDataAvail cb ≤ 0
  · cases nonblock <;> simp [kbRead, keyTaken, hempty, KbReadResult.bytes]
  · obtain ⟨hret, -, hout, -⟩ := kbBufGet_spec h 4
    -- a buffer of whole words that is not empty holds four bytes
    have hfour : moved 4 (kbBufDataAvail cb) = 4 := by
      simp only [moved]
      omega
    rw [hfour] at hret hout
    -- nothing of the filling of `key_v` reaches the user
    have htake : ((kbBufGet cb 4).2.1 ++ List.replicate 3 0xff).take 4 = (kbBufGet cb 4).2.1 := by
      rw [List.take_append_of_le_length (by omega), List.take_of_length_le (by omega)]
    have hread : (kbRead cb 4 nonblock true).1 = .ok (kbBufGet cb 4).2.1 := by
      simp only [kbRead, szKeyKernel, szKeyUserspace, if_true, hempty, if_false, hret, ne_eq,
        not_true_eq_false, htake]
    rw [hread]
    exact ⟨by simp, by simp [KbReadResult.bytes, keyTaken, hempty, szKeyKernel]⟩

/-! ## Whole histories -/

theorem RecordKind.size_pos (k : RecordKind) : 0 < k.size := by
  cases k <;> decide

theorem RecordKind.four_dvd_size (k : RecordKind) : 4 ∣ k.size := by
  cases k <;> decide

/-- What holds before every call as long as all insertions have fitted. -/
structure KbHistory.Inv (k : RecordKind) (h : KbHistory) : Prop where
  inRange : h.cb.InRange
  sizes : ∀ r ∈ h.inserted, r.length = k.size
  stream : ∃ kept : List (List UInt8), kept.Sublist h.inserted ∧
    h.taken ++ h.cb.contents = kept.flatten

theorem KbHistory.start_inv (k : RecordKind) (cb : CircBuf) : (KbHistory.start cb).Inv k where
  inRange := kbBufClear_inRange cb
  sizes := by simp [KbHistory.start]
  stream := ⟨[], List.nil_sublist _, by simp [KbHistory.start]⟩

theorem KbHistory.Inv.intact {k : RecordKind} {h : KbHistory} (hi : h.Inv k) : h.Intact k := by
  obtain ⟨kept, hsub, hflat⟩ := hi.stream
  refine ⟨kept, hsub, hflat, fun n hn => ?_⟩
  exact flatten_split_fixed (fun r hr => hi.sizes r (hsub.subset hr)) hflat hn k.size_pos

theorem not_intact_of_length {k : RecordKind} {h : KbHistory}
    (hsizes : ∀ r ∈ h.inserted, r.length = k.size)
    (hlen : ¬ k.size ∣ (h.taken ++ h.cb.contents).length) : ¬ h.Intact k := by
  rintro ⟨kept, hsub, hflat, -⟩
  apply hlen
  rw [hflat, length_flatten_fixed fun r hr => hsizes r (hsub.subset hr)]
  exact Nat.dvd_mul_left ..

theorem KbHistory.Inv.four_dvd {k : RecordKind} {h : KbHistory} (hi : h.Inv k)
    (haligned : 4 ∣ h.taken.length) : 4 ∣ h.cb.contents.length := by
  obtain ⟨kept, hsub, hflat⟩ := hi.stream
  have htot : h.taken.length + h.cb.contents.length = kept.length * k.size := by
    rw [← List.length_append, hflat,
      length_flatten_fixed fun r hr => hi.sizes r (hsub.subset hr)]
  have hdvd : 4 ∣ h.taken.length + h.cb.contents.length := by
    rw [htot]
    exact Dvd.dvd.mul_left k.four_dvd_size _
  exact (Nat.dvd_add_right haligned).mp hdvd

theorem kbStep_read {k : RecordKind} {h h' : KbHistory} {count : ℕ} {nonblock userOk : Bool}
    (hi : h.Inv k) (hs : kbStep k h (.read count nonblock userOk) = some h') : h'.Inv k := by
  obtain ⟨hin, hcont⟩ := kbRead_takes hi.inRange count nonblock userOk
  obtain rfl := Option.some.inj hs
  obtain ⟨kept, hsub, hflat⟩ := hi.stream
  refine ⟨hin, hi.sizes, kept, hsub, ?_⟩
  rw [← hflat, hcont, List.append_assoc]

theorem kbStep_read_integrity {k : RecordKind} {h h' : KbHistory} {count : ℕ}
    {nonblock userOk : Bool} (hi : h.Inv k)
    (hs : kbStep k h (.read count nonblock userOk) = some h') :
    RecordIntegrity k h (.read count nonblock userOk) h' := by
  refine ⟨(kbStep_read hi hs).intact, ?_⟩
  intro nonblock' hcall haligned
  obtain ⟨hok, hbytes⟩ := kbRead_four hi.inRange (hi.four_dvd haligned) nonblock'
  cases hcall
  obtain rfl := Option.some.inj hs
  exact ⟨hok, by rw [hbytes]⟩

theorem KbHistory.Inv.sizes_append {k : RecordKind} {h : KbHistory} (hi : h.Inv k)
    (r : Record k) : ∀ r' ∈ h.inserted ++ [r.bytes], r'.length = k.size := by
  intro r' hr'
  rcases List.mem_append.mp hr' with hold | hnew
  · exact hi.sizes r' hold
  · obtain rfl := List.mem_singleton.mp hnew
    exact r.length_eq

theorem kbStep_insert {k : RecordKind} {h h' : KbHistory} {r : Record k} (hi : h.Inv k)
    (hs : kbStep k h (.insert r) = some h')
    (hfit : (k.size : ℤ) ≤ kbBufSpaceAvail h.cb ∨ kbBufSpaceAvail h.cb = 0) : h'.Inv k := by
  obtain ⟨hin, hcont⟩ := kbCustomKeyInsert_spec hi.inRange r.bytes
  obtain rfl := Option.some.inj hs
  obtain ⟨kept, hsub, hflat⟩ := hi.stream
  have hlen := r.length_eq
  refine ⟨hin, hi.sizes_append r, ?_⟩
  rcases hfit with hroom | hfull
  · -- the whole record is queued
    refine ⟨kept ++ [r.bytes], hsub.append (List.Sublist.refl _), ?_⟩
    rw [hcont, List.take_of_length_le (by omega), ← List.append_assoc, hflat]
    simp
  · -- the whole record is dropped
    refine ⟨kept, hsub.trans (List.sublist_append_left ..), ?_⟩
    simp only [hcont, hfull, Int.toNat_zero, List.take_zero, List.append_nil, hflat]

theorem kbStep_insert_truncates {k : RecordKind} {h h' : KbHistory} {r : Record k} (hi : h.Inv k)
    (hs : kbStep k h (.insert r) = some h')
    (hshort : kbBufSpaceAvail h.cb < k.size) (hsome : kbBufSpaceAvail h.cb ≠ 0) :
    ¬ h'.Intact k := by
  obtain ⟨-, hcont⟩ := kbCustomKeyInsert_spec hi.inRange r.bytes
  obtain rfl := Option.some.inj hs
  obtain ⟨kept, hsub, hflat⟩ := hi.stream
  have hnn := kbBufSpaceAvail_nonneg h.cb
  have hlen := r.length_eq
  -- the stream before consists of whole records
  have hold := length_flatten_fixed fun r hr => hi.sizes r (hsub.subset hr)
  apply not_intact_of_length (hi.sizes_append r)
  -- the length is a multiple of the record size plus the truncated part
  rw [hcont, ← List.append_assoc, hflat, List.length_append, hold]
  intro hdvd
  have hpart := (Nat.dvd_add_right (Nat.dvd_mul_left k.size kept.length)).mp hdvd
  have := Nat.le_of_dvd (by simp; omega) hpart
  simp only [List.length_take] at this
  omega

/-- **Record integrity, exactly**: over every history of insertions and reads of one kind of
    records, starting from an empty buffer, the stream is made of whole records after every call
    and no reader of whole words finds a short one, if and only if every insertion found room for
    its whole record or no room at all. -/
theorem records_intact_iff (k : RecordKind) (cb : CircBuf) (calls : List (KbCall k)) :
    Along (kbStep k) (RecordIntegrity k) (KbHistory.start cb) calls ↔
      Along (kbStep k) (InsertFits k) (KbHistory.start cb) calls := by
  apply along_iff (I := KbHistory.Inv k) _ _ (KbHistory.start_inv k cb)
  · intro h c h' hi hs
    cases c with
    | read count nonblock userOk =>
      exact iff_of_true (kbStep_read_integrity hi hs) (fun r hr => by cases hr)
    | insert r =>
      -- a truncated record is seen at once in the length of the stream
      constructor
      · rintro ⟨hintact, -⟩ r' hr'
        by_contra hno
        push Not at hno
        exact kbStep_insert_truncates hi hs hno.1 hno.2 hintact
      · intro hfit
        exact ⟨(kbStep_insert hi hs (hfit r rfl)).intact, fun nb hnb => by cases hnb⟩
  · intro h c h' hi hs hfit
    cases c with
    | read count nonblock userOk => exact kbStep_read hi hs
    | insert r => exact kbStep_insert hi hs (hfit r rfl)

def wordRecord : Record .word := { bytes := [1, 2, 3, 4], length_eq := rfl }

def zeroBuf : CircBuf := { buf := fun _ => 0, head := 0, tail := 0 }

theorem insert_words (n : ℕ) (hn : 4 * n ≤ 255) :
    ∃ h, runFrom (kbStep .word) (KbHistory.start zeroBuf) (List.replicate n (.insert wordRecord)) =
        some h ∧ h.Inv .word ∧ h.taken = [] ∧ h.cb.contents.length = 4 * n := by
  induction n with
  | zero =>
    exact ⟨_, rfl, KbHistory.start_inv .word zeroBuf, rfl, by simp [KbHistory.start]⟩
  | succ n ih =>
    obtain ⟨h, hrun, hinv, hret, hlen⟩ := ih (by omega)
    have hroom := avail_add_space h.cb
    have hdata := contents_length h.cb
    simp only [kbBufLen] at hroom
    have hstep : kbStep .word h (.insert wordRecord) = some
        { h with cb := kbCustomKeyInsert h.cb wordRecord.bytes
                 inserted := h.inserted ++ [wordRecord.bytes] } := rfl
    -- 63 records of four bytes fit into 255 cells
    have hfit : ((RecordKind.word.size : ℕ) : ℤ) ≤ kbBufSpaceAvail h.cb := by
      simp only [RecordKind.size]
      omega
    refine ⟨_, ?_, kbStep_insert hinv hstep (Or.inl hfit), hret, ?_⟩
    · rw [List.replicate_succ', runFrom_append]
      exact ⟨h, hrun, by simp [runFrom, hstep]⟩
    · obtain ⟨-, hcont⟩ := kbCustomKeyInsert_spec hinv.inRange wordRecord.bytes
      simp only [RecordKind.size] at hfit
      rw [hcont, List.take_of_length_le (by simp [wordRecord]; omega), List.length_append, hlen]
      simp [wordRecord]
      omega

/-- 64 unread word records: the last one is truncated to three bytes. -/
theorem sixty_four_words_truncated :
    ¬ Along (kbStep .word) (RecordIntegrity .word) (KbHistory.start zeroBuf)
      (List.replicate 64 (.insert wordRecord)) := by
  intro hall
  obtain ⟨h, hrun, hinv, -, hlen⟩ := insert_words 63 (by omega)
  rw [List.replicate_succ'] at hall
  obtain ⟨hintact, -⟩ := hall.last hrun rfl
  have hroom := avail_add_space h.cb
  have hdata := contents_length h.cb
  simp only [kbBufLen] at hroom
  refine kbStep_insert_truncates hinv rfl ?_ ?_ hintact
  · simp only [RecordKind.size]
    omega
  · omega

end NucKernel.CharDevices.Keyboard
