import NucKernel.SmartCard.Atr.History
import NucKernel.SmartCard.T1.Retransmit

/-!
# The bounds of `sdata`

`sdata` has `T1_BUFFER_SIZE` bytes: a prologue, 254 bytes of information and two of checksum. What
is written there is as long as three values say that come from the card: the IFSC of its ATR or of
an S(IFS) request, the checksum that its ATR selects, and the byte LEN of each reply. S(IFS) refuses
255; the ATR and a reply do not. `rmax` is not looked at.

## Modelling

- `SC_CHKSUM_CRC` is 0, so before the first ATR the checksum of the interface is the CRC
- ATR_CheckIntegrity is not modelled: CONFIG_EMV_CHECK adds it (`emv`), and it refuses more ATRs
- a reply is the content of `rbuf` when `t1_xcv` copies from it
- `sdata` goes on beyond its bounds, so that a write there is seen
-/

namespace NucKernel.SmartCard.T1

open NucKernel.Library
open NucKernel.SmartCard.Atr

/-- One interface: the record of its ATR, `struct nuc970_sc` and the state of T=1 -/
structure Reader where
  record : AtrT
  sc : Params
  t1 : ByteState

inductive ReaderOp where
  /-- A card has sent an ATR. -/
  | atr (emv : Bool) (answer : PpsAnswer) (bytes : List UInt8)
  /-- `sc->T0` and `sc->T1` are cleared, in an activation; in a deactivation and when the card is
      removed `protocol` and `sc->atr` are cleared as well. -/
  | clear (removed : Bool)
  /-- `SC_IOC_SETPARAM` up to the exchange of `t1_negotiate_ifsd` -/
  | setParam
  /-- `t1_build` -/
  | build (dad pcb : UInt8) (avail : List UInt8)
  /-- `t1_rebuild` -/
  | rebuild
  /-- `t1_xcv` with a reply -/
  | xcv (rbuf : ℕ → UInt8)
  /-- An S(IFS) request with this information byte -/
  | sIfs (value : UInt8)

/-! ## The operations -/

/-- `parse_atr`: the parameters are set only from a record that is complete. -/
def parseAtr (emv : Bool) (answer : PpsAnswer) (bytes : List UInt8) (x : Reader) : Reader × ℕ :=
  let r := atrInitFromArray x.record (bufferOf bytes) bytes.length
  if r.2 ≠ 0 then ({ x with record := r.1 }, scErrAtr)
  else
    let p := atrParse emv answer x.sc r.1
    ({ x with record := r.1, sc := p.1 }, p.2)

/-- `memset(&sc->T0, 0, sizeof(sc->T0))` and the same for `sc->T1` -/
def clearParams (removed : Bool) (x : Reader) : Reader :=
  { x with
    record := if removed then clearedRecord else x.record
    sc :=
      { x.sc with
        protocol := if removed then 0 else x.sc.protocol
        EDC := .crc, CWI := 0, BWI := 0, CWT := 0, BWT := 0, IFSC := 0, WI := 0, WT := 0 } }

def setParam (x : Reader) : Reader :=
  if x.sc.protocol = 1 then
    { x with t1 :=
      { x.t1 with
        ns := false
        nr := false
        more := false
        checksum := x.sc.EDC
        ifsc := x.sc.IFSC } }
  else x

/-- `rlen`: the prologue, LEN bytes and the checksum -/
def xcvLength (edc : Checksum) (rbuf : ℕ → UInt8) : ℕ := 3 + (rbuf 2).toNat + edc.rcBytes

/-- `t1->ifsc = sdata[DATA]` after the test of the S(IFS) request -/
def takeIfs (value : UInt8) (x : Reader) : Reader :=
  if value < 0x10 ∨ value = 0xFF then x else { x with t1 := { x.t1 with ifsc := value } }

def Reader.next (x : Reader) : ReaderOp → Reader
  | .atr emv answer bytes => (parseAtr emv answer bytes x).1
  | .clear removed => clearParams removed x
  | .setParam => setParam x
  | .build dad pcb avail => { x with t1 := (t1BuildBytes dad x.t1 pcb avail).1 }
  | .rebuild => { x with t1 := (t1RebuildBytes x.t1).1 }
  | .xcv rbuf =>
    { x with t1 :=
      { x.t1 with sdata := store x.t1.sdata 0 (load rbuf 0 (xcvLength x.sc.EDC rbuf)) } }
  | .sIfs value => takeIfs value x

def readerStep (x : Reader) (op : ReaderOp) : Option Reader := some (x.next op)

/-- The number of bytes that are written to `sdata` -/
def written (x : Reader) : ReaderOp → ℕ
  | .build dad pcb avail => (t1BuildBytes dad x.t1 pcb avail).2
  | .rebuild => (t1RebuildBytes x.t1).2
  | .xcv rbuf => xcvLength x.sc.EDC rbuf
  | .atr .. => 0
  | .clear _ => 0
  | .setParam => 0
  | .sIfs _ => 0

/-- A step writes at most `T1_BUFFER_SIZE` bytes to `sdata`, and none outside. -/
def Inside (x : Reader) (op : ReaderOp) (x' : Reader) : Prop :=
  written x op ≤ t1BufferSize ∧ ∀ i, t1BufferSize ≤ i → x'.t1.sdata i = x.t1.sdata i

/-! ## When a write stays inside -/

theorem parseAtr_t1 (emv : Bool) (answer : PpsAnswer) (bytes : List UInt8) (x : Reader) :
    (parseAtr emv answer bytes x).1.t1 = x.t1 := by
  unfold parseAtr
  simp only
  split <;> rfl

theorem build_sdata_outside {dad pcb : UInt8} {s : ByteState} {avail : List UInt8} {i : ℕ}
    (hi : (t1BuildBytes dad s pcb avail).2 ≤ i) :
    (t1BuildBytes dad s pcb avail).1.sdata i = s.sdata i := by
  simp only [t1BuildBytes] at hi ⊢
  have htake : ∀ len : ℕ, (avail.take len).length ≤ len := fun len => by
    rw [List.length_take]
    exact Nat.min_le_left _ _
  -- the length is bounded by `ifsc` or by what there is
  generalize (if decide (s.ifsc.toNat < avail.length) then s.ifsc.toNat else avail.length) = len
    at hi ⊢
  -- checksum, information and prologue are written below the length
  rw [store_outside (Or.inr hi), store_outside (Or.inr ?_), store_outside (Or.inr ?_)]
  · simp only [List.length_cons, List.length_nil]
    omega
  · have := htake len
    omega

theorem rebuild_sdata_outside {s : ByteState} {i : ℕ} (hi : (t1RebuildBytes s).2 ≤ i) :
    (t1RebuildBytes s).1.sdata i = s.sdata i := by
  -- each of the three copies is as long as the result says
  have hcopy : ∀ (m : ℕ → UInt8) {n : ℕ}, n ≤ i →
      store s.sdata 0 (load m 0 n) i = s.sdata i := fun m n hn =>
    store_outside (Or.inr (by rw [length_load]; omega))
  unfold t1RebuildBytes at hi ⊢
  split_ifs at hi ⊢
  · exact hcopy _ hi
  · exact hcopy _ hi
  · exact hcopy _ hi
  · rfl

theorem sdata_outside (x : Reader) (op : ReaderOp) {i : ℕ} (hi : written x op ≤ i) :
    (x.next op).t1.sdata i = x.t1.sdata i := by
  cases op with
  | atr emv answer bytes => exact congrArg (fun t => t.sdata i) (parseAtr_t1 emv answer bytes x)
  | clear removed => rfl
  | setParam =>
    simp only [Reader.next, setParam]
    split <;> rfl
  | build dad pcb avail => exact build_sdata_outside hi
  | rebuild => exact rebuild_sdata_outside hi
  | xcv rbuf =>
    simp only [Reader.next, written] at hi ⊢
    -- the reply is stored below `rlen`
    exact store_outside (Or.inr (by rw [length_load]; omega))
  | sIfs value =>
    simp only [Reader.next, takeIfs]
    split <;> rfl

theorem inside_of_le {x : Reader} {op : ReaderOp} (h : written x op ≤ t1BufferSize) :
    Inside x op (x.next op) :=
  ⟨h, fun _ hi => sdata_outside x op (Nat.le_trans h hi)⟩

theorem build_length (dad pcb : UInt8) (s : ByteState) (avail : List UInt8) :
    (t1BuildBytes dad s pcb avail).2 =
      3 + min s.ifsc.toNat avail.length + s.checksum.rcBytes := by
  rw [(build_sdata dad s pcb avail).1, Block.length_bytes, length_edc_builtBlock,
    ← List.length_take]
  rfl

theorem rebuild_length_le (s : ByteState) : (t1RebuildBytes s).2 ≤ t1BufferSize := by
  have := (s.previousIBlock 2).toNat_lt
  unfold t1RebuildBytes
  split_ifs <;> simp only [t1BufferSize] <;> omega

/-- 255 bytes of information and the CRC are one byte more than there is room for. -/
def Oversized (checksum : Checksum) (len : ℕ) : Prop := checksum = .crc ∧ 255 ≤ len

theorem length_le_iff {checksum : Checksum} {len : ℕ} (hlen : len < 256) :
    3 + len + checksum.rcBytes ≤ t1BufferSize ↔ ¬ Oversized checksum len := by
  cases checksum with
  | lrc =>
    refine iff_of_true ?_ (by simp [Oversized])
    simp only [Checksum.rcBytes, t1BufferSize]
    omega
  | crc => simp only [Checksum.rcBytes, t1BufferSize, Oversized, true_and]; omega

/-- A step stays inside unless it builds or receives 255 bytes of information with the CRC. -/
theorem inside_iff (x : Reader) (op : ReaderOp) :
    Inside x op (x.next op) ↔
      match op with
      | .build _ _ avail => ¬ Oversized x.t1.checksum (min x.t1.ifsc.toNat avail.length)
      | .xcv rbuf => ¬ Oversized x.sc.EDC (rbuf 2).toNat
      | _ => True := by
  -- only the length counts
  have hle : Inside x op (x.next op) ↔ written x op ≤ t1BufferSize :=
    ⟨fun h => h.1, inside_of_le⟩
  rw [hle]
  cases op with
  | build dad pcb avail =>
    have := x.t1.ifsc.toNat_lt
    simp only [written, build_length]
    -- `ifsc` is a byte
    exact length_le_iff (by omega)
  | xcv rbuf => exact length_le_iff (rbuf 2).toNat_lt
  | rebuild => exact iff_of_true (rebuild_length_le x.t1) trivial
  | atr emv answer bytes => exact iff_of_true (Nat.zero_le _) trivial
  | clear removed => exact iff_of_true (Nat.zero_le _) trivial
  | setParam => exact iff_of_true (Nat.zero_le _) trivial
  | sIfs value => exact iff_of_true (Nat.zero_le _) trivial

/-! ## Cards that keep the writes inside -/

/-- Neither the parameters of the card nor those in use are IFSC 255 with the CRC. -/
structure Reader.Safe (x : Reader) : Prop where
  card : ¬ Oversized x.sc.EDC x.sc.IFSC.toNat
  inUse : ¬ Oversized x.t1.checksum x.t1.ifsc.toNat

/-- No ATR selects IFSC 255 with the CRC, and no reply has LEN 255 where the CRC is selected. -/
def Sound (x : Reader) (op : ReaderOp) (x' : Reader) : Prop :=
  match op with
  | .atr .. => ¬ Oversized x'.sc.EDC x'.sc.IFSC.toNat
  | .xcv rbuf => ¬ Oversized x.sc.EDC (rbuf 2).toNat
  | _ => True

instance (checksum : Checksum) (len : ℕ) : Decidable (Oversized checksum len) :=
  inferInstanceAs (Decidable (_ ∧ _))

instance (x : Reader) : ∀ op x', Decidable (Sound x op x')
  | .atr .., x' => inferInstanceAs (Decidable (¬ Oversized x'.sc.EDC x'.sc.IFSC.toNat))
  | .xcv rbuf, _ => inferInstanceAs (Decidable (¬ Oversized x.sc.EDC (rbuf 2).toNat))
  | .clear _, _ => isTrue trivial
  | .setParam, _ => isTrue trivial
  | .build .., _ => isTrue trivial
  | .rebuild, _ => isTrue trivial
  | .sIfs _, _ => isTrue trivial

theorem not_oversized_sIfs {value : UInt8} (h : ¬ (value < 0x10 ∨ value = 0xFF))
    (checksum : Checksum) : ¬ Oversized checksum value.toNat := by
  rintro ⟨-, hle⟩
  have hlt := value.toNat_lt
  refine h (Or.inr (UInt8.toNat_inj.mp ?_))
  change value.toNat = 255
  omega

theorem Reader.Safe.next {x : Reader} (h : x.Safe) {op : ReaderOp}
    (hsound : Sound x op (x.next op)) : (x.next op).Safe := by
  cases op with
  | atr emv answer bytes =>
    -- the record is replaced, and what is in use stays
    refine ⟨hsound, ?_⟩
    have ht1 : (x.next (.atr emv answer bytes)).t1 = x.t1 := parseAtr_t1 emv answer bytes x
    rw [ht1]
    exact h.inUse
  | clear removed => exact ⟨by simp [Reader.next, clearParams, Oversized], h.inUse⟩
  | setParam =>
    simp only [Reader.next, setParam]
    split
    · -- the parameters of the card are put into use
      exact ⟨h.card, h.card⟩
    · exact h
  | build dad pcb avail => exact ⟨h.card, h.inUse⟩
  | rebuild =>
    -- a block is built again with the parameters as they are
    have hframe : (t1RebuildBytes x.t1).1.checksum = x.t1.checksum ∧
        (t1RebuildBytes x.t1).1.ifsc = x.t1.ifsc := by
      unfold t1RebuildBytes
      split_ifs <;> exact ⟨rfl, rfl⟩
    refine ⟨h.card, ?_⟩
    simp only [Reader.next, hframe]
    exact h.inUse
  | xcv rbuf => exact ⟨h.card, h.inUse⟩
  | sIfs value =>
    simp only [Reader.next, takeIfs]
    split
    · exact h
    · rename_i hvalue
      exact ⟨h.card, not_oversized_sIfs hvalue _⟩

theorem Reader.Safe.inside {x : Reader} (h : x.Safe) {op : ReaderOp}
    (hsound : Sound x op (x.next op)) : Inside x op (x.next op) := by
  rw [inside_iff]
  cases op with
  | build dad pcb avail =>
    rintro ⟨hcrc, hle⟩
    -- the block is not longer than IFSC
    exact h.inUse ⟨hcrc, by omega⟩
  | xcv rbuf => exact hsound
  | atr emv answer bytes => trivial
  | clear removed => trivial
  | setParam => trivial
  | rebuild => trivial
  | sIfs value => trivial

/-- In every run in which no ATR selects IFSC 255 with the CRC and no reply has LEN 255 with the
    CRC, every block that is built, built again or received fits in `sdata`. -/
theorem writes_inside (x₀ : Reader) (hsafe : x₀.Safe) (ops : List ReaderOp)
    (hsound : Along readerStep Sound x₀ ops) : Along readerStep Inside x₀ ops := by
  refine along_of_along (fun x op x' h hstep hs => ?_) (fun x op x' h hstep hs => ?_) hsafe hsound
  · cases hstep
    exact h.next hs
  · cases hstep
    exact h.inside hs

def bootReader : Reader where
  record := clearedRecord
  sc := ⟨0, 0, 0, 0, .crc, 0, 0, 0, 0, 0, 0, 0, 0⟩
  t1 := freshBytes .lrc

/-- An ATR with IFSC 254 and the CRC, a block of 254 bytes, and a reply of as many -/
theorem writes_inside_crc :
    Along readerStep Inside bootReader
      [.atr false (fun _ => none) [0x3B, 0x80, 0x81, 0x51, 0xFE, 0x01, 0xAF], .setParam,
        .build 0 t1IBlock (List.replicate 300 0), .xcv (fun _ => 0xFE), .sIfs 0xFF, .clear true] :=
  writes_inside bootReader ⟨by decide, by decide⟩ _ (by decide +kernel)

/-- TA3 = FF and TC3 = 01 are accepted. The first block of a command of 255 bytes has 260 bytes,
    and so has a reply with LEN = FF: `sdata[259]` does not exist. -/
theorem crc_block_overruns :
    ((runFrom readerStep bootReader
        [.atr false (fun _ => none) [0x3B, 0x80, 0x81, 0x51, 0xFF, 0x01, 0xAE], .setParam]).map
      fun x => (x.sc.protocol, written x (.build 0 t1IBlock (List.replicate 255 0)),
        written x (.xcv fun _ => 0xFF))) = some (1, 260, 260) ∧
      (parseAtr false (fun _ => none) [0x3B, 0x80, 0x81, 0x51, 0xFF, 0x01, 0xAE] bootReader).2 = 0 ∧
      t1BufferSize = 259 := by
  decide +kernel

end NucKernel.SmartCard.T1
