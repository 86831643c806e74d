import NucKernel.Drbd.Vli

/-!
# DRBD: receiving a bitmap from a peer

The receiver of a bitmap exchange takes compressed and plain packets until it is done or has seen
an error. Position and lengths of a compressed packet come from the peer.

## Modelling

A packet's effects are the calls it makes into the bitmap (`Call`). `unsigned long` is a number
below `2 ^ 32` or `2 ^ 64`; the sum of a `u64` run length and an `unsigned long` position is cut to
the latter. `x >>= bits` with `bits = 64`, which C leaves undefined, gives what the machine gives
(`Host.shr64`). Network errors of `drbd_recv_all` end a transfer and are left out, and so are the
statistics. That the number of bits, rounded up to 64, fits an `unsigned long` is how
`drbd_bm_resize` makes a bitmap, and is a field of `BitmapSize`.
-/

namespace NucKernel.Drbd

open NucKernel.Library

/-! ## The machine and the transfer context -/

/-- `BITS_PER_LONG`. -/
inductive LongSize
  | long32
  | long64
  deriving DecidableEq, Repr

namespace LongSize

def bits : LongSize → ℕ
  | long32 => 32
  | long64 => 64

def bytes : LongSize → ℕ
  | long32 => 4
  | long64 => 8

end LongSize

/-- What the code depends on: the size of `unsigned long`, the room for data in a packet, and the
    result of shifting a `u64` by 64. -/
structure Host where
  long : LongSize
  dataSize : ℕ
  shr64 : ℕ → ℕ

namespace Host

def ulong (h : Host) (n : ℕ) : ℕ := n % 2 ^ h.long.bits

/-- `x >> n` for a `u64`. -/
def shr (h : Host) (x n : ℕ) : ℕ := if n < 64 then x >>> n else h.shr64 x

def dataWords (h : Host) : ℕ := h.dataSize / h.long.bytes

/-- The words of a bitmap, a multiple of 64 bits -/
def bmWords (h : Host) (bits : ℕ) : ℕ := (bits + 63) / 64 * 64 / h.long.bits

/-- The word of a bit, as `bm_xfer_ctx_bit_to_word_offset` has it: aligned to 64 bits. -/
def wordOffset (h : Host) (bitOffset : ℕ) : ℕ :=
  match h.long with
  | .long64 => bitOffset >>> 6
  | .long32 => bitOffset >>> 5 - bitOffset >>> 5 % 2

theorem wordOffset_mul_bits (h : Host) (n : ℕ) : h.wordOffset n * h.long.bits = n / 64 * 64 := by
  unfold wordOffset
  cases h.long
  · simp only [LongSize.bits, Nat.shiftRight_eq_div_pow]
    omega
  · simp only [LongSize.bits, Nat.shiftRight_eq_div_pow]

theorem bmWords_mul_bits (h : Host) (n : ℕ) :
    h.bmWords n * h.long.bits = (n + 63) / 64 * 64 := by
  unfold bmWords
  cases h.long <;> simp only [LongSize.bits] <;> omega

theorem bits_pos (h : Host) : 0 < h.long.bits := by
  cases h.long <;> decide

theorem wordOffset_le_bmWords (h : Host) {n bits : ℕ} (hn : n ≤ bits) :
    h.wordOffset n ≤ h.bmWords bits := by
  apply Nat.le_of_mul_le_mul_right _ h.bits_pos
  rw [wordOffset_mul_bits, bmWords_mul_bits]
  omega

end Host

/-- The size of a bitmap: rounded up to 64 bits, it fits an `unsigned long`. -/
structure BitmapSize (h : Host) where
  bits : ℕ
  fits : bits + 64 ≤ 2 ^ h.long.bits

/-- `struct bm_xfer_ctx` without the statistics. -/
structure Ctx where
  bmBits : ℕ
  bmWords : ℕ
  bitOffset : ℕ
  wordOffset : ℕ
  deriving DecidableEq, Repr

def Ctx.init (h : Host) (size : BitmapSize h) : Ctx := ⟨size.bits, h.bmWords size.bits, 0, 0⟩

/-- `bm_xfer_ctx_bit_to_word_offset`. -/
def Ctx.bitToWordOffset (h : Host) (c : Ctx) : Ctx :=
  { c with wordOffset := h.wordOffset c.bitOffset }

/-- The context behind `n` plain words, at both ends -/
def Ctx.skipWords (h : Host) (c : Ctx) (n : ℕ) : Ctx :=
  let word := h.ulong (c.wordOffset + n)
  let bit := h.ulong (word * h.long.bits)
  { c with wordOffset := word, bitOffset := if c.bmBits < bit then c.bmBits else bit }

/-- `min_t(size_t, data_size / sizeof(*p), c->bm_words - c->word_offset)`. -/
def Ctx.numWords (h : Host) (c : Ctx) : ℕ :=
  min h.dataWords (h.ulong (c.bmWords + 2 ^ h.long.bits - c.wordOffset))

/-! ## Packets and calls -/

/-- What the peer sends: the bytes of a compressed packet, the size and the words of a plain one, or
    anything else. -/
inductive Packet
  | compressed (data : List UInt8)
  | plain (size : ℕ) (words : List ℕ)
  | other
  deriving DecidableEq, Repr

/-- `_drbd_bm_set_bits(s, e)` and `drbd_bm_merge_lel(offset, number, words)`. -/
inductive Call
  | setBits (s e : ℕ)
  | mergeLel (offset number : ℕ) (words : List ℕ)
  deriving DecidableEq, Repr

/-- The return values 1, 0 and negative. -/
inductive Outcome
  | again
  | done
  | eio
  deriving DecidableEq, Repr

/-- A run of `rl` equal bits from `s` on, as the receiver decoded it. -/
structure Run where
  set : Bool
  s : ℕ
  rl : ℕ
  deriving DecidableEq, Repr

/-- `e`, the last bit of a run. -/
def Run.last (h : Host) (r : Run) : ℕ := h.ulong (r.s + r.rl - 1)

def Run.call (h : Host) (r : Run) : Option Call :=
  if r.set then some (.setBits r.s (r.last h)) else none

/-! ## A compressed packet -/

def dcbpGetCode (encoding : UInt8) : UInt8 := encoding &&& 0x0f

def dcbpGetStart (encoding : UInt8) : Bool := encoding &&& 0x80 != 0

def dcbpGetPadBits (encoding : UInt8) : ℕ := (encoding >>> 4 &&& 0x7).toNat

def rleVliBits : UInt8 := 2

/-- What the loop over the codes of a packet leaves: whether it got through, the position, and the
    runs that passed the test. -/
structure Decoded where
  ok : Bool
  s : ℕ
  runs : List Run
  deriving DecidableEq, Repr

/-- Every code takes bits away; a refill only moves them to the look-ahead. -/
theorem refill_lt {bs : Bitstream} {lookAhead haveBits bits rl : ℕ}
    (hdec : vliDecodeBits lookAhead = some (bits, rl)) (hshort : ¬ haveBits < bits) :
    haveBits - bits + (bs.getBits (64 - (haveBits - bits))).2.2 +
        ((bs.getBits (64 - (haveBits - bits))).1.total -
          (bs.getBits (64 - (haveBits - bits))).1.pos) <
      haveBits + (bs.total - bs.pos) := by
  have hframe := bs.getBits_frame (64 - (haveBits - bits))
  have hpos := (vliDecodeBits_pos hdec).1
  rw [hframe.2, Bitstream.total_advance, Bitstream.pos_advance]
  omega

/-- The loop of `recv_bm_rle_bits`. A run of set bits that does not end below `bmBits` is refused; a
    code is tested to be complete after the call. -/
def recvLoop (h : Host) (bmBits : ℕ) (bs : Bitstream) (lookAhead haveBits s : ℕ)
    (toggle : Bool) : Decoded :=
  if haveBits = 0 then ⟨true, s, []⟩
  else
    match hdec : vliDecodeBits lookAhead with
    | none => ⟨false, s, []⟩
    | some (bits, rl) =>
      let run : Run := ⟨toggle, s, rl⟩
      if toggle = true ∧ bmBits ≤ run.last h then ⟨false, s, []⟩
      else if hshort : haveBits < bits then ⟨false, s, [run]⟩
      else
        let got := bs.getBits (64 - (haveBits - bits))
        let rest := recvLoop h bmBits got.1
          (h.shr lookAhead bits ||| got.2.1 <<< (haveBits - bits) % 2 ^ 64)
          (haveBits - bits + got.2.2) (h.ulong (s + rl)) (!toggle)
        { rest with runs := run :: rest.runs }
termination_by haveBits + (bs.total - bs.pos)
decreasing_by exact refill_lt hdec hshort

def decodeRuns (h : Host) (encoding : UInt8) (code : List UInt8) (c : Ctx) : Decoded :=
  let got := (Bitstream.init code (dcbpGetPadBits encoding)).getBits 64
  recvLoop h c.bmBits got.1 got.2.1 got.2.2 c.bitOffset (dcbpGetStart encoding)

/-- `recv_bm_rle_bits`: return value, context, and the runs that were decoded. -/
def recvBmRleBits (h : Host) (encoding : UInt8) (code : List UInt8) (c : Ctx) :
    Outcome × Ctx × List Run :=
  let dec := decodeRuns h encoding code c
  if dec.ok then
    (if dec.s ≠ c.bmBits then .again else .done,
      Ctx.bitToWordOffset h { c with bitOffset := dec.s }, dec.runs)
  else (.eio, c, dec.runs)

/-! ## A plain packet -/

def receiveBitmapPlain (h : Host) (size : ℕ) (words : List ℕ) (c : Ctx) :
    Outcome × Ctx × List Call :=
  let numWords := c.numWords h
  let want := numWords * h.long.bytes
  if want ≠ size then (.eio, c, [])
  else if want = 0 then (.done, c, [])
  else (.again, c.skipWords h numWords, [.mergeLel c.wordOffset numWords words])

/-! ## The loop over the packets -/

structure Step where
  outcome : Outcome
  ctx : Ctx
  calls : List Call
  deriving DecidableEq, Repr

/-- The body of the loop of `receive_bitmap`, with `decode_bitmap_c`. -/
def receivePacket (h : Host) (c : Ctx) : Packet → Step
  | .plain size words =>
    let r := receiveBitmapPlain h size words c
    ⟨r.1, r.2.1, r.2.2⟩
  | .compressed [] => ⟨.eio, c, []⟩
  | .compressed (encoding :: code) =>
    if h.dataSize < code.length + 1 then ⟨.eio, c, []⟩
    else if code.length = 0 then ⟨.eio, c, []⟩
    else if dcbpGetCode encoding = rleVliBits then
      let r := recvBmRleBits h encoding code c
      ⟨r.1, r.2.1, r.2.2.filterMap (Run.call h)⟩
    else ⟨.eio, c, []⟩
  | .other => ⟨.eio, c, []⟩

/-- `receive_bitmap`: the steps taken until one does not ask for more. -/
def receiveBitmap (h : Host) : Ctx → List Packet → List Step
  | _, [] => []
  | c, p :: ps =>
    let step := receivePacket h c p
    step :: if step.outcome = .again then receiveBitmap h step.ctx ps else []

/-! ## Staying inside the bitmap -/

/-- A call that touches the bitmap only. -/
def Call.Inside (c : Ctx) : Call → Prop
  | .setBits s e => s ≤ e ∧ e < c.bmBits
  | .mergeLel offset number _ => offset + number ≤ c.bmWords

instance (c : Ctx) (call : Call) : Decidable (call.Inside c) :=
  match call with
  | .setBits _ _ => inferInstanceAs (Decidable (_ ∧ _))
  | .mergeLel _ _ _ => inferInstanceAs (Decidable (_ ≤ _))

/-- The run lengths that the bits of a packet encode, and whether the last code is complete. -/
def codes (h : Host) (bs : Bitstream) (lookAhead haveBits : ℕ) : List ℕ × Bool :=
  if haveBits = 0 then ([], true)
  else
    match hdec : vliDecodeBits lookAhead with
    | none => ([], false)
    | some (bits, rl) =>
      if hshort : haveBits < bits then ([rl], false)
      else
        let got := bs.getBits (64 - (haveBits - bits))
        let rest := codes h got.1
          (h.shr lookAhead bits ||| got.2.1 <<< (haveBits - bits) % 2 ^ 64)
          (haveBits - bits + got.2.2)
        (rl :: rest.1, rest.2)
termination_by haveBits + (bs.total - bs.pos)
decreasing_by exact refill_lt hdec hshort

/-- The run lengths of the packet with these bytes -/
def packetCodes (h : Host) (encoding : UInt8) (code : List UInt8) : List ℕ × Bool :=
  let got := (Bitstream.init code (dcbpGetPadBits encoding)).getBits 64
  codes h got.1 got.2.1 got.2.2

/-- Of runs of the given lengths from `s` on, alternately set and clear, a set one ends behind the
    bitmap. -/
def SetBeyond (bmBits : ℕ) : (set : Bool) → (s : ℕ) → List ℕ → Prop
  | _, _, [] => False
  | set, s, rl :: rls => set = true ∧ bmBits < s + rl ∨ SetBeyond bmBits (!set) (s + rl) rls

instance SetBeyond.decidable (bmBits : ℕ) : ∀ set s rls, Decidable (SetBeyond bmBits set s rls)
  | _, _, [] => isFalse id
  | set, s, rl :: rls =>
    have := SetBeyond.decidable bmBits (!set) (s + rl) rls
    inferInstanceAs (Decidable (_ ∨ _))

/-- What the receiver relies on: from the position before the packet, the runs do not wrap around;
    and if all codes are complete, the runs end inside the bitmap, or one of set bits does not, for
    which the packet is refused. -/
def FairPacket (h : Host) (c : Ctx) : Packet → Prop
  | .compressed (encoding :: code) =>
    c.bitOffset + (packetCodes h encoding code).1.sum < 2 ^ h.long.bits ∧
      ((packetCodes h encoding code).2 = true →
        c.bitOffset + (packetCodes h encoding code).1.sum ≤ c.bmBits ∨
          SetBeyond c.bmBits (dcbpGetStart encoding) c.bitOffset (packetCodes h encoding code).1)
  | _ => True

instance (h : Host) (c : Ctx) : ∀ p, Decidable (FairPacket h c p)
  | .compressed (_ :: _) => inferInstanceAs (Decidable (_ ∧ _))
  | .compressed [] => isTrue trivial
  | .plain _ _ => isTrue trivial
  | .other => isTrue trivial

/-- Every packet that is looked at is fair. -/
def FairFrom (h : Host) : Ctx → List Packet → Prop
  | _, [] => True
  | c, p :: ps => FairPacket h c p ∧
    ((receivePacket h c p).outcome = .again → FairFrom h (receivePacket h c p).ctx ps)

/-- A context of the transfer of a bitmap of the given size, with both positions inside it. -/
structure Ctx.Inside {h : Host} (size : BitmapSize h) (c : Ctx) : Prop where
  bmBits : c.bmBits = size.bits
  bmWords : c.bmWords = h.bmWords size.bits
  bit : c.bitOffset ≤ size.bits
  word : c.wordOffset ≤ h.bmWords size.bits

section Inside

variable {h : Host} {size : BitmapSize h}

theorem BitmapSize.words_lt (size : BitmapSize h) :
    h.bmWords size.bits * h.long.bits < 2 ^ h.long.bits := by
  have hfits := size.fits
  rw [h.bmWords_mul_bits]
  omega

theorem BitmapSize.bmWords_lt (size : BitmapSize h) :
    h.bmWords size.bits < 2 ^ h.long.bits :=
  Nat.lt_of_le_of_lt (Nat.le_mul_of_pos_right _ h.bits_pos) size.words_lt

theorem Host.ulong_of_lt {n : ℕ} (hn : n < 2 ^ h.long.bits) : h.ulong n = n :=
  Nat.mod_eq_of_lt hn

theorem Ctx.init_inside (size : BitmapSize h) : (Ctx.init h size).Inside size :=
  ⟨rfl, rfl, Nat.zero_le _, Nat.zero_le _⟩

theorem Run.call_inside {c : Ctx} (hc : c.bmBits = size.bits) {r : Run} (hrl : 0 < r.rl)
    (hend : r.s + r.rl < 2 ^ h.long.bits) (htest : ¬ (r.set = true ∧ size.bits ≤ r.last h)) :
    ∀ call ∈ r.call h, call.Inside c := by
  -- the end does not wrap around, so it is the last bit
  have hlast : r.last h = r.s + r.rl - 1 := Host.ulong_of_lt (by omega)
  intro call hcall
  unfold Run.call at hcall
  split_ifs at hcall with hset
  · cases hcall
    have hbelow : ¬ size.bits ≤ r.last h := fun hle => htest ⟨hset, hle⟩
    simp only [Call.Inside, hc]
    omega
  · cases hcall

theorem codes_of_decode {bs : Bitstream} {la hb bits rl : ℕ} (hne : ¬ hb = 0)
    (hdec : vliDecodeBits la = some (bits, rl)) :
    codes h bs la hb =
      if hb < bits then ([rl], false)
      else
        let got := bs.getBits (64 - (hb - bits))
        let rest := codes h got.1 (h.shr la bits ||| got.2.1 <<< (hb - bits) % 2 ^ 64)
          (hb - bits + got.2.2)
        (rl :: rest.1, rest.2) := by
  rw [codes, if_neg hne]
  split
  · rename_i hnone
    cases hdec.symm.trans hnone
  · rename_i hsome
    cases hdec.symm.trans hsome
    exact dite_eq_ite

theorem recvLoop_spec {c : Ctx} (hc : c.bmBits = size.bits) (bs : Bitstream)
    (lookAhead haveBits s : ℕ) (toggle : Bool)
    (hsum : s + (codes h bs lookAhead haveBits).1.sum < 2 ^ h.long.bits) :
    (∀ r ∈ (recvLoop h size.bits bs lookAhead haveBits s toggle).runs,
        ∀ call ∈ r.call h, call.Inside c) ∧
      ((recvLoop h size.bits bs lookAhead haveBits s toggle).ok = true →
        (recvLoop h size.bits bs lookAhead haveBits s toggle).s =
            s + (codes h bs lookAhead haveBits).1.sum ∧
          (codes h bs lookAhead haveBits).2 = true ∧
          ¬ SetBeyond size.bits toggle s (codes h bs lookAhead haveBits).1) := by
  fun_induction recvLoop h size.bits bs lookAhead haveBits s toggle with
  -- no bits are left
  | case1 =>
    rw [codes]
    simp_all [SetBeyond]
  -- no code is recognised, or a run of set bits ends behind the bitmap
  | case2 => exact ⟨by simp, by simp⟩
  | case3 => exact ⟨by simp, by simp⟩
  -- the last code is cut off, but its run has been set already
  | case4 bs la hb s toggle hne bits rl hdec run htest hshort =>
    rw [codes_of_decode hne hdec, if_pos hshort] at hsum
    refine ⟨fun r hr => ?_, by simp⟩
    rw [List.mem_singleton.mp hr]
    exact Run.call_inside hc (vliDecodeBits_pos hdec).2 (by simpa using hsum) htest
  -- a complete code; the position stays exact as the sum does not wrap
  | case5 bs la hb s toggle hne bits rl hdec run htest hshort got rest ih =>
    have hrl := (vliDecodeBits_pos hdec).2
    rw [codes_of_decode hne hdec, if_neg hshort] at hsum ⊢
    simp only [List.sum_cons, ← Nat.add_assoc] at hsum ⊢
    have hnext : h.ulong (s + rl) = s + rl := Host.ulong_of_lt (by omega)
    obtain ⟨hcalls, hthrough⟩ := ih (by rwa [hnext])
    have hend : s + rl < 2 ^ h.long.bits := by omega
    refine ⟨fun r hr => ?_, fun hok => ?_⟩
    · rcases List.mem_cons.mp hr with rfl | hr
      · exact Run.call_inside hc hrl hend htest
      · exact hcalls r hr
    · obtain ⟨hs, hcomplete, hbelow⟩ := hthrough hok
      refine ⟨hs.trans (by rw [hnext]), hcomplete, ?_⟩
      rintro (⟨hset, hover⟩ | hlater)
      · -- the test would have refused this run
        have hlast : run.last h = s + rl - 1 := Host.ulong_of_lt (by simp only [run]; omega)
        exact htest ⟨hset, by omega⟩
      · exact hbelow (by rwa [hnext])

theorem recvBmRleBits_inside {c : Ctx} (hc : c.Inside size) (encoding : UInt8)
    (code : List UInt8) (hfair : FairPacket h c (.compressed (encoding :: code))) :
    (recvBmRleBits h encoding code c).2.1.Inside size ∧
      ∀ r ∈ (recvBmRleBits h encoding code c).2.2, ∀ call ∈ r.call h, call.Inside c := by
  obtain ⟨hsum, hend⟩ := hfair
  have hspec := recvLoop_spec hc.bmBits _ _ _ c.bitOffset (dcbpGetStart encoding) hsum
  rw [← hc.bmBits] at hspec
  obtain ⟨hcalls, hthrough⟩ := hspec
  -- the position is taken over only if the loop got through
  have hpos : (decodeRuns h encoding code c).ok = true →
      (decodeRuns h encoding code c).s ≤ size.bits := by
    intro hok
    obtain ⟨hs, hcomplete, hbelow⟩ := hthrough hok
    rw [← hc.bmBits]
    exact hs.trans_le ((hend hcomplete).resolve_right hbelow)
  rw [recvBmRleBits]
  split_ifs with hok
  · exact ⟨⟨hc.bmBits, hc.bmWords, hpos hok, h.wordOffset_le_bmWords (hpos hok)⟩, hcalls⟩
  · exact ⟨⟨hc.bmBits, hc.bmWords, hpos hok, h.wordOffset_le_bmWords (hpos hok)⟩, hcalls⟩
  · exact ⟨hc, hcalls⟩

theorem Ctx.Inside.numWords {c : Ctx} (hc : c.Inside size) :
    c.numWords h = min h.dataWords (h.bmWords size.bits - c.wordOffset) := by
  have hlt := size.bmWords_lt
  have hword := hc.word
  have hsub : c.bmWords + 2 ^ h.long.bits - c.wordOffset =
      h.bmWords size.bits - c.wordOffset + 2 ^ h.long.bits := by
    rw [hc.bmWords]
    omega
  rw [Ctx.numWords, hsub, Host.ulong, Nat.add_mod_right, Nat.mod_eq_of_lt (by omega)]

theorem Ctx.Inside.skipWords {c : Ctx} (hc : c.Inside size) {n : ℕ}
    (hn : c.wordOffset + n ≤ h.bmWords size.bits) :
    c.skipWords h n = { c with
      wordOffset := c.wordOffset + n
      bitOffset := min size.bits ((c.wordOffset + n) * h.long.bits) } := by
  have hword : h.ulong (c.wordOffset + n) = c.wordOffset + n :=
    Host.ulong_of_lt (Nat.lt_of_le_of_lt hn size.bmWords_lt)
  have hbit : h.ulong ((c.wordOffset + n) * h.long.bits) = (c.wordOffset + n) * h.long.bits :=
    Host.ulong_of_lt (Nat.lt_of_le_of_lt (Nat.mul_le_mul_right _ hn) size.words_lt)
  simp only [Ctx.skipWords, hword, hbit, hc.bmBits]
  congr 1
  split_ifs <;> omega

theorem receiveBitmapPlain_inside {c : Ctx} (hc : c.Inside size) (n : ℕ) (words : List ℕ) :
    (receiveBitmapPlain h n words c).2.1.Inside size ∧
      ∀ call ∈ (receiveBitmapPlain h n words c).2.2, call.Inside c := by
  have hword := hc.word
  have hsum : c.wordOffset + c.numWords h ≤ h.bmWords size.bits := by
    rw [hc.numWords]
    omega
  rw [receiveBitmapPlain]
  split_ifs with hsize hzero
  · exact ⟨hc, by simp⟩
  · exact ⟨hc, by simp⟩
  · -- no more words than are left in the bitmap
    refine ⟨?_, fun call hcall => ?_⟩
    · rw [hc.skipWords hsum]
      exact ⟨hc.bmBits, hc.bmWords, Nat.min_le_left _ _, hsum⟩
    · rw [List.mem_singleton.mp hcall]
      rw [Call.Inside, hc.bmWords]
      exact hsum

theorem receivePacket_inside {c : Ctx} (hc : c.Inside size) (p : Packet)
    (hfair : FairPacket h c p) :
    (receivePacket h c p).ctx.Inside size ∧
      ∀ call ∈ (receivePacket h c p).calls, call.Inside c := by
  match p with
  | .plain n words => exact receiveBitmapPlain_inside hc n words
  | .compressed [] => exact ⟨hc, by simp [receivePacket]⟩
  | .compressed (encoding :: code) =>
    rw [receivePacket]
    split_ifs
    · exact ⟨hc, by simp⟩
    · exact ⟨hc, by simp⟩
    · obtain ⟨hctx, hcalls⟩ := recvBmRleBits_inside hc encoding code hfair
      refine ⟨hctx, fun call hcall => ?_⟩
      obtain ⟨r, hr, hrc⟩ := List.mem_filterMap.mp hcall
      exact hcalls r hr call hrc
    · exact ⟨hc, by simp⟩
  | .other => exact ⟨hc, by simp [receivePacket]⟩

theorem Call.Inside.of_eq {c c' : Ctx} (hb : c.bmBits = c'.bmBits) (hw : c.bmWords = c'.bmWords)
    {call : Call} (hcall : call.Inside c) : call.Inside c' := by
  cases call <;> simpa only [Call.Inside, ← hb, ← hw] using hcall

theorem receiveBitmap_inside {c : Ctx} (hc : c.Inside size) (ps : List Packet)
    (hfair : FairFrom h c ps) :
    ∀ step ∈ receiveBitmap h c ps,
      step.ctx.bitOffset ≤ size.bits ∧
        ∀ call ∈ step.calls, call.Inside (Ctx.init h size) := by
  induction ps generalizing c with
  | nil => simp [receiveBitmap]
  | cons p ps ih =>
    intro step hstep
    obtain ⟨hpacket, hrest⟩ := hfair
    rw [receiveBitmap] at hstep
    obtain ⟨hctx, hcalls⟩ := receivePacket_inside hc p hpacket
    rcases List.mem_cons.mp hstep with rfl | hmem
    · exact ⟨hctx.bit, fun call hcall => (hcalls call hcall).of_eq hc.bmBits hc.bmWords⟩
    · -- the next packet is looked at only if the last one asks for more
      split_ifs at hmem with hagain
      · exact ih hctx (hrest hagain) step hmem
      · exact absurd hmem List.not_mem_nil

end Inside

/-- Whatever the peer sends, as long as the runs of its packets do not wrap around, and end inside
    the bitmap or get the packet refused: bits are set and words merged inside the bitmap only, and
    a packet that is not refused leaves the position inside it. -/
theorem received_inside (h : Host) (size : BitmapSize h) (ps : List Packet)
    (hfair : FairFrom h (Ctx.init h size) ps) :
    ∀ step ∈ receiveBitmap h (Ctx.init h size) ps,
      (∀ call ∈ step.calls, call.Inside (Ctx.init h size)) ∧
        (step.outcome ≠ .eio → step.ctx.bitOffset ≤ size.bits) := by
  intro step hstep
  obtain ⟨hpos, hcalls⟩ := receiveBitmap_inside (Ctx.init_inside size) ps hfair step hstep
  exact ⟨hcalls, fun _ => hpos⟩

/-- A 64-bit machine that takes shift counts modulo 64, with the small packet header. -/
def amd64 : Host := ⟨.long64, 4088, fun x => x⟩

/-- A 32-bit machine on which shifting a `u64` by 64 gives 0. -/
def arm32 : Host := ⟨.long32, 4088, fun _ => 0⟩

def oneWord : BitmapSize amd64 := ⟨64, Nat.le_of_ble_eq_true rfl⟩

def twoWords : BitmapSize arm32 := ⟨64, Nat.le_of_ble_eq_true rfl⟩

/-- Sixty clear bits and four set ones; and a packet that is refused, because 200 clear bits are
    followed by set ones -/
theorem received_inside_one_packet :
    (∀ step ∈ receiveBitmap amd64 (Ctx.init amd64 oneWord) [.compressed [0x72, 0xdf, 0x42, 0x01]],
      (∀ call ∈ step.calls, call.Inside (Ctx.init amd64 oneWord)) ∧
        (step.outcome ≠ .eio → step.ctx.bitOffset ≤ oneWord.bits)) ∧
    ∀ step ∈ receiveBitmap amd64 (Ctx.init amd64 oneWord) [.compressed [0x02, 0xdf, 0x25]],
      (∀ call ∈ step.calls, call.Inside (Ctx.init amd64 oneWord)) ∧
        (step.outcome ≠ .eio → step.ctx.bitOffset ≤ oneWord.bits) :=
  ⟨received_inside amd64 oneWord _ ⟨by decide +kernel, fun _ => trivial⟩,
    received_inside amd64 oneWord _ ⟨by decide +kernel, fun _ => trivial⟩⟩

/-- Packets that are not fair. A run of 200 clear bits in a bitmap of 64 leaves the position at 200,
    and the plain packet behind it is merged into 511 words from the third on, the difference of
    size and position having wrapped around. With 32-bit longs, 5 clear bits and `2 ^ 32` set ones
    make a call to set the bits from 5 to 4. -/
theorem clear_run_escapes :
    receiveBitmap amd64 (Ctx.init amd64 oneWord)
        [.compressed [0x22, 0xdf, 0x25], .plain 4088 []] =
      [⟨.again, ⟨64, 1, 200, 3⟩, []⟩, ⟨.again, ⟨64, 1, 64, 514⟩, [.mergeLel 3 511 []]⟩] ∧
    receiveBitmap arm32 (Ctx.init arm32 twoWords)
        [.compressed [0x12, 0xe3, 0xf7, 0xd9, 0xfb, 0xfb, 0x1f]] =
      [⟨.again, ⟨64, 2, 5, 0⟩, [.setBits 5 4]⟩] := by
  decide +kernel

end NucKernel.Drbd
