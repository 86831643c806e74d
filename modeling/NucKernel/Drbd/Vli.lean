import NucKernel.Library.LittleEndian

/-!
# DRBD: the variable length code and its bit stream

The run lengths of a compressed bitmap packet are written with a code of ten levels, packed into
bytes without any alignment. A level says how many bits the code has, how many of them are the
lead by which the level is recognised, and the value of the lead.

## Modelling

`u64` values are natural numbers; none of the sums and shifts of `vli_decode_bits` reaches `2 ^ 64`.
Masking with `(1 << b) - 1` is the remainder modulo `2 ^ b`. The pointer `cur.b` is an index into
the buffer.
-/

namespace NucKernel.Drbd

open NucKernel.Library

/-! ## The code -/

/-- `LEVEL(t, b, v)`: total bits, bits of the lead, value of the lead. -/
structure Level where
  t : ℕ
  b : ℕ
  v : ℕ
  deriving DecidableEq, Repr

/-- `VLI_L_1_1`. -/
def vliLevels : List Level :=
  [⟨2, 1, 0x00⟩, ⟨3, 2, 0x01⟩, ⟨5, 3, 0x03⟩, ⟨7, 4, 0x07⟩, ⟨10, 5, 0x0f⟩, ⟨14, 6, 0x1f⟩,
    ⟨21, 8, 0x3f⟩, ⟨29, 8, 0x7f⟩, ⟨42, 8, 0xbf⟩, ⟨64, 8, 0xff⟩]

/-- The levels of `vli_decode_bits` from one on: the bits consumed and the value, `none` for the
    `BUG()` behind the last level. -/
def decodeLevels (inp : ℕ) : List Level → ℕ → Option (ℕ × ℕ)
  | [], _ => none
  | l :: ls, adj =>
    if inp % 2 ^ l.b = l.v then some (l.t, (inp % 2 ^ l.t) >>> l.b + adj)
    else decodeLevels inp ls (adj + 2 ^ (l.t - l.b))

def vliDecodeBits (inp : ℕ) : Option (ℕ × ℕ) :=
  decodeLevels inp vliLevels 1

/-- A level that fits a `u64` and leaves room for a value behind its lead. -/
def Level.Fits (l : Level) : Prop :=
  l.v < 2 ^ l.b ∧ 0 < l.b ∧ l.b < l.t ∧ l.t ≤ 64

instance (l : Level) : Decidable l.Fits :=
  inferInstanceAs (Decidable (_ ∧ _))

theorem fits_vliLevels : ∀ l ∈ vliLevels, l.Fits := by
  decide

theorem vliDecodeBits_pos {x t rl : ℕ} (h : vliDecodeBits x = some (t, rl)) : 0 < t ∧ 0 < rl := by
  -- the adjustment grows from level to level, starting with 1
  have key : ∀ (ls : List Level) (adj : ℕ), (∀ l ∈ ls, l.Fits) → 0 < adj →
      decodeLevels x ls adj = some (t, rl) → 0 < t ∧ 0 < rl := by
    intro ls
    induction ls with
    | nil => intro adj _ _ h; simp [decodeLevels] at h
    | cons l ls ih =>
      intro adj hfits hadj h
      rw [decodeLevels] at h
      split_ifs at h with hlead
      · obtain ⟨rfl, rfl⟩ : l.t = t ∧ (x % 2 ^ l.t) >>> l.b + adj = rl := by simpa using h
        have hl := (hfits l (by simp)).2
        exact ⟨by omega, Nat.add_pos_right _ hadj⟩
      · exact ih _ (fun k hk => hfits k (List.mem_cons_of_mem _ hk)) (Nat.add_pos_left hadj _) h
  exact key vliLevels 1 fits_vliLevels Nat.one_pos h

/-! ## The bit stream -/

/-- `struct bitstream`: the buffer, the current byte and bit, and the padding at the end. -/
structure Bitstream where
  buf : List UInt8
  b : ℕ
  bit : Fin 8
  padBits : ℕ
  deriving DecidableEq, Repr

namespace Bitstream

/-- `bitstream_init`. -/
def init (buf : List UInt8) (padBits : ℕ) : Bitstream := ⟨buf, 0, ⟨0, Nat.succ_pos 7⟩, padBits⟩

/-- `bitstream_cursor_advance`. -/
def advance (bs : Bitstream) (bits : ℕ) : Bitstream :=
  { bs with
    b := bs.b + (bits + bs.bit) / 8
    bit := ⟨(bits + bs.bit) % 8, Nat.mod_lt _ (Nat.succ_pos 7)⟩ }

def pos (bs : Bitstream) : ℕ := 8 * bs.b + bs.bit

def total (bs : Bitstream) : ℕ := 8 * bs.buf.length - bs.padBits

@[simp] theorem pos_advance (bs : Bitstream) (n : ℕ) : (bs.advance n).pos = bs.pos + n := by
  simp only [pos, advance]
  omega

@[simp] theorem total_advance (bs : Bitstream) (n : ℕ) : (bs.advance n).total = bs.total := rfl

@[simp] theorem advance_zero (bs : Bitstream) : bs.advance 0 = bs := by
  have hbit := bs.bit.isLt
  cases bs
  simp only [advance, Nat.zero_add, Nat.div_eq_of_lt hbit, Nat.mod_eq_of_lt hbit, Nat.add_zero]

/-- `bitstream_get_bits` for at most 64 bits: the stream, the value and the number of bits
    fetched. -/
def getBits (bs : Bitstream) (bits : ℕ) : Bitstream × ℕ × ℕ :=
  let bits :=
    if bs.buf.length ≤ bs.b + (bs.bit + bs.padBits + bits - 1) / 8 then
      (bs.buf.length - bs.b) * 8 - bs.bit - bs.padBits
    else bits
  if bits = 0 then (bs, 0, 0)
  else
    let n := (bs.bit + bits + 7) / 8
    let val := (leValue ((bs.buf.drop (bs.b + 1)).take (n - 1)) <<< (8 - (bs.bit : ℕ))) % 2 ^ 64
    let val := val ||| (bs.buf.getD bs.b 0).toNat >>> (bs.bit : ℕ)
    (bs.advance bits, val % 2 ^ bits, bits)

theorem getBits_frame (bs : Bitstream) (bits : ℕ) :
    (bs.getBits bits).2.2 ≤ bs.total - bs.pos ∧
      (bs.getBits bits).1 = bs.advance (bs.getBits bits).2.2 := by
  have hbit := bs.bit.isLt
  rw [getBits]
  split_ifs with h h0 h0
  · -- nothing is left, or nothing is asked for
    exact ⟨Nat.zero_le _, (advance_zero bs).symm⟩
  · refine ⟨?_, rfl⟩
    simp only [pos, total]
    omega
  · exact ⟨Nat.zero_le _, (advance_zero bs).symm⟩
  · refine ⟨?_, rfl⟩
    simp only [pos, total]
    omega

end Bitstream

end NucKernel.Drbd
