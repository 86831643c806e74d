import NucKernel.Library.ByteMemory
import Mathlib.Data.Int.Notation
import Mathlib.Logic.Function.Iterate

/-!
# The metering chip RN8302B (`rn8302b.c`)

A register is read and written in frames with a checksum: the address, the data with the highest
byte first, and the complement of the sum of all these bytes. A read whose checksum fails is
repeated from the register RData (0x018C), which holds the last four bytes that the chip sent. A
write is confirmed by reading WData (0x018D), which holds the last three bytes that it received, and
is tried ten times.

## Modelling

- the link is the sequence of bytes that the chip puts on SDI whenever it is clocked, and the bytes
  sent so far; chip select, the pins and the delays are left out
- a buffer is a function; the copy of the address from it succeeds
- of `RN8302_Addr` in `rn8302b_write` only two bytes are set; the others are arbitrary
-/

namespace NucKernel.CharDevices.Rn8302

open NucKernel.Library

/-! ## Bytes and frames -/

structure Link where
  sdi : ℕ → UInt8
  pos : ℕ
  sdo : List UInt8

/-- `RN8302_SendByte` -/
def Link.sendByte (l : Link) (txData : UInt8) : Link := { l with sdo := l.sdo ++ [txData] }

/-- `RN8302_ReceiveByte` -/
def Link.receiveByte (l : Link) : UInt8 × Link := (l.sdi l.pos, { l with pos := l.pos + 1 })

/-- The two bytes of an address, the second with the command -/
def addressBytes (addr : UInt32) (command : UInt8) : List UInt8 :=
  [(addr &&& 0x00FF).toUInt8, ((addr >>> 4).toUInt8 &&& 0xF0) + command]

/-- The sum of the bytes of an address, as `chksum` starts with it -/
def addressSum (addr : UInt32) (command : UInt8) : UInt8 :=
  (addressBytes addr command).foldl (· + ·) 0

def Link.sendAddress (l : Link) (addr : UInt32) (command : UInt8) : Link :=
  { l with sdo := l.sdo ++ addressBytes addr command }

/-- What the chip sent in answer to an address -/
structure Frame where
  address : List UInt8
  data : List UInt8
  check : UInt8

def Frame.Verified (f : Frame) : Prop :=
  f.check = ~~~ ((f.address ++ f.data).foldl (· + ·) 0)

instance (f : Frame) : Decidable f.Verified := inferInstanceAs (Decidable (_ = _))

/-- The byte with this index; the highest one comes first. -/
def Frame.byte (f : Frame) (k : ℕ) : Option UInt8 := f.data.reverse[k]?

/-- The frame of `n` bytes that follows on SDI -/
def frameAt (sdi : ℕ → UInt8) (pos : ℕ) (addr : UInt32) (n : ℕ) : Frame :=
  ⟨addressBytes addr 0x00, load sdi pos n, sdi (pos + n)⟩

theorem byte_frameAt (sdi : ℕ → UInt8) (pos : ℕ) (addr : UInt32) {n k : ℕ} (hk : k < n) :
    (frameAt sdi pos addr n).byte k = some (sdi (pos + (n - 1 - k))) := by
  rw [Frame.byte, List.getElem?_reverse (by simpa [frameAt] using hk)]
  simp only [frameAt, length_load]
  exact getElem?_load (by omega)

theorem byte_frameAt_none (sdi : ℕ → UInt8) (pos : ℕ) (addr : UInt32) {n k : ℕ} (hk : n ≤ k) :
    (frameAt sdi pos addr n).byte k = none :=
  List.getElem?_eq_none (by simpa [frameAt] using hk)

theorem verified_frameAt (sdi : ℕ → UInt8) (pos : ℕ) (addr : UInt32) (n : ℕ) :
    (frameAt sdi pos addr n).Verified ↔
      sdi (pos + n) = ~~~ ((load sdi pos n).foldl (· + ·) (addressSum addr 0x00)) := by
  rw [Frame.Verified, frameAt, List.foldl_append]
  rfl

/-! ## Reading -/

/-- The buffer, the link and `chksum` while bytes are received -/
structure Receipt where
  ram : ℕ → UInt8
  link : Link
  chksum : UInt8

/-- The loop over the bytes of the register, with the number of bytes that are left -/
def receiveData : ℕ → Receipt → Receipt
  | 0, r => r
  | i + 1, r =>
    let (byte, link) := r.link.receiveByte
    receiveData i ⟨Function.update r.ram i byte, link, r.chksum + byte⟩

/-- The loop over the bytes of RData. Only bytes that belong to the buffer are stored. -/
def receiveRData (lenth : UInt8) : ℕ → Receipt → Receipt
  | 0, r => r
  | i + 1, r =>
    let (temp, link) := r.link.receiveByte
    let ram :=
      if lenth.toNat ≥ i + 1 then
        if temp ≠ r.ram i then Function.update r.ram i temp else r.ram
      else r.ram
    receiveRData lenth i ⟨ram, link, r.chksum + temp⟩

/-- The loop that clears the buffer -/
def clearRam : ℕ → (ℕ → UInt8) → ℕ → UInt8
  | 0, ram => ram
  | i + 1, ram => clearRam i (Function.update ram i 0)

/-- The returned status, the buffer and the link -/
structure ReadResult where
  status : UInt8
  ram : ℕ → UInt8
  link : Link

/-- RData is read after the checksum of the data has failed. -/
def repeatRead (lenth : UInt8) (ram : ℕ → UInt8) (link : Link) : ReadResult :=
  let r := receiveRData lenth 4 ⟨ram, link.sendAddress 0x018C 0x00, addressSum 0x018C 0x00⟩
  let (temp, link) := r.link.receiveByte
  if temp ≠ ~~~ r.chksum then ⟨0x00, clearRam lenth.toNat r.ram, link⟩
  else ⟨0x01, r.ram, link⟩

def rn8302Read (ram : ℕ → UInt8) (addr : UInt32) (lenth : UInt8) (link : Link) : ReadResult :=
  let r := receiveData lenth.toNat ⟨ram, link.sendAddress addr 0x00, addressSum addr 0x00⟩
  let (temp, link) := r.link.receiveByte
  if temp ≠ ~~~ r.chksum then repeatRead lenth r.ram link
  else ⟨0x01, r.ram, link⟩

def eio : ℤ := 5

def efault : ℤ := 14

/-- `rn8302b_read`: the address is in the caller's buffer, and the length is narrowed to a byte. -/
def rn8302bRead (isOpen : Bool) (buf : ℕ → UInt8) (count : UInt32) (link : Link) :
    ℤ × (ℕ → UInt8) × Link :=
  if isOpen = false then (-efault, buf, link)
  else
    let addr := (buf 0).toUInt32 ||| (buf 1).toUInt32 <<< 8
    let r := rn8302Read buf addr count.toUInt8 link
    (if r.status = 0x00 then -eio else count.toNat, r.ram, r.link)

/-! ### The loops -/

theorem receiveData_eq (n : ℕ) (r : Receipt) :
    receiveData n r =
      ⟨fun k => if k < n then r.link.sdi (r.link.pos + (n - 1 - k)) else r.ram k,
        { r.link with pos := r.link.pos + n },
        (load r.link.sdi r.link.pos n).foldl (· + ·) r.chksum⟩ := by
  induction n generalizing r with
  | zero => simp [receiveData]
  | succ n ih =>
    simp only [receiveData, Link.receiveByte]
    rw [ih]
    simp only [load_succ, List.foldl_cons, Receipt.mk.injEq, Link.mk.injEq, and_true, true_and]
    refine ⟨funext fun k => ?_, by omega⟩
    -- the byte of this round, and those of the later and the earlier ones
    rcases Nat.lt_trichotomy k n with hk | rfl | hk
    · rw [if_pos hk, if_pos (by omega)]
      exact congrArg r.link.sdi (by omega)
    · rw [if_neg (Nat.lt_irrefl k), if_pos (Nat.lt_succ_self k), Function.update_self]
      exact congrArg r.link.sdi (by omega)
    · rw [if_neg (by omega), if_neg (by omega), Function.update_of_ne (by omega)]

theorem ite_update (ram : ℕ → UInt8) (i : ℕ) (temp : UInt8) :
    (if temp ≠ ram i then Function.update ram i temp else ram) = Function.update ram i temp := by
  split
  · rfl
  · rename_i heq
    rw [not_not.mp heq, Function.update_eq_self]

theorem receiveRData_succ (lenth : UInt8) (i : ℕ) (r : Receipt) :
    receiveRData lenth (i + 1) r =
      receiveRData lenth i
        ⟨if i < lenth.toNat then Function.update r.ram i (r.link.sdi r.link.pos) else r.ram,
          { r.link with pos := r.link.pos + 1 }, r.chksum + r.link.sdi r.link.pos⟩ := by
  rw [receiveRData]
  simp only [ite_update]
  rfl

theorem receiveRData_eq (lenth : UInt8) (n : ℕ) (r : Receipt) :
    receiveRData lenth n r =
      ⟨fun k => if k < n ∧ k < lenth.toNat then r.link.sdi (r.link.pos + (n - 1 - k)) else r.ram k,
        { r.link with pos := r.link.pos + n },
        (load r.link.sdi r.link.pos n).foldl (· + ·) r.chksum⟩ := by
  induction n generalizing r with
  | zero => simp [receiveRData]
  | succ n ih =>
    rw [receiveRData_succ, ih]
    simp only [load_succ, List.foldl_cons, Receipt.mk.injEq, Link.mk.injEq, and_true, true_and]
    refine ⟨funext fun k => ?_, by omega⟩
    -- as without `lenth`, but only bytes of the buffer are stored
    rcases Nat.lt_trichotomy k n with hk | rfl | hk
    · by_cases hl : k < lenth.toNat
      · rw [if_pos ⟨hk, hl⟩, if_pos ⟨by omega, hl⟩]
        exact congrArg r.link.sdi (by omega)
      · rw [if_neg (by omega), if_neg (by omega), if_neg (by omega)]
    · rw [if_neg (by omega)]
      by_cases hl : k < lenth.toNat
      · rw [if_pos hl, if_pos ⟨Nat.lt_succ_self k, hl⟩, Function.update_self]
        exact congrArg r.link.sdi (by omega)
      · rw [if_neg hl, if_neg (by omega)]
    · rw [if_neg (show ¬ (k < n ∧ k < lenth.toNat) by omega),
        if_neg (show ¬ (k < n + 1 ∧ k < lenth.toNat) by omega)]
      split
      · rw [Function.update_of_ne (by omega)]
      · rfl

theorem clearRam_eq (n : ℕ) (ram : ℕ → UInt8) :
    clearRam n ram = fun k => if k < n then 0 else ram k := by
  induction n generalizing ram with
  | zero => simp [clearRam]
  | succ n ih =>
    rw [clearRam, ih]
    funext k
    rcases Nat.lt_trichotomy k n with hk | rfl | hk
    · rw [if_pos hk, if_pos (by omega)]
    · rw [if_neg (Nat.lt_irrefl k), if_pos (Nat.lt_succ_self k), Function.update_self]
    · rw [if_neg (by omega), if_neg (by omega), Function.update_of_ne (by omega)]

/-! ### What the bytes are covered by -/

section Read

variable (ram : ℕ → UInt8) (addr : UInt32) (lenth : UInt8) (link : Link)

/-- The frame of the register -/
def dataFrame : Frame := frameAt link.sdi link.pos addr lenth.toNat

/-- The frame of RData, if it is read -/
def rDataFrame : Frame := frameAt link.sdi (link.pos + lenth.toNat + 1) 0x018C 4

/-- The frames that a call receives -/
def framesRead : List Frame :=
  if (dataFrame addr lenth link).Verified then [dataFrame addr lenth link]
  else [dataFrame addr lenth link, rDataFrame lenth link]

def Covered (frames : List Frame) (k : ℕ) (byte : UInt8) : Prop :=
  ∃ f ∈ frames, f.Verified ∧ f.byte k = some byte

/-- What a read promises about the buffer -/
def Authentic : Prop :=
  let r := rn8302Read ram addr lenth link
  (r.status = 0x01 → ∀ k < lenth.toNat, Covered (framesRead addr lenth link) k (r.ram k)) ∧
    (r.status = 0x00 → ∀ k < lenth.toNat, r.ram k = 0)

def filled : ℕ → UInt8 :=
  fun k => if k < lenth.toNat then link.sdi (link.pos + (lenth.toNat - 1 - k)) else ram k

def afterData : Link :=
  ⟨link.sdi, link.pos + lenth.toNat + 1, link.sdo ++ addressBytes addr 0x00⟩

theorem rn8302Read_eq :
    rn8302Read ram addr lenth link =
      if (dataFrame addr lenth link).Verified then
        ⟨0x01, filled ram lenth link, afterData addr lenth link⟩
      else repeatRead lenth (filled ram lenth link) (afterData addr lenth link) := by
  have hdata : (dataFrame addr lenth link).Verified ↔ _ :=
    verified_frameAt link.sdi link.pos addr lenth.toNat
  rw [rn8302Read, receiveData_eq]
  by_cases h : (dataFrame addr lenth link).Verified
  · rw [if_pos h]
    exact if_neg (not_not.mpr (hdata.mp h))
  · rw [if_neg h]
    exact if_pos (mt hdata.mpr h)

def repaired : ℕ → UInt8 :=
  fun k => if k < 4 ∧ k < lenth.toNat then link.sdi (link.pos + (4 - 1 - k)) else ram k

theorem repeatRead_eq :
    repeatRead lenth ram link =
      let link' : Link := ⟨link.sdi, link.pos + 4 + 1, link.sdo ++ addressBytes 0x018C 0x00⟩
      if (frameAt link.sdi link.pos 0x018C 4).Verified then
        ⟨0x01, repaired ram lenth link, link'⟩
      else ⟨0x00, clearRam lenth.toNat (repaired ram lenth link), link'⟩ := by
  have hrdata := verified_frameAt link.sdi link.pos 0x018C 4
  rw [repeatRead, receiveRData_eq]
  by_cases h : (frameAt link.sdi link.pos 0x018C 4).Verified
  · rw [if_pos h]
    exact if_neg (not_not.mpr (hrdata.mp h))
  · rw [if_neg h]
    exact if_pos (mt hrdata.mpr h)

theorem rn8302Read_cases :
    let r := rn8302Read ram addr lenth link
    ((dataFrame addr lenth link).Verified ∧ r.status = 0x01 ∧
      ∀ k < lenth.toNat, (dataFrame addr lenth link).byte k = some (r.ram k)) ∨
    (¬ (dataFrame addr lenth link).Verified ∧ (rDataFrame lenth link).Verified ∧ r.status = 0x01 ∧
      ∀ k < lenth.toNat, k < 4 → (rDataFrame lenth link).byte k = some (r.ram k)) ∨
    (¬ (dataFrame addr lenth link).Verified ∧ ¬ (rDataFrame lenth link).Verified ∧
      r.status = 0x00 ∧ ∀ k < lenth.toNat, r.ram k = 0) := by
  have hframe : frameAt (afterData addr lenth link).sdi (afterData addr lenth link).pos 0x018C 4 =
      rDataFrame lenth link := rfl
  rw [rn8302Read_eq, repeatRead_eq, hframe]
  by_cases hdata : (dataFrame addr lenth link).Verified
  · -- the data is right
    rw [if_pos hdata]
    refine Or.inl ⟨hdata, rfl, fun k hk => ?_⟩
    rw [dataFrame, byte_frameAt _ _ _ hk]
    simp only [filled, if_pos hk]
  · rw [if_neg hdata]
    by_cases hrdata : (rDataFrame lenth link).Verified
    · -- RData is right: its four bytes are in the buffer
      refine Or.inr (Or.inl ⟨hdata, hrdata, ?_⟩)
      dsimp only
      rw [if_pos hrdata]
      refine ⟨rfl, fun k hk h4 => ?_⟩
      rw [rDataFrame, byte_frameAt _ _ _ h4]
      simp only [repaired, if_pos (And.intro h4 hk)]
      rfl
    · -- both checksums are wrong, and the buffer is cleared
      refine Or.inr (Or.inr ⟨hdata, hrdata, ?_⟩)
      dsimp only
      rw [if_neg hrdata]
      refine ⟨rfl, fun k hk => ?_⟩
      simp only [clearRam_eq, if_pos hk]

/-- A read keeps its promise if and only if the checksum of the data is right, or RData has all the
    bytes, or the checksum of RData is wrong too. -/
theorem authentic_iff :
    Authentic ram addr lenth link ↔
      (dataFrame addr lenth link).Verified ∨ lenth.toNat ≤ 4 ∨
        ¬ (rDataFrame lenth link).Verified := by
  unfold Authentic framesRead
  obtain ⟨hdata, hstatus, hbytes⟩ | ⟨hdata, hrdata, hstatus, hbytes⟩ |
    ⟨hdata, hrdata, hstatus, hbytes⟩ := rn8302Read_cases ram addr lenth link
  · -- the bytes are those of the data
    refine iff_of_true ⟨fun _ k hk => ?_, fun h0 => ?_⟩ (Or.inl hdata)
    · rw [if_pos hdata]
      exact ⟨_, List.mem_singleton_self _, hdata, hbytes k hk⟩
    · exact absurd (hstatus.symm.trans h0) (by decide)
  · rw [if_neg hdata]
    constructor
    · rintro ⟨hcovered, -⟩
      refine Or.inr (Or.inl (Nat.le_of_not_lt fun h4 => ?_))
      -- the byte with index 4 is in no frame that counts
      obtain ⟨f, hf, hver, hbyte⟩ := hcovered hstatus 4 h4
      rw [List.mem_pair] at hf
      obtain rfl | rfl := hf
      · exact hdata hver
      · rw [rDataFrame, byte_frameAt_none _ _ _ (Nat.le_refl 4)] at hbyte
        cases hbyte
    · intro hor
      refine ⟨fun _ k hk => ?_, fun h0 => absurd (hstatus.symm.trans h0) (by decide)⟩
      have h4 : lenth.toNat ≤ 4 :=
        (hor.resolve_left hdata).resolve_right (not_not.mpr hrdata)
      exact ⟨_, List.mem_pair.mpr (Or.inr rfl), hrdata, hbytes k hk (by omega)⟩
  · refine iff_of_true ⟨fun h1 => ?_, fun _ => hbytes⟩ (Or.inr (Or.inr hrdata))
    exact absurd (hstatus.symm.trans h1) (by decide)

end Read

/-- A stream that starts with these bytes -/
def stream (bytes : List UInt8) (i : ℕ) : UInt8 := bytes.getD i 0

/-- Five bytes are read from the register 0, and their checksum 00 is wrong. RData has a right
    checksum, and `RAM_Addr[4]` stays what the first frame had. -/
theorem fifth_byte_uncovered :
    let link : Link := ⟨stream [0xAA, 1, 2, 3, 4, 0x00, 1, 2, 3, 4, 0x59], 0, []⟩
    (rn8302Read (fun _ => 0) 0 5 link).status = 0x01 ∧
      (rn8302Read (fun _ => 0) 0 5 link).ram 4 = 0xAA ∧
      ¬ Authentic (fun _ => 0) 0 5 link := by
  intro link
  have hdata : ¬ (dataFrame 0 5 link).Verified := by decide
  have hrdata : (rDataFrame 5 link).Verified := by decide
  have hstatus : (rn8302Read (fun _ => 0) 0 5 link).status = 0x01 := by decide
  refine ⟨hstatus, by decide, fun h => ?_⟩
  obtain ⟨f, hf, hver, hbyte⟩ := h.1 hstatus 4 (by decide)
  rw [framesRead, if_neg hdata, List.mem_pair] at hf
  obtain rfl | rfl := hf
  · exact hdata hver
  · cases hbyte

/-! ## Writing -/

/-- The loop over the bytes of the data, with the number of bytes that are left -/
def sendData (ram : ℕ → UInt8) : ℕ → Link × UInt8 → Link × UInt8
  | 0, s => s
  | i + 1, s => sendData ram i (s.1.sendByte (ram i), s.2 + ram i)

/-- The loop over the bytes of WData, up to the first byte of the data that is not echoed -/
def receiveWData (ram : ℕ → UInt8) (lenth : UInt8) : ℕ → Link × UInt8 → Link × Option UInt8
  | 0, s => (s.1, some s.2)
  | i + 1, s =>
    let r := s.1.receiveByte
    if lenth.toNat ≥ i + 1 ∧ r.1 ≠ ram i then (r.2, none)
    else receiveWData ram lenth i (r.2, s.2 + r.1)

/-- One round of the loop of `RN8302_Write`: the link after it, and whether the data is confirmed -/
def attempt (addr : UInt32) (ram : ℕ → UInt8) (lenth : UInt8) (link : Link) : Link × Bool :=
  let s := sendData ram lenth.toNat (link.sendAddress addr 0x80, addressSum addr 0x80)
  let link := (s.1.sendByte (~~~ s.2)).sendAddress 0x018D 0x00
  match receiveWData ram lenth 3 (link, addressSum 0x018D 0x00) with
  | (link, none) => (link, false)
  | (link, some chksum) => (link.receiveByte.2, link.receiveByte.1 = ~~~ chksum)

/-- The returned status and the link, with the places on SDI where WData was read -/
structure WriteResult where
  status : UInt8
  link : Link
  tried : List ℕ

/-- The rounds that are left -/
def writeLoop (addr : UInt32) (ram : ℕ → UInt8) (lenth : UInt8) : ℕ → WriteResult → WriteResult
  | 0, r => r
  | n + 1, r =>
    let a := attempt addr ram lenth r.link
    if a.2 then ⟨0x01, a.1, r.tried ++ [r.link.pos]⟩
    else writeLoop addr ram lenth n ⟨0x00, a.1, r.tried ++ [r.link.pos]⟩

def rn8302Write (addr : UInt32) (ram : ℕ → UInt8) (lenth : UInt8) (link : Link) : WriteResult :=
  writeLoop addr ram lenth 10 ⟨0x00, link, []⟩

/-- `count - 2`, narrowed to `Lenth` -/
def writeLenth (count : UInt32) : UInt8 := (count - 2).toUInt8

/-- The call of `RN8302_Write` in `rn8302b_write` -/
def rn8302bCall (buf : ℕ → UInt8) (count : UInt32) (unset : UInt16) (link : Link) : WriteResult :=
  let addr := (buf 0).toUInt32 ||| (buf 1).toUInt32 <<< 8 ||| unset.toUInt32 <<< 16
  rn8302Write addr (fun k => buf (k + 2)) (writeLenth count) link

def rn8302bWrite (isOpen : Bool) (buf : ℕ → UInt8) (count : UInt32) (unset : UInt16)
    (link : Link) : ℤ :=
  if isOpen = false then -efault
  else if (rn8302bCall buf count unset link).status = 0x00 then -eio
  else count.toNat

/-! ### What is confirmed -/

section Write

variable {addr : UInt32} {ram : ℕ → UInt8} {lenth : UInt8}

/-- The frame of WData -/
def wDataFrame (sdi : ℕ → UInt8) (pos : ℕ) : Frame := frameAt sdi pos 0x018D 3

theorem sendData_link (ram : ℕ → UInt8) (n : ℕ) (s : Link × UInt8) :
    (sendData ram n s).1.sdi = s.1.sdi ∧ (sendData ram n s).1.pos = s.1.pos := by
  induction n generalizing s with
  | zero => exact ⟨rfl, rfl⟩
  | succ n ih => exact ih _

/-- The next `n` bytes on SDI are those of the data, as far as the data has them. -/
def Echoes (ram : ℕ → UInt8) (lenth : UInt8) (link : Link) (n : ℕ) : Prop :=
  ∀ k < n, k < lenth.toNat → link.sdi (link.pos + (n - 1 - k)) = ram k

theorem Echoes.succ_iff {link : Link} {n : ℕ} :
    Echoes ram lenth link (n + 1) ↔
      ¬ (lenth.toNat ≥ n + 1 ∧ link.receiveByte.1 ≠ ram n) ∧
        Echoes ram lenth link.receiveByte.2 n := by
  constructor
  · intro h
    refine ⟨fun hdiff => hdiff.2 ?_, fun k hk hl => ?_⟩
    · rw [← h n (Nat.lt_succ_self n) hdiff.1]
      exact congrArg link.sdi (by omega)
    · rw [← h k (by omega) hl]
      exact congrArg link.sdi (by simp only [Link.receiveByte]; omega)
  · rintro ⟨hsame, hrest⟩ k hk hl
    by_cases hkn : k < n
    · rw [← hrest k hkn hl]
      exact congrArg link.sdi (by simp only [Link.receiveByte]; omega)
    · obtain rfl : k = n := by omega
      rw [show link.pos + (k + 1 - 1 - k) = link.pos by omega]
      exact not_not.mp fun hne => hsame ⟨hl, hne⟩

theorem receiveWData_of_echoes {n : ℕ} {s : Link × UInt8} (h : Echoes ram lenth s.1 n) :
    receiveWData ram lenth n s =
      ({ s.1 with pos := s.1.pos + n },
        some ((load s.1.sdi s.1.pos n).foldl (· + ·) s.2)) := by
  induction n generalizing s with
  | zero => rfl
  | succ n ih =>
    obtain ⟨hsame, hrest⟩ := Echoes.succ_iff.mp h
    rw [receiveWData]
    dsimp only
    rw [if_neg hsame, ih hrest, load_succ, List.foldl_cons]
    simp only [Link.receiveByte, Prod.mk.injEq, Link.mk.injEq, true_and, and_true]
    omega

theorem receiveWData_of_not_echoes {n : ℕ} {s : Link × UInt8} (h : ¬ Echoes ram lenth s.1 n) :
    (receiveWData ram lenth n s).1.sdi = s.1.sdi ∧ (receiveWData ram lenth n s).2 = none := by
  induction n generalizing s with
  | zero => exact absurd (fun k hk => absurd hk (Nat.not_lt_zero k)) h
  | succ n ih =>
    rw [Echoes.succ_iff, not_and] at h
    rw [receiveWData]
    split
    · exact ⟨rfl, rfl⟩
    · rename_i hsame
      exact ih (h hsame)

/-- Where a read-back of `i` bytes ends: behind the first byte of the data that is not echoed, or
    behind the checksum -/
def readBackEnd (sdi ram : ℕ → UInt8) (lenth : UInt8) : (i pos : ℕ) → ℕ
  | 0, pos => pos + 1
  | i + 1, pos =>
    if lenth.toNat ≥ i + 1 ∧ sdi pos ≠ ram i then pos + 1
    else readBackEnd sdi ram lenth i (pos + 1)

theorem receiveWData_pos (n : ℕ) (s : Link × UInt8) :
    (receiveWData ram lenth n s).1.pos +
        (if (receiveWData ram lenth n s).2.isSome then 1 else 0) =
      readBackEnd s.1.sdi ram lenth n s.1.pos := by
  induction n generalizing s with
  | zero => rfl
  | succ n ih =>
    rw [receiveWData, readBackEnd, show s.1.receiveByte.1 = s.1.sdi s.1.pos from rfl]
    by_cases hdiff : lenth.toNat ≥ n + 1 ∧ s.1.sdi s.1.pos ≠ ram n
    · simp only [if_pos hdiff]
      rfl
    · simp only [if_neg hdiff]
      exact ih _

theorem attempt_spec (addr : UInt32) (ram : ℕ → UInt8) (lenth : UInt8) (link : Link) :
    (attempt addr ram lenth link).1.sdi = link.sdi ∧
    (attempt addr ram lenth link).1.pos = readBackEnd link.sdi ram lenth 3 link.pos ∧
    ((attempt addr ram lenth link).2 = true ↔
      Echoes ram lenth link 3 ∧ (wDataFrame link.sdi link.pos).Verified) := by
  obtain ⟨hsdi, hpos⟩ := sendData_link ram lenth.toNat
    (link.sendAddress addr 0x80, addressSum addr 0x80)
  rw [attempt]
  -- what was sent does not matter, only where the chip stands
  generalize hs : sendData ram lenth.toNat (link.sendAddress addr 0x80, addressSum addr 0x80) = s
    at hsdi hpos
  have hsdi' : ((s.1.sendByte (~~~ s.2)).sendAddress 0x018D 0x00).sdi = link.sdi := hsdi
  have hpos' : ((s.1.sendByte (~~~ s.2)).sendAddress 0x018D 0x00).pos = link.pos := hpos
  generalize (s.1.sendByte (~~~ s.2)).sendAddress 0x018D 0x00 = link' at hsdi' hpos'
  have hecho : Echoes ram lenth link' 3 ↔ Echoes ram lenth link 3 := by
    rw [Echoes, Echoes, hsdi', hpos']
  have hend := @receiveWData_pos ram lenth 3 (link', addressSum 0x018D 0x00)
  rw [hsdi', hpos'] at hend
  by_cases h : Echoes ram lenth link' 3
  · -- the checksum decides
    rw [receiveWData_of_echoes h]
    rw [receiveWData_of_echoes h] at hend
    refine ⟨hsdi', hend, ?_⟩
    rw [wDataFrame, verified_frameAt, ← hsdi', ← hpos', decide_eq_true_eq]
    exact ⟨fun hcheck => ⟨hecho.mp h, hcheck⟩, fun hcheck => hcheck.2⟩
  · -- the loop has ended at a byte that differs
    obtain ⟨hlink, hnone⟩ := receiveWData_of_not_echoes (s := (link', addressSum 0x018D 0x00)) h
    generalize receiveWData ram lenth 3 (link', addressSum 0x018D 0x00) = r at hlink hnone hend
    obtain ⟨link'', chksum⟩ := r
    obtain rfl : chksum = none := hnone
    refine ⟨hlink.trans hsdi', hend, iff_of_false Bool.false_ne_true fun hboth => ?_⟩
    exact h (hecho.mpr hboth.1)

/-- Every byte of the data is in a frame of WData whose checksum is right. -/
def Echoed (sdi : ℕ → UInt8) (pos : ℕ) (ram : ℕ → UInt8) (lenth : UInt8) : Prop :=
  (wDataFrame sdi pos).Verified ∧
    ∀ k < lenth.toNat, (wDataFrame sdi pos).byte k = some (ram k)

theorem echoed_iff (link : Link) :
    Echoed link.sdi link.pos ram lenth ↔
      Echoes ram lenth link 3 ∧ (wDataFrame link.sdi link.pos).Verified ∧ lenth.toNat ≤ 3 := by
  constructor
  · rintro ⟨hver, hbytes⟩
    refine ⟨fun k hk hl => ?_, hver, Nat.le_of_not_lt fun h3 => ?_⟩
    · have hbyte := hbytes k hl
      rw [wDataFrame, byte_frameAt _ _ _ hk] at hbyte
      exact Option.some.inj hbyte
    · -- WData has no fourth byte
      have hbyte := hbytes 3 h3
      rw [wDataFrame, byte_frameAt_none _ _ _ (Nat.le_refl 3)] at hbyte
      cases hbyte
  · rintro ⟨hecho, hver, h3⟩
    refine ⟨hver, fun k hk => ?_⟩
    rw [wDataFrame, byte_frameAt _ _ _ (Nat.lt_of_lt_of_le hk h3)]
    exact congrArg some (hecho k (by omega) hk)

/-- What the rounds of the loop leave: the last one decides about the status. -/
structure Tried (ram : ℕ → UInt8) (lenth : UInt8) (sdi : ℕ → UInt8) (r : WriteResult) : Prop where
  sdi_eq : r.link.sdi = sdi
  status : r.status = 0x00 ∨ r.status = 0x01
  last : r.status = 0x01 → ∃ p, r.tried.getLast? = some p ∧
    Echoes ram lenth ⟨sdi, p, []⟩ 3 ∧ (wDataFrame sdi p).Verified

theorem status_ne : (0x00 : UInt8) ≠ 0x01 := by decide

theorem writeLoop_spec (addr : UInt32) (n : ℕ) {r : WriteResult} {sdi : ℕ → UInt8}
    (h : Tried ram lenth sdi r) :
    Tried ram lenth sdi (writeLoop addr ram lenth n r) ∧
      (writeLoop addr ram lenth n r).tried.length ≤ r.tried.length + n := by
  induction n generalizing r with
  | zero => exact ⟨h, Nat.le_refl _⟩
  | succ n ih =>
    obtain ⟨hsdi, -, hok⟩ := attempt_spec addr ram lenth r.link
    rw [writeLoop]
    split
    · -- the attempt that succeeds is the last one
      rename_i hconfirmed
      obtain ⟨hecho, hver⟩ := hok.mp hconfirmed
      refine ⟨⟨hsdi.trans h.sdi_eq, Or.inr rfl, fun _ => ⟨r.link.pos, by simp, ?_, ?_⟩⟩, ?_⟩
      · rw [← h.sdi_eq]
        exact hecho
      · rw [← h.sdi_eq]
        exact hver
      · simp only [List.length_append, List.length_singleton]
        omega
    · have hnext : Tried ram lenth sdi ⟨0x00, (attempt addr ram lenth r.link).1,
          r.tried ++ [r.link.pos]⟩ :=
        ⟨hsdi.trans h.sdi_eq, Or.inl rfl, fun h1 => absurd h1 status_ne⟩
      obtain ⟨htried, hlen⟩ := ih hnext
      refine ⟨htried, Nat.le_trans hlen ?_⟩
      simp only [List.length_append, List.length_singleton]
      omega

/-- The frame of WData that is read in the `k`-th attempt, if those before it failed, does not echo
    what is compared. -/
def Unechoed (ram : ℕ → UInt8) (lenth : UInt8) (sdi : ℕ → UInt8) (pos k : ℕ) : Prop :=
  let p := (readBackEnd sdi ram lenth 3)^[k] pos
  ¬ (Echoes ram lenth ⟨sdi, p, []⟩ 3 ∧ (wDataFrame sdi p).Verified)

theorem writeLoop_status (addr : UInt32) (n : ℕ) {r : WriteResult} (hr : r.status = 0x00) :
    (writeLoop addr ram lenth n r).status = 0x00 ↔
      ∀ k < n, Unechoed ram lenth r.link.sdi r.link.pos k := by
  induction n generalizing r with
  | zero => exact iff_of_true hr fun k hk => absurd hk (Nat.not_lt_zero k)
  | succ n ih =>
    obtain ⟨hsdi, hpos, hok⟩ := attempt_spec addr ram lenth r.link
    rw [writeLoop, Nat.forall_lt_succ_left]
    split
    · -- the first frame is echoed
      rename_i hconfirmed
      exact iff_of_false (fun h => status_ne h.symm) fun h => h.1 (hok.mp hconfirmed)
    · rename_i hfailed
      have hfirst : Unechoed ram lenth r.link.sdi r.link.pos 0 := fun h => hfailed (hok.mpr h)
      rw [ih rfl, and_iff_right hfirst, hsdi, hpos]
      rfl

end Write

section Confirmed

variable (addr : UInt32) (ram : ℕ → UInt8) (lenth : UInt8) (link : Link)

theorem rn8302Write_spec :
    Tried ram lenth link.sdi (rn8302Write addr ram lenth link) ∧
      (rn8302Write addr ram lenth link).tried.length ≤ 10 := by
  have hstart : Tried ram lenth link.sdi ⟨0x00, link, []⟩ :=
    ⟨rfl, Or.inl rfl, fun h1 => absurd h1 status_ne⟩
  obtain ⟨htried, hlen⟩ := writeLoop_spec addr 10 hstart
  exact ⟨htried, hlen⟩

/-- What `RN8302_Write` promises: at most ten attempts, and success only if the last one had every
    byte echoed -/
def WriteConfirmed : Prop :=
  let r := rn8302Write addr ram lenth link
  r.tried.length ≤ 10 ∧
    (r.status = 0x01 → ∃ p, r.tried.getLast? = some p ∧ Echoed link.sdi p ram lenth)

/-- What `rn8302b_write` promises: it returns `count` only if all `count - 2` bytes are in the data
    that is confirmed -/
def CallConfirmed (isOpen : Bool) (buf : ℕ → UInt8) (count : UInt32) (unset : UInt16) : Prop :=
  rn8302bWrite isOpen buf count unset link = count.toNat →
    ∃ p, (rn8302bCall buf count unset link).tried.getLast? = some p ∧ 2 ≤ count.toNat ∧
      (writeLenth count).toNat = count.toNat - 2 ∧
      Echoed link.sdi p (fun k => buf (k + 2)) (writeLenth count)

theorem writeConfirmed_iff :
    WriteConfirmed addr ram lenth link ↔
      lenth.toNat ≤ 3 ∨ (rn8302Write addr ram lenth link).status = 0x00 := by
  obtain ⟨htried, hlen⟩ := rn8302Write_spec addr ram lenth link
  constructor
  · rintro ⟨-, hconfirm⟩
    refine htried.status.symm.imp_left fun h1 => ?_
    obtain ⟨p, -, hecho⟩ := hconfirm h1
    -- a byte beyond the third one is not confirmed
    exact ((echoed_iff ⟨link.sdi, p, []⟩).mp hecho).2.2
  · intro hor
    refine ⟨hlen, fun h1 => ?_⟩
    obtain ⟨p, hp, hecho, hver⟩ := htried.last h1
    have h3 := hor.resolve_right fun h0 => absurd (h0.symm.trans h1) status_ne
    exact ⟨p, hp, (echoed_iff ⟨link.sdi, p, []⟩).mpr ⟨hecho, hver, h3⟩⟩

theorem writeLenth_toNat (count : UInt32) :
    (writeLenth count).toNat = (count.toNat + 254) % 256 := by
  simp only [writeLenth, UInt32.toNat_toUInt8, UInt32.toNat_sub, UInt32.toNat_ofNat]
  omega

theorem rn8302bWrite_eq_count {isOpen : Bool} {buf : ℕ → UInt8} {count : UInt32}
    {unset : UInt16} :
    rn8302bWrite isOpen buf count unset link = count.toNat ↔
      isOpen = true ∧ (rn8302bCall buf count unset link).status ≠ 0x00 := by
  have hnat : (0 : ℤ) ≤ count.toNat := Int.natCast_nonneg _
  unfold rn8302bWrite
  split_ifs with hopen h0
  · refine iff_of_false ?_ (by simp [hopen])
    simp only [efault]
    omega
  · refine iff_of_false ?_ fun h => h.2 h0
    simp only [eio]
    omega
  · exact iff_of_true rfl ⟨by simpa using hopen, h0⟩

theorem callConfirmed_iff (isOpen : Bool) (buf : ℕ → UInt8) (count : UInt32) (unset : UInt16) :
    CallConfirmed link isOpen buf count unset ↔
      isOpen = false ∨ (rn8302bCall buf count unset link).status = 0x00 ∨
        (2 ≤ count.toNat ∧ count.toNat ≤ 5) := by
  have hlenth := writeLenth_toNat count
  have hstatus : (rn8302bCall buf count unset link).status = 0x00 ∨
      (rn8302bCall buf count unset link).status = 0x01 := (rn8302Write_spec _ _ _ link).1.status
  rw [CallConfirmed, rn8302bWrite_eq_count]
  constructor
  · intro hcall
    by_cases hopen : isOpen = false
    · exact Or.inl hopen
    · refine Or.inr (or_iff_not_imp_left.mpr fun h0 => ?_)
      -- the length is narrowed, so that 0 to 3 bytes may be sent for a larger count
      obtain ⟨p, -, h2, hlen, hecho⟩ := hcall ⟨by simpa using hopen, h0⟩
      have h3 := ((echoed_iff ⟨link.sdi, p, []⟩).mp hecho).2.2
      omega
  · rintro hor ⟨hopen, h0⟩
    have h1 := hstatus.resolve_left h0
    obtain ⟨h2, h5⟩ := (hor.resolve_left (by simp [hopen])).resolve_left h0
    obtain ⟨p, hp, hecho, hver⟩ := (rn8302Write_spec _ _ _ link).1.last h1
    refine ⟨p, hp, h2, by omega, (echoed_iff ⟨link.sdi, p, []⟩).mpr ⟨hecho, hver, by omega⟩⟩

/-- A write is confirmed as a whole if and only if it has at most three bytes or none of the ten
    frames echoes what is compared; a call, if and only if the device is not open, none of the
    frames does so, or `count` is from 2 to 5. -/
theorem confirmed_iff (isOpen : Bool) (buf : ℕ → UInt8) (count : UInt32) (unset : UInt16) :
    (WriteConfirmed addr ram lenth link ↔
      lenth.toNat ≤ 3 ∨ ∀ k < 10, Unechoed ram lenth link.sdi link.pos k) ∧
    (CallConfirmed link isOpen buf count unset ↔
      isOpen = false ∨
        (∀ k < 10, Unechoed (fun k => buf (k + 2)) (writeLenth count) link.sdi link.pos k) ∨
        (2 ≤ count.toNat ∧ count.toNat ≤ 5)) := by
  rw [writeConfirmed_iff, callConfirmed_iff, rn8302bCall, rn8302Write, rn8302Write,
    writeLoop_status _ _ rfl, writeLoop_status _ _ rfl]
  exact ⟨Iff.rfl, Iff.rfl⟩

end Confirmed

/-- Four bytes are written; the three that WData echoes are right, and the write is a success. A
    call with 256 bytes of data writes none of them, and returns `count`. -/
theorem unconfirmed_success :
    let echo : Link := ⟨stream [3, 2, 1, 0x5C], 0, []⟩
    let silent : Link := ⟨stream [0, 0, 0, 0x62], 0, []⟩
    (rn8302Write 0 (stream [1, 2, 3, 9]) 4 echo).status = 0x01 ∧
      ¬ WriteConfirmed 0 (stream [1, 2, 3, 9]) 4 echo ∧
      rn8302bWrite true (stream []) 258 0 silent = 258 ∧
      ¬ CallConfirmed silent true (stream []) 258 0 := by
  intro echo silent
  have hwrite : (rn8302Write 0 (stream [1, 2, 3, 9]) 4 echo).status = 0x01 := by decide +kernel
  have hcall : (rn8302bCall (stream []) 258 0 silent).status = 0x01 := by decide +kernel
  refine ⟨hwrite, fun h => ?_, by decide +kernel, fun h => ?_⟩
  · obtain hlen | h0 := (writeConfirmed_iff 0 (stream [1, 2, 3, 9]) 4 echo).mp h
    · exact absurd hlen (by decide)
    · exact absurd (h0.symm.trans hwrite) status_ne
  · obtain hopen | h0 | hcount := (callConfirmed_iff silent true (stream []) 258 0).mp h
    · cases hopen
    · exact absurd (h0.symm.trans hcall) status_ne
    · exact absurd hcount.2 (by decide)

end NucKernel.CharDevices.Rn8302
