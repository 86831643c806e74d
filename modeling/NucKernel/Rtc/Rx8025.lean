import Mathlib.Data.List.GetD
import Mathlib.Tactic.IntervalCases
import NucKernel.Library.Bytes
import NucKernel.Library.Runs
import NucKernel.Rtc.Calendar

/-!
# The RX8025 clock chip

Model of `drivers/rtc/rtc-rx8025.c`. The driver reads the seven time registers of the chip one by
one, each with a write of the register number and a read of one byte, and decodes the bytes into a
date that `rtc_valid_tm` checks. The clock goes on while it does so.

## Modelling

- The chip takes every year that is divisible by four for a leap year and keeps two digits of it.
  Its calendar is `Moment.tick` with that rule. The register of the weekday is read, but not used.
- The writes to the registers 0x0d to 0x0f in the first call are left out: they do not touch the
  time registers, and their results are ignored.
-/

namespace NucKernel.Rtc

open NucKernel.Library NucKernel.Library.Calendar

/-! ## Decoding -/

def bcd2bin (val : UInt8) : ℕ := (val &&& 0x0f).toNat + (val >>> 4).toNat * 10

def bin2bcd (val : ℕ) : UInt8 := UInt8.ofNat ((val / 10) <<< 4 + val % 10)

def century (year : ℕ) : ℕ := if year < 70 then year + 100 else year

/-- The fields that `rx8025_get_time` sets; the others stay as they are. -/
def decodeTime (dt : RtcTime) (date : Fin 7 → UInt8) : RtcTime :=
  { dt with
    sec := bcd2bin (date 0 &&& 0x7f)
    min := bcd2bin (date 1 &&& 0x7f)
    hour := bcd2bin (date 2 &&& 0x3f)
    mday := bcd2bin (date 4 &&& 0x3f)
    mon := bcd2bin (date 5 &&& 0x1f) - 1
    year := century (bcd2bin (date 6)) }

structure Errno where
  value : ℕ
  pos : 0 < value
  le : value ≤ 4095

/-- What `i2c_smbus_read_byte` returns: a byte, or an error number with a minus sign -/
inductive ReadByte
  | ok (b : UInt8)
  | fail (e : Errno)

def ReadByte.ret : ReadByte → ℤ
  | ok b => b.toNat
  | fail e => -e.value

/-- The results of the two transactions for one register -/
structure Fetch where
  write : Option Errno
  read : ReadByte

def Fetch.Ok (x : Fetch) : Prop := x.write = none ∧ ∃ b, x.read = .ok b

/-- `rx8025_read_regs`: what is returned is stored in a byte. -/
def readRegs (xs : Fin 7 → Fetch) : Fin 7 → UInt8 := fun i => UInt8.ofInt (xs i).read.ret

/-- `rx8025_get_time` -/
def getTime (dt : RtcTime) (xs : Fin 7 → Fetch) : ℤ × RtcTime :=
  let dt := decodeTime dt (readRegs xs)
  (rtcValidTm dt, dt)

/-! ## What is taken for a date -/

def digits (n : ℕ) : ℕ := n % 16 + 10 * (n / 16)

/-- The chip takes every fourth year for a leap year. -/
def chipLeap (year : ℕ) : Bool := year % 4 == 0

/-- Seven bytes with a date, in the digits of the bytes without their upper bits -/
structure DateLike (date : Fin 7 → ℕ) : Prop where
  sec : digits (date 0 % 128) < 60
  min : digits (date 1 % 128) < 60
  hour : digits (date 2 % 64) < 24
  mon_pos : 0 < digits (date 5 % 32)
  mon_le : digits (date 5 % 32) ≤ 12
  mday_pos : 0 < digits (date 4 % 64)
  mday_le : digits (date 4 % 64) ≤
    monthDays chipLeap (digits (date 6)) (digits (date 5 % 32) - 1)

def ReadByte.left : ReadByte → ℕ
  | ok b => b.toNat
  | fail e => (256 - e.value % 256) % 256

theorem bcd2bin_eq (b : UInt8) : bcd2bin b = digits b.toNat :=
  forall_uint8 (p := fun b => bcd2bin b = digits b.toNat) (by decide) b

theorem toNat_and_7f (b : UInt8) : (b &&& 0x7f).toNat = b.toNat % 128 :=
  forall_uint8 (p := fun b => (b &&& 0x7f).toNat = b.toNat % 128) (by decide) b

theorem toNat_and_3f (b : UInt8) : (b &&& 0x3f).toNat = b.toNat % 64 :=
  forall_uint8 (p := fun b => (b &&& 0x3f).toNat = b.toNat % 64) (by decide) b

theorem toNat_and_1f (b : UInt8) : (b &&& 0x1f).toNat = b.toNat % 32 :=
  forall_uint8 (p := fun b => (b &&& 0x1f).toNat = b.toNat % 32) (by decide) b

theorem digits_lt (b : UInt8) : digits b.toNat < 166 := by
  have hb := b.toNat_lt
  unfold digits
  omega

theorem isLeapYear_century {y : ℕ} (h : 70 ≤ y ∧ y < 170) :
    isLeapYear (1900 + y) = chipLeap y := by
  rw [Bool.eq_iff_iff, isLeapYear_iff, chipLeap, beq_iff_eq]
  omega

theorem century_range {year : ℕ} (h : year < 170) : 70 ≤ century year ∧ century year < 170 := by
  unfold century
  split <;> omega

theorem toNat_century (year : ℕ) : ((century year : ℤ) + 1900).toNat = 1900 + century year := by
  omega

theorem rtcMonthDays_century {year : ℕ} (month : ℕ) (h : year < 170) :
    rtcMonthDays month (1900 + century year) = monthDays chipLeap year month := by
  have hrange := century_range h
  have hleap : chipLeap (century year) = chipLeap year := by
    unfold century chipLeap
    split
    · rw [show (year + 100) % 4 = year % 4 from by omega]
    · rfl
  rw [rtcMonthDays_eq, monthDays, monthDays, isLeapYear_century hrange, hleap]

/-- `rtc_valid_tm` accepts the decoded fields exactly when the bytes are a date. -/
theorem valid_decodeTime (dt : RtcTime) (date : Fin 7 → UInt8) :
    rtcValidTm (decodeTime dt date) = 0 ↔ DateLike fun i => (date i).toNat := by
  have hyear := digits_lt (date 6)
  have hcentury := century_range (Nat.lt_trans hyear (by decide))
  simp only [rtcValidTm_iff, decodeTime, bcd2bin_eq, toNat_and_7f, toNat_and_3f, toNat_and_1f,
    toNat_century]
  rw [rtcMonthDays_century _ (by omega)]
  by_cases hzero : digits ((date 5).toNat % 32) = 0
  · -- month 0 becomes month -1
    rw [hzero]
    constructor
    · rintro ⟨-, hmonth, -⟩
      omega
    · intro h
      exact absurd hzero (Nat.ne_of_gt h.mon_pos)
  · have hindex : ((digits ((date 5).toNat % 32) : ℤ) - 1).toNat =
        digits ((date 5).toNat % 32) - 1 := by omega
    rw [hindex]
    constructor
    · -- the month is at least 1
      rintro ⟨-, hmonth, hpos, hle, hhours, hminutes, hseconds⟩
      exact ⟨by omega, by omega, by omega, by omega, by omega, by omega, by omega⟩
    · rintro ⟨hseconds, hminutes, hhours, hmonth_pos, hmonth_le, hpos, hle⟩
      omega

/-! ## Bus errors -/

theorem toNat_readRegs (xs : Fin 7 → Fetch) (i : Fin 7) :
    (readRegs xs i).toNat = (xs i).read.left := by
  have hbyte (x : ℤ) : (UInt8.ofInt x).toNat = (x % 256).toNat := by
    rw [UInt8.ofInt, UInt8.toNat_ofNat']
    omega
  rw [readRegs, hbyte]
  cases (xs i).read with
  -- a byte is stored as it is
  | ok b =>
    have hb := b.toNat_lt
    simp only [ReadByte.ret, ReadByte.left]
    omega
  -- the low byte of the negative number is stored
  | fail e =>
    simp only [ReadByte.ret, ReadByte.left]
    omega

/-- **Exact condition for bus errors**: a return value of 0 means that all transactions succeeded
    exactly when they did, or when the bytes that their results leave behind are no date. -/
theorem reported_iff (dt : RtcTime) (xs : Fin 7 → Fetch) :
    ((getTime dt xs).1 = 0 → ∀ i, (xs i).Ok) ↔
      (∀ i, (xs i).Ok) ∨ ¬ DateLike fun i => (xs i).read.left := by
  have hvalid : (getTime dt xs).1 = 0 ↔ DateLike fun i => (xs i).read.left := by
    simp only [← toNat_readRegs]
    exact valid_decodeTime dt (readRegs xs)
  rw [hvalid]
  constructor
  · intro h
    by_cases hdate : DateLike fun i => (xs i).read.left
    · exact Or.inl (h hdate)
    · exact Or.inr hdate
  · rintro (hok | hbad) hdate
    · exact hok
    · exact absurd hdate hbad

def someDate : Fin 7 → UInt8 := fun i => [0x56, 0x34, 0x12, 0x05, 0x17, 0x05, 0x24].getD i 0

def secondsFail : Fin 7 → Fetch := fun i =>
  ⟨none, if i = 0 then .fail ⟨121, by decide, by decide⟩ else .ok (someDate i)⟩

/-- The error is stored as 0x87, which is taken for seven seconds. -/
theorem busError_becomesDate :
    ¬ ((getTime ⟨0, 0, 0, 0, 0, 0, 0, 0, 0⟩ secondsFail).1 = 0 → ∀ i, (secondsFail i).Ok) := by
  intro h
  have hzero : (getTime ⟨0, 0, 0, 0, 0, 0, 0, 0, 0⟩ secondsFail).1 = 0 := by decide
  obtain ⟨-, b, hb⟩ := h hzero 0
  cases hb

/-! ## The clock goes on -/

structure Chip where
  now : Moment chipLeap
  wday : Fin 7

namespace Chip

def reg (c : Chip) (i : Fin 7) : UInt8 :=
  match i with
  | 0 => bin2bcd c.now.second
  | 1 => bin2bcd c.now.minute
  | 2 => bin2bcd c.now.hour
  | 3 => bin2bcd c.wday
  | 4 => bin2bcd c.now.date.day
  | 5 => bin2bcd (c.now.date.month + 1)
  | 6 => bin2bcd (c.now.date.year % 100)

def tick (c : Chip) : Chip :=
  ⟨c.now.tick, if c.now.tick.date = c.now.date then c.wday else c.wday + 1⟩

end Chip

/-- A call of `rx8025_get_time` under way -/
structure Reading where
  chip : Chip
  /-- How often the chip has advanced since the call began -/
  ticks : ℕ
  /-- The register number has been written, and the read comes next. -/
  addressed : Bool
  /-- The bytes read so far -/
  date : List UInt8

/-- The chip advances by a second, or the next transaction takes place. -/
inductive ReadEvent
  | tick
  | transaction
  deriving DecidableEq

/-- The call is over when the seven bytes have been read. -/
def readStep (s : Reading) (e : ReadEvent) : Option Reading :=
  if h : s.date.length < 7 then
    match e with
    | .tick => some { s with chip := s.chip.tick, ticks := s.ticks + 1 }
    | .transaction =>
      if s.addressed then
        some { s with addressed := false, date := s.date ++ [s.chip.reg ⟨s.date.length, h⟩] }
      else some { s with addressed := true }
  else none

def Reading.start (c : Chip) : Reading := ⟨c, 0, false, []⟩

def fetched (date : Fin 7 → UInt8) : Fin 7 → Fetch := fun i => ⟨none, .ok (date i)⟩

def Reading.done (s : Reading) : Prop := s.date.length = 7

/-- What `rx8025_get_time` returns for the bytes read -/
def Reading.result (s : Reading) (dt : RtcTime) : ℤ × RtcTime :=
  getTime dt (fetched fun i => s.date.getD i 0)

def Chip.shown (c : Chip) (dt : RtcTime) : RtcTime :=
  { dt with
    sec := c.now.second
    min := c.now.minute
    hour := c.now.hour
    mday := c.now.date.day
    mon := c.now.date.month
    year := century (c.now.date.year % 100) }

/-- Once the seconds have been read, a tick does not change a register that is still to be read,
    that of the weekday aside. -/
def NoCarry (s : Reading) (e : ReadEvent) (_ : Reading) : Prop :=
  e = .tick → s.date ≠ [] → ∀ i : Fin 7, i ≠ 3 → s.date.length ≤ i →
    s.chip.tick.reg i = s.chip.reg i

instance (s : Reading) (e : ReadEvent) (s' : Reading) : Decidable (NoCarry s e s') :=
  inferInstanceAs (Decidable (_ → _))

/-- The bytes read so far, and those still to be read, are the registers of one moment of the
    call. -/
def OfMoment (c : Chip) (s : Reading) : Prop :=
  s.chip = Chip.tick^[s.ticks] c ∧ s.date.length ≤ 7 ∧
    ∃ k ≤ s.ticks, ∀ i : Fin 7, i ≠ 3 →
      (i < s.date.length → s.date.getD i 0 = (Chip.tick^[k] c).reg i) ∧
      (s.date ≠ [] → s.date.length ≤ i → s.chip.reg i = (Chip.tick^[k] c).reg i)

section Schedule

variable {c : Chip} {s s' : Reading}

theorem ofMoment_start (c : Chip) : OfMoment c (.start c) := by
  refine ⟨rfl, Nat.zero_le 7, 0, Nat.le_refl 0, ?_⟩
  intro i _
  exact ⟨fun h => absurd h (Nat.not_lt_zero i), fun h => absurd rfl h⟩

theorem ofMoment_read (h : OfMoment c s) (hlt : s.date.length < 7) (addressed : Bool) :
    OfMoment c { s with
      addressed := addressed
      date := s.date ++ [s.chip.reg ⟨s.date.length, hlt⟩] } := by
  obtain ⟨hchip, -, k, hk, hregs⟩ := h
  have hlength : (s.date ++ [s.chip.reg ⟨s.date.length, hlt⟩]).length = s.date.length + 1 := by
    simp
  have hseven : (s.date ++ [s.chip.reg ⟨s.date.length, hlt⟩]).length ≤ 7 := by omega
  by_cases hempty : s.date = []
  · -- the seconds are read: this is the moment
    refine ⟨hchip, hseven, s.ticks, Nat.le_refl _, ?_⟩
    rw [← hchip]
    intro i _
    refine ⟨?_, fun _ _ => rfl⟩
    intro hi
    have hzero : s.date.length = 0 := by rw [hempty]; rfl
    obtain rfl : i = 0 := Fin.ext (by dsimp only at hi; simp only [Fin.val_zero]; omega)
    simp [hempty]
  · refine ⟨hchip, hseven, k, hk, ?_⟩
    intro i hi
    -- the moment stays that of the seconds
    obtain ⟨hread, hleft⟩ := hregs i hi
    dsimp only
    rw [hlength]
    refine ⟨?_, fun _ hle => hleft hempty (by omega)⟩
    intro hbelow
    by_cases hnew : (i : ℕ) = s.date.length
    · -- this byte is read now
      have hindex : (⟨s.date.length, hlt⟩ : Fin 7) = i := Fin.ext hnew.symm
      rw [List.getD_append_right _ _ _ _ (by omega), hindex, hnew, Nat.sub_self]
      -- the register still has the value that it had then
      exact hleft hempty (by omega)
    · rw [List.getD_append _ _ _ _ (by omega)]
      exact hread (by omega)

theorem ofMoment_step (h : OfMoment c s) {e : ReadEvent} (hstep : readStep s e = some s')
    (hcarry : NoCarry s e s') : OfMoment c s' := by
  unfold readStep at hstep
  split at hstep
  · rename_i hlt
    cases e with
    | tick =>
      cases hstep
      -- what is still to be read does not change
      obtain ⟨hchip, hlen, k, hk, hregs⟩ := h
      refine ⟨?_, hlen, k, Nat.le_succ_of_le hk, ?_⟩
      · rw [Function.iterate_succ_apply', ← hchip]
      · intro i hi
        refine ⟨(hregs i hi).1, ?_⟩
        intro hne hle
        exact (hcarry rfl hne i hi hle).trans ((hregs i hi).2 hne hle)
    | transaction =>
      dsimp only at hstep
      split at hstep
      · cases hstep
        -- a byte is read
        exact ofMoment_read h hlt false
      · cases hstep
        exact h
  · cases hstep

end Schedule

/-! ## What is read back -/

theorem bcd2bin_bin2bcd {n : ℕ} (h : n < 100) : bcd2bin (bin2bcd n) = n := by
  have hall : ∀ n < 100, bcd2bin (bin2bcd n) = n := by decide
  exact hall n h

theorem bcd2bin_and_7f {n : ℕ} (h : n < 60) : bcd2bin (bin2bcd n &&& 0x7f) = n := by
  have hall : ∀ n < 60, bcd2bin (bin2bcd n &&& 0x7f) = n := by decide
  exact hall n h

theorem bcd2bin_and_3f {n : ℕ} (h : n < 40) : bcd2bin (bin2bcd n &&& 0x3f) = n := by
  have hall : ∀ n < 40, bcd2bin (bin2bcd n &&& 0x3f) = n := by decide
  exact hall n h

theorem bcd2bin_and_1f {n : ℕ} (h : n < 20) : bcd2bin (bin2bcd n &&& 0x1f) = n := by
  have hall : ∀ n < 20, bcd2bin (bin2bcd n &&& 0x1f) = n := by decide
  exact hall n h

theorem readRegs_fetched (date : Fin 7 → UInt8) : readRegs (fetched date) = date := by
  funext i
  apply UInt8.toNat_inj.mp
  rw [toNat_readRegs]
  rfl

theorem monthDays_lt (leap : ℕ → Bool) (year month : ℕ) : monthDays leap year month < 40 := by
  have htable : ∀ m, [31, 28, 31, 30, 31, 30, 31, 31, 30, 31, 30, 31].getD m 0 ≤ 31 := by
    intro m
    by_cases hm : m < 12
    · -- checked for each month
      revert m
      decide
    · rw [List.getD_eq_default _ _ (by simpa using hm)]
      decide
  have hm := htable month
  unfold monthDays
  split <;> omega

theorem valid_shown (c : Chip) (dt : RtcTime) : rtcValidTm (c.shown dt) = 0 := by
  have hyear : c.now.date.year % 100 < 170 := by omega
  have hmonth := c.now.date.month_lt
  have hpos := c.now.date.day_pos
  have hhour := c.now.hour_lt
  have hminute := c.now.minute_lt
  have hsecond := c.now.second_lt
  have hcentury := century_range hyear
  -- two digits of the year tell whether it is a leap year
  have hleap : chipLeap (c.now.date.year % 100) = chipLeap c.now.date.year := by
    unfold chipLeap
    rw [Nat.mod_mod_of_dvd _ (by decide)]
  have hday : c.now.date.day ≤
      monthDays chipLeap (c.now.date.year % 100) c.now.date.month := by
    rw [monthDays, hleap]
    exact c.now.date.day_le
  simp only [rtcValidTm_iff, Chip.shown]
  rw [toNat_century, Int.toNat_natCast, rtcMonthDays_century _ hyear]
  omega

theorem getTime_reg (c : Chip) (dt : RtcTime) {date : Fin 7 → UInt8}
    (h : ∀ i, i ≠ 3 → date i = c.reg i) : getTime dt (fetched date) = (0, c.shown dt) := by
  have hmonth := c.now.date.month_lt
  have hday := Nat.lt_of_le_of_lt c.now.date.day_le (monthDays_lt _ _ _)
  have hhour := c.now.hour_lt
  have hdecode : decodeTime dt (readRegs (fetched date)) = c.shown dt := by
    -- the register of the weekday is not decoded
    simp only [decodeTime, readRegs_fetched, h 0 (by decide), h 1 (by decide), h 2 (by decide),
      h 4 (by decide), h 5 (by decide), h 6 (by decide), Chip.reg, Chip.shown]
    rw [bcd2bin_and_7f c.now.second_lt, bcd2bin_and_7f c.now.minute_lt,
      bcd2bin_and_3f (by omega), bcd2bin_and_3f hday, bcd2bin_and_1f (by omega),
      bcd2bin_bin2bcd (Nat.mod_lt _ (by decide))]
    congr 1
    omega
  rw [getTime, hdecode, valid_shown]

def setTime (dt : RtcTime) (i : Fin 7) : UInt8 :=
  match i with
  | 0 => bin2bcd dt.sec.toNat
  | 1 => bin2bcd dt.min.toNat
  | 2 => bin2bcd dt.hour.toNat
  | 3 => bin2bcd dt.wday.toNat
  | 4 => bin2bcd dt.mday.toNat
  | 5 => bin2bcd (dt.mon + 1).toNat
  | 6 => bin2bcd (dt.year % 100).toNat

theorem getTime_setTime {dt : RtcTime} (old : RtcTime) (hvalid : rtcValidTm dt = 0)
    (hlow : 70 ≤ dt.year) (hhigh : dt.year ≤ 169) :
    getTime old (fetched (setTime dt)) =
      (0, { dt with wday := old.wday, yday := old.yday, isdst := old.isdst }) := by
  obtain ⟨-, hmon, hpos, hle, hhour, hmin, hsec⟩ := (rtcValidTm_iff dt).mp hvalid
  have hyear : (dt.year + 1900).toNat = 1900 + dt.year.toNat := by omega
  have hday : dt.mday.toNat ≤ monthDays chipLeap dt.year.toNat dt.mon.toNat := by
    rw [hyear, rtcMonthDays_eq, monthDays, isLeapYear_century (by omega)] at hle
    rw [monthDays]
    omega
  -- the chip is set to this moment
  let date : Date chipLeap :=
    ⟨dt.year.toNat, dt.mon.toNat, dt.mday.toNat, by omega, by omega, hday⟩
  let chip : Chip :=
    ⟨⟨date, dt.hour.toNat, dt.min.toNat, dt.sec.toNat, by omega, by omega, by omega⟩, 0⟩
  have hregs : ∀ i, i ≠ 3 → setTime dt i = chip.reg i := by
    intro i hi
    have hmonth : (dt.mon + 1).toNat = dt.mon.toNat + 1 := by omega
    have hdigits : (dt.year % 100).toNat = dt.year.toNat % 100 := by omega
    match i with
    | 0 | 1 | 2 | 4 => rfl
    | 3 => exact absurd rfl hi
    | 5 => exact congrArg bin2bcd hmonth
    | 6 => exact congrArg bin2bcd hdigits
  have hcentury : century (dt.year.toNat % 100) = dt.year.toNat := by
    unfold century
    split <;> omega
  rw [getTime_reg chip old hregs]
  simp only [Chip.shown, chip, date, hcentury, Int.toNat_of_nonneg hsec.1,
    Int.toNat_of_nonneg hmin.1, Int.toNat_of_nonneg hhour.1, Int.toNat_of_nonneg hmon.1,
    Int.toNat_of_nonneg (Int.le_trans (by decide) hpos),
    Int.toNat_of_nonneg (Int.le_trans (by decide) hlow)]

/-! ## The main theorem -/

/-- **Consistent time**: if no tick after the read of the seconds changes a register that is still
    to be read, the call returns a date and time that the chip showed during the call; and without
    ticks every date from 1970 to 2069 is read back as it was set. -/
theorem getTime_consistent (c : Chip) (dt : RtcTime) (events : List ReadEvent) (s : Reading) :
    (Along readStep NoCarry (.start c) events →
      runFrom readStep (.start c) events = some s → s.done →
      ∃ k ≤ s.ticks, s.result dt = (0, (Chip.tick^[k] c).shown dt)) ∧
    ∀ new : RtcTime, rtcValidTm new = 0 → 70 ≤ new.year → new.year ≤ 169 →
      getTime dt (fetched (setTime new)) =
        (0, { new with wday := dt.wday, yday := dt.yday, isdst := dt.isdst }) := by
  constructor
  · intro hcarry hrun hdone
    obtain ⟨-, -, k, hk, hregs⟩ := inv_of_along (I := OfMoment c)
      (fun _ _ _ h hstep hC => ofMoment_step h hstep hC) (ofMoment_start c) hcarry hrun
    refine ⟨k, hk, getTime_reg _ dt ?_⟩
    intro i hi
    exact (hregs i hi).1 (lt_of_lt_of_eq i.isLt hdone.symm)
  · intro new hvalid hlow hhigh
    exact getTime_setTime dt hvalid hlow hhigh

def beforeRollover : Chip :=
  ⟨⟨⟨24, 4, 17, by decide, by decide, by decide⟩, 12, 59, 59, by decide, by decide, by decide⟩, 5⟩

def tickBeforeSeconds : List ReadEvent :=
  [.transaction, .tick] ++ List.replicate 13 .transaction

theorem getTime_consistent_earlyTick :
    ∃ s, runFrom readStep (.start beforeRollover) tickBeforeSeconds = some s ∧
      ∃ k ≤ s.ticks, s.result ⟨0, 0, 0, 0, 0, 0, 0, 0, 0⟩ =
        (0, (Chip.tick^[k] beforeRollover).shown ⟨0, 0, 0, 0, 0, 0, 0, 0, 0⟩) := by
  have hcarry : Along readStep NoCarry (.start beforeRollover) tickBeforeSeconds := by
    decide +kernel
  exact ⟨_, rfl, (getTime_consistent beforeRollover _ tickBeforeSeconds _).1 hcarry rfl rfl⟩

def tickAfterSeconds : List ReadEvent :=
  [.transaction, .transaction, .tick] ++ List.replicate 12 .transaction

/-- The call returns 13:00:59, although the chip showed 12:59:59 and 13:00:00. -/
theorem mixedTime :
    ∃ s, runFrom readStep (.start beforeRollover) tickAfterSeconds = some s ∧ s.done ∧
      ¬ ∃ k ≤ s.ticks, s.result ⟨0, 0, 0, 0, 0, 0, 0, 0, 0⟩ =
        (0, (Chip.tick^[k] beforeRollover).shown ⟨0, 0, 0, 0, 0, 0, 0, 0, 0⟩) := by
  refine ⟨_, rfl, rfl, ?_⟩
  rintro ⟨k, hk, heq⟩
  have hk' : k ≤ 1 := hk
  interval_cases k <;> revert heq <;> decide

end NucKernel.Rtc
