import NucKernel.Rtc.Rx8025

/-!
# The real time clock of the NUC970 (`rtc-nuc970.c`)

The date and the time are kept as BCD bytes of two registers, which can be written once a bit of the
register AER shows that access is granted.

## Modelling

- `aer` are the values that the reads of AER give, one after the other.
- The loop that waits for a written register is left out: it has no influence on what follows.
- `int` values become `unsigned` ones modulo 2^32; `bin2bcd` and `bcd2bin` are those of the other
  clock drivers.
-/

namespace NucKernel.Rtc.Nuc970

/-! ## The driver -/

inductive Reg
  | inir
  | aer
  | tlr
  | clr
  | tar
  | car
  | pwrctl
  deriving DecidableEq

/-- The registers, those written by a call, and what it returns -/
structure Call where
  regs : Reg → UInt32
  written : List Reg
  ret : ℤ

def rtcRegWrite (c : Call) (r : Reg) (value : UInt32) : Call :=
  { c with regs := Function.update c.regs r value, written := c.written ++ [r] }

def eperm : ℤ := 1

def enabled (aer : UInt32) : Bool := aer &&& 0x10000 != 0

/-- The loop of `check_rtc_access_enable`: `timeout` after it, and the number of reads -/
def pollAer (aer : ℕ → UInt32) : ℕ → ℕ → ℕ × ℕ
  | 0, reads => if enabled (aer reads) then (0, reads + 1) else (2 ^ 32 - 1, reads + 1)
  | timeout + 1, reads =>
    if enabled (aer reads) then (timeout + 1, reads + 1) else pollAer aer timeout (reads + 1)

def checkRtcAccessEnable (aer : ℕ → UInt32) (regs : Reg → UInt32) : Call :=
  let c := rtcRegWrite ⟨regs, [], 0⟩ .inir 0xa5eb1357
  let c := rtcRegWrite c .aer 0xA965
  if (pollAer aer 0x800 0).1 = 0 then { c with ret := -eperm } else c

/-- An `int` as an `unsigned int` -/
def unsigned (x : ℤ) : ℕ := (x % 2 ^ 32).toNat

/-- `nuc970_rtc_bcd2bin`: the fields that it sets, and the result of `rtc_valid_tm` -/
def nuc970RtcBcd2bin (timereg calreg : UInt32) (tm : RtcTime) : RtcTime × ℤ :=
  let tm := { tm with
    mday := bcd2bin calreg.toUInt8
    mon := bcd2bin (calreg >>> 8).toUInt8 - 1
    year := bcd2bin (calreg >>> 16).toUInt8 + 100
    sec := bcd2bin timereg.toUInt8
    min := bcd2bin (timereg >>> 8).toUInt8
    hour := bcd2bin (timereg >>> 16).toUInt8 }
  (tm, rtcValidTm tm)

def pack (low mid high : UInt8) : UInt32 :=
  low.toUInt32 ||| mid.toUInt32 <<< 8 ||| high.toUInt32 <<< 16

/-- `bcd_mday`, `bcd_mon` and `bcd_year` of `nuc970_rtc_bin2bcd` -/
def calendarOf (tm : RtcTime) : UInt32 :=
  pack (bin2bcd (unsigned tm.mday)) (bin2bcd (unsigned (tm.mon + 1)))
    (if tm.year < 100 then bin2bcd (unsigned tm.year) else bin2bcd (unsigned (tm.year - 100)))

/-- `bcd_sec`, `bcd_min` and `bcd_hour` -/
def timeOf (tm : RtcTime) : UInt32 :=
  pack (bin2bcd (unsigned tm.sec)) (bin2bcd (unsigned tm.min)) (bin2bcd (unsigned tm.hour))

def readTime (regs : Reg → UInt32) (tm : RtcTime) : RtcTime × ℤ :=
  nuc970RtcBcd2bin (regs .tlr) (regs .clr) tm

def setTime (aer : ℕ → UInt32) (regs : Reg → UInt32) (tm : RtcTime) : Call :=
  let c := checkRtcAccessEnable aer regs
  if c.ret = 0 then rtcRegWrite (rtcRegWrite c .clr (calendarOf tm)) .tlr (timeOf tm) else c

def setAlarm (aer : ℕ → UInt32) (regs : Reg → UInt32) (tm : RtcTime) : Call :=
  let c := checkRtcAccessEnable aer regs
  if c.ret = 0 then
    -- mask alarm week day
    let c := rtcRegWrite c .car (calendarOf tm ||| 0x80000000)
    let c := rtcRegWrite c .tar (timeOf tm)
    rtcRegWrite c .pwrctl (c.regs .pwrctl ||| 0x8)
  else c

/-! ## Round trip -/

structure ReadsBack (tm : RtcTime) (r : RtcTime × ℤ) : Prop where
  year : r.1.year = tm.year
  mon : r.1.mon = tm.mon
  mday : r.1.mday = tm.mday
  hour : r.1.hour = tm.hour
  min : r.1.min = tm.min
  sec : r.1.sec = tm.sec
  ret : r.2 = 0

theorem pack_bytes (low mid high : UInt8) :
    (pack low mid high).toUInt8 = low ∧ (pack low mid high >>> 8).toUInt8 = mid ∧
      (pack low mid high >>> 16).toUInt8 = high := by
  refine ⟨?_, ?_, ?_⟩ <;> apply UInt8.toBitVec_inj.mp <;> ext i hi
  · simp [pack]
  · simp only [pack]
    interval_cases i <;> simp
  · simp only [pack]
    interval_cases i <;> simp

theorem bcd2bin_bin2bcd {n : ℕ} (h : n < 160) : bcd2bin (bin2bcd n) = n := by
  have hall : ∀ n < 160, bcd2bin (bin2bcd n) = n := by decide +kernel
  exact hall n h

theorem bin2bcd_mod (n : ℕ) : bin2bcd n = bin2bcd (n % 160) := by
  have h : (n / 10) <<< 4 + n % 10 = (n % 160 / 10) <<< 4 + n % 160 % 10 + 256 * (n / 160) := by
    simp only [Nat.shiftLeft_eq]
    omega
  rw [bin2bcd, bin2bcd, h]
  apply UInt8.toNat_inj.mp
  simp

theorem bcd2bin_bin2bcd_mod (n : ℕ) : bcd2bin (bin2bcd n) = n % 160 := by
  rw [bin2bcd_mod, bcd2bin_bin2bcd (Nat.mod_lt _ (by decide))]

theorem unsigned_of_nonneg {x : ℤ} (h : 0 ≤ x) (hlt : x < 2 ^ 32) : (unsigned x : ℤ) = x := by
  rw [unsigned, Int.emod_eq_of_lt h hlt, Int.toNat_of_nonneg h]

theorem checkRtcAccessEnable_ret (aer : ℕ → UInt32) (regs : Reg → UInt32) :
    (checkRtcAccessEnable aer regs).ret = if (pollAer aer 0x800 0).1 = 0 then -eperm else 0 := by
  rw [checkRtcAccessEnable]
  split_ifs <;> rfl

theorem setTime_eq {aer : ℕ → UInt32} {regs : Reg → UInt32} {tm : RtcTime}
    (h : (setTime aer regs tm).ret = 0) :
    (setTime aer regs tm).regs .clr = calendarOf tm ∧
      (setTime aer regs tm).regs .tlr = timeOf tm := by
  rw [setTime] at h ⊢
  split_ifs at h ⊢ with hret
  · exact ⟨rfl, rfl⟩
  · exact absurd h hret

theorem rtcMonthDays_le {month : ℕ} (h : month < 12) (year : ℕ) : rtcMonthDays month year ≤ 31 := by
  rw [rtcMonthDays]
  interval_cases month <;> simp [rtcDaysInMonth]
  split <;> decide

def yearBack (year : ℤ) : ℕ :=
  unsigned (if year < 100 then year else year - 100) % 160 + 100

/-- Of a valid date everything but the year is read as it was written. -/
theorem readTime_fields {regs : Reg → UInt32} {tm : RtcTime} (prev : RtcTime)
    (hclr : regs .clr = calendarOf tm) (htlr : regs .tlr = timeOf tm) (hvalid : rtcValidTm tm = 0) :
    (readTime regs prev).1 = { prev with
      sec := tm.sec, min := tm.min, hour := tm.hour, mday := tm.mday, mon := tm.mon
      year := yearBack tm.year } := by
  obtain ⟨-, hmon, hday, hdays, hhour, hmin, hsec⟩ := (rtcValidTm_iff tm).mp hvalid
  have hmday : tm.mday ≤ 31 :=
    le_trans hdays (by exact_mod_cast rtcMonthDays_le (by omega) _)
  -- all fields but the year fit into a byte
  have hbyte {x : ℤ} (h0 : 0 ≤ x) (hx : x < 160) : (bcd2bin (bin2bcd (unsigned x)) : ℤ) = x := by
    have hu := unsigned_of_nonneg h0 (by omega)
    rw [bcd2bin_bin2bcd (by omega), hu]
  obtain ⟨hlow, hmid, hhigh⟩ := pack_bytes (bin2bcd (unsigned tm.mday))
    (bin2bcd (unsigned (tm.mon + 1)))
    (if tm.year < 100 then bin2bcd (unsigned tm.year) else bin2bcd (unsigned (tm.year - 100)))
  obtain ⟨hlow', hmid', hhigh'⟩ := pack_bytes (bin2bcd (unsigned tm.sec))
    (bin2bcd (unsigned tm.min)) (bin2bcd (unsigned tm.hour))
  have hyear : (bcd2bin (if tm.year < 100 then bin2bcd (unsigned tm.year)
      else bin2bcd (unsigned (tm.year - 100))) : ℤ) + 100 = yearBack tm.year := by
    rw [yearBack]
    split_ifs <;> simp [bcd2bin_bin2bcd_mod]
  rw [readTime, nuc970RtcBcd2bin, hclr, htlr, calendarOf, timeOf]
  simp only [hlow, hmid, hhigh, hlow', hmid', hhigh', hyear, hbyte hsec.1 (by omega),
    hbyte hmin.1 (by omega), hbyte hhour.1 (by omega), hbyte (by omega : 0 ≤ tm.mday) (by omega),
    hbyte (by omega : 0 ≤ tm.mon + 1) (by omega), add_sub_cancel_right]

/-- **Round trip**: a valid date that is set is read back exactly in the years 2000 to 2159. -/
theorem readTime_setTime_iff (aer : ℕ → UInt32) (regs : Reg → UInt32) (tm prev : RtcTime)
    (hvalid : rtcValidTm tm = 0) (hset : (setTime aer regs tm).ret = 0) :
    ReadsBack tm (readTime (setTime aer regs tm).regs prev) ↔ 100 ≤ tm.year ∧ tm.year < 260 := by
  obtain ⟨hclr, htlr⟩ := setTime_eq hset
  have hfields := readTime_fields prev hclr htlr hvalid
  -- a year that is read back lies in these bounds
  have hback : (yearBack tm.year : ℤ) < 260 ∧ 100 ≤ (yearBack tm.year : ℤ) := by
    rw [yearBack]
    omega
  constructor
  · intro h
    have hyear := h.year
    rw [hfields] at hyear
    simp only at hyear
    omega
  · rintro ⟨hlo, hhi⟩
    have hyear : (yearBack tm.year : ℤ) = tm.year := by
      have hu := unsigned_of_nonneg (x := tm.year - 100) (by omega) (by omega)
      rw [yearBack, if_neg (by omega)]
      omega
    -- a valid date is read as a valid date
    have hret : (readTime (setTime aer regs tm).regs prev).2 = 0 := by
      have hsame : (readTime (setTime aer regs tm).regs prev).2 =
          rtcValidTm (readTime (setTime aer regs tm).regs prev).1 := rfl
      rw [hsame, hfields, rtcValidTm_iff, hyear]
      exact (rtcValidTm_iff tm).mp hvalid
    refine ⟨?_, ?_, ?_, ?_, ?_, ?_, hret⟩ <;> rw [hfields]
    exact hyear

/-- The last second of 2159, with access granted at once -/
theorem readTime_setTime_last :
    ReadsBack ⟨59, 59, 23, 31, 11, 259, 0, 0, 0⟩
      (readTime (setTime (fun _ => 0x10000) (fun _ => 0)
        ⟨59, 59, 23, 31, 11, 259, 0, 0, 0⟩).regs ⟨0, 0, 0, 0, 0, 0, 0, 0, 0⟩) :=
  (readTime_setTime_iff _ _ _ _ (by decide) (by decide)).mpr (by decide)

/-- The first second of 1999 is read back as that of 2099. -/
theorem year_1999_moves :
    rtcValidTm ⟨0, 0, 0, 1, 0, 99, 0, 0, 0⟩ = 0 ∧
      (setTime (fun _ => 0x10000) (fun _ => 0) ⟨0, 0, 0, 1, 0, 99, 0, 0, 0⟩).ret = 0 ∧
      readTime (setTime (fun _ => 0x10000) (fun _ => 0) ⟨0, 0, 0, 1, 0, 99, 0, 0, 0⟩).regs
        ⟨0, 0, 0, 0, 0, 0, 0, 0, 0⟩ = (⟨0, 0, 0, 1, 0, 199, 0, 0, 0⟩, 0) := by
  decide

/-! ## Access -/

def Granted (aer : ℕ → UInt32) : Prop :=
  ∃ k < (pollAer aer 0x800 0).2, enabled (aer k) = true

/-- A call writes the registers in `regs` only with access, and fails only without. -/
structure Guarded (aer : ℕ → UInt32) (regs : List Reg) (c : Call) : Prop where
  written : (∃ r ∈ regs, r ∈ c.written) → Granted aer
  failed : c.ret ≠ 0 → ¬ Granted aer

/-- What the test of access is for -/
structure AccessOk (aer : ℕ → UInt32) (regs : Reg → UInt32) (tm : RtcTime) : Prop where
  check : (checkRtcAccessEnable aer regs).ret = -eperm ↔ ¬ Granted aer
  time : Guarded aer [.tlr, .clr] (setTime aer regs tm)
  alarm : Guarded aer [.tar, .car] (setAlarm aer regs tm)

theorem pollAer_granted (aer : ℕ → UInt32) {timeout reads : ℕ}
    (h : ∃ k < timeout, enabled (aer (reads + k)) = true) :
    (pollAer aer timeout reads).1 ≠ 0 ∧
      ∃ k < (pollAer aer timeout reads).2, enabled (aer k) = true := by
  induction timeout generalizing reads with
  | zero => obtain ⟨k, hk, -⟩ := h; omega
  | succ timeout ih =>
    rw [pollAer]
    split_ifs with hnow
    · exact ⟨Nat.succ_ne_zero _, reads, Nat.lt_succ_self _, hnow⟩
    · obtain ⟨k, hk, hen⟩ := h
      cases k with
      -- it was not the first value
      | zero => exact absurd hen hnow
      | succ k => exact ih ⟨k, by omega, by rwa [Nat.add_right_comm, Nat.add_assoc]⟩

theorem pollAer_late (aer : ℕ → UInt32) {timeout reads : ℕ}
    (h : ∀ k < timeout, enabled (aer (reads + k)) = false) :
    pollAer aer timeout reads =
      (if enabled (aer (reads + timeout)) then 0 else 2 ^ 32 - 1, reads + timeout + 1) := by
  induction timeout generalizing reads with
  | zero =>
    simp only [pollAer, Nat.add_zero]
    split_ifs <;> rfl
  | succ timeout ih =>
    have hnow : ¬ enabled (aer reads) = true := by
      rw [← Nat.add_zero reads, h 0 (Nat.succ_pos _)]
      decide
    -- the next value is polled
    rw [pollAer, if_neg hnow, ih fun k hk => by
      rw [Nat.add_right_comm, Nat.add_assoc]
      exact h (k + 1) (Nat.succ_lt_succ hk)]
    rw [Nat.add_right_comm, Nat.add_assoc reads timeout 1]

theorem guarded_of_granted {aer : ℕ → UInt32} {c : Call} {regs : List Reg} (h : Granted aer)
    (hret : c.ret = 0) : Guarded aer regs c :=
  ⟨fun _ => h, fun hne => absurd hret hne⟩

/-- **Access**: the test decides right exactly if one of the first 2048 values grants access. -/
theorem accessOk_iff (aer : ℕ → UInt32) (regs : Reg → UInt32) (tm : RtcTime) :
    AccessOk aer regs tm ↔ ∃ k < 0x800, enabled (aer k) = true := by
  have hret := checkRtcAccessEnable_ret aer regs
  constructor
  · intro h
    by_contra hnone
    -- the loop runs to its end
    have hlate : pollAer aer 0x800 0 = (if enabled (aer 0x800) then 0 else 2 ^ 32 - 1, 0x801) := by
      have hnot : ∀ k < 0x800, enabled (aer (0 + k)) = false := fun k hk => by
        rw [Nat.zero_add]
        exact Bool.eq_false_iff.mpr fun hen => hnone ⟨k, hk, hen⟩
      rw [pollAer_late aer hnot, Nat.zero_add]
    by_cases hlast : enabled (aer 0x800) = true
    · -- the counter is 0, though access was granted
      rw [hlate, if_pos hlast, if_pos rfl] at hret
      refine h.check.mp hret ⟨0x800, ?_, hlast⟩
      rw [hlate]
      exact Nat.lt_succ_self _
    · -- the counter has wrapped around, though access was denied
      rw [hlate, if_neg hlast, if_neg (by decide)] at hret
      have hdenied : ¬ Granted aer := by
        rintro ⟨k, hk, hen⟩
        rw [hlate] at hk
        rcases Nat.lt_or_eq_of_le (Nat.lt_succ_iff.mp hk) with hlt | rfl
        · exact hnone ⟨k, hlt, hen⟩
        · exact hlast hen
      exact absurd ((h.check.mpr hdenied).symm.trans hret) (by decide)
  · intro h
    have hin : ∃ k < 0x800, enabled (aer (0 + k)) = true := by
      simpa only [Nat.zero_add] using h
    obtain ⟨hne, hgranted⟩ := pollAer_granted aer hin
    rw [if_neg hne] at hret
    refine ⟨⟨fun hfail => ?_, fun hno => absurd hgranted hno⟩, ?_, ?_⟩
    · exact absurd (hfail.symm.trans hret) (by decide)
    · refine guarded_of_granted hgranted ?_
      rw [setTime, if_pos hret]
      exact hret
    · refine guarded_of_granted hgranted ?_
      rw [setAlarm, if_pos hret]
      exact hret

/-- Access is never granted: the registers are written, and success is reported. Access is granted
    with the last value: a failure is reported. -/
theorem access_misjudged :
    (setTime (fun _ => 0) (fun _ => 0) ⟨0, 0, 0, 1, 0, 100, 0, 0, 0⟩).written =
        [.inir, .aer, .clr, .tlr] ∧
      (setTime (fun _ => 0) (fun _ => 0) ⟨0, 0, 0, 1, 0, 100, 0, 0, 0⟩).ret = 0 ∧
      (setTime (fun k => if k = 0x800 then 0x10000 else 0) (fun _ => 0)
        ⟨0, 0, 0, 1, 0, 100, 0, 0, 0⟩).ret = -eperm := by
  decide +kernel

end NucKernel.Rtc.Nuc970
