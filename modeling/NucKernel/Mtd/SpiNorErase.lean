import Mathlib.Tactic.Ring
import NucKernel.Mtd.SpiNor

/-!
# Erasing a serial NOR flash (`m25p80.c`)

`m25p80_erase` takes a 64-bit address and a 64-bit length. It refuses a length that is not a
multiple of the erase size, cuts both numbers down to 32 bits, and then either erases the whole
chip, if the length is that of the chip, or sends one sector erase after another. The address is
not looked at: the chip erases the sector that it lies in, whole.

## Modelling

- One `Attempt` per command holds the results of its polls, its `write_enable` and its `spi_write`.
- The chip carries out a command that was enabled and arrived as a whole. A sector erase clears the
  sector that contains the address in the command.
- `size_t` and `u32` have 32 bits; the erase sizes of the table of chips divide `2 ^ 32`. The lock,
  `instr->state` and the callback are left out.
-/

namespace NucKernel.Mtd.SpiNor

/-! ## The erase -/

def opcodeChipErase : UInt8 := 0xc7

/-- The fields that an erase uses besides those of a write: `erase_opcode`, `mtd.erasesize` and
    `mtd.size` -/
structure EraseFlash extends M25p where
  eraseOpcode : UInt8
  eraseSize : ℕ
  size : ℕ
  eraseSize_dvd : eraseSize ∣ 2 ^ 32
  eraseSize_lt : eraseSize < 2 ^ 32
  eraseOpcode_ne : eraseOpcode ≠ opcodeChipErase

theorem EraseFlash.eraseSize_pos (flash : EraseFlash) : 0 < flash.eraseSize :=
  Nat.pos_of_dvd_of_pos flash.eraseSize_dvd (by decide)

structure Sent where
  cmd : List UInt8
  attempt : Attempt

structure EraseOutcome where
  ret : ℤ
  sent : List Sent

section Erase

variable (flash : EraseFlash) (env : ℕ → Attempt)

/-- The command of `erase_sector`: the opcode, and the address from `m25p_addr2cmd` -/
def eraseCmd (offset : BitVec 32) : List UInt8 :=
  flash.eraseOpcode :: (flash.addr2cmd offset.toNat).tail

/-- The `while (len)` loop. It has not ended after `2 ^ 32` rounds only if it never ends. -/
def eraseLoop : (rounds k : ℕ) → (addr len : BitVec 32) → List Sent → Option EraseOutcome
  | 0, _, _, _, _ => none
  | rounds + 1, k, addr, len, sent =>
    if len = 0 then some ⟨0, sent⟩
    else if (env k).waitTillReady ≠ 0 then some ⟨-5, sent⟩
    else
      eraseLoop rounds (k + 1) (addr + BitVec.ofNat 32 flash.eraseSize)
        (len - BitVec.ofNat 32 flash.eraseSize) (sent ++ [⟨eraseCmd flash addr, env k⟩])

def m25p80Erase (instrAddr instrLen : BitVec 64) : Option EraseOutcome :=
  if instrLen.toNat % flash.eraseSize ≠ 0 then some ⟨-22, []⟩
  else
    let addr := instrAddr.setWidth 32
    let len := instrLen.setWidth 32
    -- a `u32` is compared with a `u64`
    if len.toNat = flash.size then
      if (env 0).waitTillReady ≠ 0 then some ⟨-5, []⟩
      else some ⟨0, [⟨[opcodeChipErase], env 0⟩]⟩
    else eraseLoop flash env (2 ^ 32 + 1) 0 addr len []

/-! ## What the chip does -/

/-- The chip was enabled and got the whole command. -/
def Sent.Taken (c : Sent) : Prop := c.attempt.writeEnable = 0 ∧ c.attempt.sync.Accepted c.cmd.length

def Clears (cmd : List UInt8) (b : ℕ) : Prop :=
  b < flash.size ∧
    (cmd.head? = some opcodeChipErase ∨
      cmd.head? = some flash.eraseOpcode ∧ b / flash.eraseSize = cmdAddr cmd / flash.eraseSize)

def Erased (sent : List Sent) (b : ℕ) : Prop := ∃ c ∈ sent, c.Taken ∧ Clears flash c.cmd b

/-- If the erase reports success, it has cleared the bytes of the interval and no others. -/
def Exact (addr len : ℕ) (r : EraseOutcome) : Prop :=
  r.ret = 0 → ∀ b, Erased flash r.sent b ↔ addr ≤ b ∧ b < addr + len

/-! ## The loop -/

theorem clears_chip (b : ℕ) : Clears flash [opcodeChipErase] b ↔ b < flash.size := by
  simp [Clears]

theorem clears_eraseCmd (addr b : ℕ) :
    Clears flash (eraseCmd flash (BitVec.ofNat 32 addr)) b ↔
      b < flash.size ∧
        b / flash.eraseSize = addr % 2 ^ (8 * flash.addrWidth) / flash.eraseSize := by
  have hwidth : 2 ^ (8 * flash.addrWidth) ∣ 2 ^ 32 :=
    pow_dvd_pow 2 (by have := flash.addrWidth_le; omega)
  -- a command has room for the low bits of the address only
  have hcmd : cmdAddr (eraseCmd flash (BitVec.ofNat 32 addr)) =
      addr % 2 ^ (8 * flash.addrWidth) := by
    rw [eraseCmd, BitVec.toNat_ofNat, ← Nat.mod_mod_of_dvd addr hwidth]
    exact cmdAddr_addr2cmd flash.toM25p _
  have hne := flash.eraseOpcode_ne
  rw [Clears, hcmd]
  simp [eraseCmd, hne]

def sectorCmds (k addr n : ℕ) : List Sent :=
  (List.range n).map fun j =>
    ⟨eraseCmd flash (BitVec.ofNat 32 (addr + j * flash.eraseSize)), env (k + j)⟩

theorem sectorCmds_succ (k addr n : ℕ) :
    sectorCmds flash env k addr (n + 1) =
      ⟨eraseCmd flash (BitVec.ofNat 32 addr), env k⟩ ::
        sectorCmds flash env (k + 1) (addr + flash.eraseSize) n := by
  rw [sectorCmds, List.range_succ_eq_map, List.map_cons, List.map_map, sectorCmds]
  congr 1
  · simp
  · apply List.map_congr_left
    intro j _
    have haddr : addr + (j + 1) * flash.eraseSize =
        addr + flash.eraseSize + j * flash.eraseSize := by ring
    have hk : k + (j + 1) = k + 1 + j := by ring
    simp only [Function.comp_apply, Nat.succ_eq_add_one, haddr, hk]

/-- With `n` sectors to go the loop ends, and ends well if the chip is found ready each time. -/
theorem eraseLoop_sent {n : ℕ} (hn : n * flash.eraseSize < 2 ^ 32) {rounds : ℕ} (hr : n < rounds)
    (k addr : ℕ) (sent : List Sent) :
    ∃ r, eraseLoop flash env rounds k (BitVec.ofNat 32 addr)
        (BitVec.ofNat 32 (n * flash.eraseSize)) sent = some r ∧
      (r.ret = 0 ↔ ∀ j < n, (env (k + j)).waitTillReady = 0) ∧
      (r.ret = 0 → r.sent = sent ++ sectorCmds flash env k addr n) := by
  -- over the sectors that remain; the round counter goes down with them
  induction n generalizing rounds k addr sent with
  | zero =>
    obtain ⟨m, rfl⟩ := Nat.exists_eq_add_of_lt hr
    refine ⟨⟨0, sent⟩, ?_, ?_, ?_⟩
    · simp [eraseLoop]
    · simp
    · simp [sectorCmds]
  | succ n ih =>
    obtain ⟨m, rfl⟩ : ∃ m, rounds = m + 1 := ⟨rounds - 1, by omega⟩
    have hmul : (n + 1) * flash.eraseSize = n * flash.eraseSize + flash.eraseSize := by ring
    have hpos := flash.eraseSize_pos
    have hlen : BitVec.ofNat 32 ((n + 1) * flash.eraseSize) ≠ 0 := by
      intro h
      have := congrArg BitVec.toNat h
      rw [BitVec.toNat_ofNat, Nat.mod_eq_of_lt hn] at this
      simp at this
      omega
    rw [eraseLoop, if_neg hlen]
    by_cases hready : (env k).waitTillReady ≠ 0
    · rw [if_pos hready]
      refine ⟨_, rfl, ?_, ?_⟩
      · -- the chip is busy, and the erase ends with an error
        exact ⟨nofun, fun h => absurd (h 0 (Nat.succ_pos n)) hready⟩
      · nofun
    · rw [if_neg hready, hmul, BitVec.ofNat_add, BitVec.add_sub_cancel, ← BitVec.ofNat_add]
      obtain ⟨r, hrun, hret, hsent⟩ := ih (by omega) (Nat.lt_of_succ_lt_succ hr) (k + 1)
        (addr + flash.eraseSize) (sent ++ [⟨eraseCmd flash (BitVec.ofNat 32 addr), env k⟩])
      refine ⟨r, hrun, hret.trans ?_, fun hzero => ?_⟩
      · rw [Nat.forall_lt_succ_left']
        have hshift : ∀ j, k + 1 + j = k + (j + 1) := fun j => by ring
        -- the rest of the sectors, one command later
        simp only [Nat.add_zero, not_not.mp hready, true_and, hshift]
      · rw [hsent hzero, sectorCmds_succ]
        simp

def Arrives (size k : ℕ) : Prop := (env k).writeEnable = 0 ∧ (env k).sync.Accepted size

theorem length_eraseCmd (offset : BitVec 32) : (eraseCmd flash offset).length = flash.cmdsz := by
  simp [eraseCmd, M25p.addr2cmd, M25p.cmdsz, Nat.add_comm]

theorem erased_sectorCmds (addr n b : ℕ) :
    Erased flash (sectorCmds flash env 0 addr n) b ↔ ∃ j < n, Arrives env flash.cmdsz j ∧
      b < flash.size ∧ b / flash.eraseSize =
        (addr + j * flash.eraseSize) % 2 ^ (8 * flash.addrWidth) / flash.eraseSize := by
  simp only [Erased, sectorCmds, List.mem_map, List.mem_range, exists_exists_and_eq_and, Sent.Taken,
    length_eraseCmd, clears_eraseCmd, Arrives, Nat.zero_add]

theorem sector_iff {e : ℕ} (he : 0 < e) {addr : ℕ} (halign : addr % e = 0) (n b : ℕ) :
    (∃ j < n, b / e = (addr + j * e) / e) ↔ addr ≤ b ∧ b < addr + n * e := by
  obtain ⟨q, rfl⟩ := Nat.dvd_of_mod_eq_zero halign
  have hquot : ∀ j, (e * q + j * e) / e = q + j := fun j => by
    rw [Nat.mul_comm j, ← Nat.mul_add, Nat.mul_div_cancel_left _ he]
  have hlow : e * q ≤ b ↔ q ≤ b / e := by
    rw [Nat.le_div_iff_mul_le he, Nat.mul_comm]
  have hhigh : b < e * q + n * e ↔ b / e < q + n := by
    rw [Nat.div_lt_iff_lt_mul he, Nat.add_mul, Nat.mul_comm e]
  rw [hlow, hhigh]
  constructor
  · rintro ⟨j, hj, hb⟩
    rw [hquot] at hb
    omega
  · rintro ⟨hq, hlt⟩
    refine ⟨b / e - q, by omega, ?_⟩
    rw [hquot]
    omega

section Sectors

variable {flash env} {addr len : ℕ} (hlen : flash.eraseSize ∣ len) (hpos : 0 < len)

def SectorsExact (flash : EraseFlash) (env : ℕ → Attempt) (addr len : ℕ) : Prop :=
  ∀ b, Erased flash (sectorCmds flash env 0 addr (len % 2 ^ 32 / flash.eraseSize)) b ↔
    addr ≤ b ∧ b < addr + len

variable (h : SectorsExact flash env addr len)
include h

theorem SectorsExact.command {b : ℕ} (hle : addr ≤ b) (hlt : b < addr + len) :
    ∃ j < len % 2 ^ 32 / flash.eraseSize, Arrives env flash.cmdsz j ∧ b < flash.size ∧
      b / flash.eraseSize =
        (addr + j * flash.eraseSize) % 2 ^ (8 * flash.addrWidth) / flash.eraseSize :=
  (erased_sectorCmds flash env addr _ b).mp ((h b).mpr ⟨hle, hlt⟩)

include hpos

theorem SectorsExact.aligned : addr % flash.eraseSize = 0 := by
  obtain ⟨j, hj, harrives, hlt, hsector⟩ := h.command (Nat.le_refl addr) (by omega)
  have hdiv : addr / flash.eraseSize * flash.eraseSize / flash.eraseSize =
      addr / flash.eraseSize :=
    Nat.mul_div_cancel _ flash.eraseSize_pos
  have hle : addr / flash.eraseSize * flash.eraseSize ≤ addr := Nat.div_mul_le_self _ _
  have hin := (h _).mp ((erased_sectorCmds flash env addr _ _).mpr
    ⟨j, hj, harrives, hle.trans_lt hlt, hdiv.trans hsector⟩)
  exact Nat.mod_eq_zero_of_dvd ⟨addr / flash.eraseSize, by rw [Nat.mul_comm]; omega⟩

theorem SectorsExact.fits {m : ℕ} (hm : m * flash.eraseSize < len) :
    addr + m * flash.eraseSize < 2 ^ (8 * flash.addrWidth) := by
  obtain ⟨q, hq⟩ := Nat.dvd_of_mod_eq_zero (h.aligned hpos)
  obtain ⟨j, -, -, -, hsector⟩ := h.command (b := addr + m * flash.eraseSize) (by omega) (by omega)
  have hsum : addr + m * flash.eraseSize = (q + m) * flash.eraseSize := by rw [hq]; ring
  rw [hsum, Nat.mul_div_cancel _ flash.eraseSize_pos] at hsector
  calc addr + m * flash.eraseSize = (q + m) * flash.eraseSize := hsum
    _ ≤ (addr + j * flash.eraseSize) % 2 ^ (8 * flash.addrWidth) := by
      rw [hsector]
      exact Nat.div_mul_le_self _ _
    _ < 2 ^ (8 * flash.addrWidth) := Nat.mod_lt _ (Nat.two_pow_pos _)

include hlen

theorem SectorsExact.fits_last :
    addr + len < 2 ^ (8 * flash.addrWidth) + flash.eraseSize := by
  obtain ⟨n, rfl⟩ := hlen
  have hn : 0 < n := Nat.pos_of_mul_pos_left hpos
  have hlast : flash.eraseSize * n = (n - 1) * flash.eraseSize + flash.eraseSize := by
    rw [← Nat.succ_mul, Nat.succ_eq_add_one, Nat.sub_add_cancel hn, Nat.mul_comm]
  have := h.fits hpos (m := n - 1) (by have := flash.eraseSize_pos; omega)
  omega

theorem SectorsExact.short : len < 2 ^ 32 := by
  have hwidth : 2 ^ (8 * flash.addrWidth) ≤ 2 ^ 32 :=
    Nat.pow_le_pow_right (by decide) (by have := flash.addrWidth_le; omega)
  have hlast := h.fits_last hlen hpos
  by_contra hlong
  -- the length would be the size of the address space
  obtain ⟨k, hk⟩ := Nat.dvd_sub hlen flash.eraseSize_dvd
  have hzero : k = 0 := by
    by_contra hne
    have := Nat.le_mul_of_pos_right flash.eraseSize (Nat.pos_of_ne_zero hne)
    omega
  obtain ⟨j, hj, -⟩ := h.command (Nat.le_refl addr) (by omega)
  rw [show len = 2 ^ 32 by rw [hzero] at hk; omega] at hj
  simp at hj

theorem SectorsExact.arrives {j : ℕ} (hj : j < len % 2 ^ 32 / flash.eraseSize) :
    Arrives env flash.cmdsz j := by
  have hshort := h.short hlen hpos
  rw [Nat.mod_eq_of_lt hshort] at hj
  have hmul : ∀ {i}, i < len / flash.eraseSize → i * flash.eraseSize < len := fun hi =>
    (Nat.mul_lt_mul_of_pos_right hi flash.eraseSize_pos).trans_le (Nat.div_mul_le_self _ _)
  -- each sector has a command of its own
  obtain ⟨i, hi, harrives, -, hsector⟩ := h.command (b := addr + j * flash.eraseSize) (by omega)
    (Nat.add_lt_add_left (hmul hj) addr)
  rw [Nat.mod_eq_of_lt hshort] at hi
  rw [Nat.mod_eq_of_lt (h.fits hpos (hmul hi)), Nat.add_mul_div_right _ _ flash.eraseSize_pos,
    Nat.add_mul_div_right _ _ flash.eraseSize_pos] at hsector
  obtain rfl : i = j := by omega
  exact harrives

omit h

theorem sectorsExact_iff :
    SectorsExact flash env addr len ↔
      addr % flash.eraseSize = 0 ∧ addr + len ≤ flash.size ∧ len < 2 ^ 32 ∧
        addr + len < 2 ^ (8 * flash.addrWidth) + flash.eraseSize ∧
        ∀ j < len % 2 ^ 32 / flash.eraseSize, Arrives env flash.cmdsz j := by
  constructor
  · intro h
    -- the last byte is cleared too
    obtain ⟨j, -, -, hlast, -⟩ := h.command (b := addr + len - 1) (by omega) (by omega)
    exact ⟨h.aligned hpos, by omega, h.short hlen hpos, h.fits_last hlen hpos,
      fun j hj => h.arrives hlen hpos hj⟩
  · rintro ⟨haligned, hsize, hshort, hfits, harrives⟩ b
    obtain ⟨n, rfl⟩ := hlen
    rw [Nat.mod_eq_of_lt hshort, Nat.mul_div_cancel_left _ flash.eraseSize_pos] at harrives ⊢
    -- the addresses fit into the commands
    have hmod : ∀ j < n, (addr + j * flash.eraseSize) % 2 ^ (8 * flash.addrWidth) =
        addr + j * flash.eraseSize := by
      intro j hj
      have := Nat.mul_le_mul_right flash.eraseSize (Nat.succ_le_of_lt hj)
      rw [Nat.succ_mul, Nat.mul_comm n] at this
      exact Nat.mod_eq_of_lt (by omega)
    rw [erased_sectorCmds, Nat.mul_comm flash.eraseSize n,
      ← sector_iff flash.eraseSize_pos haligned n b]
    constructor
    · rintro ⟨j, hj, -, -, hsector⟩
      exact ⟨j, hj, by rw [hsector, hmod j hj]⟩
    · rintro ⟨j, hj, hsector⟩
      have hb := (sector_iff flash.eraseSize_pos haligned n b).mp ⟨j, hj, hsector⟩
      rw [Nat.mul_comm n] at hb
      exact ⟨j, hj, harrives j hj, by omega, by rw [hsector, hmod j hj]⟩

end Sectors

/-! ## The whole erase -/

def commandCount (len : ℕ) : ℕ :=
  if len % 2 ^ 32 = flash.size then 1 else len % 2 ^ 32 / flash.eraseSize

def commandSize (len : ℕ) : ℕ := if len % 2 ^ 32 = flash.size then 1 else flash.cmdsz

def Ready (len : ℕ) : Prop := ∀ k < commandCount flash len, (env k).waitTillReady = 0

theorem m25p80Erase_sent (addr len : BitVec 64) (hlen : len.toNat % flash.eraseSize = 0) :
    ∃ r, m25p80Erase flash env addr len = some r ∧ (r.ret = 0 ↔ Ready flash env len.toNat) ∧
      (r.ret = 0 → r.sent = if len.toNat % 2 ^ 32 = flash.size then [⟨[opcodeChipErase], env 0⟩]
        else sectorCmds flash env 0 addr.toNat (len.toNat % 2 ^ 32 / flash.eraseSize)) := by
  have hlow : (len.setWidth 32).toNat = len.toNat % 2 ^ 32 := BitVec.toNat_setWidth _ _
  have haddr : addr.setWidth 32 = BitVec.ofNat 32 addr.toNat :=
    BitVec.eq_of_toNat_eq (by simp)
  unfold m25p80Erase
  simp only [hlen, ne_eq, not_true_eq_false, if_false, hlow, Ready, commandCount]
  by_cases hwhole : len.toNat % 2 ^ 32 = flash.size
  · simp only [if_pos hwhole]
    -- one command for the whole chip
    by_cases hready : (env 0).waitTillReady = 0
    · simp [hready]
    · simp [hready]
  · simp only [if_neg hwhole]
    have hdvd : flash.eraseSize ∣ len.toNat % 2 ^ 32 :=
      (Nat.dvd_mod_iff flash.eraseSize_dvd).mpr (Nat.dvd_of_mod_eq_zero hlen)
    have hmul := Nat.div_mul_cancel hdvd
    have hlt : len.toNat % 2 ^ 32 < 2 ^ 32 := Nat.mod_lt _ (by decide)
    -- the low bits of the length are a number of sectors
    have hlen32 : len.setWidth 32 =
        BitVec.ofNat 32 (len.toNat % 2 ^ 32 / flash.eraseSize * flash.eraseSize) := by
      rw [hmul]
      exact BitVec.eq_of_toNat_eq (by simp)
    have hrounds : len.toNat % 2 ^ 32 / flash.eraseSize < 2 ^ 32 + 1 :=
      (Nat.div_le_self _ _).trans_lt (by omega)
    obtain ⟨r, hrun, hret, hsent⟩ := eraseLoop_sent flash env (by rw [hmul]; exact hlt) hrounds 0
      addr.toNat []
    rw [haddr, hlen32]
    simp only [Nat.zero_add] at hret
    exact ⟨r, hrun, hret, hsent⟩

/-- What a request that is carried out has to meet -/
structure Sane (addr len : ℕ) : Prop where
  aligned : addr % flash.eraseSize = 0
  inside : addr + len ≤ flash.size
  short : len < 2 ^ 32
  /-- The addresses of the sectors fit into the command. -/
  addressed : len = flash.size ∨ addr + len < 2 ^ (8 * flash.addrWidth) + flash.eraseSize
  arrives : ∀ k < commandCount flash len, Arrives env (commandSize flash len) k

theorem chipExact_iff {addr len : ℕ} (hpos : 0 < len) (hwhole : len % 2 ^ 32 = flash.size) :
    (∀ b, Erased flash [⟨[opcodeChipErase], env 0⟩] b ↔ addr ≤ b ∧ b < addr + len) ↔
      Sane flash env addr len := by
  have herased : ∀ b, Erased flash [⟨[opcodeChipErase], env 0⟩] b ↔
      Arrives env 1 0 ∧ b < flash.size := by
    intro b
    simp only [Erased, List.mem_singleton, exists_eq_left, clears_chip]
    rfl
  have hcommands : (∀ k < commandCount flash len, Arrives env (commandSize flash len) k) ↔
      Arrives env 1 0 := by
    simp only [commandCount, commandSize, if_pos hwhole, Nat.lt_one_iff, forall_eq]
  simp only [herased]
  constructor
  · intro h
    have hfirst := (h addr).mpr ⟨Nat.le_refl _, by omega⟩
    have hlast := (h (addr + len - 1)).mpr ⟨by omega, by omega⟩
    -- byte 0 is cleared, so the interval starts with it
    have hzero := ((h 0).mp ⟨hfirst.1, by omega⟩).1
    have hsize := Nat.mod_le len (2 ^ 32)
    have hlt := Nat.mod_lt len (show 0 < 2 ^ 32 by decide)
    exact ⟨by rw [Nat.le_zero.mp hzero, Nat.zero_mod], by omega, by omega, .inl (by omega),
      hcommands.mpr hfirst.1⟩
  · intro h b
    have hinside := h.inside
    have hsize := Nat.mod_eq_of_lt h.short
    rw [and_iff_right (hcommands.mp h.arrives)]
    omega

theorem sectorsExact_sane {addr len : ℕ} (hlen : flash.eraseSize ∣ len) (hpos : 0 < len)
    (hwhole : len % 2 ^ 32 ≠ flash.size) :
    SectorsExact flash env addr len ↔ Sane flash env addr len := by
  have hcommands : (∀ k < commandCount flash len, Arrives env (commandSize flash len) k) ↔
      ∀ k < len % 2 ^ 32 / flash.eraseSize, Arrives env flash.cmdsz k := by
    simp only [commandCount, commandSize, if_neg hwhole]
  rw [sectorsExact_iff hlen hpos, ← hcommands]
  constructor
  · rintro ⟨haligned, hinside, hshort, hfits, harrives⟩
    exact ⟨haligned, hinside, hshort, .inr hfits, harrives⟩
  · rintro ⟨haligned, hinside, hshort, hsize | hfits, harrives⟩
    · exact absurd ((Nat.mod_eq_of_lt hshort).trans hsize) hwhole
    · exact ⟨haligned, hinside, hshort, hfits, harrives⟩

/-- **An erase is exact** if and only if it is refused, finds the chip busy, has nothing to do, or
    is sane. -/
theorem erase_exact_iff (addr len : BitVec 64) :
    (∃ r, m25p80Erase flash env addr len = some r ∧ Exact flash addr.toNat len.toNat r) ↔
      (len.toNat % flash.eraseSize = 0 → Ready flash env len.toNat → len ≠ 0 →
        Sane flash env addr.toNat len.toNat) := by
  by_cases hlen : len.toNat % flash.eraseSize = 0
  swap
  · -- the length is refused
    have hrefused : m25p80Erase flash env addr len = some ⟨-22, []⟩ := by
      simp [m25p80Erase, hlen]
    exact ⟨fun _ h => absurd h hlen, fun _ => ⟨_, hrefused, nofun⟩⟩
  obtain ⟨r, hrun, hret, hsent⟩ := m25p80Erase_sent flash env addr len hlen
  have hexact : (∃ r, m25p80Erase flash env addr len = some r ∧
        Exact flash addr.toNat len.toNat r) ↔
      (Ready flash env len.toNat → ∀ b, Erased flash r.sent b ↔
        addr.toNat ≤ b ∧ b < addr.toNat + len.toNat) := by
    simp only [hrun, Option.some.injEq, exists_eq_left', Exact, hret]
  rw [hexact]
  simp only [hlen, forall_true_left]
  refine forall_congr' fun hready => ?_
  rw [hsent (hret.mpr hready)]
  by_cases hzero : len = 0
  · -- no command, or one for a chip without bytes
    subst hzero
    refine iff_of_true (fun b => ?_) fun h => absurd rfl h
    split_ifs with hwhole
    · have : flash.size = 0 := hwhole.symm
      simp [Erased, clears_chip, this]
    · simp [Erased, sectorCmds]
  · have hpos : 0 < len.toNat := Nat.pos_of_ne_zero fun h => hzero (BitVec.eq_of_toNat_eq h)
    rw [forall_prop_of_true hzero]
    split_ifs with hwhole
    · exact chipExact_iff flash env hpos hwhole
    · exact sectorsExact_sane flash env (Nat.dvd_of_mod_eq_zero hlen) hpos hwhole

end Erase

def smallFlash : EraseFlash :=
  { pageShift := 8, addrWidth := 3, programOpcode := 0x02, eraseOpcode := 0x20, eraseSize := 4096
    size := 65536, pageShift_lt := by decide, addrWidth_le := by decide
    eraseSize_dvd := by decide, eraseSize_lt := by decide, eraseOpcode_ne := by decide }

def goodBus : ℕ → Attempt := fun _ => ⟨.status 0, [], 0, .done 0 4⟩

/-- Three requests that are accepted and reported as done. An unaligned one clears bytes below the
    interval, one of the length of the chip clears all of it wherever it starts, and one of `2 ^ 32`
    bytes clears nothing. -/
theorem unaligned_erases_below :
    (∃ r, m25p80Erase smallFlash goodBus 0x64#64 0x1000#64 = some r ∧ r.ret = 0 ∧
      Erased smallFlash r.sent 0 ∧ ¬ Exact smallFlash 0x64 0x1000 r) ∧
    (∃ r, m25p80Erase smallFlash (fun _ => ⟨.status 0, [], 0, .done 0 1⟩) 0x1000#64 0x10000#64 =
        some r ∧ r.ret = 0 ∧ Erased smallFlash r.sent 0 ∧ ¬ Exact smallFlash 0x1000 0x10000 r) ∧
    ∃ r, m25p80Erase smallFlash goodBus 0#64 0x100000000#64 = some r ∧ r.ret = 0 ∧
      r.sent = [] ∧ ¬ Exact smallFlash 0 0x100000000 r := by
  refine ⟨?_, ?_, ?_⟩
  · have hzero : Erased smallFlash [⟨[0x20, 0, 0, 0x64], goodBus 0⟩] 0 :=
      ⟨_, List.mem_singleton.mpr rfl, by simp [Sent.Taken, goodBus, Attempt.writeEnable,
        Sync.Accepted], by decide, Or.inr ⟨rfl, by decide⟩⟩
    refine ⟨⟨0, [⟨[0x20, 0, 0, 0x64], goodBus 0⟩]⟩, by rfl, rfl, hzero, fun h => ?_⟩
    exact absurd ((h rfl 0).mp hzero).1 (by decide)
  · have hzero : Erased smallFlash [⟨[opcodeChipErase], ⟨.status 0, [], 0, .done 0 1⟩⟩] 0 :=
      ⟨_, List.mem_singleton.mpr rfl, by simp [Sent.Taken, Attempt.writeEnable, Sync.Accepted],
        by decide, Or.inl rfl⟩
    refine ⟨_, rfl, rfl, hzero, fun h => ?_⟩
    exact absurd ((h rfl 0).mp hzero).1 (by decide)
  · refine ⟨⟨0, []⟩, by rfl, rfl, rfl, fun h => ?_⟩
    obtain ⟨c, hc, _⟩ := (h rfl 0).mpr ⟨by decide, by decide⟩
    exact absurd hc (List.not_mem_nil)

end NucKernel.Mtd.SpiNor
