import Mathlib.Data.List.Range
import Mathlib.Data.Nat.ModEq
import Mathlib.Tactic.Ring

/-!
# Writing a serial NOR flash (`m25p80.c`)

`m25p80_write` cuts a buffer at the pages of the flash and sends one page-program command per piece.
A chip that is busy, or has not latched a write enable, drops the command, so each one must follow a
successful `wait_till_ready` and a successful `write_enable`. Only the first `wait_till_ready` is
looked at; the results of the others, of every `write_enable` and of every `spi_sync` are not.

## Modelling

- One `Attempt` per piece holds the results of its polls, its `write_enable` and its `spi_sync`.
- `size_t` and `u32` have 32 bits. `to` is a `loff_t` and is not negative.
- A message that `spi_sync` does not accept leaves `m.actual_length` as the message before left it.
- The bytes of a command beyond `m25p_cmdsz` are not sent and are left out.
-/

namespace NucKernel.Mtd.SpiNor

/-! ## The chip and its answers -/

/-- The fields of `struct m25p` that a write uses. `page_size` is a `u16` and a power of two. -/
structure M25p where
  pageShift : ℕ
  addrWidth : ℕ
  programOpcode : UInt8
  pageShift_lt : pageShift < 16
  addrWidth_le : addrWidth ≤ 4

namespace M25p

def pageSize (flash : M25p) : ℕ := 2 ^ flash.pageShift

theorem pageSize_pos (flash : M25p) : 0 < flash.pageSize := Nat.two_pow_pos _

theorem pageSize_lt (flash : M25p) : flash.pageSize < 2 ^ 16 :=
  Nat.pow_lt_pow_right (by decide) flash.pageShift_lt

/-- `m25p_cmdsz` -/
def cmdsz (flash : M25p) : ℕ := 1 + flash.addrWidth

def addr2cmd (flash : M25p) (addr : ℕ) : List UInt8 :=
  flash.programOpcode ::
    (List.range flash.addrWidth).map fun k =>
      UInt8.ofNat ((addr % 2 ^ 32) >>> (8 * (flash.addrWidth - 1 - k)))

end M25p

inductive Poll
  | error
  | status (sr : UInt8)

def srWip : UInt8 := 1

def pollLoop : List Poll → ℤ
  | [] => 1
  | .error :: _ => 1
  | .status sr :: rest => if sr &&& srWip = 0 then 0 else pollLoop rest

/-- The result of `spi_sync`: an error before the message is queued, or the status of the message
    and the number of bytes transferred -/
inductive Sync
  | refused (errno : ℤ)
  | done (status : ℤ) (actual : ℕ)

/-- What happens to one page-program command. The first poll is made in any case. -/
structure Attempt where
  poll : Poll
  polls : List Poll
  wren : ℤ
  sync : Sync

namespace Attempt

def waitTillReady (a : Attempt) : ℤ := pollLoop (a.poll :: a.polls)

def writeEnable (a : Attempt) : ℤ := a.wren

end Attempt

/-! ## The write -/

inductive Op
  | wait (ret : ℤ)
  | enable (ret : ℤ)
  | program (cmd data : List UInt8) (sync : Sync)

structure Progress where
  actualLength : BitVec 32
  retlen : BitVec 32
  ops : List Op

/-- `m.actual_length` after `spi_sync` -/
def Sync.actualLength (old : BitVec 32) : Sync → BitVec 32
  | .refused _ => old
  | .done _ actual => BitVec.ofNat 32 actual

section Write

variable (flash : M25p) (env : ℕ → Attempt) (dst : ℕ) (buf : ℕ → UInt8)

def slice (i size : ℕ) : List UInt8 := (List.range size).map fun j => buf (i + j)

/-- Wait, enable and send the piece of `size` bytes at `i`, the `k`-th one. -/
def sendPiece (k i size : ℕ) (p : Progress) : Progress :=
  let a := env k
  let actual := a.sync.actualLength p.actualLength
  { actualLength := actual
    retlen := p.retlen + (actual - BitVec.ofNat 32 flash.cmdsz)
    ops := p.ops ++ [.wait a.waitTillReady, .enable a.writeEnable,
      .program (flash.addr2cmd (dst + i)) (slice buf i size) a.sync] }

/-- The loop over the pages after the first one; no result is tested. -/
def pageLoop (len : ℕ) : (rounds k i : ℕ) → Progress → Progress
  | 0, _, _, p => p
  | rounds + 1, k, i, p =>
    if i < len then
      let size := if len - i > flash.pageSize then flash.pageSize else len - i
      pageLoop len rounds (k + 1) (i + size) (sendPiece flash env dst buf k i size p)
    else p

structure Outcome where
  ret : ℤ
  retlen : BitVec 32
  ops : List Op

def m25p80Write (len : BitVec 32) : Outcome :=
  if (env 0).waitTillReady ≠ 0 then ⟨1, 0, [.wait (env 0).waitTillReady]⟩
  else
    let pageOffset := dst % flash.pageSize
    let start : Progress := ⟨0, 0, []⟩
    -- the sum of two 32-bit numbers
    if (pageOffset + len.toNat) % 2 ^ 32 ≤ flash.pageSize then
      let p := sendPiece flash env dst buf 0 0 len.toNat start
      ⟨0, p.retlen, p.ops⟩
    else
      let size := flash.pageSize - pageOffset
      let p := sendPiece flash env dst buf 0 0 size start
      let p := pageLoop flash env dst buf len.toNat len.toNat 1 size p
      ⟨0, p.retlen, p.ops⟩

end Write

/-! ## What a write should do -/

def cmdAddr (cmd : List UInt8) : ℕ := cmd.tail.foldl (fun n b => n * 256 + b.toNat) 0

def programs : List Op → List (List UInt8 × List UInt8 × Sync)
  | [] => []
  | .program cmd data sync :: ops => (cmd, data, sync) :: programs ops
  | .wait _ :: ops => programs ops
  | .enable _ :: ops => programs ops

/-- Every command follows a wait and a write enable of its own that succeeded. -/
def Guarded (ready enabled : Bool) : List Op → Prop
  | [] => True
  | .wait ret :: ops => Guarded (ret == 0) false ops
  | .enable ret :: ops => Guarded ready (ready && ret == 0) ops
  | .program _ _ _ :: ops => ready = true ∧ enabled = true ∧ Guarded false false ops

instance Guarded.decidable : ∀ ready enabled ops, Decidable (Guarded ready enabled ops)
  | _, _, [] => isTrue trivial
  | _, _, .wait ret :: ops => Guarded.decidable (ret == 0) false ops
  | ready, _, .enable ret :: ops => Guarded.decidable ready (ready && ret == 0) ops
  | ready, enabled, .program _ _ _ :: ops =>
    have := Guarded.decidable false false ops
    inferInstanceAs (Decidable (ready = true ∧ enabled = true ∧ Guarded false false ops))

/-- The commands go to consecutive addresses from `addr` up to `stop`. -/
def Consecutive : (addr : ℕ) → List (List UInt8 × List UInt8 × Sync) → (stop : ℕ) → Prop
  | addr, [], stop => addr = stop
  | addr, (cmd, data, _) :: rest, stop =>
    cmdAddr cmd = addr ∧ Consecutive (addr + data.length) rest stop

theorem consecutive_cons (addr stop : ℕ) (c : List UInt8 × List UInt8 × Sync)
    (rest : List (List UInt8 × List UInt8 × Sync)) :
    Consecutive addr (c :: rest) stop ↔
      cmdAddr c.1 = addr ∧ Consecutive (addr + c.2.1.length) rest stop := Iff.rfl

/-- The message went out as a whole and without an error. -/
def Sync.Accepted (size : ℕ) : Sync → Prop
  | .refused _ => False
  | .done status actual => status = 0 ∧ actual = size

/-- All bytes that a command carries belong to the page of the first one. -/
def InOnePage (flash : M25p) (cmd data : List UInt8) : Prop :=
  ∀ j, j < data.length → (cmdAddr cmd + j) / flash.pageSize = cmdAddr cmd / flash.pageSize

/-- A write that is as it should be -/
structure Sound (flash : M25p) (dst : ℕ) (buf : ℕ → UInt8) (len : BitVec 32) (r : Outcome) :
    Prop where
  onePage : ∀ c ∈ programs r.ops, InOnePage flash c.1 c.2.1
  nothing : r.ret ≠ 0 → programs r.ops = []
  addresses : r.ret = 0 → Consecutive dst (programs r.ops) (dst + len.toNat)
  bytes : r.ret = 0 → (programs r.ops).flatMap (fun c => c.2.1) = slice buf 0 len.toNat
  guarded : Guarded false false r.ops
  accepted : r.ret = 0 → r.retlen = len →
    ∀ c ∈ programs r.ops, c.2.2.Accepted (flash.cmdsz + c.2.1.length)

/-! ## The pieces -/

section Pieces

variable (flash : M25p) (dst len : ℕ)

def pieceOffset (k : ℕ) : ℕ := k * flash.pageSize - dst % flash.pageSize

def pieceSize (k : ℕ) : ℕ := min len (pieceOffset flash dst (k + 1)) - pieceOffset flash dst k

/-- The number of pieces: one for each page, and one for an empty buffer -/
def pieces : ℕ := max 1 ((dst % flash.pageSize + len + flash.pageSize - 1) / flash.pageSize)

theorem pieceOffset_zero : pieceOffset flash dst 0 = 0 := by simp [pieceOffset]

theorem pieceOffset_one : pieceOffset flash dst 1 = flash.pageSize - dst % flash.pageSize := by
  simp [pieceOffset]

theorem pieceOffset_succ {k : ℕ} (hk : 1 ≤ k) :
    pieceOffset flash dst (k + 1) = pieceOffset flash dst k + flash.pageSize := by
  have hlt : dst % flash.pageSize < flash.pageSize := Nat.mod_lt _ flash.pageSize_pos
  have hle : flash.pageSize ≤ k * flash.pageSize := Nat.le_mul_of_pos_left _ hk
  simp only [pieceOffset, Nat.succ_mul]
  omega

theorem pieceOffset_mono (k : ℕ) : pieceOffset flash dst k ≤ pieceOffset flash dst (k + 1) := by
  simp only [pieceOffset, Nat.succ_mul]
  omega

theorem pieceOffset_lt_iff {k : ℕ} (hk : 1 ≤ k) :
    pieceOffset flash dst k < len ↔ k < pieces flash dst len := by
  have hpos := flash.pageSize_pos
  have hlt : dst % flash.pageSize < flash.pageSize := Nat.mod_lt _ hpos
  have hle : flash.pageSize ≤ k * flash.pageSize := Nat.le_mul_of_pos_left _ hk
  rw [pieces, lt_max_iff, or_iff_right (by omega), pieceOffset, Nat.lt_div_iff_mul_lt hpos]
  omega

theorem pieces_pos : 0 < pieces flash dst len := by
  rw [pieces]
  omega

theorem pieces_le : pieces flash dst len ≤ len + 1 := by
  by_contra hlt
  have hk : 1 ≤ len + 1 := by omega
  have hoff := (pieceOffset_lt_iff flash dst len hk).mpr (by omega)
  have hmod : dst % flash.pageSize < flash.pageSize := Nat.mod_lt _ flash.pageSize_pos
  have hle : len * 1 ≤ len * flash.pageSize := Nat.mul_le_mul_left _ flash.pageSize_pos
  rw [pieceOffset, Nat.succ_mul] at hoff
  omega

theorem pieceOffset_add_size {k : ℕ} (hk : k < pieces flash dst len) :
    pieceOffset flash dst k + pieceSize flash dst len k =
      min len (pieceOffset flash dst (k + 1)) := by
  have hmono := pieceOffset_mono flash dst k
  have hstart : pieceOffset flash dst k ≤ len := by
    rcases Nat.eq_zero_or_pos k with rfl | hpos
    · rw [pieceOffset_zero]
      exact Nat.zero_le _
    · exact ((pieceOffset_lt_iff flash dst len hpos).mpr hk).le
  rw [pieceSize]
  omega

theorem min_pieceOffset_pieces : min len (pieceOffset flash dst (pieces flash dst len)) = len := by
  have hnot := mt (pieceOffset_lt_iff flash dst len (pieces_pos flash dst len)).mp
    (Nat.lt_irrefl _)
  omega

theorem piece_inPage {k j : ℕ} (hj : j < pieceSize flash dst len k) :
    (dst + pieceOffset flash dst k + j) / flash.pageSize =
      (dst + pieceOffset flash dst k) / flash.pageSize := by
  have hpos := flash.pageSize_pos
  have hlt : dst % flash.pageSize < flash.pageSize := Nat.mod_lt _ hpos
  have hdiv := Nat.div_add_mod dst flash.pageSize
  have hend : pieceOffset flash dst k + j < pieceOffset flash dst (k + 1) := by
    rw [pieceSize] at hj
    omega
  -- both addresses lie in the page `k` pages after that of `dst`
  have hpage : ∀ a, k * flash.pageSize ≤ dst % flash.pageSize + a →
      dst % flash.pageSize + a < (k + 1) * flash.pageSize →
      (dst + a) / flash.pageSize = dst / flash.pageSize + k := by
    intro a hlow hhigh
    rw [Nat.succ_mul] at hhigh
    apply Nat.div_eq_of_lt_le
    · rw [Nat.add_mul, Nat.mul_comm]
      omega
    · rw [Nat.succ_mul, Nat.add_mul, Nat.mul_comm (dst / _)]
      omega
  have hnext : dst % flash.pageSize ≤ (k + 1) * flash.pageSize := by
    rw [Nat.succ_mul]
    omega
  rw [Nat.add_assoc, hpage, hpage]
  all_goals
    simp only [pieceOffset] at hend ⊢
    omega

end Pieces

/-! ## What is sent -/

section Sent

variable (flash : M25p) (env : ℕ → Attempt) (dst : ℕ) (buf : ℕ → UInt8)

def pieceCommand (len k : ℕ) : List UInt8 × List UInt8 × Sync :=
  (flash.addr2cmd (dst + pieceOffset flash dst k),
    slice buf (pieceOffset flash dst k) (pieceSize flash dst len k), (env k).sync)

def pieceOps (len k : ℕ) : List Op :=
  let c := pieceCommand flash env dst buf len k
  [.wait (env k).waitTillReady, .enable (env k).writeEnable, .program c.1 c.2.1 c.2.2]

def sendPieces (len : ℕ) (ks : List ℕ) (p : Progress) : Progress :=
  ks.foldl (fun p k =>
    sendPiece flash env dst buf k (pieceOffset flash dst k) (pieceSize flash dst len k) p) p

theorem sendPieces_ops (len : ℕ) (ks : List ℕ) (p : Progress) :
    (sendPieces flash env dst buf len ks p).ops =
      p.ops ++ ks.flatMap (pieceOps flash env dst buf len) := by
  induction ks generalizing p with
  | nil => simp [sendPieces]
  | cons k ks ih =>
    rw [sendPieces, List.foldl_cons]
    refine (ih _).trans ?_
    rw [List.flatMap_cons, ← List.append_assoc]
    rfl

/-- What the messages add to `*retlen`, after one with the length `old`. A message that is refused
    counts like the one before it. -/
def countedBytes (cmdsz : ℕ) : (old : BitVec 32) → List Sync → BitVec 32
  | _, [] => 0
  | old, sync :: rest =>
    sync.actualLength old - BitVec.ofNat 32 cmdsz +
      countedBytes cmdsz (sync.actualLength old) rest

theorem sendPieces_retlen (len : ℕ) (ks : List ℕ) (p : Progress) :
    (sendPieces flash env dst buf len ks p).retlen =
      p.retlen + countedBytes flash.cmdsz p.actualLength (ks.map fun k => (env k).sync) := by
  induction ks generalizing p with
  | nil => exact (BitVec.add_zero _).symm
  | cons k ks ih =>
    rw [sendPieces, List.foldl_cons]
    refine (ih _).trans ?_
    rw [List.map_cons, countedBytes, ← BitVec.add_assoc]
    rfl

theorem pageLoop_eq {len rounds k : ℕ} (hk : 1 ≤ k) (hrounds : pieces flash dst len ≤ k + rounds)
    (p : Progress) :
    pageLoop flash env dst buf len rounds k (min len (pieceOffset flash dst k)) p =
      sendPieces flash env dst buf len (List.range' k (pieces flash dst len - k)) p := by
  induction rounds generalizing k p with
  | zero =>
    -- no piece is left
    rw [pageLoop, show pieces flash dst len - k = 0 from by omega]
    rfl
  | succ rounds ih =>
    have hiff := pieceOffset_lt_iff flash dst len hk
    rw [pageLoop]
    split
    · rename_i hlt
      have hoff : pieceOffset flash dst k < len := by omega
      have hsucc := pieceOffset_succ flash dst hk
      have hnum : pieces flash dst len - k = pieces flash dst len - (k + 1) + 1 := by
        have := hiff.mp hoff
        omega
      have hmin : min len (pieceOffset flash dst k) = pieceOffset flash dst k := by omega
      -- the piece goes to the end of its page or of the buffer
      have hsize : (if len - pieceOffset flash dst k > flash.pageSize then flash.pageSize
          else len - pieceOffset flash dst k) = pieceSize flash dst len k := by
        rw [pieceSize]
        split <;> omega
      simp only [hmin, hsize]
      -- the next round starts where this piece ends
      rw [pieceOffset_add_size flash dst len (hiff.mp hoff), ih (by omega) (by omega), hnum,
        List.range'_succ]
      rfl
    · rename_i hge
      -- all pieces have been sent
      have hstop : ¬ k < pieces flash dst len := fun h => hge (by
        have := hiff.mpr h
        omega)
      rw [show pieces flash dst len - k = 0 from by omega]
      rfl

variable {flash env dst buf} {len : BitVec 32}

theorem write_eq (hready : (env 0).waitTillReady = 0)
    (hwrap : dst % flash.pageSize + len.toNat < 2 ^ 32) :
    m25p80Write flash env dst buf len =
      let p := sendPieces flash env dst buf len.toNat
        (List.range (pieces flash dst len.toNat)) ⟨0, 0, []⟩
      ⟨0, p.retlen, p.ops⟩ := by
  have hmod : dst % flash.pageSize < flash.pageSize := Nat.mod_lt _ flash.pageSize_pos
  have hone := pieceOffset_lt_iff flash dst len.toNat (Nat.le_refl 1)
  have hpos := pieces_pos flash dst len.toNat
  -- the first piece is sent before the loop
  have hsplit : List.range (pieces flash dst len.toNat) =
      0 :: List.range' 1 (pieces flash dst len.toNat - 1) := by
    rw [List.range_eq_range', ← Nat.sub_add_cancel hpos, List.range'_succ]
    rfl
  rw [pieceOffset_one] at hone
  rw [hsplit, sendPieces, List.foldl_cons, pieceOffset_zero, m25p80Write,
    if_neg (not_not_intro hready)]
  dsimp only
  rw [Nat.mod_eq_of_lt hwrap]
  split
  · -- one page
    rename_i hfit
    have hsize : pieceSize flash dst len.toNat 0 = len.toNat := by
      rw [pieceSize, pieceOffset_zero, pieceOffset_one]
      omega
    rw [show pieces flash dst len.toNat - 1 = 0 from by omega, hsize]
    rfl
  · rename_i hfit
    have hsize : pieceSize flash dst len.toNat 0 = flash.pageSize - dst % flash.pageSize := by
      rw [pieceSize, pieceOffset_zero, pieceOffset_one]
      omega
    -- the loop starts with the second page
    have hstart : min len.toNat (pieceOffset flash dst 1) =
        flash.pageSize - dst % flash.pageSize := by
      rw [pieceOffset_one]
      omega
    have hloop := @pageLoop_eq flash env dst buf len.toNat len.toNat 1 (Nat.le_refl 1)
      (by have := pieces_le flash dst len.toNat; omega)
    rw [hstart] at hloop
    rw [hloop, hsize]
    rfl

theorem write_ret (hready : (env 0).waitTillReady = 0)
    (hwrap : dst % flash.pageSize + len.toNat < 2 ^ 32) :
    (m25p80Write flash env dst buf len).ret = 0 := by
  rw [write_eq hready hwrap]

theorem write_ops (hready : (env 0).waitTillReady = 0)
    (hwrap : dst % flash.pageSize + len.toNat < 2 ^ 32) :
    (m25p80Write flash env dst buf len).ops =
      (List.range (pieces flash dst len.toNat)).flatMap (pieceOps flash env dst buf len.toNat) := by
  rw [write_eq hready hwrap]
  exact sendPieces_ops _ _ _ _ _ _ _

theorem write_retlen (hready : (env 0).waitTillReady = 0)
    (hwrap : dst % flash.pageSize + len.toNat < 2 ^ 32) :
    (m25p80Write flash env dst buf len).retlen = countedBytes flash.cmdsz 0
      ((List.range (pieces flash dst len.toNat)).map fun k => (env k).sync) := by
  rw [write_eq hready hwrap]
  exact (sendPieces_retlen _ _ _ _ _ _ _).trans (BitVec.zero_add _)

end Sent

/-! ## The exact condition -/

section Lists

variable (flash : M25p) (env : ℕ → Attempt) (dst : ℕ) (buf : ℕ → UInt8) (len : ℕ)

theorem programs_flatMap (ks : List ℕ) :
    programs (ks.flatMap (pieceOps flash env dst buf len)) =
      ks.map (pieceCommand flash env dst buf len) := by
  induction ks with
  | nil => rfl
  | cons k ks ih =>
    rw [List.flatMap_cons, List.map_cons, ← ih]
    rfl

theorem guarded_flatMap (ks : List ℕ) :
    Guarded false false (ks.flatMap (pieceOps flash env dst buf len)) ↔
      ∀ k ∈ ks, (env k).waitTillReady = 0 ∧ (env k).writeEnable = 0 := by
  induction ks with
  | nil => simp [Guarded]
  | cons k ks ih => simp [pieceOps, Guarded, ih, and_assoc]

theorem foldl_bytes (a w n : ℕ) :
    ((List.range w).map fun k => UInt8.ofNat (a >>> (8 * (w - 1 - k)))).foldl
      (fun n b => n * 256 + b.toNat) n = n * 256 ^ w + a % 256 ^ w := by
  induction w generalizing a with
  | zero => simp [Nat.mod_one]
  | succ w ih =>
    -- the bytes before the last one are those of `a >>> 8`
    have hinit : ((List.range w).map fun k => UInt8.ofNat (a >>> (8 * (w + 1 - 1 - k)))) =
        (List.range w).map fun k => UInt8.ofNat ((a >>> 8) >>> (8 * (w - 1 - k))) := by
      apply List.map_congr_left
      intro k hk
      rw [List.mem_range] at hk
      rw [← Nat.shiftRight_add, show 8 * (w + 1 - 1 - k) = 8 + 8 * (w - 1 - k) from by omega]
    rw [List.range_succ, List.map_append, List.foldl_append, hinit, ih, List.map_singleton,
      List.foldl_cons, List.foldl_nil, Nat.pow_succ', Nat.mod_mul, Nat.add_sub_cancel,
      Nat.sub_self, Nat.mul_zero, Nat.shiftRight_zero, UInt8.toNat_ofNat',
      Nat.shiftRight_eq_div_pow]
    ring

theorem cmdAddr_addr2cmd (addr : ℕ) :
    cmdAddr (flash.addr2cmd addr) = addr % 2 ^ (8 * flash.addrWidth) := by
  have hwidth := flash.addrWidth_le
  have hdvd : 2 ^ (8 * flash.addrWidth) ∣ 2 ^ 32 := Nat.pow_dvd_pow 2 (by omega)
  have hbase : 256 ^ flash.addrWidth = 2 ^ (8 * flash.addrWidth) := by
    rw [Nat.pow_mul]
  simp only [cmdAddr, M25p.addr2cmd, List.tail_cons]
  rw [foldl_bytes, hbase, Nat.zero_mul, Nat.zero_add, Nat.mod_mod_of_dvd _ hdvd]

theorem consecutive_iff {n k : ℕ} (hn : k + n = pieces flash dst len) :
    Consecutive (dst + min len (pieceOffset flash dst k))
        ((List.range' k n).map (pieceCommand flash env dst buf len)) (dst + len) ↔
      ∀ j ∈ List.range' k n, dst + pieceOffset flash dst j < 2 ^ (8 * flash.addrWidth) := by
  induction n generalizing k with
  | zero =>
    -- the pieces end with the buffer
    have hend := min_pieceOffset_pieces flash dst len
    rw [← hn, Nat.add_zero] at hend
    simp [Consecutive, hend]
  | succ n ih =>
    have hlt : k < pieces flash dst len := by omega
    have hsum := pieceOffset_add_size flash dst len hlt
    have hmin : min len (pieceOffset flash dst k) = pieceOffset flash dst k := by
      have := pieceOffset_mono flash dst k
      omega
    have hlen : (pieceCommand flash env dst buf len k).2.1.length = pieceSize flash dst len k := by
      simp [pieceCommand, slice]
    rw [List.range'_succ, List.map_cons, List.forall_mem_cons, ← ih (by omega), hmin,
      consecutive_cons, hlen, Nat.add_assoc, hsum]
    -- the address of the piece is the one in its command
    refine and_congr_left' ?_
    rw [pieceCommand, cmdAddr_addr2cmd]
    exact Nat.mod_eq_iff_lt (Nat.two_pow_pos _).ne'

theorem flatMap_slice {n : ℕ} (hn : n ≤ pieces flash dst len) :
    ((List.range n).map (pieceCommand flash env dst buf len)).flatMap (fun c => c.2.1) =
      slice buf 0 (min len (pieceOffset flash dst n)) := by
  induction n with
  | zero => simp [pieceOffset_zero, slice]
  | succ n ih =>
    have hsum := pieceOffset_add_size flash dst len hn
    have hmin : min len (pieceOffset flash dst n) = pieceOffset flash dst n := by
      have := pieceOffset_mono flash dst n
      omega
    rw [List.range_succ, List.map_append, List.flatMap_append, ih (by omega), ← hsum, hmin]
    simp [pieceCommand, slice, List.range_add, Function.comp_def]

end Lists

section Facts

variable {flash : M25p} {env : ℕ → Attempt} {dst : ℕ} {buf : ℕ → UInt8} {len : BitVec 32}
  (hready : (env 0).waitTillReady = 0)
include hready

theorem noWrap_of_onePage
    (h : ∀ c ∈ programs (m25p80Write flash env dst buf len).ops, InOnePage flash c.1 c.2.1) :
    dst % flash.pageSize + len.toNat < 2 ^ 32 := by
  by_contra hwrap
  have hmod : dst % flash.pageSize < flash.pageSize := Nat.mod_lt _ flash.pageSize_pos
  have hpage := flash.pageSize_lt
  have hlen := len.isLt
  have hsum : (dst % flash.pageSize + len.toNat) % 2 ^ 32 ≤ flash.pageSize := by omega
  -- the wrapped sum takes the branch for one page
  have hops : programs (m25p80Write flash env dst buf len).ops =
      [(flash.addr2cmd dst, slice buf 0 len.toNat, (env 0).sync)] := by
    rw [m25p80Write, if_neg (not_not_intro hready)]
    dsimp only
    rw [if_pos hsum]
    rfl
  rw [hops] at h
  -- the byte one page after the first one
  have hsame := h _ (List.mem_singleton_self _) flash.pageSize (by simp [slice]; omega)
  rw [Nat.add_div_right _ flash.pageSize_pos] at hsame
  omega

variable (hwrap : dst % flash.pageSize + len.toNat < 2 ^ 32)
include hwrap

theorem programs_write :
    programs (m25p80Write flash env dst buf len).ops =
      (List.range (pieces flash dst len.toNat)).map (pieceCommand flash env dst buf len.toNat) := by
  rw [write_ops hready hwrap, programs_flatMap]

theorem forall_programs_write {P : List UInt8 × List UInt8 × Sync → Prop} :
    (∀ c ∈ programs (m25p80Write flash env dst buf len).ops, P c) ↔
      ∀ k < pieces flash dst len.toNat, P (pieceCommand flash env dst buf len.toNat k) := by
  simp [programs_write hready hwrap]

theorem guarded_write :
    Guarded false false (m25p80Write flash env dst buf len).ops ↔
      ∀ k < pieces flash dst len.toNat, (env k).waitTillReady = 0 ∧ (env k).writeEnable = 0 := by
  rw [write_ops hready hwrap, guarded_flatMap]
  simp only [List.mem_range]

theorem addresses_write :
    Consecutive dst (programs (m25p80Write flash env dst buf len).ops) (dst + len.toNat) ↔
      ∀ k < pieces flash dst len.toNat,
        dst + pieceOffset flash dst k < 2 ^ (8 * flash.addrWidth) := by
  have hcons := consecutive_iff flash env dst buf len.toNat
    (show 0 + pieces flash dst len.toNat = pieces flash dst len.toNat from Nat.zero_add _)
  rw [← List.range_eq_range', pieceOffset_zero, Nat.min_zero, Nat.add_zero] at hcons
  rw [programs_write hready hwrap, hcons]
  simp only [List.mem_range]

theorem bytes_write :
    (programs (m25p80Write flash env dst buf len).ops).flatMap (fun c => c.2.1) =
      slice buf 0 len.toNat := by
  rw [programs_write hready hwrap, flatMap_slice _ _ _ _ _ (Nat.le_refl _),
    min_pieceOffset_pieces]

end Facts

/-- Nothing went wrong that the function does not look at, and the addresses fit. A message that
    did not go out as a whole is found out by the bytes that the messages count. -/
structure Unhindered (flash : M25p) (env : ℕ → Attempt) (dst : ℕ) (len : BitVec 32) : Prop where
  noWrap : dst % flash.pageSize + len.toNat < 2 ^ 32
  fits : ∀ k < pieces flash dst len.toNat,
    dst + pieceOffset flash dst k < 2 ^ (8 * flash.addrWidth)
  ready : ∀ k < pieces flash dst len.toNat, (env k).waitTillReady = 0
  enabled : ∀ k < pieces flash dst len.toNat, (env k).writeEnable = 0
  counted : (∀ k < pieces flash dst len.toNat,
      (env k).sync.Accepted (flash.cmdsz + pieceSize flash dst len.toNat k)) ∨
    countedBytes flash.cmdsz 0
      ((List.range (pieces flash dst len.toNat)).map fun k => (env k).sync) ≠ len

/-- **Exact condition**: a write is as it should be exactly when the first wait fails, or every wait
    and every write enable succeed, the addresses fit into the commands, and every message goes out
    as a whole or the bytes that the messages count do not add up to the length. -/
theorem sound_iff (flash : M25p) (env : ℕ → Attempt) (dst : ℕ) (buf : ℕ → UInt8)
    (len : BitVec 32) :
    Sound flash dst buf len (m25p80Write flash env dst buf len) ↔
      (env 0).waitTillReady ≠ 0 ∨ Unhindered flash env dst len := by
  by_cases hready : (env 0).waitTillReady = 0
  · rw [or_iff_right (not_not_intro hready)]
    constructor
    · intro h
      have hwrap := noWrap_of_onePage hready h.onePage
      have hret : (m25p80Write flash env dst buf len).ret = 0 := write_ret hready hwrap
      have hguard := (guarded_write hready hwrap).mp h.guarded
      refine ⟨hwrap, (addresses_write hready hwrap).mp (h.addresses hret),
        fun k hk => (hguard k hk).1, fun k hk => (hguard k hk).2, ?_⟩
      refine or_iff_not_imp_right.mpr fun hcounted k hk => ?_
      -- with all bytes counted, no message may have been cut
      have hlen : (m25p80Write flash env dst buf len).retlen = len :=
        (write_retlen hready hwrap).trans (not_ne_iff.mp hcounted)
      have hacc := (forall_programs_write hready hwrap).mp (h.accepted hret hlen) k hk
      simpa [pieceCommand, slice] using hacc
    · intro h
      have hret : (m25p80Write flash env dst buf len).ret = 0 := write_ret hready h.noWrap
      refine ⟨?_, fun hne => absurd hret hne,
        fun _ => (addresses_write hready h.noWrap).mpr h.fits,
        fun _ => bytes_write hready h.noWrap,
        (guarded_write hready h.noWrap).mpr fun k hk => ⟨h.ready k hk, h.enabled k hk⟩, ?_⟩
      · rw [forall_programs_write hready h.noWrap]
        intro k hk j hj
        simp only [pieceCommand, slice, List.length_map, List.length_range] at hj ⊢
        rw [cmdAddr_addr2cmd, Nat.mod_eq_of_lt (h.fits k hk)]
        exact piece_inPage flash dst len.toNat hj
      · -- the count is right, so no message was cut
        intro _ hlen
        rw [write_retlen hready h.noWrap] at hlen
        have haccepted := h.counted.resolve_right (not_not_intro hlen)
        rw [forall_programs_write hready h.noWrap]
        intro k hk
        simpa [pieceCommand, slice] using haccepted k hk
  · -- nothing is sent
    have hret : (1 : ℤ) ≠ 0 := by decide
    refine iff_of_true ?_ (.inl hready)
    rw [m25p80Write, if_pos hready]
    exact ⟨by simp [programs], fun _ => rfl, fun h => absurd h hret, fun h => absurd h hret,
      trivial, fun h => absurd h hret⟩

/-! ## A busy chip -/

def smallPages : M25p := ⟨4, 2, 0x02, by decide, by decide⟩

def slowChip (k : ℕ) : Attempt :=
  ⟨.status (if k = 1 then 0x03 else 0x00), [], 0, .done 0 19⟩

/-- Two pages are written to a slow chip: the second command is sent while the chip is busy, and the
    function returns 0 with all bytes counted. -/
theorem sent_whileBusy :
    (m25p80Write smallPages slowChip 0 (fun _ => 0) 32).ret = 0 ∧
      (m25p80Write smallPages slowChip 0 (fun _ => 0) 32).retlen = 32 ∧
      ¬ Sound smallPages 0 (fun _ => 0) 32
        (m25p80Write smallPages slowChip 0 (fun _ => 0) 32) := by
  refine ⟨by decide +kernel, by decide +kernel, fun h => ?_⟩
  exact absurd h.guarded (by decide +kernel)

end NucKernel.Mtd.SpiNor
