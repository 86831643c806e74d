import Mathlib.Algebra.Group.Int.Defs
import Mathlib.Algebra.Group.Nat.Defs
import Mathlib.Logic.Function.Iterate

/-!
# Transfers of the SPI controller (`spi-nuc970-p0.c`)

`nuc970_spi0_txrx` starts a transfer with a burst of up to four words, and the interrupt handler
stores what came back and starts the next burst. The number of words to move is taken from
`t->len`, which counts bytes. So a transfer is carried out as asked if its words are bytes, and not
otherwise (`faithful_iff_bytes`).

## Modelling

- `tx_buf` and `rx_buf` are functions from offsets to bytes, little-endian, and may be absent
- the field TXNUM of REG_CNTRL says how many of the TX registers are sent; the bits for dual and
  quad transfers, which do not change the words, are left out
- the slave answers the k-th word that is sent with its k-th word, which is then in the RX register
- `sent`, `txReads` and `rxWrites` record the words sent and the offsets of the bytes accessed
-/

namespace NucKernel.Spi

/-! ## Memory -/

def leWord (mem : ℕ → UInt8) : ℕ → ℕ → ℕ
  | _, 0 => 0
  | offset, n + 1 => (mem offset).toNat + 256 * leWord mem (offset + 1) n

def storeLe (mem : ℕ → UInt8) (offset n data : ℕ) : ℕ → UInt8 :=
  fun i => if offset ≤ i ∧ i < offset + n then UInt8.ofNat (data / 256 ^ (i - offset)) else mem i

/-! ## The driver -/

def wordSize (bwp : ℕ) : ℕ := if bwp ≤ 8 then 1 else if bwp ≤ 16 then 2 else 4

/-- A transfer: `t->len` is a number of words in bytes, and a word has one, two or four bytes. -/
structure SpiTransfer where
  txBuf : Option (ℕ → UInt8)
  rxBuf : Option (ℕ → UInt8)
  len : ℕ
  bitsPerWord : ℕ
  bits_pos : 1 ≤ bitsPerWord
  bits_le : bitsPerWord ≤ 32
  len_pos : 1 ≤ len
  len_lt : len < 2 ^ 32
  whole : wordSize bitsPerWord ∣ len

/-- `struct nuc970_spi` with the registers -/
structure Nuc970Spi where
  tx : Option (ℕ → UInt8)
  rx : Option (ℕ → UInt8)
  len : ℕ
  count : ℕ
  txnum : ℕ
  txbitlen : ℕ
  txReg : ℕ → ℕ
  cntrlTxnum : ℕ
  busy : Bool
  done : Bool
  sent : List ℕ
  txReads : List ℕ
  rxWrites : List ℕ

def hwTx (tx : Option (ℕ → UInt8)) (bwp count : ℕ) : ℕ :=
  if bwp ≤ 8 then tx.elim 0xffffffff fun txByte => leWord txByte count 1
  else if bwp ≤ 16 then tx.elim 0xffffffff fun txShort => leWord txShort (2 * count) 2
  else tx.elim 0xffffffff fun txInt => leWord txInt (4 * count) 4

def hwRx (rx : ℕ → UInt8) (bwp data count : ℕ) : ℕ → UInt8 :=
  if bwp ≤ 8 then storeLe rx count 1 data
  else if bwp ≤ 16 then storeLe rx (2 * count) 2 data
  else storeLe rx (4 * count) 4 data

def wordOffsets (bwp count : ℕ) : List ℕ := List.range' (wordSize bwp * count) (wordSize bwp)

def Nuc970Spi.setupTxnum (s : Nuc970Spi) (txnum : ℕ) : Nuc970Spi :=
  { s with cntrlTxnum := txnum, txnum := txnum }

/-- One word is loaded into TX register `i`; the bytes that were read are noted. -/
def loadWord (tx : Option (ℕ → UInt8)) (bwp i count : ℕ) (r : (ℕ → ℕ) × List ℕ) :
    (ℕ → ℕ) × List ℕ :=
  (fun j => if j = i then hwTx tx bwp count else r.1 j,
    r.2 ++ if tx.isSome then wordOffsets bwp count else [])

/-- The loop that loads the TX registers, with the number of words that are left -/
def loadTx (tx : Option (ℕ → UInt8)) (bwp : ℕ) :
    ℕ → ℕ → ℕ → (ℕ → ℕ) × List ℕ → (ℕ → ℕ) × List ℕ
  | 0, _, _, r => r
  | n + 1, i, count, r => loadTx tx bwp n (i + 1) (count + 1) (loadWord tx bwp i count r)

def Nuc970Spi.load (s : Nuc970Spi) (count : ℕ) : Nuc970Spi :=
  let r := loadTx s.tx s.txbitlen (s.txnum + 1) 0 count (s.txReg, s.txReads)
  { s with txReg := r.1, txReads := r.2 }

/-- `nuc970_spi0_gobusy`: the registers up to TXNUM are sent. -/
def Nuc970Spi.gobusy (s : Nuc970Spi) : Nuc970Spi :=
  { s with busy := true, sent := s.sent ++ (List.range (s.cntrlTxnum + 1)).map s.txReg }

/-- The loop that stores the RX registers, with the number of words that are left; the bytes that
    were written are noted. -/
def storeRx (bwp : ℕ) (rxReg : ℕ → ℕ) :
    ℕ → ℕ → ℕ → (ℕ → UInt8) × List ℕ → (ℕ → UInt8) × List ℕ
  | 0, _, _, m => m
  | n + 1, i, count, m =>
    storeRx bwp rxReg n (i + 1) (count + 1)
      (hwRx m.1 bwp (rxReg i) count, m.2 ++ wordOffsets bwp count)

def Nuc970Spi.withRx (s : Nuc970Spi) (m : (ℕ → UInt8) × List ℕ) : Nuc970Spi :=
  { s with rx := some m.1, rxWrites := m.2 }

def Nuc970Spi.store (s : Nuc970Spi) (rxReg : ℕ → ℕ) (count : ℕ) : Nuc970Spi :=
  match s.rx with
  | none => s
  | some mem => s.withRx (storeRx s.txbitlen rxReg (s.txnum + 1) 0 count (mem, s.rxWrites))

/-- `nuc970_spi0_txrx` up to `wait_for_completion`. What the registers held is of no account. -/
def nuc970Spi0Txrx (t : SpiTransfer) (txReg : ℕ → ℕ) : Nuc970Spi :=
  let hw : Nuc970Spi :=
    ⟨t.txBuf, t.rxBuf, t.len, 0, 0, t.bitsPerWord, txReg, 0, false, false, [], [], []⟩
  let hw := if hw.len ≥ 4 then hw.setupTxnum 3 else hw.setupTxnum (hw.len - 1)
  (hw.load 0).gobusy

def Nuc970Spi.rxReg (s : Nuc970Spi) (slave : ℕ → ℕ) (i : ℕ) : ℕ :=
  slave (s.sent.length - (s.cntrlTxnum + 1) + i)

def Nuc970Spi.counted (s : Nuc970Spi) : Nuc970Spi :=
  { s with count := s.count + (s.txnum + 1), busy := false }

def Nuc970Spi.proceed (s : Nuc970Spi) : Nuc970Spi :=
  let last := (s.len + 2 ^ 32 - s.count) % 2 ^ 32
  if last > 0 then
    let s := if last ≤ 4 then s.setupTxnum (last - 1) else s
    (s.load s.count).gobusy
  else { s with done := true }

def nuc970Spi0Irq (slave : ℕ → ℕ) (s : Nuc970Spi) : Nuc970Spi :=
  (s.counted.store (s.rxReg slave) s.count).proceed

def afterBurst (slave : ℕ → ℕ) (s : Nuc970Spi) : Nuc970Spi :=
  if s.busy then nuc970Spi0Irq slave s else s

/-- The end of a transfer: a byte count of interrupts is enough, as every burst moves a word. -/
def transferEnd (t : SpiTransfer) (txReg slave : ℕ → ℕ) : Nuc970Spi :=
  (afterBurst slave)^[t.len] (nuc970Spi0Txrx t txReg)

/-! ## The loops -/

def offsetsFrom (bwp count n : ℕ) : List ℕ := (List.range' count n).flatMap (wordOffsets bwp)

theorem range_add (m n : ℕ) : List.range (m + n) = List.range m ++ List.range' m n := by
  have hsplit := List.range'_append_1 (s := 0) (m := m) (n := n)
  rw [Nat.zero_add, ← List.range_eq_range', ← List.range_eq_range'] at hsplit
  exact hsplit.symm

theorem offsetsFrom_add (bwp m n : ℕ) :
    offsetsFrom bwp 0 (m + n) = offsetsFrom bwp 0 m ++ offsetsFrom bwp m n := by
  rw [offsetsFrom, ← List.range_eq_range', range_add, List.flatMap_append, List.range_eq_range']
  rfl

theorem offsetsFrom_succ (bwp count n : ℕ) :
    offsetsFrom bwp count (n + 1) = wordOffsets bwp count ++ offsetsFrom bwp (count + 1) n := by
  rw [offsetsFrom, List.range'_succ, List.flatMap_cons]
  rfl

section Loops

variable (tx : Option (ℕ → UInt8)) (bwp n i count : ℕ)

theorem loadWord_reg (r : (ℕ → ℕ) × List ℕ) (j : ℕ) :
    (loadWord tx bwp i count r).1 j = if j = i then hwTx tx bwp count else r.1 j := rfl

theorem loadTx_reg (r : (ℕ → ℕ) × List ℕ) {j : ℕ} :
    (loadTx tx bwp n i count r).1 j =
      if i ≤ j ∧ j < i + n then hwTx tx bwp (count + (j - i)) else r.1 j := by
  induction n generalizing i count r with
  | zero => rw [loadTx, if_neg (by omega)]
  | succ n ih =>
    rw [loadTx, ih, loadWord_reg]
    by_cases hj : j = i
    · -- the register loaded now
      subst hj
      rw [if_neg (by omega), if_pos rfl, if_pos ⟨Nat.le_refl _, by omega⟩, Nat.sub_self,
        Nat.add_zero]
    · by_cases hin : i ≤ j ∧ j < i + (n + 1)
      · -- one of the next registers
        rw [if_pos (by omega), if_pos hin]
        congr 1
        omega
      · rw [if_neg (by omega), if_neg hin, if_neg hj]

theorem loadTx_reads (r : (ℕ → ℕ) × List ℕ) :
    (loadTx tx bwp n i count r).2 = r.2 ++ if tx.isSome then offsetsFrom bwp count n else [] := by
  induction n generalizing i count r with
  | zero => simp [loadTx, offsetsFrom]
  | succ n ih =>
    rw [loadTx, ih, loadWord, offsetsFrom_succ]
    cases tx <;> simp

end Loops

def received (bwp : ℕ) (slave : ℕ → ℕ) (mem : ℕ → UInt8) : ℕ → ℕ → UInt8
  | 0 => mem
  | n + 1 => hwRx (received bwp slave mem n) bwp (slave n) n

theorem storeRx_eq (bwp : ℕ) (slave rxReg : ℕ → ℕ) (mem : ℕ → UInt8) (n i count : ℕ)
    (writes : List ℕ) (hreg : ∀ j < n, rxReg (i + j) = slave (count + j)) :
    storeRx bwp rxReg n i count (received bwp slave mem count, writes) =
      (received bwp slave mem (count + n), writes ++ offsetsFrom bwp count n) := by
  induction n generalizing i count writes with
  | zero => simp [storeRx, offsetsFrom]
  | succ n ih =>
    -- the first answer is in the first register
    have hfirst := hreg 0 (Nat.succ_pos n)
    rw [Nat.add_zero, Nat.add_zero] at hfirst
    rw [storeRx, hfirst]
    have hnext := ih (i + 1) (count + 1) (writes ++ wordOffsets bwp count) fun j hj => by
      rw [Nat.add_right_comm, Nat.add_right_comm count]
      exact hreg (j + 1) (by omega)
    rw [received] at hnext
    rw [hnext, offsetsFrom_succ, List.append_assoc, Nat.add_right_comm, Nat.add_assoc]

/-! ## One round -/

def SpiTransfer.word (t : SpiTransfer) (i : ℕ) : ℕ := hwTx t.txBuf t.bitsPerWord i

structure Moved (t : SpiTransfer) (slave : ℕ → ℕ) (n : ℕ) (s : Nuc970Spi) : Prop where
  tx : s.tx = t.txBuf
  rx : s.rx = t.rxBuf.map fun mem => received t.bitsPerWord slave mem n
  len : s.len = t.len
  count : s.count = n
  txbitlen : s.txbitlen = t.bitsPerWord
  sent : s.sent = (List.range n).map t.word
  txReads : s.txReads = if t.txBuf.isSome then offsetsFrom t.bitsPerWord 0 n else []
  rxWrites : s.rxWrites = if t.rxBuf.isSome then offsetsFrom t.bitsPerWord 0 n else []

structure Burst (t : SpiTransfer) (slave : ℕ → ℕ) (n txnum : ℕ) (s : Nuc970Spi) : Prop where
  tx : s.tx = t.txBuf
  rx : s.rx = t.rxBuf.map fun mem => received t.bitsPerWord slave mem n
  len : s.len = t.len
  count : s.count = n
  txbitlen : s.txbitlen = t.bitsPerWord
  txnum_eq : s.txnum = txnum
  cntrl : s.cntrlTxnum = txnum
  busy : s.busy = true
  sent : s.sent = (List.range (n + (txnum + 1))).map t.word
  txReads : s.txReads = if t.txBuf.isSome then offsetsFrom t.bitsPerWord 0 (n + (txnum + 1)) else []
  rxWrites : s.rxWrites = if t.rxBuf.isSome then offsetsFrom t.bitsPerWord 0 n else []

section Round

variable {t : SpiTransfer} {slave : ℕ → ℕ} {n txnum : ℕ} {s : Nuc970Spi}

theorem Moved.burst (h : Moved t slave n s) (hnum : s.txnum = txnum)
    (hcntrl : s.cntrlTxnum = txnum) : Burst t slave n txnum (s.load s.count).gobusy where
  tx := h.tx
  rx := h.rx
  len := h.len
  count := h.count
  txbitlen := h.txbitlen
  txnum_eq := hnum
  cntrl := hcntrl
  busy := rfl
  sent := by
    -- the registers that are sent hold the next words
    have hregs : (List.range (txnum + 1)).map (s.load s.count).txReg =
        (List.range' n (txnum + 1)).map t.word := by
      rw [List.range'_eq_map_range, List.map_map]
      refine List.map_congr_left fun i hi => ?_
      have hi := List.mem_range.mp hi
      have hreg : (s.load s.count).txReg i =
          (loadTx s.tx s.txbitlen (s.txnum + 1) 0 s.count (s.txReg, s.txReads)).1 i := rfl
      rw [hreg, hnum, loadTx_reg, if_pos (by omega), h.tx, h.txbitlen, h.count]
      rfl
    have hload : ((s.load s.count).gobusy).sent =
        s.sent ++ (List.range (s.cntrlTxnum + 1)).map (s.load s.count).txReg := rfl
    rw [hload, hcntrl, hregs, h.sent, ← List.map_append, ← range_add]
  txReads := by
    -- the bytes of these words have been read
    have hload : ((s.load s.count).gobusy).txReads =
        (loadTx s.tx s.txbitlen (s.txnum + 1) 0 s.count (s.txReg, s.txReads)).2 := rfl
    rw [hload, loadTx_reads, hnum, h.tx, h.txbitlen, h.count, h.txReads,
      offsetsFrom_add _ n (txnum + 1)]
    cases t.txBuf <;> rfl
  rxWrites := h.rxWrites

theorem Burst.stored (h : Burst t slave n txnum s) :
    Moved t slave (n + (txnum + 1)) (s.counted.store (s.rxReg slave) s.count) := by
  -- the last words sent are those of the burst
  have hreg : ∀ j < txnum + 1, s.rxReg slave (0 + j) = slave (n + j) := by
    intro j _
    rw [Nuc970Spi.rxReg, h.sent, List.length_map, List.length_range, h.cntrl, Nat.add_sub_cancel,
      Nat.zero_add]
  have hcounted : s.counted.count = n + (txnum + 1) := by
    rw [Nuc970Spi.counted, h.count, h.txnum_eq]
  cases hrx : t.rxBuf with
  | none =>
    -- without a buffer nothing is stored
    have hno : s.counted.rx = none := by rw [Nuc970Spi.counted, h.rx, hrx]; rfl
    have hstore : s.counted.store (s.rxReg slave) s.count = s.counted := by
      rw [Nuc970Spi.store, hno]
    rw [hstore]
    exact ⟨h.tx, by rw [hno, hrx]; rfl, h.len, hcounted, h.txbitlen, h.sent, h.txReads,
      h.rxWrites.trans (by rw [hrx]; rfl)⟩
  | some mem =>
    have hsome : s.counted.rx = some (received t.bitsPerWord slave mem n) := by
      rw [Nuc970Spi.counted, h.rx, hrx]
      rfl
    -- the answers go behind those stored before
    have hloop : storeRx s.txbitlen (s.rxReg slave) (s.txnum + 1) 0 s.count
        (received t.bitsPerWord slave mem n, s.rxWrites) =
          (received t.bitsPerWord slave mem (n + (txnum + 1)),
            s.rxWrites ++ offsetsFrom t.bitsPerWord n (txnum + 1)) := by
      rw [h.txbitlen, h.txnum_eq, h.count]
      exact storeRx_eq t.bitsPerWord slave _ mem (txnum + 1) 0 n s.rxWrites hreg
    have hstore : s.counted.store (s.rxReg slave) s.count =
        s.counted.withRx (received t.bitsPerWord slave mem (n + (txnum + 1)),
          s.rxWrites ++ offsetsFrom t.bitsPerWord n (txnum + 1)) := by
      rw [Nuc970Spi.store, hsome, ← hloop]
      rfl
    rw [hstore]
    refine ⟨h.tx, by rw [hrx]; rfl, h.len, hcounted, h.txbitlen, h.sent, h.txReads, ?_⟩
    rw [offsetsFrom_add, hrx, Nuc970Spi.withRx, h.rxWrites, hrx]
    rfl

theorem store_frame (s : Nuc970Spi) (rxReg : ℕ → ℕ) (count : ℕ) :
    (s.store rxReg count).txnum = s.txnum ∧ (s.store rxReg count).cntrlTxnum = s.cntrlTxnum ∧
      (s.store rxReg count).busy = s.busy := by
  rw [Nuc970Spi.store]
  split <;> exact ⟨rfl, rfl, rfl⟩

/-- All words of the transfer, taken by its length, have been moved. -/
structure Finished (t : SpiTransfer) (slave : ℕ → ℕ) (s : Nuc970Spi) : Prop where
  moved : Moved t slave t.len s
  done : s.done = true
  busy : s.busy = false

def Fits (t : SpiTransfer) (n txnum : ℕ) : Prop :=
  txnum ≤ 3 ∧ n + (txnum + 1) ≤ t.len ∧ (txnum = 3 ∨ n + (txnum + 1) = t.len)

theorem Moved.proceed (h : Moved t slave n s) (hlt : n < t.len) (hnum : s.txnum = 3)
    (hcntrl : s.cntrlTxnum = 3) :
    ∃ txnum, Fits t n txnum ∧ Burst t slave n txnum s.proceed := by
  -- the difference does not wrap around
  have hlast : (s.len + 2 ^ 32 - s.count) % 2 ^ 32 = t.len - n := by
    rw [h.len, h.count]
    have := t.len_lt
    omega
  rw [Nuc970Spi.proceed, hlast]
  simp only [if_pos (by omega : t.len - n > 0)]
  by_cases hsmall : t.len - n ≤ 4
  · rw [if_pos hsmall]
    -- the last burst
    have hset : Moved t slave n (s.setupTxnum (t.len - n - 1)) :=
      ⟨h.tx, h.rx, h.len, h.count, h.txbitlen, h.sent, h.txReads, h.rxWrites⟩
    exact ⟨t.len - n - 1, ⟨by omega, by omega, Or.inr (by omega)⟩, hset.burst rfl rfl⟩
  · -- four more words
    rw [if_neg hsmall]
    exact ⟨3, ⟨Nat.le_refl 3, by omega, Or.inl rfl⟩, h.burst hnum hcntrl⟩

theorem Moved.finish (h : Moved t slave t.len s) (hbusy : s.busy = false) :
    Finished t slave s.proceed := by
  have hlast : (s.len + 2 ^ 32 - s.count) % 2 ^ 32 = 0 := by
    rw [h.len, h.count]
    omega
  rw [Nuc970Spi.proceed, hlast]
  exact ⟨⟨h.tx, h.rx, h.len, h.count, h.txbitlen, h.sent, h.txReads, h.rxWrites⟩, rfl, hbusy⟩

theorem Burst.finished (h : Burst t slave n txnum s) (hfits : Fits t n txnum) {k : ℕ}
    (hk : t.len - n ≤ k) : Finished t slave ((afterBurst slave)^[k] s) := by
  -- each interrupt counts at least one word
  induction k generalizing n txnum s with
  | zero =>
    have hin := hfits.2.1
    omega
  | succ k ih =>
    obtain ⟨hle, hin, hfull⟩ := hfits
    have hstep : afterBurst slave s = (s.counted.store (s.rxReg slave) s.count).proceed := by
      rw [afterBurst, h.busy, if_pos rfl]
      rfl
    obtain ⟨hnum, hcntrl, hbusy⟩ := store_frame s.counted (s.rxReg slave) s.count
    rw [Function.iterate_succ_apply, hstep]
    by_cases hend : n + (txnum + 1) = t.len
    · -- this was the last burst
      have hmoved := h.stored
      rw [hend] at hmoved
      have hfin := hmoved.finish hbusy
      have hstays : afterBurst slave _ = _ := if_neg (by rw [hfin.busy]; decide)
      rw [Function.iterate_fixed hstays]
      exact hfin
    · -- it was a full one, and the next follows
      obtain rfl : txnum = 3 := hfull.resolve_right hend
      obtain ⟨txnum', hfits', hburst⟩ := h.stored.proceed (by omega)
        (hnum.trans h.txnum_eq) (hcntrl.trans h.cntrl)
      exact ih hburst hfits' (by omega)

end Round

/-! ## Whole transfers -/

section Whole

variable (t : SpiTransfer) (txReg slave : ℕ → ℕ)

theorem start_burst : ∃ txnum, Fits t 0 txnum ∧ Burst t slave 0 txnum (nuc970Spi0Txrx t txReg) := by
  let hw : Nuc970Spi :=
    ⟨t.txBuf, t.rxBuf, t.len, 0, 0, t.bitsPerWord, txReg, 0, false, false, [], [], []⟩
  -- nothing has been moved
  have hmoved : ∀ k, Moved t slave 0 (hw.setupTxnum k) := by
    intro k
    have hnone : ∀ b : Bool, (if b then offsetsFrom t.bitsPerWord 0 0 else []) = [] := by
      intro b
      cases b <;> rfl
    have hrx : t.rxBuf = t.rxBuf.map fun mem => received t.bitsPerWord slave mem 0 := by
      cases t.rxBuf <;> rfl
    exact ⟨rfl, hrx, rfl, rfl, rfl, rfl, (hnone _).symm, (hnone _).symm⟩
  have hlen := t.len_pos
  by_cases h4 : t.len ≥ 4
  · -- the first burst has four words
    have hstart : nuc970Spi0Txrx t txReg = ((hw.setupTxnum 3).load 0).gobusy := by
      simp only [nuc970Spi0Txrx, if_pos h4]
      rfl
    rw [hstart]
    exact ⟨3, ⟨Nat.le_refl 3, by omega, Or.inl rfl⟩, (hmoved 3).burst rfl rfl⟩
  · have hstart : nuc970Spi0Txrx t txReg = ((hw.setupTxnum (t.len - 1)).load 0).gobusy := by
      simp only [nuc970Spi0Txrx, if_neg h4]
      rfl
    rw [hstart]
    exact ⟨t.len - 1, ⟨by omega, by omega, Or.inr (by omega)⟩, (hmoved _).burst rfl rfl⟩

theorem transferEnd_finished : Finished t slave (transferEnd t txReg slave) := by
  obtain ⟨txnum, hfits, hburst⟩ := start_burst t txReg slave
  exact hburst.finished hfits (Nat.le_refl _)

end Whole

def SpiTransfer.txWords (t : SpiTransfer) : List ℕ :=
  let size := wordSize t.bitsPerWord
  (List.range (t.len / size)).map fun i =>
    t.txBuf.elim 0xffffffff fun mem => leWord mem (size * i) size

/-- The transfer has been carried out as asked. -/
structure Faithful (t : SpiTransfer) (slave : ℕ → ℕ) (s : Nuc970Spi) : Prop where
  /-- it is completed, and the number of bytes is returned -/
  completed : s.done = true ∧ s.count = t.len
  /-- the words of `tx_buf` have been sent, in order and each once -/
  sent : s.sent = t.txWords
  /-- the words of the slave are at the same positions of `rx_buf` -/
  stored : ∀ mem, s.rx = some mem → ∀ i < t.len / wordSize t.bitsPerWord,
    leWord mem (wordSize t.bitsPerWord * i) (wordSize t.bitsPerWord) =
      slave i % 256 ^ wordSize t.bitsPerWord
  /-- nothing outside of the buffers has been accessed -/
  txReads : ∀ offset ∈ s.txReads, offset < t.len
  rxWrites : ∀ offset ∈ s.rxWrites, offset < t.len

section Bytes

variable {bwp : ℕ} (h8 : bwp ≤ 8)
include h8

theorem wordSize_byte : wordSize bwp = 1 := if_pos h8

theorem received_byte (slave : ℕ → ℕ) (mem : ℕ → UInt8) (n i : ℕ) :
    received bwp slave mem n i = if i < n then UInt8.ofNat (slave i) else mem i := by
  induction n with
  | zero => rw [received, if_neg (by omega)]
  | succ n ih =>
    rw [received, hwRx, if_pos h8, storeLe]
    by_cases hi : i = n
    · -- the byte stored last
      rw [if_pos (by omega), if_pos (by omega), hi, Nat.sub_self, Nat.pow_zero, Nat.div_one]
    · rw [if_neg (by omega), ih]
      by_cases hlt : i < n
      · rw [if_pos hlt, if_pos (by omega)]
      · rw [if_neg hlt, if_neg (by omega)]

theorem offsetsFrom_byte (n : ℕ) : ∀ offset ∈ offsetsFrom bwp 0 n, offset < n := by
  intro offset hmem
  obtain ⟨i, hi, hoff⟩ := List.mem_flatMap.mp hmem
  rw [wordOffsets, wordSize_byte h8, List.mem_range'_1] at hoff
  have hi := List.mem_range'_1.mp hi
  omega

end Bytes

/-- A transfer is carried out as asked if and only if its words have at most eight bits. -/
theorem faithful_iff_bytes (t : SpiTransfer) (txReg slave : ℕ → ℕ) :
    Faithful t slave (transferEnd t txReg slave) ↔ t.bitsPerWord ≤ 8 := by
  obtain ⟨hmoved, hdone, -⟩ := transferEnd_finished t txReg slave
  constructor
  · intro h
    by_contra hbig
    -- as many words as there are bytes have been sent
    have hlen := congrArg List.length (hmoved.sent.symm.trans h.sent)
    rw [List.length_map, List.length_range, SpiTransfer.txWords, List.length_map,
      List.length_range] at hlen
    -- a word has at least two bytes
    have hsize : 2 ≤ wordSize t.bitsPerWord := by
      rw [wordSize, if_neg hbig]
      split <;> decide
    have hlt := Nat.div_lt_self t.len_pos hsize
    omega
  · intro h8
    have hsize := wordSize_byte h8
    -- the words sent, the bytes received, and the two ranges of bytes
    refine ⟨⟨hdone, hmoved.count⟩, ?_, ?_, ?_, ?_⟩
    · rw [hmoved.sent, SpiTransfer.txWords, hsize, Nat.div_one]
      refine List.map_congr_left fun i _ => ?_
      rw [SpiTransfer.word, hwTx, if_pos h8, Nat.one_mul]
    · intro mem hmem i hi
      rw [hsize, Nat.div_one] at hi
      rw [hmoved.rx] at hmem
      obtain ⟨mem₀, -, rfl⟩ := Option.map_eq_some_iff.mp hmem
      rw [hsize, Nat.one_mul, leWord, leWord, received_byte h8, if_pos hi, UInt8.toNat_ofNat']
      rfl
    · intro offset hmem
      rw [hmoved.txReads] at hmem
      split at hmem
      · exact offsetsFrom_byte h8 _ _ hmem
      · cases hmem
    · intro offset hmem
      rw [hmoved.rxWrites] at hmem
      split at hmem
      · exact offsetsFrom_byte h8 _ _ hmem
      · cases hmem

def oneShort : SpiTransfer where
  txBuf := some fun i => [0x34, 0x12].getD i 0xEE
  rxBuf := some fun _ => 0
  len := 2
  bitsPerWord := 16
  bits_pos := by decide
  bits_le := by decide
  len_pos := by decide
  len_lt := by decide
  whole := by decide

/-- For one word of two bytes, two words are sent, and the bytes after the buffers are read and
    written. -/
theorem oneShort_overruns :
    let s := transferEnd oneShort (fun _ => 0) fun _ => 0xBEEF
    oneShort.txWords = [0x1234] ∧ s.sent = [0x1234, 0xEEEE] ∧ s.txReads = [0, 1, 2, 3] ∧
      s.rxWrites = [0, 1, 2, 3] ∧ ¬ Faithful oneShort (fun _ => 0xBEEF) s := by
  intro s
  have hreads : s.txReads = [0, 1, 2, 3] := by decide
  refine ⟨by decide, by decide, hreads, by decide, fun h => ?_⟩
  have hlt := h.txReads 3 (by rw [hreads]; decide)
  exact absurd hlt (by decide)

end NucKernel.Spi
