import Mathlib.Data.Int.Notation
import Mathlib.Data.List.Basic

/-!
# AES requests of the NUC970 crypto engine (`nuc970-crypto.c`)

`nuc970_do_aes_crypt` copies every source segment to a DMA buffer, starts the engine on it, waits
for the end and copies the result to the destination.

`out_sg` is never advanced, so that the result of every segment goes to the same place.

## Modelling

- The engine is any `Engine`: what it computes depends on its own state, which holds the key and the
  chaining value, on `CRPT_AES_CTL` and on the bytes read. It writes as many bytes as it reads.
- `AES_START` is read as set for a number of reads that the engine chooses; a driver that stops
  waiting finds arbitrary bytes in `aes_outbuf`.
- `sg_copy_to_buffer` and `sg_copy_from_buffer` with one segment copy as many bytes as the segment
  has, at most those asked for. The first is never short, as `dma_len` is at most that length.
- Lengths are below `2 ^ 31`; segments are not empty, and those of the source fit into the DMA
  buffer.
- `IS_ERR(clk_get(NULL, "mtpc"))` is a parameter; MTP_Enable and the interrupt status are left out.
-/

namespace NucKernel.Crypto.Aes

/-! ## Engine and requests -/

def aesStart : BitVec 32 := 0x00000001#32
def aesExternalKey : BitVec 32 := 0x00000010#32
def aesDmaCscad : BitVec 32 := 0x00000040#32
def aesDmaEn : BitVec 32 := 0x00000080#32
def aesEncrypt : BitVec 32 := 0x00010000#32
def aesOutSwap : BitVec 32 := 0x00400000#32
def aesInSwap : BitVec 32 := 0x00800000#32

/-- One DMA operation: the state after it, the bytes in `aes_outbuf` before and after its end, and
    for how many reads `AES_START` is set -/
structure Operation (σ : Type) where
  state : σ
  early : List UInt8
  out : List UInt8
  busy : ℕ

structure Engine (σ : Type) where
  /-- The write of the four `iv` registers -/
  setIv : (Fin 4 → BitVec 32) → σ → σ
  /-- The start with the value of `CRPT_AES_CTL` and the bytes of `aes_inbuf` -/
  start : BitVec 32 → σ → List UInt8 → Operation σ
  length_out : ∀ ctl s input, (start ctl s input).out.length = input.length
  length_early : ∀ ctl s input, (start ctl s input).early.length = input.length

/-- `struct nuc970_ctx` -/
structure Ctx where
  channel : BitVec 32
  mode : BitVec 32
  keysize : BitVec 32
  useMtpKey : Bool
  isFirstBlock : Bool

/-- An `ablkcipher_request`, with the bytes of the segments of `src` and `dst` -/
structure Request where
  src : List (List UInt8)
  dst : List (List UInt8)
  nbytes : ℕ
  info : Fin 4 → BitVec 32

/-- A segmentation of at least `nbytes` bytes into whole blocks that fit into the DMA buffer -/
def Segmented (segments : List (List UInt8)) (nbytes : ℕ) : Prop :=
  nbytes ≤ segments.flatten.length ∧
    ∀ segment ∈ segments, segment ≠ [] ∧ 16 ∣ segment.length ∧ segment.length ≤ 4096

instance (segments : List (List UInt8)) (nbytes : ℕ) : Decidable (Segmented segments nbytes) :=
  inferInstanceAs (Decidable (_ ∧ _))

/-! ## The driver -/

variable {σ : Type} (engine : Engine σ)

/-- `CRPT_AES_CTL` before the loop -/
def aesCtl (ctx : Ctx) (encrypt : Bool) : BitVec 32 :=
  ctx.keysize ||| ctx.mode ||| aesInSwap ||| aesOutSwap ||| aesDmaEn ||| (ctx.channel <<< 24) |||
    (if ctx.useMtpKey then aesExternalKey else 0) |||
    (if ctx.isFirstBlock then 0 else aesDmaCscad) |||
    (if encrypt then aesEncrypt else 0)

/-- The loop that waits: `timeout` after it and whether the engine has ended, when `AES_START` is
    set for `busy` more reads -/
def poll : ℕ → ℤ → ℤ × Bool
  | 0, timeout => (timeout, true)
  | busy + 1, timeout => if timeout = 0 then (-1, false) else poll busy (timeout - 1)

/-- `sg_copy_from_buffer(out_sg, 1, ..)`: the segments and the number of bytes copied -/
def copyFromBuffer (buffer : List UInt8) : List (List UInt8) → List (List UInt8) × ℕ
  | [] => ([], 0)
  | segment :: rest =>
    ((buffer.take segment.length ++ segment.drop buffer.length) :: rest,
      min segment.length buffer.length)

structure Loop (σ : Type) where
  ret : ℤ
  state : σ
  dst : List (List UInt8)

/-- The loop, with `in_sg`, `req_len` and `timeout` as arguments -/
def cryptLoop (ctl : BitVec 32) :
    List (List UInt8) → ℕ → ℤ → σ → List (List UInt8) → Loop σ
  | [], _, _, state, dst => ⟨0, state, dst⟩
  | segment :: inSg, reqLen, timeout, state, dst =>
    if reqLen = 0 then ⟨0, state, dst⟩
    else
      let dmaLen := min segment.length reqLen
      let op := engine.start (ctl ||| aesStart) state (segment.take dmaLen)
      let (timeout, ended) := poll op.busy timeout
      if timeout = 0 then ⟨1, op.state, dst⟩
      else
        -- a wait that was given up leaves -1 in `timeout`, which is not noticed
        let outbuf := if ended then op.out else op.early
        -- `out_sg` stays the first segment of `dst`
        let (dst, count) := copyFromBuffer outbuf dst
        if count ≠ dmaLen then ⟨0, op.state, dst⟩
        else cryptLoop ctl inSg (reqLen - count) timeout op.state dst

structure Outcome (σ : Type) extends Loop σ where
  /-- `aes_lock` is held -/
  locked : Bool
  isFirstBlock : Bool

/-- `nuc970_do_aes_crypt`, where `clkError` is the result of `IS_ERR(clk_get(NULL, "mtpc"))` -/
def doAesCrypt (ctx : Ctx) (clkError : Bool) (state : σ) (areq : Request) (encrypt : Bool) :
    Outcome σ :=
  let state := engine.setIv areq.info state
  if ctx.useMtpKey && clkError then
    -- the return without `spin_unlock`
    ⟨⟨-1, state, areq.dst⟩, true, ctx.isFirstBlock⟩
  else
    ⟨cryptLoop engine (aesCtl ctx encrypt) areq.src areq.nbytes 100000 state areq.dst, false, false⟩

/-! ## What one request does -/

theorem poll_of_le {busy : ℕ} {timeout : ℤ} (h : busy ≤ timeout) :
    poll busy timeout = (timeout - busy, true) := by
  induction busy generalizing timeout with
  | zero => simp [poll]
  | succ busy ih =>
    rw [poll, if_neg (by omega), ih (by omega)]
    congr 1
    omega

theorem poll_of_gt {busy : ℕ} {timeout : ℤ} (hpos : 0 ≤ timeout) (h : timeout < busy) :
    poll busy timeout = (-1, false) := by
  induction busy generalizing timeout with
  | zero => omega
  | succ busy ih =>
    rw [poll]
    split_ifs with hzero
    · rfl
    · exact ih (by omega) (by omega)

theorem cryptLoop_zero (ctl : BitVec 32) (inSg : List (List UInt8)) (timeout : ℤ) (state : σ)
    (dst : List (List UInt8)) :
    cryptLoop engine ctl inSg 0 timeout state dst = ⟨0, state, dst⟩ := by
  cases inSg with
  | nil => rfl
  | cons segment inSg => rw [cryptLoop, if_pos rfl]

theorem cryptLoop_one (ctl : BitVec 32) {segment first : List UInt8} {inSg rest : List (List UInt8)}
    {reqLen : ℕ} {timeout left : ℤ} {ended : Bool} {state : σ} (hpos : reqLen ≠ 0)
    (hsrc : reqLen ≤ segment.length) (hdst : reqLen ≤ first.length)
    (hpoll : poll (engine.start (ctl ||| aesStart) state (segment.take reqLen)).busy timeout =
      (left, ended)) (hleft : left ≠ 0) :
    let op := engine.start (ctl ||| aesStart) state (segment.take reqLen)
    cryptLoop engine ctl (segment :: inSg) reqLen timeout state (first :: rest) =
      ⟨0, op.state, ((if ended then op.out else op.early) ++ first.drop reqLen) :: rest⟩ := by
  intro op
  have hlength : (if ended then op.out else op.early).length = reqLen := by
    cases ended <;>
      simp [op, engine.length_out, engine.length_early, List.length_take, Nat.min_eq_left hsrc]
  -- all of the result fits into the first segment of the destination
  have hcopy : copyFromBuffer (if ended then op.out else op.early) (first :: rest) =
      (((if ended then op.out else op.early) ++ first.drop reqLen) :: rest, reqLen) := by
    rw [copyFromBuffer, List.take_of_length_le (by omega), hlength, Nat.min_eq_right hdst]
  rw [cryptLoop, if_neg hpos]
  simp only [Nat.min_eq_right hsrc, hpoll]
  rw [if_neg hleft, hcopy]
  simp only [ne_eq, not_true_eq_false, if_false, Nat.sub_self]
  exact cryptLoop_zero engine ctl inSg _ _ _

theorem cryptLoop_timeout (ctl : BitVec 32) {segment : List UInt8} {inSg dst : List (List UInt8)}
    {reqLen : ℕ} {timeout : ℤ} {state : σ} (hpos : reqLen ≠ 0) (hsrc : reqLen ≤ segment.length)
    (hpoll : (poll (engine.start (ctl ||| aesStart) state (segment.take reqLen)).busy timeout).1 =
      0) :
    cryptLoop engine ctl (segment :: inSg) reqLen timeout state dst =
      ⟨1, (engine.start (ctl ||| aesStart) state (segment.take reqLen)).state, dst⟩ := by
  rw [cryptLoop, if_neg hpos]
  simp only [Nat.min_eq_right hsrc]
  rw [if_pos hpoll]

theorem cryptLoop_prompt (ctl : BitVec 32) {segment : List UInt8} {inSg dst : List (List UInt8)}
    {reqLen : ℕ} {timeout : ℤ} {state : σ}
    (hbusy : ∀ s input, (engine.start (ctl ||| aesStart) s input).busy = 0) (htime : timeout ≠ 0)
    (hpos : reqLen ≠ 0) :
    let op := engine.start (ctl ||| aesStart) state (segment.take reqLen)
    let copied := copyFromBuffer op.out dst
    let next := cryptLoop engine ctl inSg (reqLen - copied.2) timeout op.state copied.1
    cryptLoop engine ctl (segment :: inSg) reqLen timeout state dst = ⟨0, op.state, copied.1⟩ ∨
      cryptLoop engine ctl (segment :: inSg) reqLen timeout state dst = next ∧
        copied.2 = min segment.length reqLen := by
  have htake : segment.take (min segment.length reqLen) = segment.take reqLen := by
    rw [Nat.min_comm]
    exact List.take_eq_take_min.symm
  intro op copied next
  -- the engine has ended at the first read, and `timeout` stays as it is
  have hloop : cryptLoop engine ctl (segment :: inSg) reqLen timeout state dst =
      if copied.2 ≠ min segment.length reqLen then ⟨0, op.state, copied.1⟩ else next := by
    rw [cryptLoop, if_neg hpos]
    simp only [htake, hbusy, poll, if_true]
    rw [if_neg htime]
  rw [hloop]
  split_ifs with hcount
  · exact .inl rfl
  · exact .inr ⟨rfl, not_not.mp hcount⟩

theorem cryptLoop_keeps (ctl : BitVec 32) (P : List (List UInt8) → Prop)
    {inSg dst : List (List UInt8)} {reqLen : ℕ} {timeout : ℤ} {state : σ}
    (hbusy : ∀ s input, (engine.start (ctl ||| aesStart) s input).busy = 0) (htime : timeout ≠ 0)
    (hcopy : ∀ s input dst, input.length ≤ reqLen → P dst →
      P (copyFromBuffer (engine.start (ctl ||| aesStart) s input).out dst).1)
    (hdst : P dst) :
    (cryptLoop engine ctl inSg reqLen timeout state dst).ret = 0 ∧
      P (cryptLoop engine ctl inSg reqLen timeout state dst).dst := by
  induction inSg generalizing reqLen state dst with
  | nil => exact ⟨rfl, hdst⟩
  | cons segment inSg ih =>
    by_cases hpos : reqLen = 0
    · rw [hpos, cryptLoop_zero]
      exact ⟨rfl, hdst⟩
    · have hstep := hcopy state (segment.take reqLen) dst (List.length_take_le _ _) hdst
      obtain hend | ⟨hnext, -⟩ := cryptLoop_prompt engine ctl hbusy htime hpos
      · rw [hend]
        exact ⟨rfl, hstep⟩
      · rw [hnext]
        -- later operations take no more bytes than are left
        exact ih (fun s input dst hle =>
          hcopy s input dst (Nat.le_trans hle (Nat.sub_le _ _))) hstep

variable (ctx : Ctx) (clkError : Bool) (state : σ) (areq : Request) (encrypt : Bool)

/-- The lock is kept exactly when the clock of the key memory cannot be had. -/
theorem doAesCrypt_locked :
    (doAesCrypt engine ctx clkError state areq encrypt).locked = (ctx.useMtpKey && clkError) := by
  rw [doAesCrypt]
  split_ifs with h
  · exact h.symm
  · exact (Bool.eq_false_iff.mpr h).symm

/-- The operation of the engine on all of the source -/
def wholeOperation : Operation σ :=
  engine.start (aesCtl ctx encrypt ||| aesStart) (engine.setIv areq.info state)
    (areq.src.flatten.take areq.nbytes)

/-- What a call should do -/
structure CryptOk : Prop where
  released : (doAesCrypt engine ctx clkError state areq encrypt).locked = false
  output : (doAesCrypt engine ctx clkError state areq encrypt).ret = 0 →
    (doAesCrypt engine ctx clkError state areq encrypt).dst.flatten.take areq.nbytes =
      (wholeOperation engine ctx state areq encrypt).out
  untouched : (doAesCrypt engine ctx clkError state areq encrypt).dst.flatten.drop areq.nbytes =
    areq.dst.flatten.drop areq.nbytes

variable {ctx clkError state areq encrypt}

theorem doAesCrypt_of_clk (hclk : (ctx.useMtpKey && clkError) = false) :
    doAesCrypt engine ctx clkError state areq encrypt =
      ⟨cryptLoop engine (aesCtl ctx encrypt) areq.src areq.nbytes 100000
        (engine.setIv areq.info state) areq.dst, false, false⟩ := by
  rw [doAesCrypt, hclk]
  rfl

theorem length_wholeOperation (h : areq.nbytes ≤ areq.src.flatten.length) :
    (wholeOperation engine ctx state areq encrypt).out.length = areq.nbytes := by
  rw [wholeOperation, engine.length_out, List.length_take, Nat.min_eq_left h]

theorem cryptOk_zero (hclk : (ctx.useMtpKey && clkError) = false) (hzero : areq.nbytes = 0) :
    (doAesCrypt engine ctx clkError state areq encrypt).ret = 0 ∧
      CryptOk engine ctx clkError state areq encrypt := by
  have hnil : (wholeOperation engine ctx state areq encrypt).out = [] :=
    List.eq_nil_of_length_eq_zero ((length_wholeOperation engine (by omega)).trans hzero)
  have hcall : doAesCrypt engine ctx clkError state areq encrypt = _ :=
    doAesCrypt_of_clk engine hclk
  rw [hzero, cryptLoop_zero] at hcall
  refine ⟨by rw [hcall], ⟨by rw [doAesCrypt_locked, hclk], fun _ => ?_, by rw [hcall]⟩⟩
  rw [hnil, hzero, List.take_zero]

theorem doAesCrypt_ok {segment first : List UInt8} {inSg rest : List (List UInt8)}
    (hsrc : areq.src = segment :: inSg) (hdst : areq.dst = first :: rest)
    (hin : areq.nbytes ≤ segment.length) (hout : areq.nbytes ≤ first.length)
    (hclk : (ctx.useMtpKey && clkError) = false)
    (hbusy : (wholeOperation engine ctx state areq encrypt).busy ≤ 100000) :
    ((wholeOperation engine ctx state areq encrypt).busy < 100000 →
      (doAesCrypt engine ctx clkError state areq encrypt).ret = 0) ∧
      CryptOk engine ctx clkError state areq encrypt := by
  by_cases hzero : areq.nbytes = 0
  · exact (cryptOk_zero engine hclk hzero).imp (fun hret _ => hret) id
  -- all of the source that counts is in its first segment
  have htake : areq.src.flatten.take areq.nbytes = segment.take areq.nbytes := by
    rw [hsrc, List.flatten_cons, List.take_append_of_le_length hin]
  have hwhole : wholeOperation engine ctx state areq encrypt =
      engine.start (aesCtl ctx encrypt ||| aesStart) (engine.setIv areq.info state)
        (segment.take areq.nbytes) := by
    rw [wholeOperation, htake]
  have hlength : (wholeOperation engine ctx state areq encrypt).out.length = areq.nbytes := by
    rw [hwhole, engine.length_out, List.length_take, Nat.min_eq_left hin]
  have hpoll : poll _ 100000 = _ := poll_of_le (Int.ofNat_le.mpr hbusy)
  have hcall : doAesCrypt engine ctx clkError state areq encrypt = _ :=
    doAesCrypt_of_clk engine hclk
  have hreleased : (doAesCrypt engine ctx clkError state areq encrypt).locked = false := by
    rw [doAesCrypt_locked, hclk]
  by_cases hlast : (wholeOperation engine ctx state areq encrypt).busy = 100000
  · -- the end with the last read is taken for a failure, and nothing has been copied
    rw [hsrc, cryptLoop_timeout engine _ hzero hin (by rw [← hwhole, hpoll, hlast]; rfl)] at hcall
    refine ⟨fun hlt => absurd hlast (Nat.ne_of_lt hlt), ⟨hreleased, fun hret => ?_, by rw [hcall]⟩⟩
    rw [hcall] at hret
    exact absurd hret (by decide : (1 : ℤ) ≠ 0)
  · rw [hsrc, hdst, cryptLoop_one engine _ hzero hin hout (by rw [← hwhole, hpoll]) (by omega),
      ← hwhole, if_pos rfl] at hcall
    refine ⟨fun _ => by rw [hcall], ⟨hreleased, fun _ => ?_, ?_⟩⟩
    · rw [hcall, List.flatten_cons, List.append_assoc, List.take_left' hlength]
    · rw [hcall, List.flatten_cons, List.append_assoc, List.drop_left' hlength, hdst,
        List.flatten_cons, List.drop_append_of_le_length hout]

/-! ## Which requests are right -/

/-- The first segments of `src` and `dst` hold the whole request. -/
def OneSegment (areq : Request) : Prop :=
  areq.nbytes ≤ (areq.src.headD []).length ∧ areq.nbytes ≤ (areq.dst.headD []).length

instance (areq : Request) : Decidable (OneSegment areq) := inferInstanceAs (Decidable (_ ∧ _))

/-- An engine that ends every operation within `n` reads -/
def Within (n : ℕ) : Prop := ∀ ctl s input, (engine.start ctl s input).busy ≤ n

/-- An engine that writes one byte, which the number of bytes read decides -/
def fillEngine (early : UInt8) (fill : ℕ → UInt8) (busy : ℕ) : Engine Unit where
  setIv _ _ := ()
  start _ _ input :=
    ⟨(), List.replicate input.length early, List.replicate input.length (fill input.length), busy⟩
  length_out _ _ _ := List.length_replicate
  length_early _ _ _ := List.length_replicate

theorem within_fillEngine {early : UInt8} {fill : ℕ → UInt8} {busy n : ℕ} (h : busy ≤ n) :
    Within (fillEngine early fill busy) n :=
  fun _ _ _ => h

theorem wholeOperation_fillEngine {early : UInt8} {fill : ℕ → UInt8} {busy : ℕ}
    (h : areq.nbytes ≤ areq.src.flatten.length) :
    (wholeOperation (fillEngine early fill busy) ctx () areq encrypt).out =
      List.replicate areq.nbytes (fill areq.nbytes) := by
  simp only [wholeOperation, fillEngine, List.length_take, Nat.min_eq_left h]

theorem not_cryptOk_of_byte {early byte : UInt8} {fill : ℕ → UInt8} {busy i : ℕ}
    (hclk : (ctx.useMtpKey && clkError) = false) (hsrc : areq.nbytes ≤ areq.src.flatten.length)
    (hi : i < areq.nbytes) (hbyte : byte ≠ fill areq.nbytes)
    (hret : (cryptLoop (fillEngine early fill busy) (aesCtl ctx encrypt) areq.src areq.nbytes
      100000 () areq.dst).ret = 0)
    (hget : (cryptLoop (fillEngine early fill busy) (aesCtl ctx encrypt) areq.src areq.nbytes
      100000 () areq.dst).dst.flatten[i]? = some byte) :
    ¬ CryptOk (fillEngine early fill busy) ctx clkError () areq encrypt := by
  intro hok
  have hcall : doAesCrypt (fillEngine early fill busy) ctx clkError () areq encrypt = _ :=
    doAesCrypt_of_clk _ hclk
  have hout := hok.output (by rw [hcall]; exact hret)
  rw [wholeOperation_fillEngine hsrc, hcall] at hout
  have hwant := congrArg (·[i]?) hout
  simp only [List.getElem?_take_of_lt hi, List.getElem?_replicate, if_pos hi] at hwant
  exact hbyte (Option.some.inj (hget.symm.trans hwant))

theorem not_cryptOk_dst {first : List UInt8} {rest : List (List UInt8)}
    (hclk : (ctx.useMtpKey && clkError) = false) (hsrc : areq.nbytes ≤ areq.src.flatten.length)
    (hdst : areq.nbytes ≤ areq.dst.flatten.length) (hcons : areq.dst = first :: rest)
    (hshort : first.length < areq.nbytes) :
    ∃ fill, ¬ CryptOk (fillEngine 0 fill 0) ctx clkError () areq encrypt := by
  -- a byte behind the first segment; the engine writes another one
  obtain ⟨byte, hbyte⟩ : ∃ byte, rest.flatten[0]? = some byte := by
    rw [hcons, List.flatten_cons, List.length_append] at hdst
    exact ⟨_, List.getElem?_eq_getElem (by omega)⟩
  have hkeeps : (cryptLoop (fillEngine 0 (fun _ => byte + 1) 0) (aesCtl ctx encrypt) areq.src
      areq.nbytes 100000 () areq.dst).ret = 0 ∧ _ :=
    cryptLoop_keeps _ _ (fun dst => ∃ head, head.length = first.length ∧ dst = head :: rest)
      (fun _ _ => rfl) (by decide) ?_ ⟨first, rfl, hcons⟩
  · obtain ⟨hret, head, hlength, hend⟩ := hkeeps
    refine ⟨_, not_cryptOk_of_byte hclk hsrc hshort (show byte ≠ byte + 1 by simp) hret ?_⟩
    rw [hend, List.flatten_cons, List.getElem?_append_right (by omega), hlength, Nat.sub_self]
    exact hbyte
  · -- a copy writes to the first segment only
    rintro s input dst - ⟨head, hlength, rfl⟩
    refine ⟨_, ?_, rfl⟩
    simp only [List.length_append, List.length_take, List.length_drop]
    omega

theorem copyFromBuffer_replicate {byte : UInt8} {dst : List (List UInt8)} (n : ℕ)
    (h : dst.flatten[0]? = some byte) :
    (copyFromBuffer (List.replicate n byte) dst).1.flatten[0]? = some byte := by
  match dst, n with
  | [], _ => exact h
  | [] :: _, _ => simpa [copyFromBuffer] using h
  | (_ :: _) :: _, 0 => simpa [copyFromBuffer] using h
  | (_ :: _) :: _, n + 1 => simp [copyFromBuffer, List.replicate_succ]

theorem not_cryptOk_src {segment first : List UInt8} {inSg rest : List (List UInt8)}
    (hclk : (ctx.useMtpKey && clkError) = false) (hsrc : areq.nbytes ≤ areq.src.flatten.length)
    (hcons : areq.src = segment :: inSg) (hne : segment ≠ []) (hdst : areq.dst = first :: rest)
    (hlong : areq.nbytes ≤ first.length) (hshort : segment.length < areq.nbytes) :
    ∃ fill, ¬ CryptOk (fillEngine 0 fill 0) ctx clkError () areq encrypt := by
  have hpos := List.length_pos_of_ne_nil hne
  obtain ⟨byte, hbyte⟩ : ∃ byte, areq.dst.flatten[0]? = some byte := by
    rw [hdst, List.flatten_cons]
    exact ⟨_, List.getElem?_eq_getElem (by rw [List.length_append]; omega)⟩
  -- only an operation on the whole source would change the first byte, and there is none
  let fill := fun n => if n = areq.nbytes then byte + 1 else byte
  have hcopy : ∀ s input dst, input.length < areq.nbytes → dst.flatten[0]? = some byte →
      (copyFromBuffer ((fillEngine 0 fill 0).start (aesCtl ctx encrypt ||| aesStart) s input).out
        dst).1.flatten[0]? = some byte := by
    intro s input dst hlt h
    have hfill : fill input.length = byte := if_neg (Nat.ne_of_lt hlt)
    simp only [fillEngine, hfill]
    exact copyFromBuffer_replicate _ h
  -- the first operation takes fewer bytes than the request
  have hfirst := hcopy () (segment.take areq.nbytes) areq.dst
    (by rw [List.length_take]; omega) hbyte
  have hloop : (cryptLoop (fillEngine 0 fill 0) (aesCtl ctx encrypt) areq.src areq.nbytes
      100000 () areq.dst).ret = 0 ∧ (cryptLoop (fillEngine 0 fill 0) (aesCtl ctx encrypt) areq.src
      areq.nbytes 100000 () areq.dst).dst.flatten[0]? = some byte := by
    rw [hcons]
    obtain hend | ⟨hnext, hcount⟩ := cryptLoop_prompt (fillEngine 0 fill 0) (aesCtl ctx encrypt)
      (fun _ _ => rfl) (by decide : (100000 : ℤ) ≠ 0) (show areq.nbytes ≠ 0 by omega)
    · rw [hend]
      exact ⟨rfl, hfirst⟩
    · rw [hnext]
      exact cryptLoop_keeps _ _ (fun dst => dst.flatten[0]? = some byte) (fun _ _ => rfl)
        (by decide) (fun s input dst hle => hcopy s input dst (by omega)) hfirst
  refine ⟨fill, not_cryptOk_of_byte hclk hsrc (by omega) ?_ hloop.1 hloop.2⟩
  simp [fill]

theorem not_cryptOk_late {segment first : List UInt8} {inSg rest : List (List UInt8)} {n : ℕ}
    (hclk : (ctx.useMtpKey && clkError) = false) (hcons : areq.src = segment :: inSg)
    (hdst : areq.dst = first :: rest) (hin : areq.nbytes ≤ segment.length)
    (hout : areq.nbytes ≤ first.length) (hpos : areq.nbytes ≠ 0) (hlate : 100000 < n) :
    ¬ CryptOk (fillEngine 0 (fun _ => 1) n) ctx clkError () areq encrypt := by
  have hloop : cryptLoop (fillEngine 0 (fun _ => 1) n) (aesCtl ctx encrypt) (segment :: inSg)
      areq.nbytes 100000 () (first :: rest) = _ :=
    cryptLoop_one _ _ hpos hin hout (poll_of_gt (by decide) (Int.ofNat_lt.mpr hlate)) (by decide)
  rw [← hcons, ← hdst] at hloop
  have hsrc : areq.nbytes ≤ areq.src.flatten.length := by
    rw [hcons, List.flatten_cons, List.length_append]
    omega
  refine not_cryptOk_of_byte hclk hsrc (Nat.pos_of_ne_zero hpos)
    (by decide : (0 : UInt8) ≠ 1) (by rw [hloop]) ?_
  rw [hloop]
  simp only [fillEngine, Bool.false_eq_true, if_false, List.flatten_cons, List.append_assoc,
    List.length_take, Nat.min_eq_left hin]
  rw [List.getElem?_append_left (by simpa using Nat.pos_of_ne_zero hpos),
    List.getElem?_replicate_of_lt (Nat.pos_of_ne_zero hpos)]

theorem Segmented.cons {segments : List (List UInt8)} {nbytes : ℕ} (h : Segmented segments nbytes)
    (hpos : nbytes ≠ 0) : ∃ segment rest, segments = segment :: rest ∧ segment ≠ [] := by
  cases segments with
  | nil => exact absurd (Nat.le_zero.mp h.1) hpos
  | cons segment rest => exact ⟨segment, rest, rfl, (h.2 segment (by simp)).1⟩

/-- **AES requests**: a request is right with all engines that end within `n` reads exactly if the
    clock for a key in the key memory is there and nothing is asked for, or the request lies in the
    first segments of `src` and `dst` and `n` is at most 100000. -/
theorem cryptOk_iff (n : ℕ) (hsrc : Segmented areq.src areq.nbytes)
    (hdst : Segmented areq.dst areq.nbytes) :
    (∀ {σ : Type} (engine : Engine σ) (state : σ), Within engine n →
      CryptOk engine ctx clkError state areq encrypt) ↔
      (ctx.useMtpKey && clkError) = false ∧
        (areq.nbytes = 0 ∨ n ≤ 100000 ∧ OneSegment areq) := by
  -- engines that end at once
  have hprompt : ∀ fill, Within (fillEngine 0 fill 0) n :=
    fun _ => within_fillEngine (Nat.zero_le n)
  by_cases hpos : areq.nbytes = 0
  · refine ⟨fun hall => ⟨?_, .inl hpos⟩, fun h _ engine _ _ => (cryptOk_zero engine h.1 hpos).2⟩
    rw [← doAesCrypt_locked (fillEngine 0 (fun _ => 0) 0)]
    exact (hall _ () (hprompt _)).released
  obtain ⟨segment, inSg, hsegment, hne⟩ := hsrc.cons hpos
  obtain ⟨first, rest, hfirst, -⟩ := hdst.cons hpos
  have hone : OneSegment areq ↔ areq.nbytes ≤ segment.length ∧ areq.nbytes ≤ first.length := by
    rw [OneSegment, hsegment, hfirst]
    rfl
  rw [hone]
  constructor
  · -- for each part of the condition an engine that goes wrong without it
    intro hall
    have hclk : (ctx.useMtpKey && clkError) = false := by
      rw [← doAesCrypt_locked (fillEngine 0 (fun _ => 0) 0)]
      exact (hall _ () (hprompt _)).released
    have hout : areq.nbytes ≤ first.length := by
      by_contra hshort
      obtain ⟨fill, hnot⟩ := not_cryptOk_dst hclk hsrc.1 hdst.1 hfirst (Nat.lt_of_not_le hshort)
      exact hnot (hall _ () (hprompt fill))
    have hin : areq.nbytes ≤ segment.length := by
      by_contra hshort
      obtain ⟨fill, hnot⟩ := not_cryptOk_src hclk hsrc.1 hsegment hne hfirst hout
        (Nat.lt_of_not_le hshort)
      exact hnot (hall _ () (hprompt fill))
    refine ⟨hclk, .inr ⟨?_, hin, hout⟩⟩
    by_contra hlate
    exact not_cryptOk_late hclk hsegment hfirst hin hout hpos (Nat.lt_of_not_le hlate)
      (hall _ () (within_fillEngine (Nat.le_refl n)))
  · rintro ⟨hclk, hzero | ⟨hn, hin, hout⟩⟩ σ engine state hwithin
    · exact absurd hzero hpos
    · exact (doAesCrypt_ok engine hsegment hfirst hin hout hclk
        (Nat.le_trans (hwithin _ _ _) hn)).2

/-- A context with a key in the registers of the engine -/
def plainCtx : Ctx := ⟨0, 0, 0, false, true⟩

/-- A request for one block -/
def oneBlock : Request := ⟨[List.replicate 16 1], [List.replicate 16 0], 16, fun _ => 0⟩

theorem cryptOk_oneBlock :
    Segmented oneBlock.src 16 ∧ Segmented oneBlock.dst 16 ∧
      ∀ {σ : Type} (engine : Engine σ) (state : σ), Within engine 100000 →
        CryptOk engine plainCtx false state oneBlock true :=
  ⟨by decide, by decide, (cryptOk_iff 100000 (by decide) (by decide)).mpr
    ⟨rfl, .inr ⟨by decide, by decide⟩⟩⟩

/-! ## Where it goes wrong -/

/-- An engine that copies its input -/
def copyEngine : Engine Unit where
  setIv _ _ := ()
  start _ _ input := ⟨(), input, input, 0⟩
  length_out _ _ _ := rfl
  length_early _ _ _ := rfl

/-- A request for two blocks in a segment each -/
def twoBlocks : Request :=
  ⟨[List.replicate 16 1, List.replicate 16 2], [List.replicate 16 0, List.replicate 16 0], 32,
    fun _ => 0⟩

/-- The second block of the output replaces the first, and a missing clock leaves the lock held. -/
theorem twoBlocks_wrong :
    Segmented twoBlocks.src 32 ∧ Segmented twoBlocks.dst 32 ∧
      (doAesCrypt copyEngine plainCtx false () twoBlocks true).ret = 0 ∧
      (doAesCrypt copyEngine plainCtx false () twoBlocks true).dst =
        [List.replicate 16 2, List.replicate 16 0] ∧
      ¬ CryptOk copyEngine plainCtx false () twoBlocks true ∧
      ¬ CryptOk copyEngine ⟨0, 0, 0, true, true⟩ true () oneBlock true := by
  refine ⟨by decide, by decide, by decide, by decide, fun h => ?_, fun h => ?_⟩
  · exact absurd (h.output (by decide)) (by decide)
  · exact absurd h.released (by decide)

end NucKernel.Crypto.Aes
