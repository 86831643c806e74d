import NucKernel.Library.Bytes

/-!
# T=1 blocks (`sc-t1.c`)

The byte layer of the smart-card driver's T=1 protocol: the protocol control byte (PCB) with its
three block kinds, the two checksums, and the block as `t1_build` lays it out and `t1_xcv` takes
it off the line.

## Modelling

- A block is `NAD PCB LEN INF EDC`. `LEN` is not stored: `t1_xcv` reads exactly `LEN` information
  bytes and the checksum bytes after them, and `t1_build` writes the length of what it copies, so
  in both directions `LEN` is the length of the `INF` field.
- `ns`, `nr` and the results of `t1_seq` are `0` or `1` in the source and `Bool` here.
-/

namespace NucKernel.SmartCard.T1

open NucKernel.Library

/-! ## The protocol control byte -/

abbrev t1IBlock : UInt8 := 0x00

abbrev t1RBlock : UInt8 := 0x80

abbrev t1SBlock : UInt8 := 0xC0

/-- `T1_MORE_BLOCKS`: the chaining bit of an I-block. -/
abbrev t1MoreBlocks : UInt8 := 0x20

abbrev t1EdcError : UInt8 := 0x01

abbrev t1OtherError : UInt8 := 0x02

/-- `T1_S_RESPONSE`: set in the answer to an S-block, clear in the request. -/
abbrev t1SResponse : UInt8 := 0x20

abbrev t1SResync : UInt8 := 0x00

abbrev t1SIfs : UInt8 := 0x01

abbrev t1SAbort : UInt8 := 0x02

abbrev t1SWtx : UInt8 := 0x03

abbrev t1BufferSize : ℕ := 3 + 254 + 2

inductive BlockType where
  | iBlock
  | rBlock
  | sBlock
  deriving DecidableEq, Repr

def t1BlockType (pcb : UInt8) : BlockType :=
  if pcb &&& 0xC0 = t1RBlock then .rBlock
  else if pcb &&& 0xC0 = t1SBlock then .sBlock
  else .iBlock

/-- The sequence number: `N(R)` of an R-block, `N(S)` of an I-block, `0` for an S-block. -/
def t1Seq (pcb : UInt8) : Bool :=
  match t1BlockType pcb with
  | .rBlock => (pcb >>> 4) &&& 1 == 1
  | .sBlock => false
  | .iBlock => (pcb >>> 6) &&& 1 == 1

/-- `T1_IS_ERROR`: the error code of an R-block. -/
def t1IsError (pcb : UInt8) : UInt8 := pcb &&& 0x0F

def t1SType (pcb : UInt8) : UInt8 := pcb &&& 0x0F

/-- `pcb & 0x20`: chaining bit of an I-block, response bit of an S-block, illegal in an R-block. -/
def bitSix (pcb : UInt8) : Bool := pcb &&& 0x20 != 0

def swapNibbles (x : UInt8) : UInt8 := (x >>> 4) ||| ((x &&& 0xF) <<< 4)

/-! ## Checksums -/

def crctab : List UInt16 :=
  [0x0000, 0x1189, 0x2312, 0x329b, 0x4624, 0x57ad, 0x6536, 0x74bf,
   0x8c48, 0x9dc1, 0xaf5a, 0xbed3, 0xca6c, 0xdbe5, 0xe97e, 0xf8f7,
   0x1081, 0x0108, 0x3393, 0x221a, 0x56a5, 0x472c, 0x75b7, 0x643e,
   0x9cc9, 0x8d40, 0xbfdb, 0xae52, 0xdaed, 0xcb64, 0xf9ff, 0xe876,
   0x2102, 0x308b, 0x0210, 0x1399, 0x6726, 0x76af, 0x4434, 0x55bd,
   0xad4a, 0xbcc3, 0x8e58, 0x9fd1, 0xeb6e, 0xfae7, 0xc87c, 0xd9f5,
   0x3183, 0x200a, 0x1291, 0x0318, 0x77a7, 0x662e, 0x54b5, 0x453c,
   0xbdcb, 0xac42, 0x9ed9, 0x8f50, 0xfbef, 0xea66, 0xd8fd, 0xc974,
   0x4204, 0x538d, 0x6116, 0x709f, 0x0420, 0x15a9, 0x2732, 0x36bb,
   0xce4c, 0xdfc5, 0xed5e, 0xfcd7, 0x8868, 0x99e1, 0xab7a, 0xbaf3,
   0x5285, 0x430c, 0x7197, 0x601e, 0x14a1, 0x0528, 0x37b3, 0x263a,
   0xdecd, 0xcf44, 0xfddf, 0xec56, 0x98e9, 0x8960, 0xbbfb, 0xaa72,
   0x6306, 0x728f, 0x4014, 0x519d, 0x2522, 0x34ab, 0x0630, 0x17b9,
   0xef4e, 0xfec7, 0xcc5c, 0xddd5, 0xa96a, 0xb8e3, 0x8a78, 0x9bf1,
   0x7387, 0x620e, 0x5095, 0x411c, 0x35a3, 0x242a, 0x16b1, 0x0738,
   0xffcf, 0xee46, 0xdcdd, 0xcd54, 0xb9eb, 0xa862, 0x9af9, 0x8b70,
   0x8408, 0x9581, 0xa71a, 0xb693, 0xc22c, 0xd3a5, 0xe13e, 0xf0b7,
   0x0840, 0x19c9, 0x2b52, 0x3adb, 0x4e64, 0x5fed, 0x6d76, 0x7cff,
   0x9489, 0x8500, 0xb79b, 0xa612, 0xd2ad, 0xc324, 0xf1bf, 0xe036,
   0x18c1, 0x0948, 0x3bd3, 0x2a5a, 0x5ee5, 0x4f6c, 0x7df7, 0x6c7e,
   0xa50a, 0xb483, 0x8618, 0x9791, 0xe32e, 0xf2a7, 0xc03c, 0xd1b5,
   0x2942, 0x38cb, 0x0a50, 0x1bd9, 0x6f66, 0x7eef, 0x4c74, 0x5dfd,
   0xb58b, 0xa402, 0x9699, 0x8710, 0xf3af, 0xe226, 0xd0bd, 0xc134,
   0x39c3, 0x284a, 0x1ad1, 0x0b58, 0x7fe7, 0x6e6e, 0x5cf5, 0x4d7c,
   0xc60c, 0xd785, 0xe51e, 0xf497, 0x8028, 0x91a1, 0xa33a, 0xb2b3,
   0x4a44, 0x5bcd, 0x6956, 0x78df, 0x0c60, 0x1de9, 0x2f72, 0x3efb,
   0xd68d, 0xc704, 0xf59f, 0xe416, 0x90a9, 0x8120, 0xb3bb, 0xa232,
   0x5ac5, 0x4b4c, 0x79d7, 0x685e, 0x1ce1, 0x0d68, 0x3ff3, 0x2e7a,
   0xe70e, 0xf687, 0xc41c, 0xd595, 0xa12a, 0xb0a3, 0x8238, 0x93b1,
   0x6b46, 0x7acf, 0x4854, 0x59dd, 0x2d62, 0x3ceb, 0x0e70, 0x1ff9,
   0xf78f, 0xe606, 0xd49d, 0xc514, 0xb1ab, 0xa022, 0x92b9, 0x8330,
   0x7bc7, 0x6a4e, 0x58d5, 0x495c, 0x3de3, 0x2c6a, 0x1ef1, 0x0f78]

def csumLrcCompute (data : List UInt8) : List UInt8 :=
  [data.foldl (· ^^^ ·) 0]

def csumCrcCompute (data : List UInt8) : List UInt8 :=
  let next (v : UInt16) (b : UInt8) : UInt16 :=
    ((v >>> 8) &&& 0xFF) ^^^ crctab.getD ((v ^^^ b.toUInt16) &&& 0xFF).toNat 0
  let v := data.foldl next 0xFFFF
  [((v >>> 8) &&& 0xFF).toUInt8, (v &&& 0xFF).toUInt8]

/-- The value of the function pointer `t1->checksum`, which `t1_set_checksum` keeps in step with
    `rc_bytes`. -/
inductive Checksum where
  | lrc
  | crc
  deriving DecidableEq, Repr

def Checksum.compute : Checksum → List UInt8 → List UInt8
  | .lrc => csumLrcCompute
  | .crc => csumCrcCompute

/-! ## Blocks -/

/-- A block on the line. The length byte is the length of `inf`. -/
structure Block where
  nad : UInt8
  pcb : UInt8
  inf : List UInt8
  edc : List UInt8
  deriving DecidableEq, Repr

/-- The byte `sdata[DATA]`, read from S-blocks with one information byte. -/
def Block.data (b : Block) : UInt8 := b.inf.headD 0

def Block.body (b : Block) : List UInt8 :=
  b.nad :: b.pcb :: UInt8.ofNat b.inf.length :: b.inf

/-- `t1_compute_checksum`: append the checksum to a block under construction. -/
def t1ComputeChecksum (c : Checksum) (nad pcb : UInt8) (inf : List UInt8) : Block :=
  { nad, pcb, inf, edc := c.compute (nad :: pcb :: UInt8.ofNat inf.length :: inf) }

def t1VerifyChecksum (c : Checksum) (b : Block) : Bool :=
  b.edc == c.compute b.body

@[simp] theorem verify_compute (c : Checksum) (nad pcb : UInt8) (inf : List UInt8) :
    t1VerifyChecksum c (t1ComputeChecksum c nad pcb inf) = true := by
  simp [t1VerifyChecksum, t1ComputeChecksum, Block.body]

/-! ## The three shapes of a PCB -/

def iPcb (more ns : Bool) : UInt8 :=
  (if more then t1IBlock ||| t1MoreBlocks else t1IBlock) ||| ns.toUInt8 <<< 6

def rPcb (error : UInt8) (nr : Bool) : UInt8 :=
  (t1RBlock ||| t1IsError error) ||| nr.toUInt8 <<< 4

def sPcb (response : Bool) (type : UInt8) : UInt8 :=
  t1SBlock ||| (if response then t1SResponse else 0) ||| t1SType type

@[simp] theorem iPcb_spec (more ns : Bool) :
    t1BlockType (iPcb more ns) = .iBlock ∧ t1Seq (iPcb more ns) = ns ∧
      bitSix (iPcb more ns) = more := by
  cases more <;> cases ns <;> decide

@[simp] theorem rPcb_spec (error : UInt8) (nr : Bool) :
    t1BlockType (rPcb error nr) = .rBlock ∧ t1Seq (rPcb error nr) = nr ∧
      bitSix (rPcb error nr) = false ∧ t1IsError (rPcb error nr) = t1IsError error := by
  revert error
  apply forall_uint8
  cases nr <;> decide +kernel

@[simp] theorem sPcb_spec (response : Bool) (type : UInt8) :
    t1BlockType (sPcb response type) = .sBlock ∧ t1SType (sPcb response type) = t1SType type ∧
      bitSix (sPcb response type) = response := by
  revert type
  apply forall_uint8
  cases response <;> decide +kernel

theorem blockType_rBlock (pcb : UInt8) : t1BlockType (t1RBlock ||| t1IsError pcb) = .rBlock := by
  revert pcb
  apply forall_uint8
  decide +kernel

theorem sPcb_or_more (pcb : UInt8) : sPcb true pcb ||| t1MoreBlocks = sPcb true pcb := by
  revert pcb
  apply forall_uint8
  decide +kernel

end NucKernel.SmartCard.T1
