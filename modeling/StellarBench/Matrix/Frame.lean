import StellarBench.Matrix.Block

/-!
# Frames

A frame is what one buffer holds after the four `memcpy` calls of a
`rdma_sendTd`: the header and the elements of a P block, then those of a Q block.
The decoders read it field by field.  The worker allocates new arrays.  The
server copies into the arrays it has, and it takes the index of the target from
the frame.  The bytes of a frame are the subject of `Matrix.Codec`.
-/

namespace StellarBench

variable {α : Type}

/-- The contents of a send or a receive buffer. -/
structure Frame (α : Type) where
  pb : Header
  pEles : List α
  qb : Header
  qEles : List α
deriving DecidableEq

/-- `sizeof(Block)`. -/
def structSz : ℕ := 32

/-- `sizeof(double)`. -/
def doubleSz : ℕ := 8

/-- The elements that a `memcpy` of `ele_num` doubles reads from a block. -/
def Block.payload (b : Block α) : List α := b.eles.take b.eleNum.toNat

/-- `total_len`. -/
def totalLen (p q : Block α) : ℕ :=
  (structSz + doubleSz * p.eleNum.toNat) + (structSz + doubleSz * q.eleNum.toNat)

namespace Frame

/-! ## The four copies of `rdma_sendTd` -/

def setPb (p : Block α) (f : Frame α) : Frame α := { f with pb := p.toHeader }
def setPEles (p : Block α) (f : Frame α) : Frame α := { f with pEles := p.payload }
def setQb (q : Block α) (f : Frame α) : Frame α := { f with qb := q.toHeader }
def setQEles (q : Block α) (f : Frame α) : Frame α := { f with qEles := q.payload }

/-- The frame of a pair of blocks. -/
def ofBlocks (p q : Block α) : Frame α := ⟨p.toHeader, p.payload, q.toHeader, q.payload⟩

/-- The first `k` of the four copies are done. -/
structure Filled (k : ℕ) (p q : Block α) (f : Frame α) : Prop where
  pb : 1 ≤ k → f.pb = p.toHeader
  pEles : 2 ≤ k → f.pEles = p.payload
  qb : 3 ≤ k → f.qb = q.toHeader
  qEles : 4 ≤ k → f.qEles = q.payload

theorem filled_zero (p q : Block α) (f : Frame α) : Filled 0 p q f := by
  constructor <;> intro h <;> omega

theorem Filled.setPb {p q : Block α} {f : Frame α} (_ : Filled 0 p q f) :
    Filled 1 p q (f.setPb p) :=
  ⟨fun _ => rfl, by omega, by omega, by omega⟩

theorem Filled.setPEles {p q : Block α} {f : Frame α} (h : Filled 1 p q f) :
    Filled 2 p q (f.setPEles p) :=
  ⟨fun _ => h.pb le_rfl, fun _ => rfl, by omega, by omega⟩

theorem Filled.setQb {p q : Block α} {f : Frame α} (h : Filled 2 p q f) :
    Filled 3 p q (f.setQb q) :=
  ⟨fun _ => h.pb (by omega), fun _ => h.pEles le_rfl, fun _ => rfl, by omega⟩

theorem Filled.setQEles {p q : Block α} {f : Frame α} (h : Filled 3 p q f) :
    Filled 4 p q (f.setQEles q) :=
  ⟨fun _ => h.pb (by omega), fun _ => h.pEles (by omega), fun _ => h.qb le_rfl, fun _ => rfl⟩

theorem Filled.eq_ofBlocks {p q : Block α} {f : Frame α} (h : Filled 4 p q f) :
    f = ofBlocks p q := by
  obtain ⟨h1, h2, h3, h4⟩ := h
  cases f
  simp_all [ofBlocks]

/-! ## The decoders -/

/-- What the worker's `rdma_recvTd` stores in a block.  `isP` keeps its value. -/
def workerDecode (b : Header) (eles : List α) (old : Block α) : Block α :=
  { old with
    blockId := b.blockId, staIdx := b.staIdx, height := b.height, eleNum := b.eleNum,
    eles := eles.take b.eleNum.toNat, dataAge := b.dataAge }

/-- What the server's `rdma_recvTd` stores in the block the frame names. -/
def psDecode (b : Header) (eles : List α) (old : Block α) : Block α :=
  { old with
    blockId := b.blockId, staIdx := b.staIdx, height := b.height, eleNum := b.eleNum,
    isP := b.isP, eles := copyEles old.eles eles b.eleNum.toNat, dataAge := b.dataAge }

/-- `Pblock` of the worker after the P half of its decoder. -/
def workerDecodeP (f : Frame α) (old : Block α) : Block α := workerDecode f.pb f.pEles old

/-- `Qblock` of the worker after the Q half of its decoder. -/
def workerDecodeQ (f : Frame α) (old : Block α) : Block α := workerDecode f.qb f.qEles old

/-- The entry of `Pblocks` after the P half of the server's decoder. -/
def psDecodeP (f : Frame α) (old : Block α) : Block α := psDecode f.pb f.pEles old

/-- The entry of `Qblocks` after the Q half of the server's decoder. -/
def psDecodeQ (f : Frame α) (old : Block α) : Block α := psDecode f.qb f.qEles old

end Frame

theorem Block.Full.payload {b : Block α} (h : b.Full) : b.payload = b.eles :=
  List.take_of_length_le h.le

/-- The worker recovers a full block, `isP` apart. -/
theorem Frame.workerDecode_full {b old : Block α} (hb : b.Full) (hp : old.isP = b.isP) :
    workerDecode b.toHeader b.payload old = b := by
  obtain ⟨⟨i, a, s, h, e, p⟩, l⟩ := b
  simp only [Block.Full] at hb
  simp_all [workerDecode, Block.payload, ← hb]

/-- The server recovers a full block when the target has its size. -/
theorem Frame.psDecode_full {b old : Block α} (hb : b.Full)
    (ho : old.eles.length = b.eleNum.toNat) : psDecode b.toHeader b.payload old = b := by
  have hc : copyEles old.eles b.eles b.eleNum.toNat = b.eles := copyEles_of_length hb ho
  obtain ⟨⟨i, a, s, h, e, p⟩, l⟩ := b
  rw [hb.payload]
  simp_all [psDecode]

end StellarBench
