import StellarBench.Lib.Bytes
import StellarBench.Matrix.Frame
import StellarBench.Transport.Connection

/-!
# The bytes of a frame

On a 64-bit little-endian machine `struct Block` takes 32 bytes.  Five `int`
fields of four bytes are followed by `isP`, three bytes of padding and the
pointer `eles`.  The encoders copy all of them.  The decoders read the fields of
a header one by one, at their offsets, and find the Q header behind the elements
that the P header announces.  Sizes are of type `size_t`.

`Stored.block` forgets the layout.  Under it the decoders compute on bytes what
those of `Matrix.Frame` compute on fields (`Worker.rdmaRecvTd_refines`,
`Server.rdmaRecvTd_refines`).
-/

namespace StellarBench.Codec

/-! ## `struct Block` in memory -/

/-- `struct Block`, padding included.  `eles` is the raw pointer. -/
structure Struct where
  blockId : BitVec 32
  dataAge : BitVec 32
  staIdx : BitVec 32
  height : BitVec 32
  eleNum : BitVec 32
  isP : BitVec 8
  padding : BitVec 24
  eles : BitVec 64
deriving DecidableEq

/-- The five `int` fields, at offsets 0, 4, 8, 12 and 16. -/
def Struct.ints (s : Struct) : Bytes :=
  leBytes 4 s.blockId.toNat ++ (leBytes 4 s.dataAge.toNat ++ (leBytes 4 s.staIdx.toNat ++
    (leBytes 4 s.height.toNat ++ leBytes 4 s.eleNum.toNat)))

/-- `isP`, the padding and the pointer, at offsets 20, 21 and 24. -/
def Struct.raw (s : Struct) : Bytes :=
  leBytes 1 s.isP.toNat ++ (leBytes 3 s.padding.toNat ++ leBytes 8 s.eles.toNat)

def Struct.bytes (s : Struct) : Bytes := s.ints ++ s.raw

/-- A block and the array of doubles behind its pointer. -/
structure Stored extends Struct where
  arr : List (BitVec 64)
deriving DecidableEq

/-- The array holds exactly `ele_num` doubles. -/
structure Stored.Full (b : Stored) : Prop where
  nonneg : 0 ≤ b.eleNum.toInt
  length : b.arr.length = b.eleNum.toInt.toNat

/-- `data_age = age`. -/
def Stored.stamp (b : Stored) (age : BitVec 32) : Stored := { b with dataAge := age }

/-- `sizeof(double) * ele_num`. -/
def dataSz (eleNum : BitVec 32) : BitVec 64 :=
  BitVec.ofNat 64 doubleSz * eleNum.signExtend 64

/-- `struct_sz + p_data_sz` and `struct_sz + q_data_sz`. -/
def blockSz (eleNum : BitVec 32) : BitVec 64 := BitVec.ofNat 64 structSz + dataSz eleNum

/-- `p_total + q_total`. -/
def totalLen (p q : Struct) : BitVec 64 := blockSz p.eleNum + blockSz q.eleNum

/-- An `int` field at an offset. -/
def loadInt (buf : Bytes) (off : ℕ) : Option (BitVec 32) :=
  (readAt buf off 4).map fun bs => BitVec.ofNat 32 (leValue bs)

/-- A `bool` field at an offset. -/
def loadBool (buf : Bytes) (off : ℕ) : Option (BitVec 8) :=
  (readAt buf off 1).map fun bs => BitVec.ofNat 8 (leValue bs)

/-! ## The encoders -/

/-- The four copies that both encoders make, with `total_len`. -/
def copyBlocks (p q : Stored) (buf : Bytes) : Option (Bytes × BitVec 64) := do
  let buf ← writeAt buf 0 p.bytes
  let pData ← readAt (wordBytes p.arr) 0 (dataSz p.eleNum).toNat
  let buf ← writeAt buf structSz pData
  let buf ← writeAt buf (blockSz p.eleNum).toNat q.bytes
  let qData ← readAt (wordBytes q.arr) 0 (dataSz q.eleNum).toNat
  let buf ← writeAt buf (blockSz p.eleNum + BitVec.ofNat 64 structSz).toNat qData
  return (buf, totalLen p.toStruct q.toStruct)

/-- `Pblock` and `Qblock` of a worker. -/
structure Worker where
  pblock : Stored
  qblock : Stored

/-- `Pblocks` and `Qblocks` of the server. -/
structure Server where
  pblocks : List Stored
  qblocks : List Stored

/-- `blocks[idx]`. -/
def entry (blocks : List Stored) (idx : BitVec 32) : Option Stored :=
  if 0 ≤ idx.toInt then blocks[idx.toInt.toNat]? else none

/-- `rdma_sendTd` of the worker, up to the end of the copies. -/
def Worker.rdmaSendTd (w : Worker) (buf : Bytes) : Option (Bytes × BitVec 64) :=
  copyBlocks w.pblock w.qblock buf

/-- `rdma_sendTd` of the server.  It stamps `data_age` on both blocks and copies. -/
def Server.rdmaSendTd (s : Server) (pbid qbid toSendIter : BitVec 32) (buf : Bytes) :
    Option (Server × Bytes × BitVec 64) := do
  let p ← entry s.pblocks pbid
  let q ← entry s.qblocks qbid
  let p := p.stamp toSendIter
  let q := q.stamp toSendIter
  let (buf, len) ← copyBlocks p q buf
  return (⟨s.pblocks.set pbid.toInt.toNat p, s.qblocks.set qbid.toInt.toNat q⟩, buf, len)

/-! ## The decoders -/

/-- What `malloc` returns: an address and the words it finds there. -/
structure Chunk where
  addr : BitVec 64
  word : ℕ → BitVec 64

/-- One half of the worker's `rdma_recvTd`, with the header at `base`. -/
def recvBlock (m : Chunk) (buf : Bytes) (base : ℕ) (old : Stored) : Option Stored := do
  let blockId ← loadInt buf (base + 0)
  let staIdx ← loadInt buf (base + 8)
  let height ← loadInt buf (base + 12)
  let eleNum ← loadInt buf (base + 16)
  let data ← readAt buf (base + structSz) (dataSz eleNum).toNat
  let arr ← copyWords ((List.range eleNum.toInt.toNat).map m.word) data
  let dataAge ← loadInt buf (base + 4)
  return { old with
    blockId := blockId, staIdx := staIdx, height := height, eleNum := eleNum,
    eles := m.addr, arr := arr, dataAge := dataAge }

/-- `rdma_recvTd` of the worker. -/
def Worker.rdmaRecvTd (w : Worker) (mp mq : Chunk) (buf : Bytes) : Option Worker := do
  let p ← recvBlock mp buf 0 w.pblock
  let eleNum ← loadInt buf 16
  let q ← recvBlock mq buf (blockSz eleNum).toNat w.qblock
  return ⟨p, q⟩

/-- One half of the server's `rdma_recvTd`.  The frame names the entry. -/
def storeBlock (buf : Bytes) (base : ℕ) (blocks : List Stored) : Option (List Stored) := do
  let blockIdx ← loadInt buf (base + 0)
  let old ← entry blocks blockIdx
  let staIdx ← loadInt buf (base + 8)
  let height ← loadInt buf (base + 12)
  let eleNum ← loadInt buf (base + 16)
  let isP ← loadBool buf (base + 20)
  let data ← readAt buf (base + structSz) (dataSz eleNum).toNat
  let arr ← copyWords old.arr data
  let dataAge ← loadInt buf (base + 4)
  return blocks.set blockIdx.toInt.toNat { old with
    blockId := blockIdx, staIdx := staIdx, height := height, eleNum := eleNum,
    isP := isP, arr := arr, dataAge := dataAge }

/-- `rdma_recvTd` of the server. -/
def Server.rdmaRecvTd (s : Server) (buf : Bytes) : Option Server := do
  let pblocks ← storeBlock buf 0 s.pblocks
  let eleNum ← loadInt buf 16
  let qblocks ← storeBlock buf (blockSz eleNum).toNat s.qblocks
  return ⟨pblocks, qblocks⟩

/-! ## Sizes -/

@[simp] theorem Struct.ints_length (s : Struct) : s.ints.length = 20 := by
  simp [Struct.ints]

@[simp] theorem Struct.raw_length (s : Struct) : s.raw.length = 12 := by
  simp [Struct.raw]

@[simp] theorem Struct.bytes_length (s : Struct) : s.bytes.length = structSz := by
  simp [Struct.bytes, structSz]

/-- The bytes of a block in a frame: its header, then its elements. -/
def Stored.image (b : Stored) : Bytes := b.bytes ++ wordBytes b.arr

/-- The bytes of a frame. -/
def frameBytes (p q : Stored) : Bytes := p.image ++ q.image

theorem Stored.image_length (b : Stored) : b.image.length = structSz + doubleSz * b.arr.length := by
  simp [Stored.image, doubleSz]

theorem frameBytes_length (p q : Stored) :
    (frameBytes p q).length = p.image.length + q.image.length := List.length_append

/-- The product of `size_t` does not wrap on a count that is not negative. -/
theorem dataSz_toNat {n : BitVec 32} (h : 0 ≤ n.toInt) :
    (dataSz n).toNat = doubleSz * n.toInt.toNat := by
  have hm : n.msb = false := by
    rw [BitVec.msb_eq_toInt, decide_eq_false_iff_not]
    omega
  have hn : n.toNat < 2 ^ 32 := n.isLt
  rw [dataSz, BitVec.signExtend_eq_setWidth_of_msb_false hm, BitVec.toInt_eq_toNat_of_msb hm,
    BitVec.toNat_mul, BitVec.toNat_setWidth, BitVec.toNat_ofNat, Int.toNat_natCast, doubleSz]
  omega

theorem toInt_toNat_lt (n : BitVec 32) : n.toInt.toNat < 2 ^ 31 := by
  have := n.toInt_lt
  omega

namespace Stored.Full

variable {b p q : Stored}

theorem dataSz (h : b.Full) : (dataSz b.eleNum).toNat = (wordBytes b.arr).length := by
  rw [dataSz_toNat h.nonneg, wordBytes_length, h.length, doubleSz]

theorem blockSz (h : b.Full) : (blockSz b.eleNum).toNat = b.image.length := by
  have hn := toInt_toNat_lt b.eleNum
  rw [Codec.blockSz, BitVec.toNat_add, dataSz_toNat h.nonneg, b.image_length, h.length,
    BitVec.toNat_ofNat, structSz, doubleSz]
  omega

/-- `p_total + struct_sz`. -/
theorem elesOff (h : b.Full) :
    (Codec.blockSz b.eleNum + BitVec.ofNat 64 structSz).toNat = b.image.length + structSz := by
  have hn := toInt_toNat_lt b.eleNum
  rw [BitVec.toNat_add, h.blockSz, b.image_length, h.length, BitVec.toNat_ofNat, structSz,
    doubleSz]
  omega

theorem totalLen (hp : p.Full) (hq : q.Full) :
    (totalLen p.toStruct q.toStruct).toNat = (frameBytes p q).length := by
  have hn := toInt_toNat_lt p.eleNum
  have hm := toInt_toNat_lt q.eleNum
  rw [Codec.totalLen, BitVec.toNat_add, hp.blockSz, hq.blockSz, frameBytes_length, p.image_length,
    q.image_length, hp.length, hq.length, structSz, doubleSz]
  omega

end Stored.Full

/-! ## What the encoders write -/

/-- A frame that fits is written from the start of the buffer, and the bytes
behind it stay. -/
theorem copyBlocks_eq {p q : Stored} (hp : p.Full) (hq : q.Full) (buf : Bytes)
    (h : (frameBytes p q).length ≤ buf.length) :
    copyBlocks p q buf = some (frameBytes p q ++ buf.drop (frameBytes p q).length,
      totalLen p.toStruct q.toStruct) := by
  rw [frameBytes_length] at h
  have hpi : p.image.length = structSz + (wordBytes p.arr).length := by
    rw [Stored.image, List.length_append, Struct.bytes_length]
  have hqi : q.image.length = structSz + (wordBytes q.arr).length := by
    rw [Stored.image, List.length_append, Struct.bytes_length]
  have hs : p.bytes.length = structSz := p.bytes_length
  have hs' : q.bytes.length = structSz := q.bytes_length
  have h1 : writeAt buf 0 p.bytes = some (p.bytes ++ buf.drop p.bytes.length) :=
    writeAt_zero (by omega)
  have h2 : writeAt (p.bytes ++ buf.drop p.bytes.length) structSz (wordBytes p.arr) =
      some (p.image ++ buf.drop p.image.length) := by
    rw [← hs]
    exact writeAt_append buf rfl (by omega)
  have h3 : writeAt (p.image ++ buf.drop p.image.length) p.image.length q.bytes =
      some (p.image ++ q.bytes ++ buf.drop (p.image ++ q.bytes).length) :=
    writeAt_append buf rfl (by omega)
  have hl : (p.image ++ q.bytes).length = p.image.length + structSz := by
    rw [List.length_append, hs']
  have h4 : writeAt (p.image ++ q.bytes ++ buf.drop (p.image ++ q.bytes).length)
      (p.image.length + structSz) (wordBytes q.arr) =
      some (frameBytes p q ++ buf.drop (frameBytes p q).length) := by
    have hf : p.image ++ q.bytes ++ wordBytes q.arr = frameBytes p q := List.append_assoc ..
    rw [← hl, writeAt_append buf rfl (by omega), hf]
  simp only [copyBlocks, hp.dataSz, hq.dataSz, hp.blockSz, hp.elesOff, readAt_self, h1, h2, h3, h4,
    Option.bind_eq_bind, Option.bind_some]
  rfl

theorem Stored.Full.stamp {b : Stored} (h : b.Full) (age : BitVec 32) : (b.stamp age).Full :=
  ⟨h.nonneg, h.length⟩

/-- The server's encoder writes the frame of the stamped blocks. -/
theorem Server.rdmaSendTd_eq {s : Server} {P Q : Stored} {pbid qbid : BitVec 32} {buf : Bytes}
    (hP : P.Full) (hQ : Q.Full) (hp : entry s.pblocks pbid = some P)
    (hq : entry s.qblocks qbid = some Q) (age : BitVec 32)
    (h : (totalLen P.toStruct Q.toStruct).toNat ≤ buf.length) :
    s.rdmaSendTd pbid qbid age buf =
      some (⟨s.pblocks.set pbid.toInt.toNat (P.stamp age),
          s.qblocks.set qbid.toInt.toNat (Q.stamp age)⟩,
        frameBytes (P.stamp age) (Q.stamp age) ++
          buf.drop (frameBytes (P.stamp age) (Q.stamp age)).length,
        totalLen P.toStruct Q.toStruct) := by
  have hl := (hP.stamp age).totalLen (hQ.stamp age)
  have hc := copyBlocks_eq (hP.stamp age) (hQ.stamp age) buf (hl.symm.trans_le h)
  simp only [Server.rdmaSendTd, hp, hq, hc, Option.bind_eq_bind, Option.bind_some]
  rfl

/-! ## What the decoders read -/

/-- The fields of the header `s` can be read at `base`. -/
structure HeaderAt (s : Struct) (buf : Bytes) (base : ℕ) : Prop where
  blockId : loadInt buf (base + 0) = some s.blockId
  dataAge : loadInt buf (base + 4) = some s.dataAge
  staIdx : loadInt buf (base + 8) = some s.staIdx
  height : loadInt buf (base + 12) = some s.height
  eleNum : loadInt buf (base + 16) = some s.eleNum
  isP : loadBool buf (base + 20) = some s.isP

/-- A read inside a header. -/
theorem readAt_header {a : Bytes} {base off len : ℕ} (s : Struct) (c : Bytes)
    (ha : a.length = base) (h : off + len ≤ structSz) :
    readAt (a ++ (s.bytes ++ c)) (base + off) len = readAt s.bytes off len := by
  rw [← ha, readAt_append_right, readAt_append_left (by rwa [s.bytes_length])]

theorem loadInt_header {a : Bytes} {base off : ℕ} {s : Struct} {x : BitVec 32} (c : Bytes)
    (ha : a.length = base) (h : off + 4 ≤ structSz)
    (hx : readAt s.bytes off 4 = some (leBytes 4 x.toNat)) :
    loadInt (a ++ (s.bytes ++ c)) (base + off) = some x := by
  rw [loadInt, readAt_header s c ha h, hx, Option.map_some, ofNat_leValue_leBytes (n := 4) rfl]

theorem loadBool_header {a : Bytes} {base off : ℕ} {s : Struct} {x : BitVec 8} (c : Bytes)
    (ha : a.length = base) (h : off + 1 ≤ structSz)
    (hx : readAt s.bytes off 1 = some (leBytes 1 x.toNat)) :
    loadBool (a ++ (s.bytes ++ c)) (base + off) = some x := by
  rw [loadBool, readAt_header s c ha h, hx, Option.map_some, ofNat_leValue_leBytes (n := 1) rfl]

/-- Every field is at its offset. -/
theorem headerAt {a : Bytes} {base : ℕ} (s : Struct) (c : Bytes) (ha : a.length = base) :
    HeaderAt s (a ++ (s.bytes ++ c)) base where
  blockId := loadInt_header c ha (by decide) rfl
  dataAge := loadInt_header c ha (by decide) rfl
  staIdx := loadInt_header c ha (by decide) rfl
  height := loadInt_header c ha (by decide) rfl
  eleNum := loadInt_header c ha (by decide) rfl
  isP := loadBool_header c ha (by decide) rfl

/-- The elements behind a header. -/
theorem readAt_eles {a : Bytes} {base : ℕ} {b : Stored} (hb : b.Full) (c : Bytes)
    (ha : a.length = base) :
    readAt (a ++ (b.bytes ++ (wordBytes b.arr ++ c))) (base + structSz) (dataSz b.eleNum).toNat =
      some (wordBytes b.arr) := by
  rw [← List.append_assoc]
  exact readAt_middle (by rw [List.length_append, b.bytes_length, ha]) hb.dataSz.symm

/-- What the worker makes of the block `b` in a frame. -/
def Stored.received (m : Chunk) (b old : Stored) : Stored :=
  { old with
    blockId := b.blockId, staIdx := b.staIdx, height := b.height, eleNum := b.eleNum,
    eles := m.addr, arr := b.arr, dataAge := b.dataAge }

/-- What the server makes of the block `b` in a frame. -/
def Stored.stored (b old : Stored) : Stored :=
  { old with
    blockId := b.blockId, staIdx := b.staIdx, height := b.height, eleNum := b.eleNum,
    isP := b.isP, arr := b.arr ++ old.arr.drop b.arr.length, dataAge := b.dataAge }

theorem recvBlock_image {a : Bytes} {base : ℕ} {b : Stored} (hb : b.Full) (m : Chunk)
    (old : Stored) (c : Bytes) (ha : a.length = base) :
    recvBlock m (a ++ (b.image ++ c)) base old = some (b.received m old) := by
  have hh := headerAt b.toStruct (wordBytes b.arr ++ c) ha
  have he := readAt_eles hb c ha
  have hc : copyWords ((List.range b.eleNum.toInt.toNat).map m.word) (wordBytes b.arr) =
      some b.arr := by
    rw [copyWords_wordBytes (by simp [hb.length]), List.drop_eq_nil_of_le (by simp [hb.length]),
      List.append_nil]
  rw [Stored.image, List.append_assoc]
  simp only [recvBlock, hh.blockId, hh.staIdx, hh.height, hh.eleNum, hh.dataAge, he, hc,
    Option.bind_eq_bind, Option.bind_some]
  rfl

theorem storeBlock_image {a : Bytes} {base : ℕ} {b old : Stored} {blocks : List Stored}
    (hb : b.Full) (ho : entry blocks b.blockId = some old)
    (hroom : b.arr.length ≤ old.arr.length) (c : Bytes) (ha : a.length = base) :
    storeBlock (a ++ (b.image ++ c)) base blocks =
      some (blocks.set b.blockId.toInt.toNat (b.stored old)) := by
  have hh := headerAt b.toStruct (wordBytes b.arr ++ c) ha
  have he := readAt_eles hb c ha
  rw [Stored.image, List.append_assoc]
  simp only [storeBlock, hh.blockId, ho, hh.staIdx, hh.height, hh.eleNum, hh.isP, hh.dataAge, he,
    copyWords_wordBytes hroom, Option.bind_eq_bind, Option.bind_some]
  rfl

/-- `ele_num` of the P header, from which both decoders find the Q header. -/
theorem loadInt_eleNum (p : Stored) (c : Bytes) :
    loadInt (p.image ++ c) 16 = some p.eleNum := by
  rw [Stored.image, List.append_assoc]
  exact (headerAt p.toStruct (wordBytes p.arr ++ c) (a := []) rfl).eleNum

/-- The worker's decoder on a frame with any bytes behind it. -/
theorem Worker.rdmaRecvTd_frame {p q : Stored} (hp : p.Full) (hq : q.Full) (w : Worker)
    (mp mq : Chunk) (c : Bytes) :
    w.rdmaRecvTd mp mq (frameBytes p q ++ c) =
      some ⟨p.received mp w.pblock, q.received mq w.qblock⟩ := by
  have h1 : recvBlock mp (p.image ++ (q.image ++ c)) 0 w.pblock = some (p.received mp w.pblock) :=
    recvBlock_image hp mp w.pblock (q.image ++ c) (a := []) rfl
  have h2 := recvBlock_image hq mq w.qblock c (a := p.image) rfl
  rw [frameBytes, List.append_assoc]
  simp only [Worker.rdmaRecvTd, h1, loadInt_eleNum, hp.blockSz, h2, Option.bind_eq_bind,
    Option.bind_some]
  rfl

/-- The server's decoder on a frame with any bytes behind it. -/
theorem Server.rdmaRecvTd_frame {p q oldP oldQ : Stored} {s : Server} (hp : p.Full) (hq : q.Full)
    (hop : entry s.pblocks p.blockId = some oldP) (hoq : entry s.qblocks q.blockId = some oldQ)
    (hrp : p.arr.length ≤ oldP.arr.length) (hrq : q.arr.length ≤ oldQ.arr.length) (c : Bytes) :
    s.rdmaRecvTd (frameBytes p q ++ c) =
      some ⟨s.pblocks.set p.blockId.toInt.toNat (p.stored oldP),
        s.qblocks.set q.blockId.toInt.toNat (q.stored oldQ)⟩ := by
  have h1 : storeBlock (p.image ++ (q.image ++ c)) 0 s.pblocks =
      some (s.pblocks.set p.blockId.toInt.toNat (p.stored oldP)) :=
    storeBlock_image hp hop hrp (q.image ++ c) (a := []) rfl
  have h2 := storeBlock_image hq hoq hrq c (a := p.image) rfl
  rw [frameBytes, List.append_assoc]
  simp only [Server.rdmaRecvTd, h1, loadInt_eleNum, hp.blockSz, h2, Option.bind_eq_bind,
    Option.bind_some]
  rfl

theorem entry_set {blocks : List Stored} {idx : BitVec 32} {old : Stored} (b : Stored)
    (h : entry blocks idx = some old) : entry (blocks.set idx.toInt.toNat b) idx = some b := by
  by_cases hi : 0 ≤ idx.toInt
  · rw [entry, if_pos hi] at h
    obtain ⟨hlt, -⟩ := List.getElem?_eq_some_iff.mp h
    rw [entry, if_pos hi, List.getElem?_set_self hlt]
  · rw [entry, if_neg hi] at h
    cases h

/-! ## Equality up to the raw bytes -/

/-- The `int` fields of two headers agree. -/
structure Struct.SameInts (a b : Struct) : Prop where
  blockId : a.blockId = b.blockId
  dataAge : a.dataAge = b.dataAge
  staIdx : a.staIdx = b.staIdx
  height : a.height = b.height
  eleNum : a.eleNum = b.eleNum

/-- Two blocks agree in their `int` fields and in their arrays. -/
structure Stored.Agrees (a b : Stored) : Prop extends a.SameInts b.toStruct where
  arr : a.arr = b.arr

/-- The offsets of `isP`, the padding and the pointer of the two headers. -/
def RawByte (pTotal i : ℕ) : Prop :=
  (20 ≤ i ∧ i < structSz) ∨ (pTotal + 20 ≤ i ∧ i < pTotal + structSz)

theorem Struct.SameInts.ints {a b : Struct} (h : a.SameInts b) : a.ints = b.ints := by
  rw [Struct.ints, Struct.ints, h.blockId, h.dataAge, h.staIdx, h.height, h.eleNum]

namespace Stored.Agrees

variable {a b p p' q q' : Stored}

theorem full (h : a.Agrees b) (hb : b.Full) : a.Full :=
  ⟨h.eleNum ▸ hb.nonneg, by rw [h.arr, h.eleNum, hb.length]⟩

theorem image_length (h : a.Agrees b) : a.image.length = b.image.length := by
  rw [a.image_length, b.image_length, h.arr]

theorem image_getElem? (h : a.Agrees b) {i : ℕ} (hi : ¬(20 ≤ i ∧ i < structSz)) :
    a.image[i]? = b.image[i]? := by
  simp only [Stored.image, Struct.bytes, h.ints, h.arr, List.append_assoc, List.getElem?_append,
    Struct.ints_length, Struct.raw_length]
  rw [structSz] at hi
  split
  · rfl
  · rw [if_neg (by omega), if_neg (by omega)]

theorem frameBytes_length (hp : p.Agrees p') (hq : q.Agrees q') :
    (frameBytes p q).length = (frameBytes p' q').length := by
  rw [Codec.frameBytes_length, Codec.frameBytes_length, hp.image_length, hq.image_length]

theorem frameBytes_getElem? (hp : p.Agrees p') (hq : q.Agrees q') {i : ℕ}
    (hi : ¬RawByte p'.image.length i) : (frameBytes p q)[i]? = (frameBytes p' q')[i]? := by
  rw [RawByte, not_or] at hi
  rw [frameBytes, frameBytes, List.getElem?_append, List.getElem?_append, hp.image_length]
  split
  · exact hp.image_getElem? hi.1
  · exact hq.image_getElem? (by omega)

end Stored.Agrees

theorem Stored.received_agrees (m : Chunk) (b old : Stored) : (b.received m old).Agrees b :=
  ⟨⟨rfl, rfl, rfl, rfl, rfl⟩, rfl⟩

/-! ## Round trips -/

/-- `blocks'` is `blocks` with the block `b` in the entry it names.  An array
that is longer than needed keeps its other elements. -/
structure Stores (b : Stored) (blocks blocks' : List Stored) : Prop where
  entry : ∃ e, entry blocks' b.blockId = some e ∧ e.SameInts b.toStruct ∧
    e.arr.take b.arr.length = b.arr
  others : ∀ j, j ≠ b.blockId.toInt.toNat → blocks'[j]? = blocks[j]?

theorem stores_set {b old : Stored} {blocks : List Stored}
    (h : entry blocks b.blockId = some old) :
    Stores b blocks (blocks.set b.blockId.toInt.toNat (b.stored old)) where
  entry := ⟨b.stored old, entry_set _ h, ⟨rfl, rfl, rfl, rfl, rfl⟩, List.take_left' rfl⟩
  others _ hj := List.getElem?_set_ne hj.symm

/-- From the server to a worker and into the worker's next frame. -/
theorem frame_down {P Q : Stored} (hP : P.Full) (hQ : Q.Full)
    (hlen : (totalLen P.toStruct Q.toStruct).toNat ≤ bufferSize) {s : Server}
    {pbid qbid : BitVec 32} (hp : entry s.pblocks pbid = some P)
    (hq : entry s.qblocks qbid = some Q) (toSendIter : BitVec 32) {buf buf' : Bytes}
    (hb : buf.length = bufferSize) (hb' : buf'.length = bufferSize) (w : Worker) (mp mq : Chunk) :
    ∃ s' f n w' f', s.rdmaSendTd pbid qbid toSendIter buf = some (s', f, n) ∧
      n = totalLen P.toStruct Q.toStruct ∧
      w.rdmaRecvTd mp mq f = some w' ∧
      w'.pblock.Agrees (P.stamp toSendIter) ∧ w'.qblock.Agrees (Q.stamp toSendIter) ∧
      (∀ rest, w.rdmaRecvTd mp mq (f.take n.toNat ++ rest) = some w') ∧
      w'.rdmaSendTd buf' = some (f', n) ∧
      ∀ i < n.toNat, ¬RawByte (blockSz P.eleNum).toNat i → f'[i]? = f[i]? := by
  have hsend := Server.rdmaSendTd_eq hP hQ hp hq toSendIter (hlen.trans_eq hb.symm)
  have hP' := hP.stamp toSendIter
  have hQ' := hQ.stamp toSendIter
  have hl : (totalLen P.toStruct Q.toStruct).toNat =
      (frameBytes (P.stamp toSendIter) (Q.stamp toSendIter)).length := hP'.totalLen hQ'
  have hpa := Stored.received_agrees mp (P.stamp toSendIter) w.pblock
  have hqa := Stored.received_agrees mq (Q.stamp toSendIter) w.qblock
  have hl' := hpa.frameBytes_length hqa
  have hresend := copyBlocks_eq (hpa.full hP') (hqa.full hQ') buf' (by omega)
  refine ⟨_, _, _, _, _, hsend, rfl, w.rdmaRecvTd_frame hP' hQ' mp mq _, hpa, hqa,
    fun rest => ?_, hresend, fun i hi hraw => ?_⟩
  · rw [List.take_left' hl.symm]
    exact w.rdmaRecvTd_frame hP' hQ' mp mq rest
  · have hpt : (blockSz P.eleNum).toNat = (P.stamp toSendIter).image.length := hP'.blockSz
    rw [hpt] at hraw
    rw [List.getElem?_append_left (by omega), List.getElem?_append_left (by omega)]
    exact hpa.frameBytes_getElem? hqa hraw

/-- From a worker to the server. -/
theorem frame_up {P Q : Stored} (hP : P.Full) (hQ : Q.Full)
    (hlen : (totalLen P.toStruct Q.toStruct).toNat ≤ bufferSize) {s : Server} {oldP oldQ : Stored}
    (hop : entry s.pblocks P.blockId = some oldP) (hoq : entry s.qblocks Q.blockId = some oldQ)
    (hrp : P.arr.length ≤ oldP.arr.length) (hrq : Q.arr.length ≤ oldQ.arr.length) {buf : Bytes}
    (hb : buf.length = bufferSize) :
    ∃ f n s', (Worker.mk P Q).rdmaSendTd buf = some (f, n) ∧
      n = totalLen P.toStruct Q.toStruct ∧
      s.rdmaRecvTd f = some s' ∧
      Stores P s.pblocks s'.pblocks ∧ Stores Q s.qblocks s'.qblocks ∧
      ∀ rest, s.rdmaRecvTd (f.take n.toNat ++ rest) = some s' := by
  have hl := hP.totalLen hQ
  have hsend := copyBlocks_eq hP hQ buf (by omega)
  have hdec := Server.rdmaRecvTd_frame hP hQ hop hoq hrp hrq
  refine ⟨_, _, _, hsend, rfl, hdec _, stores_set hop, stores_set hoq, fun rest => ?_⟩
  rw [List.take_left' hl.symm]
  exact hdec rest

/-- The codec round-trips in both directions.  A decoder gives the same result
on the first `total_len` bytes alone and with anything behind them. -/
theorem round_trip {P Q : Stored} (hP : P.Full) (hQ : Q.Full)
    (hlen : (totalLen P.toStruct Q.toStruct).toNat ≤ bufferSize) :
    (∀ (s : Server) (pbid qbid toSendIter : BitVec 32) (buf buf' : Bytes) (w : Worker)
      (mp mq : Chunk), entry s.pblocks pbid = some P → entry s.qblocks qbid = some Q →
      buf.length = bufferSize → buf'.length = bufferSize →
      ∃ s' f n w' f', s.rdmaSendTd pbid qbid toSendIter buf = some (s', f, n) ∧
        n = totalLen P.toStruct Q.toStruct ∧
        w.rdmaRecvTd mp mq f = some w' ∧
        w'.pblock.Agrees (P.stamp toSendIter) ∧ w'.qblock.Agrees (Q.stamp toSendIter) ∧
        (∀ rest, w.rdmaRecvTd mp mq (f.take n.toNat ++ rest) = some w') ∧
        w'.rdmaSendTd buf' = some (f', n) ∧
        ∀ i < n.toNat, ¬RawByte (blockSz P.eleNum).toNat i → f'[i]? = f[i]?) ∧
    (∀ (s : Server) (buf : Bytes) (oldP oldQ : Stored),
      entry s.pblocks P.blockId = some oldP → entry s.qblocks Q.blockId = some oldQ →
      P.arr.length ≤ oldP.arr.length → Q.arr.length ≤ oldQ.arr.length →
      buf.length = bufferSize →
      ∃ f n s', (Worker.mk P Q).rdmaSendTd buf = some (f, n) ∧
        n = totalLen P.toStruct Q.toStruct ∧
        s.rdmaRecvTd f = some s' ∧
        Stores P s.pblocks s'.pblocks ∧ Stores Q s.qblocks s'.qblocks ∧
        ∀ rest, s.rdmaRecvTd (f.take n.toNat ++ rest) = some s') :=
  ⟨fun _ _ _ toSendIter _ _ w mp mq hp hq hb hb' =>
      frame_down hP hQ hlen hp hq toSendIter hb hb' w mp mq,
    fun _ _ _ _ hop hoq hrp hrq hb => frame_up hP hQ hlen hop hoq hrp hrq hb⟩

/-- Blocks of one and two elements, over buffers with other bytes in them. -/
theorem round_trip_small :
    let P : Stored := ⟨⟨1, 0, 3, 1, 1, 7, 5, 99⟩, [42]⟩
    let Q : Stored := ⟨⟨0, 0, 0, 2, 2, 0, 1, 98⟩, [43, 44]⟩
    let s : Server := ⟨[Q, P], [Q]⟩
    let buf := List.replicate bufferSize 9
    (∃ s' f w', s.rdmaSendTd 1 0 4 buf = some (s', f, 88) ∧
      (Worker.mk Q Q).rdmaRecvTd ⟨96, fun _ => 0⟩ ⟨97, fun _ => 0⟩ f = some w' ∧
      w'.pblock.dataAge = 4 ∧ w'.pblock.arr = [42] ∧ w'.qblock.arr = [43, 44]) ∧
    ∃ f s', (Worker.mk P Q).rdmaSendTd buf = some (f, 88) ∧ s.rdmaRecvTd f = some s' ∧
      Stores P [Q, P] s'.pblocks := by
  intro P Q s buf
  have hP : P.Full := ⟨by decide, rfl⟩
  have hQ : Q.Full := ⟨by decide, rfl⟩
  obtain ⟨down, up⟩ := round_trip hP hQ (by decide)
  have hb : buf.length = bufferSize := List.length_replicate
  obtain ⟨s₁, f₁, n₁, w', f', hf₁, rfl, hw, hwp, hwq, -⟩ :=
    down s 1 0 4 buf buf (Worker.mk Q Q) ⟨96, fun _ => 0⟩ ⟨97, fun _ => 0⟩ rfl rfl hb hb
  obtain ⟨f₂, n₂, s', hf₂, rfl, hs, hp, -⟩ := up s buf P Q rfl rfl le_rfl le_rfl hb
  exact ⟨⟨s₁, f₁, w', hf₁, hw, hwp.dataAge, hwp.arr, hwq.arr⟩, f₂, s', hf₂, hs, hp⟩

/-! ## Bytes and fields -/

/-- The values of the fields. -/
def Struct.header (s : Struct) : Header :=
  ⟨s.blockId.toInt, s.dataAge.toInt, s.staIdx.toInt, s.height.toInt, s.eleNum.toInt, s.isP != 0⟩

/-- The block that is stored. -/
def Stored.block (b : Stored) : Block (BitVec 64) := ⟨b.header, b.arr⟩

theorem Stored.Full.block {b : Stored} (h : b.Full) : b.block.Full := h.length

theorem Stored.Full.totalLen_block {p q : Stored} (hp : p.Full) (hq : q.Full) :
    (Codec.totalLen p.toStruct q.toStruct).toNat = StellarBench.totalLen p.block q.block := by
  rw [hp.totalLen hq, frameBytes_length, p.image_length, q.image_length, hp.length, hq.length]
  rfl

theorem recvBlock_refines {b : Stored} (hb : b.Full) (m : Chunk) (old : Stored) :
    (b.received m old).block =
      Frame.workerDecode b.block.toHeader b.block.payload old.block := by
  have ht : b.block.payload.take b.eleNum.toInt.toNat = b.arr := by
    rw [hb.block.payload, ← hb.length]
    exact List.take_length
  exact (congrArg (Block.mk _) ht).symm

theorem storeBlock_refines {b : Stored} (hb : b.Full) (old : Stored) :
    (b.stored old).block = Frame.psDecode b.block.toHeader b.block.payload old.block := by
  have ht : copyEles old.arr b.block.payload b.eleNum.toInt.toNat =
      b.arr ++ old.arr.drop b.arr.length := by
    rw [copyEles, hb.block.payload, ← hb.length]
    exact congrArg (· ++ _) List.take_length
  exact (congrArg (Block.mk _) ht).symm

/-- The worker's decoder on the bytes of a frame is its decoder on the fields. -/
theorem Worker.rdmaRecvTd_refines {p q : Stored} {w w' : Worker} {mp mq : Chunk} {c : Bytes}
    (hp : p.Full) (hq : q.Full) (h : w.rdmaRecvTd mp mq (frameBytes p q ++ c) = some w') :
    w'.pblock.block = Frame.workerDecodeP (Frame.ofBlocks p.block q.block) w.pblock.block ∧
      w'.qblock.block = Frame.workerDecodeQ (Frame.ofBlocks p.block q.block) w.qblock.block := by
  rw [Worker.rdmaRecvTd_frame hp hq] at h
  obtain rfl := Option.some.inj h
  exact ⟨recvBlock_refines hp mp w.pblock, recvBlock_refines hq mq w.qblock⟩

/-- The same for the server, in the two entries that the frame names. -/
theorem Server.rdmaRecvTd_refines {p q oldP oldQ : Stored} {s : Server} (hp : p.Full)
    (hq : q.Full) (hop : entry s.pblocks p.blockId = some oldP)
    (hoq : entry s.qblocks q.blockId = some oldQ) (hrp : p.arr.length ≤ oldP.arr.length)
    (hrq : q.arr.length ≤ oldQ.arr.length) (c : Bytes) :
    ∃ s' p' q', s.rdmaRecvTd (frameBytes p q ++ c) = some s' ∧
      entry s'.pblocks p.blockId = some p' ∧ entry s'.qblocks q.blockId = some q' ∧
      p'.block = Frame.psDecodeP (Frame.ofBlocks p.block q.block) oldP.block ∧
      q'.block = Frame.psDecodeQ (Frame.ofBlocks p.block q.block) oldQ.block :=
  ⟨_, _, _, Server.rdmaRecvTd_frame hp hq hop hoq hrp hrq c, entry_set _ hop, entry_set _ hoq,
    storeBlock_refines hp oldP, storeBlock_refines hq oldQ⟩

end StellarBench.Codec
