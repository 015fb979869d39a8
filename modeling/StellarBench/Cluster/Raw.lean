import StellarBench.Matrix.Codec
import StellarBench.Cluster.Model

/-!
# The cluster in memory

`RawCluster n` is `Cluster n` with memory in place of values.  A block is a
`struct Block` with padding and pointer, a buffer is a list of bytes, and
`Pblocks` and `Qblocks` are arrays of `CAP` entries.  The encoders and the
decoders run a step at a time, each on its own locals.

A step is `none` when the thread sleeps and `some none` when an access leaves its
region.  Nothing moves after that.  The counters are integers here as well, and
their bounds are the subject of `Cluster.Exit`.
-/

namespace StellarBench

open Codec (Stored Chunk entry loadInt storeBlock recvBlock blockSz)

variable {n : ℕ}

/-- `CAP`. -/
def cap : ℕ := 2000

/-- An RDMA write copies from the start of the source to the start of the target. -/
instance : Region Bytes where
  write len src dst := src.take len ++ dst.drop len

/-! ## The encoder -/

namespace Codec

/-- `p_data_sz` and `q_data_sz`, which an encoder reads before it copies. -/
structure Sizes where
  pData : BitVec 64
  qData : BitVec 64
deriving DecidableEq

namespace Sizes

def of (p q : Struct) : Sizes := ⟨dataSz p.eleNum, dataSz q.eleNum⟩

def pTotal (z : Sizes) : BitVec 64 := BitVec.ofNat 64 structSz + z.pData

def qTotal (z : Sizes) : BitVec 64 := BitVec.ofNat 64 structSz + z.qData

def totalLen (z : Sizes) : BitVec 64 := z.pTotal + z.qTotal

end Sizes

/-- `memcpy` of `src` into a send buffer. -/
def copyTo (c : Conn Bytes) (off : ℕ) (src : Bytes) : Option (Conn Bytes) :=
  (writeAt c.client.buffer off src).map fun buf => c.modifyBuffer fun _ => buf

/-- `memcpy` of `len` bytes behind `eles` into a send buffer. -/
def copyElesTo (c : Conn Bytes) (off : ℕ) (b : Stored) (len : BitVec 64) : Option (Conn Bytes) :=
  (readAt (wordBytes b.arr) 0 len.toNat).bind (copyTo c off)

/-- The copies, the length and the announcement, the same in both programs. -/
def sendBody (z : Sizes) (p q : Stored) (c : Conn Bytes) :
    SendPc → Option (Option (SendPc × Conn Bytes))
  | .headP => some ((copyTo c 0 p.bytes).map (.elesP, ·))
  | .elesP => some ((copyElesTo c structSz p z.pData).map (.headQ, ·))
  | .headQ => some ((copyTo c z.pTotal.toNat q.bytes).map (.elesQ, ·))
  | .elesQ => some ((copyElesTo c (z.pTotal + BitVec.ofNat 64 structSz).toNat q z.qData).map
      (.setLen, ·))
  | .setLen => some (some (.announce, c.setBufLen z.totalLen.toNat))
  | .announce => some (some (.count, c.announce))
  | _ => none

end Codec

/-! ## State -/

/-- The globals of one `worker` process, and the sizes its encoder has read. -/
structure RawWorker where
  iterT : ℤ
  recvedAge : ℤ
  toSendAge : ℤ
  completedIter : ℤ
  pblock : Stored
  qblock : Stored
  sizes : Codec.Sizes
  mainPc : WorkerPc
  sendPc : SendPc
  recvPc : RecvPc

/-- Worker `i`, its two connections and the part of `ps` that serves it alone.
`pTotal` is a local of the decoder. -/
structure RawLane where
  toSendIter : ℤ
  recvedIter : ℤ
  sizes : Codec.Sizes
  pTotal : BitVec 64
  sendPc : SendPc
  recvPc : RecvPc
  worker : RawWorker
  down : Conn Bytes
  up : Conn Bytes

/-- The whole system. -/
structure RawCluster (n : ℕ) where
  iterT : ℤ
  completedIter : ℤ
  mainPc : MainPc
  pblocks : List Stored
  qblocks : List Stored
  lane : Fin n → RawLane

/-- What a run is given apart from the update: the sizes of the problem, the initial elements,
the registered regions, the fresh buffers of the connections to the workers (`true`) and
back, the arrays of the partition and those that worker `i` allocates after `recved_age`. -/
structure RawInput (n : ℕ) where
  rowsP : ℕ
  rowsQ : ℕ
  dim : ℕ
  initP : ℕ → ℕ → BitVec 64
  initQ : ℕ → ℕ → BitVec 64
  downMr : Fin n → Mr
  upMr : Fin n → Mr
  sendBuf : Fin n → Bool → Bytes
  recvBuf : Fin n → Bool → Bytes
  sendBuf_length : ∀ i d, (sendBuf i d).length = bufferSize
  recvBuf_length : ∀ i d, (recvBuf i d).length = bufferSize
  addrP : ℕ → BitVec 64
  addrQ : ℕ → BitVec 64
  mallocP : Fin n → ℤ → Chunk
  mallocQ : Fin n → ℤ → Chunk

/-- What a run is given. -/
structure RawJob (n : ℕ) extends RawInput n where
  update : Update n (BitVec 64)

namespace RawCluster

def setLane (s : RawCluster n) (i : Fin n) (l : RawLane) : RawCluster n :=
  { s with lane := Function.update s.lane i l }

/-! ## The threads of `ps` -/

/-- The main loop. -/
def mainStep (s : RawCluster n) : Option (RawCluster n) :=
  match s.mainPc with
  | .scan j =>
      if h : j < n then
        if s.iterT > (s.lane ⟨j, h⟩).recvedIter + 1 then some { s with mainPc := .scan 0 }
        else some { s with mainPc := .scan (j + 1) }
      else some { s with mainPc := .merge }
  | .merge => some { s with completedIter := s.iterT, mainPc := .incr }
  | .incr => some { s with
      iterT := s.iterT + 1, mainPc := if s.iterT + 1 = 1200 then .exited else .scan 0 }
  | .exited => none

/-- `rdma_sendTd` of `ps`.  The sizes are read before the two stamps. -/
def psSendTd (s : RawCluster n) (i : Fin n) : Option (Option (RawCluster n)) :=
  let l := s.lane i
  let bid := BitVec.ofInt 32 (workerPidx i)
  match l.sendPc with
  | .test =>
      if psCanSend l.toSendIter s.completedIter then
        some (some (s.setLane i { l with sendPc := .stamp }))
      else none
  | .stamp => some do
      let p ← entry s.pblocks bid
      let q ← entry s.qblocks bid
      let age := BitVec.ofInt 32 l.toSendIter
      return { s.setLane i { l with
          sendPc := .headP, sizes := .of p.toStruct q.toStruct } with
        pblocks := s.pblocks.set bid.toInt.toNat (p.stamp age)
        qblocks := s.qblocks.set bid.toInt.toNat (q.stamp age) }
  | .count => some (some (s.setLane i { l with sendPc := .test, toSendIter := l.toSendIter + 1 }))
  | pc =>
      match entry s.pblocks bid, entry s.qblocks bid with
      | some p, some q => (Codec.sendBody l.sizes p q l.down pc).map <| Option.map fun r =>
          s.setLane i { l with sendPc := r.1, down := r.2 }
      | _, _ => some none

/-- `rdma_recvTd` of `ps`. -/
def psRecvTd (s : RawCluster n) (i : Fin n) : Option (Option (RawCluster n)) :=
  let l := s.lane i
  let buf := l.up.server.buffer
  match l.recvPc with
  | .test =>
      if l.recvedIter + 1 > l.up.server.bufRecvCounter - 1 then none
      else some (some (s.setLane i { l with recvPc := .decodeP }))
  | .decodeP => some do
      let blockIdx ← loadInt buf 0
      let pblocks ← storeBlock buf 0 s.pblocks
      let eleNum ← loadInt buf 16
      return { s.setLane i { l with
          recvPc := .decodeQ blockIdx.toInt, pTotal := blockSz eleNum } with
        pblocks := pblocks }
  | .decodeQ pIdx => some do
      let blockIdx ← loadInt buf l.pTotal.toNat
      let qblocks ← storeBlock buf l.pTotal.toNat s.qblocks
      return { s.setLane i { l with recvPc := .count pIdx blockIdx.toInt } with
        qblocks := qblocks }
  | .count _ _ =>
      some (some (s.setLane i { l with recvPc := .flag, recvedIter := l.recvedIter + 1 }))
  | .flag => some (some (s.setLane i { l with recvPc := .test, up := l.up.ack }))

/-! ## The threads of `worker` -/

/-- The main loop of worker `i`.  `FakeSubMF` gets the blocks and no memory besides. -/
def workerMain (u : Update n (BitVec 64)) (i : Fin n) (l : RawLane) : Option RawLane :=
  let w := l.worker
  match w.mainPc with
  | .test =>
      if canCompute w.iterT w.recvedAge then some { l with worker := { w with mainPc := .compute } }
      else none
  | .compute =>
      let e := u.run i w.iterT w.pblock.block w.qblock.block
      some { l with worker := { w with
        pblock := { w.pblock with arr := e.1 }, qblock := { w.qblock with arr := e.2 },
        mainPc := .done } }
  | .done => some { l with worker := { w with completedIter := w.iterT, mainPc := .incr } }
  | .incr => some { l with worker := { w with iterT := w.iterT + 1, mainPc := .test } }

/-- `rdma_sendTd` of `worker`.  The sizes are read with the first copy. -/
def workerSendTd (l : RawLane) : Option (Option RawLane) :=
  let w := l.worker
  match w.sendPc with
  | .test =>
      if workerCanSend w.toSendAge w.completedIter then
        some (some { l with worker := { w with sendPc := .headP } })
      else none
  | .count =>
      some (some { l with worker := { w with sendPc := .test, toSendAge := w.toSendAge + 1 } })
  | pc =>
      let z := if pc = .headP then .of w.pblock.toStruct w.qblock.toStruct else w.sizes
      (Codec.sendBody z w.pblock w.qblock l.up pc).map <| Option.map fun r =>
        { l with worker := { w with sendPc := r.1, sizes := z }, up := r.2 }

/-- `rdma_recvTd` of `worker`. -/
def workerRecvTd (mp mq : ℤ → Chunk) (l : RawLane) : Option (Option RawLane) :=
  let w := l.worker
  let buf := l.down.server.buffer
  match w.recvPc with
  | .test =>
      if w.recvedAge + 1 ≥ l.down.server.bufRecvCounter then none
      else some (some { l with worker := { w with recvPc := .decodeP } })
  | .decodeP => some do
      let p ← recvBlock (mp w.recvedAge) buf 0 w.pblock
      return { l with worker := { w with pblock := p, recvPc := .decodeQ p.blockId.toInt } }
  | .decodeQ pIdx => some do
      let eleNum ← loadInt buf 16
      let q ← recvBlock (mq w.recvedAge) buf (blockSz eleNum).toNat w.qblock
      return { l with worker := { w with qblock := q, recvPc := .count pIdx q.blockId.toInt } }
  | .count _ _ =>
      some (some { l with worker := { w with recvedAge := w.recvedAge + 1, recvPc := .flag } })
  | .flag => some (some { l with worker := { w with recvPc := .test }, down := l.down.ack })

/-! ## The system -/

/-- One step of the whole system. -/
def step (j : RawJob n) (s : RawCluster n) : Act n → Option (Option (RawCluster n))
  | .main => s.mainStep.map some
  | .psSend i => s.psSendTd i
  | .psRecv i => s.psRecvTd i
  | .workerMain i => (workerMain j.update i (s.lane i)).map fun l => some (s.setLane i l)
  | .workerSend i => (workerSendTd (s.lane i)).map <| Option.map (s.setLane i)
  | .workerRecv i =>
      (workerRecvTd (j.mallocP i) (j.mallocQ i) (s.lane i)).map <| Option.map (s.setLane i)
  | .down i a => ((s.lane i).down.step a).map fun c =>
      some (s.setLane i { s.lane i with down := c })
  | .up i a => ((s.lane i).up.step a).map fun c =>
      some (s.setLane i { s.lane i with up := c })

end RawCluster

/-! ## Start of a run -/

/-- `struct Block` with the fields of `b`, where `eles` is `addr`. -/
def Codec.Stored.ofBlock (addr : BitVec 64) (b : Block (BitVec 64)) : Stored where
  blockId := BitVec.ofInt 32 b.blockId
  dataAge := BitVec.ofInt 32 b.dataAge
  staIdx := BitVec.ofInt 32 b.staIdx
  height := BitVec.ofInt 32 b.height
  eleNum := BitVec.ofInt 32 b.eleNum
  isP := if b.isP then 1 else 0
  padding := 0
  eles := addr
  arr := b.eles

/-- The zero-initialised globals of a worker. -/
def RawWorker.start : RawWorker where
  iterT := 0
  recvedAge := -1
  toSendAge := 0
  completedIter := -1
  pblock := .ofBlock 0 .zero
  qblock := .ofBlock 0 .zero
  sizes := ⟨0, 0⟩
  mainPc := .test
  sendPc := .test
  recvPc := .test

namespace RawJob

/-- The same run over values. -/
def job (j : RawJob n) : Job n (BitVec 64) where
  rowsP := j.rowsP
  rowsQ := j.rowsQ
  dim := j.dim
  initP := j.initP
  initQ := j.initQ
  update := j.update
  downMr := j.downMr
  upMr := j.upMr
  blank := ⟨⟨0, 0, 0, 0, 0, false⟩, [], ⟨0, 0, 0, 0, 0, false⟩, []⟩

/-- `Pblocks` after `partitionBlock` and the loop that sets the elements. -/
def startP (j : RawJob n) : List Stored :=
  (List.range cap).map fun z => .ofBlock (j.addrP z) (j.job.startP (z : ℕ))

/-- `Qblocks` likewise. -/
def startQ (j : RawJob n) : List Stored :=
  (List.range cap).map fun z => .ofBlock (j.addrQ z) (j.job.startQ (z : ℕ))

def startLane (j : RawJob n) (i : Fin n) : RawLane where
  toSendIter := 0
  recvedIter := -1
  sizes := ⟨0, 0⟩
  pTotal := 0
  sendPc := .test
  recvPc := .test
  worker := .start
  down := .established (j.sendBuf i true) (j.recvBuf i true) 0 (j.downMr i) false
  up := .established (j.sendBuf i false) (j.recvBuf i false) 0 (j.upMr i) false

/-- The state when the main loop of `ps` starts. -/
def start (j : RawJob n) : RawCluster n where
  iterT := 0
  completedIter := -1
  mainPc := .scan 0
  pblocks := j.startP
  qblocks := j.startQ
  lane := j.startLane

/-- The composed system.  A state is `none` after an access outside its region. -/
def system (j : RawJob n) : System (Option (RawCluster n)) (Act n) where
  init x := x = some j.start
  step x a := x.bind fun s => s.step j a

end RawJob

end StellarBench
