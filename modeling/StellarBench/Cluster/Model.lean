import StellarBench.Matrix.Frame
import StellarBench.Transport.Connection

/-!
# The parameter server and its workers

`Cluster n α` is the composed system of `ps` with `worker_num = n` and of `n`
workers, after all connections are established and registered.  Worker `i` and
the threads that `ps` runs for it share two connections, `down` to the worker
and `up` to the server.  Together they are one `Lane`.

Every thread is a program counter, and one step is one access to memory that
another thread can see, one `memcpy` or one half of a decoder.  A thread that
sleeps on a false guard has no step.  Only the loop of `CanMerge` takes steps
before it fails, because it reads one entry of `recved_iter` after the other.

`FakeSubMF` is a parameter (`Update`), and an update never faults.  A frame is copied
whole by an RDMA write (`Region (Frame α)`): frames are taken to fit the registered
buffers.  So this covers the program over bytes for `worker_num ≤ CAP` and frames that
fit (`RawJob.Exact.same_runs_iff`), as long as no worker divides by zero.  Where
something faults instead is the subject of `Cluster.Program`.  `exit(0)` stops the main
thread of `ps`.  The other threads may run on for a while or not.
-/

namespace StellarBench

variable {n : ℕ} {α : Type}

instance : Region (Frame α) where
  write _ src _ := src

/-! ## Program counters -/

/-- Where a `rdma_sendTd` stands: at its guard, before one of the stores and
copies of its body, or before the increment of its counter. -/
inductive SendPc where
  | test | stamp | headP | elesP | headQ | elesQ | setLen | announce | count
deriving DecidableEq, Repr

/-- Where a `rdma_recvTd` stands: at its guard, before the P or the Q half of
the decoder, before its counter or before `can_recv = true`.  The halves that
are done leave the index of the block they stored to. -/
inductive RecvPc where
  | test
  | decodeP
  | decodeQ (pIdx : ℤ)
  | count (pIdx qIdx : ℤ)
  | flag
deriving DecidableEq, Repr

/-- Where the main loop of a worker stands. -/
inductive WorkerPc where
  | test | compute | done | incr
deriving DecidableEq, Repr

/-- Where the main loop of the server stands.  `scan j` is `CanMerge` before it
reads `r_iter[j]`. -/
inductive MainPc where
  | scan (j : ℕ)
  | merge | incr | exited
deriving DecidableEq, Repr

/-! ## State -/

/-- The globals of one `worker` process. -/
structure Worker (α : Type) where
  iterT : ℤ
  recvedAge : ℤ
  toSendAge : ℤ
  completedIter : ℤ
  pblock : Block α
  qblock : Block α
  mainPc : WorkerPc
  sendPc : SendPc
  recvPc : RecvPc

/-- Worker `i`, its two connections and the part of `ps` that serves it alone. -/
structure Lane (α : Type) where
  toSendIter : ℤ
  recvedIter : ℤ
  sendPc : SendPc
  recvPc : RecvPc
  worker : Worker α
  down : Conn (Frame α)
  up : Conn (Frame α)

/-- The whole system. -/
structure Cluster (n : ℕ) (α : Type) where
  iterT : ℤ
  completedIter : ℤ
  mainPc : MainPc
  pblocks : ℤ → Block α
  qblocks : ℤ → Block α
  lane : Fin n → Lane α

/-- The threads and the network, as the possible next movers. -/
inductive Act (n : ℕ) where
  | main
  | psSend (i : Fin n)
  | psRecv (i : Fin n)
  | workerMain (i : Fin n)
  | workerSend (i : Fin n)
  | workerRecv (i : Fin n)
  | down (i : Fin n) (a : ConnAct)
  | up (i : Fin n) (a : ConnAct)
deriving DecidableEq

/-- The numerical work of each worker in each round.  It returns the new
elements of both blocks and keeps the sizes of the arrays. -/
structure Update (n : ℕ) (α : Type) where
  run : Fin n → ℤ → Block α → Block α → List α × List α
  length_fst : ∀ i k p q, (run i k p q).1.length = p.eles.length
  length_snd : ∀ i k p q, (run i k p q).2.length = q.eles.length

/-- What a run of the system is given: the sizes `N`, `M`, `K` of the problem, the
initial elements, the update, the registered regions and what is in a buffer
before it is first written. -/
structure Job (n : ℕ) (α : Type) where
  rowsP : ℕ
  rowsQ : ℕ
  dim : ℕ
  initP : ℕ → ℕ → α
  initQ : ℕ → ℕ → α
  update : Update n α
  downMr : Fin n → Mr
  upMr : Fin n → Mr
  blank : Frame α

/-! ## Guards of the source -/

/-- `CanMerge` of `ps`. -/
def canMerge (comingIter : ℤ) : List ℤ → Bool
  | [] => true
  | r :: rs => if comingIter > r + 1 then false else canMerge comingIter rs

/-- `CanSend` of `ps`. -/
def psCanSend (toSendIter completedAge : ℤ) : Bool :=
  if toSendIter ≤ completedAge then true else false

/-- `CanCompute` of `worker`. -/
def canCompute (comingIter recvedAge : ℤ) : Bool :=
  if comingIter ≤ recvedAge then true else false

/-- `CanSend` of `worker`. -/
def workerCanSend (toSendIter completedAge : ℤ) : Bool :=
  if toSendIter = completedAge then true else false

/-- `worker_pidx[i]` and `worker_qidx[i]`, which keep their initial value. -/
def workerPidx (i : Fin n) : ℤ := (i : ℕ)

namespace Cluster

def setLane (s : Cluster n α) (i : Fin n) (l : Lane α) : Cluster n α :=
  { s with lane := Function.update s.lane i l }

/-! ## The threads of `ps` -/

/-- The main loop: `CanMerge` entry by entry, `completed_iter = iter_t`,
`iter_t++` and the exit at 1200. -/
def mainStep (s : Cluster n α) : Option (Cluster n α) :=
  match s.mainPc with
  | .scan j =>
      if h : j < n then
        if s.iterT > (s.lane ⟨j, h⟩).recvedIter + 1 then some { s with mainPc := .scan 0 }
        else some { s with mainPc := .scan (j + 1) }
      else some { s with mainPc := .merge }
  | .merge => some { s with completedIter := s.iterT, mainPc := .incr }
  | .incr => some { s with
      iterT := s.iterT + 1, mainPc := if s.iterT + 1 = 1200 then .exited else .scan 0 }
  | .exited => none

/-- The copies, the length and the announcement, the same in both programs. -/
def sendBody (p q : Block α) (c : Conn (Frame α)) : SendPc → Option (SendPc × Conn (Frame α))
  | .headP => some (.elesP, c.modifyBuffer (Frame.setPb p))
  | .elesP => some (.headQ, c.modifyBuffer (Frame.setPEles p))
  | .headQ => some (.elesQ, c.modifyBuffer (Frame.setQb q))
  | .elesQ => some (.setLen, c.modifyBuffer (Frame.setQEles q))
  | .setLen => some (.announce, c.setBufLen (totalLen p q))
  | .announce => some (.count, c.announce)
  | _ => none

/-- `rdma_sendTd` of `ps`. -/
def psSendTd (s : Cluster n α) (i : Fin n) : Option (Cluster n α) :=
  let l := s.lane i
  let idx := workerPidx i
  match l.sendPc with
  | .test =>
      if psCanSend l.toSendIter s.completedIter then
        some (s.setLane i { l with sendPc := .stamp })
      else none
  | .stamp => some { s.setLane i { l with sendPc := .headP } with
      pblocks := Function.update s.pblocks idx
        { s.pblocks idx with dataAge := l.toSendIter }
      qblocks := Function.update s.qblocks idx
        { s.qblocks idx with dataAge := l.toSendIter } }
  | .count => some (s.setLane i { l with sendPc := .test, toSendIter := l.toSendIter + 1 })
  | pc => (sendBody (s.pblocks idx) (s.qblocks idx) l.down pc).map fun r =>
      s.setLane i { l with sendPc := r.1, down := r.2 }

/-- `rdma_recvTd` of `ps`. -/
def psRecvTd (s : Cluster n α) (i : Fin n) : Option (Cluster n α) :=
  let l := s.lane i
  let f := l.up.server.buffer
  match l.recvPc with
  | .test =>
      if l.recvedIter + 1 > l.up.server.bufRecvCounter - 1 then none
      else some (s.setLane i { l with recvPc := .decodeP })
  | .decodeP =>
      let idx := f.pb.blockId
      some { s.setLane i { l with recvPc := .decodeQ idx } with
        pblocks := Function.update s.pblocks idx (f.psDecodeP (s.pblocks idx)) }
  | .decodeQ pIdx =>
      let idx := f.qb.blockId
      some { s.setLane i { l with recvPc := .count pIdx idx } with
        qblocks := Function.update s.qblocks idx (f.psDecodeQ (s.qblocks idx)) }
  | .count _ _ =>
      some (s.setLane i { l with recvPc := .flag, recvedIter := l.recvedIter + 1 })
  | .flag => some (s.setLane i { l with recvPc := .test, up := l.up.ack })

/-! ## The threads of `worker` -/

/-- The main loop of worker `i`. -/
def workerMain (u : Update n α) (i : Fin n) (l : Lane α) : Option (Lane α) :=
  let w := l.worker
  match w.mainPc with
  | .test =>
      if canCompute w.iterT w.recvedAge then some { l with worker := { w with mainPc := .compute } }
      else none
  | .compute =>
      let e := u.run i w.iterT w.pblock w.qblock
      some { l with worker := { w with
        pblock := { w.pblock with eles := e.1 }, qblock := { w.qblock with eles := e.2 },
        mainPc := .done } }
  | .done => some { l with worker := { w with completedIter := w.iterT, mainPc := .incr } }
  | .incr => some { l with worker := { w with iterT := w.iterT + 1, mainPc := .test } }

/-- `rdma_sendTd` of `worker`. -/
def workerSendTd (l : Lane α) : Option (Lane α) :=
  let w := l.worker
  match w.sendPc with
  | .test =>
      if workerCanSend w.toSendAge w.completedIter then
        some { l with worker := { w with sendPc := .headP } }
      else none
  | .count => some { l with worker := { w with sendPc := .test, toSendAge := w.toSendAge + 1 } }
  | pc => (sendBody w.pblock w.qblock l.up pc).map fun r =>
      { l with worker := { w with sendPc := r.1 }, up := r.2 }

/-- `rdma_recvTd` of `worker`. -/
def workerRecvTd (l : Lane α) : Option (Lane α) :=
  let w := l.worker
  let f := l.down.server.buffer
  match w.recvPc with
  | .test =>
      if w.recvedAge + 1 ≥ l.down.server.bufRecvCounter then none
      else some { l with worker := { w with recvPc := .decodeP } }
  | .decodeP => some { l with worker := { w with
      pblock := f.workerDecodeP w.pblock, recvPc := .decodeQ f.pb.blockId } }
  | .decodeQ pIdx => some { l with worker := { w with
      qblock := f.workerDecodeQ w.qblock, recvPc := .count pIdx f.qb.blockId } }
  | .count _ _ => some { l with worker := { w with recvedAge := w.recvedAge + 1, recvPc := .flag } }
  | .flag => some { l with worker := { w with recvPc := .test }, down := l.down.ack }

/-! ## The system -/

/-- One step of the whole system. -/
def step (u : Update n α) (s : Cluster n α) : Act n → Option (Cluster n α)
  | .main => s.mainStep
  | .psSend i => s.psSendTd i
  | .psRecv i => s.psRecvTd i
  | .workerMain i => (workerMain u i (s.lane i)).map (s.setLane i)
  | .workerSend i => (workerSendTd (s.lane i)).map (s.setLane i)
  | .workerRecv i => (workerRecvTd (s.lane i)).map (s.setLane i)
  | .down i a => ((s.lane i).down.step a).map fun c => s.setLane i { s.lane i with down := c }
  | .up i a => ((s.lane i).up.step a).map fun c => s.setLane i { s.lane i with up := c }

end Cluster

/-! ## Start of a run -/

/-- The zero-initialised globals of a worker. -/
def Worker.start : Worker α where
  iterT := 0
  recvedAge := -1
  toSendAge := 0
  completedIter := -1
  pblock := .zero
  qblock := .zero
  mainPc := .test
  sendPc := .test
  recvPc := .test

namespace Job

/-- `Pblocks` after `partitionBlock(N, K, worker_num, Pblocks)` and the loop that
sets the elements. -/
def startP (j : Job n α) : ℤ → Block α :=
  partitionBlock j.rowsP j.dim n j.initP fun _ => .zero

/-- `Qblocks` likewise. -/
def startQ (j : Job n α) : ℤ → Block α :=
  partitionBlock j.rowsQ j.dim n j.initQ fun _ => .zero

def startLane (j : Job n α) (i : Fin n) : Lane α where
  toSendIter := 0
  recvedIter := -1
  sendPc := .test
  recvPc := .test
  worker := .start
  down := .established j.blank j.blank 0 (j.downMr i) false
  up := .established j.blank j.blank 0 (j.upMr i) false

/-- The state when the main loop of `ps` starts. -/
def start (j : Job n α) : Cluster n α where
  iterT := 0
  completedIter := -1
  mainPc := .scan 0
  pblocks := j.startP
  qblocks := j.startQ
  lane := j.startLane

/-- The composed system as a transition system. -/
def system (j : Job n α) : System (Cluster n α) (Act n) where
  init s := s = j.start
  step := Cluster.step j.update

/-- One worker with one row, and an update that adds one to each element. -/
def small : Job 1 ℕ where
  rowsP := 1
  rowsQ := 1
  dim := 1
  initP := fun _ _ => 5
  initQ := fun _ _ => 7
  update :=
    { run := fun _ _ p q => (p.eles.map (· + 1), q.eles.map (· + 1))
      length_fst := fun _ _ _ _ => List.length_map ..
      length_snd := fun _ _ _ _ => List.length_map .. }
  downMr := fun _ => ⟨4096, 1⟩
  upMr := fun _ => ⟨8192, 2⟩
  blank := ⟨⟨0, 0, 0, 0, 0, false⟩, [], ⟨0, 0, 0, 0, 0, false⟩, []⟩

/-- Two workers with a row each.  Worker `i` adds `i + 1` to each element. -/
def pair : Job 2 ℕ where
  rowsP := 2
  rowsQ := 2
  dim := 1
  initP := fun i _ => 5 + i
  initQ := fun i _ => 7 + i
  update :=
    { run := fun i _ p q => (p.eles.map (· + i + 1), q.eles.map (· + i + 1))
      length_fst := fun _ _ _ _ => List.length_map ..
      length_snd := fun _ _ _ _ => List.length_map .. }
  downMr := fun _ => ⟨4096, 1⟩
  upMr := fun _ => ⟨8192, 2⟩
  blank := ⟨⟨0, 0, 0, 0, 0, false⟩, [], ⟨0, 0, 0, 0, 0, false⟩, []⟩

/-- The greeting of a connection and one write, up to `buf_recv_counter++`. -/
def transfer (conn : ConnAct → Act n) : List (Act n × ℕ) :=
  [(conn .deliverMsg, 1), (conn .client, 6), (conn .nicRead, 1), (conn .deliver, 1),
    (conn .server, 4)]

/-- The first merge of `small`, its first frame and the update of the worker. -/
def smallFrame (i : Fin n) : List (Act n × ℕ) :=
  [(.main, 4), (.psSend i, 9)] ++ transfer (.down i) ++ [(.workerRecv i, 5), (.workerMain i, 4)]

/-- The first round of `small`, up to the end of the server's decoder. -/
def smallRound (i : Fin n) : List (Act n × ℕ) :=
  smallFrame i ++ [(.workerSend i, 8)] ++ transfer (.up i) ++ [(.psRecv i, 5)]

/-- The first merge and the frames to all workers. -/
def frames (n : ℕ) : List (Act n × ℕ) :=
  (.main, n + 3) :: (List.finRange n).flatMap fun i =>
    (.psSend i, 9) :: transfer (.down i) ++ [(.workerRecv i, 5), (.workerMain i, 4)]

/-- The replies of all workers. -/
def replies (n : ℕ) : List (Act n × ℕ) :=
  (List.finRange n).flatMap fun i =>
    (.workerSend i, 8) :: transfer (.up i) ++ [(.psRecv i, 5)]

end Job

end StellarBench
