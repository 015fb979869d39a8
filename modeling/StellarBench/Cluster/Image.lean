import StellarBench.Lib.CInt
import StellarBench.Cluster.Memory

/-!
# What the memory stands for

`RawLane.view` reads a lane over values off one in memory, its connections apart.
`RawLane.Image` says of the memory what the values do not show: the locals of the
encoders and decoders, and the bytes in the buffers (`Sends`).  Every thread keeps
it (`RawLane.Image.workerSend` and the theorems around it), with the help of the
invariants of the cluster over values.  They tell which blocks a frame is made of,
and that no one else touches them meanwhile.
-/

namespace StellarBench

open Codec (Stored Sizes entry)
open Codec.Stored

variable {n r : ℕ} {f g : Pair} {p q : Stored} {d u : Conn (Frame (BitVec 64))}

/-! ## One lane -/

/-- The globals of a worker as values. -/
def RawWorker.view (w : RawWorker) : Worker (BitVec 64) where
  iterT := w.iterT
  recvedAge := w.recvedAge
  toSendAge := w.toSendAge
  completedIter := w.completedIter
  pblock := w.pblock.block
  qblock := w.qblock.block
  mainPc := w.mainPc
  sendPc := w.sendPc
  recvPc := w.recvPc

namespace RawLane

/-- The lane over values, with connections over values. -/
def view (k : RawLane) (d u : Conn (Frame (BitVec 64))) : Lane (BitVec 64) where
  toSendIter := k.toSendIter
  recvedIter := k.recvedIter
  sendPc := k.sendPc
  recvPc := k.recvPc
  worker := k.worker.view
  down := d
  up := u

/-- A lane in memory stands for its values.  `f` and `g` are its pairs at the start and
at the end of the round, `p` and `q` the blocks of the server. -/
structure Image (r : ℕ) (f g : Pair) (p q : Stored) (d u : Conn (Frame (BitVec 64))) (k : RawLane) :
    Prop where
  sizes : k.sendPc.encoding = 1 → k.sendPc ≠ .stamp → k.sizes = .of p.toStruct q.toStruct
  pTotal : ∀ a, k.recvPc = .decodeQ a →
    k.pTotal.toNat = structSz + doubleSz * g.1.eleNum.toNat
  down : Sends f p q (k.worker.recvedAge + 1) (k.toSendIter + k.sendPc.sent) k.sendPc d k.down
  replySizes : 0 < k.worker.sendPc.slots →
    k.worker.sizes = .of k.worker.pblock.toStruct k.worker.qblock.toStruct
  up : Sends g k.worker.pblock k.worker.qblock (k.recvedIter + 1)
    (k.worker.toSendAge + k.worker.sendPc.sent) k.worker.sendPc u k.up
  round : k.recvedIter + 1 = r

/-- A step that does not leave its regions, and its image. -/
def Stands (r : ℕ) (f g : Pair) (p q : Stored) (o : Option RawLane) (l : Lane (BitVec 64)) : Prop :=
  ∃ k d u, o = some k ∧ l = k.view d u ∧ k.Image r f g p q d u

variable {k : RawLane} {M : ℤ} {i : Fin n} {A B : Block (BitVec 64)}

theorem Image.workerMain (update : Update n (BitVec 64)) (hc : (k.view d u).Ctl M)
    (m : k.Image r f g p q d u) :
    Option.Rel (fun k' l => l = k'.view d u ∧ k'.Image r f g p q d u)
      (RawCluster.workerMain update i k) (Cluster.workerMain update i (k.view d u)) := by
  obtain ⟨h1, h2, h3, h4, h5, h6, h7, h8⟩ := hc.chain
  obtain ⟨hd, hu⟩ := hc.counted_le
  cases hpc : k.worker.mainPc with
  | test =>
      simp only [RawCluster.workerMain, Cluster.workerMain, view, RawWorker.view, hpc]
      split
      · exact .some ⟨rfl, m.1, m.2, m.3, m.4, m.5, m.6⟩
      · exact .none
  | compute =>
      have hcomp : (k.view d u).worker.mainPc.computing = 1 := by simp [view, RawWorker.view, hpc]
      have henc : k.worker.sendPc.encoding = 0 := by
        have hle : (k.view d u).worker.sendPc.encoding ≤ 0 := by omega
        exact Nat.le_zero.mp hle
      have hslots := SendPc.slots_eq_zero henc
      simp only [RawCluster.workerMain, Cluster.workerMain, view, RawWorker.view, hpc]
      refine .some ⟨rfl, m.1, m.2, m.3, fun hpos => ?_, m.5.of_slots hslots .., m.6⟩
      have hpos : 0 < k.worker.sendPc.slots := hpos
      omega
  | done =>
      simp only [RawCluster.workerMain, Cluster.workerMain, view, RawWorker.view, hpc]
      exact .some ⟨rfl, m.1, m.2, m.3, m.4, m.5, m.6⟩
  | incr =>
      simp only [RawCluster.workerMain, Cluster.workerMain, view, RawWorker.view, hpc]
      exact .some ⟨rfl, m.1, m.2, m.3, m.4, m.5, m.6⟩

/-- A step of the encoder of a worker. -/
theorem Image.sendReply (hg : g.Fits) (hc : (k.view d u).Ctl M)
    (hd : Lane.Data r f g A B (k.view d u)) (m : k.Image r f g p q d u)
    (henc : k.worker.sendPc.encoding = 1) (hne : k.worker.sendPc ≠ .stamp) {z : Sizes}
    (hz : z = if k.worker.sendPc = .headP
      then .of k.worker.pblock.toStruct k.worker.qblock.toStruct else k.worker.sizes) :
    Option.Rel (Stands r f g p q)
      ((Codec.sendBody z k.worker.pblock k.worker.qblock k.up k.worker.sendPc).map <|
        Option.map fun e =>
          { k with worker := { k.worker with sendPc := e.1, sizes := z }, up := e.2 })
      ((Cluster.sendBody k.worker.pblock.block k.worker.qblock.block u k.worker.sendPc).map fun e =>
        { k.view d u with worker := { (k.view d u).worker with sendPc := e.1 }, up := e.2 }) := by
  obtain ⟨h1, h2, h3, h4, h5, h6, h7, h8⟩ := hc.chain
  obtain ⟨hdown, hup⟩ := hc.counted_le
  have henc' : (k.view d u).worker.sendPc.encoding = 1 := henc
  obtain ⟨hp, hq⟩ := hd.ready (by omega)
  have hsizes : z = .of k.worker.pblock.toStruct k.worker.qblock.toStruct := by
    rw [hz]
    split
    · rfl
    · next hhead =>
        refine m.replySizes ?_
        cases hpc : k.worker.sendPc <;> simp_all
  have hbody := Sends.body hg hp hq m.up hc.up.ctl
    (show (k.view d u).up.counted ≤ (k.view d u).recvedIter + 1 by omega)
    (show (k.view d u).sentUp ≤ (k.view d u).up.counted by omega)
  rw [hsizes]
  refine System.rel_map hbody fun o e _ _ he => ?_
  obtain ⟨c, rfl, hs⟩ := he
  exact ⟨_, d, e.2, rfl, rfl, m.1, m.2, m.3, fun _ => rfl, hs, m.6⟩

theorem Image.workerSend (hg : g.Fits) (hc : (k.view d u).Ctl M)
    (hd : Lane.Data r f g A B (k.view d u)) (m : k.Image r f g p q d u) :
    Option.Rel (Stands r f g p q) (RawCluster.workerSendTd k)
      (Cluster.workerSendTd (k.view d u)) := by
  obtain ⟨h1, h2, h3, h4, h5, h6, h7, h8⟩ := hc.chain
  obtain ⟨hdown, hup⟩ := hc.counted_le
  cases hpc : k.worker.sendPc with
  | test =>
      have hs := m.up
      rw [hpc] at hs
      simp only [RawCluster.workerSendTd, Cluster.workerSendTd, view, RawWorker.view, hpc]
      split
      · refine .some ⟨_, d, u, rfl, rfl, m.1, m.2, m.3, fun hpos => ?_, ?_, m.6⟩
        · cases hpos
        · exact ⟨hs.forget, hs.room, written_zero .., by rintro ⟨⟩, hs.conveys⟩
      · exact .none
  | count =>
      have hs := m.up
      rw [hpc] at hs
      simp only [RawCluster.workerSendTd, Cluster.workerSendTd, view, RawWorker.view, hpc]
      refine .some ⟨_, d, u, rfl, rfl, m.1, m.2, m.3, fun hpos => ?_, ?_, m.6⟩
      · cases hpos
      · exact ⟨hs.forget, hs.room, written_zero .., by rintro ⟨⟩, by simpa using hs.conveys⟩
  | stamp =>
      simp only [RawCluster.workerSendTd, Cluster.workerSendTd, view, RawWorker.view, hpc]
      exact .none
  | headP | elesP | headQ | elesQ | setLen | announce =>
      have hrel := m.sendReply hg hc hd (by rw [hpc]; rfl) (by rw [hpc]; rintro ⟨⟩) rfl
      simp only [RawCluster.workerSendTd, Cluster.workerSendTd, view, RawWorker.view, hpc] at hrel ⊢
      exact hrel

theorem Image.workerRecv (hf : f.Fits) (hc : (k.view d u).Ctl M)
    (hd : Lane.Data r f g A B (k.view d u)) (m : k.Image r f g p q d u) (mp mq : ℤ → Codec.Chunk) :
    Option.Rel (Stands r f g p q) (RawCluster.workerRecvTd mp mq k)
      (Cluster.workerRecvTd (k.view d u)) := by
  have hcounted := hc.chain.decodedDown
  -- while the worker decodes, nothing is copied from its blocks
  have hidle : k.worker.recvPc.decoding = 1 → k.worker.sendPc.slots = 0 := fun hdec => by
    obtain ⟨h1, h2, h3, h4, h5, h6, h7, h8⟩ := hc.chain
    obtain ⟨hdown, hup⟩ := hc.counted_le
    have hdec : (k.view d u).worker.recvPc.decoding = 1 := hdec
    have henc : (k.view d u).worker.sendPc.encoding = 0 := by omega
    exact SendPc.slots_eq_zero henc
  have hframe : k.worker.recvPc.decoding = 1 →
      f.In k.down.server.buffer ∧ d.server.buffer = Frame.ofBlocks f.1 f.2 := fun hdec => by
    have hdec : (k.view d u).worker.recvPc.decoding = 1 := hdec
    have hlt : (k.view d u).worker.recvedAge + 1 < (k.view d u).down.counted := by omega
    exact ⟨m.down.conveys.unread (hlt.trans_eq m.down.counted.symm), hd.down.unread hlt⟩
  cases hpc : k.worker.recvPc with
  | test =>
      have hcount : k.down.server.bufRecvCounter = d.server.bufRecvCounter := m.down.counted
      simp only [RawCluster.workerRecvTd, Cluster.workerRecvTd, view, RawWorker.view, hpc, hcount]
      split
      · exact .none
      · exact .some ⟨_, d, u, rfl, rfl, m.1, m.2, m.3, m.4, m.5, m.6⟩
  | decodeP =>
      obtain ⟨hin, hbuf⟩ := hframe (by rw [hpc]; rfl)
      have hslots := hidle (by rw [hpc]; rfl)
      obtain ⟨p', hp', hblock⟩ := hin.recvP hf (mp k.worker.recvedAge) k.worker.pblock
      have hid : p'.blockId.toInt = f.1.blockId := congrArg (fun b => b.blockId) hblock
      simp only [RawCluster.workerRecvTd, Cluster.workerRecvTd, view, RawWorker.view, hpc, hp',
        hbuf]
      refine .some ⟨_, d, u, rfl, ?_, m.1, m.2, m.3, fun hpos => ?_, m.5.of_slots hslots .., m.6⟩
      · simp only [view, RawWorker.view, hblock, hid]
        rfl
      · have hpos : 0 < k.worker.sendPc.slots := hpos
        omega
  | decodeQ a =>
      obtain ⟨hin, hbuf⟩ := hframe (by rw [hpc]; rfl)
      have hslots := hidle (by rw [hpc]; rfl)
      obtain ⟨x, q', hx, hq', hblock⟩ := hin.recvQ hf (mq k.worker.recvedAge) k.worker.qblock
      have hid : q'.blockId.toInt = f.2.blockId := congrArg (fun b => b.blockId) hblock
      simp only [RawCluster.workerRecvTd, Cluster.workerRecvTd, view, RawWorker.view, hpc, hx, hbuf,
        Option.bind_eq_bind, Option.bind_some, hq']
      refine .some ⟨_, d, u, rfl, ?_, m.1, m.2, m.3, fun hpos => ?_, m.5.of_slots hslots .., m.6⟩
      · simp only [view, RawWorker.view, hblock, hid]
        rfl
      · have hpos : 0 < k.worker.sendPc.slots := hpos
        omega
  | count a b =>
      simp only [RawCluster.workerRecvTd, Cluster.workerRecvTd, view, RawWorker.view, hpc]
      refine .some ⟨_, d, u, rfl, rfl, m.1, m.2, m.3.mono ?_, m.4, m.5, m.6⟩
      show k.worker.recvedAge + 1 ≤ k.worker.recvedAge + 1 + 1
      omega
  | flag =>
      simp only [RawCluster.workerRecvTd, Cluster.workerRecvTd, view, RawWorker.view, hpc]
      exact .some ⟨_, d.ack, u, rfl, rfl, m.1, m.2, m.3.ack, m.4, m.5, m.6⟩

end RawLane

/-! ## The cluster -/

namespace RawCluster

variable {j : RawJob n} {s s' : RawCluster n} {t t' : Cluster n (BitVec 64)} {i : Fin n}

/-- Lane `i` and the blocks that the server has for it. -/
structure LaneImage (j : RawJob n) (s : RawCluster n) (t : Cluster n (BitVec 64)) (i : Fin n)
    (r : ℕ) (p q : Stored) (d u : Conn (Frame (BitVec 64))) : Prop where
  view : t.lane i = (s.lane i).view d u
  entryP : s.pblocks[(i : ℕ)]? = some p
  entryQ : s.qblocks[(i : ℕ)]? = some q
  blockP : t.pblocks (i : ℕ) = p.block
  blockQ : t.qblocks (i : ℕ) = q.block
  image : (s.lane i).Image r (j.job.roundOf i r) (j.job.replyOf i r) p q d u

/-- A state of the memory stands for one over values. -/
structure Image (j : RawJob n) (s : RawCluster n) (t : Cluster n (BitVec 64)) : Prop where
  iterT : t.iterT = s.iterT
  completedIter : t.completedIter = s.completedIter
  mainPc : t.mainPc = s.mainPc
  lane : ∀ i, ∃ r p q d u, LaneImage j s t i r p q d u

/-- A step that does not leave its regions, and its image. -/
def Stands (j : RawJob n) (x : Option (RawCluster n)) (t : Cluster n (BitVec 64)) : Prop :=
  ∃ s, x = some s ∧ s.Image j t

/-- The parts of two states that lane `i` shows. -/
structure SameLane (s s' : RawCluster n) (t t' : Cluster n (BitVec 64)) (i : Fin n) : Prop where
  raw : s'.lane i = s.lane i
  entryP : s'.pblocks[(i : ℕ)]? = s.pblocks[(i : ℕ)]?
  entryQ : s'.qblocks[(i : ℕ)]? = s.qblocks[(i : ℕ)]?
  lane : t'.lane i = t.lane i
  blockP : t'.pblocks (i : ℕ) = t.pblocks (i : ℕ)
  blockQ : t'.qblocks (i : ℕ) = t.qblocks (i : ℕ)

theorem LaneImage.frame (h : LaneImage j s t i r p q d u) (hs : SameLane s s' t t' i) :
    LaneImage j s' t' i r p q d u where
  view := by rw [hs.lane, hs.raw, h.view]
  entryP := hs.entryP.trans h.entryP
  entryQ := hs.entryQ.trans h.entryQ
  blockP := hs.blockP.trans h.blockP
  blockQ := hs.blockQ.trans h.blockQ
  image := by
    rw [hs.raw]
    exact h.image

theorem Image.recvedIter (h : s.Image j t) (i : Fin n) :
    (t.lane i).recvedIter = (s.lane i).recvedIter := by
  obtain ⟨r, p, q, d, u, hi⟩ := h.lane i
  rw [hi.view]
  rfl

theorem Image.mainStep (h : s.Image j t) : Option.Rel (Stands j) (s.mainStep.map some)
    t.mainStep := by
  have hlane {iterT completedIter pc} (i : Fin n) : ∃ r p q d u,
      LaneImage j { s with iterT := iterT, completedIter := completedIter, mainPc := pc }
        { t with iterT := iterT, completedIter := completedIter, mainPc := pc } i r p q d u := by
    obtain ⟨r, p, q, d, u, hi⟩ := h.lane i
    exact ⟨r, p, q, d, u, hi.frame ⟨rfl, rfl, rfl, rfl, rfl, rfl⟩⟩
  have hrecv := h.recvedIter
  obtain ⟨iterT, completedIter, mainPc, pblocks, qblocks, lane⟩ := t
  obtain ⟨rfl, rfl, rfl, -⟩ := h
  have hrecv : ∀ i, (lane i).recvedIter = (s.lane i).recvedIter := hrecv
  cases hpc : s.mainPc with
  | scan k =>
      simp only [RawCluster.mainStep, Cluster.mainStep, hpc, hrecv]
      split
      · split
        · exact .some ⟨_, rfl, rfl, rfl, rfl, hlane⟩
        · exact .some ⟨_, rfl, rfl, rfl, rfl, hlane⟩
      · exact .some ⟨_, rfl, rfl, rfl, rfl, hlane⟩
  | merge =>
      simp only [RawCluster.mainStep, Cluster.mainStep, hpc]
      exact .some ⟨_, rfl, rfl, rfl, rfl, hlane⟩
  | incr =>
      simp only [RawCluster.mainStep, Cluster.mainStep, hpc]
      exact .some ⟨_, rfl, rfl, rfl, rfl, hlane⟩
  | exited =>
      simp only [RawCluster.mainStep, Cluster.mainStep, hpc]
      exact .none

/-- A step on one lane. -/
theorem Image.onLane (h : s.Image j t) (i : Fin n)
    (hiter : s'.iterT = s.iterT ∧ t'.iterT = t.iterT)
    (hcomp : s'.completedIter = s.completedIter ∧ t'.completedIter = t.completedIter)
    (hpc : s'.mainPc = s.mainPc ∧ t'.mainPc = t.mainPc)
    (hother : ∀ k ≠ i, SameLane s s' t t' k)
    (hi : ∃ r p q d u, LaneImage j s' t' i r p q d u) : s'.Image j t' where
  iterT := by rw [hiter.1, hiter.2, h.iterT]
  completedIter := by rw [hcomp.1, hcomp.2, h.completedIter]
  mainPc := by rw [hpc.1, hpc.2, h.mainPc]
  lane k := by
    by_cases hk : k = i
    · exact hk ▸ hi
    · obtain ⟨r, p, q, d, u, m⟩ := h.lane k
      exact ⟨r, p, q, d, u, m.frame (hother k hk)⟩

theorem setLane_ne {k : Fin n} (hk : k ≠ i) (l : RawLane) : (s.setLane i l).lane k = s.lane k :=
  Function.update_of_ne hk ..

@[simp] theorem setLane_self (s : RawCluster n) (i : Fin n) (l : RawLane) :
    (s.setLane i l).lane i = l :=
  Function.update_self ..

/-- A step that leaves the blocks of the server alone. -/
theorem Image.setLane (h : s.Image j t) (m : LaneImage j s t i r p q d u) {k : RawLane} {r' : ℕ}
    {d' u' : Conn (Frame (BitVec 64))}
    (hk : k.Image r' (j.job.roundOf i r') (j.job.replyOf i r') p q d' u') :
    (s.setLane i k).Image j (t.setLane i (k.view d' u')) := by
  refine h.onLane i ⟨rfl, rfl⟩ ⟨rfl, rfl⟩ ⟨rfl, rfl⟩ (fun l hl => ?_) ⟨r', p, q, d', u', ?_⟩
  · exact ⟨setLane_ne hl _, rfl, rfl, Function.update_of_ne hl .., rfl, rfl⟩
  · refine ⟨?_, m.entryP, m.entryQ, m.blockP, m.blockQ, ?_⟩
    · rw [Cluster.setLane_self, setLane_self]
    · rw [setLane_self]
      exact hk

theorem set_entry {l : List Stored} {b : Stored} {k : ℕ} (h : l[k]? = some b) : l.set k b = l := by
  obtain ⟨hlt, rfl⟩ := List.getElem?_eq_some_iff.mp h
  exact List.set_getElem_self hlt

/-- A step that stores the two blocks of the server. -/
theorem Image.store (h : s.Image j t) (m : LaneImage j s t i r p q d u) (k : RawLane)
    (p' q' : Stored) {d' u' : Conn (Frame (BitVec 64))}
    (hk : k.Image r (j.job.roundOf i r) (j.job.replyOf i r) p' q' d' u') :
    Image j { s.setLane i k with
        pblocks := s.pblocks.set i p', qblocks := s.qblocks.set i q' }
      { t.setLane i (k.view d' u') with
        pblocks := Function.update t.pblocks (i : ℕ) p'.block
        qblocks := Function.update t.qblocks (i : ℕ) q'.block } := by
  have hltP : (i : ℕ) < s.pblocks.length := (List.getElem?_eq_some_iff.mp m.entryP).1
  have hltQ : (i : ℕ) < s.qblocks.length := (List.getElem?_eq_some_iff.mp m.entryQ).1
  refine h.onLane i ⟨rfl, rfl⟩ ⟨rfl, rfl⟩ ⟨rfl, rfl⟩ (fun l hl => ?_) ⟨r, p', q', d', u', ?_⟩
  · have hnat : (i : ℕ) ≠ l := fun he => hl (Fin.ext he.symm)
    have hint : ((l : ℕ) : ℤ) ≠ (i : ℕ) := by exact_mod_cast hnat.symm
    exact ⟨setLane_ne hl _, List.getElem?_set_ne hnat, List.getElem?_set_ne hnat,
      Function.update_of_ne hl .., Function.update_of_ne hint .., Function.update_of_ne hint ..⟩
  · refine ⟨?_, List.getElem?_set_self hltP, List.getElem?_set_self hltQ,
      Function.update_self .., Function.update_self .., ?_⟩
    · show (t.setLane i (k.view d' u')).lane i = ((s.setLane i k).lane i).view d' u'
      rw [Cluster.setLane_self, setLane_self]
    · show ((s.setLane i k).lane i).Image r _ _ p' q' d' u'
      rw [setLane_self]
      exact hk

/-! ### The threads of the server -/

theorem entry_worker (hn : n ≤ cap) (l : List Stored) (i : Fin n) :
    entry l (BitVec.ofInt 32 (workerPidx i)) = l[(i : ℕ)]? ∧
      (BitVec.ofInt 32 (workerPidx i)).toInt.toNat = i := by
  have hi : IsInt (workerPidx i) := .of_nonneg (Int.natCast_nonneg _) (by
    have := i.isLt
    rw [workerPidx, cap] at *
    omega)
  have hidx : (BitVec.ofInt 32 (workerPidx i)).toInt = (i : ℕ) := hi.toInt_ofInt
  exact ⟨Pair.In.entry_of_toInt hidx, by rw [hidx, Int.toNat_natCast]⟩

/-- A step of the encoder of the server. -/
theorem Image.sendFrame (hf : Pair.Fits (j.job.roundOf i r)) (h : s.Image j t)
    (m : LaneImage j s t i r p q d u) (hc : (t.lane i).Ctl (t.completedIter + 1))
    (hd : j.job.LaneData i r t) (henc : (s.lane i).sendPc.encoding = 1)
    (hne : (s.lane i).sendPc ≠ .stamp) :
    Option.Rel (Stands j)
      ((Codec.sendBody (s.lane i).sizes p q (s.lane i).down (s.lane i).sendPc).map <|
        Option.map fun e => s.setLane i { s.lane i with sendPc := e.1, down := e.2 })
      ((Cluster.sendBody (t.pblocks (i : ℕ)) (t.qblocks (i : ℕ)) d (s.lane i).sendPc).map fun e =>
        t.setLane i { (s.lane i).view d u with sendPc := e.1, down := e.2 }) := by
  obtain ⟨h1, h2, h3, h4, h5, h6, h7, h8⟩ := hc.chain
  obtain ⟨hdown, hup⟩ := hc.counted_le
  rw [Job.LaneData, m.view] at hd
  rw [m.view] at hc h1 h2 h3 h4 h5 h6 h7 h8 hdown hup
  obtain ⟨hp, hq⟩ := hd.stamped henc hne
  have henc' : ((s.lane i).view d u).sendPc.encoding = 1 := henc
  have hbody := Sends.body hf (m.blockP.symm.trans hp) (m.blockQ.symm.trans hq) m.image.down
    hc.down.ctl
    (show ((s.lane i).view d u).down.counted ≤ ((s.lane i).view d u).worker.recvedAge + 1 by omega)
    (show ((s.lane i).view d u).sentDown ≤ ((s.lane i).view d u).down.counted by omega)
  rw [m.image.sizes henc hne, m.blockP, m.blockQ]
  refine System.rel_map hbody fun o e _ _ he => ?_
  obtain ⟨c, rfl, hs⟩ := he
  exact ⟨_, rfl, h.setLane m (k := { s.lane i with sendPc := e.1, down := c }) ⟨fun _ _ =>
    m.image.sizes henc hne, m.image.pTotal, hs, m.image.replySizes, m.image.up, m.image.round⟩⟩

theorem Image.psSend (hn : n ≤ cap) (hf : Pair.Fits (j.job.roundOf i r)) (h : s.Image j t)
    (m : LaneImage j s t i r p q d u) (hc : (t.lane i).Ctl (t.completedIter + 1))
    (hd : j.job.LaneData i r t) (hage : IsInt (s.lane i).toSendIter) :
    Option.Rel (Stands j) (s.psSendTd i) (t.psSendTd i) := by
  have hp := (entry_worker hn s.pblocks i).1.trans m.entryP
  have hq := (entry_worker hn s.qblocks i).1.trans m.entryQ
  have hidx := (entry_worker hn s.pblocks i).2
  cases hpc : (s.lane i).sendPc with
  | test =>
      have hs := m.image.down
      rw [hpc] at hs
      simp only [RawCluster.psSendTd, Cluster.psSendTd, m.view, RawLane.view, hpc, h.completedIter]
      split
      · refine .some ⟨_, rfl, h.setLane m ⟨fun _ hne => absurd rfl hne, m.image.pTotal, ?_,
          m.image.replySizes, m.image.up, m.image.round⟩⟩
        exact ⟨hs.forget, hs.room, written_zero .., by rintro ⟨⟩, hs.conveys⟩
      · exact .none
  | stamp =>
      have hs := m.image.down
      rw [hpc] at hs
      have hblock (b : Stored) : (b.stamp (BitVec.ofInt 32 (s.lane i).toSendIter)).block =
          { b.block with dataAge := (s.lane i).toSendIter } :=
        congrArg (fun a => ({ b.block with dataAge := a } : Block (BitVec 64))) hage.toInt_ofInt
      have hpidx : workerPidx i = ((i : ℕ) : ℤ) := rfl
      simp only [RawCluster.psSendTd, Cluster.psSendTd, m.view, RawLane.view, hpc, hp, hq,
        Option.bind_eq_bind, Option.bind_some, hidx]
      rw [hpidx, m.blockP, m.blockQ, ← hblock, ← hblock]
      refine .some ⟨_, rfl, h.store m { s.lane i with
        sendPc := .headP, sizes := .of p.toStruct q.toStruct } _ _
        ⟨fun _ _ => rfl, m.image.pTotal, ?_, m.image.replySizes, m.image.up, m.image.round⟩⟩
      exact ⟨hs.forget, hs.room, written_zero .., by rintro ⟨⟩, hs.conveys⟩
  | count =>
      have hs := m.image.down
      rw [hpc] at hs
      simp only [RawCluster.psSendTd, Cluster.psSendTd, m.view, RawLane.view, hpc]
      refine .some ⟨_, rfl, h.setLane m ⟨?_, m.image.pTotal, ?_, m.image.replySizes, m.image.up,
        m.image.round⟩⟩
      · intro he
        cases he
      · exact ⟨hs.forget, hs.room, written_zero .., by rintro ⟨⟩, by simpa using hs.conveys⟩
  | headP | elesP | headQ | elesQ | setLen | announce =>
      have hrel := h.sendFrame hf m hc hd (by rw [hpc]; rfl) (by rw [hpc]; rintro ⟨⟩)
      simp only [RawCluster.psSendTd, Cluster.psSendTd, m.view, RawLane.view, hpc, hp, hq] at hrel ⊢
      exact hrel

/-- While the server decodes a reply, nothing is encoded on the lane. -/
theorem LaneImage.idle (m : LaneImage j s t i r p q d u) {M : ℤ} (hc : (t.lane i).Ctl M)
    (hdec : (s.lane i).recvPc.decoding = 1) : (s.lane i).sendPc.encoding = 0 ∧
      (s.lane i).sendPc.slots = 0 ∧ (s.lane i).worker.sendPc.encoding = 0 := by
  rw [m.view] at hc
  obtain ⟨h1, h2, h3, h4, h5, h6, h7, h8⟩ := hc.chain
  obtain ⟨hdown, hup⟩ := hc.counted_le
  have hdec : ((s.lane i).view d u).recvPc.decoding = 1 := hdec
  have henc : ((s.lane i).view d u).sendPc.encoding = 0 := by omega
  have hwenc : ((s.lane i).view d u).worker.sendPc.encoding = 0 := by omega
  exact ⟨henc, SendPc.slots_eq_zero henc, hwenc⟩

/-- The reply that it decodes is in the buffer. -/
theorem LaneImage.reply (m : LaneImage j s t i r p q d u) {M : ℤ} (hc : (t.lane i).Ctl M)
    (hd : j.job.LaneData i r t) (hdec : (s.lane i).recvPc.decoding = 1) :
    Pair.In (j.job.replyOf i r) (s.lane i).up.server.buffer ∧
      u.server.buffer = Frame.ofBlocks (j.job.replyOf i r).1 (j.job.replyOf i r).2 := by
  rw [Job.LaneData, m.view] at hd
  rw [m.view] at hc
  have hdecoded := hc.chain.decodedUp
  have hdec : ((s.lane i).view d u).recvPc.decoding = 1 := hdec
  have hlt : ((s.lane i).view d u).recvedIter + 1 < ((s.lane i).view d u).up.counted := by omega
  exact ⟨m.image.up.conveys.unread (hlt.trans_eq m.image.up.counted.symm), hd.up.unread hlt⟩

theorem Image.psRecv_decodeP {M : ℤ} (hf : ∀ r, Pair.Fits (j.job.replyOf i r)) (h : s.Image j t)
    (m : LaneImage j s t i r p q d u) (hc : (t.lane i).Ctl M) (hd : j.job.LaneData i r t)
    (hpc : (s.lane i).recvPc = .decodeP) :
    Option.Rel (Stands j) (s.psRecvTd i) (t.psRecvTd i) := by
  have hshape := Job.shape_roundOf j.job i r
  have hreply := Job.shape_replyOf j.job i r
  have hdec : (s.lane i).recvPc.decoding = 1 := by rw [hpc]; rfl
  obtain ⟨hin, hbuf⟩ := m.reply hc hd hdec
  obtain ⟨henc, hslots, -⟩ := m.idle hc hdec
  rw [Job.LaneData, m.view] at hd
  have hpc' : ((s.lane i).view d u).recvPc = .decodeP := hpc
  have hold := hd.serverP (by simp [hpc']) (by simp [hpc'])
  rw [m.blockP] at hold
  have hroom : (j.job.replyOf i r).1.eles.length ≤ p.arr.length := by
    have hlen : p.arr.length = (j.job.roundOf i r).1.eles.length :=
      congrArg (fun b : Block (BitVec 64) => b.eles.length) hold
    rw [hlen, hshape.fullP, hreply.fullP]
    exact le_rfl
  obtain ⟨x, y, b, hx, hxi, hstore, hb, hy, hsz⟩ :=
    hin.storeP (hf r) hreply.idP m.entryP hroom
  have hid : (Frame.ofBlocks (j.job.replyOf i r).1 (j.job.replyOf i r).2).pb.blockId =
      (i : ℕ) := hreply.idP
  simp only [RawCluster.psRecvTd, Cluster.psRecvTd, m.view, RawLane.view, hpc, hx, hstore, hy,
    Option.bind_eq_bind, Option.bind_some, hbuf]
  rw [hxi, hid, m.blockP, ← hb]
  have hi := h.store m { s.lane i with
    recvPc := .decodeQ (i : ℕ), pTotal := Codec.blockSz y } b q
    ⟨fun he => absurd he (by show (s.lane i).sendPc.encoding ≠ 1; omega), fun _ _ => hsz,
      m.image.down.of_slots hslots .., m.image.replySizes, m.image.up, m.image.round⟩
  rw [set_entry m.entryQ, ← m.blockQ, Function.update_eq_self] at hi
  exact .some ⟨_, rfl, hi⟩

theorem Image.psRecv_decodeQ {M : ℤ} (hf : ∀ r, Pair.Fits (j.job.replyOf i r)) (h : s.Image j t)
    (m : LaneImage j s t i r p q d u) (hc : (t.lane i).Ctl M) (hd : j.job.LaneData i r t)
    {a : ℤ} (hpc : (s.lane i).recvPc = .decodeQ a) :
    Option.Rel (Stands j) (s.psRecvTd i) (t.psRecvTd i) := by
  have hshape := Job.shape_roundOf j.job i r
  have hreply := Job.shape_replyOf j.job i r
  have hdec : (s.lane i).recvPc.decoding = 1 := by rw [hpc]; rfl
  obtain ⟨hin, hbuf⟩ := m.reply hc hd hdec
  obtain ⟨henc, hslots, -⟩ := m.idle hc hdec
  rw [Job.LaneData, m.view] at hd
  have hpc' : ((s.lane i).view d u).recvPc = .decodeQ a := hpc
  have hold := hd.serverQ (by simp [hpc'])
  rw [m.blockQ] at hold
  have hroom : (j.job.replyOf i r).2.eles.length ≤ q.arr.length := by
    have hlen : q.arr.length = (j.job.roundOf i r).2.eles.length :=
      congrArg (fun b : Block (BitVec 64) => b.eles.length) hold
    rw [hlen, hshape.fullQ, hreply.fullQ]
    exact le_rfl
  obtain ⟨x, b, hx, hxi, hstore, hb⟩ :=
    hin.storeQ (hf r) (m.image.pTotal a hpc) hreply.idQ m.entryQ hroom
  have hid : (Frame.ofBlocks (j.job.replyOf i r).1 (j.job.replyOf i r).2).qb.blockId =
      (i : ℕ) := hreply.idQ
  simp only [RawCluster.psRecvTd, Cluster.psRecvTd, m.view, RawLane.view, hpc, hx, hstore,
    Option.bind_eq_bind, Option.bind_some, hbuf]
  rw [hxi, hid, m.blockQ, ← hb]
  have hi := h.store m { s.lane i with recvPc := .count a (i : ℕ) } p b
    ⟨fun he => absurd he (by show (s.lane i).sendPc.encoding ≠ 1; omega), by rintro _ ⟨⟩,
      m.image.down.of_slots hslots .., m.image.replySizes, m.image.up, m.image.round⟩
  rw [set_entry m.entryP, ← m.blockP, Function.update_eq_self] at hi
  exact .some ⟨_, rfl, hi⟩

/-- The counter ends the round. -/
theorem Image.psRecv_count {M : ℤ} (h : s.Image j t) (m : LaneImage j s t i r p q d u)
    (hc : (t.lane i).Ctl M) {a b : ℤ} (hpc : (s.lane i).recvPc = .count a b) :
    Option.Rel (Stands j) (s.psRecvTd i) (t.psRecvTd i) := by
  have hdec : (s.lane i).recvPc.decoding = 1 := by rw [hpc]; rfl
  obtain ⟨henc, hslots, hwenc⟩ := m.idle hc hdec
  have hwslots := SendPc.slots_eq_zero hwenc
  rw [m.view] at hc
  obtain ⟨h1, h2, h3, h4, h5, h6, h7, h8⟩ := hc.chain
  obtain ⟨hdown, hup⟩ := hc.counted_le
  have hdec : ((s.lane i).view d u).recvPc.decoding = 1 := hdec
  have hround := m.image.round
  simp only [RawCluster.psRecvTd, Cluster.psRecvTd, m.view, RawLane.view, hpc]
  -- the next round, with everything announced counted and read
  have hk : RawLane.Image (r + 1) (j.job.roundOf i (r + 1)) (j.job.replyOf i (r + 1)) p q d u
      { s.lane i with recvPc := .flag, recvedIter := (s.lane i).recvedIter + 1 } :=
    { sizes := fun he => absurd he (by show (s.lane i).sendPc.encoding ≠ 1; omega)
      pTotal := by rintro _ ⟨⟩
      down := .of_idle m.image.down.forget m.image.down.room hc.down.ctl
        (by show ((s.lane i).view d u).down.counted ≤ ((s.lane i).view d u).worker.recvedAge + 1
            omega)
        (by show ((s.lane i).view d u).sentDown ≤ ((s.lane i).view d u).down.counted; omega)
        henc ..
      replySizes := fun hpos => by
        have hpos : 0 < (s.lane i).worker.sendPc.slots := hpos
        have hwslots : (s.lane i).worker.sendPc.slots = 0 := hwslots
        omega
      up := .of_idle m.image.up.forget m.image.up.room hc.up.ctl
        (by show ((s.lane i).view d u).up.counted ≤ ((s.lane i).view d u).recvedIter + 1 + 1
            omega)
        (by show ((s.lane i).view d u).sentUp ≤ ((s.lane i).view d u).up.counted; omega)
        hwenc ..
      round := by
        show (s.lane i).recvedIter + 1 + 1 = ((r + 1 : ℕ) : ℤ)
        push_cast
        rw [hround] }
  exact .some ⟨_, rfl, h.setLane m hk⟩

theorem Image.psRecv (hf : ∀ r, Pair.Fits (j.job.replyOf i r)) (h : s.Image j t)
    (m : LaneImage j s t i r p q d u) (hc : (t.lane i).Ctl (t.completedIter + 1))
    (hd : j.job.LaneData i r t) : Option.Rel (Stands j) (s.psRecvTd i) (t.psRecvTd i) := by
  cases hpc : (s.lane i).recvPc with
  | test =>
      have hcount : (s.lane i).up.server.bufRecvCounter = u.server.bufRecvCounter :=
        m.image.up.counted
      simp only [RawCluster.psRecvTd, Cluster.psRecvTd, m.view, RawLane.view, hpc, hcount]
      split
      · exact .none
      · exact .some ⟨_, rfl, h.setLane m (k := { s.lane i with recvPc := .decodeP })
          ⟨m.image.sizes, by rintro _ ⟨⟩, m.image.down, m.image.replySizes, m.image.up,
            m.image.round⟩⟩
  | decodeP => exact h.psRecv_decodeP hf m hc hd hpc
  | decodeQ a => exact h.psRecv_decodeQ hf m hc hd hpc
  | count a b => exact h.psRecv_count m hc hpc
  | flag =>
      simp only [RawCluster.psRecvTd, Cluster.psRecvTd, m.view, RawLane.view, hpc]
      exact .some ⟨_, rfl, h.setLane m
        (k := { s.lane i with recvPc := .test, up := (s.lane i).up.ack })
        ⟨m.image.sizes, by rintro _ ⟨⟩, m.image.down, m.image.replySizes, m.image.up.ack,
          m.image.round⟩⟩

end RawCluster

end StellarBench
