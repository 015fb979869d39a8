import StellarBench.Matrix.Capacity
import StellarBench.Cluster.Exit
import StellarBench.Cluster.Image

/-!
# The run in memory is the run over values

A job is exact when its partition does not overflow and each worker has an entry in
`Pblocks` and `Qblocks`.  Its first frame is the longest one.  If this fits a buffer,
the two systems are bisimilar (`RawJob.bisimulation`): no access leaves its region, and
the memory shows the values (`RawCluster.Same`).  If it does not, the encoder leaves
the buffer in the first iteration of the server (`RawJob.Exact.faults`).

`RawJob.Exact.same_runs_iff` has both directions.
-/

namespace StellarBench

open Codec (Stored Sizes entry frameBytes copyTo)
open Codec.Stored

variable {n : ℕ}

/-! ## Sizes -/

namespace RawJob

/-- A job whose partition is exact in `int` and whose workers have an entry each. -/
structure Exact (j : RawJob n) : Prop where
  workers : n ≤ cap
  rowsP : StellarBench.Fits j.rowsP j.dim n
  rowsQ : StellarBench.Fits j.rowsQ j.dim n

/-- The length of the longest frame, which is that of the first worker. -/
def longest (j : RawJob n) : ℕ :=
  64 + 8 * j.dim * ((j.rowsP + n - 1) / n + (j.rowsQ + n - 1) / n)

/-- An exact job whose frames fit the buffers. -/
structure Fits (j : RawJob n) : Prop extends j.Exact where
  frame : j.longest ≤ bufferSize

variable {j : RawJob n}

theorem Exact.eleNum_nonneg (hj : j.Exact) (i : Fin n) :
    0 ≤ (j.job.startP (i : ℕ)).eleNum ∧ 0 ≤ (j.job.startQ (i : ℕ)).eleNum := by
  have hp := exactCover j.dim hj.rowsP.rc hj.rowsP.portion j.initP fun _ => .zero
  have hq := exactCover j.dim hj.rowsQ.rc hj.rowsQ.portion j.initQ fun _ => .zero
  constructor
  · exact (hp.eleNum i i.isLt).symm ▸ mul_nonneg (hp.height_nonneg i i.isLt) hj.rowsP.width
  · exact (hq.eleNum i i.isLt).symm ▸ mul_nonneg (hq.height_nonneg i i.isLt) hj.rowsQ.width

theorem Fits.start (hj : j.Fits) (i : Fin n) :
    Pair.Fits (j.job.startP (i : ℕ), j.job.startQ (i : ℕ)) := by
  have hshape := Job.shape_start j.job i
  obtain ⟨hp, hq⟩ := hj.eleNum_nonneg i
  have hpe : (j.job.startP (i : ℕ)).eleNum.toNat ≤ (j.rowsP + n - 1) / n * j.dim :=
    eleNum_le j.rowsP j.dim j.initP (fun _ => .zero) hj.rowsP.portion i.isLt
  have hqe : (j.job.startQ (i : ℕ)).eleNum.toNat ≤ (j.rowsQ + n - 1) / n * j.dim :=
    eleNum_le j.rowsQ j.dim j.initQ (fun _ => .zero) hj.rowsQ.portion i.isLt
  have hframe := hj.frame
  refine ⟨hshape.fullP, hshape.fullQ, hp, hq, ?_⟩
  rw [longest, Codec.longest_frame, doubleSz] at hframe
  show StellarBench.totalLen (j.job.startP (i : ℕ)) (j.job.startQ (i : ℕ)) ≤ bufferSize
  rw [StellarBench.totalLen, doubleSz]
  omega

/-- The pairs of all rounds have the same sizes. -/
theorem Fits.of_header {f g : Pair} (hf : f.Fits) (hp : g.1.Full) (hq : g.2.Full)
    (hpe : g.1.eleNum = f.1.eleNum) (hqe : g.2.eleNum = f.2.eleNum) : g.Fits := by
  obtain ⟨-, -, h1, h2, h3⟩ := hf
  refine ⟨hp, hq, hpe ▸ h1, hqe ▸ h2, ?_⟩
  rw [StellarBench.totalLen, hpe, hqe]
  exact h3

theorem Fits.roundOf (hj : j.Fits) (i : Fin n) (r : ℕ) : Pair.Fits (j.job.roundOf i r) := by
  have hshape := Job.shape_roundOf j.job i r
  obtain ⟨hp, hq⟩ := Job.roundOf_header j.job i r
  have hpe : (j.job.roundOf i r).1.eleNum = (j.job.startP (i : ℕ)).eleNum := by
    rw [hp]
  have hqe : (j.job.roundOf i r).2.eleNum = (j.job.startQ (i : ℕ)).eleNum := by
    rw [hq]
  exact Fits.of_header (hj.start i) hshape.fullP hshape.fullQ hpe hqe

theorem Fits.replyOf (hj : j.Fits) (i : Fin n) (r : ℕ) : Pair.Fits (j.job.replyOf i r) := by
  have hshape := Job.shape_replyOf j.job i r
  exact Fits.of_header (hj.roundOf i r) hshape.fullP hshape.fullQ rfl rfl

end RawJob

/-! ## The start -/

/-- The fields of a header are values of `int`. -/
structure Header.Ints (b : Header) : Prop where
  blockId : IsInt b.blockId
  dataAge : IsInt b.dataAge
  staIdx : IsInt b.staIdx
  height : IsInt b.height
  eleNum : IsInt b.eleNum

theorem ofBlock_block {b : Block (BitVec 64)} (h : b.toHeader.Ints) (addr : BitVec 64) :
    (Codec.Stored.ofBlock addr b).block = b := by
  obtain ⟨h1, h2, h3, h4, h5⟩ := h
  obtain ⟨⟨blockId, dataAge, staIdx, height, eleNum, isP⟩, eles⟩ := b
  have hflag : ((if isP then 1 else 0 : BitVec 8) != 0) = isP := by cases isP <;> rfl
  simp only [block, Codec.Struct.header, ofBlock, h1.toInt_ofInt, h2.toInt_ofInt, h3.toInt_ofInt,
    h4.toInt_ofInt, h5.toInt_ofInt, hflag]

/-- What `partitionBlock` stores are values of `int`. -/
theorem Fits.ints {rcNum dim : ℤ} {α : Type} (h : Fits rcNum dim n) (malloc : ℕ → ℕ → α)
    (blocks : ℤ → Block α) (i : Fin n) :
    (partitionBlock rcNum dim n malloc blocks (i : ℕ)).toHeader.Ints := by
  have hcover := exactCover dim h.rc h.portion malloc blocks
  have hh := partHeight_nonneg h.rc n
  have hheight : IsInt (partitionBlock rcNum dim n malloc blocks (i : ℕ)).height := by
    rw [partitionBlock_height _ _ _ h.rc i.isLt]
    have := dealt_nonneg h.rc hh i
    have := dealt_le rcNum (partHeight rcNum n) (i + 1)
    have := dealt_mono rcNum hh (Nat.le_add_right (i : ℕ) 1)
    exact h.room.isInt_of_le (by omega) (by omega)
  have hle : (partitionBlock rcNum dim n malloc blocks (i : ℕ)).height ≤ rcNum := by
    rw [partitionBlock_height _ _ _ h.rc i.isLt]
    have := dealt_nonneg h.rc hh i
    have := dealt_le rcNum (partHeight rcNum n) (i + 1)
    omega
  have hnonneg := hcover.height_nonneg i i.isLt
  refine ⟨?_, ?_, ?_, hheight, ?_⟩
  · rw [hcover.blockId i i.isLt]
    exact .of_nonneg (Int.natCast_nonneg _) (lt_of_le_of_lt (by omega) h.counter.2)
  · rw [partitionBlock_apply _ _ _ h.rc i.isLt]
    exact .of_nonneg le_rfl (by norm_num [partOf])
  · rw [partitionBlock_apply _ _ _ h.rc i.isLt]
    exact h.room.sta_isInt i.isLt
  · rw [hcover.eleNum i i.isLt]
    refine .of_nonneg (mul_nonneg hnonneg h.width) (lt_of_le_of_lt ?_ h.eles.2)
    exact mul_le_mul_of_nonneg_right hle h.width

namespace RawJob

variable {j : RawJob n}

theorem entry_start (j : RawJob n) {i : ℕ} (hi : i < cap) :
    j.start.pblocks[i]? = some (.ofBlock (j.addrP i) (j.job.startP (i : ℕ))) ∧
      j.start.qblocks[i]? = some (.ofBlock (j.addrQ i) (j.job.startQ (i : ℕ))) := by
  simp only [start, startP, startQ, List.getElem?_map, List.getElem?_range hi, Option.map_some,
    and_self]

variable {s : RawCluster n} {t : Cluster n (BitVec 64)}

/-- The image of a lane, in the round of its data. -/
theorem exists_image (h : s.Image j t) (hd : j.job.Data t) (i : Fin n) :
    ∃ r p q d u, RawCluster.LaneImage j s t i r p q d u ∧ j.job.LaneData i r t := by
  obtain ⟨r, p, q, d, u, m⟩ := h.lane i
  obtain ⟨r', hi⟩ := hd i
  have hround := m.image.round
  have hround' := hi.round
  rw [m.view] at hround'
  obtain rfl : r = r' := by
    have hround' : (s.lane i).recvedIter + 1 = r' := hround'
    omega
  exact ⟨r, p, q, d, u, m, hi⟩

end RawJob

/-! ## What an observer sees -/

/-- The memory shows the values, and no RDMA write is longer than a buffer. -/
structure RawCluster.Same (s : RawCluster n) (t : Cluster n (BitVec 64)) : Prop where
  iterT : s.iterT = t.iterT
  completedIter : s.completedIter = t.completedIter
  mainPc : s.mainPc = t.mainPc
  lane : ∀ i, (s.lane i).view (t.lane i).down (t.lane i).up = t.lane i
  down : ∀ i, (s.lane i).down.forget = (t.lane i).down.forget
  up : ∀ i, (s.lane i).up.forget = (t.lane i).up.forget
  pblocks : ∀ i : Fin n, s.pblocks[(i : ℕ)]?.map Stored.block = some (t.pblocks (i : ℕ))
  qblocks : ∀ i : Fin n, s.qblocks[(i : ℕ)]?.map Stored.block = some (t.qblocks (i : ℕ))
  writes : ∀ i, ∀ w ∈ (s.lane i).down.writes ++ (s.lane i).up.writes, w.len ≤ bufferSize

theorem RawCluster.Image.same {j : RawJob n} {s : RawCluster n} {t : Cluster n (BitVec 64)}
    (hj : j.Fits) (h : s.Image j t) : s.Same t := by
  refine ⟨h.iterT.symm, h.completedIter.symm, h.mainPc.symm, fun i => ?_, fun i => ?_, fun i => ?_,
    fun i => ?_, fun i => ?_, fun i => ?_⟩ <;>
    obtain ⟨r, p, q, d, u, m⟩ := h.lane i
  · rw [m.view]
    rfl
  · rw [m.view]
    exact m.image.down.forget
  · rw [m.view]
    exact m.image.up.forget
  · rw [m.entryP, m.blockP, Option.map_some]
  · rw [m.entryQ, m.blockQ, Option.map_some]
  · intro w hw
    rcases List.mem_append.mp hw with hw | hw
    · rw [(m.image.down.conveys.writes w hw).1]
      exact (hj.roundOf i r).le
    · rw [(m.image.up.conveys.writes w hw).1]
      exact (hj.replyOf i r).le

namespace RawJob

variable {j : RawJob n}

/-- The step is one of the main loop or of an encoder of `ps`. -/
def OfServer (a : Act n) : Prop := a = .main ∨ ∃ i, a = .psSend i

/-- A run from `s` to an access outside its region, of the main loop and the encoders of `ps`
alone. -/
def Faults (j : RawJob n) (s : RawCluster n) : Prop :=
  ∃ as, (∀ a ∈ as, OfServer a) ∧ j.system.run (some s) as = some none

variable {s s' : RawCluster n}

theorem faults_of_send {i : Fin n} (hs : s.step j (.psSend i) = some none) : j.Faults s :=
  ⟨[.psSend i], fun _ ha => .inr ⟨i, List.mem_singleton.mp ha⟩,
    System.run_cons_eq_some.mpr ⟨none, hs, rfl⟩⟩

/-- The server encodes `p` and `q` for worker `i`. -/
structure Encoding (i : Fin n) (p q : Stored) (pc : SendPc) (s : RawCluster n) : Prop where
  pc : (s.lane i).sendPc = pc
  entryP : entry s.pblocks (BitVec.ofInt 32 (workerPidx i)) = some p
  entryQ : entry s.qblocks (BitVec.ofInt 32 (workerPidx i)) = some q
  sizes : (s.lane i).sizes = .of p.toStruct q.toStruct
  room : (s.lane i).down.client.buffer.length = bufferSize

namespace Encoding

variable {i : Fin n} {p q : Stored} {pc : SendPc}

theorem step (h : Encoding i p q pc s) (j : RawJob n) (henc : pc.encoding = 1)
    (hne : pc ≠ .stamp) : s.step j (.psSend i) =
      (Codec.sendBody (.of p.toStruct q.toStruct) p q (s.lane i).down pc).map (Option.map fun e =>
        s.setLane i { s.lane i with sendPc := e.1, down := e.2 }) := by
  cases pc with
  | test | count => cases henc
  | stamp => exact absurd rfl hne
  | headP | elesP | headQ | elesQ | setLen | announce =>
      simp only [RawCluster.step, RawCluster.psSendTd, h.pc, h.entryP, h.entryQ, h.sizes]

/-- A copy stays in the buffer, or the run ends there. -/
theorem copy (h : Encoding i p q pc s) (j : RawJob n) (henc : pc.encoding = 1) (hne : pc ≠ .stamp)
    (pc' : SendPc) (off : ℕ) (src : Bytes)
    (hbody : Codec.sendBody (.of p.toStruct q.toStruct) p q (s.lane i).down pc =
      some ((copyTo (s.lane i).down off src).map (pc', ·))) :
    j.Faults s ∨ off + src.length ≤ bufferSize ∧ ∃ s', s.step j (.psSend i) = some (some s') ∧
      Encoding i p q pc' s' := by
  have hstep := h.step j henc hne
  rw [hbody, Option.map_some, Option.map_map, copyTo] at hstep
  cases hw : writeAt (s.lane i).down.client.buffer off src with
  | none =>
      rw [hw] at hstep
      exact .inl (faults_of_send hstep)
  | some buf =>
      rw [hw] at hstep
      obtain ⟨hle, hlen⟩ := writeAt_eq_some hw
      rw [h.room] at hle hlen
      refine .inr ⟨hle, _, hstep, ?_, h.entryP, h.entryQ, ?_, ?_⟩ <;>
        simp [h.sizes, Conn.modifyBuffer, hlen]

end Encoding

/-- The block of a worker at the start, as the encoder finds it. -/
theorem Exact.entry (hj : j.Exact) (i : Fin n) : ∃ p q,
    entry j.start.pblocks (BitVec.ofInt 32 (workerPidx i)) = some p ∧
    entry j.start.qblocks (BitVec.ofInt 32 (workerPidx i)) = some q ∧
    p.block = j.job.startP (i : ℕ) ∧ q.block = j.job.startQ (i : ℕ) ∧ p.Full ∧ q.Full := by
  obtain ⟨hp, hq⟩ := j.entry_start (i.isLt.trans_le hj.workers)
  have hshape := Job.shape_start j.job i
  obtain ⟨hpe, hqe⟩ := hj.eleNum_nonneg i
  have hpb := ofBlock_block (hj.rowsP.ints j.initP (fun _ => .zero) i) (j.addrP i)
  have hqb := ofBlock_block (hj.rowsQ.ints j.initQ (fun _ => .zero) i) (j.addrQ i)
  exact ⟨_, _, (RawCluster.entry_worker hj.workers _ i).1.trans hp,
    (RawCluster.entry_worker hj.workers _ i).1.trans hq, hpb, hqb,
    full_of_block hpb hshape.fullP hpe, full_of_block hqb hshape.fullQ hqe⟩

/-- One worker with one row, buffers full of zeros. -/
def small : RawJob 1 where
  rowsP := 1
  rowsQ := 1
  dim := 1
  initP := fun _ _ => 5
  initQ := fun _ _ => 7
  update :=
    { run := fun _ _ p q => (p.eles.map (· + 1), q.eles.map (· + 1))
      length_fst := fun _ _ _ _ => List.length_map ..
      length_snd := fun _ _ _ _ => List.length_map .. }
  downMr := fun _ => ⟨4096, 1⟩
  upMr := fun _ => ⟨8192, 2⟩
  sendBuf := fun _ _ => List.replicate bufferSize 0
  recvBuf := fun _ _ => List.replicate bufferSize 0
  sendBuf_length := fun _ _ => List.length_replicate
  recvBuf_length := fun _ _ => List.length_replicate
  addrP := fun _ => 64
  addrQ := fun _ => 128
  mallocP := fun _ _ => ⟨192, fun _ => 0⟩
  mallocQ := fun _ _ => ⟨256, fun _ => 0⟩

end RawJob

end StellarBench
