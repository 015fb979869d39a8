import StellarBench.Cluster.Data

/-!
# Block shapes survive the run

The server takes the index of the target and the length of the copy from the
bytes of a reply and checks neither.  Both are right in every run, because the
data invariant determines the header of everything a lane holds, the age apart.
-/

namespace StellarBench

variable {n : ℕ} {α : Type}

/-- The same place in the matrix, the same size and as many elements. -/
structure Block.SameShape (a b : Block α) : Prop where
  blockId : b.blockId = a.blockId
  staIdx : b.staIdx = a.staIdx
  height : b.height = a.height
  eleNum : b.eleNum = a.eleNum
  length : b.eles.length = a.eles.length

theorem Block.SameShape.setEles {b c : Block α} (h : b.SameShape c) {l : List α}
    (hl : l.length = c.eles.length) : b.SameShape { c with eles := l } :=
  ⟨h.1, h.2, h.3, h.4, hl.trans h.5⟩

namespace Job

variable {j : Job n α} {s t : Cluster n α} {i : Fin n}

theorem sameShape_roundOf (j : Job n α) (i : Fin n) (r : ℕ) :
    (j.startP (i : ℕ)).SameShape (j.roundOf i r).1 ∧
      (j.startQ (i : ℕ)).SameShape (j.roundOf i r).2 := by
  obtain ⟨hp, hq⟩ := roundOf_header j i r
  obtain ⟨hfp, hfq, -⟩ := shape_roundOf j i r
  obtain ⟨hsp, hsq, -⟩ := shape_start j i
  rw [Block.Full] at hfp hfq hsp hsq
  constructor <;> constructor <;> simp_all

theorem sameShape_replyOf (j : Job n α) (i : Fin n) (r : ℕ) :
    (j.startP (i : ℕ)).SameShape (j.replyOf i r).1 ∧
      (j.startQ (i : ℕ)).SameShape (j.replyOf i r).2 := by
  obtain ⟨hp, hq⟩ := sameShape_roundOf j i r
  exact ⟨⟨hp.1, hp.2, hp.3, hp.4, (j.update.length_fst ..).trans hp.5⟩,
    ⟨hq.1, hq.2, hq.3, hq.4, (j.update.length_snd ..).trans hq.5⟩⟩

theorem eleNum_startP (j : Job n α) (i : Fin n) :
    (j.startP (i : ℕ)).eleNum = (j.startP (i : ℕ)).height * j.dim := by
  rw [startP_eq]
  rfl

theorem eleNum_startQ (j : Job n α) (i : Fin n) :
    (j.startQ (i : ℕ)).eleNum = (j.startQ (i : ℕ)).height * j.dim := by
  rw [startQ_eq]
  rfl

/-! ## The blocks of the server -/

theorem LaneData.sameShape {r : ℕ} (d : j.LaneData i r s) :
    (j.startP (i : ℕ)).SameShape (s.pblocks (i : ℕ)) ∧
      (j.startQ (i : ℕ)).SameShape (s.qblocks (i : ℕ)) := by
  obtain ⟨hfp, hfq⟩ := sameShape_roundOf j i r
  obtain ⟨hgp, hgq⟩ := sameShape_replyOf j i r
  cases hpc : (s.lane i).recvPc with
  | test | decodeP | flag =>
      rw [← d.serverP (by simp [hpc]) (by simp [hpc])] at hfp
      rw [← d.serverQ (by simp [hpc])] at hfq
      exact ⟨⟨hfp.1, hfp.2, hfp.3, hfp.4, hfp.5⟩, ⟨hfq.1, hfq.2, hfq.3, hfq.4, hfq.5⟩⟩
  | decodeQ a =>
      rw [← (d.decodedP a hpc).1] at hgp
      rw [← d.serverQ (by simp [hpc])] at hfq
      exact ⟨hgp, ⟨hfq.1, hfq.2, hfq.3, hfq.4, hfq.5⟩⟩
  | count a b =>
      obtain ⟨⟨hp, hq⟩, -⟩ := d.decodedPQ a b hpc
      rw [hp, hq]
      exact ⟨hgp, hgq⟩

/-- What the next `memcpy` of the server's decoder is asked to do: the block it
copies to belongs to the lane, and both blocks are the size of the copy. -/
theorem Data.copies (hc : s.Ctl) (d : j.Data s) (h : (s.lane i).recvPc.decoding = 1) :
    (s.lane i).up.server.buffer.pb.blockId = (i : ℕ) ∧
    (s.lane i).up.server.buffer.qb.blockId = (i : ℕ) ∧
    (s.lane i).up.server.buffer.pb.eleNum.toNat = (j.startP (i : ℕ)).eles.length ∧
    (s.lane i).up.server.buffer.qb.eleNum.toNat = (j.startQ (i : ℕ)).eles.length := by
  obtain ⟨r, -, hbuf⟩ := d.decodeUp hc h
  obtain ⟨hgp, hgq⟩ := sameShape_replyOf j i r
  have hshape := shape_replyOf j i r
  rw [hbuf]
  exact ⟨hshape.idP, hshape.idQ, hshape.fullP.symm.trans hgp.length,
    hshape.fullQ.symm.trans hgq.length⟩

/-! ## The blocks of the workers -/

/-- The blocks a worker has decoded have the shape of its part. -/
structure Shaped (j : Job n α) (i : Fin n) (w : Worker α) : Prop where
  decodedP : ∀ a, w.recvPc = .decodeQ a → (j.startP (i : ℕ)).SameShape w.pblock
  decodedPQ : ∀ a b, w.recvPc = .count a b →
    (j.startP (i : ℕ)).SameShape w.pblock ∧ (j.startQ (i : ℕ)).SameShape w.qblock
  aged : 0 ≤ w.recvedAge →
    (j.startP (i : ℕ)).SameShape w.pblock ∧ (j.startQ (i : ℕ)).SameShape w.qblock

theorem Shaped.workerMain {l l' : Lane α} (h : j.Shaped i l.worker)
    (hs : Cluster.WorkerMain j.update i l l') : j.Shaped i l'.worker := by
  obtain ⟨h1, h2, h3⟩ := h
  cases hs with
  | compute hpc =>
      constructor
      · intro a ha
        exact (h1 a ha).setEles (j.update.length_fst ..)
      · intro a b hab
        exact (h2 a b hab).imp (·.setEles (j.update.length_fst ..))
          (·.setEles (j.update.length_snd ..))
      · intro hage
        exact (h3 hage).imp (·.setEles (j.update.length_fst ..))
          (·.setEles (j.update.length_snd ..))
  | test | done | incr => exact ⟨h1, h2, h3⟩

theorem Shaped.workerRecv (hc : s.Ctl) (d : j.Data s) {l : Lane α}
    (h : j.Shaped i (s.lane i).worker) (hs : Cluster.WorkerRecv (s.lane i) l) :
    j.Shaped i l.worker := by
  obtain ⟨h1, h2, h3⟩ := h
  obtain ⟨k, dk⟩ := d i
  cases hs with
  | test | flag => exact ⟨nofun, nofun, h3⟩
  | decodeP hpc =>
      obtain ⟨r, -, hbuf⟩ := d.decodeDown hc (i := i) (by simp [hpc])
      have hshape := shape_roundOf j i r
      have hdec : (s.lane i).down.server.buffer.workerDecodeP (s.lane i).worker.pblock =
          (j.roundOf i r).1 := by
        rw [hbuf]
        exact Frame.workerDecode_full hshape.fullP (dk.isP.1.trans hshape.isP.symm)
      have hp := (sameShape_roundOf j i r).1
      rw [← hdec] at hp
      exact ⟨fun _ _ => hp, nofun, fun hage => ⟨hp, (h3 hage).2⟩⟩
  | decodeQ hpc =>
      obtain ⟨r, -, hbuf⟩ := d.decodeDown hc (i := i) (by simp [hpc])
      have hshape := shape_roundOf j i r
      have hdec : (s.lane i).down.server.buffer.workerDecodeQ (s.lane i).worker.qblock =
          (j.roundOf i r).2 := by
        rw [hbuf]
        exact Frame.workerDecode_full hshape.fullQ (dk.isP.2.trans hshape.isQ.symm)
      have hq := (sameShape_roundOf j i r).2
      rw [← hdec] at hq
      exact ⟨nofun, fun _ _ _ => ⟨h1 _ hpc, hq⟩, fun _ => ⟨h1 _ hpc, hq⟩⟩
  | count hpc => exact ⟨nofun, nofun, fun _ => h2 _ _ hpc⟩

theorem Shaped.laneStep (hc : s.Ctl) (d : j.Data s) {a : Act n} {l : Lane α}
    (h : j.Shaped i (s.lane i).worker) (hs : Cluster.LaneStep j.update s i a l) :
    j.Shaped i l.worker := by
  cases hs with
  | psSend hs | psRecv hs =>
      cases hs <;> simpa [Cluster.setLane] using h
  | workerMain hs => exact h.workerMain hs
  | workerSend hs =>
      obtain ⟨h1, h2, h3⟩ := h
      cases hs <;> exact ⟨h1, h2, h3⟩
  | workerRecv hs => exact h.workerRecv hc d hs
  | down | up => exact h

theorem shaped_reachable (h : j.system.Reachable s) (i : Fin n) : j.Shaped i (s.lane i).worker := by
  refine h.invariant (I := fun s => j.Shaped i (s.lane i).worker) ?_ ?_
  · rintro _ rfl
    constructor <;> simp [start, startLane, Worker.start]
  · intro s a t hr hi _ hs
    obtain ⟨hc, d⟩ := data_reachable hr
    rcases Cluster.step_lane_or hs i with hl | hl
    · rw [hl]
      exact hi
    · exact hi.laneStep hc d hl

/-! ## Every run -/

/-- In every run each block of the server keeps its index, place, size and array.
Every copy of the server's decoder goes to the block of its own lane and is as
long as the array allocated for it.  After its first decode a worker has blocks
of `height * K` elements. -/
theorem shapes_survive (h : j.system.Reachable s) (i : Fin n) :
    ((s.pblocks (i : ℕ)).blockId = (i : ℕ) ∧ (s.qblocks (i : ℕ)).blockId = (i : ℕ) ∧
      (j.startP (i : ℕ)).SameShape (s.pblocks (i : ℕ)) ∧
      (j.startQ (i : ℕ)).SameShape (s.qblocks (i : ℕ))) ∧
    ((s.lane i).recvPc = .decodeP →
      (s.lane i).up.server.buffer.pb.blockId = (i : ℕ) ∧
      (s.lane i).up.server.buffer.pb.eleNum.toNat = (j.startP (i : ℕ)).eles.length) ∧
    (∀ a, (s.lane i).recvPc = .decodeQ a → a = (i : ℕ) ∧
      (s.lane i).up.server.buffer.qb.blockId = (i : ℕ) ∧
      (s.lane i).up.server.buffer.qb.eleNum.toNat = (j.startQ (i : ℕ)).eles.length) ∧
    (0 ≤ (s.lane i).worker.recvedAge →
      (s.lane i).worker.pblock.eleNum = (s.lane i).worker.pblock.height * j.dim ∧
      (s.lane i).worker.qblock.eleNum = (s.lane i).worker.qblock.height * j.dim ∧
      (j.startP (i : ℕ)).SameShape (s.lane i).worker.pblock ∧
      (j.startQ (i : ℕ)).SameShape (s.lane i).worker.qblock) := by
  obtain ⟨hc, d⟩ := data_reachable h
  obtain ⟨r, di⟩ := d i
  obtain ⟨hp, hq⟩ := di.sameShape
  have hstart := shape_start j i
  refine ⟨⟨hp.blockId.trans hstart.idP, hq.blockId.trans hstart.idQ, hp, hq⟩, ?_, ?_, ?_⟩
  · intro hpc
    obtain ⟨hid, -, hlen, -⟩ := d.copies hc (i := i) (by simp [hpc])
    exact ⟨hid, hlen⟩
  · intro a hpc
    obtain ⟨-, hid, -, hlen⟩ := d.copies hc (i := i) (by simp [hpc])
    exact ⟨(di.decodedP a hpc).2.trans (shape_replyOf j i r).idP, hid, hlen⟩
  · intro hage
    obtain ⟨hwp, hwq⟩ := (shaped_reachable h i).aged hage
    refine ⟨?_, ?_, hwp, hwq⟩
    · rw [hwp.eleNum, hwp.height, eleNum_startP]
    · rw [hwq.eleNum, hwq.height, eleNum_startQ]

/-- Before the copy of the first reply of the second of two workers. -/
theorem shapes_survive_small : ∃ s : Cluster 2 ℕ, (s.lane 0).recvedIter = 0 ∧
    (s.lane 1).recvPc = .decodeP ∧ (s.lane 1).up.server.buffer.pb.blockId = 1 ∧
    ∀ i, (s.lane i).worker.pblock.eleNum = (s.lane i).worker.pblock.height * 1 := by
  obtain ⟨s, hreach, hiter, hpc, hage⟩ := pair.system.exists_reachable
    ((System.script (frames 2 ++ replies 2)).dropLast.dropLast.dropLast.dropLast)
    (fun s => (s.lane 0).recvedIter = 0 ∧ (s.lane 1).recvPc = .decodeP ∧
      ∀ i, 0 ≤ (s.lane i).worker.recvedAge) rfl (by decide)
  obtain ⟨-, hcopy, -⟩ := shapes_survive hreach 1
  refine ⟨s, hiter, hpc, (hcopy hpc).1, fun i => ?_⟩
  obtain ⟨-, -, -, hworker⟩ := shapes_survive hreach i
  exact (hworker (hage i)).1

end Job

end StellarBench
