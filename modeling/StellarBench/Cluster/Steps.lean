import StellarBench.Cluster.Model
import StellarBench.Transport.Token

/-!
# The steps of the threads

One relation for each thread of the cluster, with a constructor for each access
it can make, and the proof that the thread takes no other step.  Every later
proof about a step is a case analysis on these.
-/

namespace StellarBench

variable {n : ℕ} {α : Type}

namespace Cluster

variable {u : Update n α} {s t : Cluster n α} {i : Fin n} {l l' : Lane α}

/-- The steps of the main loop of the server. -/
inductive Main (s : Cluster n α) : Cluster n α → Prop where
  | scanFail {j} (hj : j < n) : s.mainPc = .scan j →
      s.iterT > (s.lane ⟨j, hj⟩).recvedIter + 1 → s.Main { s with mainPc := .scan 0 }
  | scanNext {j} (hj : j < n) : s.mainPc = .scan j →
      s.iterT ≤ (s.lane ⟨j, hj⟩).recvedIter + 1 → s.Main { s with mainPc := .scan (j + 1) }
  | scanEnd {j} : s.mainPc = .scan j → n ≤ j → s.Main { s with mainPc := .merge }
  | merge : s.mainPc = .merge → s.Main { s with completedIter := s.iterT, mainPc := .incr }
  | incr : s.mainPc = .incr → s.Main { s with
      iterT := s.iterT + 1, mainPc := if s.iterT + 1 = 1200 then .exited else .scan 0 }

theorem mainStep_cases (h : s.mainStep = some t) : s.Main t := by
  unfold mainStep at h
  cases hpc : s.mainPc with
  | scan j =>
      simp only [hpc] at h
      split at h
      next hj =>
        split at h
        next hgt => exact Option.some.inj h ▸ .scanFail hj hpc hgt
        next hle => exact Option.some.inj h ▸ .scanNext hj hpc (not_lt.mp hle)
      next hj => exact Option.some.inj h ▸ .scanEnd hpc (not_lt.mp hj)
  | merge =>
      simp only [hpc] at h
      exact Option.some.inj h ▸ .merge hpc
  | incr =>
      simp only [hpc] at h
      exact Option.some.inj h ▸ .incr hpc
  | exited => simp [hpc] at h

/-- The main loop touches no lane and no block. -/
theorem Main.frame (h : s.Main t) :
    t.lane = s.lane ∧ t.pblocks = s.pblocks ∧ t.qblocks = s.qblocks := by
  cases h <;> exact ⟨rfl, rfl, rfl⟩

/-- The steps that copy a frame and announce it. -/
inductive SendBody (p q : Block α) (c : Conn (Frame α)) :
    SendPc → SendPc → Conn (Frame α) → Prop where
  | headP : SendBody p q c .headP .elesP (c.modifyBuffer (Frame.setPb p))
  | elesP : SendBody p q c .elesP .headQ (c.modifyBuffer (Frame.setPEles p))
  | headQ : SendBody p q c .headQ .elesQ (c.modifyBuffer (Frame.setQb q))
  | elesQ : SendBody p q c .elesQ .setLen (c.modifyBuffer (Frame.setQEles q))
  | setLen : SendBody p q c .setLen .announce (c.setBufLen (totalLen p q))
  | announce : SendBody p q c .announce .count c.announce

theorem sendBody_cases {p q : Block α} {c c' : Conn (Frame α)} {pc pc' : SendPc}
    (h : sendBody p q c pc = some (pc', c')) : SendBody p q c pc pc' c' := by
  cases pc <;> simp only [sendBody, Option.some.injEq, Prod.mk.injEq, reduceCtorEq] at h
  all_goals
    obtain ⟨rfl, rfl⟩ := h
    constructor

/-- The steps of `rdma_sendTd` of `ps`. -/
inductive PsSend (s : Cluster n α) (i : Fin n) : Cluster n α → Prop where
  | test : (s.lane i).sendPc = .test → (s.lane i).toSendIter ≤ s.completedIter →
      s.PsSend i (s.setLane i { s.lane i with sendPc := .stamp })
  | stamp : (s.lane i).sendPc = .stamp →
      s.PsSend i { s.setLane i { s.lane i with sendPc := .headP } with
        pblocks := Function.update s.pblocks (workerPidx i)
          { s.pblocks (workerPidx i) with dataAge := (s.lane i).toSendIter }
        qblocks := Function.update s.qblocks (workerPidx i)
          { s.qblocks (workerPidx i) with dataAge := (s.lane i).toSendIter } }
  | body {pc c} :
      SendBody (s.pblocks (workerPidx i)) (s.qblocks (workerPidx i)) (s.lane i).down
        (s.lane i).sendPc pc c →
      s.PsSend i (s.setLane i { s.lane i with sendPc := pc, down := c })
  | count : (s.lane i).sendPc = .count →
      s.PsSend i (s.setLane i { s.lane i with
        sendPc := .test, toSendIter := (s.lane i).toSendIter + 1 })

theorem psSendTd_cases (h : s.psSendTd i = some t) : s.PsSend i t := by
  unfold psSendTd at h
  cases hpc : (s.lane i).sendPc with
  | test =>
      simp only [hpc, psCanSend, Bool.if_false_right, Bool.and_true, decide_eq_true_eq] at h
      split at h
      next hle => exact Option.some.inj h ▸ .test hpc hle
      next => cases h
  | stamp =>
      simp only [hpc] at h
      exact Option.some.inj h ▸ .stamp hpc
  | count =>
      simp only [hpc] at h
      exact Option.some.inj h ▸ .count hpc
  | headP | elesP | headQ | elesQ | setLen | announce =>
      simp only [hpc, Option.map_eq_some_iff] at h
      obtain ⟨⟨pc, c⟩, hb, rfl⟩ := h
      exact .body (sendBody_cases (hpc ▸ hb))

/-- The steps of `rdma_recvTd` of `ps`. -/
inductive PsRecv (s : Cluster n α) (i : Fin n) : Cluster n α → Prop where
  | test : (s.lane i).recvPc = .test → (s.lane i).recvedIter + 1 < (s.lane i).up.counted →
      s.PsRecv i (s.setLane i { s.lane i with recvPc := .decodeP })
  | decodeP : (s.lane i).recvPc = .decodeP →
      s.PsRecv i { s.setLane i { s.lane i with
          recvPc := .decodeQ (s.lane i).up.server.buffer.pb.blockId } with
        pblocks := Function.update s.pblocks (s.lane i).up.server.buffer.pb.blockId
          ((s.lane i).up.server.buffer.psDecodeP
            (s.pblocks (s.lane i).up.server.buffer.pb.blockId)) }
  | decodeQ {pIdx} : (s.lane i).recvPc = .decodeQ pIdx →
      s.PsRecv i { s.setLane i { s.lane i with
          recvPc := .count pIdx (s.lane i).up.server.buffer.qb.blockId } with
        qblocks := Function.update s.qblocks (s.lane i).up.server.buffer.qb.blockId
          ((s.lane i).up.server.buffer.psDecodeQ
            (s.qblocks (s.lane i).up.server.buffer.qb.blockId)) }
  | count {pIdx qIdx} : (s.lane i).recvPc = .count pIdx qIdx →
      s.PsRecv i (s.setLane i { s.lane i with
        recvPc := .flag, recvedIter := (s.lane i).recvedIter + 1 })
  | flag : (s.lane i).recvPc = .flag →
      s.PsRecv i (s.setLane i { s.lane i with recvPc := .test, up := (s.lane i).up.ack })

theorem psRecvTd_cases (h : s.psRecvTd i = some t) : s.PsRecv i t := by
  unfold psRecvTd at h
  cases hpc : (s.lane i).recvPc with
  | test =>
      simp only [hpc] at h
      split at h
      next => cases h
      next hlt => exact Option.some.inj h ▸ .test hpc (by rw [Conn.counted]; omega)
  | decodeP =>
      simp only [hpc] at h
      exact Option.some.inj h ▸ .decodeP hpc
  | decodeQ pIdx =>
      simp only [hpc] at h
      exact Option.some.inj h ▸ .decodeQ hpc
  | count pIdx qIdx =>
      simp only [hpc] at h
      exact Option.some.inj h ▸ .count hpc
  | flag =>
      simp only [hpc] at h
      exact Option.some.inj h ▸ .flag hpc

/-- The steps of the main loop of a worker. -/
inductive WorkerMain (u : Update n α) (i : Fin n) (l : Lane α) : Lane α → Prop where
  | test : l.worker.mainPc = .test → l.worker.iterT ≤ l.worker.recvedAge →
      WorkerMain u i l { l with worker := { l.worker with mainPc := .compute } }
  | compute : l.worker.mainPc = .compute →
      WorkerMain u i l { l with worker := { l.worker with
        pblock := { l.worker.pblock with
          eles := (u.run i l.worker.iterT l.worker.pblock l.worker.qblock).1 },
        qblock := { l.worker.qblock with
          eles := (u.run i l.worker.iterT l.worker.pblock l.worker.qblock).2 },
        mainPc := .done } }
  | done : l.worker.mainPc = .done →
      WorkerMain u i l { l with worker := { l.worker with
        completedIter := l.worker.iterT, mainPc := .incr } }
  | incr : l.worker.mainPc = .incr →
      WorkerMain u i l { l with worker := { l.worker with
        iterT := l.worker.iterT + 1, mainPc := .test } }

theorem workerMain_cases (h : workerMain u i l = some l') : WorkerMain u i l l' := by
  unfold workerMain at h
  cases hpc : l.worker.mainPc with
  | test =>
      simp only [hpc, canCompute, Bool.if_false_right, Bool.and_true, decide_eq_true_eq] at h
      split at h
      next hle => exact Option.some.inj h ▸ .test hpc hle
      next => cases h
  | compute =>
      simp only [hpc] at h
      exact Option.some.inj h ▸ .compute hpc
  | done =>
      simp only [hpc] at h
      exact Option.some.inj h ▸ .done hpc
  | incr =>
      simp only [hpc] at h
      exact Option.some.inj h ▸ .incr hpc

/-- The steps of `rdma_sendTd` of a worker. -/
inductive WorkerSend (l : Lane α) : Lane α → Prop where
  | test : l.worker.sendPc = .test → l.worker.toSendAge = l.worker.completedIter →
      WorkerSend l { l with worker := { l.worker with sendPc := .headP } }
  | body {pc c} : SendBody l.worker.pblock l.worker.qblock l.up l.worker.sendPc pc c →
      WorkerSend l { l with worker := { l.worker with sendPc := pc }, up := c }
  | count : l.worker.sendPc = .count →
      WorkerSend l { l with worker := { l.worker with
        sendPc := .test, toSendAge := l.worker.toSendAge + 1 } }

theorem workerSendTd_cases (h : workerSendTd l = some l') : WorkerSend l l' := by
  unfold workerSendTd at h
  cases hpc : l.worker.sendPc with
  | test =>
      simp only [hpc, workerCanSend, Bool.if_false_right, Bool.and_true, decide_eq_true_eq] at h
      split at h
      next heq => exact Option.some.inj h ▸ .test hpc heq
      next => cases h
  | count =>
      simp only [hpc] at h
      exact Option.some.inj h ▸ .count hpc
  | stamp => simp [hpc, sendBody] at h
  | headP | elesP | headQ | elesQ | setLen | announce =>
      simp only [hpc, Option.map_eq_some_iff] at h
      obtain ⟨⟨pc, c⟩, hb, rfl⟩ := h
      exact .body (sendBody_cases (hpc ▸ hb))

/-- The steps of `rdma_recvTd` of a worker. -/
inductive WorkerRecv (l : Lane α) : Lane α → Prop where
  | test : l.worker.recvPc = .test → l.worker.recvedAge + 1 < l.down.counted →
      WorkerRecv l { l with worker := { l.worker with recvPc := .decodeP } }
  | decodeP : l.worker.recvPc = .decodeP →
      WorkerRecv l { l with worker := { l.worker with
        pblock := l.down.server.buffer.workerDecodeP l.worker.pblock,
        recvPc := .decodeQ l.down.server.buffer.pb.blockId } }
  | decodeQ {pIdx} : l.worker.recvPc = .decodeQ pIdx →
      WorkerRecv l { l with worker := { l.worker with
        qblock := l.down.server.buffer.workerDecodeQ l.worker.qblock,
        recvPc := .count pIdx l.down.server.buffer.qb.blockId } }
  | count {pIdx qIdx} : l.worker.recvPc = .count pIdx qIdx →
      WorkerRecv l { l with worker := { l.worker with
        recvedAge := l.worker.recvedAge + 1, recvPc := .flag } }
  | flag : l.worker.recvPc = .flag →
      WorkerRecv l { l with worker := { l.worker with recvPc := .test }, down := l.down.ack }

theorem workerRecvTd_cases (h : workerRecvTd l = some l') : WorkerRecv l l' := by
  unfold workerRecvTd at h
  cases hpc : l.worker.recvPc with
  | test =>
      simp only [hpc] at h
      split at h
      next => cases h
      next hlt => exact Option.some.inj h ▸ .test hpc (by rw [Conn.counted]; omega)
  | decodeP =>
      simp only [hpc] at h
      exact Option.some.inj h ▸ .decodeP hpc
  | decodeQ pIdx =>
      simp only [hpc] at h
      exact Option.some.inj h ▸ .decodeQ hpc
  | count pIdx qIdx =>
      simp only [hpc] at h
      exact Option.some.inj h ▸ .count hpc
  | flag =>
      simp only [hpc] at h
      exact Option.some.inj h ▸ .flag hpc

/-! ## One lane -/

/-- A step that is not the main loop's changes one lane, and no counter of the
main loop. -/
structure OnLane (s : Cluster n α) (i : Fin n) (t : Cluster n α) : Prop where
  lane : t.lane = Function.update s.lane i (t.lane i)
  iterT : t.iterT = s.iterT
  completedIter : t.completedIter = s.completedIter
  mainPc : t.mainPc = s.mainPc

theorem OnLane.lane_ne (h : OnLane s i t) {j : Fin n} (hj : j ≠ i) : t.lane j = s.lane j := by
  rw [h.lane, Function.update_of_ne hj]

@[simp] theorem setLane_self (s : Cluster n α) (i : Fin n) (l : Lane α) :
    (s.setLane i l).lane i = l :=
  Function.update_self ..

theorem setLane_setLane (s : Cluster n α) (i : Fin n) (l l' : Lane α) :
    (s.setLane i l).setLane i l' = s.setLane i l' := by
  simp [setLane]

theorem onLane_setLane (s : Cluster n α) (i : Fin n) (l : Lane α) : OnLane s i (s.setLane i l) :=
  ⟨by simp [setLane], rfl, rfl, rfl⟩

theorem PsSend.onLane (h : PsSend s i t) : OnLane s i t := by
  cases h with
  | stamp hpc => exact ⟨by simp [setLane], rfl, rfl, rfl⟩
  | test | body | count => exact onLane_setLane ..

theorem PsRecv.onLane (h : PsRecv s i t) : OnLane s i t := by
  cases h with
  | decodeP | decodeQ => exact ⟨by simp [setLane], rfl, rfl, rfl⟩
  | test | count | flag => exact onLane_setLane ..

/-- What a step makes of lane `i` when it touches it. -/
inductive LaneStep (u : Update n α) (s : Cluster n α) (i : Fin n) : Act n → Lane α → Prop where
  | psSend {t : Cluster n α} : s.PsSend i t → LaneStep u s i (.psSend i) (t.lane i)
  | psRecv {t : Cluster n α} : s.PsRecv i t → LaneStep u s i (.psRecv i) (t.lane i)
  | workerMain {l : Lane α} : WorkerMain u i (s.lane i) l → LaneStep u s i (.workerMain i) l
  | workerSend {l : Lane α} : WorkerSend (s.lane i) l → LaneStep u s i (.workerSend i) l
  | workerRecv {l : Lane α} : WorkerRecv (s.lane i) l → LaneStep u s i (.workerRecv i) l
  | down {a c} : (s.lane i).down.step a = some c →
      LaneStep u s i (.down i a) { s.lane i with down := c }
  | up {a c} : (s.lane i).up.step a = some c → LaneStep u s i (.up i a) { s.lane i with up := c }

/-- A step is one of the main loop or touches one lane. -/
theorem step_lane {a : Act n} (hs : s.step u a = some t) :
    (a = .main ∧ s.Main t) ∨ ∃ i, s.OnLane i t ∧ LaneStep u s i a (t.lane i) := by
  cases a with
  | main => exact .inl ⟨rfl, mainStep_cases hs⟩
  | psSend i =>
      have hs := psSendTd_cases hs
      exact .inr ⟨i, hs.onLane, .psSend hs⟩
  | psRecv i =>
      have hs := psRecvTd_cases hs
      exact .inr ⟨i, hs.onLane, .psRecv hs⟩
  | workerMain i =>
      obtain ⟨l, hl, rfl⟩ := Option.map_eq_some_iff.mp hs
      refine .inr ⟨i, onLane_setLane .., ?_⟩
      rw [setLane_self]
      exact .workerMain (workerMain_cases hl)
  | workerSend i =>
      obtain ⟨l, hl, rfl⟩ := Option.map_eq_some_iff.mp hs
      refine .inr ⟨i, onLane_setLane .., ?_⟩
      rw [setLane_self]
      exact .workerSend (workerSendTd_cases hl)
  | workerRecv i =>
      obtain ⟨l, hl, rfl⟩ := Option.map_eq_some_iff.mp hs
      refine .inr ⟨i, onLane_setLane .., ?_⟩
      rw [setLane_self]
      exact .workerRecv (workerRecvTd_cases hl)
  | down i a =>
      obtain ⟨c, hc, rfl⟩ := Option.map_eq_some_iff.mp hs
      refine .inr ⟨i, onLane_setLane .., ?_⟩
      rw [setLane_self]
      exact .down hc
  | up i a =>
      obtain ⟨c, hc, rfl⟩ := Option.map_eq_some_iff.mp hs
      refine .inr ⟨i, onLane_setLane .., ?_⟩
      rw [setLane_self]
      exact .up hc

/-- What a step makes of a lane, be it touched or not. -/
theorem step_lane_or {a : Act n} (hs : s.step u a = some t) (i : Fin n) :
    t.lane i = s.lane i ∨ LaneStep u s i a (t.lane i) := by
  rcases step_lane hs with ⟨rfl, hm⟩ | ⟨k, hk, hl⟩
  · exact .inl (congrFun hm.frame.1 i)
  · by_cases hi : i = k
    · subst hi
      exact .inr hl
    · exact .inl (hk.lane_ne hi)

end Cluster

end StellarBench
