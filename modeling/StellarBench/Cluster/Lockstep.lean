import StellarBench.Cluster.Counters

/-!
# Lockstep

`AtRest` is the state in which every thread stands at the guard of its loop.  In
`j.system.atomic AtRest` the body of a guarded loop is one step, so the terms of
the counter chain that stand for a thread inside its body are zero, and the
chain is one between the counters of the source alone.
-/

namespace StellarBench

variable {n : ℕ} {α : Type}

namespace Cluster

/-- Every thread stands at the guard of its loop. -/
def AtRest (s : Cluster n α) : Prop :=
  (s.mainPc = .scan 0 ∨ s.mainPc = .exited) ∧ ∀ i, (s.lane i).sendPc = .test ∧
    (s.lane i).recvPc = .test ∧ (s.lane i).worker.mainPc = .test ∧
    (s.lane i).worker.sendPc = .test ∧ (s.lane i).worker.recvPc = .test

instance : DecidablePred (@AtRest n α) := fun _ => inferInstanceAs (Decidable (_ ∧ _))

/-- The counters of worker `i` and of the server, up to the replies of worker `k`. -/
structure CounterChain (s : Cluster n α) (i k : Fin n) : Prop where
  replied : (s.lane i).recvedIter + 1 ≤ (s.lane i).worker.toSendAge
  answered : (s.lane i).worker.toSendAge ≤ (s.lane i).worker.completedIter + 1
  workerIter : (s.lane i).worker.completedIter + 1 = (s.lane i).worker.iterT
  computed : (s.lane i).worker.iterT ≤ (s.lane i).worker.recvedAge + 1
  received : (s.lane i).worker.recvedAge + 1 ≤ (s.lane i).toSendIter
  sent : (s.lane i).toSendIter ≤ s.completedIter + 1
  serverIter : s.completedIter + 1 = s.iterT
  merged : s.iterT ≤ (s.lane k).recvedIter + 2

variable {s : Cluster n α} {i k : Fin n}

theorem Ctl.counterChain (h : s.Ctl) (hrest : s.AtRest) (i k : Fin n) : s.CounterChain i k := by
  obtain ⟨hmain, hlane⟩ := hrest
  obtain ⟨hsend, hrecv, hwmain, hwsend, hwrecv⟩ := hlane i
  obtain ⟨-, hdecUp, hsentUp, hcomp, hdecDown, hsentDown, -, hiter⟩ := (h.lane i).chain
  have hmerged := (h.lane k).chain.merged
  have hdown := (h.lane i).down.counted_le
  have hup := (h.lane i).up.counted_le
  have hserver : s.iterT = s.completedIter + 1 := by
    have hlag := h.main.iter
    rcases hmain with hm | hm <;> simpa [hm] using hlag
  simp only [Lane.sentDown, hsend, SendPc.sent, SendPc.encoding] at hsentDown hdown
  simp only [Lane.sentUp, hwsend, SendPc.sent, SendPc.encoding] at hsentUp hup
  simp only [hrecv, RecvPc.decoding] at hdecUp
  simp only [hwmain, WorkerPc.computing, WorkerPc.lag] at hcomp hiter
  simp only [hwrecv, RecvPc.decoding] at hdecDown
  constructor <;> omega

/-- No worker completes a round twice before another one completes it once. -/
theorem CounterChain.skew (h : s.CounterChain i k) (h' : s.CounterChain k i) :
    (s.lane i).worker.completedIter ≤ (s.lane k).worker.completedIter + 1 := by
  have := h.computed
  have := h.received
  have := h.sent
  have := h.serverIter
  have := h.merged
  have := h.workerIter
  have := h'.replied
  have := h'.answered
  omega

/-- The worker has at most one completed round that it has not sent. -/
theorem CounterChain.pending (h : s.CounterChain i i) :
    (s.lane i).worker.completedIter ≤ (s.lane i).worker.toSendAge := by
  have := h.workerIter
  have := h.computed
  have := h.received
  have := h.sent
  have := h.serverIter
  have := h.merged
  have := h.replied
  omega

end Cluster

namespace Job

variable {j : Job n α} {s : Cluster n α}

/-- With each guarded loop body as one step, the counters of all workers and of
the server form one chain around the circle.  So a frame is encoded only after
the replies before it are decoded and merged, workers are at most one round
apart, and the equality test of a worker's `CanSend` passes no round by. -/
theorem lockstep (h : (j.system.atomic Cluster.AtRest).Reachable s) :
    (∀ i k, s.CounterChain i k) ∧
    (∀ i, psCanSend (s.lane i).toSendIter s.completedIter = true →
      (s.lane i).toSendIter ≤ s.completedIter ∧
        ∀ k, (s.lane i).toSendIter - 1 ≤ (s.lane k).recvedIter) ∧
    (∀ i k, |(s.lane i).worker.completedIter - (s.lane k).worker.completedIter| ≤ 1) ∧
    (∀ i, (s.lane i).worker.completedIter ≤ (s.lane i).worker.toSendAge ∧
      (s.lane i).worker.toSendAge ≤ (s.lane i).worker.completedIter + 1) ∧
    (∀ i, workerCanSend (s.lane i).worker.toSendAge (s.lane i).worker.completedIter =
      decide ((s.lane i).worker.toSendAge ≤ (s.lane i).worker.completedIter)) := by
  have hrest : j.system.Reachable s ∧ s.AtRest := by
    refine System.atomic_reachable ?_ h
    rintro s rfl
    exact ⟨.inl rfl, fun _ => ⟨rfl, rfl, rfl, rfl, rfl⟩⟩
  have hchain := (ctl_reachable hrest.1).counterChain hrest.2
  refine ⟨hchain, ?_, ?_, ?_, ?_⟩
  · intro i hsend
    have hle : (s.lane i).toSendIter ≤ s.completedIter := by simpa [psCanSend] using hsend
    refine ⟨hle, fun k => ?_⟩
    have hserver := (hchain i k).serverIter
    have hmerged := (hchain i k).merged
    omega
  · intro i k
    rw [abs_le]
    have hik := (hchain i k).skew (hchain k i)
    have hki := (hchain k i).skew (hchain i k)
    constructor <;> omega
  · intro i
    exact ⟨(hchain i i).pending, (hchain i i).answered⟩
  · intro i
    have hpend := (hchain i i).pending
    rw [workerCanSend, Bool.if_false_right, Bool.and_true]
    exact decide_eq_decide.mpr ⟨le_of_eq, fun hle => le_antisymm hle hpend⟩

/-- The state after one merge and the frame to the first of two workers. -/
theorem lockstep_small : ∃ s : Cluster 2 ℕ, s.iterT = 1 ∧ (s.lane 0).toSendIter = 1 ∧
    (s.lane 1).toSendIter = 0 ∧ s.CounterChain 0 1 ∧ s.CounterChain 1 0 := by
  obtain ⟨s, hreach, hiter, hsent, hnot⟩ := (pair.system.atomic Cluster.AtRest).exists_reachable
    [(.main, 5), (.psSend 0, 9)]
    (fun s => s.iterT = 1 ∧ (s.lane 0).toSendIter = 1 ∧ (s.lane 1).toSendIter = 0) rfl (by decide)
  obtain ⟨hchain, -⟩ := lockstep hreach
  exact ⟨s, hiter, hsent, hnot, hchain 0 1, hchain 1 0⟩

end Job

end StellarBench
