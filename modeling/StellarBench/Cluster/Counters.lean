import StellarBench.Cluster.Steps

/-!
# The counter chain

Every lane has seven counters that follow one another around a circle: the
frames announced to the worker, counted by its transport, decoded and computed
on, and the replies announced, counted and decoded.  `Chain M` orders them, and
`M` merges of the main loop close the circle, since `CanMerge` lets the number of
merges exceed the replies of a worker by one at most.  A thread inside the body
of a guarded loop is ahead of its counter by one.  The chain says so with a term
that is one exactly there.

So the seven counters differ by one at most, and at most one of these terms is
one (`Lane.Ctl.exclusive`).
-/

namespace StellarBench

variable {n : ℕ} {α : Type}

/-! ## What a program counter stands for -/

/-- A frame that is announced and not in the counter of the thread. -/
@[simp] def SendPc.sent : SendPc → ℕ
  | .count => 1
  | _ => 0

/-- From a true `CanSend` to `can_send = true`. -/
@[simp] def SendPc.encoding : SendPc → ℕ
  | .test | .count => 0
  | _ => 1

/-- From a true receive test to the increment of the receive counter. -/
@[simp] def RecvPc.decoding : RecvPc → ℕ
  | .test | .flag => 0
  | _ => 1

/-- From a true `CanCompute` to `completed_iter = iter_t`. -/
@[simp] def WorkerPc.computing : WorkerPc → ℕ
  | .compute | .done => 1
  | _ => 0

/-- The round is completed and `iter_t` not yet incremented. -/
@[simp] def WorkerPc.lag : WorkerPc → ℕ
  | .incr => 1
  | _ => 0

/-- The merge is completed and `iter_t` not yet incremented. -/
@[simp] def MainPc.lag : MainPc → ℕ
  | .incr => 1
  | _ => 0

/-! ## The chain -/

namespace Lane

variable {l l' : Lane α} {M : ℤ}

/-- The frames announced to the worker. -/
def sentDown (l : Lane α) : ℤ := l.toSendIter + l.sendPc.sent

/-- The replies the worker announced. -/
def sentUp (l : Lane α) : ℤ := l.worker.toSendAge + l.worker.sendPc.sent

/-- The counters of a lane after `M` merges. -/
structure Chain (M : ℤ) (l : Lane α) : Prop where
  nonneg : 0 ≤ l.recvedIter + 1
  decodedUp : l.recvedIter + 1 + l.recvPc.decoding ≤ l.up.counted
  sentUp : l.sentUp + l.worker.sendPc.encoding ≤ l.worker.completedIter + 1
  completed : l.worker.completedIter + 1 + l.worker.mainPc.computing ≤ l.worker.recvedAge + 1
  decodedDown : l.worker.recvedAge + 1 + l.worker.recvPc.decoding ≤ l.down.counted
  sentDown : l.sentDown + l.sendPc.encoding ≤ M
  merged : M ≤ l.recvedIter + 2
  workerIter : l.worker.iterT + l.worker.mainPc.lag = l.worker.completedIter + 1

/-- The control invariant of a lane after `M` merges. -/
structure Ctl (M : ℤ) (l : Lane α) : Prop where
  down : l.down.Sound l.sentDown
  up : l.up.Sound l.sentUp
  chain : l.Chain M

/-- The announced frames and replies are not fewer than the counted ones. -/
theorem Ctl.counted_le (h : Ctl M l) :
    l.down.counted ≤ l.sentDown ∧ l.up.counted ≤ l.sentUp :=
  ⟨h.down.counted_le, h.up.counted_le⟩

/-- The links of the chain that are not tight. -/
def slack (l : Lane α) : ℕ :=
  l.sendPc.encoding + l.down.pending + l.down.inFlight + l.worker.recvPc.decoding +
    l.worker.mainPc.computing + l.worker.sendPc.encoding + l.up.pending + l.up.inFlight +
    l.recvPc.decoding

/-- The circle has room for one activity. -/
theorem Ctl.exclusive (h : Ctl M l) : l.slack ≤ 1 := by
  obtain ⟨h1, h2, h3, h4, h5, h6, h7, h8⟩ := h.chain
  obtain ⟨hdown, hdown'⟩ := h.down.ctl
  obtain ⟨hup, hup'⟩ := h.up.ctl
  rw [slack]
  omega

/-! ### Steps keep the chain -/

theorem sendBody_sound {p q : Block α} {c c' : Conn (Frame α)} {pc pc' : SendPc} {k : ℤ}
    (h : c.Sound (k + pc.sent)) (hb : Cluster.SendBody p q c pc pc' c') :
    c'.Sound (k + pc'.sent) ∧ c'.counted = c.counted ∧ pc.encoding = 1 ∧
      pc'.sent + pc'.encoding = 1 := by
  cases hb with
  | headP | elesP | headQ | elesQ => exact ⟨h.modifyBuffer _, rfl, rfl, rfl⟩
  | setLen => exact ⟨h.setBufLen _, rfl, rfl, rfl⟩
  | announce =>
      refine ⟨?_, rfl, rfl, rfl⟩
      simpa using h.announce

theorem Ctl.mono {M' : ℤ} (h : Ctl M l) (hle : M ≤ M') (hm : M' ≤ l.recvedIter + 2) :
    Ctl M' l := by
  obtain ⟨h1, h2, h3, h4, h5, h6, -, h8⟩ := h.chain
  exact ⟨h.down, h.up, ⟨h1, h2, h3, h4, h5, by omega, hm, h8⟩⟩

theorem Ctl.downStep {c : Conn (Frame α)} {a : ConnAct} (h : Ctl M l)
    (hs : l.down.step a = some c) : Ctl M { l with down := c } := by
  have hc := Conn.counted_step hs
  obtain ⟨h1, h2, h3, h4, h5, h6, h7, h8⟩ := h.chain
  exact ⟨h.down.step hs, h.up, ⟨h1, h2, h3, h4, h5.trans hc, h6, h7, h8⟩⟩

theorem Ctl.upStep {c : Conn (Frame α)} {a : ConnAct} (h : Ctl M l)
    (hs : l.up.step a = some c) : Ctl M { l with up := c } := by
  have hc := Conn.counted_step hs
  obtain ⟨h1, h2, h3, h4, h5, h6, h7, h8⟩ := h.chain
  exact ⟨h.down, h.up.step hs, ⟨h1, h2.trans hc, h3, h4, h5, h6, h7, h8⟩⟩

theorem Ctl.workerMain {u : Update n α} {i : Fin n} (h : Ctl M l)
    (hs : Cluster.WorkerMain u i l l') : Ctl M l' := by
  obtain ⟨h1, h2, h3, h4, h5, h6, h7, h8⟩ := h.chain
  cases hs with
  | test hpc hle =>
      simp only [hpc, WorkerPc.lag] at h8
      refine ⟨h.down, h.up, ⟨h1, h2, h3, ?_, h5, h6, h7, h8⟩⟩
      show l.worker.completedIter + 1 + (1 : ℕ) ≤ l.worker.recvedAge + 1
      omega
  | compute hpc =>
      simp only [hpc, WorkerPc.computing, WorkerPc.lag] at h4 h8
      exact ⟨h.down, h.up, ⟨h1, h2, h3, h4, h5, h6, h7, h8⟩⟩
  | done hpc =>
      simp only [hpc, WorkerPc.computing, WorkerPc.lag] at h4 h8
      refine ⟨h.down, h.up, ⟨h1, h2, ?_, ?_, h5, h6, h7, rfl⟩⟩
      · show l.sentUp + l.worker.sendPc.encoding ≤ l.worker.iterT + 1
        omega
      · show l.worker.iterT + 1 + (0 : ℕ) ≤ l.worker.recvedAge + 1
        omega
  | incr hpc =>
      simp only [hpc, WorkerPc.computing, WorkerPc.lag] at h4 h8
      refine ⟨h.down, h.up, ⟨h1, h2, h3, h4, h5, h6, h7, ?_⟩⟩
      show l.worker.iterT + 1 + (0 : ℕ) = l.worker.completedIter + 1
      omega

theorem Ctl.workerSend (h : Ctl M l) (hs : Cluster.WorkerSend l l') : Ctl M l' := by
  have hup := h.up
  obtain ⟨h1, h2, h3, h4, h5, h6, h7, h8⟩ := h.chain
  simp only [Lane.sentUp] at h3 hup
  cases hs with
  | test hpc heq =>
      simp only [hpc, SendPc.sent, SendPc.encoding] at h3 hup
      refine ⟨h.down, hup, ⟨h1, h2, ?_, h4, h5, h6, h7, h8⟩⟩
      show l.worker.toSendAge + (0 : ℕ) + (1 : ℕ) ≤ l.worker.completedIter + 1
      omega
  | body hb =>
      obtain ⟨hup', hcnt, he, he'⟩ := sendBody_sound hup hb
      refine ⟨h.down, hup', ⟨h1, h2.trans hcnt.ge, ?_, h4, h5, h6, h7, h8⟩⟩
      simp only [Lane.sentUp]
      omega
  | count hpc =>
      simp only [hpc, SendPc.sent, SendPc.encoding] at h3 hup
      refine ⟨h.down, ?_, ⟨h1, h2, ?_, h4, h5, h6, h7, h8⟩⟩
      · simpa [Lane.sentUp] using hup
      · show l.worker.toSendAge + 1 + (0 : ℕ) + (0 : ℕ) ≤ l.worker.completedIter + 1
        omega

theorem Ctl.workerRecv (h : Ctl M l) (hs : Cluster.WorkerRecv l l') : Ctl M l' := by
  obtain ⟨h1, h2, h3, h4, h5, h6, h7, h8⟩ := h.chain
  cases hs with
  | test hpc hlt =>
      refine ⟨h.down, h.up, ⟨h1, h2, h3, h4, ?_, h6, h7, h8⟩⟩
      show l.worker.recvedAge + 1 + (1 : ℕ) ≤ l.down.counted
      omega
  | decodeP hpc | decodeQ hpc =>
      simp only [hpc, RecvPc.decoding] at h5
      exact ⟨h.down, h.up, ⟨h1, h2, h3, h4, h5, h6, h7, h8⟩⟩
  | count hpc =>
      simp only [hpc, RecvPc.decoding] at h5
      refine ⟨h.down, h.up, ⟨h1, h2, h3, ?_, ?_, h6, h7, h8⟩⟩
      · show l.worker.completedIter + 1 + l.worker.mainPc.computing ≤ l.worker.recvedAge + 1 + 1
        omega
      · show l.worker.recvedAge + 1 + 1 + (0 : ℕ) ≤ l.down.counted
        omega
  | flag hpc =>
      simp only [hpc, RecvPc.decoding] at h5
      exact ⟨h.down.ack, h.up, ⟨h1, h2, h3, h4, h5, h6, h7, h8⟩⟩

end Lane

/-! ## The threads of the server -/

namespace Cluster

variable {u : Update n α} {s t : Cluster n α} {i : Fin n} {l : Lane α}

theorem PsSend.ctl (h : (s.lane i).Ctl (s.completedIter + 1)) (hs : PsSend s i t) :
    (t.lane i).Ctl (s.completedIter + 1) := by
  have hdown := h.down
  obtain ⟨h1, h2, h3, h4, h5, h6, h7, h8⟩ := h.chain
  simp only [Lane.sentDown] at h6 hdown
  cases hs with
  | test hpc hle =>
      simp only [hpc, SendPc.sent, SendPc.encoding] at h6 hdown
      simp only [setLane, Function.update_self]
      refine ⟨hdown, h.up, ⟨h1, h2, h3, h4, h5, ?_, h7, h8⟩⟩
      show (s.lane i).toSendIter + (0 : ℕ) + (1 : ℕ) ≤ s.completedIter + 1
      omega
  | stamp hpc =>
      simp only [hpc, SendPc.sent, SendPc.encoding] at h6 hdown
      simp only [setLane, Function.update_self]
      exact ⟨hdown, h.up, ⟨h1, h2, h3, h4, h5, h6, h7, h8⟩⟩
  | body hb =>
      obtain ⟨hdown', hcnt, he, he'⟩ := Lane.sendBody_sound hdown hb
      simp only [setLane, Function.update_self]
      refine ⟨hdown', h.up, ⟨h1, h2, h3, h4, h5.trans hcnt.ge, ?_, h7, h8⟩⟩
      simp only [Lane.sentDown]
      omega
  | count hpc =>
      simp only [hpc, SendPc.sent, SendPc.encoding] at h6 hdown
      simp only [setLane, Function.update_self]
      refine ⟨?_, h.up, ⟨h1, h2, h3, h4, h5, ?_, h7, h8⟩⟩
      · simpa [Lane.sentDown] using hdown
      · show (s.lane i).toSendIter + 1 + (0 : ℕ) + (0 : ℕ) ≤ s.completedIter + 1
        omega

theorem PsRecv.ctl {M : ℤ} (h : (s.lane i).Ctl M) (hs : PsRecv s i t) :
    (t.lane i).Ctl M ∧ (s.lane i).recvedIter ≤ (t.lane i).recvedIter := by
  obtain ⟨h1, h2, h3, h4, h5, h6, h7, h8⟩ := h.chain
  cases hs with
  | test hpc hlt =>
      simp only [setLane, Function.update_self]
      refine ⟨⟨h.down, h.up, ⟨h1, ?_, h3, h4, h5, h6, h7, h8⟩⟩, le_rfl⟩
      show (s.lane i).recvedIter + 1 + (1 : ℕ) ≤ (s.lane i).up.counted
      omega
  | decodeP hpc | decodeQ hpc =>
      simp only [hpc, RecvPc.decoding] at h2
      simp only [setLane, Function.update_self]
      exact ⟨⟨h.down, h.up, ⟨h1, h2, h3, h4, h5, h6, h7, h8⟩⟩, le_rfl⟩
  | count hpc =>
      simp only [hpc, RecvPc.decoding] at h2
      simp only [setLane, Function.update_self]
      refine ⟨⟨h.down, h.up, ⟨?_, ?_, h3, h4, h5, h6, ?_, h8⟩⟩, by omega⟩
      · show 0 ≤ (s.lane i).recvedIter + 1 + 1
        omega
      · show (s.lane i).recvedIter + 1 + 1 + (0 : ℕ) ≤ (s.lane i).up.counted
        omega
      · show M ≤ (s.lane i).recvedIter + 1 + 2
        omega
  | flag hpc =>
      simp only [hpc, RecvPc.decoding] at h2
      simp only [setLane, Function.update_self]
      exact ⟨⟨h.down, h.up.ack, ⟨h1, h2, h3, h4, h5, h6, h7, h8⟩⟩, le_rfl⟩

/-! ## The main loop -/

/-- The control invariant of the main loop: what `CanMerge` has found so far. -/
structure MainCtl (s : Cluster n α) : Prop where
  nonneg : 0 ≤ s.iterT
  iter : s.iterT + s.mainPc.lag = s.completedIter + 1
  scanned : ∀ j, s.mainPc = .scan j → ∀ i : Fin n, i < j → s.iterT ≤ (s.lane i).recvedIter + 1
  mergeable : s.mainPc = .merge → ∀ i, s.iterT ≤ (s.lane i).recvedIter + 1
  running : s.mainPc ≠ .exited → s.iterT < 1200
  exited : s.mainPc = .exited → s.iterT = 1200

/-- The control invariant of the system. -/
structure Ctl (s : Cluster n α) : Prop where
  main : s.MainCtl
  lane : ∀ i, (s.lane i).Ctl (s.completedIter + 1)

theorem MainCtl.onLane (h : s.MainCtl) (ht : OnLane s i t)
    (hr : (s.lane i).recvedIter ≤ (t.lane i).recvedIter) : t.MainCtl := by
  have hmono : ∀ j, (s.lane j).recvedIter ≤ (t.lane j).recvedIter := by
    intro j
    by_cases hj : j = i
    · exact hj ▸ hr
    · rw [ht.lane_ne hj]
  obtain ⟨h0, h1, h2, h3, h4, h5⟩ := h
  constructor
  · rw [ht.iterT]; exact h0
  · rw [ht.iterT, ht.mainPc, ht.completedIter]; exact h1
  · intro j hj k hk
    rw [ht.iterT]
    have := h2 j (ht.mainPc ▸ hj) k hk
    have := hmono k
    omega
  · intro hm k
    rw [ht.iterT]
    have := h3 (ht.mainPc ▸ hm) k
    have := hmono k
    omega
  · rw [ht.mainPc, ht.iterT]; exact h4
  · rw [ht.mainPc, ht.iterT]; exact h5

/-- A step on one lane keeps the invariant when it keeps that of its lane. -/
theorem Ctl.onLane (h : s.Ctl) (ht : OnLane s i t)
    (hr : (s.lane i).recvedIter ≤ (t.lane i).recvedIter)
    (hl : (t.lane i).Ctl (s.completedIter + 1)) : t.Ctl := by
  refine ⟨h.main.onLane ht hr, fun j => ?_⟩
  rw [ht.completedIter]
  by_cases hj : j = i
  · exact hj ▸ hl
  · rw [ht.lane_ne hj]
    exact h.lane j

theorem Ctl.mainStep (h : s.Ctl) (hs : s.Main t) : t.Ctl := by
  obtain ⟨h0, h1, h2, h3, h4, h5⟩ := h.main
  cases hs with
  | scanFail hj hpc hgt =>
      rw [hpc] at h1
      refine ⟨⟨h0, h1, ?_, nofun, fun _ => h4 (by simp [hpc]), nofun⟩, h.lane⟩
      intro k hk i hi
      cases hk
      omega
  | @scanNext j hj hpc hle =>
      rw [hpc] at h1
      refine ⟨⟨h0, h1, ?_, nofun, fun _ => h4 (by simp [hpc]), nofun⟩, h.lane⟩
      intro k hk i hi
      cases hk
      rcases Nat.lt_succ_iff_lt_or_eq.mp hi with hi | hi
      · exact h2 j hpc i hi
      · have he : i = ⟨j, hj⟩ := Fin.ext hi
        rw [he]
        exact hle
  | @scanEnd j hpc hj =>
      rw [hpc] at h1
      refine ⟨⟨h0, h1, nofun, ?_, fun _ => h4 (by simp [hpc]), nofun⟩, h.lane⟩
      intro _ i
      exact h2 j hpc i (by omega)
  | merge hpc =>
      simp only [hpc, MainPc.lag] at h1
      refine ⟨⟨h0, rfl, nofun, nofun, fun _ => h4 (by simp [hpc]), nofun⟩, ?_⟩
      intro i
      have hm := h3 hpc i
      refine (h.lane i).mono ?_ ?_
      · show s.completedIter + 1 ≤ s.iterT + 1
        omega
      · show s.iterT + 1 ≤ (s.lane i).recvedIter + 2
        omega
  | incr hpc =>
      simp only [hpc, MainPc.lag] at h1
      have hrun := h4 (by simp [hpc])
      refine ⟨?_, h.lane⟩
      by_cases he : s.iterT + 1 = 1200
      · simp only [he, if_pos]
        refine ⟨by show (0 : ℤ) ≤ 1200; omega, ?_, nofun, nofun, fun hne => absurd rfl hne,
          fun _ => rfl⟩
        show (1200 : ℤ) + (0 : ℕ) = s.completedIter + 1
        omega
      · simp only [he, if_neg, not_false_eq_true]
        refine ⟨by show 0 ≤ s.iterT + 1; omega, ?_, ?_, nofun,
          fun _ => by show s.iterT + 1 < 1200; omega, nofun⟩
        · show s.iterT + 1 + (0 : ℕ) = s.completedIter + 1
          omega
        · intro k hk i hi
          cases hk
          omega

/-! ## Every run -/

theorem LaneStep.ctl {a : Act n} (h : (s.lane i).Ctl (s.completedIter + 1))
    (hs : LaneStep u s i a l) :
    l.Ctl (s.completedIter + 1) ∧ (s.lane i).recvedIter ≤ l.recvedIter := by
  cases hs with
  | psSend hs =>
      refine ⟨hs.ctl h, ?_⟩
      cases hs <;> simp [setLane]
  | psRecv hs => exact hs.ctl h
  | workerMain hs =>
      refine ⟨h.workerMain hs, ?_⟩
      cases hs <;> exact le_rfl
  | workerSend hs =>
      refine ⟨h.workerSend hs, ?_⟩
      cases hs <;> exact le_rfl
  | workerRecv hs =>
      refine ⟨h.workerRecv hs, ?_⟩
      cases hs <;> exact le_rfl
  | down hs => exact ⟨h.downStep hs, le_rfl⟩
  | up hs => exact ⟨h.upStep hs, le_rfl⟩

/-- Every step keeps the control invariant. -/
theorem Ctl.step {a : Act n} (h : s.Ctl) (hs : s.step u a = some t) : t.Ctl := by
  rcases step_lane hs with ⟨-, hm⟩ | ⟨i, hon, hl⟩
  · exact h.mainStep hm
  · obtain ⟨hctl, hr⟩ := hl.ctl (h.lane i)
    exact h.onLane hon hr hctl

end Cluster

namespace Job

variable {j : Job n α}

theorem ctl_start (j : Job n α) : j.start.Ctl where
  main := by constructor <;> simp [start]
  lane i := by
    refine ⟨Conn.sound_established .., Conn.sound_established .., ?_⟩
    constructor <;>
      simp [start, startLane, Worker.start, Lane.sentUp, Lane.sentDown, Conn.counted,
        Conn.established]

/-- The control invariant holds in every run. -/
theorem ctl_reachable {s : Cluster n α} (h : j.system.Reachable s) : s.Ctl :=
  h.invariant (fun _ h0 => h0 ▸ j.ctl_start) fun _ _ _ _ hi _ hs => hi.step hs

end Job

end StellarBench
