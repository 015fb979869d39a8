import StellarBench.Lib.Advance
import StellarBench.Transport.Advance
import StellarBench.Cluster.Progress

/-!
# The way to `exit(0)`

`Cluster.taken` counts the steps of a run, the reads of `CanMerge` apart.  It is
read off the counters and the program counters, every such step raises it, and
the 1200 iterations bound it.  So a run can only go on for ever by polling.

With the bundled post some step that counts can always be taken, so `exit(0)` is
never out of reach.
-/

namespace StellarBench

variable {n : ℕ} {α : Type}

/-! ## What a program counter stands for -/

/-- The place of a send thread in its loop. -/
@[simp] def SendPc.stage : SendPc → ℤ
  | .test => 0
  | .stamp => 1
  | .headP => 2
  | .elesP => 3
  | .headQ => 4
  | .elesQ => 5
  | .setLen => 6
  | .announce => 7
  | .count => 8

/-- The place of a receive thread in its loop, which its counter turns over. -/
@[simp] def RecvPc.stage : RecvPc → ℤ
  | .test => 0
  | .decodeP => 1
  | .decodeQ _ => 2
  | .count _ _ => 3
  | .flag => -1

/-- The place of the main loop of a worker. -/
@[simp] def WorkerPc.stage : WorkerPc → ℤ
  | .test => 0
  | .compute => 1
  | .done => 2
  | .incr => 3

/-- The place of the main loop of the server, for which a scan is one place. -/
@[simp] def MainPc.stage : MainPc → ℤ
  | .scan _ | .exited => 0
  | .merge => 1
  | .incr => 2

/-- The steps of the threads of a worker. -/
def Worker.taken (w : Worker α) : ℤ :=
  4 * w.iterT + w.mainPc.stage + (9 * w.toSendAge + w.sendPc.stage) +
    (5 * (w.recvedAge + 1) + w.recvPc.stage)

/-- The steps of a lane. -/
def Lane.taken (l : Lane α) : ℤ :=
  9 * l.toSendIter + l.sendPc.stage + (5 * (l.recvedIter + 1) + l.recvPc.stage) +
    l.worker.taken + l.down.taken + l.up.taken

namespace Cluster

/-- The steps of the whole system. -/
def taken (s : Cluster n α) : ℤ := 3 * s.iterT + s.mainPc.stage + ∑ i, (s.lane i).taken

/-- The next step of an action is not a read of `CanMerge`. -/
def works (s : Cluster n α) (a : Act n) : Bool :=
  match a, s.mainPc with
  | .main, .scan _ => false
  | _, _ => true

variable {u : Update n α} {s t : Cluster n α} {a : Act n} {i : Fin n} {l l' : Lane α} {M : ℤ}

theorem works_of_ne (s : Cluster n α) (ha : a ≠ .main) : s.works a = true := by
  cases a with
  | main => exact absurd rfl ha
  | psSend | psRecv | workerMain | workerSend | workerRecv | down | up => rfl

/-! ## Every step counts -/

theorem SendBody.taken {p q : Block α} {c c' : Conn (Frame α)} {pc pc' : SendPc}
    (hb : SendBody p q c pc pc' c') : pc.stage + 1 = pc'.stage ∧ c'.taken = c.taken := by
  cases hb <;> exact ⟨rfl, rfl⟩

theorem PsSend.taken (hs : s.PsSend i t) : (s.lane i).taken + 1 ≤ (t.lane i).taken := by
  cases hs with
  | test hpc _ | stamp hpc | count hpc =>
      simp only [setLane, Function.update_self, Lane.taken, hpc, SendPc.stage]
      omega
  | body hb =>
      obtain ⟨hstage, htaken⟩ := hb.taken
      simp only [setLane_self, Lane.taken, htaken]
      omega

theorem PsRecv.taken (hs : s.PsRecv i t) : (s.lane i).taken + 1 ≤ (t.lane i).taken := by
  cases hs with
  | test hpc _ | decodeP hpc | decodeQ hpc | count hpc =>
      simp only [setLane, Function.update_self, Lane.taken, hpc, RecvPc.stage]
      omega
  | flag hpc =>
      have hack : (s.lane i).up.ack.taken = (s.lane i).up.taken := rfl
      simp only [setLane_self, Lane.taken, hpc, RecvPc.stage, hack]
      omega

theorem WorkerMain.taken (hs : WorkerMain u i l l') : l.taken + 1 ≤ l'.taken := by
  cases hs with
  | test hpc _ | compute hpc | done hpc | incr hpc =>
      simp only [Lane.taken, Worker.taken, hpc, WorkerPc.stage]
      omega

theorem WorkerSend.taken (hs : WorkerSend l l') : l.taken + 1 ≤ l'.taken := by
  cases hs with
  | test hpc _ | count hpc =>
      simp only [Lane.taken, Worker.taken, hpc, SendPc.stage]
      omega
  | body hb =>
      obtain ⟨hstage, htaken⟩ := hb.taken
      simp only [Lane.taken, Worker.taken, htaken]
      omega

theorem WorkerRecv.taken (hs : WorkerRecv l l') : l.taken + 1 ≤ l'.taken := by
  cases hs with
  | test hpc _ | decodeP hpc | decodeQ hpc | count hpc =>
      simp only [Lane.taken, Worker.taken, hpc, RecvPc.stage]
      omega
  | flag hpc =>
      have hack : l.down.ack.taken = l.down.taken := rfl
      simp only [Lane.taken, Worker.taken, hpc, RecvPc.stage, hack]
      omega

theorem LaneStep.taken (hc : (s.lane i).Ctl M) (hs : LaneStep u s i a l) :
    (s.lane i).taken + 1 ≤ l.taken := by
  cases hs with
  | psSend hs => exact hs.taken
  | psRecv hs => exact hs.taken
  | workerMain hs => exact hs.taken
  | workerSend hs => exact hs.taken
  | workerRecv hs => exact hs.taken
  | down hs =>
      have hstep := hc.down.taken_step hs
      simp only [Lane.taken]
      omega
  | up hs =>
      have hstep := hc.up.taken_step hs
      simp only [Lane.taken]
      omega

/-- A step on one lane raises the sum by what it raises this lane. -/
theorem OnLane.sum_taken (h : s.OnLane i t) (hl : (s.lane i).taken + 1 ≤ (t.lane i).taken) :
    ∑ k, (s.lane k).taken + 1 ≤ ∑ k, (t.lane k).taken := by
  have hrest : ∑ k ∈ Finset.univ.erase i, (s.lane k).taken =
      ∑ k ∈ Finset.univ.erase i, (t.lane k).taken := by
    refine Finset.sum_congr rfl fun k hk => ?_
    rw [h.lane_ne (Finset.ne_of_mem_erase hk)]
  rw [← Finset.add_sum_erase _ _ (Finset.mem_univ i),
    ← Finset.add_sum_erase _ (fun k => (t.lane k).taken) (Finset.mem_univ i), hrest]
  omega

theorem Main.taken (hs : s.Main t) : s.taken + (s.works .main).toNat ≤ t.taken := by
  have hlane := hs.frame.1
  simp only [Cluster.taken, hlane]
  cases hs with
  | scanFail _ hpc _ | scanNext _ hpc _ | scanEnd hpc _ | merge hpc =>
      simp [works, hpc]
      try omega
  | incr hpc =>
      have hstage : (if s.iterT + 1 = 1200 then MainPc.exited else .scan 0).stage = 0 := by
        split <;> rfl
      rw [hstage]
      simp only [works, hpc, MainPc.stage, Bool.toNat_true]
      omega

/-- Every step counts, the reads of `CanMerge` apart. -/
theorem Ctl.taken_step (h : s.Ctl) (hs : s.step u a = some t) :
    s.taken + (s.works a).toNat ≤ t.taken := by
  rcases step_lane hs with ⟨rfl, hm⟩ | ⟨i, hon, hl⟩
  · exact hm.taken
  · have hsum := hon.sum_taken (hl.taken (h.lane i))
    have hone : (s.works a).toNat ≤ 1 := Bool.toNat_le _
    simp only [Cluster.taken, hon.iterT, hon.mainPc]
    omega

/-! ## The bound -/

/-- The most steps that 1200 iterations can take, the reads of `CanMerge` apart. -/
def mostTaken (n : ℕ) : ℤ := 3600 + 79245 * n

theorem Ctl.merged_le (h : s.Ctl) : s.completedIter + 1 ≤ 1200 := by
  have hiter := h.main.iter
  by_cases hx : s.mainPc = .exited
  · have hend := h.main.exited hx
    simp only [hx, MainPc.lag] at hiter
    omega
  · have hrun := h.main.running hx
    have hlag : s.mainPc.lag ≤ 1 := by cases s.mainPc <;> simp
    omega

end Cluster

namespace Lane

variable {l : Lane α} {M : ℤ}

/-- The `int` counters of a lane, those of its worker and its connections
included. -/
def counters (l : Lane α) : List ℤ :=
  [l.toSendIter, l.recvedIter, l.worker.iterT, l.worker.recvedAge, l.worker.toSendAge,
    l.worker.completedIter, l.down.client.bufWriteCounter, l.down.server.bufRecvCounter,
    l.up.client.bufWriteCounter, l.up.server.bufRecvCounter]

theorem posted_le_one (pc : ClientPc) : pc.posted ≤ 1 := by cases pc <;> simp

/-- No counter of a lane is ahead of the merges. -/
theorem Ctl.counters_le (h : l.Ctl M) : ∀ k ∈ l.counters, -1 ≤ k ∧ k ≤ M := by
  obtain ⟨h1, h2, h3, h4, h5, h6, h7, h8⟩ := h.chain
  obtain ⟨hdown, hdown'⟩ := h.down.ctl
  obtain ⟨hup, hup'⟩ := h.up.ctl
  have hpd := posted_le_one l.down.clientPc
  have hpu := posted_le_one l.up.clientPc
  have hlag : l.worker.mainPc.lag ≤ 1 := by cases l.worker.mainPc <;> simp
  have hsent : l.sendPc.sent ≤ 1 := by cases l.sendPc <;> simp
  have hsent' : l.worker.sendPc.sent ≤ 1 := by cases l.worker.sendPc <;> simp
  simp only [Conn.posted, Conn.counted, sentDown, sentUp] at *
  simp only [counters, List.forall_mem_cons, List.not_mem_nil, false_imp_iff, implies_true, and_true]
  omega

theorem Ctl.taken_le (h : l.Ctl M) (hM : M ≤ 1200) : l.taken ≤ 79245 := by
  obtain ⟨h1, h2, h3, h4, h5, h6, h7, h8⟩ := h.chain
  obtain ⟨hd, hu⟩ := h.counted_le
  have hdown := h.down.taken_le
  have hup := h.up.taken_le
  have hsend : l.sendPc.stage ≤ 8 ∧ l.worker.sendPc.stage ≤ 8 := by
    constructor
    · cases l.sendPc <;> simp
    · cases l.worker.sendPc <;> simp
  have hrecv : l.recvPc.stage ≤ 3 ∧ l.worker.recvPc.stage ≤ 3 := by
    constructor
    · cases l.recvPc <;> simp
    · cases l.worker.recvPc <;> simp
  have hmain : l.worker.mainPc.stage ≤ 3 := by cases l.worker.mainPc <;> simp
  simp only [Lane.taken, Worker.taken, sentDown, sentUp] at *
  omega

end Lane

namespace Job

variable {j : Job n α} {s t : Cluster n α} {a : Act n}

theorem advances (j : Job n α) : j.system.Advances Cluster.works Cluster.taken :=
  fun _ _ _ hr hs => (ctl_reachable hr).taken_step hs

theorem taken_le (h : j.system.Reachable s) : s.taken ≤ Cluster.mostTaken n := by
  have hc := ctl_reachable h
  have hM := hc.merged_le
  have hlanes : ∑ i, (s.lane i).taken ≤ ∑ _i : Fin n, 79245 :=
    Finset.sum_le_sum fun i _ => (hc.lane i).taken_le hM
  have hmain : 3 * s.iterT + s.mainPc.stage ≤ 3600 := by
    cases hpc : s.mainPc with
    | exited =>
        have hend := hc.main.exited hpc
        simp only [MainPc.stage]
        omega
    | scan | merge | incr =>
        have hrun := hc.main.running (by simp [hpc])
        simp only [MainPc.stage]
        omega
  rw [Finset.sum_const, Finset.card_univ, Fintype.card_fin, nsmul_eq_mul] at hlanes
  rw [Cluster.taken, Cluster.mostTaken]
  omega

theorem taken_start (j : Job n α) : j.start.taken = 0 := by
  simp [Cluster.taken, start, startLane, Lane.taken, Worker.taken, Worker.start, Conn.taken,
    Conn.read, Conn.placed, Conn.heard, Conn.counted, Conn.established]

/-- Whatever the schedule, a run takes a bounded number of steps that are not
reads of `CanMerge`. -/
theorem bounded_work {as : List (Act n)} (hr : j.system.run j.start as = some s) :
    (j.system.picked Cluster.works j.start as : ℤ) ≤ Cluster.mostTaken n := by
  have hstart : j.system.Reachable j.start := .init rfl
  have hle := j.advances.picked_le hstart hr
  have hbound := taken_le (System.reachable_of_run rfl hr)
  rw [taken_start] at hle
  omega

/-- The steps of the first round of `small`. -/
theorem bounded_work_small :
    (small.system.picked Cluster.works small.start
      (System.script ((List.finRange 1).flatMap smallRound)) : ℤ) ≤ Cluster.mostTaken 1 := by
  have hsome : (small.system.run small.start
      (System.script ((List.finRange 1).flatMap smallRound))).isSome = true := by decide
  obtain ⟨s, hr⟩ := Option.isSome_iff_exists.mp hsome
  exact bounded_work hr

/-! ## The exit -/

/-- The next step of an action in the system with the bundled post. -/
theorem bundle_step_main (j : Job n α) (s : Cluster n α) :
    (j.system.bundle Cluster.wholePost).step s .main = s.mainStep := by
  cases hs : s.mainStep <;>
    simp [System.bundle, Cluster.wholePost, System.run, system, Cluster.step, hs]

/-- A scan that finds every reply ends in a merge. -/
theorem scan_run (hready : ∀ i, s.iterT ≤ (s.lane i).recvedIter + 1) {k l : ℕ}
    (hpc : s.mainPc = .scan l) (hk : n - l = k) :
    (j.system.bundle Cluster.wholePost).run s (List.replicate (k + 1) .main) =
      some { s with mainPc := .merge } := by
  induction k generalizing s l with
  | zero =>
      have hend : ¬ l < n := by omega
      refine System.run_cons_eq_some.mpr ⟨_, ?_, rfl⟩
      rw [bundle_step_main, Cluster.mainStep, hpc]
      simp only [hend, dite_false]
  | succ k ih =>
      have hl : l < n := by omega
      refine System.run_cons_eq_some.mpr ⟨{ s with mainPc := .scan (l + 1) }, ?_, ?_⟩
      · have hle := hready ⟨l, hl⟩
        rw [bundle_step_main, Cluster.mainStep, hpc]
        simp only [hl, dite_true, if_neg (not_lt.mpr hle)]
      · exact ih hready rfl (by omega)

/-- A bundled step of a thread that works raises the measure. -/
theorem taken_lt_of_bundle (hr : j.system.Reachable s) (hw : s.works a = true)
    (hs : (j.system.bundle Cluster.wholePost).step s a = some t) : s.taken < t.taken := by
  have hpos : 0 < s.wholePost a := by
    rcases wholePost_cases s a with hone | ⟨i, hfour, -⟩ <;> omega
  obtain ⟨k, hk⟩ := Nat.exists_eq_add_one_of_ne_zero hpos.ne'
  simp only [System.bundle, hk, List.replicate_succ] at hs
  exact j.advances.lt hr hs hw

/-- Short of the exit some run goes on. -/
theorem goes_on (h : (j.system.bundle Cluster.wholePost).Reachable s) (hx : s.mainPc ≠ .exited) :
    ∃ as t, (j.system.bundle Cluster.wholePost).run s as = some t ∧ s.taken < t.taken := by
  obtain ⟨hvia, -⟩ := bundle_via h
  have hreach := hvia.reachable
  have hc := ctl_reachable hreach
  have hmain : s.works .main = true → ∃ as t,
      (j.system.bundle Cluster.wholePost).run s as = some t ∧ s.taken < t.taken := by
    intro hw
    obtain ⟨t, hs⟩ := Option.isSome_iff_exists.mp
      (bundle_enabled j (enabled_main (u := j.update) hx))
    exact ⟨[.main], t, System.run_cons_eq_some.mpr ⟨t, hs, rfl⟩, taken_lt_of_bundle hreach hw hs⟩
  cases hpc : s.mainPc with
  | exited => exact absurd hpc hx
  | merge | incr => exact hmain (by simp [Cluster.works, hpc])
  | scan l =>
      by_cases hready : ∀ i, s.iterT ≤ (s.lane i).recvedIter + 1
      · refine ⟨_, _, scan_run hready hpc rfl, ?_⟩
        simp only [Cluster.taken, hpc, MainPc.stage]
        omega
      · -- the lane that is late goes on
        simp only [not_forall, not_le] at hready
        obtain ⟨i, hlate⟩ := hready
        have hlag := hc.main.iter
        simp only [hpc, MainPc.lag] at hlag
        obtain ⟨a, ha, hen⟩ := Cluster.lane_moves (u := j.update) (hc.lane i) (noLoss_via hvia i)
          (live_reachable hreach i) (by omega)
        obtain ⟨t, hs⟩ := Option.isSome_iff_exists.mp (bundle_enabled j hen)
        exact ⟨[a], t, System.run_cons_eq_some.mpr ⟨t, hs, rfl⟩,
          taken_lt_of_bundle hreach (s.works_of_ne ha) hs⟩

end Job

end StellarBench
