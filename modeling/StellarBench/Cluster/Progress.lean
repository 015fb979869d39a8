import StellarBench.Cluster.Announce
import StellarBench.Transport.Live

/-!
# Progress

`wholePost` bundles the post, `can_send = false`, the counter and the new receive
of a client handler into one step.  Then no announcement can fall between the
post and the store, so none is lost (`ClearedFirst`), and a lane whose reply the
main loop waits for always has a thread or a handler that can go on.

The receive flag `can_recv` is never lowered.  A server handler can wait for it
only before the first frame is read.
-/

namespace StellarBench

variable {n : ℕ} {α : Type}

/-! ## Liveness of a lane -/

namespace Lane

/-- What a lane needs to go on: a flag `can_recv` is down only until the first
frame is read and acknowledged. -/
structure Live (l : Lane α) : Prop where
  downAnswered : l.down.Answered
  upAnswered : l.up.Answered
  downRecv : l.down.server.canRecv = true ∨ l.worker.recvedAge + 1 = 0 ∨ l.worker.recvPc = .flag
  upRecv : l.up.server.canRecv = true ∨ l.recvedIter + 1 = 0 ∨ l.recvPc = .flag
  sendPc : l.worker.sendPc ≠ .stamp

/-- No client handler is between its post and `can_send = false`. -/
def Settled (l : Lane α) : Prop := l.down.clientPc ≠ .clear ∧ l.up.clientPc ≠ .clear

end Lane

namespace Cluster

variable {u : Update n α} {s t : Cluster n α} {a : Act n} {i : Fin n} {l l' : Lane α} {M : ℤ}

theorem SendBody.answered {p q : Block α} {c c' : Conn (Frame α)} {pc pc' : SendPc}
    (hb : SendBody p q c pc pc' c') (h : c.Answered) :
    c'.Answered ∧ c'.server.canRecv = c.server.canRecv ∧ pc' ≠ .stamp := by
  obtain ⟨h0, h1⟩ := h
  cases hb <;> exact ⟨⟨h0, h1⟩, rfl, nofun⟩

theorem PsSend.live (h : (s.lane i).Live) (hs : s.PsSend i t) : (t.lane i).Live := by
  obtain ⟨h1, h2, h3, h4, h5⟩ := h
  cases hs with
  | test | stamp | count =>
      simp only [setLane, Function.update_self]
      exact ⟨h1, h2, h3, h4, h5⟩
  | body hb =>
      obtain ⟨hans, hflag, -⟩ := hb.answered h1
      rw [setLane_self]
      exact ⟨hans, h2, by rw [hflag]; exact h3, h4, h5⟩

theorem PsRecv.live (h : (s.lane i).Live) (hs : s.PsRecv i t) : (t.lane i).Live := by
  obtain ⟨h1, h2, h3, h4, h5⟩ := h
  cases hs with
  | test hpc _ | decodeP hpc | decodeQ hpc =>
      have h4 := h4.imp_right (·.resolve_right (by simp [hpc]))
      simp only [setLane, Function.update_self]
      exact ⟨h1, h2, h3, h4.imp_right .inl, h5⟩
  | count hpc =>
      rw [setLane_self]
      exact ⟨h1, h2, h3, .inr (.inr rfl), h5⟩
  | flag hpc =>
      obtain ⟨h0, hw⟩ := h2
      rw [setLane_self]
      exact ⟨h1, ⟨h0, hw⟩, h3, .inl rfl, h5⟩

theorem WorkerRecv.live (h : l.Live) (hs : WorkerRecv l l') : l'.Live := by
  obtain ⟨h1, h2, h3, h4, h5⟩ := h
  cases hs with
  | test hpc _ | decodeP hpc | decodeQ hpc =>
      have h3 := h3.imp_right (·.resolve_right (by simp [hpc]))
      exact ⟨h1, h2, h3.imp_right .inl, h4, h5⟩
  | count hpc => exact ⟨h1, h2, .inr (.inr rfl), h4, h5⟩
  | flag hpc =>
      obtain ⟨h0, hw⟩ := h1
      exact ⟨⟨h0, hw⟩, h2, .inl rfl, h4, h5⟩

theorem WorkerSend.live (h : l.Live) (hs : WorkerSend l l') : l'.Live := by
  obtain ⟨h1, h2, h3, h4, h5⟩ := h
  cases hs with
  | test | count => exact ⟨h1, h2, h3, h4, nofun⟩
  | body hb =>
      obtain ⟨hans, hflag, hpc⟩ := hb.answered h2
      exact ⟨h1, hans, h3, by rw [hflag]; exact h4, hpc⟩

theorem LaneStep.live (h : (s.lane i).Live) (hs : LaneStep u s i a l) : l.Live := by
  cases hs with
  | psSend hs => exact hs.live h
  | psRecv hs => exact hs.live h
  | workerMain hs =>
      obtain ⟨h1, h2, h3, h4, h5⟩ := h
      cases hs <;> exact ⟨h1, h2, h3, h4, h5⟩
  | workerSend hs => exact hs.live h
  | workerRecv hs => exact hs.live h
  | down hs =>
      obtain ⟨h1, h2, h3, h4, h5⟩ := h
      exact ⟨h1.step hs, h2, by rw [Conn.canRecv_step hs]; exact h3, h4, h5⟩
  | up hs =>
      obtain ⟨h1, h2, h3, h4, h5⟩ := h
      exact ⟨h1, h2.step hs, h3, by rw [Conn.canRecv_step hs]; exact h4, h5⟩

/-! ## Enabled threads -/

/-- The action has a step. -/
def Enabled (u : Update n α) (s : Cluster n α) (a : Act n) : Prop := (s.step u a).isSome

theorem enabled_psSend (h : (s.lane i).sendPc = .test → (s.lane i).toSendIter ≤ s.completedIter) :
    s.Enabled u (.psSend i) := by
  rw [Enabled, step, psSendTd]
  cases hpc : (s.lane i).sendPc with
  | test => simp [psCanSend, h hpc]
  | _ => simp [sendBody]

theorem enabled_psRecv
    (h : (s.lane i).recvPc = .test → (s.lane i).recvedIter + 1 < (s.lane i).up.counted) :
    s.Enabled u (.psRecv i) := by
  rw [Enabled, step, psRecvTd]
  cases hpc : (s.lane i).recvPc with
  | test =>
      have hlt := h hpc
      rw [Conn.counted] at hlt
      simp [hlt]
  | _ => simp

theorem enabled_workerMain
    (h : (s.lane i).worker.mainPc = .test →
      (s.lane i).worker.iterT ≤ (s.lane i).worker.recvedAge) :
    s.Enabled u (.workerMain i) := by
  rw [Enabled, step, workerMain]
  cases hpc : (s.lane i).worker.mainPc with
  | test => simp [canCompute, h hpc]
  | _ => simp

theorem enabled_workerSend (hst : (s.lane i).worker.sendPc ≠ .stamp)
    (h : (s.lane i).worker.sendPc = .test →
      (s.lane i).worker.toSendAge = (s.lane i).worker.completedIter) :
    s.Enabled u (.workerSend i) := by
  rw [Enabled, step, workerSendTd]
  cases hpc : (s.lane i).worker.sendPc with
  | test => simp [workerCanSend, h hpc]
  | stamp => exact absurd hpc hst
  | _ => simp [sendBody]

theorem enabled_workerRecv
    (h : (s.lane i).worker.recvPc = .test →
      (s.lane i).worker.recvedAge + 1 < (s.lane i).down.counted) :
    s.Enabled u (.workerRecv i) := by
  rw [Enabled, step, workerRecvTd]
  cases hpc : (s.lane i).worker.recvPc with
  | test =>
      have hlt := h hpc
      rw [Conn.counted] at hlt
      simp [hlt]
  | _ => simp

theorem enabled_down (h : ∃ a, ((s.lane i).down.step a).isSome) :
    ∃ a, s.Enabled u (.down i a) := by
  obtain ⟨a, ha⟩ := h
  exact ⟨a, by rw [Enabled, step, Option.isSome_map]; exact ha⟩

theorem enabled_up (h : ∃ a, ((s.lane i).up.step a).isSome) : ∃ a, s.Enabled u (.up i a) := by
  obtain ⟨a, ha⟩ := h
  exact ⟨a, by rw [Enabled, step, Option.isSome_map]; exact ha⟩

/-- What a connection has not delivered moves it, if no handler waits for
`can_recv`. -/
theorem conn_moves {c : Conn (Frame α)} {E : ℤ} (h : c.Sound E)
    (hr : c.inFlight = 0 → ¬ c.AwaitsRecv) (hp : 0 < c.pending + c.inFlight) :
    ∃ a, (c.step a).isSome := by
  rcases h.step_or_awaits with hs | hw | hw
  · exact hs
  · rcases Nat.eq_zero_or_pos c.inFlight with h0 | h0
    · exact absurd hw (Conn.not_awaitsSend_of_pending (by omega))
    · exact absurd hw (Conn.not_awaits_of_inFlight h.token h0).1
  · rcases Nat.eq_zero_or_pos c.inFlight with h0 | h0
    · exact absurd hw (hr h0)
    · exact absurd hw (Conn.not_awaits_of_inFlight h.token h0).2

/-- A lane whose reply is not merged can go on. -/
theorem lane_moves (hc : (s.lane i).Ctl (s.completedIter + 1)) (hn : (s.lane i).NoLoss)
    (hl : (s.lane i).Live) (hr : (s.lane i).recvedIter + 1 < s.completedIter + 1) :
    ∃ a, a ≠ .main ∧ s.Enabled u a := by
  by_contra hno
  have hno : ∀ a, a ≠ .main → ¬ s.Enabled u a := fun a ha he => hno ⟨a, ha, he⟩
  obtain ⟨h1, h2, h3, h4, h5, h6, h7, h8⟩ := hc.chain
  -- every thread stands at a guard that is false
  have hsend := mt enabled_psSend (hno (.psSend i) nofun)
  have hrecv := mt enabled_psRecv (hno (.psRecv i) nofun)
  have hmain := mt enabled_workerMain (hno (.workerMain i) nofun)
  have hwsend := mt (enabled_workerSend hl.sendPc) (hno (.workerSend i) nofun)
  have hwrecv := mt enabled_workerRecv (hno (.workerRecv i) nofun)
  simp only [Classical.not_imp, not_le, not_lt] at hsend hrecv hmain hwsend hwrecv
  obtain ⟨hspc, hsend⟩ := hsend
  obtain ⟨hrpc, hrecv⟩ := hrecv
  obtain ⟨hmpc, hmain⟩ := hmain
  obtain ⟨hwspc, hwsend⟩ := hwsend
  obtain ⟨hwrpc, hwrecv⟩ := hwrecv
  -- the consumers have read what is counted, so no handler waits for `can_recv`
  have hawaitDown : ¬ (s.lane i).down.AwaitsRecv := by
    rintro ⟨hw, hflag⟩
    have hcnt := hl.downAnswered.waits hw
    rcases hl.downRecv with hf | hage | hpc
    · rw [hflag] at hf
      cases hf
    · omega
    · rw [hwrpc] at hpc
      cases hpc
  have hawaitUp : ¬ (s.lane i).up.AwaitsRecv := by
    rintro ⟨hw, hflag⟩
    have hcnt := hl.upAnswered.waits hw
    rcases hl.upRecv with hf | hage | hpc
    · rw [hflag] at hf
      cases hf
    · omega
    · rw [hrpc] at hpc
      cases hpc
  have hdown : (s.lane i).down.pending + (s.lane i).down.inFlight = 0 := by
    by_contra hne
    obtain ⟨a, ha⟩ := enabled_down (u := u)
      (conn_moves hc.down (fun _ => hawaitDown) (Nat.pos_of_ne_zero hne))
    exact hno (.down i a) nofun ha
  have hup : (s.lane i).up.pending + (s.lane i).up.inFlight = 0 := by
    by_contra hne
    obtain ⟨a, ha⟩ := enabled_up (u := u)
      (conn_moves hc.up (fun _ => hawaitUp) (Nat.pos_of_ne_zero hne))
    exact hno (.up i a) nofun ha
  -- so every link of the chain is tight, and the reply is merged
  have hkeptDown := hn.down
  have hkeptUp := hn.up
  have hflightDown := hc.down.ctl.flight
  have hflightUp := hc.up.ctl.flight
  simp only [Conn.Kept, Lane.sentDown, Lane.sentUp, hspc, hwspc, SendPc.sent, SendPc.encoding]
    at hkeptDown hkeptUp h3 h6
  simp only [hmpc, WorkerPc.computing, WorkerPc.lag] at h4 h8
  simp only [hrpc, RecvPc.decoding] at h2
  simp only [hwrpc, RecvPc.decoding] at h5
  omega

/-! ## The bundled post -/

/-- The end of `client_on_completion`, from its post on, is one step. -/
def wholePost (s : Cluster n α) : Act n → ℕ
  | .down i .client => if (s.lane i).down.clientPc = .post then 4 else 1
  | .up i .client => if (s.lane i).up.clientPc = .post then 4 else 1
  | _ => 1

theorem SendBody.clientPc {p q : Block α} {c c' : Conn (Frame α)} {pc pc' : SendPc}
    (hb : SendBody p q c pc pc' c') : c'.clientPc = c.clientPc := by
  cases hb <;> rfl

theorem conn_settled {c c' : Conn (Frame α)} {b : ConnAct} (h : c.clientPc ≠ .clear)
    (hp : b = .client → c.clientPc ≠ .post) (hs : c.step b = some c') : c'.clientPc ≠ .clear := by
  cases Conn.step_cases hs with
  | post hpc => exact absurd hpc (hp rfl)
  | pollMr | pollReady | pollDone | pollInvalid | testSend | clear | count | repost => nofun
  | _ => exact h

theorem LaneStep.settled (h : (s.lane i).Settled) (hone : s.wholePost a = 1)
    (hs : LaneStep u s i a l) : l.Settled := by
  obtain ⟨hdown, hup⟩ := h
  cases hs with
  | psSend hs =>
      cases hs with
      | test | stamp | count =>
          simp only [setLane, Function.update_self]
          exact ⟨hdown, hup⟩
      | body hb =>
          rw [setLane_self]
          exact ⟨by rw [hb.clientPc]; exact hdown, hup⟩
  | psRecv hs =>
      cases hs <;> simp only [setLane, Function.update_self] <;> exact ⟨hdown, hup⟩
  | workerMain hs | workerRecv hs => cases hs <;> exact ⟨hdown, hup⟩
  | workerSend hs =>
      cases hs with
      | test | count => exact ⟨hdown, hup⟩
      | body hb => exact ⟨hdown, by rw [hb.clientPc]; exact hup⟩
  | @down b c hs =>
      refine ⟨conn_settled hdown ?_ hs, hup⟩
      rintro rfl hpc
      simp [wholePost, hpc] at hone
  | @up b c hs =>
      refine ⟨hdown, conn_settled hup ?_ hs⟩
      rintro rfl hpc
      simp [wholePost, hpc] at hone

/-- Settled states keep off the window of a lost announcement. -/
theorem clearedFirst_of_settled (h : ∀ i, (s.lane i).Settled) (a : Act n) :
    s.ClearedFirst a := by
  cases a with
  | psSend i => exact fun _ => (h i).1
  | workerSend i => exact fun _ => (h i).2
  | main | psRecv | workerMain | workerRecv | down | up => trivial

end Cluster

namespace Job

variable {j : Job n α} {s t : Cluster n α} {a : Act n} {i : Fin n}

/-- The whole bundle of a client handler has all its steps. -/
theorem run_wholePost_down (j : Job n α) (hpc : (s.lane i).down.clientPc = .post) :
    ∃ c : Conn (Frame α), c.clientPc = .poll ∧
      j.system.run s (List.replicate 4 (.down i .client)) =
        some (s.setLane i { s.lane i with down := c }) := by
  simp only [List.replicate, System.run, system, Cluster.step, Conn.step, Conn.clientOnCompletion,
    hpc, Option.map_some, Option.bind_some, Cluster.setLane_self, Cluster.setLane_setLane]
  exact ⟨_, rfl, rfl⟩

theorem run_wholePost_up (j : Job n α) (hpc : (s.lane i).up.clientPc = .post) :
    ∃ c : Conn (Frame α), c.clientPc = .poll ∧
      j.system.run s (List.replicate 4 (.up i .client)) =
        some (s.setLane i { s.lane i with up := c }) := by
  simp only [List.replicate, System.run, system, Cluster.step, Conn.step, Conn.clientOnCompletion,
    hpc, Option.map_some, Option.bind_some, Cluster.setLane_self, Cluster.setLane_setLane]
  exact ⟨_, rfl, rfl⟩

theorem settled_setLane {l : Lane α} (h : ∀ i, (s.lane i).Settled) (hl : l.Settled) (k : Fin n) :
    ((s.setLane i l).lane k).Settled := by
  by_cases hk : k = i
  · subst hk
    rw [Cluster.setLane_self]
    exact hl
  · rw [(Cluster.onLane_setLane s i l).lane_ne hk]
    exact h k

/-- The bundled step of a settled state has one of two forms. -/
theorem wholePost_cases (s : Cluster n α) (a : Act n) : s.wholePost a = 1 ∨
    ∃ i, s.wholePost a = 4 ∧ ((a = .down i .client ∧ (s.lane i).down.clientPc = .post) ∨
      (a = .up i .client ∧ (s.lane i).up.clientPc = .post)) := by
  cases a with
  | down i b =>
      by_cases hp : b = .client ∧ (s.lane i).down.clientPc = .post
      · obtain ⟨rfl, hp⟩ := hp
        exact .inr ⟨i, if_pos hp, .inl ⟨rfl, hp⟩⟩
      · left
        cases b <;> simp_all [Cluster.wholePost]
  | up i b =>
      by_cases hp : b = .client ∧ (s.lane i).up.clientPc = .post
      · obtain ⟨rfl, hp⟩ := hp
        exact .inr ⟨i, if_pos hp, .inr ⟨rfl, hp⟩⟩
      · left
        cases b <;> simp_all [Cluster.wholePost]
  | main | psSend | psRecv | workerMain | workerSend | workerRecv => exact .inl rfl

/-- With the bundled post, no step announces in the window of a lost
announcement. -/
theorem bundle_via (h : (j.system.bundle Cluster.wholePost).Reachable s) :
    j.system.Via Cluster.ClearedFirst s ∧ ∀ i, (s.lane i).Settled := by
  induction h with
  | init h0 =>
      refine ⟨.init h0, fun i => ?_⟩
      rw [h0]
      exact ⟨nofun, nofun⟩
  | @step s t a _ _ hs ih =>
      obtain ⟨hvia, hset⟩ := ih
      rcases wholePost_cases s a with hone | ⟨i, hfour, ⟨rfl, hpc⟩ | ⟨rfl, hpc⟩⟩
      · simp only [System.bundle, hone, List.replicate_one] at hs
        obtain ⟨t', hstep, ht⟩ := System.run_cons_eq_some.mp hs
        obtain rfl := Option.some.inj ht
        refine ⟨hvia.step (Cluster.clearedFirst_of_settled hset a) hstep, fun k => ?_⟩
        rcases Cluster.step_lane_or hstep k with hl | hl
        · rw [hl]
          exact hset k
        · exact hl.settled (hset k) hone
      · simp only [System.bundle, hfour] at hs
        refine ⟨hvia.run (System.Meets.replicate (fun _ => trivial) s 4) hs, ?_⟩
        obtain ⟨c, hc, hrun⟩ := run_wholePost_down j hpc
        obtain rfl := Option.some.inj (hrun.symm.trans hs)
        exact settled_setLane hset ⟨by rw [hc]; nofun, (hset i).2⟩
      · simp only [System.bundle, hfour] at hs
        refine ⟨hvia.run (System.Meets.replicate (fun _ => trivial) s 4) hs, ?_⟩
        obtain ⟨c, hc, hrun⟩ := run_wholePost_up j hpc
        obtain rfl := Option.some.inj (hrun.symm.trans hs)
        exact settled_setLane hset ⟨(hset i).1, by rw [hc]; nofun⟩

/-- An enabled action has its whole bundle. -/
theorem bundle_enabled (j : Job n α) (h : s.Enabled j.update a) :
    ((j.system.bundle Cluster.wholePost).step s a).isSome := by
  rcases wholePost_cases s a with hone | ⟨i, hfour, ⟨rfl, hpc⟩ | ⟨rfl, hpc⟩⟩
  · obtain ⟨t, hs⟩ := Option.isSome_iff_exists.mp h
    have hrun : j.system.run s [a] = some t := System.run_cons_eq_some.mpr ⟨t, hs, rfl⟩
    simp only [System.bundle, hone, List.replicate_one, hrun, Option.isSome_some]
  · obtain ⟨c, -, hrun⟩ := run_wholePost_down j hpc
    simp only [System.bundle, hfour, hrun, Option.isSome_some]
  · obtain ⟨c, -, hrun⟩ := run_wholePost_up j hpc
    simp only [System.bundle, hfour, hrun, Option.isSome_some]

theorem live_reachable (h : j.system.Reachable s) (i : Fin n) : (s.lane i).Live := by
  refine h.invariant (I := fun s => (s.lane i).Live) ?_ ?_
  · rintro _ rfl
    exact ⟨Conn.answered_established .., Conn.answered_established .., .inr (.inl rfl),
      .inr (.inl rfl), nofun⟩
  · intro s a t _ hi _ hs
    rcases Cluster.step_lane_or hs i with hl | hl
    · rw [hl]
      exact hi
    · exact hl.live hi

theorem enabled_main {u : Update n α} (h : s.mainPc ≠ .exited) : s.Enabled u .main := by
  rw [Cluster.Enabled, Cluster.step, Cluster.mainStep]
  cases hpc : s.mainPc with
  | scan j =>
      simp only
      split
      · split <;> rfl
      · rfl
  | merge | incr => rfl
  | exited => exact absurd hpc h

end Job

end StellarBench
