import StellarBench.Cluster.Data

/-!
# Announcements

`client_on_completion` posts a frame first and stores `can_send = false` after
it.  In between the frame can travel, the reply can come back, and `rdma_sendTd`
can announce the next frame.  Then the store wipes the new announcement out.

`ClearedFirst` says of a step that it does not announce in this window.  Runs of
such steps lose no announcement, and any other step loses one.
-/

namespace StellarBench

variable {n : ℕ} {α : Type}

/-- No announcement of the lane is lost. -/
structure Lane.NoLoss (l : Lane α) : Prop where
  down : l.down.Kept l.sentDown
  up : l.up.Kept l.sentUp

namespace Cluster

/-- The step does not announce a frame while the client handler of the connection
is between `ibv_post_send` and `can_send = false`. -/
def ClearedFirst (s : Cluster n α) : Act n → Prop
  | .psSend i => (s.lane i).sendPc = .announce → (s.lane i).down.clientPc ≠ .clear
  | .workerSend i => (s.lane i).worker.sendPc = .announce → (s.lane i).up.clientPc ≠ .clear
  | _ => True

instance (s : Cluster n α) : (a : Act n) → Decidable (s.ClearedFirst a)
  | .psSend i => inferInstanceAs (Decidable
      ((s.lane i).sendPc = .announce → (s.lane i).down.clientPc ≠ .clear))
  | .workerSend i => inferInstanceAs (Decidable
      ((s.lane i).worker.sendPc = .announce → (s.lane i).up.clientPc ≠ .clear))
  | .main | .psRecv _ | .workerMain _ | .workerRecv _ | .down _ _ | .up _ _ => .isTrue trivial

variable {u : Update n α} {s t : Cluster n α} {a : Act n} {i : Fin n} {l : Lane α} {M : ℤ}

theorem SendBody.kept {p q : Block α} {c c' : Conn (Frame α)} {pc pc' : SendPc} {k : ℤ}
    (hb : SendBody p q c pc pc' c') (h : c.Kept (k + pc.sent)) (hp : c.pending = 0)
    (hg : pc = .announce → c.clientPc ≠ .clear) : c'.Kept (k + pc'.sent) := by
  rw [Conn.Kept] at h ⊢
  cases hb with
  | headP | elesP | headQ | elesQ | setLen => exact h
  | announce =>
      rw [Conn.pending_announce hp (hg rfl)]
      simp only [hp, SendPc.sent, Conn.posted_announce] at h ⊢
      omega

/-- An announcement in the window is lost. -/
theorem SendBody.lost {p q : Block α} {c c' : Conn (Frame α)} {pc' : SendPc} {k : ℤ}
    (hb : SendBody p q c .announce pc' c') (h : c.Kept k) (hp : c.pending = 0)
    (hg : c.clientPc = .clear) : ¬ c'.Kept (k + pc'.sent) := by
  rw [Conn.Kept] at h ⊢
  cases hb
  rw [Conn.pending_announce_clear hg]
  simp only [hp, SendPc.sent, Conn.posted_announce] at h ⊢
  omega

theorem PsSend.noLoss (hc : (s.lane i).Ctl M) (h : (s.lane i).NoLoss)
    (hg : s.ClearedFirst (.psSend i)) (hs : s.PsSend i t) : (t.lane i).NoLoss := by
  obtain ⟨hdown, hup⟩ := h
  cases hs with
  | test hpc _ =>
      simp only [Lane.sentDown, hpc, SendPc.sent] at hdown
      rw [setLane_self]
      exact ⟨hdown, hup⟩
  | stamp hpc =>
      simp only [Lane.sentDown, hpc, SendPc.sent] at hdown
      simp only [setLane, Function.update_self]
      exact ⟨hdown, hup⟩
  | body hb =>
      obtain ⟨-, -, he, -⟩ := Lane.sendBody_sound hc.down hb
      have hex := hc.exclusive
      rw [Lane.slack] at hex
      rw [setLane_self]
      exact ⟨hb.kept hdown (by omega) hg, hup⟩
  | count hpc =>
      simp only [Lane.sentDown, hpc, SendPc.sent] at hdown
      rw [setLane_self]
      exact ⟨by simpa [Lane.sentDown] using hdown, hup⟩

theorem WorkerSend.noLoss (hc : l.Ctl M) (h : l.NoLoss)
    (hg : l.worker.sendPc = .announce → l.up.clientPc ≠ .clear) {l' : Lane α}
    (hs : WorkerSend l l') : l'.NoLoss := by
  obtain ⟨hdown, hup⟩ := h
  cases hs with
  | test hpc _ =>
      simp only [Lane.sentUp, hpc, SendPc.sent] at hup
      exact ⟨hdown, hup⟩
  | body hb =>
      obtain ⟨-, -, he, -⟩ := Lane.sendBody_sound hc.up hb
      have hex := hc.exclusive
      rw [Lane.slack] at hex
      exact ⟨hdown, hb.kept hup (by omega) hg⟩
  | count hpc =>
      simp only [Lane.sentUp, hpc, SendPc.sent] at hup
      exact ⟨hdown, by simpa [Lane.sentUp] using hup⟩

/-- A step that announces outside the window loses nothing. -/
theorem LaneStep.noLoss (hc : (s.lane i).Ctl M) (h : (s.lane i).NoLoss)
    (hg : s.ClearedFirst a) (hs : LaneStep u s i a l) : l.NoLoss := by
  cases hs with
  | psSend hs => exact hs.noLoss hc h hg
  | psRecv hs =>
      obtain ⟨hdown, hup⟩ := h
      cases hs with
      | test | decodeP | decodeQ | count | flag =>
          simp only [setLane, Function.update_self]
          exact ⟨hdown, hup⟩
  | workerSend hs => exact hs.noLoss hc h hg
  | workerMain hs =>
      obtain ⟨hdown, hup⟩ := h
      cases hs <;> exact ⟨hdown, hup⟩
  | workerRecv hs =>
      obtain ⟨hdown, hup⟩ := h
      cases hs <;> exact ⟨hdown, hup⟩
  | down hs => exact ⟨h.down.step hs, h.up⟩
  | up hs => exact ⟨h.down, h.up.step hs⟩

/-- A step that announces in the window loses the announcement. -/
theorem noLoss_of_clearedFirst (hc : s.Ctl) (h : ∀ i, (s.lane i).NoLoss)
    (hs : s.step u a = some t) (ht : ∀ i, (t.lane i).NoLoss) : s.ClearedFirst a := by
  cases a with
  | psSend i =>
      intro hpc hclear
      have hex := (hc.lane i).exclusive
      simp only [Lane.slack, hpc, SendPc.encoding] at hex
      cases psSendTd_cases hs with
      | body hb =>
          rw [hpc] at hb
          have hdown := (ht i).down
          rw [setLane_self] at hdown
          have hkept := (h i).down
          simp only [Lane.sentDown, hpc, SendPc.sent, Nat.cast_zero, add_zero] at hkept
          exact hb.lost hkept (by omega) hclear hdown
      | test hpc' _ | stamp hpc' | count hpc' =>
          rw [hpc] at hpc'
          cases hpc'
  | workerSend i =>
      intro hpc hclear
      obtain ⟨l, hl, rfl⟩ := Option.map_eq_some_iff.mp hs
      have hex := (hc.lane i).exclusive
      simp only [Lane.slack, hpc, SendPc.encoding] at hex
      have hup := (ht i).up
      rw [setLane_self] at hup
      cases workerSendTd_cases hl with
      | body hb =>
          rw [hpc] at hb
          have hkept := (h i).up
          simp only [Lane.sentUp, hpc, SendPc.sent, Nat.cast_zero, add_zero] at hkept
          exact hb.lost hkept (by omega) hclear hup
      | test hpc' _ | count hpc' =>
          rw [hpc] at hpc'
          cases hpc'
  | main | psRecv | workerMain | workerRecv | down | up => trivial

end Cluster

namespace Job

variable {j : Job n α} {s t : Cluster n α} {a : Act n} {i : Fin n}

theorem noLoss_via (h : j.system.Via Cluster.ClearedFirst s) (i : Fin n) :
    (s.lane i).NoLoss := by
  refine h.invariant (I := fun s => (s.lane i).NoLoss) ?_ ?_
  · rintro _ rfl
    exact ⟨rfl, rfl⟩
  · intro s a t hr hi hg hs
    rcases Cluster.step_lane_or hs i with hl | hl
    · rw [hl]
      exact hi
    · exact hl.noLoss ((ctl_reachable hr.reachable).lane i) hi hg

/-- The frame that the server's client handler is about to post. -/
theorem Data.postDown (hc : s.Ctl) (d : j.Data s) (hpc : (s.lane i).down.clientPc = .post) :
    ∃ k : ℕ, (s.lane i).down.posted = k ∧ (s.lane i).sentDown = k + 1 ∧
      (s.lane i).down.client.buffer = Frame.ofBlocks (j.roundOf i k).1 (j.roundOf i k).2 := by
  obtain ⟨r, di⟩ := d i
  obtain ⟨-, h2, h3, h4, h5, h6, h7, -⟩ := (hc.lane i).chain
  obtain ⟨hflight, hle⟩ := (hc.lane i).down.ctl
  have hup := (hc.lane i).up.counted_le
  have hround := di.round
  have hpend : (s.lane i).down.pending = 1 := by simp [Conn.pending, hpc]
  exact ⟨r, by omega, by omega, di.down.source (by omega)⟩

/-- The reply that the worker's client handler is about to post. -/
theorem Data.postUp (hc : s.Ctl) (d : j.Data s) (hpc : (s.lane i).up.clientPc = .post) :
    ∃ k : ℕ, (s.lane i).up.posted = k ∧ (s.lane i).sentUp = k + 1 ∧
      (s.lane i).up.client.buffer = Frame.ofBlocks (j.replyOf i k).1 (j.replyOf i k).2 := by
  obtain ⟨r, di⟩ := d i
  obtain ⟨-, h2, h3, h4, h5, h6, h7, -⟩ := (hc.lane i).chain
  obtain ⟨hflight, hle⟩ := (hc.lane i).up.ctl
  have hdown := (hc.lane i).down.counted_le
  have hround := di.round
  have hpend : (s.lane i).up.pending = 1 := by simp [Conn.pending, hpc]
  exact ⟨r, by omega, by omega, di.up.source (by omega)⟩

/-- As long as no frame is announced between a post and the store
`can_send = false` after it, every announced frame is posted once: announcements
are posted or stand, and post number `k` carries frame `k`.  The next step loses
an announcement exactly if it makes one in that window. -/
theorem announced_posted (h : j.system.Via Cluster.ClearedFirst s) :
    (∀ i, (s.lane i).NoLoss ∧
      ((s.lane i).down.clientPc = .post → ∃ k : ℕ,
        (s.lane i).down.posted = k ∧ (s.lane i).sentDown = k + 1 ∧
        (s.lane i).down.client.buffer = Frame.ofBlocks (j.roundOf i k).1 (j.roundOf i k).2) ∧
      ((s.lane i).up.clientPc = .post → ∃ k : ℕ,
        (s.lane i).up.posted = k ∧ (s.lane i).sentUp = k + 1 ∧
        (s.lane i).up.client.buffer = Frame.ofBlocks (j.replyOf i k).1 (j.replyOf i k).2)) ∧
    ∀ a t, s.step j.update a = some t → (s.ClearedFirst a ↔ ∀ i, (t.lane i).NoLoss) := by
  obtain ⟨hc, d⟩ := data_reachable h.reachable
  refine ⟨fun i => ⟨noLoss_via h i, d.postDown hc, d.postUp hc⟩, ?_⟩
  intro a t hs
  constructor
  · intro hg i
    exact noLoss_via (h.step hg hs) i
  · exact Cluster.noLoss_of_clearedFirst hc (noLoss_via h) hs

/-- The client handler of the server before its second post, with the frame of the second
round in the buffer. -/
theorem announced_posted_small : ∃ s : Cluster 1 ℕ, (s.lane 0).down.clientPc = .post ∧
    (s.lane 0).down.posted = 1 ∧ (s.lane 0).sentDown = 2 ∧ (s.lane 0).NoLoss ∧
    (s.lane 0).down.client.buffer =
      Frame.ofBlocks (small.roundOf 0 1).1 (small.roundOf 0 1).2 := by
  obtain ⟨s, hreach, hpc, hposted⟩ := (small.system.restrict Cluster.ClearedFirst).exists_reachable
    (System.script (smallRound 0 ++ [(.main, 4), (.psSend 0, 8),
      (.down 0 .server, 3), (.down 0 .deliverMsg, 1), (.down 0 .client, 2)]))
    (fun s => (s.lane 0).down.clientPc = .post ∧ (s.lane 0).down.posted = 1) rfl
    (by decide)
  obtain ⟨hloss, hpost, -⟩ := (announced_posted (System.via_of_restrict hreach)).1 0
  obtain ⟨k, hk, hsent, hbuf⟩ := hpost hpc
  obtain rfl : k = 1 := by omega
  exact ⟨s, hpc, hposted, hsent, hloss, hbuf⟩

/-- The first round, with the client handler of the server asleep after its post,
the second frame, and then the store `can_send = false`. -/
def lateClear (i : Fin n) : List (Act n × ℕ) :=
  [(.main, 4), (.psSend i, 9), (.down i .deliverMsg, 1), (.down i .client, 3),
    (.down i .nicRead, 1), (.down i .deliver, 1), (.down i .server, 4), (.workerRecv i, 5),
    (.workerMain i, 4), (.workerSend i, 8)] ++ transfer (.up i) ++
  [(.psRecv i, 5), (.main, 4), (.psSend i, 9), (.down i .client, 1)]

/-- Two frames are announced, one is posted, and no announcement stands. -/
theorem announcement_lost : ∃ s, small.system.Reachable s ∧ (s.lane 0).sentDown = 2 ∧
    (s.lane 0).down.posted = 1 ∧ (s.lane 0).down.client.canSend = false ∧
    ¬ (s.lane 0).NoLoss := by
  obtain ⟨s, hreach, hsent, hposted, hflag, hpend⟩ := small.system.exists_reachable
    (System.script (lateClear 0))
    (fun s => (s.lane 0).sentDown = 2 ∧ (s.lane 0).down.posted = 1 ∧
      (s.lane 0).down.client.canSend = false ∧ (s.lane 0).down.pending = 0) rfl (by decide)
  refine ⟨s, hreach, hsent, hposted, hflag, ?_⟩
  rintro ⟨hdown, -⟩
  rw [Conn.Kept, hsent, hposted, hpend] at hdown
  exact absurd hdown (by decide)

end Job

end StellarBench
