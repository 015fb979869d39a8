import StellarBench.Cluster.Rounds

/-!
# Every step keeps the data invariant

The proofs go thread by thread.  A thread that is inside the body of its loop
finds what it reads by the data invariant of its lane, and everything it could
disturb is excluded by the counter chain.  The merge of a reply ends a round.
-/

namespace StellarBench

variable {n : ℕ} {α : Type}

/-- The pairs of a round, as the data invariant uses them. -/
structure RoundSpec (u : Update n α) (i : Fin n) (r : ℕ) (f g : Block α × Block α) : Prop where
  stamped : stamp r f = f
  reply : g = u.apply i r f
  shape : Job.Shape i f

theorem Job.roundSpec (j : Job n α) (i : Fin n) (r : ℕ) :
    RoundSpec j.update i r (j.roundOf i r) (j.replyOf i r) :=
  ⟨stamp_roundOf j i r, rfl, shape_roundOf j i r⟩

theorem SendPc.slots_eq_zero {pc : SendPc} (h : pc.encoding = 0) : pc.slots = 0 := by
  cases pc <;> simp_all

namespace Lane

variable {l l' : Lane α} {M : ℤ} {r : ℕ} {u : Update n α} {i : Fin n}
  {f g : Block α × Block α} {P Q : Block α}

theorem Data.downStep {c : Conn (Frame α)} {a : ConnAct} (hc : Ctl M l) (d : Data r f g P Q l)
    (hs : l.down.step a = some c) : Data r f g P Q { l with down := c } :=
  { d with
    filledDown := by
      show Frame.Filled l.sendPc.slots f.1 f.2 c.client.buffer
      rw [Conn.client_buffer_step hs]
      exact d.filledDown
    down := d.down.step (fun _ _ _ => rfl) hc.down.ctl hs }

theorem Data.upStep {c : Conn (Frame α)} {a : ConnAct} (hc : Ctl M l) (d : Data r f g P Q l)
    (hs : l.up.step a = some c) : Data r f g P Q { l with up := c } :=
  { d with
    filledUp := by
      show Frame.Filled l.worker.sendPc.slots g.1 g.2 c.client.buffer
      rw [Conn.client_buffer_step hs]
      exact d.filledUp
    up := d.up.step (fun _ _ _ => rfl) hc.up.ctl hs }

theorem Data.workerMain (hr : RoundSpec u i r f g) (hc : Ctl M l) (d : Data r f g P Q l)
    (hs : Cluster.WorkerMain u i l l') : Data r f g P Q l' := by
  obtain ⟨h1, h2, h3, h4, h5, h6, h7, h8⟩ := hc.chain
  obtain ⟨hd, hu⟩ := hc.counted_le
  have hround := d.round
  cases hs with
  | test hpc _ =>
      exact { d with fresh := fun hlt _ => d.fresh hlt (by simp [hpc]), updated := nofun }
  | compute hpc =>
      simp only [hpc, WorkerPc.computing, WorkerPc.lag] at h4 h8
      -- the frame is decoded, so the update reads the pair of this round
      obtain ⟨hp, hq⟩ := d.fresh (by omega) (by simp [hpc])
      have hiter : l.worker.iterT = r := by omega
      have hg : ({ l.worker.pblock with
            eles := (u.run i l.worker.iterT l.worker.pblock l.worker.qblock).1 },
          { l.worker.qblock with
            eles := (u.run i l.worker.iterT l.worker.pblock l.worker.qblock).2 }) = g := by
        rw [hiter, hp, hq]
        exact hr.reply.symm
      obtain ⟨hgp, hgq⟩ := Prod.ext_iff.mp hg
      have hdec : l.worker.recvPc.decoding = 0 := by omega
      exact { d with
        workerP := fun a ha => by
          have ha : l.worker.recvPc = .decodeQ a := ha
          simp [ha] at hdec
        workerPQ := fun a b ha => by
          have ha : l.worker.recvPc = .count a b := ha
          simp [ha] at hdec
        fresh := fun _ hne => absurd rfl hne
        updated := fun _ => ⟨hgp, hgq⟩
        ready := fun hlt => absurd hlt (by show ¬ l.sentUp < l.worker.completedIter + 1; omega)
        isP := d.isP }
  | done hpc =>
      simp only [hpc, WorkerPc.computing, WorkerPc.lag] at h4 h8
      exact { d with
        fresh := fun hlt _ => absurd hlt (by show ¬ l.worker.iterT < l.worker.recvedAge; omega)
        updated := nofun
        ready := fun _ => d.updated hpc }
  | incr hpc =>
      exact { d with fresh := fun hlt _ => d.fresh hlt (by simp [hpc]), updated := nofun }

theorem Data.workerSend (hc : Ctl M l) (d : Data r f g P Q l) (hs : Cluster.WorkerSend l l') :
    Data r f g P Q l' := by
  obtain ⟨h1, h2, h3, h4, h5, h6, h7, h8⟩ := hc.chain
  obtain ⟨hd, hu⟩ := hc.counted_le
  cases hs with
  | test hpc _ =>
      have hup := d.up
      have hready := d.ready
      simp only [Lane.sentUp, hpc, SendPc.sent] at hup hready
      exact { d with ready := hready, filledUp := Frame.filled_zero .., up := hup }
  | @body pc c hb =>
      obtain ⟨-, -, he, -⟩ := sendBody_sound hc.up hb
      obtain ⟨hp, hq⟩ := d.ready (by omega)
      have hfill := d.filledUp
      rw [← hp, ← hq] at hfill
      have hup := contents_sendBody hc.up.ctl (R := l.recvedIter + 1) (by omega)
        (by show l.sentUp ≤ _; omega) hfill hb
      have hfill' := filled_sendBody hfill hb
      rw [hp, hq] at hup hfill'
      exact { d with ready := fun _ => ⟨hp, hq⟩, filledUp := hfill', up := hup }
  | count hpc =>
      have hup := d.up
      have hready := d.ready
      simp only [Lane.sentUp, hpc, SendPc.sent] at hup hready
      exact { d with
        ready := by simpa [Lane.sentUp] using hready
        filledUp := Frame.filled_zero ..
        up := by simpa [Lane.sentUp] using hup }

/-- While a worker decodes, its main thread and its sender are done with the round
before. -/
theorem Ctl.decoding_idle (h : Ctl M l) (hdec : l.worker.recvPc.decoding = 1) :
    l.worker.mainPc ≠ .done ∧ l.worker.recvedAge ≤ l.worker.completedIter ∧
      l.worker.completedIter + 1 ≤ l.sentUp := by
  obtain ⟨h1, h2, h3, h4, h5, h6, h7, h8⟩ := h.chain
  obtain ⟨hd, hu⟩ := h.counted_le
  have hcomp : l.worker.mainPc.computing = 0 := by omega
  refine ⟨fun hm => ?_, by omega, by omega⟩
  rw [hm] at hcomp
  cases hcomp

theorem Data.workerRecv (hr : RoundSpec u i r f g) (hc : Ctl M l) (d : Data r f g P Q l)
    (hs : Cluster.WorkerRecv l l') : Data r f g P Q l' := by
  have hcounted := hc.chain.decodedDown
  cases hs with
  | test hpc _ => exact { d with workerP := nofun, workerPQ := nofun }
  | decodeP hpc =>
      obtain ⟨hmain, hage, hsent⟩ := hc.decoding_idle (by simp [hpc])
      simp only [hpc, RecvPc.decoding] at hcounted
      have hp : l.down.server.buffer.workerDecodeP l.worker.pblock = f.1 := by
        rw [d.down.unread (by omega)]
        exact Frame.workerDecode_full hr.shape.fullP (d.isP.1.trans hr.shape.isP.symm)
      exact { d with
        workerP := fun _ _ => hp
        workerPQ := nofun
        fresh := fun hlt _ => absurd hlt hage.not_gt
        updated := fun hm => absurd hm hmain
        ready := fun hlt => absurd hlt hsent.not_gt
        isP := ⟨d.isP.1, d.isP.2⟩ }
  | decodeQ hpc =>
      obtain ⟨hmain, hage, hsent⟩ := hc.decoding_idle (by simp [hpc])
      simp only [hpc, RecvPc.decoding] at hcounted
      have hq : l.down.server.buffer.workerDecodeQ l.worker.qblock = f.2 := by
        rw [d.down.unread (by omega)]
        exact Frame.workerDecode_full hr.shape.fullQ (d.isP.2.trans hr.shape.isQ.symm)
      exact { d with
        workerP := nofun
        workerPQ := fun _ _ _ => ⟨d.workerP _ hpc, hq⟩
        fresh := fun hlt _ => absurd hlt hage.not_gt
        updated := fun hm => absurd hm hmain
        ready := fun hlt => absurd hlt hsent.not_gt
        isP := ⟨d.isP.1, d.isP.2⟩ }
  | count hpc =>
      exact { d with
        down := d.down.mono (by show l.worker.recvedAge + 1 ≤ l.worker.recvedAge + 1 + 1; omega)
        workerP := nofun
        workerPQ := nofun
        fresh := fun _ _ => d.workerPQ _ _ hpc }
  | flag hpc => exact { d with down := d.down.ack, workerP := nofun, workerPQ := nofun }

/-- The end of a round.  All counters of the lane agree, so every thread and both
connections are idle. -/
theorem Data.next {f' g' : Block α × Block α} (hc : Ctl M l) (d : Data r f g P Q l)
    (hdec : l.recvPc.decoding = 1) (hp : { P with dataAge := (r + 1 : ℕ) } = f'.1)
    (hq : { Q with dataAge := (r + 1 : ℕ) } = f'.2) :
    Data (r + 1) f' g' P Q { l with recvPc := .flag, recvedIter := l.recvedIter + 1 } := by
  obtain ⟨h1, h2, h3, h4, h5, h6, h7, h8⟩ := hc.chain
  obtain ⟨hd, hu⟩ := hc.counted_le
  have hround := d.round
  have henc : l.sendPc.encoding = 0 := by omega
  have hwenc : l.worker.sendPc.encoding = 0 := by omega
  have hwdec : l.worker.recvPc.decoding = 0 := by omega
  have hcomp : l.worker.mainPc.computing = 0 := by omega
  have hdown := Conn.Contents.of_idle hc.down.ctl (R := l.worker.recvedAge + 1) (by omega)
    (by omega) (Frame.ofBlocks f'.1 f'.2)
  have hup := Conn.Contents.of_idle hc.up.ctl (R := l.recvedIter + 1 + 1) (by omega)
    (by omega) (Frame.ofBlocks g'.1 g'.2)
  exact
    { round := by show l.recvedIter + 1 + 1 = (r + 1 : ℕ); omega
      serverP := fun _ _ => hp
      serverQ := fun _ => hq
      decodedP := nofun
      decodedPQ := nofun
      stamped := fun he => absurd he (by show l.sendPc.encoding ≠ 1; omega)
      filledDown := by
        show Frame.Filled l.sendPc.slots _ _ _
        rw [SendPc.slots_eq_zero henc]
        exact Frame.filled_zero ..
      down := hdown
      workerP := fun a ha => by
        have ha : l.worker.recvPc = .decodeQ a := ha
        simp [ha] at hwdec
      workerPQ := fun a b ha => by
        have ha : l.worker.recvPc = .count a b := ha
        simp [ha] at hwdec
      fresh := fun hlt => absurd hlt (by
        show ¬ l.worker.completedIter < l.worker.recvedAge; omega)
      updated := fun ha => by
        have ha : l.worker.mainPc = .done := ha
        simp [ha] at hcomp
      ready := fun hlt => absurd hlt (by show ¬ l.sentUp < l.worker.completedIter + 1; omega)
      isP := d.isP
      filledUp := by
        show Frame.Filled l.worker.sendPc.slots _ _ _
        rw [SendPc.slots_eq_zero hwenc]
        exact Frame.filled_zero ..
      up := hup }

end Lane

/-! ## The threads of the server -/

namespace Job

variable {j : Job n α} {s t : Cluster n α} {i : Fin n} {r : ℕ}

/-- The data invariant of lane `i`, in the terms of the bulk-synchronous run. -/
abbrev LaneData (j : Job n α) (i : Fin n) (r : ℕ) (s : Cluster n α) : Prop :=
  (s.lane i).Data r (j.roundOf i r) (j.replyOf i r) (s.pblocks (i : ℕ)) (s.qblocks (i : ℕ))

theorem LaneData.psSend (hc : (s.lane i).Ctl (s.completedIter + 1)) (d : j.LaneData i r s)
    (hs : s.PsSend i t) : j.LaneData i r t := by
  obtain ⟨h1, h2, h3, h4, h5, h6, h7, h8⟩ := hc.chain
  obtain ⟨hd, hu⟩ := hc.counted_le
  have hround := d.round
  cases hs with
  | test hpc _ =>
      have hdown := d.down
      simp only [Lane.sentDown, hpc, SendPc.sent] at hdown
      simp only [LaneData, Cluster.setLane, Function.update_self]
      exact { d with
        stamped := fun _ hne => absurd rfl hne
        filledDown := Frame.filled_zero ..
        down := hdown }
  | stamp hpc =>
      have hdown := d.down
      simp only [Lane.sentDown, hpc, SendPc.sent, SendPc.encoding] at hdown hd h6
      have hage : (s.lane i).toSendIter = r := by omega
      have hdec : (s.lane i).recvPc.decoding = 0 := by omega
      have hp := d.serverP (fun a ha => by simp [ha] at hdec) (fun a b ha => by simp [ha] at hdec)
      have hq := d.serverQ (fun a b ha => by simp [ha] at hdec)
      simp only [LaneData, Cluster.setLane, workerPidx, Function.update_self]
      exact { d with
        serverP := fun _ _ => hp
        serverQ := fun _ => hq
        decodedP := fun a ha => by
          have ha : (s.lane i).recvPc = .decodeQ a := ha
          simp [ha] at hdec
        decodedPQ := fun a b ha => by
          have ha : (s.lane i).recvPc = .count a b := ha
          simp [ha] at hdec
        stamped := fun _ _ => by rw [hage]; exact ⟨hp, hq⟩
        filledDown := Frame.filled_zero ..
        down := hdown }
  | @body pc c hb =>
      obtain ⟨-, -, he, -⟩ := Lane.sendBody_sound hc.down hb
      have hne : (s.lane i).sendPc ≠ .stamp := by
        intro hst
        rw [hst] at hb
        cases hb
      obtain ⟨hp, hq⟩ := d.stamped he hne
      have hfill := d.filledDown
      rw [← hp, ← hq] at hfill
      have hdown := contents_sendBody hc.down.ctl (R := (s.lane i).worker.recvedAge + 1) (by omega)
        (by show (s.lane i).sentDown ≤ _; omega) hfill hb
      have hfill' := filled_sendBody hfill hb
      rw [hp, hq] at hdown hfill'
      simp only [LaneData, Cluster.setLane, Function.update_self]
      exact { d with
        stamped := fun _ _ => ⟨hp, hq⟩
        filledDown := hfill'
        down := hdown }
  | count hpc =>
      have hdown := d.down
      simp only [Lane.sentDown, hpc, SendPc.sent] at hdown
      simp only [LaneData, Cluster.setLane, Function.update_self]
      exact { d with
        stamped := fun h => by cases h
        filledDown := Frame.filled_zero ..
        down := by simpa [Lane.sentDown] using hdown }

/-- The reply the server is decoding. -/
theorem LaneData.buffer_eq (d : j.LaneData i r s)
    (h : (s.lane i).recvedIter + 1 < (s.lane i).up.counted) :
    (s.lane i).up.server.buffer = Frame.ofBlocks (j.replyOf i r).1 (j.replyOf i r).2 :=
  d.up.unread h

theorem LaneData.psRecv (hc : (s.lane i).Ctl (s.completedIter + 1)) (d : j.LaneData i r s)
    (hs : s.PsRecv i t) : ∃ r', j.LaneData i r' t := by
  obtain ⟨h1, h2, h3, h4, h5, h6, h7, h8⟩ := hc.chain
  obtain ⟨hd, hu⟩ := hc.counted_le
  have hround := d.round
  have hf := shape_roundOf j i r
  have hg := shape_replyOf j i r
  cases hs with
  | test hpc _ =>
      simp only [LaneData, Cluster.setLane, Function.update_self]
      exact ⟨r, { d with
        serverP := fun _ _ => d.serverP (by simp [hpc]) (by simp [hpc])
        serverQ := fun _ => d.serverQ (by simp [hpc])
        decodedP := fun _ h => by cases h
        decodedPQ := fun _ _ h => by cases h }⟩
  | decodeP hpc =>
      simp only [hpc, RecvPc.decoding] at h2
      have henc : (s.lane i).sendPc.encoding = 0 := by omega
      have hold := d.serverP (by simp [hpc]) (by simp [hpc])
      have hlen : (s.pblocks (i : ℕ)).eles.length = (j.replyOf i r).1.eleNum.toNat :=
        (congrArg (fun b : Block α => b.eles.length) hold).trans hf.fullP
      have hp : (Frame.ofBlocks (j.replyOf i r).1 (j.replyOf i r).2).psDecodeP
          (s.pblocks (i : ℕ)) = (j.replyOf i r).1 := Frame.psDecode_full hg.fullP hlen
      have hid : (Frame.ofBlocks (j.replyOf i r).1 (j.replyOf i r).2).pb.blockId = (i : ℕ) := hg.idP
      rw [d.buffer_eq (by omega), hid, hp]
      simp only [LaneData, Cluster.setLane, Function.update_self]
      exact ⟨r, { d with
        serverP := fun hne _ => absurd rfl (hne _)
        serverQ := fun _ => d.serverQ (by simp [hpc])
        decodedP := fun a ha => ⟨rfl, (RecvPc.decodeQ.inj ha).symm.trans hg.idP.symm⟩
        decodedPQ := fun _ _ h => by cases h
        stamped := fun he => by
          have he : (s.lane i).sendPc.encoding = 1 := he
          omega }⟩
  | decodeQ hpc =>
      simp only [hpc, RecvPc.decoding] at h2
      have henc : (s.lane i).sendPc.encoding = 0 := by omega
      have hold := d.serverQ (by simp [hpc])
      have hlen : (s.qblocks (i : ℕ)).eles.length = (j.replyOf i r).2.eleNum.toNat :=
        (congrArg (fun b : Block α => b.eles.length) hold).trans hf.fullQ
      have hq : (Frame.ofBlocks (j.replyOf i r).1 (j.replyOf i r).2).psDecodeQ
          (s.qblocks (i : ℕ)) = (j.replyOf i r).2 := Frame.psDecode_full hg.fullQ hlen
      have hid : (Frame.ofBlocks (j.replyOf i r).1 (j.replyOf i r).2).qb.blockId = (i : ℕ) := hg.idQ
      rw [d.buffer_eq (by omega), hid, hq]
      simp only [LaneData, Cluster.setLane, Function.update_self]
      exact ⟨r, { d with
        serverP := fun _ hne => absurd rfl (hne _ _)
        serverQ := fun hne => absurd rfl (hne _ _)
        decodedP := fun _ h => by cases h
        decodedPQ := fun a b hab => by
          obtain ⟨ha, hb⟩ := RecvPc.count.inj hab
          obtain ⟨hp, hidx⟩ := d.decodedP _ hpc
          exact ⟨⟨hp, rfl⟩, ha.symm.trans hidx, hb.symm.trans hg.idQ.symm⟩
        stamped := fun he => by
          have he : (s.lane i).sendPc.encoding = 1 := he
          omega }⟩
  | count hpc =>
      obtain ⟨⟨hp, hq⟩, -⟩ := d.decodedPQ _ _ hpc
      simp only [LaneData, Cluster.setLane, Function.update_self]
      refine ⟨r + 1, d.next hc (by simp [hpc]) ?_ ?_⟩
      · rw [hp]; simp [roundOf, replyOf, StellarBench.stamp]
      · rw [hq]; simp [roundOf, replyOf, StellarBench.stamp]
  | flag hpc =>
      simp only [LaneData, Cluster.setLane, Function.update_self]
      exact ⟨r, { d with
        serverP := fun _ _ => d.serverP (by simp [hpc]) (by simp [hpc])
        serverQ := fun _ => d.serverQ (by simp [hpc])
        decodedP := fun _ h => by cases h
        decodedPQ := fun _ _ h => by cases h
        up := d.up.ack }⟩

/-! ## Every step, every run -/

/-- The data invariant of the system. -/
def Data (j : Job n α) (s : Cluster n α) : Prop := ∀ i, ∃ r, j.LaneData i r s

/-- The server decodes into the blocks of the lane and no others. -/
theorem LaneData.psRecv_blocks_ne {k : Fin n} (hc : (s.lane i).Ctl (s.completedIter + 1))
    (d : j.LaneData i r s) (hs : s.PsRecv i t) (hk : k ≠ i) :
    t.pblocks (k : ℕ) = s.pblocks (k : ℕ) ∧ t.qblocks (k : ℕ) = s.qblocks (k : ℕ) := by
  have h2 := hc.chain.decodedUp
  have hne : ((k : ℕ) : ℤ) ≠ (i : ℕ) := by exact_mod_cast Fin.val_ne_of_ne hk
  cases hs with
  | decodeP hpc =>
      simp only [hpc, RecvPc.decoding] at h2
      have hid : (s.lane i).up.server.buffer.pb.blockId = (i : ℕ) := by
        rw [d.buffer_eq (by omega)]
        exact (shape_replyOf j i r).idP
      exact ⟨Function.update_of_ne (hid ▸ hne) .., rfl⟩
  | decodeQ hpc =>
      simp only [hpc, RecvPc.decoding] at h2
      have hid : (s.lane i).up.server.buffer.qb.blockId = (i : ℕ) := by
        rw [d.buffer_eq (by omega)]
        exact (shape_replyOf j i r).idQ
      exact ⟨rfl, Function.update_of_ne (hid ▸ hne) ..⟩
  | test | count | flag => exact ⟨rfl, rfl⟩

theorem psSend_blocks_ne {k : Fin n} (hs : s.PsSend i t) (hk : k ≠ i) :
    t.pblocks (k : ℕ) = s.pblocks (k : ℕ) ∧ t.qblocks (k : ℕ) = s.qblocks (k : ℕ) := by
  have hne : ((k : ℕ) : ℤ) ≠ (i : ℕ) := by exact_mod_cast Fin.val_ne_of_ne hk
  cases hs with
  | stamp hpc => exact ⟨Function.update_of_ne hne .., Function.update_of_ne hne ..⟩
  | test | body | count => exact ⟨rfl, rfl⟩

/-- A step on one lane keeps the data of the others. -/
theorem Data.onLane (d : j.Data s) (ht : s.OnLane i t)
    (hb : ∀ k ≠ i, t.pblocks (k : ℕ) = s.pblocks (k : ℕ) ∧ t.qblocks (k : ℕ) = s.qblocks (k : ℕ))
    (hl : ∃ r, j.LaneData i r t) : j.Data t := by
  intro k
  by_cases hk : k = i
  · exact hk ▸ hl
  · obtain ⟨r, dk⟩ := d k
    refine ⟨r, ?_⟩
    rw [LaneData, ht.lane_ne hk, (hb k hk).1, (hb k hk).2]
    exact dk

theorem Data.setLane {l : Lane α} (d : j.Data s)
    (hl : ∀ r, j.LaneData i r s →
      l.Data r (j.roundOf i r) (j.replyOf i r) (s.pblocks (i : ℕ)) (s.qblocks (i : ℕ))) :
    j.Data (s.setLane i l) := by
  refine d.onLane (Cluster.onLane_setLane ..) (fun _ _ => ⟨rfl, rfl⟩) ?_
  obtain ⟨r, di⟩ := d i
  refine ⟨r, ?_⟩
  simpa [LaneData, Cluster.setLane] using hl r di

theorem Data.step {a : Act n} (hc : s.Ctl) (d : j.Data s) (hs : s.step j.update a = some t) :
    j.Data t := by
  cases a with
  | main =>
      intro i
      obtain ⟨r, di⟩ := d i
      refine ⟨r, ?_⟩
      obtain ⟨hlane, hp, hq⟩ := (Cluster.mainStep_cases hs).frame
      rw [LaneData, hlane, hp, hq]
      exact di
  | psSend i =>
      have hs := Cluster.psSendTd_cases hs
      obtain ⟨r, di⟩ := d i
      exact d.onLane hs.onLane (fun k hk => psSend_blocks_ne hs hk) ⟨r, di.psSend (hc.lane i) hs⟩
  | psRecv i =>
      have hs := Cluster.psRecvTd_cases hs
      obtain ⟨r, di⟩ := d i
      exact d.onLane hs.onLane (fun k hk => di.psRecv_blocks_ne (hc.lane i) hs hk)
        (di.psRecv (hc.lane i) hs)
  | workerMain i =>
      obtain ⟨l, hl, rfl⟩ := Option.map_eq_some_iff.mp hs
      exact d.setLane fun r di =>
        di.workerMain (j.roundSpec i r) (hc.lane i) (Cluster.workerMain_cases hl)
  | workerSend i =>
      obtain ⟨l, hl, rfl⟩ := Option.map_eq_some_iff.mp hs
      exact d.setLane fun r di => di.workerSend (hc.lane i) (Cluster.workerSendTd_cases hl)
  | workerRecv i =>
      obtain ⟨l, hl, rfl⟩ := Option.map_eq_some_iff.mp hs
      exact d.setLane fun r di =>
        di.workerRecv (j.roundSpec i r) (hc.lane i) (Cluster.workerRecvTd_cases hl)
  | down i a =>
      obtain ⟨c, hcs, rfl⟩ := Option.map_eq_some_iff.mp hs
      exact d.setLane fun r di => di.downStep (hc.lane i) hcs
  | up i a =>
      obtain ⟨c, hcs, rfl⟩ := Option.map_eq_some_iff.mp hs
      exact d.setLane fun r di => di.upStep (hc.lane i) hcs

/-- While a worker decodes, its receive buffer holds the next frame. -/
theorem Data.decodeDown (hc : s.Ctl) (d : j.Data s)
    (h : (s.lane i).worker.recvPc.decoding = 1) :
    ∃ r : ℕ, (s.lane i).worker.recvedAge + 1 = r ∧
      (s.lane i).down.server.buffer = Frame.ofBlocks (j.roundOf i r).1 (j.roundOf i r).2 := by
  obtain ⟨r, di⟩ := d i
  obtain ⟨-, h2, h3, h4, h5, h6, h7, -⟩ := (hc.lane i).chain
  obtain ⟨hdown, hup⟩ := (hc.lane i).counted_le
  have hround := di.round
  exact ⟨r, by omega, di.down.unread (by omega)⟩

/-- While the server decodes, the receive buffer holds the next reply. -/
theorem Data.decodeUp (hc : s.Ctl) (d : j.Data s) (h : (s.lane i).recvPc.decoding = 1) :
    ∃ r : ℕ, (s.lane i).recvedIter + 1 = r ∧
      (s.lane i).up.server.buffer = Frame.ofBlocks (j.replyOf i r).1 (j.replyOf i r).2 := by
  obtain ⟨r, di⟩ := d i
  have h2 := (hc.lane i).chain.decodedUp
  exact ⟨r, di.round, di.buffer_eq (by omega)⟩

theorem data_start (j : Job n α) : j.Data j.start := by
  intro i
  refine ⟨0, ?_⟩
  have hidle : ∀ (mr : Mr) (f : Frame α), (Conn.established j.blank j.blank 0 mr false).Contents
      f 0 0 := fun mr f =>
    Conn.Contents.of_idle (Conn.sound_established ..).ctl le_rfl le_rfl f
  have hstamp := stamp_roundOf j i 0
  exact
    { round := rfl
      serverP := fun _ _ => congrArg Prod.fst hstamp
      serverQ := fun _ => congrArg Prod.snd hstamp
      decodedP := nofun
      decodedPQ := nofun
      stamped := nofun
      filledDown := Frame.filled_zero ..
      down := hidle ..
      workerP := nofun
      workerPQ := nofun
      fresh := fun hlt => absurd hlt (by simp [start, startLane, Worker.start])
      updated := nofun
      ready := fun hlt => absurd hlt (by simp [start, startLane, Worker.start, Lane.sentUp])
      isP := ⟨rfl, rfl⟩
      filledUp := Frame.filled_zero ..
      up := hidle .. }

/-- Both invariants hold in every run. -/
theorem data_reachable (h : j.system.Reachable s) : s.Ctl ∧ j.Data s :=
  h.invariant (I := fun s => s.Ctl ∧ j.Data s) (fun _ h0 => h0 ▸ ⟨j.ctl_start, j.data_start⟩)
    fun _ _ _ _ hi _ hs => ⟨hi.1.step hs, hi.2.step hi.1 hs⟩

end Job

end StellarBench
