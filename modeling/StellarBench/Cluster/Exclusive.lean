import StellarBench.Cluster.Data

/-!
# Exclusive use of the blocks and the buffers

Seven activities touch the blocks of worker `i` and the four buffers between it
and the server: two encoders, two transfers, two decoders and the update.  Each
is an interval with a first and a last step.  The counter chain leaves room for
one of them, since an open interval is a link of the chain that is not tight.

`Cluster.accesses` is what one step reads and writes.  A step that reads or
writes shared memory at all is inside an open interval, and it stays in the
footprint of that interval.
-/

namespace StellarBench

variable {n : ℕ} {α : Type}

/-- The seven intervals of a lane. -/
inductive Activity where
  | encodeDown | transferDown | decodeDown | compute | encodeUp | transferUp | decodeUp
deriving DecidableEq, Repr

/-- The memory of a lane that no lock protects: `Pblock` and `Qblock` of the worker
and the buffers of its two connections. -/
inductive Slot where
  | pblock | qblock | downSend | downRecv | upSend | upRecv
deriving DecidableEq, Repr

/-- All memory that no lock protects. -/
inductive Resource (n : ℕ) where
  /-- `Pblocks[idx]` of the server. -/
  | pblocks (idx : ℤ)
  /-- `Qblocks[idx]` of the server. -/
  | qblocks (idx : ℤ)
  | own (i : Fin n) (x : Slot)
deriving DecidableEq

/-- The lane of a resource, as an index. -/
def Resource.index : Resource n → ℤ
  | .pblocks idx => idx
  | .qblocks idx => idx
  | .own i _ => (i : ℕ)

/-- What is read and what is written. -/
structure Footprint (n : ℕ) where
  reads : List (Resource n)
  writes : List (Resource n)

namespace Footprint

/-- No access at all. -/
def none : Footprint n := ⟨[], []⟩

/-- The accesses of the first are among those of the second. -/
def Within (a b : Footprint n) : Prop := a.reads ⊆ b.reads ∧ a.writes ⊆ b.writes

/-- Neither writes what the other one reads or writes. -/
def Apart (a b : Footprint n) : Prop :=
  a.writes.Disjoint (b.reads ++ b.writes) ∧ b.writes.Disjoint (a.reads ++ a.writes)

end Footprint

/-! ## Intervals -/

namespace Lane

/-- How many times an interval is open. -/
def opened (l : Lane α) : Activity → ℕ
  | .encodeDown => l.sendPc.encoding
  | .transferDown => l.down.inFlight
  | .decodeDown => l.worker.recvPc.decoding
  | .compute => l.worker.mainPc.computing
  | .encodeUp => l.worker.sendPc.encoding
  | .transferUp => l.up.inFlight
  | .decodeUp => l.recvPc.decoding

/-- The open intervals of the lane. -/
def openCount (l : Lane α) : ℕ :=
  l.opened .encodeDown + l.opened .transferDown + l.opened .decodeDown + l.opened .compute +
    l.opened .encodeUp + l.opened .transferUp + l.opened .decodeUp

/-- The content of a slot. -/
def content (l : Lane α) : Slot → Block α ⊕ Frame α
  | .pblock => .inl l.worker.pblock
  | .qblock => .inl l.worker.qblock
  | .downSend => .inr l.down.client.buffer
  | .downRecv => .inr l.down.server.buffer
  | .upSend => .inr l.up.client.buffer
  | .upRecv => .inr l.up.server.buffer

variable {l : Lane α} {M : ℤ}

theorem Ctl.openCount_le (h : Ctl M l) : l.openCount ≤ 1 := by
  have hex := h.exclusive
  rw [slack] at hex
  simp only [openCount, opened]
  omega

theorem eq_of_opened (h : l.openCount ≤ 1) {a b : Activity} (ha : 0 < l.opened a)
    (hb : 0 < l.opened b) : a = b := by
  rw [openCount] at h
  cases a <;> cases b <;> first | rfl | omega

end Lane

theorem RecvPc.decoding_eq_one {pc : RecvPc} (h : 0 < pc.decoding) : pc.decoding = 1 := by
  cases pc <;> simp_all

namespace Cluster

/-- What an interval of lane `i` may read and write. -/
def footprint (s : Cluster n α) (i : Fin n) : Activity → Footprint n
  | .encodeDown =>
      ⟨[.pblocks (workerPidx i), .qblocks (workerPidx i)],
        [.pblocks (workerPidx i), .qblocks (workerPidx i), .own i .downSend]⟩
  | .transferDown => ⟨[.own i .downSend], [.own i .downRecv]⟩
  | .decodeDown => ⟨[.own i .downRecv], [.own i .pblock, .own i .qblock]⟩
  | .compute => ⟨[.own i .pblock, .own i .qblock], [.own i .pblock, .own i .qblock]⟩
  | .encodeUp => ⟨[.own i .pblock, .own i .qblock], [.own i .upSend]⟩
  | .transferUp => ⟨[.own i .upSend], [.own i .upRecv]⟩
  | .decodeUp =>
      ⟨[.own i .upRecv], [.pblocks (s.lane i).up.server.buffer.pb.blockId,
        .qblocks (s.lane i).up.server.buffer.qb.blockId]⟩

/-- What the next step of an action reads and writes. -/
def accesses (s : Cluster n α) : Act n → Footprint n
  | .psSend i =>
      match (s.lane i).sendPc with
      | .stamp => ⟨[], [.pblocks (workerPidx i), .qblocks (workerPidx i)]⟩
      | .headP | .elesP => ⟨[.pblocks (workerPidx i)], [.own i .downSend]⟩
      | .headQ | .elesQ => ⟨[.qblocks (workerPidx i)], [.own i .downSend]⟩
      | .setLen => ⟨[.pblocks (workerPidx i), .qblocks (workerPidx i)], []⟩
      | .test | .announce | .count => .none
  | .psRecv i =>
      match (s.lane i).recvPc with
      | .decodeP => ⟨[.own i .upRecv], [.pblocks (s.lane i).up.server.buffer.pb.blockId]⟩
      | .decodeQ _ => ⟨[.own i .upRecv], [.qblocks (s.lane i).up.server.buffer.qb.blockId]⟩
      | .test | .count _ _ | .flag => .none
  | .workerMain i =>
      match (s.lane i).worker.mainPc with
      | .compute => ⟨[.own i .pblock, .own i .qblock], [.own i .pblock, .own i .qblock]⟩
      | .test | .done | .incr => .none
  | .workerSend i =>
      match (s.lane i).worker.sendPc with
      | .headP | .elesP => ⟨[.own i .pblock], [.own i .upSend]⟩
      | .headQ | .elesQ => ⟨[.own i .qblock], [.own i .upSend]⟩
      | .setLen => ⟨[.own i .pblock, .own i .qblock], []⟩
      | .test | .stamp | .announce | .count => .none
  | .workerRecv i =>
      match (s.lane i).worker.recvPc with
      | .decodeP => ⟨[.own i .downRecv], [.own i .pblock]⟩
      | .decodeQ _ => ⟨[.own i .downRecv], [.own i .qblock]⟩
      | .test | .count _ _ | .flag => .none
  | .down i .nicRead => ⟨[.own i .downSend], []⟩
  | .down i .deliver => ⟨[], [.own i .downRecv]⟩
  | .up i .nicRead => ⟨[.own i .upSend], []⟩
  | .up i .deliver => ⟨[], [.own i .upRecv]⟩
  | .main | .down _ _ | .up _ _ => .none

/-- The interval an action belongs to. -/
def activity : Act n → Option (Fin n × Activity)
  | .psSend i => some (i, .encodeDown)
  | .psRecv i => some (i, .decodeUp)
  | .workerMain i => some (i, .compute)
  | .workerSend i => some (i, .encodeUp)
  | .workerRecv i => some (i, .decodeDown)
  | .down i _ => some (i, .transferDown)
  | .up i _ => some (i, .transferUp)
  | .main => none

/-- The content of a resource. -/
def content (s : Cluster n α) : Resource n → Block α ⊕ Frame α
  | .pblocks idx => .inl (s.pblocks idx)
  | .qblocks idx => .inl (s.qblocks idx)
  | .own i x => (s.lane i).content x

variable {u : Update n α} {s t : Cluster n α} {a : Act n} {i k : Fin n}

/-! ## Steps and footprints -/

/-- A step that touches a resource is inside its interval. -/
theorem accesses_within (hs : s.step u a = some t) :
    s.accesses a = .none ∨ ∃ i b, activity a = some (i, b) ∧ 0 < (s.lane i).opened b ∧
      (s.accesses a).Within (s.footprint i b) := by
  cases a with
  | main => exact .inl rfl
  | psSend i =>
      cases hpc : (s.lane i).sendPc with
      | test | announce | count => exact .inl (by simp [accesses, hpc])
      | stamp | headP | elesP | headQ | elesQ | setLen =>
          exact .inr ⟨i, _, rfl, by simp [Lane.opened, hpc],
            by simp [accesses, footprint, hpc, Footprint.Within]⟩
  | psRecv i =>
      cases hpc : (s.lane i).recvPc with
      | test | count | flag => exact .inl (by simp [accesses, hpc])
      | decodeP | decodeQ =>
          exact .inr ⟨i, _, rfl, by simp [Lane.opened, hpc],
            by simp [accesses, footprint, hpc, Footprint.Within]⟩
  | workerMain i =>
      cases hpc : (s.lane i).worker.mainPc with
      | test | done | incr => exact .inl (by simp [accesses, hpc])
      | compute =>
          exact .inr ⟨i, _, rfl, by simp [Lane.opened, hpc],
            by simp [accesses, footprint, hpc, Footprint.Within]⟩
  | workerSend i =>
      cases hpc : (s.lane i).worker.sendPc with
      | test | stamp | announce | count => exact .inl (by simp [accesses, hpc])
      | headP | elesP | headQ | elesQ | setLen =>
          exact .inr ⟨i, _, rfl, by simp [Lane.opened, hpc],
            by simp [accesses, footprint, hpc, Footprint.Within]⟩
  | workerRecv i =>
      cases hpc : (s.lane i).worker.recvPc with
      | test | count | flag => exact .inl (by simp [accesses, hpc])
      | decodeP | decodeQ =>
          exact .inr ⟨i, _, rfl, by simp [Lane.opened, hpc],
            by simp [accesses, footprint, hpc, Footprint.Within]⟩
  | down i a =>
      obtain ⟨c, hc, -⟩ := Option.map_eq_some_iff.mp hs
      cases a with
      | client | server | deliverMsg => exact .inl rfl
      | nicRead | deliver =>
          refine .inr ⟨i, _, rfl, Conn.inFlight_pos_of_network hc (by simp), ?_⟩
          simp [accesses, footprint, Footprint.Within]
  | up i a =>
      obtain ⟨c, hc, -⟩ := Option.map_eq_some_iff.mp hs
      cases a with
      | client | server | deliverMsg => exact .inl rfl
      | nicRead | deliver =>
          refine .inr ⟨i, _, rfl, Conn.inFlight_pos_of_network hc (by simp), ?_⟩
          simp [accesses, footprint, Footprint.Within]

/-- A step on one lane that keeps what is not in `w`. -/
theorem OnLane.content {w : List (Resource n)} (h : s.OnLane i t)
    (hp : ∀ idx, .pblocks idx ∉ w → t.pblocks idx = s.pblocks idx)
    (hq : ∀ idx, .qblocks idx ∉ w → t.qblocks idx = s.qblocks idx)
    (hx : ∀ x, .own i x ∉ w → (t.lane i).content x = (s.lane i).content x) {r : Resource n}
    (hr : r ∉ w) : t.content r = s.content r := by
  cases r with
  | pblocks idx => exact congrArg Sum.inl (hp idx hr)
  | qblocks idx => exact congrArg Sum.inl (hq idx hr)
  | own k x =>
      by_cases hk : k = i
      · subst hk
        exact hx x hr
      · rw [Cluster.content, Cluster.content, h.lane_ne hk]

theorem content_setLane {l : Lane α} {w : List (Resource n)}
    (h : ∀ x, .own i x ∉ w → l.content x = (s.lane i).content x) {r : Resource n} (hr : r ∉ w) :
    (s.setLane i l).content r = s.content r :=
  (onLane_setLane s i l).content (fun _ _ => rfl) (fun _ _ => rfl)
    (fun x hx => by rw [setLane_self, h x hx]) hr

/-- A store to one block leaves the others. -/
theorem update_of_notMem {f : ℤ → Block α} {a idx : ℤ} {b : Block α} {ctor : ℤ → Resource n}
    {w : List (Resource n)} (ha : ctor a ∈ w) (h : ctor idx ∉ w) :
    Function.update f a b idx = f idx := by
  have hne : idx ≠ a := by
    rintro rfl
    exact h ha
  exact Function.update_of_ne hne ..

/-- The encoders write the send buffer, and only while they copy. -/
theorem SendBody.buffers {p q : Block α} {c c' : Conn (Frame α)} {pc pc' : SendPc}
    (hb : SendBody p q c pc pc' c') : c'.server.buffer = c.server.buffer ∧
      (pc = .setLen ∨ pc = .announce → c'.client.buffer = c.client.buffer) := by
  cases hb <;> simp [Conn.modifyBuffer, Conn.setBufLen, Conn.announce]

theorem PsSend.content (hs : s.PsSend i t) {r : Resource n}
    (hr : r ∉ (s.accesses (.psSend i)).writes) : t.content r = s.content r := by
  cases hs with
  | test | count => exact content_setLane (fun x _ => by cases x <;> rfl) hr
  | stamp hpc =>
      simp only [accesses, hpc] at hr
      refine (PsSend.stamp hpc).onLane.content (fun idx h => ?_) (fun idx h => ?_) (fun x _ => ?_) hr
      · exact update_of_notMem List.mem_cons_self h
      · exact update_of_notMem (List.mem_cons_of_mem _ List.mem_cons_self) h
      · cases x <;> simp [setLane, Lane.content]
  | body hb =>
      obtain ⟨hserver, hclient⟩ := hb.buffers
      refine content_setLane (fun x hx => ?_) hr
      cases x with
      | downSend =>
          refine congrArg Sum.inr (hclient ?_)
          cases hpc : (s.lane i).sendPc <;> simp_all [accesses] <;> cases hb
      | downRecv => exact congrArg Sum.inr hserver
      | pblock | qblock | upSend | upRecv => rfl

theorem PsRecv.content (hs : s.PsRecv i t) {r : Resource n}
    (hr : r ∉ (s.accesses (.psRecv i)).writes) : t.content r = s.content r := by
  cases hs with
  | test | count | flag => exact content_setLane (fun x _ => by cases x <;> rfl) hr
  | decodeP hpc =>
      simp only [accesses, hpc] at hr
      refine (PsRecv.decodeP hpc).onLane.content (fun idx h => ?_) (fun _ _ => rfl) (fun x _ => ?_) hr
      · exact update_of_notMem List.mem_cons_self h
      · cases x <;> simp [setLane, Lane.content]
  | decodeQ hpc =>
      simp only [accesses, hpc] at hr
      refine (PsRecv.decodeQ hpc).onLane.content (fun _ _ => rfl) (fun idx h => ?_) (fun x _ => ?_) hr
      · exact update_of_notMem List.mem_cons_self h
      · cases x <;> simp [setLane, Lane.content]

theorem WorkerSend.content {l : Lane α} (hl : WorkerSend (s.lane i) l) {x : Slot}
    (hx : .own i x ∉ (s.accesses (.workerSend i)).writes) :
    l.content x = (s.lane i).content x := by
  cases hl with
  | test | count => cases x <;> rfl
  | body hb =>
      obtain ⟨hserver, hclient⟩ := hb.buffers
      cases x with
      | upSend =>
          refine congrArg Sum.inr (hclient ?_)
          cases hpc : (s.lane i).worker.sendPc <;> simp_all [accesses] <;> cases hb
      | upRecv => exact congrArg Sum.inr hserver
      | pblock | qblock | downSend | downRecv => rfl

/-- A step writes what it declares and nothing else. -/
theorem content_step (hs : s.step u a = some t) {r : Resource n}
    (hr : r ∉ (s.accesses a).writes) : t.content r = s.content r := by
  cases a with
  | main =>
      obtain ⟨hlane, hp, hq⟩ := (mainStep_cases hs).frame
      cases r <;> simp [content, hlane, hp, hq]
  | psSend i => exact (psSendTd_cases hs).content hr
  | psRecv i => exact (psRecvTd_cases hs).content hr
  | workerMain i =>
      obtain ⟨l, hl, rfl⟩ := Option.map_eq_some_iff.mp hs
      refine content_setLane (fun x hx => ?_) hr
      cases workerMain_cases hl with
      | test | done | incr => cases x <;> rfl
      | compute hpc => cases x <;> simp_all [accesses, Lane.content]
  | workerSend i =>
      obtain ⟨l, hl, rfl⟩ := Option.map_eq_some_iff.mp hs
      exact content_setLane (fun x hx => (workerSendTd_cases hl).content hx) hr
  | workerRecv i =>
      obtain ⟨l, hl, rfl⟩ := Option.map_eq_some_iff.mp hs
      refine content_setLane (fun x hx => ?_) hr
      cases workerRecvTd_cases hl with
      | test | count | flag => cases x <;> rfl
      | decodeP hpc | decodeQ hpc => cases x <;> simp_all [accesses, Lane.content]
  | down i a =>
      obtain ⟨c, hc, rfl⟩ := Option.map_eq_some_iff.mp hs
      refine content_setLane (fun x hx => ?_) hr
      cases x with
      | downSend => exact congrArg Sum.inr (Conn.client_buffer_step hc)
      | downRecv =>
          refine congrArg Sum.inr (Conn.server_buffer_step hc ?_)
          rintro rfl
          exact hx List.mem_cons_self
      | pblock | qblock | upSend | upRecv => rfl
  | up i a =>
      obtain ⟨c, hc, rfl⟩ := Option.map_eq_some_iff.mp hs
      refine content_setLane (fun x hx => ?_) hr
      cases x with
      | upSend => exact congrArg Sum.inr (Conn.client_buffer_step hc)
      | upRecv =>
          refine congrArg Sum.inr (Conn.server_buffer_step hc ?_)
          rintro rfl
          exact hx List.mem_cons_self
      | pblock | qblock | downSend | downRecv => rfl

end Cluster

namespace Job

variable {j : Job n α} {s t : Cluster n α} {i k : Fin n}

/-! ## Open intervals -/

/-- An open interval stays on its lane, the decoder of the server included. -/
theorem footprint_index (hc : s.Ctl) (d : j.Data s) {b : Activity}
    (hb : 0 < (s.lane i).opened b) :
    ∀ r ∈ (s.footprint i b).reads ++ (s.footprint i b).writes, r.index = (i : ℕ) := by
  cases b with
  | decodeUp =>
      obtain ⟨k, -, hbuf⟩ := d.decodeUp hc (RecvPc.decoding_eq_one hb)
      have hshape := shape_replyOf j i k
      rw [Cluster.footprint, hbuf]
      simp [Frame.ofBlocks, hshape.idP, hshape.idQ, Resource.index]
  | encodeDown | transferDown | decodeDown | compute | encodeUp | transferUp =>
      simp [Cluster.footprint, Resource.index, workerPidx]

/-- Intervals of different lanes have nothing in common. -/
theorem footprint_apart (hc : s.Ctl) (d : j.Data s) {b e : Activity}
    (hb : 0 < (s.lane i).opened b) (he : 0 < (s.lane k).opened e) (hne : i ≠ k) :
    (s.footprint i b).Apart (s.footprint k e) := by
  have hi := footprint_index hc d hb
  have hk := footprint_index hc d he
  have hik : ((i : ℕ) : ℤ) ≠ (k : ℕ) := by exact_mod_cast Fin.val_ne_of_ne hne
  constructor
  · intro r hr hr'
    exact hik ((hi r (List.mem_append_right _ hr)).symm.trans (hk r hr'))
  · intro r hr hr'
    exact hik ((hi r hr').symm.trans (hk r (List.mem_append_right _ hr)))

/-- Of the seven intervals of a worker at most one is open.  Two open intervals
never touch the same memory unless both only read it, each step stays in the
footprint of its open interval, and a decoder has a whole frame before it. -/
theorem exclusive_use (h : j.system.Reachable s) :
    (∀ i, (s.lane i).openCount ≤ 1) ∧
    (∀ i k b e, 0 < (s.lane i).opened b → 0 < (s.lane k).opened e → (i, b) ≠ (k, e) →
      (s.footprint i b).Apart (s.footprint k e)) ∧
    (∀ a t, s.step j.update a = some t →
      (s.accesses a = .none ∨ ∃ i b, Cluster.activity a = some (i, b) ∧
        0 < (s.lane i).opened b ∧ (s.accesses a).Within (s.footprint i b)) ∧
      ∀ r, r ∉ (s.accesses a).writes → t.content r = s.content r) ∧
    (∀ i, 0 < (s.lane i).opened .decodeDown → ∃ k : ℕ, (s.lane i).worker.recvedAge + 1 = k ∧
      (s.lane i).down.server.buffer = Frame.ofBlocks (j.roundOf i k).1 (j.roundOf i k).2) ∧
    (∀ i, 0 < (s.lane i).opened .decodeUp → ∃ k : ℕ, (s.lane i).recvedIter + 1 = k ∧
      (s.lane i).up.server.buffer = Frame.ofBlocks (j.replyOf i k).1 (j.replyOf i k).2) := by
  obtain ⟨hc, d⟩ := data_reachable h
  have hone : ∀ i, (s.lane i).openCount ≤ 1 := fun i => (hc.lane i).openCount_le
  refine ⟨hone, ?_, ?_, ?_, ?_⟩
  · intro i k b e hb he hne
    by_cases hik : i = k
    · subst hik
      exact absurd (congrArg (i, ·) (Lane.eq_of_opened (hone i) hb he)) hne
    · exact footprint_apart hc d hb he hik
  · intro a t hs
    exact ⟨Cluster.accesses_within hs, fun r hr => Cluster.content_step hs hr⟩
  · intro i hi
    exact d.decodeDown hc (RecvPc.decoding_eq_one hi)
  · intro i hi
    exact d.decodeUp hc (RecvPc.decoding_eq_one hi)

/-- The first of two workers decodes its frame while the server encodes that of the second. -/
theorem exclusive_use_small : ∃ s : Cluster 2 ℕ,
    0 < (s.lane 0).opened .decodeDown ∧ 0 < (s.lane 1).opened .encodeDown ∧
    (∀ i, (s.lane i).openCount ≤ 1) ∧
    (s.footprint 0 .decodeDown).Apart (s.footprint 1 .encodeDown) := by
  obtain ⟨s, hreach, hdecode, hencode⟩ := pair.system.exists_reachable
    (System.script ([(.main, 5), (.psSend 0, 9)] ++ transfer (.down 0) ++
      [(.workerRecv 0, 2), (.psSend 1, 3)]))
    (fun s => 0 < (s.lane 0).opened .decodeDown ∧ 0 < (s.lane 1).opened .encodeDown) rfl
    (by decide)
  obtain ⟨hone, hapart, -⟩ := exclusive_use hreach
  exact ⟨s, hdecode, hencode, hone, hapart 0 1 _ _ hdecode hencode (by decide)⟩

end Job

end StellarBench
