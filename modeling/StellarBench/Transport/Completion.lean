import StellarBench.Transport.FlowControl
import StellarBench.Transport.OneToken

/-!
# Completions of writes

`client_write_remote` posts its write signalled, so the NIC reports a completion
once the write is placed.  Until then it may read the send buffer, also again.
`client_on_completion` polls these completions and ignores them (its `else`
branch).  It counts a write right after the post.

So a producer that takes `buf_write_counter` for the number of writes that are
through with its buffer starts to refill the buffer too early (`refilled_early`).
It is careful if it passes its test only when no write is outstanding (`Waits`).
Then the buffer keeps each frame until its write is complete, and the bytes that
arrive are those of the frames in their order.
-/

namespace StellarBench

variable {β : Type}

/-- A flow with the completions of its writes.  `completed` counts those the NIC
has reported, `sendCq` those not yet polled.  `landed` is a history: the bytes of
the writes that were placed. -/
structure Sender (β : Type) where
  flow : Flow β
  completed : ℕ
  sendCq : ℕ
  landed : List (List β)

/-- The possible next movers. -/
inductive SenderAct (β : Type) where
  /-- The producer, the connection, or the consumer of `test_recv`. -/
  | flow (a : FlowAct β)
  /-- Another consumer stores `can_recv`. -/
  | canRecv (b : Bool)
  /-- The NIC reads a byte of the oldest write again. -/
  | reread (k : ℕ)
  /-- The NIC reports the oldest write complete. -/
  | complete
  /-- `client_on_completion` takes the completion of a write. -/
  | ignore
deriving DecidableEq

/-- The bytes that a step places in the receive buffer. -/
def Flow.lands (s : Flow β) : FlowAct β → List (List β)
  | .conn .deliver =>
      match s.conn.writes with
      | ⟨_, len, some src⟩ :: _ => [readFrame len src]
      | _ => []
  | _ => []

namespace Conn

/-- The NIC reads byte `k` of the oldest write from the send buffer again. -/
def reread (k : ℕ) (c : Conn (ℕ → β)) : Option (Conn (ℕ → β)) :=
  match c.writes with
  | ⟨mr, len, some src⟩ :: ws => some { c with
      writes := ⟨mr, len, some (Function.update src k (c.client.buffer k))⟩ :: ws }
  | _ => none

end Conn

namespace Sender

/-- The next step. -/
def step (s : Sender β) : SenderAct β → Option (Sender β)
  | .flow a => (s.flow.step a).map fun f =>
      { s with flow := f, landed := s.landed ++ s.flow.lands a }
  | .canRecv b => some { s with flow := { s.flow with
      conn := { s.flow.conn with server := { s.flow.conn.server with canRecv := b } } } }
  | .reread k => (s.flow.conn.reread k).map fun c => { s with flow := { s.flow with conn := c } }
  | .complete =>
      if s.completed < s.landed.length then
        some { s with completed := s.completed + 1, sendCq := s.sendCq + 1 }
      else none
  | .ignore =>
      if s.flow.conn.clientPc = .poll ∧ 0 < s.sendCq then some { s with sendCq := s.sendCq - 1 }
      else none

/-- All a step can be. -/
inductive Step (s : Sender β) : SenderAct β → Sender β → Prop where
  | flow {a f} : s.flow.step a = some f →
      s.Step (.flow a) { s with flow := f, landed := s.landed ++ s.flow.lands a }
  | canRecv {b} : s.Step (.canRecv b) { s with flow := { s.flow with
      conn := { s.flow.conn with server := { s.flow.conn.server with canRecv := b } } } }
  | reread {k mr len src ws} : s.flow.conn.writes = ⟨mr, len, some src⟩ :: ws →
      s.Step (.reread k) { s with flow := { s.flow with conn := { s.flow.conn with
        writes := ⟨mr, len, some (Function.update src k (s.flow.conn.client.buffer k))⟩ :: ws } } }
  | complete : s.completed < s.landed.length →
      s.Step .complete { s with completed := s.completed + 1, sendCq := s.sendCq + 1 }
  | ignore : s.flow.conn.clientPc = .poll → 0 < s.sendCq →
      s.Step .ignore { s with sendCq := s.sendCq - 1 }

variable {s t : Sender β} {a : SenderAct β}

theorem step_cases (h : s.step a = some t) : s.Step a t := by
  cases a with
  | flow a =>
      obtain ⟨f, hf, rfl⟩ := Option.map_eq_some_iff.mp h
      exact .flow hf
  | canRecv b => exact Option.some.inj h ▸ .canRecv
  | reread k =>
      obtain ⟨c, hc, rfl⟩ := Option.map_eq_some_iff.mp h
      rw [Conn.reread] at hc
      split at hc
      next hw => exact Option.some.inj hc ▸ .reread hw
      next => cases hc
  | complete =>
      obtain ⟨hlt, h⟩ := Option.ite_none_right_eq_some.mp h
      exact Option.some.inj h ▸ .complete hlt
  | ignore =>
      obtain ⟨⟨hpc, hcq⟩, h⟩ := Option.ite_none_right_eq_some.mp h
      exact Option.some.inj h ▸ .ignore hpc hcq

/-- The writes posted and not completed. -/
def outstanding (s : Sender β) : ℤ := s.flow.conn.posted - s.completed

/-- The producer passes its test only when no write is outstanding. -/
def Waits (s : Sender β) : SenderAct β → Prop
  | .flow .produce => s.flow.sendPc = .test → s.outstanding = 0
  | _ => True

instance (s : Sender β) : (a : SenderAct β) → Decidable (s.Waits a)
  | .flow .produce => inferInstanceAs (Decidable (s.flow.sendPc = .test → s.outstanding = 0))
  | .flow (.store _ _) | .flow (.setLen _) | .flow .consume | .flow (.conn _) | .canRecv _
  | .reread _ | .complete | .ignore => .isTrue trivial

/-! ## Counters -/

/-- What holds of the counters in every run. -/
structure Ctl (s : Sender β) : Prop where
  flow : s.flow.Ctl
  posted : s.flow.conn.posted = s.landed.length + s.flow.conn.writes.length
  completed : s.completed ≤ s.landed.length

end Sender

/-- A posted write stays on the wire until it lands. -/
theorem Conn.posted_step {F : Type} [Region F] {c c' : Conn F} {a : ConnAct}
    (hs : c.step a = some c') :
    c'.posted - c'.writes.length =
      c.posted - c.writes.length + (if a = .deliver then 1 else 0) := by
  cases step_cases hs with
  | post hpc => simp [posted, hpc]
  | clear hpc | count hpc => simp [posted, hpc]
  | deliver hw _ =>
      simp only [posted, hw, List.length_cons, if_true]
      push_cast
      ring
  | nicRead hw => simp [posted, hw]
  | pollMr hpc | pollReady hpc | pollDone hpc | pollInvalid hpc | testSend hpc | repost hpc =>
      simp [posted, hpc]
  | _ => simp [posted]

theorem Flow.lands_step {s t : Flow β} {a : FlowAct β} (hs : s.step a = some t) :
    t.conn.posted - t.conn.writes.length =
      s.conn.posted - s.conn.writes.length + (s.lands a).length := by
  cases Flow.step_cases hs with
  | @conn b c hc =>
      have hposted := Conn.posted_step hc
      cases Conn.step_cases hc with
      | deliver hw _ => simpa [lands, hw] using hposted
      | _ => simpa [lands] using hposted
  | _ => simp [lands, Conn.posted, Conn.announce, Conn.modifyBuffer, Conn.setBufLen, Conn.ack]

namespace Sender

variable {s t : Sender β} {a : SenderAct β}

theorem Ctl.outstanding (h : Ctl s) :
    s.outstanding = s.landed.length - s.completed + s.flow.conn.writes.length := by
  rw [Sender.outstanding, h.posted]
  ring

/-- With nothing outstanding nothing is on the wire. -/
theorem Ctl.writes_eq_nil (h : Ctl s) (h0 : s.outstanding = 0) : s.flow.conn.writes = [] := by
  have hout := h.outstanding
  have hle := h.completed
  exact List.eq_nil_of_length_eq_zero (by omega)

end Sender

/-! ### Steps that are not the flow's -/

theorem Flow.Ctl.setCanRecv {f : Flow β} (h : f.Ctl) (b : Bool) :
    Flow.Ctl { f with conn := { f.conn with server := { f.conn.server with canRecv := b } } } :=
  ⟨h.sound.setCanRecv b, h.kept, h.made, h.fill, h.nonneg, h.reads, h.got⟩

/-- Only the payload of the oldest write changes. -/
theorem Conn.Sound.setPayload {F : Type} {c : Conn F} {E : ℤ} {mr : Mr} {len : ℕ}
    {src : Option F} {ws : List (Write F)} (h : c.Sound E) (hw : c.writes = ⟨mr, len, src⟩ :: ws)
    (src' : Option F) : Conn.Sound E { c with writes := ⟨mr, len, src'⟩ :: ws } := by
  obtain ⟨⟨hflight, hle⟩, ⟨hone, hcr, hsr⟩, hsent, hwire, hgot, hremote, hpeer, hlive⟩ := h
  simp only [hw, List.length_cons, List.forall_mem_cons] at hone hremote
  simp only [inFlight, hw, List.length_cons] at hflight
  refine ⟨⟨hflight, hle⟩, ⟨hone, hcr, hsr⟩, hsent, hwire, hgot, ?_, ?_, hlive⟩
  · exact List.forall_mem_cons.mpr hremote
  · refine .inl (hpeer.resolve_right fun hg => ?_)
    simpa [hw] using hg.writes

theorem Flow.Ctl.setPayload {f : Flow β} {mr : Mr} {len : ℕ} {src : Option (ℕ → β)}
    {ws : List (Write (ℕ → β))} (h : f.Ctl) (hw : f.conn.writes = ⟨mr, len, src⟩ :: ws)
    (src' : Option (ℕ → β)) :
    Flow.Ctl { f with conn := { f.conn with writes := ⟨mr, len, src'⟩ :: ws } } :=
  ⟨h.sound.setPayload hw src', h.kept, h.made, h.fill, h.nonneg, h.reads, h.got⟩

namespace Sender

variable {s t : Sender β} {a : SenderAct β}

theorem Ctl.step (h : Ctl s) (hs : s.step a = some t) : Ctl t := by
  obtain ⟨hflow, hposted, hle⟩ := h
  cases step_cases hs with
  | flow hf =>
      have hlands := Flow.lands_step hf
      refine ⟨hflow.step hf, ?_, ?_⟩
      · simp only [List.length_append]
        push_cast
        omega
      · rw [List.length_append]
        exact hle.trans (Nat.le_add_right ..)
  | canRecv => exact ⟨hflow.setCanRecv _, hposted, hle⟩
  | reread hw =>
      simp only [hw, List.length_cons] at hposted
      exact ⟨hflow.setPayload hw _, hposted, hle⟩
  | complete hlt => exact ⟨hflow, hposted, hlt⟩
  | ignore => exact ⟨hflow, hposted, hle⟩

/-! ## The producer at work -/

/-- While the producer works on its buffer no write is outstanding. -/
def Stable (s : Sender β) : Prop := s.flow.sendPc = .fill → s.outstanding = 0

/-- A step of the flow other than a post leaves the number of posts alone. -/
theorem posted_of_filling {f g : Flow β} {b : FlowAct β} (h : f.Ctl) (hpc : f.sendPc = .fill)
    (hs : f.step b = some g) : g.conn.posted = f.conn.posted := by
  obtain ⟨hpend, -, -⟩ := h.filling hpc
  cases Flow.step_cases hs with
  | @conn b c hc =>
      show c.posted = f.conn.posted
      cases Conn.step_cases hc with
      | post hcp => simp [Conn.pending, hcp] at hpend
      | clear hcp | count hcp | pollMr hcp | pollReady hcp | pollDone hcp | pollInvalid hcp
      | testSend hcp | repost hcp => simp [Conn.posted, hcp]
      | _ => rfl
  | _ => rfl

theorem Stable.step (hc : Ctl s) (h : Stable s) (hg : s.Waits a) (hs : s.step a = some t) :
    Stable t := by
  cases step_cases hs with
  | @flow b f hf =>
      intro hpc
      have hkeep : s.flow.sendPc = .fill → f.conn.posted - s.completed = 0 := fun hfill => by
        rw [posted_of_filling hc.flow hfill hf]
        exact h hfill
      cases Flow.step_cases hf with
      | test htest _ => exact hg htest
      | announce | made => cases hpc
      | store hfill _ | setLen hfill _ => exact hkeep hfill
      | check | read | count | flag | conn => exact hkeep hpc
  | canRecv => exact h
  | reread hw => exact h
  | complete hlt =>
      intro hpc
      have hout := hc.outstanding
      have h0 := h hpc
      omega
  | ignore => exact h

/-- A producer that passes its test with a write outstanding works on the buffer
of that write. -/
theorem waits_of_stable (hs : s.step a = some t) (ht : Stable t) : s.Waits a := by
  cases a with
  | flow b =>
      cases b with
      | produce =>
          intro htest
          obtain ⟨f, hf, rfl⟩ := Option.map_eq_some_iff.mp hs
          cases Flow.step_cases hf with
          | test => exact ht rfl
          | announce hpc | made hpc => simp [hpc] at htest
      | _ => trivial
  | _ => trivial

end Sender

/-! ## What arrives -/

/-- Equal frames agree on their bytes. -/
theorem readFrame_inj {len : ℕ} {src dst : ℕ → β} (h : readFrame len src = readFrame len dst)
    {k : ℕ} (hk : k < len) : src k = dst k :=
  List.map_inj_left.mp h k (List.mem_range.mpr hk)

namespace Conn

variable {c c' : Conn (ℕ → β)} {a : ConnAct} {frame : ℤ → List β → Prop} {n : ℤ}

/-- Where a frame is when `n` writes have landed: raised in the send buffer, or on
the wire, and then also still in the send buffer. -/
structure Carries (frame : ℤ → List β → Prop) (n : ℤ) (c : Conn (ℕ → β)) : Prop where
  len : c.client.bufLen ≤ bufferSize
  pending : 0 < c.pending → frame c.posted (readFrame c.client.bufLen c.client.buffer)
  source : ∀ w ∈ c.writes, frame n (readFrame w.len c.client.buffer)
  payload : ∀ w ∈ c.writes, ∀ src, w.payload = some src → frame n (readFrame w.len src)

theorem Carries.step (htok : c.Token) (hn : c.posted = n + c.writes.length)
    (h : Carries frame n c) (hs : c.step a = some c') (ha : a ≠ .deliver) :
    Carries frame n c' := by
  obtain ⟨hlen, hpend, hsource, hpayload⟩ := h
  have hpend' : 0 < c'.pending →
      frame c'.posted (readFrame c'.client.bufLen c'.client.buffer) := by
    intro hp
    obtain ⟨h0, hposted, hbufLen⟩ := pending_step hs hp
    rw [hposted, hbufLen, client_buffer_step hs]
    exact hpend h0
  cases step_cases hs with
  | post hpc =>
      -- the raised frame goes on the wire, which is empty, and fits the immediate
      obtain ⟨hnil, -⟩ := htok.no_write (by simp [hpc])
      have hraised := hpend (by simp [Conn.pending, hpc])
      rw [hn, hnil, List.length_nil, Nat.cast_zero, add_zero] at hraised
      refine ⟨hlen, hpend', ?_, ?_⟩
      · simp only [hnil, List.nil_append, List.mem_singleton, forall_eq, immediate_of_le hlen]
        exact hraised
      · simp only [hnil, List.nil_append, List.mem_singleton, forall_eq]
        nofun
  | nicRead hw =>
      simp only [hw, List.forall_mem_cons] at hsource hpayload
      refine ⟨hlen, hpend', List.forall_mem_cons.mpr hsource, ?_⟩
      refine List.forall_mem_cons.mpr ⟨fun src hsrc => ?_, hpayload.2⟩
      obtain rfl := Option.some.inj hsrc
      exact hsource.1
  | deliver => exact absurd rfl ha
  | _ => exact ⟨hlen, hpend', hsource, hpayload⟩

/-- With the write that lands the wire becomes empty. -/
theorem Carries.deliver (htok : c.Token) (h : Carries frame n c)
    (hs : c.step .deliver = some c') : Carries frame (n + 1) c' := by
  obtain ⟨hlen, hpend, -, -⟩ := h
  cases step_cases hs with
  | @deliver len src ws hw _ =>
      obtain ⟨hws, -, -⟩ := htok.of_write hw
      exact ⟨hlen, hpend, by simp [hws], by simp [hws]⟩

/-- A byte that is read again is the byte that was read before. -/
theorem Carries.reread (k : ℕ) {len : ℕ} {mr : Mr} {src : ℕ → β} {ws : List (Write (ℕ → β))}
    (hframe : ∀ k x y, frame k x → frame k y → x = y) (h : Carries frame n c)
    (hw : c.writes = ⟨mr, len, some src⟩ :: ws) :
    Carries frame n { c with
      writes := ⟨mr, len, some (Function.update src k (c.client.buffer k))⟩ :: ws } := by
  obtain ⟨hlen, hpend, hsource, hpayload⟩ := h
  simp only [hw, List.forall_mem_cons] at hsource hpayload
  have hsrc := hpayload.1 src rfl
  have heq : readFrame len src = readFrame len c.client.buffer := hframe n _ _ hsrc hsource.1
  refine ⟨hlen, hpend, List.forall_mem_cons.mpr hsource, ?_⟩
  refine List.forall_mem_cons.mpr ⟨fun src' hsrc' => ?_, hpayload.2⟩
  obtain rfl := Option.some.inj hsrc'
  rw [readFrame_update fun hk => readFrame_inj heq hk]
  exact hsrc

end Conn

namespace Sender

variable {s t : Sender β} {a : SenderAct β}

/-- Every frame is where it belongs, and what has landed are the frames in order. -/
structure Carried (s : Sender β) : Prop where
  carries : s.flow.conn.Carries s.flow.FrameAt s.landed.length
  landed : s.landed <+: s.flow.frames

theorem Carried.deliver {c : Conn (ℕ → β)} (hc : Ctl s) (h : Carried s)
    (hs : s.flow.conn.step .deliver = some c) :
    Carried { s with flow := { s.flow with conn := c }
                     landed := s.landed ++ s.flow.lands (.conn .deliver) } := by
  obtain ⟨hcarries, hlanded⟩ := h
  have htok := hc.flow.sound.token
  have hnext := hcarries.deliver htok hs
  cases Conn.step_cases hs with
  | @deliver len src ws hw _ =>
      have hframe := hcarries.payload _ (by rw [hw]; exact List.mem_cons_self) src rfl
      have hlands : s.flow.lands (.conn .deliver) = [readFrame len src] := by
        simp only [Flow.lands, hw]
      rw [hlands]
      refine ⟨?_, Flow.prefix_concat hlanded hframe⟩
      rw [List.length_append, List.length_singleton, Nat.cast_succ]
      exact ⟨hnext.1, hnext.2, hnext.3, hnext.4⟩

theorem Carried.flow {b : FlowAct β} {f : Flow β} (hc : Ctl s) (hst : Stable s) (h : Carried s)
    (hs : s.flow.step b = some f) :
    Carried { s with flow := f, landed := s.landed ++ s.flow.lands b } := by
  obtain ⟨hcarries, hlanded⟩ := h
  have hfilling := hc.flow.filling
  cases Flow.step_cases hs with
  | test | made | check | read | count | flag =>
      simp only [Flow.lands, List.append_nil]
      exact ⟨⟨hcarries.1, hcarries.2, hcarries.3, hcarries.4⟩, hlanded⟩
  | announce hpc =>
      simp only [Flow.lands, List.append_nil]
      obtain ⟨-, -, hall⟩ := hfilling hpc
      have hnil := hc.writes_eq_nil (hst hpc)
      refine ⟨⟨hcarries.len, fun _ => ?_, ?_, ?_⟩, hlanded.trans (List.prefix_append _ _)⟩
      · rw [Conn.posted_announce, hall]
        simp [Flow.FrameAt, Conn.announce]
      · simp [Conn.announce, hnil]
      · simp [Conn.announce, hnil]
  | store hpc _ =>
      simp only [Flow.lands, List.append_nil]
      obtain ⟨hpend, -, -⟩ := hfilling hpc
      have hnil := hc.writes_eq_nil (hst hpc)
      refine ⟨⟨hcarries.len, fun hp => ?_, ?_, ?_⟩, hlanded⟩
      · exact absurd hp (Nat.not_lt.mpr hpend.le)
      · simp [Conn.modifyBuffer, hnil]
      · simp [Conn.modifyBuffer, hnil]
  | setLen hpc hlen =>
      simp only [Flow.lands, List.append_nil]
      obtain ⟨hpend, -, -⟩ := hfilling hpc
      refine ⟨⟨hlen, fun hp => ?_, hcarries.source, hcarries.payload⟩, hlanded⟩
      exact absurd hp (Nat.not_lt.mpr hpend.le)
  | @conn b c hconn =>
      by_cases hb : b = .deliver
      · subst hb
        exact Carried.deliver hc ⟨hcarries, hlanded⟩ hconn
      · have hlands : s.flow.lands (.conn b) = [] := by
          cases b <;> first | rfl | exact absurd rfl hb
        have hnext := hcarries.step hc.flow.sound.token hc.posted hconn hb
        rw [hlands, List.append_nil]
        exact ⟨⟨hnext.1, hnext.2, hnext.3, hnext.4⟩, hlanded⟩

theorem Carried.step (hc : Ctl s) (hst : Stable s) (h : Carried s) (hs : s.step a = some t) :
    Carried t := by
  cases step_cases hs with
  | flow hf => exact h.flow hc hst hf
  | canRecv =>
      exact ⟨⟨h.carries.1, h.carries.2, h.carries.3, h.carries.4⟩, h.landed⟩
  | @reread k _ _ _ _ hw =>
      have hframe : ∀ k x y, s.flow.FrameAt k x → s.flow.FrameAt k y → x = y :=
        fun k x y hx hy => Option.some.inj (hx.symm.trans hy)
      have hnext := h.carries.reread k hframe hw
      exact ⟨⟨hnext.1, hnext.2, hnext.3, hnext.4⟩, h.landed⟩
  | complete | ignore => exact ⟨h.carries, h.landed⟩

end Sender

/-! ## Every run -/

namespace FlowSetup

variable {f : FlowSetup β} {s : Sender β}

/-- The sender before its first step. -/
def sender (f : FlowSetup β) : System (Sender β) (SenderAct β) where
  init s := s = ⟨f.start, 0, 0, []⟩
  step := Sender.step

theorem sender_ctl (h : f.sender.Reachable s) : s.Ctl := by
  refine h.invariant (I := Sender.Ctl) ?_ fun _ _ _ _ hi _ hs => hi.step hs
  rintro _ rfl
  exact ⟨⟨Conn.sound_established .., rfl, rfl, nofun, le_rfl, le_rfl, rfl⟩, rfl, le_rfl⟩

theorem sender_stable (h : f.sender.Via Sender.Waits s) : s.Stable := by
  refine h.invariant (I := Sender.Stable) ?_ ?_
  · rintro _ rfl
    exact nofun
  · intro s a t hr hi hg hs
    exact hi.step (sender_ctl hr.reachable) hg hs

theorem sender_carried (h : f.sender.Via Sender.Waits s) : s.Carried := by
  refine h.invariant (I := Sender.Carried) ?_ ?_
  · rintro _ rfl
    exact ⟨⟨f.bufLen_le, nofun, nofun, nofun⟩, List.prefix_rfl⟩
  · intro s a t hr hi _ hs
    exact hi.step (sender_ctl hr.reachable) (sender_stable hr) hs

/-- In a run in which the producer passes its test only when no write is
outstanding, it never stores into the buffer of a write that is not complete, and
the bytes that arrive are those the buffer held when `can_send` was set.  The next
step keeps the producer off exactly if it does not pass the test too early. -/
theorem stable_until_complete (h : f.sender.Via Sender.Waits s) :
    (∀ k b t, s.step (.flow (.store k b)) = some t → s.outstanding = 0) ∧
      s.landed <+: s.flow.frames ∧
      ∀ a t, s.step a = some t → (s.Waits a ↔ t.Stable) := by
  have hctl := sender_ctl h.reachable
  have hst := sender_stable h
  refine ⟨?_, (sender_carried h).landed, ?_⟩
  · intro k b t hs
    obtain ⟨g, hg, -⟩ := Option.map_eq_some_iff.mp hs
    cases Flow.step_cases hg with
    | store hpc _ => exact hst hpc
  · intro a t hs
    exact ⟨fun hg => hst.step hctl hg hs, Sender.waits_of_stable hs⟩

/-! ### Runs of one-byte frames -/

/-- A frame is raised, and the handler posts, clears and counts it. -/
def postFrame (b : ℕ) : List (SenderAct ℕ × ℕ) :=
  [(.flow .produce, 1), (.flow (.store 0 b), 1), (.flow .produce, 2),
    (.flow (.conn .deliverMsg), 1), (.flow (.conn .client), 6)]

/-- A frame lands, and its completion is polled before the next frame is filled. -/
theorem stable_until_complete_small : ∃ s : Sender ℕ, s.flow.sendPc = .fill ∧
    s.landed = [[1]] ∧ s.outstanding = 0 ∧ s.landed <+: s.flow.frames := by
  obtain ⟨s, hreach, hpc, hlanded, hout⟩ := (small.sender.restrict Sender.Waits).exists_reachable
    (System.script (postFrame 1 ++ [(.flow (.conn .nicRead), 1), (.reread 0, 1),
      (.flow (.conn .deliver), 1), (.complete, 1), (.ignore, 1), (.flow .produce, 1)]))
    (fun s => s.flow.sendPc = .fill ∧ s.landed = [[1]] ∧ s.outstanding = 0) rfl (by decide)
  exact ⟨s, hpc, hlanded, hout, (stable_until_complete (System.via_of_restrict hreach)).2.1⟩

/-- The handler counts its write right after the post.  The producer stores the
next frame over a write that is not complete, and the next frame is what arrives. -/
theorem refilled_early :
    (∃ s, small.sender.Reachable s ∧
      (s.step (.flow (.store 0 2))).isSome = true ∧ 0 < s.outstanding) ∧
    ∃ s, small.sender.Reachable s ∧ s.flow.frames = [[1]] ∧ s.landed = [[2]] ∧
      ¬ s.landed <+: s.flow.frames := by
  constructor
  · exact small.sender.exists_reachable
      (System.script (postFrame 1 ++ [(.flow .produce, 1)]))
      (fun s => (s.step (.flow (.store 0 2))).isSome = true ∧ 0 < s.outstanding) rfl (by decide)
  · obtain ⟨s, hreach, hframes, hlanded⟩ := small.sender.exists_reachable
      (System.script (postFrame 1 ++ [(.flow .produce, 1), (.flow (.store 0 2), 1),
        (.flow (.conn .nicRead), 1), (.flow (.conn .deliver), 1)]))
      (fun s => s.flow.frames = [[1]] ∧ s.landed = [[2]]) rfl (by decide)
    refine ⟨s, hreach, hframes, hlanded, ?_⟩
    rw [hframes, hlanded]
    decide

end FlowSetup

end StellarBench
