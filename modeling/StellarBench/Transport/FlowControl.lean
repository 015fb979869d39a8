import StellarBench.Transport.Flow

/-!
# Flow control

`server_on_completion` should answer a frame with `MSG_READY` after the consumer
has read it.  It waits for `can_recv`, but nothing ever stores `false` there, so
from the second frame on (from the first, if the flag starts raised) the wait
finds a flag that was raised for an earlier frame.

`FreshFlag` says of a step that it does not leave the wait on such a flag.  Runs
of such steps answer and overwrite only what is read.  For the content of the
frames the producer must also leave alone what the NIC has not read yet
(`KeepsSource`), since `buf_write_counter` counts posts, not completed writes.
-/

namespace StellarBench

variable {β : Type}

/-! ## Program counters -/

/-- The server handler is in its wait for `can_recv`. -/
@[simp] def ServerPc.waits : ServerPc → ℕ
  | .waitRecv _ => 1
  | _ => 0

/-- The length of a write that is polled and not in `buf_recv_counter`. -/
@[simp] def ServerPc.earlySize : ServerPc → Option ℕ
  | .zero => some 0
  | .postRecv size | .setLen size | .count size => some size
  | _ => none

/-- A frame that is made ready and not in the counter of the producer. -/
@[simp] def ProducerPc.sent : ProducerPc → ℕ
  | .count => 1
  | _ => 0

/-- From a true test to the increment of the consumer's counter. -/
@[simp] def ConsumerPc.reading : ConsumerPc → ℕ
  | .read | .count => 1
  | _ => 0

/-- A frame that is read and not counted by the consumer. -/
@[simp] def ConsumerPc.gotten : ConsumerPc → ℕ
  | .count => 1
  | _ => 0

/-! ## Bytes -/

theorem readFrame_write (len : ℕ) (src dst : ℕ → β) :
    readFrame len (Region.write len src dst) = readFrame len src := by
  refine List.map_congr_left fun k hk => ?_
  exact if_pos (List.mem_range.mp hk)

theorem readFrame_update {len k : ℕ} {b : β} {buf : ℕ → β} (h : k < len → buf k = b) :
    readFrame len (Function.update buf k b) = readFrame len buf := by
  refine List.map_congr_left fun m hm => ?_
  by_cases hmk : m = k
  · subst hmk
    rw [Function.update_self, h (List.mem_range.mp hm)]
  · rw [Function.update_of_ne hmk]

/-! ## The content of a connection -/

namespace Conn

variable {c c' : Conn (ℕ → β)} {a : ConnAct} {frame : ℤ → List β → Prop} {reads : ℤ}

/-- Where frame `k` is, when the consumer has read `reads` frames: the announced
one in the send buffer, the posted one on the wire, the placed one and the one
to be read in the receive buffer. -/
structure Holds (frame : ℤ → List β → Prop) (reads : ℤ) (c : Conn (ℕ → β)) : Prop where
  len : c.client.bufLen ≤ bufferSize
  pending : 0 < c.pending → frame c.posted (readFrame c.client.bufLen c.client.buffer)
  wire : ∀ w ∈ c.writes, frame c.counted (readFrame w.len (w.payload.getD c.client.buffer))
  queued : ∀ size ∈ c.serverCq, frame c.counted (readFrame size c.server.buffer)
  early : ∀ size, c.serverPc.earlySize = some size →
    frame c.counted (readFrame size c.server.buffer)
  set : ∀ size, c.serverPc = .count size → c.server.bufLen = size
  unread : reads < c.counted → frame reads (readFrame c.server.bufLen c.server.buffer)

theorem Holds.step {E : ℤ} (hctl : c.Ctl E) (htok : c.Token)
    (hwait : c.counted ≤ reads + c.serverPc.waits) (hread : reads ≤ c.counted)
    (h : Holds frame reads c) (hs : c.step a = some c') : Holds frame reads c' := by
  obtain ⟨hlen, hpend, hwire, hqueued, hearly, hset, hun⟩ := h
  have hflight := hctl.flight
  have hpend' : 0 < c'.pending →
      frame c'.posted (readFrame c'.client.bufLen c'.client.buffer) := by
    intro hp
    obtain ⟨h0, hposted, hbufLen⟩ := pending_step hs hp
    rw [hposted, hbufLen, client_buffer_step hs]
    exact hpend h0
  cases step_cases hs with
  | pollMr | pollReady | pollDone | pollInvalid | testSend | clear | count | repost | deliverMsg =>
      exact ⟨hlen, hpend', hwire, hqueued, hearly, hset, hun⟩
  | post hpc =>
      -- the announced frame is the next to be counted, and it fits the immediate
      obtain ⟨hws, hcq⟩ := htok.no_write (by simp [hpc])
      have hcnt : c.posted = c.counted := by
        have hone := htok.one
        have hearly : c.serverPc.early ≤ c.serverPc.token := by cases c.serverPc <;> simp
        simp only [hpc, ClientPc.token] at hone
        rw [inFlight] at hflight
        omega
      refine ⟨hlen, hpend', ?_, hqueued, hearly, hset, hun⟩
      simp only [hws, List.nil_append, List.mem_singleton, forall_eq, immediate_of_le hlen]
      have hf := hpend (by simp [Conn.pending, hpc])
      rw [hcnt] at hf
      exact hf
  | nicRead hw =>
      refine ⟨hlen, hpend', ?_, hqueued, hearly, hset, hun⟩
      simpa [hw, Conn.counted] using hwire
  | @deliver len src ws hw _ =>
      obtain ⟨hws, hcq, hpc⟩ := htok.of_write hw
      have hf := hwire _ (by rw [hw]; exact List.mem_cons_self)
      simp only [hpc, ServerPc.waits] at hwait
      refine ⟨hlen, hpend', by simp [hws], ?_, by simp [hpc], by simp [hpc], ?_⟩
      · simp only [hcq, List.nil_append, List.mem_singleton, forall_eq, readFrame_write]
        exact hf
      · intro hlt
        have hlt : reads < c.counted := hlt
        omega
  | pollZero hpc hcq =>
      refine ⟨hlen, hpend', hwire, fun size hs => hqueued size (by simp [hcq, hs]), ?_,
        by rintro _ ⟨⟩, hun⟩
      intro size hsize
      obtain rfl := Option.some.inj hsize
      exact hqueued 0 (by simp [hcq])
  | pollWrite hpc hcq _ =>
      refine ⟨hlen, hpend', hwire, fun size hs => hqueued size (by simp [hcq, hs]), ?_,
        by rintro _ ⟨⟩, hun⟩
      intro size hsize
      obtain rfl := Option.some.inj hsize
      exact hqueued _ (by simp [hcq])
  | zeroReady hpc | postRecv hpc =>
      exact ⟨hlen, hpend', hwire, hqueued, fun size hs => hearly size (by simpa [hpc] using hs),
        by rintro _ ⟨⟩, hun⟩
  | @setLen size hpc =>
      simp only [hpc, ServerPc.waits] at hwait
      refine ⟨hlen, hpend', hwire, hqueued, fun k hk => hearly k (by simpa [hpc] using hk), ?_, ?_⟩
      · intro k hk
        exact ServerPc.count.inj hk
      · intro hlt
        have hlt : reads < c.counted := hlt
        omega
  | @countRecv size hpc =>
      simp only [hpc, ServerPc.waits] at hwait
      obtain ⟨hws, hcq⟩ := htok.no_write (by simp [hpc])
      have hreads : reads = c.counted := by omega
      refine ⟨hlen, hpend', by simp [hws], by simp [hcq], by rintro _ ⟨⟩, by rintro _ ⟨⟩,
        ?_⟩
      intro _
      have hf := hearly size (by simp [hpc])
      rw [← hreads, ← hset size hpc] at hf
      exact hf
  | testRecvZero hpc _ | testRecv hpc _ _ | setReady hpc | send hpc =>
      exact ⟨hlen, hpend', hwire, hqueued, by rintro _ ⟨⟩, by rintro _ ⟨⟩, hun⟩

end Conn

namespace Flow

variable {s t : Flow β} {a : FlowAct β}

/-! ## Guards -/

/-- The server handler does not leave its wait on a flag that was raised before
the frame it has just counted was read. -/
def FreshFlag (s : Flow β) : FlowAct β → Prop
  | .conn .server => 0 < s.conn.serverPc.waits → s.conn.server.canRecv = true →
      s.conn.counted ≤ s.reads
  | _ => True

/-- The producer does not change a byte of a posted write that the NIC has not
read from the send buffer yet. -/
def KeepsSource (s : Flow β) : FlowAct β → Prop
  | .store k b => ∀ w ∈ s.conn.writes, w.payload.isNone = true → k < w.len →
      s.conn.client.buffer k = b
  | _ => True

instance (s : Flow β) : (a : FlowAct β) → Decidable (s.FreshFlag a)
  | .conn .server => inferInstanceAs (Decidable (0 < s.conn.serverPc.waits →
      s.conn.server.canRecv = true → s.conn.counted ≤ s.reads))
  | .produce | .store _ _ | .setLen _ | .consume | .conn .client | .conn .nicRead
  | .conn .deliver | .conn .deliverMsg => .isTrue trivial

instance [DecidableEq β] (s : Flow β) : (a : FlowAct β) → Decidable (s.KeepsSource a)
  | .store k b => inferInstanceAs (Decidable (∀ w ∈ s.conn.writes, w.payload.isNone = true →
      k < w.len → s.conn.client.buffer k = b))
  | .produce | .setLen _ | .consume | .conn _ => .isTrue trivial

/-! ## Control -/

/-- What holds of the counters in every run. -/
structure Ctl (s : Flow β) : Prop where
  sound : s.conn.Sound s.frames.length
  kept : s.conn.Kept s.frames.length
  made : (s.frames.length : ℤ) = s.made + s.sendPc.sent
  fill : s.sendPc = .fill → s.conn.client.bufWriteCounter = s.made
  nonneg : 0 ≤ s.reads
  reads : s.reads + s.recvPc.reading ≤ s.conn.counted
  got : (s.got.length : ℤ) = s.reads + s.recvPc.gotten

/-- While the producer fills its buffer every announced frame is posted. -/
theorem Ctl.filling (h : Ctl s) (hpc : s.sendPc = .fill) :
    s.conn.pending = 0 ∧ s.conn.clientPc.posted = 0 ∧ s.conn.posted = s.frames.length := by
  have hmade := h.made
  have hfill := h.fill hpc
  have hkept := h.kept
  simp only [hpc, ProducerPc.sent] at hmade
  rw [Conn.Kept, Conn.posted] at hkept
  rw [Conn.posted]
  omega

theorem Ctl.step (h : Ctl s) (hs : s.step a = some t) : Ctl t := by
  have hfilling := h.filling
  obtain ⟨hsound, hkept, hmade, hfill, hnonneg, hreads, hgot⟩ := h
  cases step_cases hs with
  | test hpc heq =>
      simp only [hpc, ProducerPc.sent] at hmade
      exact ⟨hsound, hkept, hmade, fun _ => heq, hnonneg, hreads, hgot⟩
  | announce hpc =>
      obtain ⟨hpend, hposted, -⟩ := hfilling hpc
      have hclear : s.conn.clientPc ≠ .clear := by
        intro hcl
        simp [hcl] at hposted
      have hraised := Conn.pending_announce hpend hclear
      simp only [hpc, ProducerPc.sent] at hmade
      refine ⟨?_, ?_, ?_, by rintro ⟨⟩, hnonneg, hreads, hgot⟩
      · simpa using hsound.announce
      · rw [Conn.Kept] at hkept ⊢
        simp only [hpend, hraised, Conn.posted_announce, List.length_append, List.length_singleton]
          at hkept ⊢
        push_cast
        omega
      · simp [hmade]
  | made hpc =>
      simp only [hpc, ProducerPc.sent] at hmade
      refine ⟨hsound, hkept, ?_, by rintro ⟨⟩, hnonneg, hreads, hgot⟩
      simp [hmade]
  | @store k b hpc _ =>
      exact ⟨hsound.modifyBuffer fun buf => Function.update buf k b, hkept, hmade, hfill, hnonneg,
        hreads, hgot⟩
  | setLen hpc _ => exact ⟨hsound.setBufLen _, hkept, hmade, hfill, hnonneg, hreads, hgot⟩
  | check hpc hlt =>
      simp only [hpc, ConsumerPc.gotten] at hgot
      refine ⟨hsound, hkept, hmade, hfill, hnonneg, ?_, hgot⟩
      show s.reads + (1 : ℕ) ≤ s.conn.counted
      omega
  | read hpc =>
      simp only [hpc, ConsumerPc.reading, ConsumerPc.gotten] at hreads hgot
      refine ⟨hsound, hkept, hmade, hfill, hnonneg, hreads, ?_⟩
      simp [hgot]
  | count hpc =>
      simp only [hpc, ConsumerPc.reading, ConsumerPc.gotten] at hreads hgot
      refine ⟨hsound, hkept, hmade, hfill, ?_, ?_, ?_⟩
      · show 0 ≤ s.reads + 1
        omega
      · show s.reads + 1 + (0 : ℕ) ≤ s.conn.counted
        omega
      · simp [hgot]
  | flag hpc =>
      simp only [hpc, ConsumerPc.reading, ConsumerPc.gotten] at hreads hgot
      exact ⟨hsound.ack, hkept, hmade, hfill, hnonneg, hreads, hgot⟩
  | conn hc =>
      have hcnt := Conn.counted_step hc
      refine ⟨hsound.step hc, hkept.step hc, hmade, ?_, hnonneg, hreads.trans hcnt, hgot⟩
      intro hpc
      obtain ⟨-, hposted, -⟩ := hfilling hpc
      rw [← hfill hpc]
      cases Conn.step_cases hc with
      | count hcl => simp [hcl] at hposted
      | _ => rfl

/-! ## Answers and overwriting -/

/-- The frame the server handler has counted last is read, unless the handler
still waits. -/
def Waited (s : Flow β) : Prop := s.conn.counted ≤ s.reads + s.conn.serverPc.waits

theorem Waited.step (h : Waited s) (hg : s.FreshFlag a) (hs : s.step a = some t) : Waited t := by
  rw [Waited] at h ⊢
  cases step_cases hs with
  | test | announce | made | store | setLen | check | read | flag => exact h
  | count hpc =>
      show s.conn.counted ≤ s.reads + 1 + s.conn.serverPc.waits
      omega
  | conn hc =>
      cases Conn.step_cases hc with
      | countRecv hpc =>
          simp only [hpc, ServerPc.waits, Conn.counted] at h ⊢
          omega
      | testRecvZero hpc hflag | testRecv hpc _ hflag =>
          have hle := hg (by simp [hpc]) hflag
          simp only [Conn.counted, ServerPc.waits] at hle ⊢
          omega
      | pollZero hpc | pollWrite hpc | zeroReady hpc | postRecv hpc | setLen hpc | setReady hpc
      | send hpc => simpa [hpc, Conn.counted] using h
      | pollMr | pollReady | pollDone | pollInvalid | testSend | post | clear | count | repost
      | nicRead | deliver | deliverMsg => exact h

/-- `MSG_READY` is sent for frames that are read, and a write is on its way only
when the consumer has read everything and does not read. -/
structure Safe (s : Flow β) : Prop where
  ready : s.conn.serverPc = .setReady ∨ s.conn.serverPc = .send → s.conn.counted ≤ s.reads
  write : 0 < s.conn.inFlight → s.conn.counted = s.reads ∧ s.recvPc.reading = 0

theorem Waited.safe (h : Waited s) (hc : Ctl s) : Safe s := by
  rw [Waited] at h
  constructor
  · rintro (hpc | hpc) <;> simpa [hpc] using h
  · intro hf
    have hreads := hc.reads
    have hwaits : s.conn.serverPc.waits = 0 := by
      have hone := hc.sound.token.one
      rw [Conn.inFlight] at hf
      cases hpc : s.conn.serverPc <;> simp_all
    omega

/-- A handler that leaves its wait on a stale flag is about to answer an unread frame. -/
theorem freshFlag_of_safe (hs : s.step a = some t) (ht : Safe t) : s.FreshFlag a := by
  cases step_cases hs with
  | @conn b c hc =>
      cases b with
      | server =>
          intro hw hflag
          have hready := ht.ready
          cases Conn.step_cases hc with
          | testRecvZero hpc _ => exact hready (.inr rfl)
          | testRecv hpc _ _ => exact hready (.inl rfl)
          | pollZero hpc | pollWrite hpc | zeroReady hpc | postRecv hpc | setLen hpc
          | countRecv hpc | setReady hpc | send hpc => simp [hpc] at hw
      | client | nicRead | deliver | deliverMsg => trivial
  | test | announce | made | store | setLen | check | read | count | flag => trivial

/-! ## Order -/

theorem Holds.mono {c : Conn (ℕ → β)} {frame frame' : ℤ → List β → Prop} {reads : ℤ}
    (h : c.Holds frame reads) (hle : ∀ k x, frame k x → frame' k x) : c.Holds frame' reads :=
  ⟨h.1, fun hp => hle _ _ (h.2 hp), fun w hw => hle _ _ (h.3 w hw),
    fun n hn => hle _ _ (h.4 n hn), fun n hn => hle _ _ (h.5 n hn), h.6,
    fun hlt => hle _ _ (h.7 hlt)⟩

/-- Frame `k` of those made ready. -/
def FrameAt (s : Flow β) (k : ℤ) (x : List β) : Prop := s.frames[k.toNat]? = some x

/-- Every frame is where it belongs, and the consumer has found the frames in order. -/
structure Data (s : Flow β) : Prop where
  holds : s.conn.Holds s.FrameAt s.reads
  got : s.got <+: s.frames

theorem prefix_concat {l m : List (List β)} {x : List β} (h : l <+: m)
    (hx : m[l.length]? = some x) : l ++ [x] <+: m := by
  obtain ⟨r, rfl⟩ := h
  rw [List.getElem?_append_right le_rfl, Nat.sub_self] at hx
  cases r with
  | nil => cases hx
  | cons y r =>
      obtain rfl := Option.some.inj hx
      exact ⟨r, by simp⟩

theorem Data.step (hc : Ctl s) (hw : Waited s) (hg : s.KeepsSource a) (h : Data s)
    (hs : s.step a = some t) : Data t := by
  have hfilling := hc.filling
  have hreads := hc.reads
  obtain ⟨hholds, hgot⟩ := h
  cases step_cases hs with
  | test | made | check => exact ⟨hholds, hgot⟩
  | announce hpc =>
      obtain ⟨-, -, hposted⟩ := hfilling hpc
      have hmono : ∀ k x, s.FrameAt k x →
          (s.frames ++ [readFrame s.conn.client.bufLen s.conn.client.buffer])[k.toNat]? =
            some x := by
        intro k x hk
        obtain ⟨hlt, -⟩ := List.getElem?_eq_some_iff.mp hk
        rw [List.getElem?_append_left hlt]
        exact hk
      obtain ⟨h1, -, h3, h4, h5, h6, h7⟩ := Holds.mono hholds hmono
      refine ⟨⟨h1, ?_, h3, h4, h5, h6, h7⟩, hgot.trans (List.prefix_append ..)⟩
      intro _
      show (s.frames ++ [_])[s.conn.posted.toNat]? = some _
      rw [hposted, Int.toNat_natCast, List.getElem?_concat_length]
      rfl
  | @store k b hpc _ =>
      obtain ⟨hpend, -, -⟩ := hfilling hpc
      obtain ⟨h1, -, h3, h4, h5, h6, h7⟩ := hholds
      refine ⟨⟨h1, fun hp => ?_, ?_, h4, h5, h6, h7⟩, hgot⟩
      · have hp : 0 < s.conn.pending := hp
        omega
      · intro w hw
        cases hpay : w.payload with
        | some src =>
            have hf := h3 w hw
            rw [hpay] at hf
            exact hf
        | none =>
            have hf := h3 w hw
            rw [hpay] at hf
            have hkeep : readFrame w.len (Function.update s.conn.client.buffer k b) =
                readFrame w.len s.conn.client.buffer :=
              readFrame_update (hg w hw (by simp [hpay]))
            show s.FrameAt s.conn.counted
              (readFrame w.len (Function.update s.conn.client.buffer k b))
            rw [hkeep]
            exact hf
  | setLen hpc hlen =>
      obtain ⟨hpend, -, -⟩ := hfilling hpc
      obtain ⟨-, -, h3, h4, h5, h6, h7⟩ := hholds
      refine ⟨⟨hlen, fun hp => ?_, h3, h4, h5, h6, h7⟩, hgot⟩
      have hp : 0 < s.conn.pending := hp
      omega
  | read hpc =>
      have hlen := hc.got
      simp only [hpc, ConsumerPc.reading, ConsumerPc.gotten] at hreads hlen
      have hf := hholds.unread (by omega)
      rw [FrameAt, show s.reads.toNat = s.got.length by omega] at hf
      exact ⟨hholds, prefix_concat hgot hf⟩
  | count hpc =>
      simp only [hpc, ConsumerPc.reading] at hreads
      obtain ⟨h1, h2, h3, h4, h5, h6, -⟩ := hholds
      refine ⟨⟨h1, h2, h3, h4, h5, h6, fun hlt => ?_⟩, hgot⟩
      have hlt : s.reads + 1 < s.conn.counted := hlt
      have hle : s.conn.serverPc.waits ≤ 1 := by cases s.conn.serverPc <;> simp
      rw [Waited] at hw
      omega
  | flag hpc =>
      obtain ⟨h1, h2, h3, h4, h5, h6, h7⟩ := hholds
      exact ⟨⟨h1, h2, h3, h4, h5, h6, h7⟩, hgot⟩
  | conn hcs =>
      have hle : s.reads ≤ s.conn.counted := by omega
      exact ⟨hholds.step hc.sound.ctl hc.sound.token hw hle hcs, hgot⟩

end Flow

/-! ## Every run -/

namespace FlowSetup

variable {f : FlowSetup β} {s : Flow β}

theorem ctl_reachable (h : f.system.Reachable s) : s.Ctl := by
  refine h.invariant (I := Flow.Ctl) ?_ fun _ _ _ _ hi _ hs => hi.step hs
  rintro _ rfl
  exact ⟨Conn.sound_established .., rfl, rfl, nofun, le_rfl, le_rfl, rfl⟩

theorem waited_via (h : f.system.Via Flow.FreshFlag s) : s.Waited := by
  refine h.invariant (I := Flow.Waited) ?_ fun _ _ _ _ hi hg hs => hi.step hg hs
  rintro _ rfl
  exact le_rfl

/-- The guard under which also the contents are right. -/
def Careful (s : Flow β) (a : FlowAct β) : Prop := s.FreshFlag a ∧ s.KeepsSource a

theorem data_via (h : f.system.Via Careful s) : s.Data := by
  refine h.invariant (I := Flow.Data) ?_ ?_
  · rintro _ rfl
    refine ⟨⟨f.bufLen_le, ?_, ?_, ?_, nofun, nofun, ?_⟩, List.prefix_rfl⟩ <;>
      simp [start, Conn.established, Conn.pending, Conn.counted]
  · intro s a t hr hi hg hs
    exact hi.step (ctl_reachable hr.reachable) (waited_via (hr.mono fun _ _ hg => hg.1)) hg.2 hs

/-- In a run in which the server handler never leaves its wait on a stale flag,
`MSG_READY` follows the reading, and nothing is written over an unread frame.  The
next step keeps it so exactly if it does not leave the wait on such a flag.  If
the producer leaves alone what the NIC has not read, the consumer finds the frames
in the order in which they were made ready, each once and whole. -/
theorem flow_control (h : f.system.Via Flow.FreshFlag s) : s.Safe ∧
    (∀ a t, s.step a = some t → (s.FreshFlag a ↔ t.Safe)) ∧
    (f.system.Via Careful s → s.got <+: s.frames ∧
      (s.recvPc = .read →
        s.FrameAt s.reads (readFrame s.conn.server.bufLen s.conn.server.buffer))) := by
  have hc := ctl_reachable h.reachable
  refine ⟨(waited_via h).safe hc, ?_, fun hcareful => ?_⟩
  · intro a t hs
    refine ⟨fun hg => ?_, Flow.freshFlag_of_safe hs⟩
    have ht : f.system.Via Flow.FreshFlag t := h.step hg hs
    exact (waited_via ht).safe (ctl_reachable ht.reachable)
  obtain ⟨hholds, hgot⟩ := data_via hcareful
  refine ⟨hgot, fun hpc => hholds.unread ?_⟩
  have hreads := hc.reads
  simp only [hpc, ConsumerPc.reading] at hreads
  omega

instance [DecidableEq β] (s : Flow β) (a : FlowAct β) : Decidable (Careful s a) :=
  inferInstanceAs (Decidable (_ ∧ _))

/-- One-byte frames, and a `can_recv` that starts lowered as in `ps` and `worker`. -/
def small : FlowSetup ℕ where
  buffer := fun _ => 0
  recvBuffer := fun _ => 0
  bufLen := 1
  mr := ⟨4096, 1⟩
  canRecv := false
  bufLen_le := by decide

/-- A frame is made ready, written and counted. -/
def exchange (b : ℕ) : List (FlowAct ℕ × ℕ) :=
  [(.produce, 1), (.store 0 b, 1), (.produce, 2), (.conn .deliverMsg, 1), (.conn .client, 6),
    (.conn .nicRead, 1), (.conn .deliver, 1), (.conn .server, 4)]

/-- Two frames are read in order. -/
theorem flow_control_small : ∃ s : Flow ℕ, s.got = [[1], [2]] ∧ s.Safe ∧ s.got <+: s.frames := by
  obtain ⟨s, hreach, hgot⟩ := (small.system.restrict Careful).exists_reachable
    (System.script (exchange 1 ++ [(.consume, 4), (.conn .server, 3)] ++ exchange 2 ++
      [(.consume, 4), (.conn .server, 3)])) (fun s => s.got = [[1], [2]]) rfl (by decide)
  have hvia := System.via_of_restrict hreach
  obtain ⟨hsafe, -, horder⟩ := flow_control (hvia.mono fun _ _ hg => hg.1)
  exact ⟨s, hgot, hsafe, (horder hvia).1⟩

/-- The server handler finds the flag of the first frame raised after the second
one.  The third frame is written over the second, lost for the consumer, which
reads the third frame twice. -/
theorem unread_overwritten : ∃ s, small.system.Reachable s ∧ s.frames = [[1], [2], [3]] ∧
    s.got = [[1], [3], [3]] ∧ ¬ s.got <+: s.frames := by
  obtain ⟨s, hreach, hframes, hgot⟩ := small.system.exists_reachable
    (System.script (exchange 1 ++ [(.consume, 4), (.conn .server, 3)] ++ exchange 2 ++
      [(.conn .server, 3)] ++ exchange 3 ++ [(.consume, 8)]))
    (fun s => s.frames = [[1], [2], [3]] ∧ s.got = [[1], [3], [3]]) rfl (by decide)
  refine ⟨s, hreach, hframes, hgot, ?_⟩
  rw [hframes, hgot]
  decide

/-- Without a stale flag: the producer refills its buffer after `buf_write_counter++`
and before the NIC reads it, so the consumer finds the next frame for the first. -/
theorem source_refilled : ∃ s, small.system.Via Flow.FreshFlag s ∧ s.frames = [[1]] ∧
    s.got = [[2]] := by
  obtain ⟨s, hreach, hframes, hgot⟩ := (small.system.restrict Flow.FreshFlag).exists_reachable
    (System.script [(.produce, 1), (.store 0 1, 1), (.produce, 2), (.conn .deliverMsg, 1),
      (.conn .client, 6), (.produce, 1), (.store 0 2, 1), (.conn .nicRead, 1), (.conn .deliver, 1),
      (.conn .server, 4), (.consume, 2)])
    (fun s => s.frames = [[1]] ∧ s.got = [[2]]) rfl (by decide)
  exact ⟨s, System.via_of_restrict hreach, hframes, hgot⟩

end FlowSetup

end StellarBench
