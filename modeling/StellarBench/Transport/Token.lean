import StellarBench.Transport.Connection

/-!
# Counters and the token of a connection

Every write that was posted and not yet counted by the peer is on the wire, in
the completion queue or in the hands of the server handler (`Ctl.flight`).  A
handler posts only for a raised `can_send`, and a raised flag stands for an
announcement that has no post yet, except between `ibv_post_send` and the store
`can_send = false` that follows it (`ClientPc.pending`).  So there are no more
posts than announcements (`Ctl.le`), and as many if none is lost (`Kept`).  Both
are relative to the number of announcements, which the application counts.

The right to act moves around a connection as one token (`Token.one`): a control
message, the client handler up to its post, a write, the server handler.  The
client handler clears its flag and reposts its receive without the token.
-/

namespace StellarBench

/-! ## What a program counter stands for -/

/-- A write that is posted and not in `buf_write_counter`. -/
@[simp] def ClientPc.posted : ClientPc → ℕ
  | .clear | .count => 1
  | _ => 0

/-- A raised flag that the handler will post.  Before its store
`can_send = false` the handler is about to wipe the flag out instead. -/
@[simp] def ClientPc.pending : ClientPc → Bool → ℕ
  | .clear, _ => 0
  | .post, _ => 1
  | _, canSend => canSend.toNat

/-- The client handler holds the token. -/
@[simp] def ClientPc.token : ClientPc → ℕ
  | .waitSend | .post => 1
  | _ => 0

/-- The client handler has not reposted its receive. -/
@[simp] def ClientPc.owes : ClientPc → ℕ
  | .poll => 0
  | _ => 1

/-- A write that is polled and not in `buf_recv_counter`. -/
@[simp] def ServerPc.early : ServerPc → ℕ
  | .zero | .postRecv _ | .setLen _ | .count _ => 1
  | _ => 0

/-- The server handler holds the token. -/
@[simp] def ServerPc.token : ServerPc → ℕ
  | .poll => 0
  | _ => 1

theorem ServerPc.token_eq_zero {pc : ServerPc} : pc.token = 0 ↔ pc = .poll := by
  cases pc <;> simp

/-- The server handler has not reposted its receive. -/
@[simp] def ServerPc.owes : ServerPc → ℕ
  | .zero | .postRecv _ => 1
  | _ => 0

namespace Conn

variable {F : Type} {c c' : Conn F} {a : ConnAct} {E : ℤ}

/-- The writes posted so far. -/
def posted (c : Conn F) : ℤ := c.client.bufWriteCounter + c.clientPc.posted

/-- One for an announcement that stands and is not posted. -/
def pending (c : Conn F) : ℕ := c.clientPc.pending c.client.canSend

/-- The writes the server handler has counted. -/
def counted (c : Conn F) : ℤ := c.server.bufRecvCounter

/-- The writes between `ibv_post_send` and `buf_recv_counter++`. -/
def inFlight (c : Conn F) : ℕ := c.writes.length + c.serverCq.length + c.serverPc.early

/-- The control relation between a connection and the `E` announcements made
to its client. -/
structure Ctl (E : ℤ) (c : Conn F) : Prop where
  flight : c.posted = c.counted + c.inFlight
  le : c.posted + c.pending ≤ E

/-- Every announced frame is posted, or its announcement stands. -/
def Kept (E : ℤ) (c : Conn F) : Prop := c.posted + c.pending = E

/-- The token of a connection and the posted receives. -/
structure Token (c : Conn F) : Prop where
  one : c.msgs.length + c.clientCq + c.clientPc.token + c.writes.length + c.serverCq.length +
    c.serverPc.token = 1
  clientRecv : c.clientRecvs + c.clientCq + c.clientPc.owes = 1
  serverRecv : c.serverRecvs + c.serverCq.length + c.serverPc.owes = 1

/-- A control message the server sends: `MSG_MR` or `MSG_READY`, and in its
union the region registered for the connection. -/
def Proper (c : Conn F) (m : Message) : Prop :=
  (m.id = .mr ∨ m.id = .ready) ∧ m.mr = c.server.bufferMr

/-- Before the client has read `MSG_MR`, nothing else is going on. -/
structure Greeting (c : Conn F) : Prop where
  pc : c.clientPc = .poll
  wire : ∀ m ∈ c.msgs, m.id = .mr
  got : 0 < c.clientCq → c.client.msg.id = .mr
  writes : c.writes = []
  serverCq : c.serverCq = []
  serverPc : c.serverPc = .poll

/-- Messages are proper, and the client writes only to the region of its peer,
which it knows once the greeting is over. -/
structure Handshake (c : Conn F) : Prop where
  sent : c.Proper c.server.msg
  wire : ∀ m ∈ c.msgs, c.Proper m
  got : 0 < c.clientCq → c.Proper c.client.msg
  remote : ∀ w ∈ c.writes, w.remote = c.server.bufferMr
  peer : c.client.peer = c.server.bufferMr ∨ c.Greeting
  live : c.clientPc ≠ .closed

/-- What holds of a connection after `E` announcements, in every run. -/
structure Sound (E : ℤ) (c : Conn F) : Prop where
  ctl : c.Ctl E
  token : c.Token
  hand : c.Handshake

theorem Sound.counted_le (h : Sound E c) : c.counted ≤ E := by
  have h1 := h.ctl.flight
  have h2 := h.ctl.le
  omega

theorem sound_established (b r : F) (len : ℕ) (mr : Mr) (canRecv : Bool) :
    Sound 0 (established b r len mr canRecv) where
  ctl := by constructor <;> simp [established, posted, counted, inFlight, pending]
  token := by constructor <;> simp [established]
  hand :=
    { sent := ⟨.inl rfl, rfl⟩
      wire := by simp [established, Proper]
      got := by simp [established]
      remote := by simp [established]
      peer := .inr ⟨rfl, by simp [established], by simp [established], rfl, rfl, rfl⟩
      live := by simp [established] }

/-! ## Stores of the application -/

section

variable (f : F → F) (n : ℕ)

@[simp] theorem posted_announce : c.announce.posted = c.posted := rfl

/-- The token does not depend on what the application may store. -/
theorem Token.app (h : Token c) (buffer : F) (bufLen : ℕ) (canSend canRecv : Bool) :
    Token { c with
      client := { c.client with buffer := buffer, bufLen := bufLen, canSend := canSend }
      server := { c.server with canRecv := canRecv } } :=
  ⟨h.one, h.clientRecv, h.serverRecv⟩

/-- Nor does the handshake. -/
theorem Handshake.app (h : Handshake c) (buffer : F) (bufLen : ℕ) (canSend canRecv : Bool) :
    Handshake { c with
      client := { c.client with buffer := buffer, bufLen := bufLen, canSend := canSend }
      server := { c.server with canRecv := canRecv } } :=
  ⟨h.sent, h.wire, h.got, h.remote,
    h.peer.imp_right fun g => ⟨g.pc, g.wire, g.got, g.writes, g.serverCq, g.serverPc⟩, h.live⟩

theorem Sound.modifyBuffer (h : Sound E c) : Sound E (c.modifyBuffer f) :=
  ⟨⟨h.ctl.1, h.ctl.2⟩, h.token.app .., h.hand.app ..⟩

theorem Sound.setBufLen (h : Sound E c) : Sound E (c.setBufLen n) :=
  ⟨⟨h.ctl.1, h.ctl.2⟩, h.token.app .., h.hand.app ..⟩

/-- Whatever `can_send` becomes, it counts for one announcement at most. -/
theorem Sound.setCanSend (h : Sound E c) (b : Bool) :
    Sound (E + 1) { c with client := { c.client with canSend := b } } := by
  have hle := h.ctl.le
  have hp : c.clientPc.pending b ≤ c.pending + 1 := by
    rw [pending]
    cases c.clientPc <;> cases b <;> simp
  refine ⟨⟨h.ctl.1, ?_⟩, h.token.app .., h.hand.app ..⟩
  show c.posted + c.clientPc.pending b ≤ E + 1
  omega

theorem Sound.setCanRecv (h : Sound E c) (b : Bool) :
    Sound E { c with server := { c.server with canRecv := b } } :=
  ⟨⟨h.ctl.1, h.ctl.2⟩, h.token.app .., h.hand.app ..⟩

theorem Sound.announce (h : Sound E c) : Sound (E + 1) c.announce := h.setCanSend true

theorem Sound.ack (h : Sound E c) : Sound E c.ack := h.setCanRecv true

end

/-- A flag that is raised where it was lowered stands. -/
theorem pending_announce (h : c.pending = 0) (hpc : c.clientPc ≠ .clear) :
    c.announce.pending = 1 := by
  rw [pending] at h
  rw [announce, pending]
  cases hp : c.clientPc <;> simp_all

/-- A flag that is raised before the store `can_send = false` does not. -/
theorem pending_announce_clear (hpc : c.clientPc = .clear) : c.announce.pending = 0 := by
  simp [announce, pending, hpc]

/-! ## Steps of the connection -/

variable [Region F]

/-- A step of the connection keeps `Ctl`. -/
theorem Ctl.step (h : Ctl E c) (hs : c.step a = some c') : Ctl E c' := by
  obtain ⟨hf, hle⟩ := h
  cases step_cases hs
  all_goals
    constructor <;>
    simp_all only [posted, counted, inFlight, pending, ClientPc.posted, ClientPc.pending,
      ServerPc.early, List.length_append, List.length_cons, List.length_nil, Bool.toNat_true,
      Bool.toNat_false] <;>
    omega

/-- During the greeting only the client moves, and it only receives. -/
theorem Greeting.quiet (h : Greeting c) (hs : c.step a = some c') :
    a = .client ∨ a = .deliverMsg := by
  cases step_cases hs with
  | pollMr | pollReady | pollDone | pollInvalid | testSend | post | clear | count | repost =>
      exact .inl rfl
  | deliverMsg => exact .inr rfl
  | pollZero _ hcq | pollWrite _ hcq _ => exact absurd (hcq.symm.trans h.serverCq) nofun
  | zeroReady hpc | postRecv hpc | setLen hpc | countRecv hpc | testRecvZero hpc _
  | testRecv hpc _ _ | setReady hpc | send hpc => exact absurd (hpc.symm.trans h.serverPc) nofun
  | nicRead hw | deliver hw _ => exact absurd (hw.symm.trans h.writes) nofun

/-- A step of the connection keeps the handshake facts. -/
theorem Handshake.step (h : Handshake c) (hs : c.step a = some c') : Handshake c' := by
  obtain ⟨hsent, hwire, hgot, hremote, hpeer, hlive⟩ := h
  have hclient : c.clientPc ≠ .poll → c.client.peer = c.server.bufferMr :=
    fun hpc => hpeer.resolve_right fun hg => hpc hg.pc
  have hother : a ≠ .client → a ≠ .deliverMsg → c.client.peer = c.server.bufferMr :=
    fun h1 h2 => hpeer.resolve_right fun hg => (hg.quiet hs).elim h1 h2
  cases step_cases hs with
  | pollMr hpc hcq hid =>
      exact ⟨hsent, hwire, fun _ => hgot (by omega), hremote, .inl (hgot (by omega)).2, nofun⟩
  | pollReady hpc hcq hid =>
      refine ⟨hsent, hwire, fun _ => hgot (by omega), hremote, ?_, nofun⟩
      refine .inl (hpeer.resolve_right fun hg => ?_)
      have hmr := hg.got (by omega)
      rw [hid] at hmr
      cases hmr
  | pollDone hpc hcq hid | pollInvalid hpc hcq hid =>
      obtain ⟨hid' | hid', -⟩ := hgot (by omega) <;> rw [hid] at hid' <;> cases hid'
  | post hpc =>
      have hp := hclient (by simp [hpc])
      refine ⟨hsent, hwire, hgot, ?_, .inl hp, nofun⟩
      intro w hw
      rcases List.mem_append.mp hw with hw | hw
      · exact hremote w hw
      · rw [List.mem_singleton.mp hw]
        exact hp
  | testSend hpc _ | clear hpc | count hpc | repost hpc =>
      exact ⟨hsent, hwire, hgot, hremote, .inl (hclient (by simp [hpc])), nofun⟩
  | pollZero | pollWrite | postRecv | setLen | countRecv | testRecvZero | testRecv =>
      exact ⟨hsent, hwire, hgot, hremote, .inl (hother nofun nofun), hlive⟩
  | zeroReady | setReady =>
      exact ⟨⟨.inr rfl, hsent.2⟩, hwire, hgot, hremote, .inl (hother nofun nofun), hlive⟩
  | send hpc =>
      refine ⟨hsent, ?_, hgot, hremote, .inl (hother nofun nofun), hlive⟩
      intro m hm
      rcases List.mem_append.mp hm with hm | hm
      · exact hwire m hm
      · rw [List.mem_singleton.mp hm]
        exact hsent
  | nicRead hw =>
      refine ⟨hsent, hwire, hgot, ?_, .inl (hother nofun nofun), hlive⟩
      simpa [hw] using hremote
  | deliver hw _ =>
      refine ⟨hsent, hwire, hgot, fun w hmem => hremote w ?_, .inl (hother nofun nofun), hlive⟩
      rw [hw]
      exact List.mem_cons_of_mem _ hmem
  | deliverMsg hm _ =>
      simp only [hm, List.forall_mem_cons] at hwire
      refine ⟨hsent, hwire.2, fun _ => hwire.1, hremote, ?_, hlive⟩
      refine hpeer.imp_right fun hg => ?_
      have hids := hg.wire
      simp only [hm, List.forall_mem_cons] at hids
      exact ⟨hg.pc, hids.2, fun _ => hids.1, hg.writes, hg.serverCq, hg.serverPc⟩

/-- A step of the connection keeps its token. -/
theorem Token.step (h : Token c) (hh : Handshake c) (hs : c.step a = some c') : Token c' := by
  obtain ⟨ho, hc, hr⟩ := h
  have hid : 0 < c.clientCq → c.client.msg.id = .mr ∨ c.client.msg.id = .ready :=
    fun hcq => (hh.got hcq).1
  clear hh
  cases step_cases hs
  case pollDone hpc hcq hdone =>
    rcases hid (by omega) with hid | hid <;> rw [hdone] at hid <;> cases hid
  case pollInvalid hpc hcq hinv =>
    rcases hid (by omega) with hid | hid <;> rw [hinv] at hid <;> cases hid
  all_goals
    constructor <;>
    simp_all only [ClientPc.token, ClientPc.owes, ServerPc.token, ServerPc.owes,
      List.length_append, List.length_cons, List.length_nil] <;>
    omega

omit [Region F] in
/-- A write on the wire is alone, and the server handler has nothing to do. -/
theorem Token.of_write {w : Write F} {ws : List (Write F)} (h : Token c) (hw : c.writes = w :: ws) :
    ws = [] ∧ c.serverCq = [] ∧ c.serverPc = .poll := by
  have hone := h.one
  rw [hw, List.length_cons] at hone
  exact ⟨List.eq_nil_of_length_eq_zero (by omega), List.eq_nil_of_length_eq_zero (by omega),
    ServerPc.token_eq_zero.mp (by omega)⟩

omit [Region F] in
/-- Where a handler has the token there is no write. -/
theorem Token.no_write (h : Token c) (ht : 0 < c.clientPc.token + c.serverPc.token) :
    c.writes = [] ∧ c.serverCq = [] := by
  have hone := h.one
  exact ⟨List.eq_nil_of_length_eq_zero (by omega), List.eq_nil_of_length_eq_zero (by omega)⟩

theorem Sound.step (h : Sound E c) (hs : c.step a = some c') : Sound E c' :=
  ⟨h.ctl.step hs, h.token.step h.hand hs, h.hand.step hs⟩

/-- A step of the connection loses no announcement. -/
theorem Kept.step (h : Kept E c) (hs : c.step a = some c') : Kept E c' := by
  rw [Kept, posted, pending] at h ⊢
  cases step_cases hs with
  | pollMr hpc | pollReady hpc | pollDone hpc | pollInvalid hpc | clear hpc | repost hpc =>
      simpa [hpc] using h
  | testSend hpc hcs => simpa [hpc, hcs] using h
  | post hpc =>
      simp only [hpc, ClientPc.posted, ClientPc.pending] at h ⊢
      omega
  | count hpc =>
      simp only [hpc, ClientPc.posted, ClientPc.pending] at h ⊢
      omega
  | pollZero | pollWrite | zeroReady | postRecv | setLen | countRecv | testRecvZero | testRecv
  | setReady | send | nicRead | deliver | deliverMsg => exact h

/-! ## What a step leaves alone -/

/-- An announcement that stands after a step stood before it, for the same frame. -/
theorem pending_step (hs : c.step a = some c') (hp : 0 < c'.pending) :
    0 < c.pending ∧ c'.posted = c.posted ∧ c'.client.bufLen = c.client.bufLen := by
  cases step_cases hs with
  | post hpc | clear hpc => simp [pending] at hp
  | testSend hpc hcs => simp [posted, pending, hpc, hcs]
  | pollMr hpc | pollReady hpc | pollDone hpc | pollInvalid hpc | count hpc | repost hpc =>
      simpa [posted, pending, hpc] using hp
  | _ => exact ⟨hp, rfl, rfl⟩

theorem counted_step (hs : c.step a = some c') : c.counted ≤ c'.counted := by
  cases step_cases hs <;> simp [counted]

/-- The NICs handle only writes that are in flight. -/
theorem inFlight_pos_of_network (hs : c.step a = some c') (ha : a = .nicRead ∨ a = .deliver) :
    0 < c.inFlight := by
  unfold inFlight
  cases step_cases hs with
  | nicRead hw | deliver hw _ => simp [hw]
  | _ => simp at ha

theorem client_buffer_step (hs : c.step a = some c') : c'.client.buffer = c.client.buffer := by
  cases step_cases hs <;> rfl

theorem server_buffer_step (hs : c.step a = some c') (ha : a ≠ .deliver) :
    c'.server.buffer = c.server.buffer := by
  cases step_cases hs with
  | deliver => exact absurd rfl ha
  | _ => rfl

theorem canRecv_step (hs : c.step a = some c') : c'.server.canRecv = c.server.canRecv := by
  cases step_cases hs <;> rfl

end Conn

end StellarBench
