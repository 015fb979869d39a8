import StellarBench.Transport.Live

/-!
# One token per connection, under any application

The application may set `can_send` and `can_recv` to anything at any time, and
it may fill the send buffer and choose the length of a frame, zero included.
What a completion handler does after its wait is one step, so the states to look
at are those in which no handler is between its wait and its end (`Rested`).

Then the right to act is in one of four places (`Holder`).  A message or a write
is in flight from its post until the handler of the peer has taken it, that is,
until the client handler has polled the message, and until the server handler
has counted the write.  The receive that a message or a write needs is consumed
on arrival, so it is posted as long as the message or the write is on the wire.
-/

namespace StellarBench

/-- The next mover: the application at its flags and its send buffer, or the
connection. -/
inductive AppAct (F : Type) where
  | canSend (b : Bool)
  | canRecv (b : Bool)
  | fill (f : F → F)
  | setLen (len : ℕ)
  | conn (a : ConnAct)

/-- The handler is not between its wait on `can_send` and its end. -/
@[simp] def ClientPc.rested : ClientPc → Bool
  | .post | .clear | .count | .repost => false
  | _ => true

/-- The handler is not between its wait on `can_recv` and its end. -/
@[simp] def ServerPc.rested : ServerPc → Bool
  | .setReady | .send => false
  | _ => true

/-- The handler is in its loop on `can_recv`, or past it. -/
@[simp] def ServerPc.answers : ServerPc → Bool
  | .waitRecv _ | .setReady | .send => true
  | _ => false

/-- Where the token of a connection can be. -/
inductive Holder where
  /-- One control message is in flight to the client. -/
  | message
  /-- The client handler waits on `can_send`. -/
  | client
  /-- One RDMA write is in flight. -/
  | write
  /-- The server handler waits on `can_recv`. -/
  | server
deriving DecidableEq, Repr

namespace Conn

variable {F : Type} {c c' : Conn F}

/-- A step of the connection under an application that stores what it likes. -/
def appStep [Region F] (c : Conn F) : AppAct F → Option (Conn F)
  | .canSend b => some { c with client := { c.client with canSend := b } }
  | .canRecv b => some { c with server := { c.server with canRecv := b } }
  | .fill f => some (c.modifyBuffer f)
  | .setLen len => some (c.setBufLen len)
  | .conn a => c.step a

/-- No handler is between its wait and its end. -/
def Rested (c : Conn F) : Prop := c.clientPc.rested ∧ c.serverPc.rested

instance : DecidablePred (Rested (F := F)) := fun c =>
  inferInstanceAs (Decidable (c.clientPc.rested = true ∧ c.serverPc.rested = true))

/-- The control messages sent and not yet taken by the client handler. -/
def messages (c : Conn F) : ℕ := c.msgs.length + c.clientCq

/-- The token is in this place. -/
def Held (c : Conn F) : Holder → Prop
  | .message => c.messages = 1
  | .client => c.clientPc = .waitSend
  | .write => c.inFlight = 1
  | .server => ∃ n, c.serverPc = .waitRecv n

/-- Every arrival has been taken by its handler up to the wait. -/
def Settled (c : Conn F) : Prop := c.clientCq = 0 ∧ c.serverCq = [] ∧ c.serverPc.early = 0

/-- The law of the token. -/
structure OneToken (c : Conn F) : Prop where
  holder : ∃! p, c.Held p
  messages_le : c.messages ≤ 1
  inFlight_le : c.inFlight ≤ 1
  diff : c.client.bufWriteCounter - c.server.bufRecvCounter = c.inFlight
  serverRecv : c.writes ≠ [] → 0 < c.serverRecvs
  clientRecv : c.msgs ≠ [] → 0 < c.clientRecvs
  settled : c.Settled →
    (c.inFlight = 1 → 0 < c.serverRecvs) ∧ (c.messages = 1 → 0 < c.clientRecvs)
  first : c.client.bufWriteCounter = 0 → ∀ m ∈ c.msgs, m = ⟨.mr, c.server.bufferMr⟩
  peer : c.clientPc = .waitSend ∨ 0 < c.client.bufWriteCounter →
    c.client.peer = c.server.bufferMr

/-! ## The opening of a connection -/

/-- Until the first write is counted only `MSG_MR` is sent, and until the first
write is posted the client may not know its peer. -/
structure Opening (c : Conn F) : Prop where
  nonneg : 0 ≤ c.counted
  msgs : c.counted = 0 → ∀ m ∈ c.msgs, m.id = .mr
  answers : c.serverPc.answers = true → 0 < c.counted
  peer : c.client.peer = c.server.bufferMr ∨ c.client.bufWriteCounter = 0

theorem opening_established (b r : F) (len : ℕ) (mr : Mr) (canRecv : Bool) :
    Opening (established b r len mr canRecv) := by
  constructor <;> simp [established, counted]

theorem Opening.step [Region F] {a : ConnAct} (h : Opening c) (hh : Handshake c)
    (hs : c.step a = some c') : Opening c' := by
  obtain ⟨hnn, hmsgs, hans, hpeer⟩ := h
  cases step_cases hs with
  | pollMr hpc hcq hid => exact ⟨hnn, hmsgs, hans, .inl (hh.got (by omega)).2⟩
  | count hpc =>
      have hp : c.client.peer = c.server.bufferMr :=
        hh.peer.resolve_right fun hg => by simpa [hpc] using hg.pc
      exact ⟨hnn, hmsgs, hans, .inl hp⟩
  | countRecv hpc =>
      have hpos : 0 < c.counted + 1 := by omega
      exact ⟨hpos.le, fun h0 => absurd h0 hpos.ne', fun _ => hpos, hpeer⟩
  | testRecvZero hpc _ | testRecv hpc _ _ | setReady hpc =>
      have hpos : 0 < c.counted := hans (by simp [hpc])
      exact ⟨hnn, hmsgs, fun _ => hpos, hpeer⟩
  | send hpc =>
      have hpos : 0 < c.counted := hans (by simp [hpc])
      exact ⟨hnn, fun h0 => absurd h0 hpos.ne', fun _ => hpos, hpeer⟩
  | deliverMsg hm _ =>
      refine ⟨hnn, fun h0 m hmem => ?_, hans, hpeer⟩
      exact hmsgs h0 m (by rw [hm]; exact List.mem_cons_of_mem _ hmem)
  | pollZero hpc _ | pollWrite hpc _ _ =>
      refine ⟨hnn, hmsgs, fun h => ?_, hpeer⟩
      simp at h
  | zeroReady hpc | postRecv hpc | setLen hpc =>
      refine ⟨hnn, hmsgs, fun h => ?_, hpeer⟩
      simp at h
  | _ => exact ⟨hnn, hmsgs, hans, hpeer⟩

/-! ## Any application -/

/-- What holds of a connection under any application. -/
structure Served (c : Conn F) : Prop where
  sound : ∃ E, Sound E c
  opening : c.Opening

theorem Served.step [Region F] {a : AppAct F} (h : Served c) (hs : c.appStep a = some c') :
    Served c' := by
  obtain ⟨⟨E, hE⟩, hop⟩ := h
  cases a with
  | canSend b =>
      cases hs
      exact ⟨⟨E + 1, hE.setCanSend b⟩, ⟨hop.1, hop.2, hop.3, hop.4⟩⟩
  | canRecv b =>
      cases hs
      exact ⟨⟨E, hE.setCanRecv b⟩, ⟨hop.1, hop.2, hop.3, hop.4⟩⟩
  | fill f =>
      cases hs
      exact ⟨⟨E, hE.modifyBuffer f⟩, ⟨hop.1, hop.2, hop.3, hop.4⟩⟩
  | setLen len =>
      cases hs
      exact ⟨⟨E, hE.setBufLen len⟩, ⟨hop.1, hop.2, hop.3, hop.4⟩⟩
  | conn a => exact ⟨⟨E, hE.step hs⟩, hop.step hE.hand hs⟩

/-! ## The law in a rested state -/

/-- The four places of the token, as numbers. -/
theorem Token.places (h : Token c) :
    c.messages + c.clientPc.token + c.inFlight + c.serverPc.answers.toNat = 1 := by
  have hone := h.one
  have hserver : c.serverPc.token = c.serverPc.early + c.serverPc.answers.toNat := by
    cases c.serverPc <;> rfl
  rw [messages, inFlight]
  omega

theorem awaits_iff_token (hr : c.Rested) : c.clientPc = .waitSend ↔ c.clientPc.token = 1 := by
  obtain ⟨hc, -⟩ := hr
  cases hpc : c.clientPc <;> simp [hpc] at hc ⊢

theorem awaits_iff_answers (hr : c.Rested) :
    (∃ n, c.serverPc = .waitRecv n) ↔ c.serverPc.answers.toNat = 1 := by
  obtain ⟨-, hs⟩ := hr
  cases hpc : c.serverPc <;> simp [hpc] at hs ⊢

/-- Of four numbers that sum up to one, exactly one is one. -/
theorem Token.holder (h : Token c) (hr : c.Rested) : ∃! p, c.Held p := by
  have hsum := h.places
  have hclient := awaits_iff_token hr
  have hserver := awaits_iff_answers hr
  have hheld : ∀ p, c.Held p ↔ (match p with
      | .message => c.messages
      | .client => c.clientPc.token
      | .write => c.inFlight
      | .server => c.serverPc.answers.toNat) = 1 := by
    intro p
    cases p with
    | message | write => rfl
    | client => exact hclient
    | server => exact hserver
  simp only [hheld]
  have hcases : c.messages = 1 ∨ c.clientPc.token = 1 ∨ c.inFlight = 1 ∨
      c.serverPc.answers.toNat = 1 := by omega
  rcases hcases with hm | hc | hw | hs
  · refine ⟨.message, hm, fun p hp => ?_⟩
    cases p <;> first | rfl | (dsimp only at hp; omega)
  · refine ⟨.client, hc, fun p hp => ?_⟩
    cases p <;> first | rfl | (dsimp only at hp; omega)
  · refine ⟨.write, hw, fun p hp => ?_⟩
    cases p <;> first | rfl | (dsimp only at hp; omega)
  · refine ⟨.server, hs, fun p hp => ?_⟩
    cases p <;> first | rfl | (dsimp only at hp; omega)

/-- In a rested state every posted write is in `buf_write_counter`. -/
theorem posted_of_rested (hr : c.Rested) : c.posted = c.client.bufWriteCounter := by
  obtain ⟨hc, -⟩ := hr
  rw [posted]
  cases hpc : c.clientPc <;> simp [hpc] at hc ⊢

/-- A write on the wire finds a receive. -/
theorem Token.serverRecv_of_write (h : Token c) (hw : c.writes ≠ []) : 0 < c.serverRecvs := by
  obtain ⟨hone, -, hsr⟩ := h
  have hpos := List.length_pos_iff.mpr hw
  have howes : c.serverPc.owes ≤ c.serverPc.token := by cases c.serverPc <;> simp
  omega

/-- A control message on the wire finds a receive, once the client handler has
reposted it. -/
theorem Token.clientRecv_of_message (h : Token c) (hlive : c.clientPc ≠ .closed) (hr : c.Rested)
    (hm : c.msgs ≠ []) : 0 < c.clientRecvs := by
  obtain ⟨hone, hcr, -⟩ := h
  have hpos := List.length_pos_iff.mpr hm
  have howes : c.clientPc.owes = c.clientPc.token := by
    obtain ⟨hc, -⟩ := hr
    cases hpc : c.clientPc <;> simp [hpc] at hc hlive ⊢
  omega

theorem Settled.inFlight (h : c.Settled) : c.inFlight = c.writes.length := by
  obtain ⟨-, hcq, hearly⟩ := h
  rw [Conn.inFlight, hcq, hearly, List.length_nil, Nat.add_zero]

theorem Settled.messages (h : c.Settled) : c.messages = c.msgs.length := by
  simp [Conn.messages, h.1]

/-- The law holds wherever no handler is past its wait. -/
theorem Served.oneToken (h : Served c) (hr : c.Rested) : OneToken c := by
  obtain ⟨⟨E, hctl, htok, hhand⟩, hop⟩ := h
  have hsum := htok.places
  have hposted := posted_of_rested hr
  have hflight := hctl.flight
  have hserver : c.writes ≠ [] → 0 < c.serverRecvs := htok.serverRecv_of_write
  have hclient : c.msgs ≠ [] → 0 < c.clientRecvs := htok.clientRecv_of_message hhand.live hr
  rw [hposted] at hflight
  refine
    { holder := htok.holder hr
      messages_le := by omega
      inFlight_le := by omega
      diff := ?_
      serverRecv := hserver
      clientRecv := hclient
      settled := fun hst => ⟨fun h1 => hserver ?_, fun h1 => hclient ?_⟩
      first := fun h0 m hm => ?_
      peer := ?_ }
  · rw [counted] at hflight
    omega
  · rw [hst.inFlight] at h1
    exact List.ne_nil_of_length_eq_add_one h1
  · rw [hst.messages] at h1
    exact List.ne_nil_of_length_eq_add_one h1
  · have hnn := hop.nonneg
    have hid : m.id = .mr := hop.msgs (by omega) m hm
    have hmr : m.mr = c.server.bufferMr := (hhand.wire m hm).2
    obtain ⟨id, mr⟩ := m
    rw [hid.symm, hmr.symm]
  · rintro (hwait | hpos)
    · exact hhand.peer.resolve_right fun hg => by simpa [hwait] using hg.pc
    · exact hop.peer.resolve_right hpos.ne'

end Conn

/-! ## The law in every run -/

/-- The memory of a connection when `server_on_connection` has run. -/
structure ConnSetup (F : Type) where
  buffer : F
  recvBuffer : F
  bufLen : ℕ
  mr : Mr
  canRecv : Bool

namespace ConnSetup

variable {F : Type} [Region F] (k : ConnSetup F)

/-- The connection when `server_on_connection` has run. -/
def start : Conn F := .established k.buffer k.recvBuffer k.bufLen k.mr k.canRecv

/-- The connection under any application, one access at a time. -/
def fine : System (Conn F) (AppAct F) where
  init c := c = k.start
  step := Conn.appStep

/-- The connection under any application.  What a handler does after its wait is
one step. -/
def system : System (Conn F) (AppAct F × ℕ) := k.fine.atomic Conn.Rested

variable {k} {c : Conn F}

theorem served (h : k.fine.Reachable c) : c.Served := by
  refine h.invariant ?_ ?_
  · rintro s rfl
    exact ⟨⟨0, Conn.sound_established ..⟩, Conn.opening_established ..⟩
  · intro s a t _ ih _ hs
    exact ih.step hs

/-- In every run there is one token, the counters differ by the write in flight,
every message and every write finds a receive, and the first message tells the
client its peer before the first write. -/
theorem one_token (h : k.system.Reachable c) : c.OneToken := by
  have hinit : ∀ s, k.fine.init s → s.Rested := by
    rintro s rfl
    exact ⟨rfl, rfl⟩
  obtain ⟨hfine, hrest⟩ := System.atomic_reachable hinit h
  exact (served hfine).oneToken hrest

/-- A connection of empty buffers, for the runs below. -/
def small : ConnSetup (ℕ → Bool) := ⟨fun _ => false, fun _ => false, 0, ⟨7, 1⟩, true⟩

/-- A frame of length zero is in flight, and a raised flag waits for its turn. -/
theorem one_token_small :
    ∃ c, small.system.Reachable c ∧ (c.writes.length = 1 ∧ c.client.canSend = true) ∧
      c.OneToken := by
  obtain ⟨c, hr, hp⟩ := System.exists_reachable small.system
    [(.conn .deliverMsg, 1), (.conn .client, 1), (.canSend true, 1), (.conn .client, 5),
      (.canSend true, 1)]
    (fun c => c.writes.length = 1 ∧ c.client.canSend = true) rfl (by decide)
  exact ⟨c, hr, hp, one_token hr⟩

end ConnSetup

end StellarBench
