import StellarBench.Transport.Token

/-!
# What a connection carries

The handlers and the NICs do not look into the buffers: `Conn.forget` has the same
steps (`step_forget`).  So two connections with the same control take the same
actions, whatever they carry.

`Conveys P L R E` says of the write that is announced and not yet counted, or not
yet read, that it has the length `L` and that its content satisfies `P`, wherever
the content is.  `P` has to survive the placing of `L` bytes over other memory.
-/

namespace StellarBench

variable {F G : Type}

/-! ## Control -/

/-- Memory that is not looked at. -/
instance : Region Unit where
  write _ _ _ := ()

def Write.forget (w : Write F) : Write Unit := ⟨w.remote, w.len, w.payload.map fun _ => ()⟩

namespace Conn

/-- A connection without the contents of its buffers. -/
def forget (c : Conn F) : Conn Unit where
  client := ⟨(), c.client.bufLen, c.client.canSend, c.client.bufWriteCounter, c.client.msg,
    c.client.peer⟩
  clientPc := c.clientPc
  clientRecvs := c.clientRecvs
  clientCq := c.clientCq
  server := ⟨(), c.server.bufLen, c.server.canRecv, c.server.bufRecvCounter, c.server.bufferMr,
    c.server.msg⟩
  serverPc := c.serverPc
  serverRecvs := c.serverRecvs
  serverCq := c.serverCq
  writes := c.writes.map Write.forget
  msgs := c.msgs

theorem clientOnCompletion_forget (c : Conn F) :
    c.clientOnCompletion.map forget = c.forget.clientOnCompletion := by
  obtain ⟨client, pc, recvs, cq, server, serverPc, serverRecvs, serverCq, writes, msgs⟩ := c
  cases pc with
  | poll =>
      cases cq with
      | zero => rfl
      | succ k =>
          obtain ⟨buffer, bufLen, canSend, count, ⟨id, mr⟩, peer⟩ := client
          cases id <;> rfl
  | waitSend =>
      obtain ⟨buffer, bufLen, canSend, count, msg, peer⟩ := client
      cases canSend <;> rfl
  | post => simp [clientOnCompletion, forget, Write.forget]
  | clear | count | repost | closed => rfl

theorem serverOnCompletion_forget (c : Conn F) :
    c.serverOnCompletion.map forget = c.forget.serverOnCompletion := by
  obtain ⟨client, pc, recvs, cq, server, serverPc, serverRecvs, serverCq, writes, msgs⟩ := c
  cases serverPc with
  | poll => cases serverCq <;> rfl
  | waitRecv size =>
      obtain ⟨buffer, bufLen, canRecv, count, mr, msg⟩ := server
      cases canRecv <;> rfl
  | zero | postRecv | setLen | count | setReady | send => rfl

theorem nicRead_forget (c : Conn F) : c.nicRead.map forget = c.forget.nicRead := by
  obtain ⟨client, pc, recvs, cq, server, serverPc, serverRecvs, serverCq, writes, msgs⟩ := c
  match writes with
  | [] => rfl
  | ⟨mr, len, none⟩ :: ws => rfl
  | ⟨mr, len, some src⟩ :: ws => rfl

theorem deliver_forget [Region F] (c : Conn F) : c.deliver.map forget = c.forget.deliver := by
  obtain ⟨client, pc, recvs, cq, server, serverPc, serverRecvs, serverCq, writes, msgs⟩ := c
  match writes with
  | [] => rfl
  | ⟨mr, len, none⟩ :: ws => rfl
  | ⟨mr, len, some src⟩ :: ws =>
      by_cases h : 0 < serverRecvs ∧ mr = server.bufferMr
      · simp [deliver, forget, Write.forget, h, Region.write]
      · simp [deliver, forget, Write.forget, h]

theorem deliverMsg_forget (c : Conn F) : c.deliverMsg.map forget = c.forget.deliverMsg := by
  obtain ⟨client, pc, recvs, cq, server, serverPc, serverRecvs, serverCq, writes, msgs⟩ := c
  cases msgs with
  | nil => rfl
  | cons m ms =>
      by_cases h : 0 < recvs
      · simp [deliverMsg, forget, h]
      · simp [deliverMsg, forget, h]

/-- The control of a connection does not depend on what it carries. -/
theorem step_forget [Region F] (c : Conn F) (a : ConnAct) :
    (c.step a).map forget = c.forget.step a := by
  cases a with
  | client => exact clientOnCompletion_forget c
  | server => exact serverOnCompletion_forget c
  | nicRead => exact nicRead_forget c
  | deliver => exact deliver_forget c
  | deliverMsg => exact deliverMsg_forget c

/-- Connections with the same control take the same actions. -/
theorem step_of_forget_eq [Region F] [Region G] {c : Conn F} {d : Conn G}
    (h : c.forget = d.forget) (a : ConnAct) :
    Option.Rel (fun c d => c.forget = d.forget) (c.step a) (d.step a) := by
  have hmap : (c.step a).map forget = (d.step a).map forget := by
    rw [step_forget, step_forget, h]
  cases hc : c.step a with
  | none =>
      rw [hc, Option.map_none, eq_comm, Option.map_eq_none_iff] at hmap
      rw [hmap]
      exact .none
  | some c' =>
      rw [hc, Option.map_some, eq_comm, Option.map_eq_some_iff] at hmap
      obtain ⟨d', hd, hforget⟩ := hmap
      rw [hd]
      exact .some hforget.symm

theorem ctl_forget {c : Conn F} {E : ℤ} : c.forget.Ctl E ↔ c.Ctl E := by
  have hflight : c.forget.inFlight = c.inFlight := by
    simp [inFlight, forget]
  constructor
  · rintro ⟨hf, hle⟩
    rw [hflight] at hf
    exact ⟨hf, hle⟩
  · rintro ⟨hf, hle⟩
    rw [← hflight] at hf
    exact ⟨hf, hle⟩

theorem Ctl.of_forget_eq {c : Conn F} {d : Conn G} {E : ℤ} (hd : d.Ctl E)
    (h : c.forget = d.forget) : c.Ctl E := by
  rw [← ctl_forget, h, ctl_forget]
  exact hd

theorem counted_of_forget_eq {c : Conn F} {d : Conn G} (h : c.forget = d.forget) :
    c.counted = d.counted :=
  congrArg Conn.counted h

theorem client_bufLen_step [Region F] {c c' : Conn F} {a : ConnAct} (hs : c.step a = some c') :
    c'.client.bufLen = c.client.bufLen := by
  cases step_cases hs <;> rfl

/-! ## Contents -/

variable {c c' : Conn F} {a : ConnAct} {P : F → Prop} {L : ℕ} {R E : ℤ}

/-- The announced content of a connection, and its length. -/
structure Conveys (P : F → Prop) (L : ℕ) (R E : ℤ) (c : Conn F) : Prop where
  source : c.counted < E → P c.client.buffer ∧ c.client.bufLen = L
  writes : ∀ w ∈ c.writes, w.len = L ∧ ∀ x ∈ w.payload, P x
  placed : 0 < c.serverCq.length + c.serverPc.early → P c.server.buffer
  unread : R < c.counted → P c.server.buffer

/-- With everything announced counted and read, any content may come next. -/
theorem Conveys.of_idle (hctl : c.Ctl E) (hR : c.counted ≤ R) (hE : E ≤ c.counted) (P : F → Prop)
    (L : ℕ) : Conveys P L R E c := by
  have hf := hctl.flight
  have hle := hctl.le
  unfold inFlight at hf
  refine ⟨by omega, fun w hw => ?_, by omega, by omega⟩
  have := List.length_pos_of_mem hw
  omega

theorem Conveys.ack (h : Conveys P L R E c) : Conveys P L R E c.ack := ⟨h.1, h.2, h.3, h.4⟩

/-- The consumer has read one more frame. -/
theorem Conveys.mono {R' : ℤ} (h : Conveys P L R E c) (hR : R ≤ R') : Conveys P L R' E c :=
  ⟨h.1, h.2, h.3, fun hlt => h.4 (by omega)⟩

/-- An announcement puts the content of the send buffer on its way. -/
theorem Conveys.announce (hctl : c.Ctl E) (hR : c.counted ≤ R) (hE : E ≤ c.counted)
    (hbuf : P c.client.buffer) (hlen : c.client.bufLen = L) :
    Conveys P L R (E + 1) c.announce := by
  obtain ⟨-, hw, hpl, hu⟩ := Conveys.of_idle hctl hR hE P L
  exact ⟨fun _ => ⟨hbuf, hlen⟩, hw, hpl, hu⟩

theorem Conveys.step [Region F] (hL : L < 2 ^ 32)
    (hP : ∀ src dst, P src → P (Region.write L src dst)) (hctl : c.Ctl E)
    (h : Conveys P L R E c) (hs : c.step a = some c') : Conveys P L R E c' := by
  obtain ⟨hsrc, hw, hpl, hun⟩ := h
  have hcnt := counted_step hs
  have hbuf := client_buffer_step hs
  have hf := hctl.flight
  have hle := hctl.le
  unfold inFlight at hf
  have hsrc' : c'.counted < E → P c'.client.buffer ∧ c'.client.bufLen = L := fun hlt => by
    rw [hbuf, client_bufLen_step hs]
    exact hsrc (by omega)
  cases step_cases hs with
  | post hpc =>
      -- the announcement that is posted stands, so its frame is not counted
      have hlen : c.client.bufLen = L := by
        refine (hsrc ?_).2
        simp only [pending, hpc, ClientPc.pending] at hle
        omega
      refine ⟨hsrc', fun w hmem => ?_, hpl, hun⟩
      rcases List.mem_append.mp hmem with hmem | hmem
      · exact hw w hmem
      · rw [List.mem_singleton.mp hmem, hlen]
        exact ⟨Nat.mod_eq_of_lt hL, by simp⟩
  | nicRead hws =>
      simp only [hws, List.length_cons] at hf
      refine ⟨hsrc', ?_, hpl, hun⟩
      simp only [hws, List.forall_mem_cons] at hw ⊢
      refine ⟨⟨hw.1.1, fun x hx => ?_⟩, hw.2⟩
      rw [← Option.some.inj hx]
      exact (hsrc (by omega)).1
  | deliver hws _ =>
      simp only [hws, List.forall_mem_cons] at hw
      obtain ⟨⟨rfl, hsrc''⟩, hrest⟩ := hw
      have hplaced := hP _ c.server.buffer (hsrc'' _ rfl)
      exact ⟨hsrc', hrest, fun _ => hplaced, fun _ => hplaced⟩
  | pollZero hpc hcq | pollWrite hpc hcq _ =>
      have hb := hpl (by simp [hcq])
      exact ⟨hsrc', hw, fun _ => hb, hun⟩
  | zeroReady hpc | postRecv hpc | setLen hpc =>
      have hb := hpl (by simp [hpc])
      exact ⟨hsrc', hw, fun _ => hb, hun⟩
  | countRecv hpc =>
      have hb := hpl (by simp [hpc])
      exact ⟨hsrc', hw, fun _ => hb, fun _ => hb⟩
  | testRecvZero hpc _ | testRecv hpc _ _ | setReady hpc | send hpc =>
      simp only [hpc, ServerPc.early] at hpl
      exact ⟨hsrc', hw, hpl, hun⟩
  | pollMr | pollReady | pollDone | pollInvalid | testSend | clear | count | repost | deliverMsg =>
      exact ⟨hsrc', hw, hpl, hun⟩

end Conn

end StellarBench
