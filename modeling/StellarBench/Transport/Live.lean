import StellarBench.Transport.Token

/-!
# When a connection stands still

The token of a connection is always at a place from which it can move on, with
two exceptions: the client handler waits for `can_send`, and the server handler
waits for `can_recv`.
-/

namespace StellarBench

namespace Conn

variable {F : Type} {c c' : Conn F} {a : ConnAct} {E : ℤ}

/-- The client handler is in its loop on `can_send`. -/
def AwaitsSend (c : Conn F) : Prop := c.clientPc = .waitSend ∧ c.client.canSend = false

/-- The server handler is in its loop on `can_recv`. -/
def AwaitsRecv (c : Conn F) : Prop := (∃ n, c.serverPc = .waitRecv n) ∧ c.server.canRecv = false

/-! ## What a waiting handler implies -/

/-- The server handler waits only after it has counted a write. -/
structure Answered (c : Conn F) : Prop where
  nonneg : 0 ≤ c.counted
  waits : (∃ n, c.serverPc = .waitRecv n) → 1 ≤ c.counted

theorem answered_established (b r : F) (len : ℕ) (mr : Mr) (canRecv : Bool) :
    Answered (established b r len mr canRecv) := by
  constructor <;> simp [established, counted]

/-- With a write in flight neither handler waits. -/
theorem not_awaits_of_inFlight (h : Token c) (hf : 0 < c.inFlight) :
    ¬ c.AwaitsSend ∧ ¬ c.AwaitsRecv := by
  obtain ⟨hone, -, -⟩ := h
  rw [inFlight] at hf
  constructor
  · rintro ⟨hpc, -⟩
    have hearly : c.serverPc.early ≤ c.serverPc.token := by cases c.serverPc <;> simp
    simp only [hpc, ClientPc.token] at hone
    omega
  · rintro ⟨⟨n, hpc⟩, -⟩
    simp only [hpc, ServerPc.token, ServerPc.early] at hone hf
    omega

/-- With an announcement standing the client handler does not wait. -/
theorem not_awaitsSend_of_pending (hp : 0 < c.pending) : ¬ c.AwaitsSend := by
  rintro ⟨hpc, hcs⟩
  simp [pending, hpc, hcs] at hp

/-! ## Steps -/

variable [Region F]

theorem Answered.step (h : Answered c) (hs : c.step a = some c') : Answered c' := by
  obtain ⟨h0, h1⟩ := h
  cases step_cases hs with
  | countRecv hpc =>
      refine ⟨?_, fun _ => ?_⟩
      · show 0 ≤ c.server.bufRecvCounter + 1
        rw [counted] at h0
        omega
      · show 1 ≤ c.server.bufRecvCounter + 1
        rw [counted] at h0
        omega
  | pollZero | pollWrite | zeroReady | postRecv | setLen | testRecvZero | testRecv | setReady
  | send => exact ⟨h0, by rintro ⟨n, ⟨⟩⟩⟩
  | _ => exact ⟨h0, h1⟩

theorem Sound.client_steps (h : Sound E c) (hcq : c.clientPc = .poll → 0 < c.clientCq) :
    (c.step .client).isSome ∨ c.AwaitsSend := by
  rw [Conn.step, clientOnCompletion]
  cases hpc : c.clientPc with
  | poll =>
      obtain ⟨k, hk⟩ := Nat.exists_eq_add_one_of_ne_zero (hcq hpc).ne'
      cases hid : c.client.msg.id <;> simp [hk]
  | waitSend =>
      cases hcs : c.client.canSend with
      | true => simp
      | false => exact .inr ⟨hpc, hcs⟩
  | post | clear | count | repost => simp
  | closed => exact absurd hpc h.hand.live

theorem server_steps (hcq : c.serverPc = .poll → c.serverCq ≠ []) :
    (c.step .server).isSome ∨ c.AwaitsRecv := by
  rw [step, serverOnCompletion]
  cases hpc : c.serverPc with
  | poll =>
      obtain ⟨n, ns, hns⟩ := List.exists_cons_of_ne_nil (hcq hpc)
      simp [hns]
  | waitRecv n =>
      cases hcr : c.server.canRecv with
      | true => simp
      | false => exact .inr ⟨⟨n, hpc⟩, hcr⟩
  | zero | postRecv | setLen | count | setReady | send => simp

/-- A connection can take a step unless one of its handlers waits for a flag. -/
theorem Sound.step_or_awaits (h : Sound E c) :
    (∃ a, (c.step a).isSome) ∨ c.AwaitsSend ∨ c.AwaitsRecv := by
  obtain ⟨hone, hcr, hsr⟩ := h.token
  by_cases hclient : c.clientPc = .poll → 0 < c.clientCq
  · rcases h.client_steps hclient with hs | hw
    · exact .inl ⟨_, hs⟩
    · exact .inr (.inl hw)
  by_cases hserver : c.serverPc = .poll → c.serverCq ≠ []
  · rcases server_steps hserver with hs | hw
    · exact .inl ⟨_, hs⟩
    · exact .inr (.inr hw)
  -- both handlers poll empty queues, so the token is on the wire
  simp only [Classical.not_imp, not_lt, Nat.le_zero, ne_eq, not_not] at hclient hserver
  obtain ⟨hpc, hcq⟩ := hclient
  obtain ⟨hspc, hscq⟩ := hserver
  simp only [hpc, hcq, hspc, hscq, ClientPc.token, ClientPc.owes, ServerPc.token, ServerPc.owes,
    List.length_nil] at hone hcr hsr
  left
  cases hm : c.msgs with
  | cons m ms =>
      refine ⟨.deliverMsg, ?_⟩
      simp [Conn.step, deliverMsg, hm, show 0 < c.clientRecvs by omega]
  | nil =>
      cases hw : c.writes with
      | nil => simp [hm, hw] at hone
      | cons w ws =>
          obtain ⟨mr, len, payload⟩ := w
          cases payload with
          | none =>
              refine ⟨.nicRead, ?_⟩
              simp [Conn.step, Conn.nicRead, hw]
          | some src =>
              have hmr : mr = c.server.bufferMr := h.hand.remote ⟨mr, len, some src⟩ (by simp [hw])
              refine ⟨.deliver, ?_⟩
              simp [Conn.step, Conn.deliver, hw, hmr, show 0 < c.serverRecvs by omega]

end Conn

end StellarBench
