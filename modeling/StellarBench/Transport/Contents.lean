import StellarBench.Transport.Token

/-!
# What the buffers of a connection hold

`Contents f R E` says that of the `E` announced writes the one that is not yet
counted, or not yet read by the consumer that has read `R`, carries `f`: in the
send buffer until it is counted, in the payload the NIC took from there, and in
the receive buffer once it is placed.  Writes are taken to replace the whole
receive buffer (`whole`).

A connection in which everything announced has been read satisfies it for every
`f`, which is how the next content comes in.
-/

namespace StellarBench

namespace Conn

variable {F : Type} {c c' : Conn F} {a : ConnAct} {R E : ℤ} {f : F}

/-- The announced content of a connection. -/
structure Contents (f : F) (R E : ℤ) (c : Conn F) : Prop where
  source : c.counted < E → c.client.buffer = f
  payload : ∀ w ∈ c.writes, w.payload = none ∨ w.payload = some f
  placed : 0 < c.serverCq.length + c.serverPc.early → c.server.buffer = f
  unread : R < c.counted → c.server.buffer = f

/-- With everything announced counted and read, any content may come next. -/
theorem Contents.of_idle (hctl : c.Ctl E) (hR : c.counted ≤ R) (hE : E ≤ c.counted) (f : F) :
    Contents f R E c := by
  have hf := hctl.flight
  have hle := hctl.le
  unfold inFlight at hf
  refine ⟨by omega, fun w hw => ?_, by omega, by omega⟩
  have := List.length_pos_of_mem hw
  omega

theorem Contents.ack (h : Contents f R E c) : Contents f R E c.ack := ⟨h.1, h.2, h.3, h.4⟩

/-- The consumer has read one more frame. -/
theorem Contents.mono {R' : ℤ} (h : Contents f R E c) (hR : R ≤ R') : Contents f R' E c :=
  ⟨h.1, h.2, h.3, fun hlt => h.4 (by omega)⟩

/-- An announcement puts the content of the send buffer on its way. -/
theorem Contents.announce (hctl : c.Ctl E) (hR : c.counted ≤ R) (hE : E ≤ c.counted)
    (hbuf : c.client.buffer = f) : Contents f R (E + 1) c.announce := by
  obtain ⟨-, hp, hpl, hu⟩ := Contents.of_idle hctl hR hE f
  exact ⟨fun _ => hbuf, hp, hpl, hu⟩

variable [Region F]

theorem Contents.step (whole : ∀ (len : ℕ) (src dst : F), Region.write len src dst = src)
    (hctl : c.Ctl E) (h : Contents f R E c) (hs : c.step a = some c') : Contents f R E c' := by
  obtain ⟨hsrc, hpay, hpl, hun⟩ := h
  have hcnt := counted_step hs
  have hbuf := client_buffer_step hs
  have hsrc' : c'.counted < E → c'.client.buffer = f := fun hlt => by
    rw [hbuf]
    exact hsrc (by omega)
  have hf := hctl.flight
  have hle := hctl.le
  unfold inFlight at hf
  cases step_cases hs with
  | post hpc =>
      refine ⟨hsrc', fun w hw => ?_, hpl, hun⟩
      rcases List.mem_append.mp hw with hw | hw
      · exact hpay w hw
      · exact .inl (by rw [List.mem_singleton.mp hw])
  | nicRead hw =>
      -- the write is posted and not counted, so the send buffer still holds it
      simp only [hw, List.length_cons] at hf
      refine ⟨hsrc', ?_, hpl, hun⟩
      simp only [hw, List.forall_mem_cons] at hpay ⊢
      exact ⟨.inr (congrArg some (hsrc (by omega))), hpay.2⟩
  | deliver hw _ =>
      simp only [hw, List.forall_mem_cons, Option.some.injEq, reduceCtorEq, false_or] at hpay
      exact ⟨hsrc', hpay.2, fun _ => (whole _ _ _).trans hpay.1,
        fun _ => (whole _ _ _).trans hpay.1⟩
  | pollZero hpc hcq | pollWrite hpc hcq _ =>
      have hb := hpl (by simp [hcq])
      exact ⟨hsrc', hpay, fun _ => hb, hun⟩
  | zeroReady hpc | postRecv hpc | setLen hpc =>
      have hb := hpl (by simp [hpc])
      exact ⟨hsrc', hpay, fun _ => hb, hun⟩
  | countRecv hpc =>
      have hb := hpl (by simp [hpc])
      exact ⟨hsrc', hpay, fun _ => hb, fun _ => hb⟩
  | testRecvZero hpc _ | testRecv hpc _ _ | setReady hpc | send hpc =>
      simp only [hpc, ServerPc.early] at hpl
      exact ⟨hsrc', hpay, hpl, hun⟩
  | pollMr | pollReady | pollDone | pollInvalid | testSend | clear | count | repost | deliverMsg =>
      exact ⟨hsrc', hpay, hpl, hun⟩

end Conn

end StellarBench
