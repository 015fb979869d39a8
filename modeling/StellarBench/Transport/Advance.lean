import StellarBench.Transport.Token

/-!
# How far a connection is

`Conn.taken` counts the steps a connection has taken, as far as they can be read
off its counters and program counters.  Every step raises it, and the number of
announcements bounds it.
-/

namespace StellarBench

/-! ## What a program counter stands for -/

/-- The place of the client handler in its cycle, which `buf_write_counter++`
turns over. -/
@[simp] def ClientPc.stage : ClientPc → ℤ
  | .poll | .closed => 0
  | .waitSend => 1
  | .post => 2
  | .clear => 3
  | .count => 4
  | .repost => -1

/-- A control message that is polled and not answered by a counted write. -/
@[simp] def ClientPc.answering : ClientPc → ℤ
  | .waitSend | .post | .clear | .count => 1
  | _ => 0

/-- The place of the server handler in its cycle, which `buf_recv_counter++`
turns over. -/
@[simp] def ServerPc.stage : ServerPc → ℤ
  | .poll => 0
  | .zero => 1
  | .postRecv _ => 2
  | .setLen _ => 3
  | .count _ => 4
  | .waitRecv _ => -3
  | .setReady => -2
  | .send => -1

namespace Conn

variable {F : Type} {c c' : Conn F} {a : ConnAct} {E : ℤ}

/-- The writes that were placed in the receive buffer. -/
def placed (c : Conn F) : ℤ := c.counted + c.serverPc.early + c.serverCq.length

/-- The writes whose source was read. -/
def read (c : Conn F) : ℤ := c.placed + c.writes.countP fun w => w.payload.isSome

/-- The control messages that were received. -/
def heard (c : Conn F) : ℤ := c.client.bufWriteCounter + c.clientPc.answering + c.clientCq

/-- The steps of both handlers and of the network. -/
def taken (c : Conn F) : ℤ :=
  6 * c.client.bufWriteCounter + c.clientPc.stage + (8 * c.counted + c.serverPc.stage) +
    c.placed + c.read + c.heard

/-- Nothing is taken that was not announced. -/
theorem Sound.taken_le (h : Sound E c) : c.taken ≤ 17 * E + 10 := by
  have hflight := h.ctl.flight
  have hle := h.ctl.le
  have hone := h.token.one
  have hrecv := h.token.clientRecv
  have hread : c.writes.countP (fun w => w.payload.isSome) ≤ c.writes.length :=
    List.countP_le_length
  have hclient : c.clientPc.stage ≤ 4 ∧ c.clientPc.answering ≤ 1 := by cases c.clientPc <;> simp
  have hserver : c.serverPc.stage ≤ 4 := by cases c.serverPc <;> simp
  simp only [posted, inFlight] at hflight hle
  simp only [taken, read, placed, heard]
  omega

/-- Every step of a connection counts. -/
theorem Sound.taken_step [Region F] (h : Sound E c) (hs : c.step a = some c') :
    c.taken + 1 ≤ c'.taken := by
  have hgot : 0 < c.clientCq → c.client.msg.id = .mr ∨ c.client.msg.id = .ready :=
    fun hcq => (h.hand.got hcq).1
  simp only [taken, read, placed, heard, counted]
  cases step_cases hs with
  | pollDone _ hcq hid | pollInvalid _ hcq hid =>
      rcases hgot (by omega) with hid' | hid' <;> rw [hid] at hid' <;> cases hid'
  | pollMr hpc hcq _ | pollReady hpc hcq _ | pollZero hpc hcq | pollWrite hpc hcq _ =>
      simp only [hpc, hcq, ClientPc.stage, ClientPc.answering, ServerPc.stage, ServerPc.early,
        List.length_cons]
      omega
  | testSend hpc _ | post hpc | clear hpc | count hpc | repost hpc =>
      simp only [hpc, ClientPc.stage, ClientPc.answering, List.countP_append, List.countP_singleton,
        Option.isSome_none]
      omega
  | zeroReady hpc | postRecv hpc | setLen hpc | countRecv hpc | testRecvZero hpc _
  | testRecv hpc _ _ | setReady hpc | send hpc =>
      simp only [hpc, ServerPc.stage, ServerPc.early]
      omega
  | nicRead hw | deliver hw _ =>
      simp only [hw, List.countP_cons, List.length_append, List.length_singleton,
        Option.isSome_none, Option.isSome_some, Bool.false_eq_true, if_true, if_false]
      omega
  | deliverMsg =>
      dsimp only
      omega

end Conn

end StellarBench
