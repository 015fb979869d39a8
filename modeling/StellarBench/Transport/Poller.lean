import StellarBench.Lib.Notify
import StellarBench.Transport.OneToken

/-!
# Completion queues and their pollers

In `Conn` a handler can be entered as soon as a receive completion is there for
it.  Here each side has its completion queue and its completion channel, and its
handler runs in the thread that polls: `client_poll_cq` or `server_poll_cq`.  The
queue also has the completions of the signalled sends, which the handlers ignore,
and completions with an error status.  The client prints these and goes on, the
server ends its process.  The calls of the loops succeed: `ibv_get_cq_event` returns an
event when there is one, `ibv_req_notify_cq` arms the queue, and `ibv_poll_cq` returns
no negative number, which the test of the loop would take for a completion.

`Polled` is a `Conn` with both threads.  Its connection only does what `Conn` does,
and what a handler of `Conn` can do its thread does without help.
-/

namespace StellarBench

/-- A completion in the queue of the client. -/
inductive ClientWc where
  | recv | sent | error
deriving DecidableEq, Repr

/-- A completion in the queue of the server. -/
inductive ServerWc where
  /-- `IBV_WC_RECV_RDMA_WITH_IMM` and its immediate. -/
  | recvImm (size : ℕ)
  | sent | error
deriving DecidableEq, Repr

/-- The branch of `client_poll_cq`. -/
def ClientWc.verdict : ClientWc → Verdict
  | .recv | .sent => .handle
  | .error => .skip

/-- The branch of `server_poll_cq`. -/
def ServerWc.verdict : ServerWc → Verdict
  | .recvImm _ | .sent => .handle
  | .error => .die

def ServerWc.size? : ServerWc → Option ℕ
  | .recvImm size => some size
  | .sent | .error => none

/-- An action of the connection, and not a store of the application. -/
def AppAct.ofConn {F : Type} : AppAct F → Bool
  | .conn _ => true
  | _ => false

/-- A connection with both completion queues and their threads.  `writesDue` and
`sendsDue` count the signalled requests that have no completion yet. -/
structure Polled (F : Type) where
  conn : Conn F
  client : Poller ClientWc
  server : Poller ServerWc
  writesDue : ℕ
  sendsDue : ℕ

inductive PolledAct (F : Type) where
  | app (a : AppAct F)
  | clientPoller
  | serverPoller
  | nicRead
  | deliver
  | deliverMsg
  | writeDone
  | sendDone
  | clientError
  | serverError

namespace Polled

variable {F : Type} [Region F]

/-- `client_on_completion`. -/
def clientHandler : Handler ClientWc (Conn F) where
  starts w := w = .recv
  idle c := c.clientPc = .poll
  step c := c.step .client

/-- `server_on_completion`. -/
def serverHandler : Handler ServerWc (Conn F) where
  starts w := w.size?.isSome
  idle c := c.serverPc = .poll
  step c := c.step .server

/-- `client_poll_cq`, with the writes its handler posts. -/
def clientPollCq (p : Polled F) : Option (Polled F) :=
  (p.client.pollCq ClientWc.verdict clientHandler p.conn).map fun r =>
    { p with
      client := r.1, conn := r.2
      writesDue := p.writesDue + (r.2.writes.length - p.conn.writes.length) }

/-- `server_poll_cq`, with the messages its handler sends. -/
def serverPollCq (p : Polled F) : Option (Polled F) :=
  (p.server.pollCq ServerWc.verdict serverHandler p.conn).map fun r =>
    { p with
      server := r.1, conn := r.2
      sendsDue := p.sendsDue + (r.2.msgs.length - p.conn.msgs.length) }

def step (p : Polled F) : PolledAct F → Option (Polled F)
  | .app a =>
      if a.ofConn then none else (p.conn.appStep a).map fun c => { p with conn := c }
  | .clientPoller => p.clientPollCq
  | .serverPoller => p.serverPollCq
  | .nicRead => (p.conn.step .nicRead).map fun c => { p with conn := c }
  | .deliver =>
      match p.conn.writes with
      | [] => none
      | w :: _ => (p.conn.step .deliver).map fun c =>
          { p with conn := c, server := p.server.push (.recvImm w.len) }
  | .deliverMsg => (p.conn.step .deliverMsg).map fun c =>
      { p with conn := c, client := p.client.push .recv }
  | .writeDone =>
      if 0 < p.writesDue then
        some { p with writesDue := p.writesDue - 1, client := p.client.push .sent }
      else none
  | .sendDone =>
      if 0 < p.sendsDue then
        some { p with sendsDue := p.sendsDue - 1, server := p.server.push .sent }
      else none
  | .clientError => some { p with client := p.client.push .error }
  | .serverError => some { p with server := p.server.push .error }

theorem clientPollCq_eq {p : Polled F} {q : Poller ClientWc} {c : Conn F}
    (h : p.client.pollCq ClientWc.verdict clientHandler p.conn = some (q, c)) :
    p.clientPollCq = some ⟨c, q, p.server,
      p.writesDue + (c.writes.length - p.conn.writes.length), p.sendsDue⟩ := by
  rw [clientPollCq, h, Option.map_some]

theorem serverPollCq_eq {p : Polled F} {q : Poller ServerWc} {c : Conn F}
    (h : p.server.pollCq ServerWc.verdict serverHandler p.conn = some (q, c)) :
    p.serverPollCq = some ⟨c, p.client, q, p.writesDue,
      p.sendsDue + (c.msgs.length - p.conn.msgs.length)⟩ := by
  rw [serverPollCq, h, Option.map_some]

/-! ## What the queues show -/

/-- The queues hold what the handlers have not seen, and a handler that is not idle
runs in its thread. -/
structure Synced (p : Polled F) : Prop where
  clientAwake : p.client.Awake
  serverAwake : p.server.Awake
  clientCq : p.conn.clientCq = p.client.queue.count .recv
  serverCq : p.conn.serverCq = p.server.queue.filterMap ServerWc.size?
  clientIdle : p.client.pc ≠ .handle .recv → p.conn.clientPc = .poll
  serverIdle : (∀ n, p.server.pc ≠ .handle (.recvImm n)) → p.conn.serverPc = .poll
  clientAlive : p.client.pc ≠ .dead

end Polled

namespace Conn

variable {F : Type} [Region F] {c c' : Conn F}

/-- The handler of the client takes completions of its own queue. -/
theorem client_frame (hs : c.step .client = some c') :
    c'.serverCq = c.serverCq ∧ c'.serverPc = c.serverPc ∧
      (c.clientPc = .poll → c.clientCq = c'.clientCq + 1) ∧
      (c.clientPc ≠ .poll → c'.clientCq = c.clientCq) := by
  cases step_cases hs with
  | pollMr hpc hcq _ | pollReady hpc hcq _ | pollDone hpc hcq _ | pollInvalid hpc hcq _ =>
      exact ⟨rfl, rfl, fun _ => hcq, fun h => absurd hpc h⟩
  | testSend hpc _ | post hpc | clear hpc | count hpc | repost hpc =>
      exact ⟨rfl, rfl, fun h => absurd (hpc.symm.trans h) (by rintro ⟨⟩), fun _ => rfl⟩

/-- So does that of the server. -/
theorem server_frame (hs : c.step .server = some c') :
    c'.clientCq = c.clientCq ∧ c'.clientPc = c.clientPc ∧
      (c.serverPc = .poll → ∃ size, c.serverCq = size :: c'.serverCq) ∧
      (c.serverPc ≠ .poll → c'.serverCq = c.serverCq) := by
  cases step_cases hs with
  | pollZero hpc hcq | pollWrite hpc hcq _ =>
      exact ⟨rfl, rfl, fun _ => ⟨_, hcq⟩, fun h => absurd hpc h⟩
  | zeroReady hpc | postRecv hpc | setLen hpc | countRecv hpc | testRecvZero hpc _
  | testRecv hpc _ _ | setReady hpc | send hpc =>
      exact ⟨rfl, rfl, fun h => absurd (hpc.symm.trans h) (by rintro ⟨⟩), fun _ => rfl⟩

end Conn

namespace Polled

variable {F : Type} [Region F] {p p' : Polled F}

theorem Synced.clientPoller (h : p.Synced) (hs : p.clientPollCq = some p') : p'.Synced := by
  obtain ⟨⟨q, c⟩, hpoll, rfl⟩ := Option.map_eq_some_iff.mp hs
  obtain ⟨hca, hsa, hccq, hscq, hci, hsi, halive⟩ := h
  have hawake := hca.pollCq hpoll
  cases Poller.pollCq_cases hpoll with
  | handler hpc hst hidle hc =>
      have hst := of_decide_eq_true hst
      have hidle : p.conn.clientPc ≠ .poll := of_decide_eq_false hidle
      obtain ⟨h1, h2, -, h4⟩ := Conn.client_frame hc
      subst hst
      exact ⟨hawake, hsa, (h4 hidle).trans hccq, h1.trans hscq, fun hne => absurd hpc hne,
        fun hne => h2.trans (hsi hne), halive⟩
  | @finish w t hpc hdone hfinish =>
      obtain ⟨v, hpc', rfl⟩ := Poller.finish_cases hfinish
      have hidle : p.conn.clientPc = .poll := by
        by_cases hw : w = .recv
        · exact of_decide_eq_true (hdone (decide_eq_true hw))
        · refine hci fun hpc'' => hw ?_
          rw [hpc] at hpc''
          exact PollerPc.handle.inj hpc''
      exact ⟨hawake, hsa, hccq, hscq, fun _ => hidle, hsi, by rintro ⟨⟩⟩
  | @enter w ws _ hpc hq hv hst hc =>
      have hst := of_decide_eq_true hst
      subst hst
      obtain ⟨h1, h2, h3, -⟩ := Conn.client_frame hc
      have hcount := h3 (hci (by rw [hpc]; rintro ⟨⟩))
      rw [hq, List.count_cons_self] at hccq
      refine ⟨hawake, hsa, ?_, h1.trans hscq, fun hne => absurd rfl hne,
        fun hne => h2.trans (hsi hne), by rintro ⟨⟩⟩
      show c.clientCq = ws.count .recv
      omega
  | poll hne hhead hrest =>
      have hidle : p.conn.clientPc = .poll := hci (hne _)
      cases Poller.poll_cases hrest with
      | get | ack | arm | sleep =>
          exact ⟨hawake, hsa, hccq, hscq, fun _ => hidle, hsi, by rintro ⟨⟩⟩
      | @take w ws hpc hq =>
          have hw := hhead hpc w (by rw [hq]; rfl)
          rw [hq] at hccq
          cases w with
          | recv => exact absurd ⟨rfl, rfl⟩ hw
          | sent | error =>
              exact ⟨hawake, hsa, by simpa using hccq, hscq, fun _ => hidle, hsi, by rintro ⟨⟩⟩

theorem Synced.serverPoller (h : p.Synced) (hs : p.serverPollCq = some p') : p'.Synced := by
  obtain ⟨⟨q, c⟩, hpoll, rfl⟩ := Option.map_eq_some_iff.mp hs
  obtain ⟨hca, hsa, hccq, hscq, hci, hsi, halive⟩ := h
  have hawake := hsa.pollCq hpoll
  cases Poller.pollCq_cases hpoll with
  | @handler w _ hpc hst hidle hc =>
      have hidle : p.conn.serverPc ≠ .poll := of_decide_eq_false hidle
      obtain ⟨h1, h2, -, h4⟩ := Conn.server_frame hc
      refine ⟨hca, hawake, h1.trans hccq, (h4 hidle).trans hscq, fun hne => h2.trans (hci hne),
        fun hne => ?_, halive⟩
      cases w with
      | recvImm n => exact absurd hpc (hne n)
      | sent | error => cases hst
  | @finish w t hpc hdone hfinish =>
      obtain ⟨v, hpc', rfl⟩ := Poller.finish_cases hfinish
      have hidle : p.conn.serverPc = .poll := by
        cases w with
        | recvImm n => exact of_decide_eq_true (hdone rfl)
        | sent | error => exact hsi fun n hn => by rw [hpc] at hn; cases hn
      exact ⟨hca, hawake, hccq, hscq, hci, fun _ => hidle, halive⟩
  | @enter w ws _ hpc hq hv hst hc =>
      obtain ⟨h1, h2, h3, -⟩ := Conn.server_frame hc
      obtain ⟨size, hsize⟩ := h3 (hsi fun n hn => by rw [hpc] at hn; cases hn)
      cases w with
      | recvImm n =>
          have hcq : size :: c.serverCq = n :: ws.filterMap ServerWc.size? := by
            rw [← hsize, hscq, hq]
            rfl
          exact ⟨hca, hawake, h1.trans hccq, (List.cons.inj hcq).2, fun hne => h2.trans (hci hne),
            fun hne => absurd rfl (hne n), halive⟩
      | sent | error => cases hst
  | poll hne hhead hrest =>
      have hidle : p.conn.serverPc = .poll := hsi fun n => hne _
      cases Poller.poll_cases hrest with
      | get | ack | arm | sleep =>
          exact ⟨hca, hawake, hccq, hscq, hci, fun _ => hidle, halive⟩
      | @take w ws hpc hq =>
          have hw := hhead hpc w (by rw [hq]; rfl)
          rw [hq] at hscq
          cases w with
          | recvImm n => exact absurd ⟨rfl, rfl⟩ hw
          | sent | error => exact ⟨hca, hawake, hccq, hscq, hci, fun _ => hidle, halive⟩

theorem Synced.app {a : AppAct F} {c : Conn F} (h : p.Synced) (ha : a.ofConn = false)
    (hs : p.conn.appStep a = some c) : ({ p with conn := c } : Polled F).Synced := by
  obtain ⟨hca, hsa, hccq, hscq, hci, hsi, halive⟩ := h
  cases a with
  | canSend | canRecv | fill | setLen =>
      cases hs
      exact ⟨hca, hsa, hccq, hscq, hci, hsi, halive⟩
  | conn => cases ha

omit [Region F] in
/-- A completion that no handler waits for. -/
theorem Synced.pushClient (h : p.Synced) {w : ClientWc} (hw : w ≠ .recv) {c : Conn F} {m n : ℕ}
    (hc : c = p.conn) : Synced ⟨c, p.client.push w, p.server, m, n⟩ := by
  subst hc
  refine ⟨h.clientAwake.push w, h.serverAwake, ?_, h.serverCq, h.clientIdle, h.serverIdle,
    h.clientAlive⟩
  show p.conn.clientCq = (p.client.queue ++ [w]).count .recv
  rw [List.count_append, List.count_singleton, ← h.clientCq]
  simp [hw]

omit [Region F] in
theorem Synced.pushServer (h : p.Synced) {w : ServerWc} (hw : w.size? = none) {m n : ℕ} :
    Synced ⟨p.conn, p.client, p.server.push w, m, n⟩ := by
  refine ⟨h.clientAwake, h.serverAwake.push w, h.clientCq, ?_, h.clientIdle, h.serverIdle,
    h.clientAlive⟩
  show p.conn.serverCq = (p.server.queue ++ [w]).filterMap ServerWc.size?
  rw [List.filterMap_append, ← h.serverCq]
  simp [hw]

theorem Synced.step {a : PolledAct F} (h : p.Synced) (hs : p.step a = some p') : p'.Synced := by
  cases a with
  | app a =>
      simp only [Polled.step] at hs
      split at hs
      next => cases hs
      next ha =>
        obtain ⟨c, hc, rfl⟩ := Option.map_eq_some_iff.mp hs
        exact h.app (Bool.eq_false_iff.mpr ha) hc
  | clientPoller => exact h.clientPoller hs
  | serverPoller => exact h.serverPoller hs
  | nicRead =>
      obtain ⟨c, hc, rfl⟩ := Option.map_eq_some_iff.mp hs
      cases Conn.step_cases hc with
      | nicRead =>
          obtain ⟨hca, hsa, hccq, hscq, hci, hsi, halive⟩ := h
          exact ⟨hca, hsa, hccq, hscq, hci, hsi, halive⟩
  | deliver =>
      simp only [Polled.step] at hs
      split at hs
      next => cases hs
      next w ws hw =>
        obtain ⟨c, hc, rfl⟩ := Option.map_eq_some_iff.mp hs
        cases Conn.step_cases hc with
        | deliver hw' _ =>
            obtain ⟨hca, hsa, hccq, hscq, hci, hsi, halive⟩ := h
            obtain ⟨rfl, rfl⟩ := List.cons.inj (hw.symm.trans hw')
            refine ⟨hca, hsa.push _, hccq, ?_, hci, hsi, halive⟩
            simp only [Poller.push, List.filterMap_append, ← hscq]
            rfl
  | deliverMsg =>
      obtain ⟨c, hc, rfl⟩ := Option.map_eq_some_iff.mp hs
      cases Conn.step_cases hc with
      | deliverMsg =>
          obtain ⟨hca, hsa, hccq, hscq, hci, hsi, halive⟩ := h
          refine ⟨hca.push _, hsa, ?_, hscq, hci, hsi, halive⟩
          simp only [Poller.push, List.count_append, ← hccq]
          rfl
  | writeDone =>
      simp only [Polled.step] at hs
      split at hs
      next => exact Option.some.inj hs ▸ h.pushClient (by rintro ⟨⟩) rfl
      next => cases hs
  | sendDone =>
      simp only [Polled.step] at hs
      split at hs
      next => exact Option.some.inj hs ▸ h.pushServer rfl
      next => cases hs
  | clientError => exact Option.some.inj hs ▸ h.pushClient (by rintro ⟨⟩) rfl
  | serverError => exact Option.some.inj hs ▸ h.pushServer rfl

/-- The connection does only what `Conn` does. -/
theorem conn_step {a : PolledAct F} (hs : p.step a = some p') :
    p'.conn = p.conn ∨ ∃ b, p.conn.appStep b = some p'.conn := by
  cases a with
  | app a =>
      simp only [Polled.step] at hs
      split at hs
      next => cases hs
      next =>
        obtain ⟨c, hc, rfl⟩ := Option.map_eq_some_iff.mp hs
        exact .inr ⟨a, hc⟩
  | clientPoller =>
      obtain ⟨⟨q, c⟩, hpoll, rfl⟩ := Option.map_eq_some_iff.mp hs
      cases Poller.pollCq_cases hpoll with
      | handler _ _ _ hc | enter _ _ _ _ hc => exact .inr ⟨.conn .client, hc⟩
      | finish | poll => exact .inl rfl
  | serverPoller =>
      obtain ⟨⟨q, c⟩, hpoll, rfl⟩ := Option.map_eq_some_iff.mp hs
      cases Poller.pollCq_cases hpoll with
      | handler _ _ _ hc | enter _ _ _ _ hc => exact .inr ⟨.conn .server, hc⟩
      | finish | poll => exact .inl rfl
  | nicRead =>
      obtain ⟨c, hc, rfl⟩ := Option.map_eq_some_iff.mp hs
      exact .inr ⟨.conn .nicRead, hc⟩
  | deliver =>
      simp only [Polled.step] at hs
      split at hs
      next => cases hs
      next =>
        obtain ⟨c, hc, rfl⟩ := Option.map_eq_some_iff.mp hs
        exact .inr ⟨.conn .deliver, hc⟩
  | deliverMsg =>
      obtain ⟨c, hc, rfl⟩ := Option.map_eq_some_iff.mp hs
      exact .inr ⟨.conn .deliverMsg, hc⟩
  | writeDone | sendDone =>
      simp only [Polled.step] at hs
      split at hs
      next =>
        cases hs
        exact .inl rfl
      next => cases hs
  | clientError | serverError =>
      cases hs
      exact .inl rfl

end Polled

namespace ConnSetup

variable {F : Type} [Region F] {k : ConnSetup F} {p : Polled F} {c : Conn F}

/-- The connection and both its threads when `server_on_connection` has run.  The
completion of its `MSG_MR` is still to come. -/
def polled (k : ConnSetup F) : System (Polled F) (PolledAct F) where
  init p := p = ⟨k.start, .start, .start, 0, 1⟩
  step := Polled.step

theorem synced_reachable (h : k.polled.Reachable p) : p.Synced := by
  refine h.invariant ?_ fun _ _ _ _ hi _ hs => hi.step hs
  rintro _ rfl
  exact ⟨Poller.awake_start, Poller.awake_start, rfl, rfl, fun _ => rfl, fun _ => rfl, by rintro ⟨⟩⟩

theorem fine_reachable (h : k.polled.Reachable p) : k.fine.Reachable p.conn := by
  induction h with
  | init h0 =>
      subst h0
      exact .init rfl
  | step _ _ hs ih =>
      rcases Polled.conn_step hs with heq | ⟨b, hb⟩
      · rw [heq]
        exact ih
      · exact ih.step trivial hb

/-! ## The threads serve their handlers -/

/-- What the handler of the client can do its thread does. -/
theorem client_served (h : k.polled.Reachable p) (hc : p.conn.step .client = some c) :
    ∃ m p', k.polled.run p (List.replicate m .clientPoller) = some p' ∧ p'.conn = c := by
  induction hr : p.client.rank using Nat.strong_induction_on generalizing p with
  | _ r ih =>
  have hsync := synced_reachable h
  have hdie : ∀ w ∈ p.client.queue, w.verdict ≠ .die := by
    rintro (_ | _ | _) - ⟨⟩
  have hbusy : Polled.clientHandler.idle p.conn = false →
      ∃ w, p.client.pc = .handle w ∧ Polled.clientHandler (F := F).starts w = true :=
    fun hidle => ⟨.recv, by_contra fun hne => of_decide_eq_false hidle (hsync.clientIdle hne), rfl⟩
  have hwaits : Polled.clientHandler.idle p.conn = true → ∃ w ∈ p.client.queue,
      w.verdict = .handle ∧ Polled.clientHandler (F := F).starts w = true := by
    intro hidle
    have hcount := (Conn.client_frame hc).2.2.1 (of_decide_eq_true hidle)
    rw [hsync.clientCq] at hcount
    exact ⟨.recv, List.count_pos_iff.mp (by omega), rfl, rfl⟩
  rcases hsync.clientAwake.closer hsync.clientAlive hdie hbusy hwaits hc with
    ⟨t, ht⟩ | ⟨t, ht, hlt, -⟩
  · have hstep := Polled.clientPollCq_eq ht
    exact ⟨1, _, System.run_cons_eq_some.mpr ⟨_, hstep, rfl⟩, rfl⟩
  · have hstep : k.polled.step p .clientPoller = some ⟨p.conn, t, p.server,
        p.writesDue + (p.conn.writes.length - p.conn.writes.length), p.sendsDue⟩ :=
      Polled.clientPollCq_eq ht
    obtain ⟨m, p', hrun, hp'⟩ := ih t.rank (hr ▸ hlt) (h.step trivial hstep) hc rfl
    exact ⟨m + 1, p', System.run_cons_eq_some.mpr ⟨_, hstep, hrun⟩, hp'⟩

/-- What the handler of the server can do its thread does, unless a completion with an
error status is there to end the process. -/
theorem server_served (h : k.polled.Reachable p) (hdead : p.server.pc ≠ .dead)
    (herr : .error ∉ p.server.queue) (hc : p.conn.step .server = some c) :
    ∃ m p', k.polled.run p (List.replicate m .serverPoller) = some p' ∧ p'.conn = c := by
  induction hr : p.server.rank using Nat.strong_induction_on generalizing p with
  | _ r ih =>
  have hsync := synced_reachable h
  have hdie : ∀ w ∈ p.server.queue, w.verdict ≠ .die := by
    rintro (_ | _ | _) hw ⟨⟩
    exact herr hw
  have hbusy : Polled.serverHandler.idle p.conn = false →
      ∃ w, p.server.pc = .handle w ∧ Polled.serverHandler (F := F).starts w = true := by
    intro hidle
    have hrun := mt hsync.serverIdle (of_decide_eq_false hidle)
    simp only [not_forall, not_not] at hrun
    obtain ⟨n, hn⟩ := hrun
    exact ⟨.recvImm n, hn, rfl⟩
  have hwaits : Polled.serverHandler.idle p.conn = true → ∃ w ∈ p.server.queue,
      w.verdict = .handle ∧ Polled.serverHandler (F := F).starts w = true := by
    intro hidle
    obtain ⟨size, hsize⟩ := (Conn.server_frame hc).2.2.1 (of_decide_eq_true hidle)
    have hmem : size ∈ p.server.queue.filterMap ServerWc.size? := by
      rw [← hsync.serverCq, hsize]
      exact List.mem_cons_self
    obtain ⟨w, hw, hsome⟩ := List.mem_filterMap.mp hmem
    cases w with
    | recvImm n => exact ⟨_, hw, rfl, rfl⟩
    | sent | error => cases hsome
  rcases hsync.serverAwake.closer hdead hdie hbusy hwaits hc with
    ⟨t, ht⟩ | ⟨t, ht, hlt, halive, hsub⟩
  · have hstep := Polled.serverPollCq_eq ht
    exact ⟨1, _, System.run_cons_eq_some.mpr ⟨_, hstep, rfl⟩, rfl⟩
  · have hstep : k.polled.step p .serverPoller = some ⟨p.conn, p.client, t, p.writesDue,
        p.sendsDue + (p.conn.msgs.length - p.conn.msgs.length)⟩ := Polled.serverPollCq_eq ht
    obtain ⟨m, p', hrun, hp'⟩ := ih t.rank (hr ▸ hlt) (h.step trivial hstep) halive
      (fun herr' => herr (hsub _ herr')) hc rfl
    exact ⟨m + 1, p', System.run_cons_eq_some.mpr ⟨_, hstep, hrun⟩, hp'⟩

/-- In every run whose calls succeed the connection does only what `Conn` does.  No thread
sleeps on a completion without an event to wake it, every event is acknowledged before the
next is got, and what a handler of `Conn` can do its thread does without help. -/
theorem pollers_serve (h : k.polled.Reachable p) :
    k.fine.Reachable p.conn ∧
      (p.client.pc = .get → p.client.events = 0 → p.client.queue = []) ∧
      (p.server.pc = .get → p.server.events = 0 → p.server.queue = []) ∧
      p.client.unacked = Poller.owes p.client.pc ∧ p.server.unacked = Poller.owes p.server.pc ∧
      (∀ c, p.conn.step .client = some c →
        ∃ m p', k.polled.run p (List.replicate m .clientPoller) = some p' ∧ p'.conn = c) ∧
      (∀ c, p.server.pc ≠ .dead → .error ∉ p.server.queue → p.conn.step .server = some c →
        ∃ m p', k.polled.run p (List.replicate m .serverPoller) = some p' ∧ p'.conn = c) := by
  have hsync := synced_reachable h
  exact ⟨fine_reachable h, hsync.clientAwake.empty, hsync.serverAwake.empty,
    hsync.clientAwake.unacked, hsync.serverAwake.unacked, fun _ hc => client_served h hc,
    fun _ hdead herr hc => server_served h hdead herr hc⟩

/-- The first message comes when the thread of the client sleeps again after the
completion of an error. -/
theorem pollers_serve_small :
    ∃ p, small.polled.Reachable p ∧
      (p.client.queue = [.recv] ∧ p.client.pc = .get ∧ (p.conn.step .client).isSome) ∧
      ∃ m p', small.polled.run p (List.replicate m .clientPoller) = some p' ∧
        p.conn.step .client = some p'.conn := by
  obtain ⟨p, hr, hp⟩ := System.exists_reachable small.polled
    [.clientError, .clientPoller, .clientPoller, .clientPoller, .clientPoller, .clientPoller,
      .deliverMsg]
    (fun p => p.client.queue = [.recv] ∧ p.client.pc = .get ∧ (p.conn.step .client).isSome) rfl
    (by decide)
  obtain ⟨c, hc⟩ := Option.isSome_iff_exists.mp hp.2.2
  obtain ⟨-, -, -, -, -, hclient, -⟩ := pollers_serve hr
  obtain ⟨m, p', hrun, rfl⟩ := hclient c hc
  exact ⟨p, hr, hp, m, p', hrun, hc⟩

end ConnSetup

end StellarBench
