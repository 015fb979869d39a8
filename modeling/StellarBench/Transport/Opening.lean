import StellarBench.Lib.Simulation
import StellarBench.Transport.EventLoop

/-!
# How a connection opens

One thing is under way at a time (`tokens`), so each end has posted its receive before
the other can send.  When the server has sent `MSG_MR` the connection is one that
`ConnSetup` starts with, up to what the applications did in the meantime (`opened`).
-/

namespace StellarBench

/-! ## What is under way -/

/-- The stages of an opening that `client_event_loop` is at. -/
def LoopPc.clientToken : LoopPc → List ℕ
  | .build .resolveRoute => [2]
  | .alloc .resolveRoute => [3]
  | .register .resolveRoute => [4]
  | .flag .resolveRoute => [5]
  | .postRecv .resolveRoute => [6]
  | .call .resolveRoute => [7]
  | .connect => [10]
  | .get | .dead => []
  | _ => [24]

/-- The stages that `server_event_loop` is at. -/
def LoopPc.serverToken : LoopPc → List ℕ
  | .build .accept => [13]
  | .alloc .accept => [14]
  | .register .accept => [15]
  | .flag .accept => [16]
  | .postRecv .accept => [17]
  | .call .accept => [18]
  | .name => [22]
  | .send => [23]
  | .get | .dead => []
  | _ => [24]

theorem LoopPc.clientToken_of_tested {pc : LoopPc} (h : pc.tested = true) :
    ∃ t, pc.clientToken = [t] := by
  cases pc with
  | build last | register last | postRecv last | call last => cases last <;> exact ⟨_, rfl⟩
  | connect | send => exact ⟨_, rfl⟩
  | get | alloc | flag | name | dead => cases h

theorem LoopPc.serverToken_of_tested {pc : LoopPc} (h : pc.tested = true) :
    ∃ t, pc.serverToken = [t] := by
  cases pc with
  | build last | register last | postRecv last | call last => cases last <;> exact ⟨_, rfl⟩
  | connect | send => exact ⟨_, rfl⟩
  | get | alloc | flag | name | dead => cases h

def LoopEvent.clientToken : LoopEvent → List ℕ
  | .addrResolved => [1]
  | .routeResolved => [9]
  | .established | .other => []
  | .connectRequest => [24]

def LoopEvent.serverToken : LoopEvent → List ℕ
  | .connectRequest => [12]
  | .established => [21]
  | .other => []
  | .addrResolved | .routeResolved => [24]

def CmWork.token : CmWork → ℕ
  | .resolveAddr => 0
  | .resolveRoute => 8
  | .request => 11
  | .reply => 19
  | .ready => 20

def Endpoint.clientTokens (e : Endpoint) : List ℕ :=
  e.events.flatMap LoopEvent.clientToken ++ e.pc.clientToken

def Endpoint.serverTokens (e : Endpoint) : List ℕ :=
  e.events.flatMap LoopEvent.serverToken ++ e.pc.serverToken

/-- The stages of all that is under way.  24 is none. -/
def Opening.tokens {F : Type} (o : Opening F) : List ℕ :=
  o.work.map CmWork.token ++ (o.client.clientTokens ++ o.server.serverTokens)

namespace Conn

variable {F : Type}

/-- Nothing has been sent and nothing has arrived. -/
structure Idle (c : Conn F) : Prop where
  clientPc : c.clientPc = .poll
  clientCq : c.clientCq = 0
  serverPc : c.serverPc = .poll
  serverCq : c.serverCq = []
  writes : c.writes = []
  msgs : c.msgs = []

/-- An idle connection with what the event loops have done before stage `s`. -/
structure Quiet (mr : Mr) (s : ℕ) (c : Conn F) : Prop where
  idle : c.Idle
  clientRecvs : c.clientRecvs = if 6 < s then 1 else 0
  serverRecvs : c.serverRecvs = if 17 < s then 1 else 0
  region : 15 < s → c.server.bufferMr = mr
  named : 22 < s → c.server.msg = ⟨.mr, mr⟩

/-- What the connection is when the event loops are done, if the applications do
nothing more. -/
def prepared (mr : Mr) (c : Conn F) : Conn F :=
  { c with
    clientRecvs := 1, serverRecvs := 1, msgs := [⟨.mr, mr⟩]
    server := { c.server with bufferMr := mr, msg := ⟨.mr, mr⟩ } }

variable {mr : Mr} {s : ℕ} {c c' : Conn F}

/-- An idle connection does nothing by itself. -/
theorem Idle.step_eq_none [Region F] (h : c.Idle) (a : ConnAct) : c.step a = none := by
  obtain ⟨h1, h2, h3, h4, h5, h6⟩ := h
  cases a with
  | client => simp [step, clientOnCompletion, h1, h2]
  | server => simp [step, serverOnCompletion, h3, h4]
  | nicRead => simp [step, nicRead, h5]
  | deliver => simp [step, deliver, h5]
  | deliverMsg => simp [step, deliverMsg, h6]

/-- What the applications do on an idle connection they do on the prepared one. -/
theorem Quiet.app [Region F] {a : AppAct F} (h : c.Quiet mr s) (hs : c.appStep a = some c') :
    c'.Quiet mr s ∧ (c.prepared mr).appStep a = some (c'.prepared mr) := by
  obtain ⟨⟨h1, h2, h3, h4, h5, h6⟩, hcr, hsr, hreg, hname⟩ := h
  cases a with
  | canSend | canRecv | fill | setLen =>
      cases hs
      exact ⟨⟨⟨h1, h2, h3, h4, h5, h6⟩, hcr, hsr, hreg, hname⟩, rfl⟩
  | conn a =>
      have hnone := Idle.step_eq_none (c := c) ⟨h1, h2, h3, h4, h5, h6⟩ a
      have hs : c.step a = some c' := hs
      rw [hnone] at hs
      cases hs

/-- A token lasts, so a connection in which something is under way is not idle. -/
theorem Token.not_idle (h : c.Token) : ¬ c.Idle := by
  rintro ⟨h1, h2, h3, h4, h5, h6⟩
  have hone := h.one
  rw [h1, h2, h3, h4, h5, h6] at hone
  simp at hone

/-- Most stages change nothing that the connection shows. -/
theorem Quiet.next (h : c.Quiet mr s) (hs : s ≠ 6 ∧ s ≠ 15 ∧ s ≠ 17 ∧ s ≠ 22) :
    c.Quiet mr (s + 1) := by
  obtain ⟨hidle, hcr, hsr, hreg, hname⟩ := h
  obtain ⟨h6, h15, h17, h22⟩ := hs
  have hlt (n : ℕ) (hn : s ≠ n) : n < s + 1 ↔ n < s := by omega
  refine ⟨hidle, ?_, ?_, fun hlt' => hreg ((hlt 15 h15).mp hlt'),
    fun hlt' => hname ((hlt 22 h22).mp hlt')⟩
  · rw [hcr]
    simp only [hlt 6 h6]
  · rw [hsr]
    simp only [hlt 17 h17]

/-- The message of the server is the last thing to come. -/
theorem Quiet.sent (h : c.Quiet mr 23) :
    { c with msgs := c.msgs ++ [c.server.msg] } = c.prepared mr := by
  have hcr : c.clientRecvs = 1 := h.clientRecvs
  have hsr : c.serverRecvs = 1 := h.serverRecvs
  have hreg : c.server.bufferMr = mr := h.region (by decide)
  have hname : c.server.msg = ⟨.mr, mr⟩ := h.named (by decide)
  have hserver : c.server = { c.server with bufferMr := mr, msg := ⟨.mr, mr⟩ } := by
    rw [← hname, ← hreg]
  rw [prepared, ← hserver, h.idle.msgs, hname, List.nil_append]
  congr 1

end Conn

/-! ## Steps of the event loops -/

namespace Endpoint

variable {F : Type} {mr : Mr} {e e' : Endpoint} {w : List CmWork}

/-- A step of an event loop moves the token that it holds to the next stage. -/
structure Moves (F : Type) (mr : Mr) (s : ℕ) (does : Conn F → Conn F) (before after : Endpoint)
    (tokens : List ℕ) : Prop where
  tokens : tokens = [s + 1]
  events : after.events.length ≤ before.events.length
  quiet : ∀ c : Conn F, c.Quiet mr s → (does c).Quiet mr (s + 1)
  prepared : ∀ c : Conn F, (does c).prepared mr = c.prepared mr

/-- A step of an event loop about an event that starts nothing. -/
structure Skips (F : Type) (does : Conn F → Conn F) (before after : Endpoint) (w : List CmWork) :
    Prop where
  work : w = []
  events : after.events.length < before.events.length
  same : ∀ c : Conn F, does c = c

/-- The token of the program counter is the only one. -/
theorem snoc_eq_singleton {l : List ℕ} {t s : ℕ} (h : l ++ [t] = [s]) : l = [] ∧ t = s := by
  cases l with
  | nil => exact ⟨rfl, List.singleton_inj.mp h⟩
  | cons x l => simp at h

/-- No stage below 24 is one that the loop never comes to. -/
theorem never {l : List ℕ} {s : ℕ} (hs : s < 24) (h : l ++ [24] = [s]) : False :=
  hs.ne (snoc_eq_singleton h).2.symm

variable (F mr) in
/-- A step of `client_event_loop`. -/
theorem client_moves (h : e.eventLoop .get = some (e', w)) :
    (e'.clientTokens = e.clientTokens ∧ Skips F (Opening.clientDoes e.pc) e e' w) ∨
      e.clientTokens ≠ [] ∧ ∀ s < 24, e.clientTokens = [s] → s < 23 ∧
        Moves F mr s (Opening.clientDoes e.pc) e e' (w.map CmWork.token ++ e'.clientTokens) := by
  obtain ⟨pc, events, allocated, registered⟩ := e
  cases pc with
  | get =>
      cases events with
      | nil => cases h
      | cons ev evs =>
          cases h
          cases ev with
          | established | other =>
              exact .inl ⟨rfl, rfl, Nat.lt_succ_self _, fun _ => rfl⟩
          | addrResolved | routeResolved =>
              refine .inr ⟨List.cons_ne_nil _ _, fun s hs ht => ?_⟩
              obtain ⟨rfl, hevs⟩ := List.cons.inj ht
              refine ⟨by decide, ?_, Nat.le_succ _, fun c hc => hc.next (by decide), fun _ => rfl⟩
              have hevs : evs.flatMap LoopEvent.clientToken = [] :=
                (List.append_eq_nil_iff.mp hevs).1
              simp [clientTokens, hevs, branch, LoopPc.clientToken]
          | connectRequest =>
              refine .inr ⟨List.cons_ne_nil _ _, fun s hs ht => ?_⟩
              exact absurd (List.cons.inj ht).1 hs.ne'
  | build last | alloc last | register last | flag last | call last =>
      cases last with
      | resolveRoute =>
          cases h
          refine .inr ⟨by simp [clientTokens, LoopPc.clientToken], fun s hs ht => ?_⟩
          obtain ⟨hevs, rfl⟩ := snoc_eq_singleton ht
          refine ⟨by decide, ?_, le_rfl, fun c hc => hc.next (by decide), fun _ => rfl⟩
          simp [clientTokens, hevs, LoopPc.clientToken, CmWork.token]
      | accept =>
          refine .inr ⟨by simp [clientTokens, LoopPc.clientToken], fun s hs ht => ?_⟩
          exact (never hs ht).elim
  | postRecv last =>
      cases last with
      | resolveRoute =>
          cases h
          refine .inr ⟨by simp [clientTokens, LoopPc.clientToken], fun s hs ht => ?_⟩
          obtain ⟨hevs, rfl⟩ := snoc_eq_singleton ht
          refine ⟨by decide, ?_, le_rfl, fun c hc => ?_, fun _ => rfl⟩
          · simp [clientTokens, hevs, LoopPc.clientToken]
          · obtain ⟨⟨h1, h2, h3, h4, h5, h6⟩, hcr, hsr, hreg, hname⟩ := hc
            exact ⟨⟨h1, h2, h3, h4, h5, h6⟩, congrArg (· + 1) hcr, hsr, by omega, by omega⟩
      | accept =>
          refine .inr ⟨by simp [clientTokens, LoopPc.clientToken], fun s hs ht => ?_⟩
          exact (never hs ht).elim
  | connect =>
      cases h
      refine .inr ⟨by simp [clientTokens, LoopPc.clientToken], fun s hs ht => ?_⟩
      obtain ⟨hevs, rfl⟩ := snoc_eq_singleton ht
      refine ⟨by decide, ?_, le_rfl, fun c hc => hc.next (by decide), fun _ => rfl⟩
      simp [clientTokens, hevs, LoopPc.clientToken, CmWork.token]
  | name | send =>
      cases h
      refine .inr ⟨by simp [clientTokens, LoopPc.clientToken], fun s hs ht => ?_⟩
      exact (never hs ht).elim
  | dead => cases h

variable (F mr) in
/-- A step of `server_event_loop`.  With the last one the connection is open. -/
theorem server_moves (h : e.eventLoop .name = some (e', w)) :
    (e'.serverTokens = e.serverTokens ∧ Skips F (Opening.serverDoes mr e.pc) e e' w) ∨
      e.serverTokens ≠ [] ∧ ∀ s < 24, e.serverTokens = [s] →
        (s < 23 ∧ Moves F mr s (Opening.serverDoes mr e.pc) e e'
          (w.map CmWork.token ++ e'.serverTokens)) ∨
        w = [] ∧ e'.serverTokens = [] ∧ e'.events.length ≤ e.events.length ∧
          ∀ c : Conn F, c.Quiet mr s → Opening.serverDoes mr e.pc c = c.prepared mr := by
  obtain ⟨pc, events, allocated, registered⟩ := e
  cases pc with
  | get =>
      cases events with
      | nil => cases h
      | cons ev evs =>
          cases h
          cases ev with
          | other => exact .inl ⟨rfl, rfl, Nat.lt_succ_self _, fun _ => rfl⟩
          | connectRequest | established =>
              refine .inr ⟨List.cons_ne_nil _ _, fun s hs ht => .inl ?_⟩
              obtain ⟨rfl, hevs⟩ := List.cons.inj ht
              refine ⟨by decide, ?_, Nat.le_succ _, fun c hc => hc.next (by decide), fun _ => rfl⟩
              have hevs : evs.flatMap LoopEvent.serverToken = [] :=
                (List.append_eq_nil_iff.mp hevs).1
              simp [serverTokens, hevs, branch, LoopPc.serverToken]
          | addrResolved | routeResolved =>
              refine .inr ⟨List.cons_ne_nil _ _, fun s hs ht => ?_⟩
              exact absurd (List.cons.inj ht).1 hs.ne'
  | build last | alloc last | flag last | call last =>
      cases last with
      | accept =>
          cases h
          refine .inr ⟨by simp [serverTokens, LoopPc.serverToken], fun s hs ht => ?_⟩
          obtain ⟨hevs, rfl⟩ := snoc_eq_singleton ht
          refine .inl ⟨by decide, ?_, le_rfl, fun c hc => hc.next (by decide), fun _ => rfl⟩
          simp [serverTokens, hevs, LoopPc.serverToken, CmWork.token]
      | resolveRoute =>
          refine .inr ⟨by simp [serverTokens, LoopPc.serverToken], fun s hs ht => ?_⟩
          exact (never hs ht).elim
  | register last =>
      cases last with
      | accept =>
          cases h
          refine .inr ⟨by simp [serverTokens, LoopPc.serverToken], fun s hs ht => ?_⟩
          obtain ⟨hevs, rfl⟩ := snoc_eq_singleton ht
          refine .inl ⟨by decide, ?_, le_rfl, fun c hc => ?_, fun _ => rfl⟩
          · simp [serverTokens, hevs, LoopPc.serverToken]
          · obtain ⟨⟨h1, h2, h3, h4, h5, h6⟩, hcr, hsr, hreg, hname⟩ := hc
            exact ⟨⟨h1, h2, h3, h4, h5, h6⟩, hcr, hsr, fun _ => rfl, by omega⟩
      | resolveRoute =>
          refine .inr ⟨by simp [serverTokens, LoopPc.serverToken], fun s hs ht => ?_⟩
          exact (never hs ht).elim
  | postRecv last =>
      cases last with
      | accept =>
          cases h
          refine .inr ⟨by simp [serverTokens, LoopPc.serverToken], fun s hs ht => ?_⟩
          obtain ⟨hevs, rfl⟩ := snoc_eq_singleton ht
          refine .inl ⟨by decide, ?_, le_rfl, fun c hc => ?_, fun _ => rfl⟩
          · simp [serverTokens, hevs, LoopPc.serverToken]
          · obtain ⟨⟨h1, h2, h3, h4, h5, h6⟩, hcr, hsr, hreg, hname⟩ := hc
            exact ⟨⟨h1, h2, h3, h4, h5, h6⟩, hcr, congrArg (· + 1) hsr, fun _ => hreg (by decide),
              by omega⟩
      | resolveRoute =>
          refine .inr ⟨by simp [serverTokens, LoopPc.serverToken], fun s hs ht => ?_⟩
          exact (never hs ht).elim
  | name =>
      cases h
      refine .inr ⟨by simp [serverTokens, LoopPc.serverToken], fun s hs ht => .inl ?_⟩
      obtain ⟨hevs, rfl⟩ := snoc_eq_singleton ht
      refine ⟨by decide, ?_, le_rfl, fun c hc => ?_, fun _ => rfl⟩
      · simp [serverTokens, hevs, LoopPc.serverToken]
      · obtain ⟨⟨h1, h2, h3, h4, h5, h6⟩, hcr, hsr, hreg, hname⟩ := hc
        have hreg := hreg (by decide)
        exact ⟨⟨h1, h2, h3, h4, h5, h6⟩, hcr, hsr, fun _ => hreg, fun _ => by
          rw [← hreg]
          rfl⟩
  | send =>
      cases h
      refine .inr ⟨by simp [serverTokens, LoopPc.serverToken], fun s hs ht => .inr ?_⟩
      obtain ⟨hevs, rfl⟩ := snoc_eq_singleton ht
      refine ⟨rfl, by simp [serverTokens, hevs, LoopPc.serverToken], le_rfl, fun c hc => ?_⟩
      exact hc.sent
  | connect =>
      cases h
      refine .inr ⟨by simp [serverTokens, LoopPc.serverToken], fun s hs ht => ?_⟩
      exact (never hs ht).elim
  | dead => cases h

end Endpoint

/-! ## Steps of an opening -/

/-- The event loop has ended its process, or will. -/
def Endpoint.Lost (e : Endpoint) : Prop := e.pc = .dead ∨ .other ∈ e.events

theorem Endpoint.Lost.eventLoop {e e' : Endpoint} {pc : LoopPc} {w : List CmWork} (h : e.Lost)
    (hs : e.eventLoop pc = some (e', w)) : e'.Lost := by
  obtain ⟨pc, events, allocated, registered⟩ := e
  have hother : pc ≠ .dead → .other ∈ events := by
    intro hpc
    exact h.resolve_left hpc
  cases pc with
  | get =>
      cases events with
      | nil => cases hs
      | cons ev evs =>
          cases hs
          rcases List.mem_cons.mp (hother (by rintro ⟨⟩)) with rfl | hmem
          · exact .inl rfl
          · exact .inr hmem
  | call last =>
      cases last <;> cases hs <;> exact .inr (hother (by rintro ⟨⟩))
  | dead => cases hs
  | _ =>
      cases hs
      exact .inr (hother (by rintro ⟨⟩))

theorem Endpoint.tell_other (e : Endpoint) :
    (e.tell .other).clientTokens = e.clientTokens ∧
      (e.tell .other).serverTokens = e.serverTokens ∧ (e.tell .other).Lost := by
  refine ⟨?_, ?_, .inr (List.mem_append_right _ List.mem_cons_self)⟩
  · simp [Endpoint.clientTokens, Endpoint.tell, LoopEvent.clientToken]
  · simp [Endpoint.serverTokens, Endpoint.tell, LoopEvent.serverToken]

namespace Opening

variable {F : Type} {mr : Mr} {o o' : Opening F} {c : Conn F}

/-- One of the processes has ended, or will. -/
def Lost (o : Opening F) : Prop := o.client.Lost ∨ o.server.Lost

/-- Where an opening stands, and the connection it is or will be. -/
inductive Phase (mr : Mr) (o : Opening F) : Conn F → Prop where
  | opening {s : ℕ} : o.tokens = [s] → s < 24 → o.conn.Quiet mr s →
      Phase mr o (o.conn.prepared mr)
  | stopped {s : ℕ} : o.tokens = [] → o.conn.Quiet mr s → o.Lost → Phase mr o (o.conn.prepared mr)
  | opened : o.tokens = [] → Phase mr o o.conn

/-- The events that wait for the loops. -/
def waiting (o : Opening F) : ℕ := o.client.events.length + o.server.events.length

/-- What a step of the event loops and of librdmacm does to the token. -/
inductive Turn (o o' : Opening F) : Prop where
  | same : o'.tokens = o.tokens → o'.waiting < o.waiting → Turn o o'
  | next {s : ℕ} : o.tokens = [s] → o'.tokens = [s + 1] → o'.waiting ≤ o.waiting + 1 → Turn o o'
  | done {s : ℕ} : o.tokens = [s] → o'.tokens = [] → o'.waiting ≤ o.waiting + 1 → Turn o o'

/-- A part that is not empty holds the only token. -/
theorem middle_eq {l m r : List ℕ} {s : ℕ} (h : l ++ (m ++ r) = [s]) (hm : m ≠ []) :
    l = [] ∧ m = [s] ∧ r = [] := by
  have hrest : m ++ r ≠ [] := fun hnil => hm (List.append_eq_nil_iff.mp hnil).1
  obtain ⟨hl, hmr⟩ := (List.append_eq_singleton_iff.mp h).resolve_right fun hr => hrest hr.2
  obtain ⟨hm', hr⟩ := (List.append_eq_singleton_iff.mp hmr).resolve_left fun hl' => hm hl'.1
  exact ⟨hl, hm', hr⟩

/-- What changes neither the tokens nor what an idle connection shows. -/
theorem Phase.same (h : o.Phase mr c) (htok : o'.tokens = o.tokens) (hconn : o'.conn = o.conn)
    (hlost : o.Lost → o'.Lost) : o'.Phase mr c := by
  cases h with
  | opening ht hs hq =>
      rw [← hconn]
      exact .opening (htok.trans ht) hs (hconn ▸ hq)
  | stopped ht hq hl =>
      rw [← hconn]
      exact .stopped (htok.trans ht) (hconn ▸ hq) (hlost hl)
  | opened ht =>
      rw [← hconn]
      exact .opened (htok.trans ht)

/-- What holds a token is under way in an opening. -/
theorem Phase.of_token {l r m : List ℕ} (h : o.Phase mr c) (ht : o.tokens = l ++ (m ++ r))
    (hm : m ≠ []) : ∃ s < 24, l = [] ∧ m = [s] ∧ r = [] ∧ o.conn.Quiet mr s ∧
      c = o.conn.prepared mr := by
  have hne : o.tokens ≠ [] := by
    rw [ht]
    simp [hm]
  cases h with
  | opening hs hlt hq =>
      obtain ⟨hl, hm, hr⟩ := middle_eq (ht.symm.trans hs) hm
      exact ⟨_, hlt, hl, hm, hr, hq, rfl⟩
  | stopped hnil | opened hnil => exact absurd hnil hne

theorem Phase.clientEventLoop (h : o.Phase mr c) (hs : o.clientEventLoop = some o') :
    o'.Phase mr c ∧ o.Turn o' := by
  obtain ⟨⟨e, w⟩, hloop, rfl⟩ := Option.map_eq_some_iff.mp hs
  rcases Endpoint.client_moves F mr hloop with ⟨htok, hskip⟩ | ⟨hne, hmove⟩
  · have htokens : (⟨clientDoes o.client.pc o.conn, e, o.server, o.listening, o.work ++ w⟩ :
        Opening F).tokens = o.tokens := by
      simp [tokens, htok, hskip.work]
    exact ⟨h.same htokens (hskip.same _) (Or.imp_left fun hlost => hlost.eventLoop hloop),
      .same htokens (Nat.add_lt_add_right hskip.events _)⟩
  · obtain ⟨s, hlt, hwork, ht, hserver, hq, rfl⟩ := h.of_token rfl hne
    obtain ⟨hs, hmoves⟩ := hmove s hlt ht
    have hbefore : o.tokens = [s] := by simp [tokens, hwork, ht, hserver]
    have hafter : (⟨clientDoes o.client.pc o.conn, e, o.server, o.listening, o.work ++ w⟩ :
        Opening F).tokens = [s + 1] := by
      rw [← hmoves.tokens]
      simp [tokens, hwork, hserver]
    rw [← hmoves.prepared]
    exact ⟨.opening hafter (Nat.succ_lt_succ hs) (hmoves.quiet _ hq),
      .next hbefore hafter (Nat.le_succ_of_le (Nat.add_le_add_right hmoves.events _))⟩

theorem Phase.serverEventLoop (h : o.Phase mr c) (hs : o.serverEventLoop mr = some o') :
    o'.Phase mr c ∧ o.Turn o' := by
  obtain ⟨⟨e, w⟩, hloop, rfl⟩ := Option.map_eq_some_iff.mp hs
  rcases Endpoint.server_moves F mr hloop with ⟨htok, hskip⟩ | ⟨hne, hmove⟩
  · have htokens : (⟨serverDoes mr o.server.pc o.conn, o.client, e, o.listening, o.work ++ w⟩ :
        Opening F).tokens = o.tokens := by
      simp [tokens, htok, hskip.work]
    exact ⟨h.same htokens (hskip.same _) (Or.imp_right fun hlost => hlost.eventLoop hloop),
      .same htokens (Nat.add_lt_add_left hskip.events _)⟩
  · have hsplit : o.tokens = (o.work.map CmWork.token ++ o.client.clientTokens) ++
        (o.server.serverTokens ++ []) := by
      simp [tokens]
    obtain ⟨s, hlt, hrest, ht, -, hq, rfl⟩ := h.of_token hsplit hne
    obtain ⟨hwork, hclient⟩ := List.append_eq_nil_iff.mp hrest
    have hbefore : o.tokens = [s] := by simp [tokens, hwork, ht, hclient]
    rcases hmove s hlt ht with ⟨hs, hmoves⟩ | ⟨rfl, htok, hevents, hsent⟩
    · have hafter : (⟨serverDoes mr o.server.pc o.conn, o.client, e, o.listening, o.work ++ w⟩ :
          Opening F).tokens = [s + 1] := by
        rw [← hmoves.tokens]
        simp [tokens, hwork, hclient]
      rw [← hmoves.prepared]
      exact ⟨.opening hafter (Nat.succ_lt_succ hs) (hmoves.quiet _ hq),
        .next hbefore hafter (Nat.le_succ_of_le (Nat.add_le_add_left hmoves.events _))⟩
    · have hafter : (⟨serverDoes mr o.server.pc o.conn, o.client, e, o.listening, o.work ++ []⟩ :
          Opening F).tokens = [] := by
        simp [tokens, hwork, hclient, htok]
      rw [← hsent _ hq]
      exact ⟨.opened hafter, .done hbefore hafter
        (Nat.le_succ_of_le (Nat.add_le_add_left hevents _))⟩

/-- A free event loop gets an event. -/
theorem clientTokens_tell {e : Endpoint} (h : e.clientTokens = []) (ev : LoopEvent) :
    (e.tell ev).clientTokens = ev.clientToken := by
  obtain ⟨hevents, hpc⟩ := List.append_eq_nil_iff.mp h
  simp [Endpoint.clientTokens, Endpoint.tell, hevents, hpc]

theorem serverTokens_tell {e : Endpoint} (h : e.serverTokens = []) (ev : LoopEvent) :
    (e.tell ev).serverTokens = ev.serverToken := by
  obtain ⟨hevents, hpc⟩ := List.append_eq_nil_iff.mp h
  simp [Endpoint.serverTokens, Endpoint.tell, hevents, hpc]

theorem Phase.network (h : o.Phase mr c) (hs : o.network = some o') :
    o'.Phase mr c ∧ o.Turn o' := by
  cases hwork : o.work with
  | nil => simp [Opening.network, hwork] at hs
  | cons x ws =>
      have hsplit : o.tokens = [] ++ ([x.token] ++
          (ws.map CmWork.token ++ (o.client.clientTokens ++ o.server.serverTokens))) := by
        simp [tokens, hwork]
      obtain ⟨s, hlt, -, hx, hrest, hq, rfl⟩ := h.of_token hsplit (List.cons_ne_nil _ _)
      rw [hrest, List.append_nil, List.nil_append] at hsplit
      simp only [List.append_eq_nil_iff, List.map_eq_nil_iff] at hrest
      obtain ⟨rfl, hclient, hserver⟩ := hrest
      obtain rfl := List.singleton_inj.mp hx
      -- the work becomes an event, and that holds the token
      have hclientTell (ev : LoopEvent) : (⟨o.conn, o.client.tell ev, o.server, o.listening, []⟩ :
          Opening F).tokens = ev.clientToken := by
        simp [tokens, clientTokens_tell hclient, hserver]
      have hserverTell (ev : LoopEvent) : (⟨o.conn, o.client, o.server.tell ev, o.listening, []⟩ :
          Opening F).tokens = ev.serverToken := by
        simp [tokens, serverTokens_tell hserver, hclient]
      have hclientWaits (ev : LoopEvent) :
          (o.client.tell ev).events.length + o.server.events.length ≤ o.waiting + 1 := by
        simp only [Endpoint.tell, waiting, List.length_append, List.length_singleton]
        omega
      have hserverWaits (ev : LoopEvent) :
          o.client.events.length + (o.server.tell ev).events.length ≤ o.waiting + 1 := by
        simp only [Endpoint.tell, waiting, List.length_append, List.length_singleton]
        omega
      cases x with
      | resolveAddr | resolveRoute =>
          simp only [Opening.network, hwork, Option.some.injEq] at hs
          subst hs
          exact ⟨.opening (hclientTell _) (by decide) (hq.next (by decide)),
            .next hsplit (hclientTell _) (hclientWaits _)⟩
      | reply =>
          simp only [Opening.network, hwork, Option.some.injEq] at hs
          subst hs
          have hafter : (⟨o.conn, o.client.tell .established, o.server, o.listening,
              [] ++ [.ready]⟩ : Opening F).tokens = [20] := by
            simp [tokens, clientTokens_tell hclient, hserver, LoopEvent.clientToken, CmWork.token]
          exact ⟨.opening hafter (by decide) (hq.next (by decide)),
            .next hsplit hafter (hclientWaits _)⟩
      | ready =>
          simp only [Opening.network, hwork, Option.some.injEq] at hs
          subst hs
          exact ⟨.opening (hserverTell _) (by decide) (hq.next (by decide)),
            .next hsplit (hserverTell _) (hserverWaits _)⟩
      | request =>
          simp only [Opening.network, hwork] at hs
          split at hs
          next =>
            obtain rfl := Option.some.inj hs
            exact ⟨.opening (hserverTell _) (by decide) (hq.next (by decide)),
              .next hsplit (hserverTell _) (hserverWaits _)⟩
          next =>
            obtain rfl := Option.some.inj hs
            exact ⟨.stopped (hclientTell _) hq (.inl (Endpoint.tell_other _).2.2),
              .done hsplit (hclientTell _) (hclientWaits _)⟩

/-- A step of an opening is a step of the applications on what the connection is or
will be, or it does not show there. -/
theorem Phase.step [Region F] {k : ConnSetup F} {a : OpeningAct F} (h : o.Phase k.mr c)
    (hs : o.step k.mr a = some o') : ∃ c', k.fine.Follows c a.app? c' ∧ o'.Phase k.mr c' := by
  cases a with
  | client => exact ⟨c, rfl, (h.clientEventLoop hs).1⟩
  | server =>
      obtain ⟨-, hs⟩ := Option.ite_none_right_eq_some.mp hs
      exact ⟨c, rfl, (h.serverEventLoop hs).1⟩
  | listen =>
      obtain ⟨-, hs⟩ := Option.ite_none_left_eq_some.mp hs
      obtain rfl := Option.some.inj hs
      exact ⟨c, rfl, h.same rfl rfl id⟩
  | cm => exact ⟨c, rfl, (h.network hs).1⟩
  | clientOther =>
      obtain rfl := Option.some.inj hs
      obtain ⟨hclient, -, hlost⟩ := Endpoint.tell_other o.client
      refine ⟨c, rfl, h.same ?_ rfl fun _ => .inl hlost⟩
      simp [tokens, hclient]
  | serverOther =>
      obtain ⟨-, hs⟩ := Option.ite_none_right_eq_some.mp hs
      obtain rfl := Option.some.inj hs
      obtain ⟨-, hserver, hlost⟩ := Endpoint.tell_other o.server
      refine ⟨c, rfl, h.same ?_ rfl fun _ => .inr hlost⟩
      simp [tokens, hserver]
  | clientFails =>
      obtain ⟨htest, hs⟩ := Option.ite_none_right_eq_some.mp hs
      obtain rfl := Option.some.inj hs
      obtain ⟨t, htoken⟩ := LoopPc.clientToken_of_tested htest
      have hne : o.client.clientTokens ≠ [] := by simp [Endpoint.clientTokens, htoken]
      obtain ⟨s, -, hwork, ht, hserver, hq, rfl⟩ := h.of_token rfl hne
      rw [Endpoint.clientTokens, htoken] at ht
      refine ⟨_, rfl, .stopped ?_ hq (.inl (.inl rfl))⟩
      simp [tokens, Endpoint.clientTokens, hwork, hserver, (Endpoint.snoc_eq_singleton ht).1,
        LoopPc.clientToken]
  | serverFails =>
      obtain ⟨htest, hs⟩ := Option.ite_none_right_eq_some.mp hs
      obtain rfl := Option.some.inj hs
      obtain ⟨t, htoken⟩ := LoopPc.serverToken_of_tested htest
      have hne : o.server.serverTokens ≠ [] := by simp [Endpoint.serverTokens, htoken]
      have hsplit : o.tokens = (o.work.map CmWork.token ++ o.client.clientTokens) ++
          (o.server.serverTokens ++ []) := by
        simp [tokens]
      obtain ⟨s, -, hrest, ht, -, hq, rfl⟩ := h.of_token hsplit hne
      obtain ⟨hwork, hclient⟩ := List.append_eq_nil_iff.mp hrest
      rw [Endpoint.serverTokens, htoken] at ht
      refine ⟨_, rfl, .stopped ?_ hq (.inr (.inl rfl))⟩
      simp [tokens, Endpoint.serverTokens, hwork, hclient, (Endpoint.snoc_eq_singleton ht).1,
        LoopPc.serverToken]
  | app a =>
      obtain ⟨-, hs⟩ := Option.ite_none_right_eq_some.mp hs
      obtain ⟨d, hd, rfl⟩ := Option.map_eq_some_iff.mp hs
      cases h with
      | opening ht hlt hq =>
          obtain ⟨hq, happ⟩ := hq.app hd
          exact ⟨_, happ, .opening ht hlt hq⟩
      | stopped ht hq hlost =>
          obtain ⟨hq, happ⟩ := hq.app hd
          exact ⟨_, happ, .stopped ht hq hlost⟩
      | opened ht => exact ⟨d, hd, .opened ht⟩

/-! ## The opening comes to its end -/

/-- The server listens, and librdmacm has reported no failure. -/
structure Alive (o : Opening F) : Prop where
  listening : o.listening = true
  client : ¬ o.client.Lost
  server : ¬ o.server.Lost

/-- A living event loop goes on, unless it waits for an event. -/
theorem eventLoop_of_not_lost {e : Endpoint} (pc : LoopPc) (h : ¬ e.Lost) (hpc : pc ≠ .dead)
    (hbusy : e.pc = .get → e.events ≠ []) :
    ∃ e' w, e.eventLoop pc = some (e', w) ∧ ¬ e'.Lost := by
  obtain ⟨hdead, hother⟩ := not_or.mp h
  obtain ⟨epc, events, allocated, registered⟩ := e
  cases epc with
  | get =>
      cases events with
      | nil => exact absurd rfl (hbusy rfl)
      | cons ev evs =>
          obtain ⟨hev, hevs⟩ := not_or.mp fun h => hother (List.mem_cons.mpr h)
          refine ⟨_, _, rfl, not_or.mpr ⟨?_, hevs⟩⟩
          cases ev with
          | other => exact absurd rfl hev
          | established => exact hpc
          | addrResolved | routeResolved | connectRequest => rintro ⟨⟩
  | call last =>
      cases last <;> exact ⟨_, _, rfl, not_or.mpr ⟨by rintro ⟨⟩, hother⟩⟩
  | dead => exact absurd rfl hdead
  | _ => exact ⟨_, _, rfl, not_or.mpr ⟨by rintro ⟨⟩, hother⟩⟩

theorem not_lost_tell {e : Endpoint} {ev : LoopEvent} (h : ¬ e.Lost) (hev : ev ≠ .other) :
    ¬ (e.tell ev).Lost := by
  obtain ⟨hdead, hother⟩ := not_or.mp h
  refine not_or.mpr ⟨hdead, fun hmem => ?_⟩
  rcases List.mem_append.mp hmem with hmem | hmem
  · exact hother hmem
  · exact hev (List.mem_singleton.mp hmem).symm

theorem network_of_alive (h : o.Alive) (hwork : o.work ≠ []) :
    ∃ o', o.network = some o' ∧ o'.Alive := by
  obtain ⟨conn, client, server, listening, work⟩ := o
  obtain ⟨rfl, hclient, hserver⟩ := h
  obtain ⟨x, ws, rfl⟩ := List.exists_cons_of_ne_nil hwork
  cases x with
  | resolveAddr | resolveRoute | reply =>
      exact ⟨_, rfl, rfl, not_lost_tell hclient (by rintro ⟨⟩), hserver⟩
  | request | ready =>
      exact ⟨_, rfl, rfl, hclient, not_lost_tell hserver (by rintro ⟨⟩)⟩

/-- As long as something is under way, an event loop or librdmacm goes on with it. -/
theorem Phase.goes_on [Region F] (h : o.Phase mr c) (ha : o.Alive) (ht : o.tokens ≠ []) :
    ∃ a o', a.opens = true ∧ o.step mr a = some o' ∧ o'.Alive ∧ o.Turn o' := by
  by_cases hwork : o.work = []
  · by_cases hclient : o.client.pc = .get → o.client.events ≠ []
    · obtain ⟨e, w, hloop, hlost⟩ :=
        eventLoop_of_not_lost .get ha.client (by rintro ⟨⟩) hclient
      have hs : o.clientEventLoop = some ⟨clientDoes o.client.pc o.conn, e, o.server,
          o.listening, o.work ++ w⟩ := by
        rw [Opening.clientEventLoop, hloop, Option.map_some]
      exact ⟨.client, _, rfl, hs, ⟨ha.listening, hlost, ha.server⟩, (h.clientEventLoop hs).2⟩
    · by_cases hserver : o.server.pc = .get → o.server.events ≠ []
      · obtain ⟨e, w, hloop, hlost⟩ :=
          eventLoop_of_not_lost .name ha.server (by rintro ⟨⟩) hserver
        have hs : o.serverEventLoop mr = some ⟨serverDoes mr o.server.pc o.conn, o.client, e,
            o.listening, o.work ++ w⟩ := by
          rw [Opening.serverEventLoop, hloop, Option.map_some]
        exact ⟨.server, _, rfl, (if_pos ha.listening).trans hs, ⟨ha.listening, ha.client, hlost⟩,
          (h.serverEventLoop hs).2⟩
      · -- both loops wait, so nothing is under way
        obtain ⟨hpc, hevents⟩ := Classical.not_imp.mp hclient
        obtain ⟨hpc', hevents'⟩ := Classical.not_imp.mp hserver
        refine absurd ?_ ht
        simp [tokens, Endpoint.clientTokens, Endpoint.serverTokens, hwork, hpc, hpc',
          not_not.mp hevents, not_not.mp hevents', LoopPc.clientToken, LoopPc.serverToken]
  · obtain ⟨o', hs, ha'⟩ := network_of_alive ha hwork
    exact ⟨.cm, o', rfl, hs, ha', (h.network hs).2⟩

/-- The steps left: two for each stage, one for each event. -/
def left (o : Opening F) : ℕ := (o.tokens.map fun s => 2 * (24 - s)).sum + o.waiting

theorem Phase.left_lt (h : o.Phase mr c) (ht : o.Turn o') : o'.left < o.left := by
  have hlt {s : ℕ} (hs : o.tokens = [s]) : s < 24 := by
    cases h with
    | opening hs' h24 _ => exact List.singleton_inj.mp (hs.symm.trans hs') ▸ h24
    | stopped hnil | opened hnil => exact absurd (hs.symm.trans hnil) (List.cons_ne_nil _ _)
  cases ht with
  | same htok hlt =>
      rw [left, htok]
      exact Nat.add_lt_add_left hlt _
  | next hs hs' hle =>
      have h24 := hlt hs
      simp only [left, hs, hs', List.map_singleton, List.sum_singleton]
      omega
  | done hs hnil hle =>
      have h24 := hlt hs
      simp only [left, hs, hnil, List.map_singleton, List.sum_singleton, List.map_nil,
        List.sum_nil]
      omega

end Opening

namespace ConnSetup

variable {F : Type} [Region F] {k : ConnSetup F} {o : Opening F} {c : Conn F}

theorem opening_simulation :
    k.opening.Simulation k.fine (fun _ a => a.app?) fun o c => o.Phase k.mr c where
  init := by
    rintro _ rfl
    have hstart : k.blank.prepared k.mr = k.start := rfl
    refine ⟨k.start, rfl, ?_⟩
    rw [← hstart]
    exact .opening (s := 0) rfl (by decide)
      ⟨⟨rfl, rfl, rfl, rfl, rfl, rfl⟩, rfl, rfl, fun h => absurd h (by decide),
        fun h => absurd h (by decide)⟩
  step _ _ _ _ _ _ hR hs := hR.step hs

/-- Without a failure the event loops and librdmacm open the connection. -/
theorem opens (h : k.opening.Reachable o) (hP : o.Phase k.mr c) (hc : k.fine.Reachable c)
    (ha : o.Alive) : ∃ as o', (∀ a ∈ as, a.opens = true) ∧ k.opening.run o as = some o' ∧
      k.fine.Reachable o'.conn := by
  induction hl : o.left using Nat.strong_induction_on generalizing o c with
  | _ n ih =>
      by_cases ht : o.tokens = []
      · cases hP with
        | opening hs _ _ => simp [ht] at hs
        | stopped _ _ hlost => exact (hlost.elim ha.client ha.server).elim
        | opened _ => exact ⟨[], o, by simp, rfl, hc⟩
      · obtain ⟨a, o', hopens, hs, ha', hturn⟩ := hP.goes_on ha ht
        have hs : k.opening.step o a = some o' := hs
        obtain ⟨c', hfollow, hP'⟩ := hP.step hs
        obtain ⟨as, o'', has, hrun, hreach⟩ := ih o'.left (hl ▸ hP.left_lt hturn)
          (h.step trivial hs) hP' (hfollow.reachable hc) ha' rfl
        refine ⟨a :: as, o'', ?_, System.run_cons_eq_some.mpr ⟨o', hs, hrun⟩, hreach⟩
        exact List.forall_mem_cons.mpr ⟨hopens, has⟩

/-- An open connection is never idle again. -/
theorem not_idle (hc : k.fine.Reachable c) : ¬ c.Idle := by
  obtain ⟨E, hsound⟩ := (served hc).sound
  exact hsound.token.not_idle

/-- At every moment the connection is idle, and what the event loops will make of it is
one of `ConnSetup.fine`, or it is one itself.  Without a failure the loops and librdmacm
can always open it. -/
theorem opened (h : k.opening.Reachable o) :
    ((o.conn.Idle ∧ k.fine.Reachable (o.conn.prepared k.mr)) ∨
      (¬ o.conn.Idle ∧ k.fine.Reachable o.conn)) ∧
    (o.Alive → ∃ as o', (∀ a ∈ as, a.opens = true) ∧ k.opening.run o as = some o' ∧
      ¬ o'.conn.Idle ∧ k.fine.Reachable o'.conn) := by
  obtain ⟨c, hc, hP⟩ := opening_simulation.reachable h
  constructor
  · cases hP with
    | opening _ _ hq | stopped _ hq _ => exact .inl ⟨hq.idle, hc⟩
    | opened _ => exact .inr ⟨not_idle hc, hc⟩
  · intro ha
    obtain ⟨as, o', has, hrun, hreach⟩ := opens h hP hc ha
    exact ⟨as, o', has, hrun, not_idle hreach, hreach⟩

/-- The application raises its flag before the receive is posted. -/
theorem opened_small : ∃ o as o', small.opening.Reachable o ∧
    (o.client = ⟨.postRecv .resolveRoute, [], true, true⟩ ∧ o.server = ⟨.get, [], false, false⟩ ∧
      o.listening = true ∧ o.conn.client.canSend = true) ∧
    small.opening.run o as = some o' ∧ ¬ o'.conn.Idle := by
  obtain ⟨o, hreach, hp⟩ := System.exists_reachable small.opening
    [.cm, .client, .client, .client, .app (.canSend true), .client, .listen, .client]
    (fun o => o.client = ⟨.postRecv .resolveRoute, [], true, true⟩ ∧
      o.server = ⟨.get, [], false, false⟩ ∧ o.listening = true ∧ o.conn.client.canSend = true)
    rfl (by decide)
  obtain ⟨hclient, hserver, hlisten, hflag⟩ := hp
  have halive : o.Alive := by
    refine ⟨hlisten, ?_, ?_⟩
    · simp [hclient, Endpoint.Lost]
    · simp [hserver, Endpoint.Lost]
  obtain ⟨as, o', -, hrun, hidle, -⟩ := (opened hreach).2 halive
  exact ⟨o, as, o', hreach, ⟨hclient, hserver, hlisten, hflag⟩, hrun, hidle⟩

end ConnSetup

end StellarBench
