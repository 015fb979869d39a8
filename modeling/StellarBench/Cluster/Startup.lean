import StellarBench.Cluster.Model

/-!
# Start-up of a process

Both programs start their threads and their two event loops at once, so nothing
orders the set-up of the outgoing connection against the incoming one.  A frame
may arrive, be decoded and be merged or computed while `RDMA_CM_EVENT_ADDR_RESOLVED`
is still to come, and with it `client_on_pre_conn`, which allocates and registers
the send buffer.

`rdma_sendTd` of `ps` waits for `buf_registered` first.  That of `worker` does not,
although it prints that it has a registered buffer.  `fills` and `posts` are
histories: the pointer that each `memcpy` used with the flag at that time, and the
buffer and the region of each posted write.  What the copies carry is left out.
-/

namespace StellarBench

/-- The two programs with an `rdma_sendTd`. -/
inductive Program where
  | ps | worker
deriving DecidableEq, Repr

/-! ## Program counters -/

/-- Where `client_event_loop` stands. -/
inductive ClientCm where
  /-- Before `RDMA_CM_EVENT_ADDR_RESOLVED`. -/
  | resolving
  /-- Before `ibv_reg_mr` of the send buffer. -/
  | register
  /-- Before `buf_registered = true`. -/
  | flag
  /-- Before `client_post_receive`. -/
  | postRecv
  /-- Before `RDMA_CM_EVENT_ROUTE_RESOLVED`. -/
  | routing
  /-- Before `RDMA_CM_EVENT_ESTABLISHED`. -/
  | connecting
  | established
deriving DecidableEq, Repr

/-- `client_on_pre_conn` has stored the flag. -/
@[simp] def ClientCm.registered : ClientCm → Bool
  | .resolving | .register | .flag => false
  | _ => true

/-- Where a `rdma_sendTd` stands: in its wait for `buf_registered` (`ps` only), at
its guard, before it loads the pointer, or in its body, with the pointer. -/
inductive FillPc where
  | wait | test | load
  | copy (buf : Option ℕ) (k : ℕ)
  | setLen | announce | count
deriving DecidableEq, Repr

/-- `rdma_sendTd` is past its guard. -/
@[simp] def FillPc.passed : FillPc → Bool
  | .wait | .test => false
  | _ => true

/-- Where a `rdma_recvTd` stands. -/
inductive TakePc where
  | wait | test | decode | count | flag
deriving DecidableEq, Repr

/-! ## State -/

/-- `c_ctx[id]` with its event loop and its completion handler.  `none` is the
null pointer of a zero-initialised global. -/
structure Outgoing where
  buffer : Option ℕ
  bufferMr : Option ℕ
  bufRegistered : Bool
  canSend : Bool
  cm : ClientCm
  pc : ClientPc
  fills : List (Option ℕ × Bool)
  posts : List (Option ℕ × Option ℕ)

/-- `s_ctx[id]`, as far as `rdma_recvTd` waits for it. -/
structure Incoming where
  bufRegistered : Bool
  bufRecvCounter : ℤ

/-- The two connections of one thread id and its two threads. -/
structure Port where
  out : Outgoing
  inc : Incoming
  sendPc : FillPc
  toSend : ℤ
  recvPc : TakePc
  recved : ℤ

/-- A process with a main loop that stands at `mainPc`. -/
structure Boot (Pc : Type) (n : ℕ) where
  iterT : ℤ
  completedIter : ℤ
  mainPc : Pc
  port : Fin n → Port

/-- What moves a port: its threads, the event loop of its outgoing connection, the
completion handler, and the network at its incoming connection. -/
inductive PortAct where
  | send | recv | cm | handler | accept | frame
deriving DecidableEq, Repr

inductive BootAct (n : ℕ) where
  | main
  | port (i : Fin n) (a : PortAct)
deriving DecidableEq

/-! ## Guards of the source -/

/-- `CanSend` of both programs. -/
def Program.canSend : Program → ℤ → ℤ → Bool
  | .ps => psCanSend
  | .worker => workerCanSend

/-- The test of `rdma_recvTd`, `to_recv_iter > buf_recv_counter - 1` in `ps` and
`to_recv_age >= buf_recv_counter` in `worker`, on which both go to sleep. -/
def Program.nothingNew : Program → ℤ → ℤ → Bool
  | .ps, recved, counter => recved + 1 > counter - 1
  | .worker, recved, counter => recved + 1 ≥ counter

/-- The first statement of `rdma_sendTd`. -/
def Program.sendStart : Program → FillPc
  | .ps => .wait
  | .worker => .test

/-! ## Steps -/

/-- `client_event_loop` takes the next event or goes on in `client_on_pre_conn`.
`addr` is what `posix_memalign` returns. -/
def Outgoing.clientEventLoop (addr : ℕ) (o : Outgoing) : Option Outgoing :=
  match o.cm with
  | .resolving => some { o with buffer := some addr, cm := .register }
  | .register => some { o with bufferMr := o.buffer, cm := .flag }
  | .flag => some { o with bufRegistered := true, cm := .postRecv }
  | .postRecv => some { o with cm := .routing }
  | .routing => some { o with cm := .connecting }
  | .connecting => some { o with cm := .established }
  | .established => none

/-- `client_on_completion`.  A control message can come once the connection is
established. -/
def Outgoing.clientOnCompletion (o : Outgoing) : Option Outgoing :=
  match o.pc with
  | .poll => if o.cm = .established then some { o with pc := .waitSend } else none
  | .waitSend => if o.canSend then some { o with pc := .post } else none
  | .post => some { o with posts := o.posts ++ [(o.buffer, o.bufferMr)], pc := .clear }
  | .clear => some { o with canSend := false, pc := .count }
  | .count => some { o with pc := .repost }
  | .repost => some { o with pc := .poll }
  | .closed => none

/-- `rdma_sendTd`, with the `completed_iter` that `CanSend` reads. -/
def Port.rdmaSendTd (p : Program) (completed : ℤ) (l : Port) : Option Port :=
  match l.sendPc with
  | .wait => if l.out.bufRegistered then some { l with sendPc := .test } else none
  | .test => if p.canSend l.toSend completed then some { l with sendPc := .load } else none
  | .load => some { l with sendPc := .copy l.out.buffer 0 }
  | .copy buf k => some { l with
      out := { l.out with fills := l.out.fills ++ [(buf, l.out.bufRegistered)] },
      sendPc := if k < 3 then .copy buf (k + 1) else .setLen }
  | .setLen => some { l with sendPc := .announce }
  | .announce => some { l with out := { l.out with canSend := true }, sendPc := .count }
  | .count => some { l with toSend := l.toSend + 1, sendPc := .test }

/-- `rdma_recvTd`. -/
def Port.rdmaRecvTd (p : Program) (l : Port) : Option Port :=
  match l.recvPc with
  | .wait => if l.inc.bufRegistered then some { l with recvPc := .test } else none
  | .test =>
      if p.nothingNew l.recved l.inc.bufRecvCounter then none else some { l with recvPc := .decode }
  | .decode => some { l with recvPc := .count }
  | .count => some { l with recved := l.recved + 1, recvPc := .flag }
  | .flag => some { l with recvPc := .test }

/-- The next step of a port.  `accept` is `server_on_pre_conn`, and a frame is
counted only on a registered connection. -/
def Port.step (p : Program) (addr : ℕ) (completed : ℤ) (l : Port) : PortAct → Option Port
  | .send => l.rdmaSendTd p completed
  | .recv => l.rdmaRecvTd p
  | .cm => (l.out.clientEventLoop addr).map fun o => { l with out := o }
  | .handler => l.out.clientOnCompletion.map fun o => { l with out := o }
  | .accept => some { l with inc := { l.inc with bufRegistered := true } }
  | .frame =>
      if l.inc.bufRegistered then
        some { l with inc := { l.inc with bufRecvCounter := l.inc.bufRecvCounter + 1 } }
      else none

/-- A port after `InitContext`, with the initial values of its counters. -/
def Program.port (p : Program) : Port where
  out := ⟨none, none, false, false, .resolving, .poll, [], []⟩
  inc := ⟨false, 0⟩
  sendPc := p.sendStart
  toSend := 0
  recvPc := .wait
  recved := -1

namespace Boot

variable {n : ℕ} {Pc : Type}

/-- A step of a port. -/
def portStep (p : Program) (addr : Fin n → ℕ) (s : Boot Pc n) (i : Fin n) (a : PortAct) :
    Option (Boot Pc n) :=
  ((s.port i).step p (addr i) s.completedIter a).map fun l =>
    { s with port := Function.update s.port i l }

/-- The main loop of `ps`. -/
def psMain (s : Boot MainPc n) : Option (Boot MainPc n) :=
  match s.mainPc with
  | .scan j =>
      if h : j < n then
        if s.iterT > (s.port ⟨j, h⟩).recved + 1 then some { s with mainPc := .scan 0 }
        else some { s with mainPc := .scan (j + 1) }
      else some { s with mainPc := .merge }
  | .merge => some { s with completedIter := s.iterT, mainPc := .incr }
  | .incr => some { s with
      iterT := s.iterT + 1, mainPc := if s.iterT + 1 = 1200 then .exited else .scan 0 }
  | .exited => none

/-- The main loop of `worker`, which has one port. -/
def workerMain (s : Boot WorkerPc 1) : Option (Boot WorkerPc 1) :=
  match s.mainPc with
  | .test =>
      if canCompute s.iterT (s.port 0).recved then some { s with mainPc := .compute } else none
  | .compute => some { s with mainPc := .done }
  | .done => some { s with completedIter := s.iterT, mainPc := .incr }
  | .incr => some { s with iterT := s.iterT + 1, mainPc := .test }

def psStep (addr : Fin n → ℕ) (s : Boot MainPc n) : BootAct n → Option (Boot MainPc n)
  | .main => s.psMain
  | .port i a => s.portStep .ps addr i a

def workerStep (addr : Fin 1 → ℕ) (s : Boot WorkerPc 1) : BootAct 1 → Option (Boot WorkerPc 1)
  | .main => s.workerMain
  | .port i a => s.portStep .worker addr i a

end Boot

/-- The server process.  `addr` is where the send buffer of each port will be. -/
def psBoot (n : ℕ) (addr : Fin n → ℕ) : System (Boot MainPc n) (BootAct n) where
  init s := s = ⟨0, -1, .scan 0, fun _ => Program.ps.port⟩
  step := Boot.psStep addr

/-- A worker process. -/
def workerBoot (addr : Fin 1 → ℕ) : System (Boot WorkerPc 1) (BootAct 1) where
  init s := s = ⟨0, -1, .test, fun _ => Program.worker.port⟩
  step := Boot.workerStep addr

/-! ## The send buffer -/

/-- The allocated and registered send buffer. -/
def Outgoing.IsBuffer (o : Outgoing) (x : Option ℕ) : Prop :=
  ∃ a, x = some a ∧ o.buffer = some a ∧ o.bufferMr = some a

/-- Every copy went into the registered buffer while `buf_registered` was set, and
every write was posted from this buffer. -/
structure Outgoing.Filled (o : Outgoing) : Prop where
  fills : ∀ f ∈ o.fills, f.2 = true ∧ o.IsBuffer f.1
  posts : ∀ p ∈ o.posts, o.IsBuffer p.1 ∧ o.IsBuffer p.2

/-- The stages of `client_on_pre_conn`, and what only comes after it. -/
structure Outgoing.Staged (o : Outgoing) : Prop where
  registered : o.bufRegistered = o.cm.registered
  allocated : o.cm ≠ .resolving → ∃ a, o.buffer = some a
  region : o.cm ≠ .resolving → o.cm ≠ .register → o.bufferMr = o.buffer
  handler : o.pc ≠ .poll → o.bufRegistered = true
  posts : ∀ p ∈ o.posts, o.bufRegistered = true ∧ p = (o.buffer, o.bufferMr)

/-- A thread past its guard works on the registered buffer. -/
structure Port.Safe (l : Port) : Prop where
  out : l.out.Staged
  passed : l.sendPc.passed = true → l.out.bufRegistered = true
  copy : ∀ buf k, l.sendPc = .copy buf k → buf = l.out.buffer
  fills : ∀ f ∈ l.out.fills, l.out.bufRegistered = true ∧ f = (l.out.buffer, true)

theorem Outgoing.Staged.isBuffer {o : Outgoing} (h : o.Staged) (hr : o.bufRegistered = true) :
    o.IsBuffer o.buffer ∧ o.IsBuffer o.bufferMr := by
  have hcm : o.cm.registered = true := h.registered ▸ hr
  have hne : o.cm ≠ .resolving ∧ o.cm ≠ .register := by
    constructor <;> intro he <;> simp [he] at hcm
  obtain ⟨a, ha⟩ := h.allocated hne.1
  have hmr := (h.region hne.1 hne.2).trans ha
  exact ⟨⟨a, ha, ha, hmr⟩, ⟨a, hmr, ha, hmr⟩⟩

theorem Port.Safe.filled {l : Port} (h : l.Safe) : l.out.Filled := by
  constructor
  · intro f hf
    obtain ⟨hr, rfl⟩ := h.fills f hf
    exact ⟨rfl, (h.out.isBuffer hr).1⟩
  · intro p hp
    obtain ⟨hr, rfl⟩ := h.out.posts p hp
    exact h.out.isBuffer hr

theorem Program.safe_port (p : Program) : p.port.Safe := by
  refine ⟨⟨rfl, fun h => absurd rfl h, fun h => absurd rfl h, nofun, nofun⟩, ?_, ?_, nofun⟩
  · cases p <;> nofun
  · cases p <;> nofun

/-! ## Steps of a port -/

variable {p : Program} {addr : ℕ} {completed : ℤ} {l l' : Port} {o o' : Outgoing} {a : PortAct}

/-- Before the flag is set the handler has nothing to do. -/
theorem Outgoing.Staged.no_posts (h : o.Staged) (hr : o.bufRegistered = false)
    (q : Option ℕ × Option ℕ) : q ∉ o.posts := by
  intro hq
  have htrue := (h.posts q hq).1
  rw [hr] at htrue
  cases htrue

/-- Once the buffer is registered its address stays. -/
theorem Outgoing.Staged.clientEventLoop (h : o.Staged) (hs : o.clientEventLoop addr = some o') :
    o'.Staged ∧ o'.fills = o.fills ∧
      (o.bufRegistered = true → o'.bufRegistered = true ∧ o'.buffer = o.buffer) := by
  have hnone := h.no_posts
  obtain ⟨hreg, halloc, hregion, hhandler, hposts⟩ := h
  rw [Outgoing.clientEventLoop] at hs
  cases hcm : o.cm with
  | resolving =>
      simp only [hcm, Option.some.injEq, ClientCm.registered] at hs hreg
      subst hs
      refine ⟨⟨hreg, fun _ => ⟨addr, rfl⟩, fun _ h => absurd rfl h, hhandler, ?_⟩, rfl, ?_⟩
      · intro q hq
        exact absurd hq (hnone hreg q)
      · intro hr
        simp [hreg] at hr
  | register =>
      simp only [hcm, Option.some.injEq, ClientCm.registered] at hs hreg
      subst hs
      obtain ⟨b, hb⟩ := halloc (by simp [hcm])
      refine ⟨⟨hreg, fun _ => ⟨b, hb⟩, fun _ _ => rfl, hhandler, ?_⟩, rfl, ?_⟩
      · intro q hq
        exact absurd hq (hnone hreg q)
      · intro hr
        simp [hreg] at hr
  | flag =>
      simp only [hcm, Option.some.injEq, ClientCm.registered] at hs hreg
      subst hs
      have hmr : o.bufferMr = o.buffer := hregion (by simp [hcm]) (by simp [hcm])
      refine ⟨⟨rfl, fun _ => halloc (by simp [hcm]), fun _ _ => hmr, fun _ => rfl, ?_⟩, rfl, ?_⟩
      · intro q hq
        exact absurd hq (hnone hreg q)
      · exact fun _ => ⟨rfl, rfl⟩
  | postRecv | routing | connecting =>
      simp only [hcm, Option.some.injEq, ClientCm.registered] at hs hreg
      subst hs
      have hmr : o.bufferMr = o.buffer := hregion (by simp [hcm]) (by simp [hcm])
      exact ⟨⟨hreg, fun _ => halloc (by simp [hcm]), fun _ _ => hmr, hhandler, hposts⟩, rfl,
        fun hr => ⟨hr, rfl⟩⟩
  | established => simp [hcm] at hs

/-- The handler posts only on an established connection. -/
theorem Outgoing.Staged.clientOnCompletion (h : o.Staged) (hs : o.clientOnCompletion = some o') :
    o'.Staged ∧ o'.fills = o.fills ∧ o'.bufRegistered = o.bufRegistered ∧
      o'.buffer = o.buffer := by
  obtain ⟨hreg, halloc, hregion, hhandler, hposts⟩ := h
  rw [Outgoing.clientOnCompletion] at hs
  cases hpc : o.pc with
  | poll =>
      simp only [hpc] at hs
      obtain ⟨hcm, hs⟩ := Option.ite_none_right_eq_some.mp hs
      obtain rfl := Option.some.inj hs
      have hr : o.bufRegistered = true := by rw [hreg, hcm]; rfl
      exact ⟨⟨hreg, halloc, hregion, fun _ => hr, hposts⟩, rfl, rfl, rfl⟩
  | waitSend =>
      simp only [hpc] at hs
      obtain ⟨-, hs⟩ := Option.ite_none_right_eq_some.mp hs
      obtain rfl := Option.some.inj hs
      have hr := hhandler (by simp [hpc])
      exact ⟨⟨hreg, halloc, hregion, fun _ => hr, hposts⟩, rfl, rfl, rfl⟩
  | post =>
      simp only [hpc, Option.some.injEq] at hs
      subst hs
      have hr := hhandler (by simp [hpc])
      refine ⟨⟨hreg, halloc, hregion, fun _ => hr, ?_⟩, rfl, rfl, rfl⟩
      intro q hq
      rcases List.mem_append.mp hq with hq | hq
      · exact hposts q hq
      · exact ⟨hr, List.mem_singleton.mp hq⟩
  | clear | count | repost =>
      simp only [hpc, Option.some.injEq] at hs
      subst hs
      have hr := hhandler (by simp [hpc])
      exact ⟨⟨hreg, halloc, hregion, fun _ => hr, hposts⟩, rfl, rfl, rfl⟩
  | closed => simp [hpc] at hs

/-- The thread copies into the buffer whose pointer it has loaded. -/
theorem Port.Safe.rdmaSendTd (h : l.Safe) (hs : l.rdmaSendTd p completed = some l')
    (htest : l.sendPc = .test → p.canSend l.toSend completed = true →
      l.out.bufRegistered = true) : l'.Safe := by
  obtain ⟨hout, hpassed, hcopy, hfills⟩ := h
  rw [Port.rdmaSendTd] at hs
  cases hpc : l.sendPc with
  | wait =>
      simp only [hpc] at hs
      obtain ⟨-, hs⟩ := Option.ite_none_right_eq_some.mp hs
      obtain rfl := Option.some.inj hs
      exact ⟨hout, nofun, nofun, hfills⟩
  | test =>
      simp only [hpc] at hs
      obtain ⟨hcan, hs⟩ := Option.ite_none_right_eq_some.mp hs
      obtain rfl := Option.some.inj hs
      exact ⟨hout, fun _ => htest hpc hcan, nofun, hfills⟩
  | load =>
      simp only [hpc, Option.some.injEq] at hs
      subst hs
      refine ⟨hout, fun _ => hpassed (by simp [hpc]), ?_, hfills⟩
      intro buf k hk
      cases hk
      rfl
  | copy buf k =>
      simp only [hpc, Option.some.injEq] at hs
      subst hs
      have hr := hpassed (by simp [hpc])
      have hbuf := hcopy buf k hpc
      refine ⟨⟨hout.1, hout.2, hout.3, hout.4, hout.5⟩, fun _ => hr, ?_, ?_⟩
      · intro buf' k' hk'
        dsimp only at hk'
        split at hk'
        · cases hk'
          exact hbuf
        · cases hk'
      · intro f hf
        rcases List.mem_append.mp hf with hf | hf
        · exact hfills f hf
        · refine ⟨hr, ?_⟩
          rw [List.mem_singleton.mp hf, hr, hbuf]
  | setLen =>
      simp only [hpc, Option.some.injEq] at hs
      subst hs
      exact ⟨hout, fun _ => hpassed (by simp [hpc]), nofun, hfills⟩
  | announce =>
      simp only [hpc, Option.some.injEq] at hs
      subst hs
      exact ⟨⟨hout.1, hout.2, hout.3, hout.4, hout.5⟩, fun _ => hpassed (by simp [hpc]), nofun,
        hfills⟩
  | count =>
      simp only [hpc, Option.some.injEq] at hs
      subst hs
      exact ⟨hout, nofun, nofun, hfills⟩

/-- The incoming side leaves the outgoing connection and the sending thread alone. -/
theorem Port.incoming_step (hs : l.step p addr completed a = some l')
    (ha : a = .recv ∨ a = .accept ∨ a = .frame) :
    l'.out = l.out ∧ l'.sendPc = l.sendPc ∧ l'.toSend = l.toSend := by
  rcases ha with rfl | rfl | rfl
  · simp only [Port.step, Port.rdmaRecvTd] at hs
    split at hs
    case h_1 =>
      obtain ⟨-, hs⟩ := Option.ite_none_right_eq_some.mp hs
      exact Option.some.inj hs ▸ ⟨rfl, rfl, rfl⟩
    case h_2 =>
      obtain ⟨-, hs⟩ := Option.ite_none_left_eq_some.mp hs
      exact Option.some.inj hs ▸ ⟨rfl, rfl, rfl⟩
    all_goals exact Option.some.inj hs ▸ ⟨rfl, rfl, rfl⟩
  · exact Option.some.inj hs ▸ ⟨rfl, rfl, rfl⟩
  · obtain ⟨-, hs⟩ := Option.ite_none_right_eq_some.mp hs
    exact Option.some.inj hs ▸ ⟨rfl, rfl, rfl⟩

/-- The other threads and the network leave the sending thread alone. -/
theorem Port.sender_step (hs : l.step p addr completed a = some l') (ha : a ≠ .send) :
    l'.sendPc = l.sendPc ∧ l'.toSend = l.toSend := by
  cases a with
  | send => exact absurd rfl ha
  | recv | accept | frame => exact (Port.incoming_step hs (by simp)).2
  | cm | handler =>
      obtain ⟨o, -, rfl⟩ := Option.map_eq_some_iff.mp hs
      exact ⟨rfl, rfl⟩

/-- The frames begun by a sending thread. -/
def Port.begun (l : Port) : ℤ := l.toSend + l.sendPc.passed.toNat

/-- A sending thread begins a frame where it passes its guard. -/
theorem Port.rdmaSendTd_cases (hs : l.rdmaSendTd p completed = some l') :
    l'.out.bufRegistered = l.out.bufRegistered ∧
      (l'.begun = l.begun ∨
        (l.sendPc = .test ∧ p.canSend l.toSend completed = true ∧ l'.begun = l.toSend + 1)) ∧
      l.toSend ≤ l'.toSend ∧
      (l'.sendPc ≠ .wait ∧ (l.sendPc = .wait → l.out.bufRegistered = true)) := by
  rw [Port.rdmaSendTd] at hs
  cases hpc : l.sendPc with
  | wait =>
      simp only [hpc] at hs
      obtain ⟨hr, hs⟩ := Option.ite_none_right_eq_some.mp hs
      obtain rfl := Option.some.inj hs
      exact ⟨rfl, .inl (by simp [begun, hpc]), le_rfl, nofun, fun _ => hr⟩
  | test =>
      simp only [hpc] at hs
      obtain ⟨hcan, hs⟩ := Option.ite_none_right_eq_some.mp hs
      obtain rfl := Option.some.inj hs
      exact ⟨rfl, .inr ⟨rfl, hcan, rfl⟩, le_rfl, nofun, nofun⟩
  | copy buf k =>
      simp only [hpc, Option.some.injEq] at hs
      subst hs
      by_cases hk : k < 3 <;> simp [begun, hpc, hk]
  | load | setLen | announce =>
      simp only [hpc, Option.some.injEq] at hs
      subst hs
      exact ⟨rfl, .inl (by simp [begun, hpc]), le_rfl, nofun, nofun⟩
  | count =>
      simp only [hpc, Option.some.injEq] at hs
      subst hs
      exact ⟨rfl, .inl (by simp [begun, hpc]), Int.le_add_one le_rfl, nofun, nofun⟩

/-- A step of a port keeps it safe if its sender does not pass the guard too early. -/
theorem Port.Safe.step (h : l.Safe) (hs : l.step p addr completed a = some l')
    (htest : l.sendPc = .test → p.canSend l.toSend completed = true →
      l.out.bufRegistered = true) : l'.Safe := by
  cases a with
  | send => exact h.rdmaSendTd hs htest
  | recv | accept | frame =>
      obtain ⟨hout, hpc, -⟩ := Port.incoming_step hs (by simp)
      exact ⟨hout ▸ h.out, by rw [hout, hpc]; exact h.passed, by rw [hout, hpc]; exact h.copy,
        by rw [hout]; exact h.fills⟩
  | cm =>
      obtain ⟨o, ho, rfl⟩ := Option.map_eq_some_iff.mp hs
      obtain ⟨hout, hfills, hstay⟩ := h.out.clientEventLoop ho
      refine ⟨hout, fun hp => (hstay (h.passed hp)).1, ?_, ?_⟩
      · intro buf k hk
        have hr := h.passed (by rw [show l.sendPc = .copy buf k from hk]; rfl)
        exact (h.copy buf k hk).trans (hstay hr).2.symm
      · intro f hf
        rw [hfills] at hf
        obtain ⟨hr, hfb⟩ := h.fills f hf
        obtain ⟨hr', hb⟩ := hstay hr
        exact ⟨hr', by rw [hb]; exact hfb⟩
  | handler =>
      obtain ⟨o, ho, rfl⟩ := Option.map_eq_some_iff.mp hs
      obtain ⟨hout, hfills, hr, hb⟩ := h.out.clientOnCompletion ho
      refine ⟨hout, ?_, ?_, ?_⟩
      · rw [hr]
        exact h.passed
      · rw [hb]
        exact h.copy
      · rw [hr, hb, hfills]
        exact h.fills

/-- The flag stays set. -/
theorem Port.bufRegistered_step (h : l.Safe) (hs : l.step p addr completed a = some l')
    (hr : l.out.bufRegistered = true) : l'.out.bufRegistered = true := by
  cases a with
  | send => exact (Port.rdmaSendTd_cases hs).1.trans hr
  | recv | accept | frame =>
      rw [(Port.incoming_step hs (by simp)).1]
      exact hr
  | cm =>
      obtain ⟨o, ho, rfl⟩ := Option.map_eq_some_iff.mp hs
      exact ((h.out.clientEventLoop ho).2.2 hr).1
  | handler =>
      obtain ⟨o, ho, rfl⟩ := Option.map_eq_some_iff.mp hs
      exact (h.out.clientOnCompletion ho).2.2.1.trans hr

/-! ## The server -/

/-- The sender of `ps` is past its wait only when the flag is set. -/
structure Port.PsSafe (l : Port) : Prop where
  safe : l.Safe
  waited : l.sendPc ≠ .wait → l.out.bufRegistered = true

theorem Port.PsSafe.step (h : l.PsSafe) (hs : l.step .ps addr completed a = some l') :
    l'.PsSafe := by
  obtain ⟨hsafe, hwaited⟩ := h
  refine ⟨hsafe.step hs fun hpc _ => hwaited (by simp [hpc]), fun hpc => ?_⟩
  refine Port.bufRegistered_step hsafe hs ?_
  by_cases ha : a = .send
  · subst ha
    by_cases hw : l.sendPc = .wait
    · exact (Port.rdmaSendTd_cases hs).2.2.2.2 hw
    · exact hwaited hw
  · rw [(Port.sender_step hs ha).1] at hpc
    exact hwaited hpc

section Server

variable {n : ℕ} {addr : Fin n → ℕ} {s t : Boot MainPc n}

theorem Boot.port_psMain (hs : s.psMain = some t) : t.port = s.port := by
  rw [psMain] at hs
  split at hs
  · split at hs
    · split at hs <;> exact Option.some.inj hs ▸ rfl
    · exact Option.some.inj hs ▸ rfl
  · exact Option.some.inj hs ▸ rfl
  · exact Option.some.inj hs ▸ rfl
  · cases hs

theorem psBoot_safe (h : (psBoot n addr).Reachable s) (i : Fin n) : (s.port i).PsSafe := by
  refine h.invariant (I := fun s => ∀ i, (s.port i).PsSafe) ?_ ?_ i
  · rintro s rfl i
    exact ⟨Program.ps.safe_port, fun h => absurd rfl h⟩
  · intro s a t _ ih _ hs
    cases a with
    | main =>
        rw [Boot.port_psMain hs]
        exact ih
    | port j a =>
        obtain ⟨l, hl, rfl⟩ := Option.map_eq_some_iff.mp hs
        intro i
        by_cases hij : i = j
        · subst hij
          simpa using (ih i).step hl
        · simpa [hij] using ih i

end Server

/-! ## The worker -/

/-- `completed_iter` is stored and `iter_t` not yet incremented. -/
@[simp] def WorkerPc.stored : WorkerPc → ℕ
  | .incr => 1
  | _ => 0

section Worker

variable {addr : Fin 1 → ℕ} {s t : Boot WorkerPc 1} {a : BootAct 1}

/-- The main loop stores `completed_iter` only when `client_on_pre_conn` has
registered the send buffer. -/
def Boot.Published (s : Boot WorkerPc 1) : BootAct 1 → Prop
  | .main => s.mainPc = .done → (s.port 0).out.bufRegistered = true
  | .port _ _ => True

instance (s : Boot WorkerPc 1) : (a : BootAct 1) → Decidable (s.Published a)
  | .main => inferInstanceAs (Decidable (s.mainPc = .done → _ = true))
  | .port _ _ => .isTrue trivial

/-- What holds of a worker in a run of such steps. -/
structure Boot.WorkerSafe (s : Boot WorkerPc 1) : Prop where
  safe : (s.port 0).Safe
  waited : (s.port 0).sendPc ≠ .wait
  iter : s.completedIter + 1 = s.iterT + s.mainPc.stored
  nonneg : 0 ≤ (s.port 0).toSend
  begun : (s.port 0).begun ≤ s.completedIter + 1
  registered : 0 ≤ s.completedIter → (s.port 0).out.bufRegistered = true

theorem Boot.WorkerSafe.main (h : s.WorkerSafe) (hg : s.Published .main)
    (hs : s.workerMain = some t) : t.WorkerSafe := by
  obtain ⟨hsafe, hwaited, hiter, hnn, hbegun, hreg⟩ := h
  rw [workerMain] at hs
  cases hpc : s.mainPc with
  | test =>
      simp only [hpc] at hs hiter
      obtain ⟨-, hs⟩ := Option.ite_none_right_eq_some.mp hs
      exact Option.some.inj hs ▸ ⟨hsafe, hwaited, hiter, hnn, hbegun, hreg⟩
  | compute =>
      simp only [hpc, Option.some.injEq] at hs hiter
      exact hs ▸ ⟨hsafe, hwaited, hiter, hnn, hbegun, hreg⟩
  | done =>
      simp only [hpc, Option.some.injEq, WorkerPc.stored] at hs hiter
      subst hs
      refine ⟨hsafe, hwaited, rfl, hnn, ?_, fun _ => hg hpc⟩
      show (s.port 0).begun ≤ s.iterT + 1
      omega
  | incr =>
      simp only [hpc, Option.some.injEq, WorkerPc.stored] at hs hiter
      subst hs
      refine ⟨hsafe, hwaited, ?_, hnn, hbegun, hreg⟩
      show s.completedIter + 1 = s.iterT + 1 + (0 : ℕ)
      omega

theorem Boot.WorkerSafe.port {i : Fin 1} {b : PortAct} (h : s.WorkerSafe)
    (hs : s.portStep .worker addr i b = some t) : t.WorkerSafe := by
  obtain ⟨hsafe, hwaited, hiter, hnn, hbegun, hreg⟩ := h
  obtain ⟨l, hl, rfl⟩ := Option.map_eq_some_iff.mp hs
  obtain rfl : i = 0 := Subsingleton.elim i 0
  have hcan : ∀ x, Program.worker.canSend x s.completedIter = true → x = s.completedIter := by
    intro x hx
    simpa [Program.canSend, workerCanSend] using hx
  have hnext : l.Safe := hsafe.step hl fun _ hc => hreg (hcan _ hc ▸ hnn)
  have hkeep := Port.bufRegistered_step hsafe hl
  have hsender : l.sendPc ≠ .wait ∧ 0 ≤ l.toSend ∧ l.begun ≤ s.completedIter + 1 := by
    by_cases hb : b = .send
    · subst hb
      obtain ⟨-, hcases, hle, hw, -⟩ := Port.rdmaSendTd_cases hl
      refine ⟨hw, hnn.trans hle, ?_⟩
      rcases hcases with heq | ⟨-, hc, heq⟩
      · exact heq ▸ hbegun
      · rw [heq, hcan _ hc]
    · obtain ⟨hpc, hsend⟩ := Port.sender_step hl hb
      rw [Port.begun, hpc, hsend]
      exact ⟨hwaited, hnn, hbegun⟩
  obtain ⟨hw, hnn', hbegun'⟩ := hsender
  exact ⟨by simpa using hnext, by simpa using hw, hiter, by simpa using hnn',
    by simpa using hbegun', fun h0 => by simpa using hkeep (hreg h0)⟩

theorem workerBoot_safe (h : (workerBoot addr).Via Boot.Published s) : s.WorkerSafe := by
  refine h.invariant (I := Boot.WorkerSafe) ?_ ?_
  · rintro s rfl
    exact ⟨Program.worker.safe_port, nofun, rfl, le_rfl, le_rfl, fun h0 => absurd h0 (by decide)⟩
  · intro s a t _ ih hg hs
    cases a with
    | main => exact ih.main hg hs
    | port i b => exact ih.port hs

/-- The three steps of the sender after the guard opens. -/
theorem Boot.first_copy (addr) (hpc : (s.port 0).sendPc = .test)
    (hcan : (s.port 0).toSend = s.completedIter) :
    ∃ u, (workerBoot addr).run s (List.replicate 3 (.port 0 .send)) = some u ∧
      ((s.port 0).out.buffer, (s.port 0).out.bufRegistered) ∈ (u.port 0).out.fills := by
  have hsend : Program.worker.canSend (s.port 0).toSend s.completedIter = true := by
    simp [Program.canSend, workerCanSend, hcan]
  simp only [List.replicate, System.run, workerBoot, workerStep, portStep, Port.step,
    Port.rdmaSendTd, hpc, hsend, if_true, Option.map_some, Option.bind_some, Function.update_self]
  exact ⟨_, rfl, by simp⟩

/-- Where the main loop stores too early, the sender can pass its guard and copy
to a buffer that is not registered. -/
theorem Boot.WorkerSafe.early (h : s.WorkerSafe) (hs : (workerBoot addr).step s a = some t)
    (hg : ¬ s.Published a) :
    ∃ as u, (workerBoot addr).run t as = some u ∧ ¬ (u.port 0).out.Filled := by
  obtain ⟨hsafe, hwaited, hiter, hnn, hbegun, hreg⟩ := h
  cases a with
  | port i b => exact absurd trivial hg
  | main =>
      obtain ⟨hpc, hfalse⟩ := Classical.not_imp.mp hg
      have hneg : ¬ 0 ≤ s.completedIter := fun h0 => hfalse (hreg h0)
      have htest : (s.port 0).sendPc = .test := by
        have hpassed : (s.port 0).sendPc.passed = false :=
          Bool.eq_false_iff.mpr fun hp => hfalse (hsafe.passed hp)
        cases hsend : (s.port 0).sendPc <;> simp [hsend] at hpassed hwaited ⊢
      simp only [hpc, WorkerPc.stored] at hiter
      simp only [Port.begun, htest, FillPc.passed, Bool.toNat_false] at hbegun
      simp only [workerBoot, workerStep, workerMain, hpc, Option.some.injEq] at hs
      subst hs
      have hzero : (s.port 0).toSend = s.iterT := by omega
      obtain ⟨u, hu, hmem⟩ := Boot.first_copy addr
        (s := { s with completedIter := s.iterT, mainPc := .incr }) htest hzero
      exact ⟨_, u, hu, fun hf => hfalse (hf.fills _ hmem).1⟩

end Worker

/-! ## Both programs -/

/-- `ps` copies into its send buffers only when they are registered, in every run.
A worker does if its main loop stores `completed_iter` only after that.  Where it
stores earlier, the sender can move next and copy to a buffer that is not
registered. -/
theorem send_buffer_registered {n : ℕ} (psAddr : Fin n → ℕ) (workerAddr : Fin 1 → ℕ) :
    (∀ s, (psBoot n psAddr).Reachable s → ∀ i, (s.port i).out.Filled) ∧
      ∀ s, (workerBoot workerAddr).Via Boot.Published s → (s.port 0).out.Filled ∧
        ∀ a t, (workerBoot workerAddr).step s a = some t → ¬ s.Published a →
          ∃ as u, (workerBoot workerAddr).run t as = some u ∧ ¬ (u.port 0).out.Filled := by
  constructor
  · intro s h i
    exact (psBoot_safe h i).safe.filled
  · intro s h
    have hsafe := workerBoot_safe h
    exact ⟨hsafe.safe.filled, fun a t hs hg => hsafe.early hs hg⟩

/-- The outgoing connection comes up. -/
def setUp : List (BootAct 1 × ℕ) := [(.port 0 .cm, 6)]

/-- The sender copies a frame and the handler posts it. -/
def sendFrame : List (BootAct 1 × ℕ) := [(.port 0 .send, 8), (.port 0 .handler, 3)]

/-- A frame arrives, is decoded and computed. -/
def firstFrame : List (BootAct 1 × ℕ) :=
  [(.port 0 .accept, 1), (.port 0 .frame, 1), (.port 0 .recv, 4), (.main, 3)]

theorem send_buffer_registered_small :
    (∃ s, (s.port 0).out.fills = List.replicate 4 (some 5, true) ∧
      (s.port 0).out.posts = [(some 5, some 5)] ∧ (s.port 0).out.Filled ∧
      (psBoot 1 fun _ => 5).Reachable s) ∧
    ∃ s, (s.port 0).out.fills = List.replicate 4 (some 5, true) ∧
      (s.port 0).out.posts = [(some 5, some 5)] ∧ (s.port 0).out.Filled ∧
      (workerBoot fun _ => 5).Via Boot.Published s := by
  constructor
  · obtain ⟨s, hs, hf, hp⟩ := (psBoot 1 fun _ => 5).exists_reachable
      (System.script (setUp ++ [(.port 0 .send, 1), (.main, 3)] ++ sendFrame))
      (fun s => (s.port 0).out.fills = List.replicate 4 (some 5, true) ∧
        (s.port 0).out.posts = [(some 5, some 5)]) rfl (by decide)
    exact ⟨s, hf, hp, (send_buffer_registered (fun _ => 5) fun _ => 5).1 s hs 0, hs⟩
  · obtain ⟨s, hs, hf, hp⟩ := ((workerBoot fun _ => 5).restrict Boot.Published).exists_reachable
      (System.script (setUp ++ firstFrame ++ sendFrame))
      (fun s => (s.port 0).out.fills = List.replicate 4 (some 5, true) ∧
        (s.port 0).out.posts = [(some 5, some 5)]) rfl (by decide)
    have hvia := System.via_of_restrict hs
    exact ⟨s, hf, hp, ((send_buffer_registered (n := 0) Fin.elim0 fun _ => 5).2 s hvia).1, hvia⟩

/-- The first frame is computed before `RDMA_CM_EVENT_ADDR_RESOLVED`.  The worker
copies to the null pointer. -/
theorem copied_to_null : ∃ s, (workerBoot fun _ => 5).Reachable s ∧
    (s.port 0).out.fills = [(none, false)] ∧ (s.port 0).out.cm = .resolving ∧
    ¬ (s.port 0).out.Filled := by
  obtain ⟨s, hs, hf, hcm⟩ := (workerBoot fun _ => 5).exists_reachable
    (System.script (firstFrame ++ [(.port 0 .send, 3)]))
    (fun s => (s.port 0).out.fills = [(none, false)] ∧ (s.port 0).out.cm = .resolving) rfl
    (by decide)
  refine ⟨s, hs, hf, hcm, fun h => ?_⟩
  obtain ⟨hflag, -⟩ := h.fills (none, false) (by simp [hf])
  cases hflag

end StellarBench
