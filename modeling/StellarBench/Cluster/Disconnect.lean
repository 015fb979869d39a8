import StellarBench.Cluster.Startup
import StellarBench.Transport.OneToken

/-!
# Disconnection while frames are read

The event loop of a server connection releases the receive buffer as soon as
`RDMA_CM_EVENT_DISCONNECTED` comes.  It does not ask whether `rdma_recvTd` has
read the frames that are counted, and `ctx->buffer` keeps the released address.
A peer that leaves after its last write can so take away the frame.

In a run in which the event is handled only when everything counted is consumed and
`server_on_completion` is not about to count (`Drained`), every counted frame stays
readable (`counted_frame_readable`).  Posting to the destroyed queue pair does not
return, so nothing is counted for a completion polled later.
-/

namespace StellarBench

variable {F : Type}

/-- Where the event loop of the connection stands. -/
inductive ServerCm where
  /-- Before `RDMA_CM_EVENT_CONNECT_REQUEST`. -/
  | listening
  /-- Before `ibv_reg_mr` of the receive buffer. -/
  | register
  /-- Before `buf_registered = true`. -/
  | flag
  /-- Before `server_post_receive`. -/
  | postRecv
  /-- Before `RDMA_CM_EVENT_ESTABLISHED`. -/
  | accepted
  /-- Before `RDMA_CM_EVENT_DISCONNECTED`. -/
  | connected
  /-- Before `ibv_dereg_mr(ctx->buffer_mr)`. -/
  | deregBuffer
  /-- Before `ibv_dereg_mr(ctx->msg_mr)`. -/
  | deregMsg
  /-- Before `free(ctx->buffer)`. -/
  | freeBuffer
  /-- Before `free(ctx->msg)`. -/
  | freeMsg
  | closed
deriving DecidableEq, Repr

/-- The queue pair exists. -/
@[simp] def ServerCm.qp : ServerCm → Bool
  | .register | .flag | .postRecv | .accepted | .connected => true
  | _ => false

/-- The receive buffer is allocated and not released. -/
@[simp] def ServerCm.live : ServerCm → Bool
  | .listening | .freeMsg | .closed => false
  | _ => true

/-- `server_on_pre_conn` has not posted its receive. -/
@[simp] def ServerCm.fresh : ServerCm → Bool
  | .listening | .register | .flag | .postRecv => true
  | _ => false

/-- `server_on_completion` has reposted its receive and not counted its write. -/
@[simp] def ServerPc.counting : ServerPc → ℕ
  | .setLen _ | .count _ => 1
  | _ => 0

/-- Where `rdma_recvTd` stands, with the pointer it has loaded. -/
inductive ReadPc where
  | wait | test | load
  | decodeP (buf : Option ℕ)
  | decodeQ (buf : Option ℕ)
  | count | flag
deriving DecidableEq, Repr

/-- From a passed test to the increment of the counter. -/
@[simp] def ReadPc.reading : ReadPc → ℕ
  | .load | .decodeP _ | .decodeQ _ | .count => 1
  | _ => 0

/-- The pointer a decoder works on. -/
@[simp] def ReadPc.pointer? : ReadPc → Option (Option ℕ)
  | .decodeP buf | .decodeQ buf => some buf
  | _ => none

/-- A loaded pointer is that of a frame being read. -/
theorem ReadPc.reading_of_pointer {pc : ReadPc} {buf : Option ℕ} (h : pc.pointer? = some buf) :
    pc.reading = 1 := by
  cases pc with
  | decodeP | decodeQ => rfl
  | wait | test | load | count | flag => cases h

/-- One connection with its event loop and its reader.  `buffer` is the pointer
`ctx->buffer`, and `written` the address of the last write. -/
structure Session (F : Type) where
  conn : Conn F
  cm : ServerCm
  buffer : Option ℕ
  bufRegistered : Bool
  written : Option ℕ
  recved : ℤ
  recvPc : ReadPc

/-- What is given: the program, the address that `posix_memalign` returns, the key
of the region, and the contents before the first frame. -/
structure SessionSetup (F : Type) where
  program : Program
  addr : ℕ
  rkey : ℕ
  sendBuffer : F
  recvBuffer : F
  canRecv : Bool

/-- The next mover: the event loop, the reader, or the connection with its peer. -/
inductive SessionAct (F : Type) where
  | loop
  | read
  | conn (a : AppAct F)

namespace Session

/-- `server_event_loop` takes the next event or goes on in its handler. -/
def eventLoop (k : SessionSetup F) (s : Session F) : Option (Session F) :=
  match s.cm with
  | .listening => some { s with buffer := some k.addr, cm := .register }
  | .register => some { s with
      conn := { s.conn with server := { s.conn.server with bufferMr := ⟨k.addr, k.rkey⟩ } },
      cm := .flag }
  | .flag => some { s with bufRegistered := true, cm := .postRecv }
  | .postRecv => some { s with
      conn := { s.conn with serverRecvs := s.conn.serverRecvs + 1 }, cm := .accepted }
  | .accepted => some { s with
      conn := { s.conn with
        server := { s.conn.server with msg := ⟨.mr, s.conn.server.bufferMr⟩ },
        msgs := s.conn.msgs ++ [⟨.mr, s.conn.server.bufferMr⟩] },
      cm := .connected }
  | .connected => some { s with cm := .deregBuffer }
  | .deregBuffer => some { s with cm := .deregMsg }
  | .deregMsg => some { s with cm := .freeBuffer }
  | .freeBuffer => some { s with cm := .freeMsg }
  | .freeMsg => some { s with cm := .closed }
  | .closed => none

/-- `rdma_recvTd`.  What it decodes is left out. -/
def rdmaRecvTd (p : Program) (s : Session F) : Option (Session F) :=
  match s.recvPc with
  | .wait => if s.bufRegistered then some { s with recvPc := .test } else none
  | .test =>
      if p.nothingNew s.recved s.conn.server.bufRecvCounter then none
      else some { s with recvPc := .load }
  | .load => some { s with recvPc := .decodeP s.buffer }
  | .decodeP buf => some { s with recvPc := .decodeQ buf }
  | .decodeQ _ => some { s with recvPc := .count }
  | .count => some { s with recved := s.recved + 1, recvPc := .flag }
  | .flag => some { s with conn := s.conn.ack, recvPc := .test }

/-- Nothing is delivered through, or posted to, a destroyed queue pair. -/
def usable (s : Session F) : AppAct F → Bool
  | .conn .deliver | .conn .deliverMsg => s.cm.qp
  | .conn .server =>
      match s.conn.serverPc with
      | .postRecv _ | .send => s.cm.qp
      | _ => true
  | _ => true

/-- Where a step of the connection writes. -/
def target (s : Session F) : AppAct F → Option ℕ
  | .conn .deliver => some s.conn.server.bufferMr.addr
  | _ => s.written

/-- The next step. -/
def step [Region F] (k : SessionSetup F) (s : Session F) : SessionAct F → Option (Session F)
  | .loop => s.eventLoop k
  | .read => s.rdmaRecvTd k.program
  | .conn a =>
      if s.usable a then
        (s.conn.appStep a).map fun c => { s with conn := c, written := s.target a }
      else none

/-- The frames counted and not consumed, and one that is about to be counted. -/
def unread (s : Session F) : ℤ :=
  s.conn.counted + s.conn.serverPc.counting - (s.recved + 1)

/-- `RDMA_CM_EVENT_DISCONNECTED` is handled only when nothing is unread. -/
def Drained (s : Session F) : SessionAct F → Prop
  | .loop => s.cm = .connected → s.unread = 0
  | _ => True

instance (s : Session F) : (a : SessionAct F) → Decidable (s.Drained a)
  | .loop => inferInstanceAs (Decidable (s.cm = .connected → s.unread = 0))
  | .read | .conn _ => .isTrue trivial

/-- A counted frame that is not consumed, and a frame that is being decoded, is in
the allocated buffer, where it was written. -/
structure Readable (s : Session F) : Prop where
  counted : s.recved + 1 < s.conn.counted →
    s.cm.live = true ∧ ∃ a, s.buffer = some a ∧ s.written = some a
  decode : ∀ buf, s.recvPc.pointer? = some buf →
    s.cm.live = true ∧ ∃ a, buf = some a ∧ s.buffer = some a ∧ s.written = some a

end Session

/-! ## The server side of a connection -/

namespace Conn

variable {c c' : Conn F}

/-- What a step leaves alone when it is not a step of the server side. -/
structure SameServer (c c' : Conn F) : Prop where
  recvs : c'.serverRecvs = c.serverRecvs
  cq : c'.serverCq = c.serverCq
  pc : c'.serverPc = c.serverPc
  counted : c'.counted = c.counted
  region : c'.server.bufferMr = c.server.bufferMr

theorem appStep_server [Region F] {a : AppAct F} (hs : c.appStep a = some c')
    (hserver : a ≠ .conn .server) (hdeliver : a ≠ .conn .deliver) : SameServer c c' := by
  cases a with
  | canSend b | canRecv b | fill f | setLen len =>
      exact Option.some.inj hs ▸ ⟨rfl, rfl, rfl, rfl, rfl⟩
  | conn b =>
      have hstep : c.step b = some c' := hs
      cases b with
      | server => exact absurd rfl hserver
      | deliver => exact absurd rfl hdeliver
      | client | nicRead | deliverMsg => cases step_cases hstep <;> exact ⟨rfl, rfl, rfl, rfl, rfl⟩

end Conn

/-! ## Invariants -/

namespace Session

variable {k : SessionSetup F} {s t : Session F}

/-- What holds in every run. -/
structure Staged (k : SessionSetup F) (s : Session F) : Prop where
  fresh : s.cm.fresh = true → s.conn.serverRecvs = 0 ∧ s.conn.serverCq = [] ∧
    s.conn.serverPc = .poll ∧ s.conn.counted = 0
  buffer : s.cm ≠ .listening → s.buffer = some k.addr
  region : s.cm ≠ .listening → s.cm ≠ .register → s.conn.server.bufferMr.addr = k.addr
  arrived : s.conn.serverCq ≠ [] ∨ s.conn.serverPc ≠ .poll ∨ 0 < s.conn.counted →
    s.written = some k.addr
  nonneg : 0 ≤ s.recved + 1
  reads : s.recved + 1 + s.recvPc.reading ≤ s.conn.counted
  pointer : ∀ buf, s.recvPc.pointer? = some buf → buf = s.buffer

theorem Staged.not_listening (h : s.Staged k) (hpos : 0 < s.conn.counted) : s.cm ≠ .listening := by
  intro hcm
  have h0 := (h.fresh (by simp [hcm])).2.2.2
  omega

theorem Staged.loop (h : s.Staged k) (hs : s.eventLoop k = some t) : t.Staged k := by
  obtain ⟨hfresh, hbuf, hregion, harr, hnn, hreads, hptr⟩ := h
  rw [eventLoop] at hs
  cases hcm : s.cm with
  | listening =>
      simp only [hcm, Option.some.injEq] at hs
      subst hs
      obtain ⟨hr, hcq, hpc, h0⟩ := hfresh (by simp [hcm])
      refine ⟨fun _ => ⟨hr, hcq, hpc, h0⟩, fun _ => rfl, fun _ h => absurd rfl h, harr, hnn,
        hreads, ?_⟩
      -- nothing is counted, so nothing is decoded
      intro buf hb
      have hreading : s.recvPc.reading = 1 := ReadPc.reading_of_pointer hb
      omega
  | register =>
      simp only [hcm, Option.some.injEq] at hs
      subst hs
      exact ⟨fun _ => hfresh (by simp [hcm]), fun _ => hbuf (by simp [hcm]), fun _ _ => rfl, harr,
        hnn, hreads, hptr⟩
  | flag =>
      simp only [hcm, Option.some.injEq] at hs
      subst hs
      exact ⟨fun _ => hfresh (by simp [hcm]), fun _ => hbuf (by simp [hcm]),
        fun _ _ => hregion (by simp [hcm]) (by simp [hcm]), harr, hnn, hreads, hptr⟩
  | postRecv | accepted | connected | deregBuffer | deregMsg | freeBuffer | freeMsg =>
      simp only [hcm, Option.some.injEq] at hs
      subst hs
      exact ⟨nofun, fun _ => hbuf (by simp [hcm]),
        fun _ _ => hregion (by simp [hcm]) (by simp [hcm]), harr, hnn, hreads, hptr⟩
  | closed => simp [hcm] at hs

theorem Staged.read {p : Program} (h : s.Staged k) (hs : s.rdmaRecvTd p = some t) :
    t.Staged k := by
  obtain ⟨hfresh, hbuf, hregion, harr, hnn, hreads, hptr⟩ := h
  rw [rdmaRecvTd] at hs
  cases hpc : s.recvPc with
  | wait =>
      simp only [hpc] at hs hreads
      obtain ⟨-, hs⟩ := Option.ite_none_right_eq_some.mp hs
      exact Option.some.inj hs ▸ ⟨hfresh, hbuf, hregion, harr, hnn, hreads, nofun⟩
  | test =>
      simp only [hpc] at hs
      obtain ⟨hnew, hs⟩ := Option.ite_none_left_eq_some.mp hs
      obtain rfl := Option.some.inj hs
      refine ⟨hfresh, hbuf, hregion, harr, hnn, ?_, nofun⟩
      show s.recved + 1 + (1 : ℕ) ≤ s.conn.server.bufRecvCounter
      cases p <;> simp only [Program.nothingNew, decide_eq_true_eq] at hnew <;> omega
  | load =>
      simp only [hpc, Option.some.injEq] at hs hreads
      subst hs
      refine ⟨hfresh, hbuf, hregion, harr, hnn, hreads, fun buf hb => ?_⟩
      exact (Option.some.inj hb).symm
  | decodeP buf =>
      simp only [hpc, Option.some.injEq] at hs hreads
      subst hs
      refine ⟨hfresh, hbuf, hregion, harr, hnn, hreads, fun buf' hb => ?_⟩
      exact hptr buf' (by rw [hpc]; exact hb)
  | decodeQ buf =>
      simp only [hpc, Option.some.injEq] at hs hreads
      exact hs ▸ ⟨hfresh, hbuf, hregion, harr, hnn, hreads, nofun⟩
  | count =>
      simp only [hpc, Option.some.injEq, ReadPc.reading] at hs hreads
      subst hs
      refine ⟨hfresh, hbuf, hregion, harr, ?_, ?_, nofun⟩
      · show 0 ≤ s.recved + 1 + 1
        omega
      · show s.recved + 1 + 1 + (0 : ℕ) ≤ s.conn.counted
        omega
  | flag =>
      simp only [hpc, Option.some.injEq, ReadPc.reading] at hs hreads
      exact hs ▸ ⟨hfresh, hbuf, hregion, harr, hnn, hreads, nofun⟩

theorem Staged.sameServer {c : Conn F} {w : Option ℕ} (h : s.Staged k)
    (hc : s.conn.SameServer c) (hw : w = s.written) :
    Staged k { s with conn := c, written := w } := by
  obtain ⟨hfresh, hbuf, hregion, harr, hnn, hreads, hptr⟩ := h
  obtain ⟨hrecvs, hcq, hpc, hcounted, hmr⟩ := hc
  subst hw
  refine ⟨?_, hbuf, ?_, ?_, hnn, ?_, hptr⟩
  · rw [hrecvs, hcq, hpc, hcounted]
    exact hfresh
  · rw [hmr]
    exact hregion
  · rw [hcq, hpc, hcounted]
    exact harr
  · rw [hcounted]
    exact hreads

variable [Region F]

/-- The handler takes up only what has arrived. -/
theorem Staged.server {c : Conn F} (h : s.Staged k) (hs : s.conn.step .server = some c) :
    Staged k { s with conn := c } := by
  have hcnt := Conn.counted_step hs
  obtain ⟨hfresh, hbuf, hregion, harr, hnn, hreads, hptr⟩ := h
  have hactive : s.conn.serverPc ≠ .poll ∨ s.conn.serverCq ≠ [] := by
    cases Conn.step_cases hs with
    | pollZero _ hcq | pollWrite _ hcq _ => exact .inr (by simp [hcq])
    | _ => exact .inl (by simp [*])
  have hw : s.written = some k.addr := by
    rcases hactive with hpc | hcq
    · exact harr (.inr (.inl hpc))
    · exact harr (.inl hcq)
  have hstale : s.cm.fresh = true → False := by
    intro hf
    obtain ⟨-, hcq, hpc, -⟩ := hfresh hf
    rcases hactive with hne | hne
    · exact hne hpc
    · exact hne hcq
  have hmr : c.server.bufferMr = s.conn.server.bufferMr := by
    cases Conn.step_cases hs <;> rfl
  refine ⟨fun hf => (hstale hf).elim, hbuf, ?_, fun _ => hw, hnn, hreads.trans hcnt, hptr⟩
  rw [hmr]
  exact hregion

/-- A write needs a posted receive, so it lands after the set-up. -/
theorem Staged.deliver {c : Conn F} (h : s.Staged k) (hs : s.conn.step .deliver = some c) :
    Staged k { s with conn := c, written := some s.conn.server.bufferMr.addr } := by
  obtain ⟨hfresh, hbuf, hregion, harr, hnn, hreads, hptr⟩ := h
  cases Conn.step_cases hs with
  | deliver hw hrecvs =>
      have hstale : s.cm.fresh = true → False := by
        intro hf
        have h0 := (hfresh hf).1
        omega
      have haddr : s.conn.server.bufferMr.addr = k.addr := by
        refine hregion ?_ ?_ <;> intro hcm <;> exact hstale (by simp [hcm])
      refine ⟨fun hf => (hstale hf).elim, hbuf, hregion, fun _ => ?_, hnn, hreads, hptr⟩
      rw [haddr]

theorem Staged.step {a : SessionAct F} (h : s.Staged k) (hs : s.step k a = some t) :
    t.Staged k := by
  cases a with
  | loop => exact h.loop hs
  | read => exact h.read hs
  | conn a =>
      obtain ⟨-, hs⟩ := Option.ite_none_right_eq_some.mp hs
      obtain ⟨c, hc, rfl⟩ := Option.map_eq_some_iff.mp hs
      by_cases hserver : a = .conn .server
      · subst hserver
        exact h.server hc
      · by_cases hdeliver : a = .conn .deliver
        · subst hdeliver
          exact h.deliver hc
        · have htarget : s.target a = s.written := by
            cases a with
            | conn b => cases b <;> first | rfl | exact absurd rfl hdeliver
            | _ => rfl
          exact h.sameServer (Conn.appStep_server hc hserver hdeliver) htarget

/-! ## After the disconnection -/

/-- Nothing is unread once the disconnection is handled. -/
def Quiet (s : Session F) : Prop := s.cm.qp = false → s.cm ≠ .listening → s.unread = 0

theorem Quiet.step {a : SessionAct F} (h : s.Staged k) (hq : s.Quiet) (hg : s.Drained a)
    (hs : s.step k a = some t) : t.Quiet := by
  cases a with
  | loop =>
      intro hqp hne
      simp only [Session.step, eventLoop] at hs
      cases hcm : s.cm <;> simp only [hcm, Option.some.injEq, reduceCtorEq] at hs <;> subst hs <;>
        simp only [ServerCm.qp, Bool.true_eq_false] at hqp
      case connected => exact hg hcm
      all_goals exact hq (by simp [hcm]) (by simp [hcm])
  | read =>
      have hreads := h.reads
      simp only [Session.step, rdmaRecvTd] at hs
      cases hpc : s.recvPc with
      | wait =>
          simp only [hpc] at hs
          obtain ⟨-, hs⟩ := Option.ite_none_right_eq_some.mp hs
          exact Option.some.inj hs ▸ hq
      | test =>
          simp only [hpc] at hs
          obtain ⟨-, hs⟩ := Option.ite_none_left_eq_some.mp hs
          exact Option.some.inj hs ▸ hq
      | load | decodeP | decodeQ | flag =>
          simp only [hpc, Option.some.injEq] at hs
          exact hs ▸ hq
      | count =>
          -- a frame that is being consumed is unread
          simp only [hpc, Option.some.injEq, ReadPc.reading] at hs hreads
          subst hs
          intro hqp hne
          have h0 := hq hqp hne
          rw [unread] at h0
          omega
  | conn a =>
      obtain ⟨huse, hs⟩ := Option.ite_none_right_eq_some.mp hs
      obtain ⟨c, hc, rfl⟩ := Option.map_eq_some_iff.mp hs
      intro hqp hne
      have h0 := hq hqp hne
      by_cases hserver : a = .conn .server
      · subst hserver
        have hstep : s.conn.step .server = some c := hc
        cases Conn.step_cases hstep with
        | postRecv hpc =>
            have hdead : s.cm.qp = true := by simpa [usable, hpc] using huse
            exact absurd (hdead.symm.trans hqp) (by simp)
        | countRecv hpc =>
            simp only [unread, hpc, ServerPc.counting, Conn.counted] at h0 ⊢
            omega
        | pollZero hpc _ | pollWrite hpc _ _ | zeroReady hpc | setLen hpc | testRecvZero hpc _
        | testRecv hpc _ _ | setReady hpc | send hpc =>
            simpa [unread, hpc, Conn.counted] using h0
      · by_cases hdeliver : a = .conn .deliver
        · subst hdeliver
          have hstep : s.conn.step .deliver = some c := hc
          cases Conn.step_cases hstep
          exact h0
        · obtain ⟨-, -, hpc, hcounted, -⟩ := Conn.appStep_server hc hserver hdeliver
          rw [unread, hpc, hcounted]
          exact h0

omit [Region F] in
/-- As long as something is unread the buffer is there. -/
theorem Staged.readable (h : s.Staged k) (hq : s.Quiet) : s.Readable := by
  have hreads := h.reads
  have hcounted : s.recved + 1 < s.conn.counted →
      s.cm.live = true ∧ s.buffer = some k.addr ∧ s.written = some k.addr := by
    intro hlt
    have hnn := h.nonneg
    have hpos : 0 < s.conn.counted := by omega
    have hne := h.not_listening hpos
    have hqp : s.cm.qp = true := by
      by_contra hqp
      have h0 := hq (Bool.eq_false_iff.mpr hqp) hne
      rw [unread] at h0
      omega
    refine ⟨?_, h.buffer hne, h.arrived (.inr (.inr hpos))⟩
    cases hcm : s.cm <;> simp [hcm] at hqp ⊢
  constructor
  · intro hlt
    obtain ⟨hlive, hbuf, hw⟩ := hcounted hlt
    exact ⟨hlive, _, hbuf, hw⟩
  · intro buf hb
    have hreading : s.recvPc.reading = 1 := ReadPc.reading_of_pointer hb
    obtain ⟨hlive, hbuf, hw⟩ := hcounted (by omega)
    exact ⟨hlive, _, (h.pointer buf hb).trans hbuf, hbuf, hw⟩

end Session

/-! ## Every run -/

namespace SessionSetup

variable [Region F] (k : SessionSetup F)

/-- The session before `RDMA_CM_EVENT_CONNECT_REQUEST`. -/
def start : Session F where
  conn := { Conn.established k.sendBuffer k.recvBuffer 0 ⟨0, 0⟩ k.canRecv with
    serverRecvs := 0, msgs := [] }
  cm := .listening
  buffer := none
  bufRegistered := false
  written := none
  recved := -1
  recvPc := .wait

def system : System (Session F) (SessionAct F) where
  init s := s = k.start
  step := Session.step k

variable {k} {s t : Session F} {a : SessionAct F}

theorem staged (h : k.system.Reachable s) : s.Staged k := by
  refine h.invariant (I := Session.Staged k) ?_ fun _ _ _ _ hi _ hs => hi.step hs
  rintro s rfl
  exact ⟨fun _ => ⟨rfl, rfl, rfl, rfl⟩, fun h => absurd rfl h, fun h => absurd rfl h,
    by simp [start, Conn.established, Conn.counted], le_rfl, le_rfl, nofun⟩

theorem quiet (h : k.system.Via Session.Drained s) : s.Quiet := by
  refine h.invariant (I := Session.Quiet) ?_ ?_
  · rintro s rfl
    exact fun _ hne => absurd rfl hne
  · intro s a t hr hi hg hs
    exact hi.step (staged hr.reachable) hg hs

/-- The event loop can release the buffer at once. -/
theorem released_unread (hcm : s.cm = .deregBuffer) (hlt : s.recved + 1 < s.conn.counted) :
    ∃ u, k.system.run s [.loop, .loop, .loop] = some u ∧ ¬ u.Readable := by
  simp only [System.run, system, Session.step, Session.eventLoop, hcm, Option.bind_some]
  refine ⟨_, rfl, fun h => ?_⟩
  obtain ⟨hlive, -⟩ := h.counted hlt
  simp at hlive

/-- And the handler can count the frame then. -/
theorem released_uncounted (hcm : s.cm = .deregBuffer) (hle : s.recved + 1 ≤ s.conn.counted)
    (hpc : s.conn.serverPc.counting = 1) :
    ∃ as u, k.system.run s as = some u ∧ ¬ u.Readable := by
  cases hp : s.conn.serverPc with
  | setLen n =>
      refine ⟨[.loop, .loop, .loop, .conn (.conn .server), .conn (.conn .server)], ?_⟩
      simp only [System.run, system, Session.step, Session.eventLoop, hcm, Option.bind_some,
        Session.usable, hp, if_true, Conn.appStep, Conn.step, Conn.serverOnCompletion,
        Option.map_some]
      refine ⟨_, rfl, fun h => ?_⟩
      obtain ⟨hlive, -⟩ := h.counted (Int.lt_add_one_of_le hle)
      simp at hlive
  | count n =>
      refine ⟨[.loop, .loop, .loop, .conn (.conn .server)], ?_⟩
      simp only [System.run, system, Session.step, Session.eventLoop, hcm, Option.bind_some,
        Session.usable, hp, if_true, Conn.appStep, Conn.step, Conn.serverOnCompletion,
        Option.map_some]
      refine ⟨_, rfl, fun h => ?_⟩
      obtain ⟨hlive, -⟩ := h.counted (Int.lt_add_one_of_le hle)
      simp at hlive
  | poll | zero | postRecv | waitRecv | setReady | send => simp [hp] at hpc

/-- Where the disconnection is handled with something unread, the event loop can
go on and release a frame that is counted and not consumed. -/
theorem released_early (h : s.Staged k) (hs : k.system.step s a = some t) (hg : ¬ s.Drained a) :
    ∃ as u, k.system.run t as = some u ∧ ¬ u.Readable := by
  cases a with
  | read => exact absurd trivial hg
  | conn a => exact absurd trivial hg
  | loop =>
      obtain ⟨hcm, hne⟩ := Classical.not_imp.mp hg
      have hreads := h.reads
      have hcounting : s.conn.serverPc.counting ≤ 1 := by cases s.conn.serverPc <;> simp
      rw [Session.unread] at hne
      simp only [system, Session.step, Session.eventLoop, hcm, Option.some.injEq] at hs
      subst hs
      rcases lt_or_ge (s.recved + 1) s.conn.counted with hlt | hle
      · obtain ⟨u, hu, hr⟩ := released_unread (k := k) (s := { s with cm := .deregBuffer }) rfl hlt
        exact ⟨_, u, hu, hr⟩
      · have hread : s.recved + 1 ≤ s.conn.counted := by omega
        have hcount : s.conn.serverPc.counting = 1 := by omega
        exact released_uncounted (s := { s with cm := .deregBuffer }) rfl hread hcount

/-- In every run in which the disconnection is handled only when nothing is unread,
a counted frame stays readable until it is consumed, and so does a frame that is
decoded.  Where it is handled earlier, the event loop can release such a frame. -/
theorem counted_frame_readable (h : k.system.Via Session.Drained s) :
    s.Readable ∧ ∀ a t, k.system.step s a = some t → ¬ s.Drained a →
      ∃ as u, k.system.run t as = some u ∧ ¬ u.Readable := by
  have hst := staged h.reachable
  exact ⟨hst.readable (quiet h), fun a t hs hg => released_early hst hs hg⟩

/-- A worker with empty buffers, for the runs below. -/
def small : SessionSetup (ℕ → Bool) := ⟨.worker, 5, 1, fun _ => false, fun _ => false, false⟩

/-- The connection comes up, and a frame of one byte is written and counted. -/
def counted : List (SessionAct (ℕ → Bool) × ℕ) :=
  [(.loop, 5), (.conn (.setLen 1), 1), (.conn (.canSend true), 1), (.conn (.conn .deliverMsg), 1),
    (.conn (.conn .client), 6), (.conn (.conn .nicRead), 1), (.conn (.conn .deliver), 1),
    (.conn (.conn .server), 4)]

/-- The frame is counted and its decoder has started. -/
theorem counted_frame_readable_small : ∃ s, (s.recvPc = .decodeP (some 5) ∧
    s.conn.counted = 1 ∧ s.recved = -1) ∧ s.Readable ∧ small.system.Via Session.Drained s := by
  obtain ⟨s, hs, hp⟩ := (small.system.restrict Session.Drained).exists_reachable
    (System.script (counted ++ [(.read, 3)]))
    (fun s => s.recvPc = .decodeP (some 5) ∧ s.conn.counted = 1 ∧ s.recved = -1) rfl (by decide)
  have hvia := System.via_of_restrict hs
  exact ⟨s, hp, (counted_frame_readable hvia).1, hvia⟩

/-- The peer leaves after its write.  The buffer is released under the decoder. -/
theorem released_under_decoder : ∃ s, small.system.Reachable s ∧
    (s.recvPc = .decodeP (some 5) ∧ s.conn.counted = 1 ∧ s.recved = -1 ∧ s.cm = .freeMsg) ∧
    ¬ s.Readable := by
  obtain ⟨s, hs, hp⟩ := small.system.exists_reachable
    (System.script (counted ++ [(.read, 3), (.loop, 4)]))
    (fun s => s.recvPc = .decodeP (some 5) ∧ s.conn.counted = 1 ∧ s.recved = -1 ∧
      s.cm = .freeMsg) rfl (by decide)
  refine ⟨s, hs, hp, fun h => ?_⟩
  obtain ⟨hlive, -⟩ := h.decode (some 5) (by rw [hp.1]; rfl)
  simp [hp.2.2.2] at hlive

end SessionSetup

end StellarBench
