import StellarBench.Lib.System

/-!
# One connection of the two-sided transport

A connection has a client, which owns a send buffer and writes it into the
memory of its peer by RDMA, and a server, which owns the receive buffer.
`RdmaTwoSidedClientOp::client_on_completion` and
`RdmaTwoSidedServerOp::server_on_completion` run in one completion poller each.
Both are modelled as a program counter that takes one access to shared memory at
a time.  The application threads are not part of a connection.  They change it
through `modifyBuffer`, `setBufLen`, `announce` and `ack`.

The network keeps posted writes and control messages in the order of posting and
loses none.  A write is delivered only into a posted receive and only at the
region its key names.  A delivered message needs a posted receive as well.
Completions of sends are left out, since both handlers ignore them.
-/

namespace StellarBench

/-- `BUFFER_SIZE`. -/
def bufferSize : ℕ := 500 * 1024 * 1024

/-- A length that fits the buffer survives the immediate. -/
theorem immediate_of_le {len : ℕ} (h : len ≤ bufferSize) : len % 2 ^ 32 = len := by
  refine Nat.mod_eq_of_lt (h.trans_lt ?_)
  norm_num [bufferSize]

/-! ## Contexts and messages -/

/-- `enum message_id`. -/
inductive MessageId where
  | invalid | mr | ready | done
deriving DecidableEq, Repr

/-- The address and the key of a registered memory region. -/
structure Mr where
  addr : ℕ
  rkey : ℕ
deriving DecidableEq, Repr

/-- `struct message`.  The region stays in the union when only `id` is stored. -/
structure Message where
  id : MessageId
  mr : Mr
deriving DecidableEq, Repr

/-- `struct client_context`.  `peer` is the pair `peer_addr`, `peer_rkey`. -/
structure ClientContext (F : Type) where
  buffer : F
  bufLen : ℕ
  canSend : Bool
  bufWriteCounter : ℤ
  msg : Message
  peer : Mr

/-- `struct conn_context`.  `bufferMr` is the region registered for `buffer`. -/
structure ConnContext (F : Type) where
  buffer : F
  bufLen : ℕ
  canRecv : Bool
  bufRecvCounter : ℤ
  bufferMr : Mr
  msg : Message

/-- Memory that an RDMA write can copy. -/
class Region (F : Type) where
  /-- The target after `len` bytes of the source were written over it. -/
  write : (len : ℕ) → (src dst : F) → F

/-- Memory as bytes at offsets. -/
instance {β : Type} : Region (ℕ → β) where
  write len src dst := fun j => if j < len then src j else dst j

/-- A posted `IBV_WR_RDMA_WRITE_WITH_IMM`.  `len` is the immediate, and the
payload is there once the NIC has read the source buffer. -/
structure Write (F : Type) where
  remote : Mr
  len : ℕ
  payload : Option F

/-! ## Program counters -/

/-- Where `client_on_completion` stands. -/
inductive ClientPc where
  /-- In `ibv_poll_cq`. -/
  | poll
  /-- In the loop `while (ctx->can_send == false)`. -/
  | waitSend
  /-- Before `client_send_next_chunk`. -/
  | post
  /-- Before `ctx->can_send = false`. -/
  | clear
  /-- Before `ctx->buf_write_counter++`. -/
  | count
  /-- Before `client_post_receive`. -/
  | repost
  /-- After `rc_disconnect`. -/
  | closed
deriving DecidableEq, Repr

/-- Where `server_on_completion` stands.  `size` is the immediate it read. -/
inductive ServerPc where
  /-- In `ibv_poll_cq`. -/
  | poll
  /-- The branch `size == 0`, before its `ctx->msg->id = MSG_READY`. -/
  | zero
  /-- Before `server_post_receive`. -/
  | postRecv (size : ℕ)
  /-- Before `ctx->buf_len = size`. -/
  | setLen (size : ℕ)
  /-- Before `ctx->buf_recv_counter++`. -/
  | count (size : ℕ)
  /-- In the loop `while (ctx->can_recv == false)`. -/
  | waitRecv (size : ℕ)
  /-- The other branch, before its `ctx->msg->id = MSG_READY`. -/
  | setReady
  /-- Before `server_send_message`. -/
  | send
deriving DecidableEq, Repr

/-! ## The connection -/

/-- A connection: both contexts, both handlers, the posted receives, the
completions not yet polled, and what is on the wire, oldest first. -/
structure Conn (F : Type) where
  client : ClientContext F
  clientPc : ClientPc
  clientRecvs : ℕ
  clientCq : ℕ
  server : ConnContext F
  serverPc : ServerPc
  serverRecvs : ℕ
  serverCq : List ℕ
  writes : List (Write F)
  msgs : List Message

/-- Who takes the next step of a connection. -/
inductive ConnAct where
  /-- The handler of the client. -/
  | client
  /-- The handler of the server. -/
  | server
  /-- The NIC of the client reads the source of the oldest write. -/
  | nicRead
  /-- The NIC of the server places the oldest write. -/
  | deliver
  /-- The NIC of the client receives the oldest control message. -/
  | deliverMsg
deriving DecidableEq, Repr

namespace Conn

variable {F : Type}

/-- A connection after `server_on_connection`: each side has one receive posted
and `MSG_MR` is on its way to the client. -/
def established (buffer recvBuffer : F) (bufLen : ℕ) (mr : Mr) (canRecv : Bool) : Conn F where
  client := ⟨buffer, bufLen, false, 0, ⟨.invalid, ⟨0, 0⟩⟩, ⟨0, 0⟩⟩
  clientPc := .poll
  clientRecvs := 1
  clientCq := 0
  server := ⟨recvBuffer, 0, canRecv, 0, mr, ⟨.mr, mr⟩⟩
  serverPc := .poll
  serverRecvs := 1
  serverCq := []
  writes := []
  msgs := [⟨.mr, mr⟩]

/-! ### What the application does to its own side -/

/-- A store into the send buffer. -/
def modifyBuffer (f : F → F) (c : Conn F) : Conn F :=
  { c with client := { c.client with buffer := f c.client.buffer } }

/-- `c_ctx.buf_len = n`. -/
def setBufLen (n : ℕ) (c : Conn F) : Conn F :=
  { c with client := { c.client with bufLen := n } }

/-- `c_ctx.can_send = true`. -/
def announce (c : Conn F) : Conn F :=
  { c with client := { c.client with canSend := true } }

/-- `s_ctx.can_recv = true`. -/
def ack (c : Conn F) : Conn F :=
  { c with server := { c.server with canRecv := true } }

/-! ### The handlers -/

/-- `client_on_completion`, one access at a time.  `client_write_remote` takes
the length as a `uint32_t`. -/
def clientOnCompletion (c : Conn F) : Option (Conn F) :=
  match c.clientPc with
  | .poll =>
      match c.clientCq with
      | 0 => none
      | k + 1 =>
          match c.client.msg.id with
          | .mr => some { c with
              clientCq := k, client := { c.client with peer := c.client.msg.mr },
              clientPc := .waitSend }
          | .ready => some { c with clientCq := k, clientPc := .waitSend }
          | .done => some { c with clientCq := k, clientPc := .closed }
          | .invalid => some { c with clientCq := k, clientPc := .repost }
  | .waitSend => if c.client.canSend then some { c with clientPc := .post } else none
  | .post => some { c with
      writes := c.writes ++ [⟨c.client.peer, c.client.bufLen % 2 ^ 32, none⟩],
      clientPc := .clear }
  | .clear => some { c with
      client := { c.client with canSend := false }, clientPc := .count }
  | .count => some { c with
      client := { c.client with bufWriteCounter := c.client.bufWriteCounter + 1 },
      clientPc := .repost }
  | .repost => some { c with clientRecvs := c.clientRecvs + 1, clientPc := .poll }
  | .closed => none

/-- `server_on_completion`, one access at a time. -/
def serverOnCompletion (c : Conn F) : Option (Conn F) :=
  match c.serverPc with
  | .poll =>
      match c.serverCq with
      | [] => none
      | size :: rest => some { c with
          serverCq := rest, serverPc := if size = 0 then .zero else .postRecv size }
  | .zero => some { c with
      server := { c.server with msg := { c.server.msg with id := .ready } },
      serverPc := .postRecv 0 }
  | .postRecv size => some { c with serverRecvs := c.serverRecvs + 1, serverPc := .setLen size }
  | .setLen size => some { c with
      server := { c.server with bufLen := size }, serverPc := .count size }
  | .count size => some { c with
      server := { c.server with bufRecvCounter := c.server.bufRecvCounter + 1 },
      serverPc := .waitRecv size }
  | .waitRecv size =>
      if c.server.canRecv then
        some { c with serverPc := if size = 0 then .send else .setReady }
      else none
  | .setReady => some { c with
      server := { c.server with msg := { c.server.msg with id := .ready } },
      serverPc := .send }
  | .send => some { c with msgs := c.msgs ++ [c.server.msg], serverPc := .poll }

/-! ### The network -/

/-- The NIC reads the send buffer for the oldest posted write. -/
def nicRead (c : Conn F) : Option (Conn F) :=
  match c.writes with
  | ⟨mr, len, none⟩ :: ws => some { c with writes := ⟨mr, len, some c.client.buffer⟩ :: ws }
  | _ => none

/-- The oldest write is placed in the receive buffer and consumes a receive. -/
def deliver [Region F] (c : Conn F) : Option (Conn F) :=
  match c.writes with
  | ⟨mr, len, some src⟩ :: ws =>
      if 0 < c.serverRecvs ∧ mr = c.server.bufferMr then
        some { c with
          writes := ws, serverRecvs := c.serverRecvs - 1,
          server := { c.server with buffer := Region.write len src c.server.buffer },
          serverCq := c.serverCq ++ [len] }
      else none
  | _ => none

/-- The oldest control message is stored in `ctx->msg` and consumes a receive. -/
def deliverMsg (c : Conn F) : Option (Conn F) :=
  match c.msgs with
  | m :: ms =>
      if 0 < c.clientRecvs then
        some { c with
          msgs := ms, clientRecvs := c.clientRecvs - 1,
          client := { c.client with msg := m }, clientCq := c.clientCq + 1 }
      else none
  | [] => none

/-- The next step of a connection. -/
def step [Region F] (c : Conn F) : ConnAct → Option (Conn F)
  | .client => c.clientOnCompletion
  | .server => c.serverOnCompletion
  | .nicRead => c.nicRead
  | .deliver => c.deliver
  | .deliverMsg => c.deliverMsg

/-! ## Inversion of a step -/

/-- All a step of a connection can be, one constructor for each access. -/
inductive Step [Region F] (c : Conn F) : ConnAct → Conn F → Prop where
  | pollMr {k} : c.clientPc = .poll → c.clientCq = k + 1 → c.client.msg.id = .mr →
      c.Step .client { c with
        clientCq := k, client := { c.client with peer := c.client.msg.mr },
        clientPc := .waitSend }
  | pollReady {k} : c.clientPc = .poll → c.clientCq = k + 1 → c.client.msg.id = .ready →
      c.Step .client { c with clientCq := k, clientPc := .waitSend }
  | pollDone {k} : c.clientPc = .poll → c.clientCq = k + 1 → c.client.msg.id = .done →
      c.Step .client { c with clientCq := k, clientPc := .closed }
  | pollInvalid {k} : c.clientPc = .poll → c.clientCq = k + 1 → c.client.msg.id = .invalid →
      c.Step .client { c with clientCq := k, clientPc := .repost }
  | testSend : c.clientPc = .waitSend → c.client.canSend = true →
      c.Step .client { c with clientPc := .post }
  | post : c.clientPc = .post →
      c.Step .client { c with
        writes := c.writes ++ [⟨c.client.peer, c.client.bufLen % 2 ^ 32, none⟩],
        clientPc := .clear }
  | clear : c.clientPc = .clear →
      c.Step .client { c with client := { c.client with canSend := false }, clientPc := .count }
  | count : c.clientPc = .count →
      c.Step .client { c with
        client := { c.client with bufWriteCounter := c.client.bufWriteCounter + 1 },
        clientPc := .repost }
  | repost : c.clientPc = .repost →
      c.Step .client { c with clientRecvs := c.clientRecvs + 1, clientPc := .poll }
  | pollZero {rest} : c.serverPc = .poll → c.serverCq = 0 :: rest →
      c.Step .server { c with serverCq := rest, serverPc := .zero }
  | pollWrite {size rest} : c.serverPc = .poll → c.serverCq = size :: rest → size ≠ 0 →
      c.Step .server { c with serverCq := rest, serverPc := .postRecv size }
  | zeroReady : c.serverPc = .zero →
      c.Step .server { c with
        server := { c.server with msg := { c.server.msg with id := .ready } },
        serverPc := .postRecv 0 }
  | postRecv {size} : c.serverPc = .postRecv size →
      c.Step .server { c with serverRecvs := c.serverRecvs + 1, serverPc := .setLen size }
  | setLen {size} : c.serverPc = .setLen size →
      c.Step .server { c with
        server := { c.server with bufLen := size }, serverPc := .count size }
  | countRecv {size} : c.serverPc = .count size →
      c.Step .server { c with
        server := { c.server with bufRecvCounter := c.server.bufRecvCounter + 1 },
        serverPc := .waitRecv size }
  | testRecvZero : c.serverPc = .waitRecv 0 → c.server.canRecv = true →
      c.Step .server { c with serverPc := .send }
  | testRecv {size} : c.serverPc = .waitRecv size → size ≠ 0 → c.server.canRecv = true →
      c.Step .server { c with serverPc := .setReady }
  | setReady : c.serverPc = .setReady →
      c.Step .server { c with
        server := { c.server with msg := { c.server.msg with id := .ready } },
        serverPc := .send }
  | send : c.serverPc = .send →
      c.Step .server { c with msgs := c.msgs ++ [c.server.msg], serverPc := .poll }
  | nicRead {mr len ws} : c.writes = ⟨mr, len, none⟩ :: ws →
      c.Step .nicRead { c with writes := ⟨mr, len, some c.client.buffer⟩ :: ws }
  | deliver {len src ws} : c.writes = ⟨c.server.bufferMr, len, some src⟩ :: ws →
      0 < c.serverRecvs →
      c.Step .deliver { c with
        writes := ws, serverRecvs := c.serverRecvs - 1,
        server := { c.server with buffer := Region.write len src c.server.buffer },
        serverCq := c.serverCq ++ [len] }
  | deliverMsg {m ms} : c.msgs = m :: ms → 0 < c.clientRecvs →
      c.Step .deliverMsg { c with
        msgs := ms, clientRecvs := c.clientRecvs - 1,
        client := { c.client with msg := m }, clientCq := c.clientCq + 1 }

variable {c c' : Conn F}

theorem clientOnCompletion_cases [Region F] (h : c.clientOnCompletion = some c') :
    c.Step .client c' := by
  unfold clientOnCompletion at h
  cases hpc : c.clientPc with
  | poll =>
      cases hcq : c.clientCq with
      | zero => simp [hpc, hcq] at h
      | succ k =>
          cases hid : c.client.msg.id <;> simp only [hpc, hcq, hid, Option.some.injEq] at h <;>
            subst h
          · exact .pollInvalid hpc hcq hid
          · exact .pollMr hpc hcq hid
          · exact .pollReady hpc hcq hid
          · exact .pollDone hpc hcq hid
  | waitSend =>
      cases hcs : c.client.canSend <;> simp [hpc, hcs] at h
      subst h
      exact .testSend hpc hcs
  | post =>
      simp only [hpc, Option.some.injEq] at h
      exact h ▸ .post hpc
  | clear =>
      simp only [hpc, Option.some.injEq] at h
      exact h ▸ .clear hpc
  | count =>
      simp only [hpc, Option.some.injEq] at h
      exact h ▸ .count hpc
  | repost =>
      simp only [hpc, Option.some.injEq] at h
      exact h ▸ .repost hpc
  | closed => simp [hpc] at h

theorem serverOnCompletion_cases [Region F] (h : c.serverOnCompletion = some c') :
    c.Step .server c' := by
  unfold serverOnCompletion at h
  cases hpc : c.serverPc with
  | poll =>
      cases hcq : c.serverCq with
      | nil => simp [hpc, hcq] at h
      | cons size rest =>
          simp only [hpc, hcq, Option.some.injEq] at h
          subst h
          by_cases hz : size = 0
          · subst hz
            simpa using Step.pollZero hpc hcq
          · simpa [hz] using Step.pollWrite hpc hcq hz
  | zero =>
      simp only [hpc, Option.some.injEq] at h
      exact h ▸ .zeroReady hpc
  | postRecv size =>
      simp only [hpc, Option.some.injEq] at h
      exact h ▸ .postRecv hpc
  | setLen size =>
      simp only [hpc, Option.some.injEq] at h
      exact h ▸ .setLen hpc
  | count size =>
      simp only [hpc, Option.some.injEq] at h
      exact h ▸ .countRecv hpc
  | waitRecv size =>
      cases hcr : c.server.canRecv <;> simp [hpc, hcr] at h
      subst h
      by_cases hz : size = 0
      · subst hz
        simpa using Step.testRecvZero hpc hcr
      · simpa [hz] using Step.testRecv hpc hz hcr
  | setReady =>
      simp only [hpc, Option.some.injEq] at h
      exact h ▸ .setReady hpc
  | send =>
      simp only [hpc, Option.some.injEq] at h
      exact h ▸ .send hpc

/-- What `step` computes is one of the named steps. -/
theorem step_cases [Region F] {a : ConnAct} (h : c.step a = some c') : c.Step a c' := by
  cases a with
  | client => exact clientOnCompletion_cases h
  | server => exact serverOnCompletion_cases h
  | nicRead =>
      simp only [step, Conn.nicRead] at h
      split at h <;> simp only [Option.some.injEq, reduceCtorEq] at h
      next hw => exact h ▸ .nicRead hw
  | deliver =>
      simp only [step, Conn.deliver] at h
      split at h
      next hw =>
        split at h <;> simp only [Option.some.injEq, reduceCtorEq] at h
        next hc =>
          obtain ⟨hr, rfl⟩ := hc
          exact h ▸ .deliver hw hr
      next => cases h
  | deliverMsg =>
      simp only [step, Conn.deliverMsg] at h
      split at h
      next hm =>
        split at h <;> simp only [Option.some.injEq, reduceCtorEq] at h
        next hr => exact h ▸ .deliverMsg hm hr
      next => cases h

end Conn

end StellarBench
