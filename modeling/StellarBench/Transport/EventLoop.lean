import StellarBench.Transport.OneToken

/-!
# The event loops of a connection

`client_event_loop` and `server_event_loop` do the same for every event but
`RDMA_CM_EVENT_ESTABLISHED`, on which the server sends `MSG_MR`.  An event that they do
not name ends the process, and so does a failure of nearly every call.

`Opening` is a connection from `rdma_resolve_addr` on, with both loops, what librdmacm
has still to do, and the threads of both applications.  It ends before
`RDMA_CM_EVENT_DISCONNECTED`.
-/

namespace StellarBench

/-! ## Event loops -/

/-- The CM events before a disconnection.  `other` is any that the loops do not name. -/
inductive LoopEvent where
  | addrResolved | routeResolved | connectRequest | established | other
deriving DecidableEq, Repr

/-- The last call of a handler that has run `client_on_pre_conn` or
`server_on_pre_conn`. -/
inductive LastCall where
  | resolveRoute | accept
deriving DecidableEq, Repr

/-- Where an event loop stands. -/
inductive LoopPc where
  /-- In `rdma_get_cm_event`. -/
  | get
  /-- Before `client_build_connection` or `server_build_connection`. -/
  | build (last : LastCall)
  /-- Before `posix_memalign` of the buffer. -/
  | alloc (last : LastCall)
  /-- Before `ibv_reg_mr` of the buffer. -/
  | register (last : LastCall)
  /-- Before `buf_registered = true`. -/
  | flag (last : LastCall)
  /-- Before `client_post_receive` or `server_post_receive`. -/
  | postRecv (last : LastCall)
  | call (last : LastCall)
  /-- Before `rdma_connect`. -/
  | connect
  /-- Before the stores of `server_on_connection`. -/
  | name
  /-- Before `server_send_message`. -/
  | send
  /-- After `rc_die`. -/
  | dead
deriving DecidableEq, Repr

/-- A failure of the call that comes next ends the process, by `TEST_NZ` or `TEST_Z`.
The result of `posix_memalign` is not tested. -/
def LoopPc.tested : LoopPc → Bool
  | .build _ | .register _ | .postRecv _ | .call _ | .connect | .send => true
  | .get | .alloc _ | .flag _ | .name | .dead => false

/-- What librdmacm and the network still have to do. -/
inductive CmWork where
  | resolveAddr | resolveRoute | request | reply | ready
deriving DecidableEq, Repr

/-- An event loop, the events of its channel, and what it has done to its buffer. -/
structure Endpoint where
  pc : LoopPc
  events : List LoopEvent
  allocated : Bool
  bufRegistered : Bool
deriving DecidableEq, Repr

namespace Endpoint

/-- An event comes to the channel. -/
def tell (ev : LoopEvent) (e : Endpoint) : Endpoint := { e with events := e.events ++ [ev] }

/-- The branch of an event. -/
def branch (onEstablished : LoopPc) : LoopEvent → LoopPc
  | .addrResolved => .build .resolveRoute
  | .routeResolved => .connect
  | .connectRequest => .build .accept
  | .established => onEstablished
  | .other => .dead

/-- The next step of an event loop, with what it asks of librdmacm. -/
def eventLoop (onEstablished : LoopPc) (e : Endpoint) : Option (Endpoint × List CmWork) :=
  match e.pc with
  | .get =>
      match e.events with
      | [] => none
      | ev :: evs => some ({ e with events := evs, pc := branch onEstablished ev }, [])
  | .build last => some ({ e with pc := .alloc last }, [])
  | .alloc last => some ({ e with allocated := true, pc := .register last }, [])
  | .register last => some ({ e with pc := .flag last }, [])
  | .flag last => some ({ e with bufRegistered := true, pc := .postRecv last }, [])
  | .postRecv last => some ({ e with pc := .call last }, [])
  | .call .resolveRoute => some ({ e with pc := .get }, [.resolveRoute])
  | .call .accept => some ({ e with pc := .get }, [.reply])
  | .connect => some ({ e with pc := .get }, [.request])
  | .name => some ({ e with pc := .send }, [])
  | .send => some ({ e with pc := .get }, [])
  | .dead => none

end Endpoint

/-! ## Opening a connection -/

/-- A connection with both event loops. -/
structure Opening (F : Type) where
  conn : Conn F
  client : Endpoint
  server : Endpoint
  /-- `rc_server_loop` is past `rdma_listen`. -/
  listening : Bool
  work : List CmWork

/-- Who takes the next step: an event loop, librdmacm with what it does or reports or
fails to do, or the connection and its applications. -/
inductive OpeningAct (F : Type) where
  | client
  | server
  | listen
  | cm
  | clientOther
  | serverOther
  | clientFails
  | serverFails
  | app (a : AppAct F)

/-- An act of the two event loops and of librdmacm that is no failure. -/
def OpeningAct.opens {F : Type} : OpeningAct F → Bool
  | .client | .server | .cm => true
  | _ => false

/-- The act of the connection that an act of the opening is. -/
def OpeningAct.app? {F : Type} : OpeningAct F → Option (AppAct F)
  | .app a => some a
  | _ => none

namespace Opening

variable {F : Type}

/-- What `client_event_loop` does to the connection. -/
def clientDoes : LoopPc → Conn F → Conn F
  | .postRecv _, c => { c with clientRecvs := c.clientRecvs + 1 }
  | _, c => c

/-- What `server_event_loop` does to the connection.  `mr` is its region. -/
def serverDoes (mr : Mr) : LoopPc → Conn F → Conn F
  | .register _, c => { c with server := { c.server with bufferMr := mr } }
  | .postRecv _, c => { c with serverRecvs := c.serverRecvs + 1 }
  | .name, c => { c with server := { c.server with msg := ⟨.mr, c.server.bufferMr⟩ } }
  | .send, c => { c with msgs := c.msgs ++ [c.server.msg] }
  | _, c => c

/-- `client_event_loop`. -/
def clientEventLoop (o : Opening F) : Option (Opening F) :=
  (o.client.eventLoop .get).map fun r =>
    { o with client := r.1, conn := clientDoes o.client.pc o.conn, work := o.work ++ r.2 }

/-- `server_event_loop`. -/
def serverEventLoop (mr : Mr) (o : Opening F) : Option (Opening F) :=
  (o.server.eventLoop .name).map fun r =>
    { o with server := r.1, conn := serverDoes mr o.server.pc o.conn, work := o.work ++ r.2 }

/-- librdmacm does the oldest thing it was asked for.  A request to a port without a
listener is rejected. -/
def network (o : Opening F) : Option (Opening F) :=
  match o.work with
  | [] => none
  | .resolveAddr :: ws => some { o with work := ws, client := o.client.tell .addrResolved }
  | .resolveRoute :: ws => some { o with work := ws, client := o.client.tell .routeResolved }
  | .request :: ws =>
      if o.listening then some { o with work := ws, server := o.server.tell .connectRequest }
      else some { o with work := ws, client := o.client.tell .other }
  | .reply :: ws =>
      some { o with work := ws ++ [.ready], client := o.client.tell .established }
  | .ready :: ws => some { o with work := ws, server := o.server.tell .established }

/-- The process of the act lives, and the send buffer is filled only where there is one. -/
def allows (o : Opening F) : AppAct F → Bool
  | .canSend _ | .setLen _ | .conn .client => o.client.pc ≠ .dead
  | .fill _ => o.client.allocated && o.client.pc ≠ .dead
  | .canRecv _ | .conn .server => o.server.pc ≠ .dead
  | .conn .nicRead | .conn .deliver | .conn .deliverMsg => true

/-- The next step. -/
def step [Region F] (mr : Mr) (o : Opening F) : OpeningAct F → Option (Opening F)
  | .client => o.clientEventLoop
  | .server => if o.listening then o.serverEventLoop mr else none
  | .listen => if o.listening then none else some { o with listening := true }
  | .cm => o.network
  | .clientOther => some { o with client := o.client.tell .other }
  | .serverOther =>
      if o.listening then some { o with server := o.server.tell .other } else none
  | .clientFails =>
      if o.client.pc.tested then some { o with client := { o.client with pc := .dead } } else none
  | .serverFails =>
      if o.server.pc.tested then some { o with server := { o.server with pc := .dead } } else none
  | .app a =>
      if o.allows a then (o.conn.appStep a).map fun c => { o with conn := c } else none

end Opening

namespace ConnSetup

variable {F : Type}

/-- The connection before anything is posted or named. -/
def blank (k : ConnSetup F) : Conn F :=
  { k.start with
    clientRecvs := 0, serverRecvs := 0, msgs := []
    server := { k.start.server with bufferMr := ⟨0, 0⟩, msg := ⟨.invalid, ⟨0, 0⟩⟩ } }

/-- The connection from `rdma_resolve_addr` on. -/
def opening [Region F] (k : ConnSetup F) : System (Opening F) (OpeningAct F) where
  init o := o = ⟨k.blank, ⟨.get, [], false, false⟩, ⟨.get, [], false, false⟩, false, [.resolveAddr]⟩
  step := Opening.step k.mr

end ConnSetup

end StellarBench
