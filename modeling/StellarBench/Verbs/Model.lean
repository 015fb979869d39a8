import StellarBench.Lib.Calls

/-!
# The verbs and the common functions

The calls of librdmacm and libibverbs that `server_rdma_op` and `client_rdma_op`
make, and the functions of `rdma_common.cpp` over them.  The replies are any that
the two libraries document.  The calls of librdmacm set `errno` when they fail.
Elsewhere the functions return an `errno` that may be zero.

A pointer is a number, and a member that may be NULL an `Option`.  A null pointer
that is dereferenced is a crash.
-/

namespace StellarBench.Verbs

/-- A pointer that is not NULL. -/
abbrev Ptr := ℕ

/-! ## Calls and replies -/

/-- `enum rdma_cm_event_type`, as far as it is named. -/
inductive CmEventType where
  | addrResolved
  | routeResolved
  | connectRequest
  | established
  | disconnected
  | other
deriving DecidableEq, Repr

/-- `struct rdma_cm_event` and where it is. -/
structure CmEvent where
  ptr : Ptr
  status : ℤ
  event : CmEventType
  id : Ptr
deriving DecidableEq, Repr

/-- What a region covers or `free` gets: a member, or a pointer of the caller. -/
inductive Addr where
  | clientMetadataAttr
  | serverMetadataAttr
  | buf (p : Option Ptr)
deriving DecidableEq, Repr

/-- `struct ibv_mr`. -/
structure Mr where
  ptr : Ptr
  addr : Addr
deriving DecidableEq, Repr

/-- The calls, with the objects they are about.  `errno` is a read of the variable,
and `leave` is none: it marks that a function which asks for events returns. -/
inductive Verb where
  | rdmaCreateEventChannel
  | rdmaCreateId (channel : Option Ptr)
  | rdmaBindAddr (id : Option Ptr)
  | rdmaListen (id : Option Ptr)
  | rdmaResolveAddr (id : Option Ptr)
  | rdmaResolveRoute (id : Option Ptr)
  | rdmaGetCmEvent (channel : Option Ptr)
  | rdmaAckCmEvent (event : Option Ptr)
  | rdmaCreateQp (id pd cq : Option Ptr)
  | rdmaAccept (id : Option Ptr)
  | rdmaConnect (id : Option Ptr)
  | rdmaDisconnect (id : Option Ptr)
  | rdmaDestroyQp (id : Option Ptr)
  | rdmaDestroyId (id : Option Ptr)
  | rdmaDestroyEventChannel (channel : Option Ptr)
  | ibvAllocPd (id : Option Ptr)
  | ibvDeallocPd (pd : Option Ptr)
  | ibvCreateCompChannel (id : Option Ptr)
  | ibvDestroyCompChannel (channel : Option Ptr)
  | ibvCreateCq (id channel : Option Ptr)
  | ibvDestroyCq (cq : Option Ptr)
  | ibvRegMr (pd : Ptr) (addr : Addr)
  | ibvDeregMr (mr : Mr)
  | ibvPostRecv (qp : Option Ptr)
  | ibvPostSend (qp : Option Ptr)
  | ibvReqNotifyCq (cq : Option Ptr)
  | ibvGetCqEvent (channel : Option Ptr)
  | ibvPollCq (cq : Ptr) (numEntries : ℕ)
  | ibvAckCqEvents (cq : Ptr) (nevents : ℕ)
  | free (addr : Addr)
  | errno
  | leave
deriving DecidableEq, Repr

/-- The replies.  `Except.error` has the `errno`, or the negated return value of
`ibv_poll_cq`.  A poll gives the statuses of the completions, where zero is
`IBV_WC_SUCCESS`. -/
abbrev Reply : Verb → Type
  | .rdmaCreateEventChannel => Except ℕ+ Ptr
  | .rdmaCreateId _ => Except ℕ+ Ptr
  | .rdmaBindAddr _ => Except ℕ+ Unit
  | .rdmaListen _ => Except ℕ+ Unit
  | .rdmaResolveAddr _ => Except ℕ+ Unit
  | .rdmaResolveRoute _ => Except ℕ+ Unit
  | .rdmaGetCmEvent _ => Except ℕ+ CmEvent
  | .rdmaAckCmEvent _ => Except ℕ+ Unit
  | .rdmaCreateQp _ _ _ => Except ℕ+ Ptr
  | .rdmaAccept _ => Except ℕ+ Unit
  | .rdmaConnect _ => Except ℕ+ Unit
  | .rdmaDisconnect _ => Except ℕ+ Unit
  | .rdmaDestroyQp _ => Unit
  | .rdmaDestroyId _ => Except ℕ+ Unit
  | .rdmaDestroyEventChannel _ => Unit
  | .ibvAllocPd _ => Option Ptr
  | .ibvDeallocPd _ => ℕ
  | .ibvCreateCompChannel _ => Option Ptr
  | .ibvDestroyCompChannel _ => ℕ
  | .ibvCreateCq _ _ => Option Ptr
  | .ibvDestroyCq _ => ℕ
  | .ibvRegMr _ _ => Option Ptr
  | .ibvDeregMr _ => ℕ
  | .ibvPostRecv _ => ℕ
  | .ibvPostSend _ => ℕ
  | .ibvReqNotifyCq _ => ℕ
  | .ibvGetCqEvent _ => Option Ptr
  | .ibvPollCq _ numEntries => Except ℕ+ {statuses : List ℕ // statuses.length ≤ numEntries}
  | .ibvAckCqEvents _ _ => Unit
  | .free _ => Unit
  | .errno => ℕ
  | .leave => Unit

/-- A reply for each call: the calls of librdmacm fail, and the calls of libibverbs
give no pointer, no error and no completion. -/
def plainReply (c : Verb) : Reply c := by
  cases c <;> exact default

/-- A call with its reply. -/
abbrev Event := Exchange Verb Reply

/-- A function over the verbs. -/
abbrev VerbsM (β : Type) := Calls Verb Reply β

open Calls (perform)

/-! The calls, one by one. -/

def rdmaCreateEventChannel : VerbsM (Except ℕ+ Ptr) := perform Verb.rdmaCreateEventChannel

def rdmaCreateId (channel : Option Ptr) : VerbsM (Except ℕ+ Ptr) :=
  perform (Verb.rdmaCreateId channel)

def rdmaBindAddr (id : Option Ptr) : VerbsM (Except ℕ+ Unit) := perform (Verb.rdmaBindAddr id)

def rdmaListen (id : Option Ptr) : VerbsM (Except ℕ+ Unit) := perform (Verb.rdmaListen id)

def rdmaResolveAddr (id : Option Ptr) : VerbsM (Except ℕ+ Unit) :=
  perform (Verb.rdmaResolveAddr id)

def rdmaResolveRoute (id : Option Ptr) : VerbsM (Except ℕ+ Unit) :=
  perform (Verb.rdmaResolveRoute id)

def rdmaGetCmEvent (channel : Option Ptr) : VerbsM (Except ℕ+ CmEvent) :=
  perform (Verb.rdmaGetCmEvent channel)

def rdmaAckCmEvent (event : Option Ptr) : VerbsM (Except ℕ+ Unit) :=
  perform (Verb.rdmaAckCmEvent event)

def rdmaCreateQp (id pd cq : Option Ptr) : VerbsM (Except ℕ+ Ptr) :=
  perform (Verb.rdmaCreateQp id pd cq)

def rdmaAccept (id : Option Ptr) : VerbsM (Except ℕ+ Unit) := perform (Verb.rdmaAccept id)

def rdmaConnect (id : Option Ptr) : VerbsM (Except ℕ+ Unit) := perform (Verb.rdmaConnect id)

def rdmaDisconnect (id : Option Ptr) : VerbsM (Except ℕ+ Unit) :=
  perform (Verb.rdmaDisconnect id)

def rdmaDestroyQp (id : Option Ptr) : VerbsM Unit := perform (Verb.rdmaDestroyQp id)

def rdmaDestroyId (id : Option Ptr) : VerbsM (Except ℕ+ Unit) := perform (Verb.rdmaDestroyId id)

def rdmaDestroyEventChannel (channel : Option Ptr) : VerbsM Unit :=
  perform (Verb.rdmaDestroyEventChannel channel)

def ibvAllocPd (id : Option Ptr) : VerbsM (Option Ptr) := perform (Verb.ibvAllocPd id)

def ibvDeallocPd (pd : Option Ptr) : VerbsM ℕ := perform (Verb.ibvDeallocPd pd)

def ibvCreateCompChannel (id : Option Ptr) : VerbsM (Option Ptr) :=
  perform (Verb.ibvCreateCompChannel id)

def ibvDestroyCompChannel (channel : Option Ptr) : VerbsM ℕ :=
  perform (Verb.ibvDestroyCompChannel channel)

def ibvCreateCq (id channel : Option Ptr) : VerbsM (Option Ptr) :=
  perform (Verb.ibvCreateCq id channel)

def ibvDestroyCq (cq : Option Ptr) : VerbsM ℕ := perform (Verb.ibvDestroyCq cq)

def ibvRegMr (pd : Ptr) (addr : Addr) : VerbsM (Option Ptr) := perform (Verb.ibvRegMr pd addr)

def ibvDeregMr (mr : Mr) : VerbsM ℕ := perform (Verb.ibvDeregMr mr)

def ibvPostRecv (qp : Option Ptr) : VerbsM ℕ := perform (Verb.ibvPostRecv qp)

def ibvPostSend (qp : Option Ptr) : VerbsM ℕ := perform (Verb.ibvPostSend qp)

def ibvReqNotifyCq (cq : Option Ptr) : VerbsM ℕ := perform (Verb.ibvReqNotifyCq cq)

def ibvGetCqEvent (channel : Option Ptr) : VerbsM (Option Ptr) :=
  perform (Verb.ibvGetCqEvent channel)

def ibvPollCq (cq : Ptr) (numEntries : ℕ) :
    VerbsM (Except ℕ+ {statuses : List ℕ // statuses.length ≤ numEntries}) :=
  perform (Verb.ibvPollCq cq numEntries)

def ibvAckCqEvents (cq : Ptr) (nevents : ℕ) : VerbsM Unit :=
  perform (Verb.ibvAckCqEvents cq nevents)

def free (addr : Addr) : VerbsM Unit := perform (Verb.free addr)

def errno : VerbsM ℕ := perform Verb.errno

/-- A function that asks for events, with the mark of its return. -/
def leaving {β : Type} (body : VerbsM β) : VerbsM β := do
  let b ← body
  perform Verb.leave
  return b

def EINVAL : ℤ := 22

def ENOMEM : ℤ := 12

/-! ## `rdma_common.cpp` -/

/-- `rdma_buffer_register`. -/
def rdmaBufferRegister (pd : Option Ptr) (addr : Addr) : VerbsM (Option Mr) := do
  match pd with
  | none => return none
  | some pd =>
    let mr ← ibvRegMr pd addr
    return mr.map fun ptr => ⟨ptr, addr⟩

/-- `rdma_buffer_alloc1`, which frees the buffer it was given when it fails. -/
def rdmaBufferAlloc1 (pd : Option Ptr) (buf : Option Ptr) : VerbsM (Option Mr) := do
  match pd, buf with
  | none, _ => return none
  | some _, none => return none
  | some pd, some buf =>
    let mr ← rdmaBufferRegister (some pd) (.buf (some buf))
    match mr with
    | none =>
      free (.buf (some buf))
      return none
    | some mr => return some mr

/-- `rdma_buffer_deregister`. -/
def rdmaBufferDeregister (mr : Option Mr) : VerbsM Unit := do
  match mr with
  | none => return ()
  | some mr =>
    let _ ← ibvDeregMr mr

/-- `rdma_buffer_free`. -/
def rdmaBufferFree (mr : Option Mr) : VerbsM Unit := do
  match mr with
  | none => return ()
  | some mr =>
    rdmaBufferDeregister (some mr)
    free mr.addr

/-- `process_rdma_cm_event`, with what it leaves in `*cm_event`.  The callers pass a
pointer to NULL. -/
def processRdmaCmEvent (echannel : Option Ptr) (expectedEvent : CmEventType) :
    VerbsM (ℤ × Option CmEvent) := do
  match ← rdmaGetCmEvent echannel with
  | .error errno => return (-errno, none)
  | .ok cmEvent =>
    if cmEvent.status ≠ 0 then
      let _ ← rdmaAckCmEvent (some cmEvent.ptr)
      return (-cmEvent.status, some cmEvent)
    if cmEvent.event ≠ expectedEvent then
      let _ ← rdmaAckCmEvent (some cmEvent.ptr)
      return (-1, some cmEvent)
    return (0, some cmEvent)

/-- The loop of `process_work_completion_events`, for `fuel` polls.  `wc` has the
statuses of the completions so far. -/
def pollLoop (cq : Ptr) (maxWc : ℕ) : ℕ → List ℕ → VerbsM (Except ℕ+ (List ℕ))
  | 0, _ => .cut
  | fuel + 1, wc => do
    match ← ibvPollCq cq (maxWc - wc.length) with
    | .error ret => return .error ret
    | .ok statuses =>
      if (wc ++ statuses.1).length < maxWc then
        pollLoop cq maxWc fuel (wc ++ statuses.1)
      else
        return .ok (wc ++ statuses.1)

/-- `process_work_completion_events`. -/
def processWorkCompletionEvents (fuel : ℕ) (compChannel : Option Ptr) (maxWc : ℕ) :
    VerbsM ℤ := do
  match ← ibvGetCqEvent compChannel with
  | none => return -(← errno)
  | some cqPtr =>
    let ret ← ibvReqNotifyCq (some cqPtr)
    if ret ≠ 0 then
      return -(← errno)
    match ← pollLoop cqPtr maxWc fuel [] with
    | .error ret => return -ret
    | .ok wc =>
      match wc.find? fun status => status ≠ 0 with
      | some status => return -status
      | none =>
        ibvAckCqEvents cqPtr 1
        return wc.length

/-! ## What they call -/

variable {K : Verb → Prop}

theorem all_errno {γ : Type} {f : ℕ → γ} (h : K .errno) :
    (do return f (← errno) : VerbsM γ).All K :=
  ⟨h, fun _ => trivial⟩

theorem all_register (h : ∀ pd addr, K (.ibvRegMr pd addr)) (pd : Option Ptr) (addr : Addr) :
    (rdmaBufferRegister pd addr).All K := by
  cases pd with
  | none => trivial
  | some pd => exact ⟨h pd addr, fun _ => trivial⟩

theorem all_alloc1 (hreg : ∀ pd addr, K (.ibvRegMr pd addr)) (hfree : ∀ addr, K (.free addr))
    (pd buf : Option Ptr) : (rdmaBufferAlloc1 pd buf).All K := by
  cases pd with
  | none => trivial
  | some pd =>
      cases buf with
      | none => trivial
      | some buf =>
          refine (all_register hreg _ _).bind fun mr => ?_
          cases mr with
          | none => exact ⟨hfree _, fun _ => trivial⟩
          | some mr => trivial

theorem all_deregister (h : ∀ mr, K (.ibvDeregMr mr)) (mr : Option Mr) :
    (rdmaBufferDeregister mr).All K := by
  cases mr with
  | none => trivial
  | some mr => exact ⟨h mr, fun _ => trivial⟩

theorem all_free (hdereg : ∀ mr, K (.ibvDeregMr mr)) (hfree : ∀ addr, K (.free addr))
    (mr : Option Mr) : (rdmaBufferFree mr).All K := by
  cases mr with
  | none => trivial
  | some mr => exact (all_deregister hdereg _).bind fun _ => ⟨hfree _, fun _ => trivial⟩

end StellarBench.Verbs
