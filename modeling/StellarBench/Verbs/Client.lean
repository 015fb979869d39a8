import StellarBench.Verbs.Model

/-!
# The client

The functions of `client_rdma_op` that connect to a server and disconnect, in the
order of the source.
-/

namespace StellarBench.Verbs

/-- The pointers in a `client_rdma_op`. -/
structure Client where
  cmEventChannel : Option Ptr
  cmClientId : Option Ptr
  pd : Option Ptr
  ioCompletionChannel : Option Ptr
  clientCq : Option Ptr
  clientQp : Option Ptr
  clientMetadataMr : Option Mr
  clientSrcMr : Option Mr
  clientDstMr : Option Mr
  serverMetadataMr : Option Mr
  src : Option Ptr
  dst : Option Ptr
deriving DecidableEq, Repr

/-- A new object. -/
def Client.new : Client :=
  ⟨none, none, none, none, none, none, none, none, none, none, none, none⟩

/-- `client_prepare_connection`. -/
def clientPrepareConnection (c : Client) : VerbsM (ℤ × Client) := leaving do
  match ← rdmaCreateEventChannel with
  | .error errno => return (-errno, { c with cmEventChannel := none })
  | .ok channel =>
  let c := { c with cmEventChannel := some channel }
  match ← rdmaCreateId c.cmEventChannel with
  | .error errno => return (-errno, c)
  | .ok id =>
  let c := { c with cmClientId := some id }
  match ← rdmaResolveAddr c.cmClientId with
  | .error errno => return (-errno, c)
  | .ok _ =>
  let (ret, cmEvent) ← processRdmaCmEvent c.cmEventChannel .addrResolved
  if ret ≠ 0 then
    return (ret, c)
  match ← rdmaAckCmEvent (cmEvent.map CmEvent.ptr) with
  | .error errno => return (-errno, c)
  | .ok _ =>
  match ← rdmaResolveRoute c.cmClientId with
  | .error errno => return (-errno, c)
  | .ok _ =>
  let (ret, cmEvent) ← processRdmaCmEvent c.cmEventChannel .routeResolved
  if ret ≠ 0 then
    return (ret, c)
  match ← rdmaAckCmEvent (cmEvent.map CmEvent.ptr) with
  | .error errno => return (-errno, c)
  | .ok _ =>
  let pd ← ibvAllocPd c.cmClientId
  let c := { c with pd := pd }
  if pd = none then
    return (-(← errno), c)
  let channel ← ibvCreateCompChannel c.cmClientId
  let c := { c with ioCompletionChannel := channel }
  if channel = none then
    return (-(← errno), c)
  let cq ← ibvCreateCq c.cmClientId channel
  let c := { c with clientCq := cq }
  if cq = none then
    return (-(← errno), c)
  let ret ← ibvReqNotifyCq cq
  if ret ≠ 0 then
    return (-(← errno), c)
  match ← rdmaCreateQp c.cmClientId pd cq with
  | .error errno => return (-errno, c)
  | .ok qp => return (0, { c with clientQp := some qp })

/-- `client_pre_post_recv_buffer`. -/
def clientPrePostRecvBuffer (c : Client) : VerbsM (ℤ × Client) := do
  let mr ← rdmaBufferRegister c.pd .serverMetadataAttr
  let c := { c with serverMetadataMr := mr }
  if mr = none then
    return (-ENOMEM, c)
  let ret ← ibvPostRecv c.clientQp
  if ret ≠ 0 then
    return (ret, c)
  return (0, c)

/-- The loop of `client_connect_to_server`, for `fuel` attempts. -/
def connectLoop (id : Option Ptr) : ℕ → VerbsM Unit
  | 0 => .cut
  | fuel + 1 => do
    match ← rdmaConnect id with
    | .error _ => connectLoop id fuel
    | .ok _ => return ()

/-- `client_connect_to_server`. -/
def clientConnectToServer (fuel : ℕ) (c : Client) : VerbsM ℤ := leaving do
  connectLoop c.cmClientId fuel
  let (ret, cmEvent) ← processRdmaCmEvent c.cmEventChannel .established
  if ret ≠ 0 then
    return ret
  match ← rdmaAckCmEvent (cmEvent.map CmEvent.ptr) with
  | .error errno => return -errno
  | .ok _ => return 0

/-- `client_send_metadata_to_server1`. -/
def clientSendMetadataToServer1 (fuel : ℕ) (sendBuf : Option Ptr) (c : Client) :
    VerbsM (ℤ × Client) := leaving do
  let mr ← rdmaBufferRegister c.pd (.buf sendBuf)
  let c := { c with clientSrcMr := mr }
  if mr = none then
    return (-1, c)
  let mr ← rdmaBufferRegister c.pd .clientMetadataAttr
  let c := { c with clientMetadataMr := mr }
  if mr = none then
    return (-1, c)
  let ret ← ibvPostSend c.clientQp
  if ret ≠ 0 then
    return (-(← errno), c)
  let ret ← processWorkCompletionEvents fuel c.ioCompletionChannel 2
  if ret ≠ 2 then
    return (ret, c)
  return (0, c)

/-- `client_disconnect_and_clean`.  It goes on after every failure. -/
def clientDisconnectAndClean (c : Client) : VerbsM ℤ := leaving do
  let _ ← rdmaDisconnect c.cmClientId
  let (_, cmEvent) ← processRdmaCmEvent c.cmEventChannel .disconnected
  let _ ← rdmaAckCmEvent (cmEvent.map CmEvent.ptr)
  rdmaDestroyQp c.cmClientId
  let _ ← rdmaDestroyId c.cmClientId
  let _ ← ibvDestroyCq c.clientCq
  let _ ← ibvDestroyCompChannel c.ioCompletionChannel
  rdmaBufferDeregister c.serverMetadataMr
  rdmaBufferDeregister c.clientMetadataMr
  rdmaBufferDeregister c.clientSrcMr
  rdmaBufferDeregister c.clientDstMr
  free (.buf c.src)
  free (.buf c.dst)
  let _ ← ibvDeallocPd c.pd
  rdmaDestroyEventChannel c.cmEventChannel
  return 0

end StellarBench.Verbs
