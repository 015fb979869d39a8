import StellarBench.Verbs.Model

/-!
# The server

The functions of `server_rdma_op`, in the order of the source.  Each takes the
members of the object and returns them with its result.  The members that only
carry data to a call (work requests, attributes, addresses) are left out.
-/

namespace StellarBench.Verbs

/-- The pointers in a `server_rdma_op`. -/
structure Server where
  cmEventChannel : Option Ptr
  cmServerId : Option Ptr
  cmClientId : Option Ptr
  pd : Option Ptr
  ioCompletionChannel : Option Ptr
  cq : Option Ptr
  clientQp : Option Ptr
  clientMetadataMr : Option Mr
  serverBufferMr : Option Mr
  serverMetadataMr : Option Mr
deriving DecidableEq, Repr

/-- A new object. -/
def Server.new : Server := ⟨none, none, none, none, none, none, none, none, none, none⟩

/-- `setup_client_resources`. -/
def setupClientResources (s : Server) : VerbsM (ℤ × Server) := do
  if s.cmClientId = none then
    return (-EINVAL, s)
  let pd ← ibvAllocPd s.cmClientId
  let s := { s with pd := pd }
  if pd = none then
    return (-(← errno), s)
  let channel ← ibvCreateCompChannel s.cmClientId
  let s := { s with ioCompletionChannel := channel }
  if channel = none then
    return (-(← errno), s)
  let cq ← ibvCreateCq s.cmClientId channel
  let s := { s with cq := cq }
  if cq = none then
    return (-(← errno), s)
  let ret ← ibvReqNotifyCq cq
  if ret ≠ 0 then
    return (-(← errno), s)
  match ← rdmaCreateQp s.cmClientId pd cq with
  | .error errno => return (-errno, s)
  | .ok qp => return (0, { s with clientQp := some qp })

/-- `start_rdma_server`. -/
def startRdmaServer (s : Server) : VerbsM (ℤ × Server) := leaving do
  match ← rdmaCreateEventChannel with
  | .error errno => return (-errno, { s with cmEventChannel := none })
  | .ok channel =>
  let s := { s with cmEventChannel := some channel }
  match ← rdmaCreateId s.cmEventChannel with
  | .error errno => return (-errno, s)
  | .ok id =>
  let s := { s with cmServerId := some id }
  match ← rdmaBindAddr s.cmServerId with
  | .error errno => return (-errno, s)
  | .ok _ =>
  match ← rdmaListen s.cmServerId with
  | .error errno => return (-errno, s)
  | .ok _ =>
  let (ret, cmEvent) ← processRdmaCmEvent s.cmEventChannel .connectRequest
  if ret ≠ 0 then
    return (ret, s)
  match cmEvent with
  | none => .crash
  | some cmEvent =>
  let s := { s with cmClientId := some cmEvent.id }
  match ← rdmaAckCmEvent (some cmEvent.ptr) with
  | .error errno => return (-errno, s)
  | .ok _ => return (0, s)

/-- `accept_client_connection`. -/
def acceptClientConnection (s : Server) : VerbsM (ℤ × Server) := leaving do
  if s.cmClientId = none ∨ s.clientQp = none then
    return (-EINVAL, s)
  let mr ← rdmaBufferRegister s.pd .clientMetadataAttr
  let s := { s with clientMetadataMr := mr }
  if mr = none then
    return (-ENOMEM, s)
  let ret ← ibvPostRecv s.clientQp
  if ret ≠ 0 then
    return (ret, s)
  match ← rdmaAccept s.cmClientId with
  | .error errno => return (-errno, s)
  | .ok _ =>
  let (ret, cmEvent) ← processRdmaCmEvent s.cmEventChannel .established
  if ret ≠ 0 then
    return (-(← errno), s)
  match ← rdmaAckCmEvent (cmEvent.map CmEvent.ptr) with
  | .error errno => return (-errno, s)
  | .ok _ => return (0, s)

/-- `send_server_metadata_to_client1`. -/
def sendServerMetadataToClient1 (fuel : ℕ) (bufToRwrite : Option Ptr) (s : Server) :
    VerbsM (ℤ × Server) := leaving do
  let ret ← processWorkCompletionEvents fuel s.ioCompletionChannel 1
  if ret ≠ 1 then
    return (ret, s)
  let mr ← rdmaBufferAlloc1 s.pd bufToRwrite
  let s := { s with serverBufferMr := mr }
  -- the members of the region are read without a test
  match mr with
  | none => .crash
  | some _ =>
  let mr ← rdmaBufferRegister s.pd .serverMetadataAttr
  let s := { s with serverMetadataMr := mr }
  if mr = none then
    return (-(← errno), s)
  let ret ← ibvPostSend s.clientQp
  if ret ≠ 0 then
    return (-ret, s)
  return (0, s)

/-- `disconnect_and_cleanup`. -/
def disconnectAndCleanup (s : Server) : VerbsM ℤ := leaving do
  let (ret, cmEvent) ← processRdmaCmEvent s.cmEventChannel .disconnected
  if ret ≠ 0 then
    return ret
  match ← rdmaAckCmEvent (cmEvent.map CmEvent.ptr) with
  | .error errno => return -errno
  | .ok _ =>
  rdmaDestroyQp s.cmClientId
  let _ ← rdmaDestroyId s.cmClientId
  let _ ← ibvDestroyCq s.cq
  let _ ← ibvDestroyCompChannel s.ioCompletionChannel
  rdmaBufferFree s.serverBufferMr
  rdmaBufferDeregister s.serverMetadataMr
  rdmaBufferDeregister s.clientMetadataMr
  let _ ← ibvDeallocPd s.pd
  let _ ← rdmaDestroyId s.cmServerId
  rdmaDestroyEventChannel s.cmEventChannel
  return 0

/-- `rdma_server_init`. -/
def rdmaServerInit (fuel : ℕ) (registerBuf : Option Ptr) (s : Server) : VerbsM (ℤ × Server) := do
  let (ret, s) ← startRdmaServer s
  if ret ≠ 0 then
    return (ret, s)
  let (ret, s) ← setupClientResources s
  if ret ≠ 0 then
    return (ret, s)
  let (ret, s) ← acceptClientConnection s
  if ret ≠ 0 then
    return (ret, s)
  let (ret, s) ← sendServerMetadataToClient1 fuel registerBuf s
  if ret ≠ 0 then
    return (ret, s)
  return (0, s)

end StellarBench.Verbs
