import Mathlib.Data.List.ReduceOption
import StellarBench.Verbs.Cleanup
import StellarBench.Verbs.Client

/-!
# A session and its shutdown

`disconnect_and_cleanup` and `client_disconnect_and_clean` release what the functions
that built the connection have acquired, each resource by one call and before what it
was made from (`server_shutdown`, `client_shutdown`).  The members of an object are its
books: what a function acquires and a member does not hold is never released.

The server shuts down only when the event it waits for comes, and otherwise releases
nothing.  It also never releases the CM id of a second connection request, which
`accept_client_connection` may get in the place of `RDMA_CM_EVENT_ESTABLISHED` and
take for a success when `errno` is zero.
-/

namespace StellarBench.Verbs

open Calls (Runs wp_bind wp_if)

/-! ## Acquiring and releasing -/

/-- The resources that the new one of a call is made from.  A QP is made on its CM id,
in its protection domain and with its CQ. -/
def parents : Verb → List Resource
  | .rdmaCreateId channel => (channel.map .eventChannel).toList
  | .rdmaGetCmEvent channel => (channel.map .eventChannel).toList
  | .ibvCreateCq _ channel => (channel.map .compChannel).toList
  | .rdmaCreateQp id pd cq =>
      (id.map .cmId).toList ++ ((pd.map .pd).toList ++ (cq.map .cq).toList)
  | .ibvRegMr pd _ => [.pd pd]
  | _ => []

/-- What a call is to release, whether or not it does. -/
def target : Verb → Option Resource
  | .rdmaDestroyEventChannel channel => channel.map .eventChannel
  | .rdmaDestroyId id => id.map .cmId
  | .ibvDeallocPd pd => pd.map .pd
  | .ibvDestroyCompChannel channel => channel.map .compChannel
  | .ibvDestroyCq cq => cq.map .cq
  | .rdmaDestroyQp id => id.map .qp
  | .ibvDeregMr mr => some (.mr mr.ptr)
  | _ => none

def freed : Verb → Option Addr
  | .free addr => some addr
  | _ => none

/-- The connection request that a call gets. -/
def requested : Event → Option Ptr
  | ⟨.rdmaGetCmEvent _, .ok e⟩ => if e.event = .connectRequest then some e.id else none
  | _ => none

/-- A buffer of the caller. -/
def Addr.buffer : Addr → Option Addr
  | .buf p => some (.buf p)
  | .clientMetadataAttr | .serverMetadataAttr => none

/-- The buffer of the caller that a call registers. -/
def registered : Event → Option Addr
  | ⟨.ibvRegMr _ addr, some _⟩ => addr.buffer
  | _ => none

/-- The run made `r` from `r'`. -/
def MadeFrom (l : List Event) (r r' : Resource) : Prop :=
  ∃ e ∈ l, acquired e = some r ∧ r' ∈ parents e.1

/-- What the calls of a run are to release. -/
def targets (l : List Event) : List Resource := l.filterMap fun e => target e.1

/-- What the calls of a run free. -/
def frees (l : List Event) : List Addr := l.filterMap fun e => freed e.1

/-- The calls of `l'` release what `l` has acquired, but for what is left, each once
and before what it was made from. -/
structure Releases (l l' : List Event) (left : List Resource) : Prop where
  once : (targets l' ++ left).Perm (l.filterMap acquired)
  order : (targets l').Pairwise fun r r' => ¬ MadeFrom l r' r

/-- The kinds of resources that one can be made from. -/
def MayUse : Resource → Resource → Bool
  | .qp _, .cmId _ | .qp _, .pd _ | .qp _, .cq _ | .mr _, .pd _ | .cq _, .compChannel _
  | .cmId _, .eventChannel _ => true
  | _, _ => false

theorem mayUse_of_parent {e : Event} {r r' : Resource} (h : acquired e = some r)
    (h' : r' ∈ parents e.1) : MayUse r r' = true := by
  obtain ⟨c, reply⟩ := e
  cases c with
  | rdmaCreateId channel =>
      cases reply with
      | error => cases h
      | ok p =>
          cases h
          obtain ⟨channel, -, rfl⟩ := Option.map_eq_some_iff.mp (Option.mem_toList.mp h')
          rfl
  | rdmaGetCmEvent channel =>
      cases reply with
      | error => cases h
      | ok e =>
          obtain ⟨-, hid⟩ := Option.ite_none_right_eq_some.mp h
          cases hid
          obtain ⟨channel, -, rfl⟩ := Option.map_eq_some_iff.mp (Option.mem_toList.mp h')
          rfl
  | ibvCreateCq id channel =>
      cases reply with
      | none => cases h
      | some p =>
          cases h
          obtain ⟨channel, -, rfl⟩ := Option.map_eq_some_iff.mp (Option.mem_toList.mp h')
          rfl
  | rdmaCreateQp id pd cq =>
      cases id with
      | none => cases h
      | some id =>
      cases reply with
      | error => cases h
      | ok p =>
          cases h
          rcases List.mem_append.mp h' with h' | h'
          · obtain ⟨id, -, rfl⟩ := Option.map_eq_some_iff.mp (Option.mem_toList.mp h')
            rfl
          rcases List.mem_append.mp h' with h' | h'
          · obtain ⟨pd, -, rfl⟩ := Option.map_eq_some_iff.mp (Option.mem_toList.mp h')
            rfl
          · obtain ⟨cq, -, rfl⟩ := Option.map_eq_some_iff.mp (Option.mem_toList.mp h')
            rfl
  | ibvRegMr pd addr =>
      cases reply with
      | none => cases h
      | some p =>
          cases h
          obtain rfl := List.mem_singleton.mp h'
          rfl
  | _ => exact absurd h' List.not_mem_nil

/-- A list goes from what is made to what it is made from. -/
theorem pairwise_not_madeFrom {l : List Event} {rs : List Resource}
    (h : rs.Pairwise fun r r' => MayUse r' r = false) :
    rs.Pairwise fun r r' => ¬ MadeFrom l r' r := by
  refine h.imp fun hno ⟨e, _, hr, hparent⟩ => ?_
  rw [mayUse_of_parent hr hparent] at hno
  cases hno

/-! ## Books -/

/-- What a run has acquired, the connection requests it got and the buffers it has
registered.  The latest are first. -/
structure Books where
  ledger : List Resource
  requests : List Ptr
  buffers : List Addr

def Books.enter (t : Books) (e : Event) : Books :=
  ⟨(acquired e).toList ++ t.ledger, (requested e).toList ++ t.requests,
    (registered e).toList ++ t.buffers⟩

theorem foldl_enter (l : List Event) (t : Books) : l.foldl Books.enter t =
    ⟨(l.filterMap acquired).reverse ++ t.ledger, (l.filterMap requested).reverse ++ t.requests,
      (l.filterMap registered).reverse ++ t.buffers⟩ := by
  induction l generalizing t with
  | nil => rfl
  | cons e l ih =>
      rw [List.foldl_cons, ih, Books.enter, List.filterMap_cons, List.filterMap_cons,
        List.filterMap_cons]
      cases acquired e <;> cases requested e <;> cases registered e <;> simp

/-- The members, which may be NULL, hold what was acquired, but for what is left. -/
def Books.Balanced (t : Books) (members : List (Option Resource)) (left : List Resource) : Prop :=
  t.ledger.Perm (members.reduceOption ++ left)

/-- What is acquired gets into a member that was NULL. -/
theorem Books.Balanced.gain {t : Books} {members : List (Option Resource)} {left : List Resource}
    (h : t.Balanced members left) (i : ℕ) (e : Event) (hi : members[i]? = some none) :
    (t.enter e).Balanced (members.set i (acquired e)) left := by
  obtain ⟨hlt, hnone⟩ := List.getElem?_eq_some_iff.mp hi
  have hsplit : members.reduceOption =
      (members.take i).reduceOption ++ (members.drop (i + 1)).reduceOption := by
    conv_lhs => rw [← List.take_append_drop i members, List.drop_eq_getElem_cons hlt, hnone]
    rw [List.reduceOption_append, List.reduceOption_cons_of_none]
  have hset : (members.set i (acquired e)).reduceOption = (members.take i).reduceOption ++
      ((acquired e).toList ++ (members.drop (i + 1)).reduceOption) := by
    rw [List.set_eq_take_append_cons_drop, if_pos hlt, List.reduceOption_append]
    cases acquired e <;> simp
  rw [Books.Balanced, hset]
  refine (h.append_left _).trans ?_
  rw [hsplit, ← List.append_assoc, ← List.append_assoc, ← List.append_assoc]
  exact (List.perm_append_comm.append_right _).append_right _

/-- A function that asks for events, under an observer that does not see the mark. -/
theorem wp_leaving {S β : Type} {step : S → Event → S} {Q : Ending β → S → Prop} {s : S}
    {body : VerbsM β} (hleave : ∀ r s, step s ⟨.leave, r⟩ = s) (h : body.wp step Q s) :
    (leaving body).wp step Q s := by
  rw [leaving, wp_bind]
  refine Calls.wp_mono (fun o s hs => ?_) h
  cases o with
  | returned b => exact Calls.wp_unseen (fun r => hleave r s) fun _ => hs
  | crashed | cut => exact hs

/-! ## Runs that succeed -/

section

variable {S β : Type} {F : S → Books → Prop} {G : β → Books → Prop} {t : Books}

/-- What holds at the end of a function that returns zero. -/
def Succeeds (F : S → Books → Prop) : Ending (ℤ × S) → Books → Prop
  | .returned (ret, s), t => ret = 0 → F s t
  | .crashed, _ => True
  | .cut, _ => True

theorem failed {s : S} {ret : ℤ} (hret : ret ≠ 0) : Succeeds F (.returned (ret, s)) t :=
  fun h => absurd h hret

theorem neg_errno_ne_zero (errno : ℕ+) : (-errno : ℤ) ≠ 0 :=
  neg_ne_zero.mpr (by exact_mod_cast errno.ne_zero)

/-- The call is not for the books. -/
def Unbooked (c : Verb) : Prop := ∀ r t, Books.enter t ⟨c, r⟩ = t

theorem wp_unbooked {p : VerbsM β} (hp : p.All Unbooked) :
    p.wp Books.enter (fun _ t' => t' = t) t :=
  hp.wp (fun _ hc r t' ht => (hc r t').trans ht) rfl

/-- One function after the other, as long as they succeed. -/
theorem wp_then {p : VerbsM (ℤ × S)} {q : ℤ × S → VerbsM (ℤ × β)}
    (hp : p.wp Books.enter (Succeeds F) t)
    (hq : ∀ s t, F s t → (q (0, s)).wp Books.enter (Succeeds G) t)
    (hfail : ∀ ret s t, ret ≠ 0 → (q (ret, s)).wp Books.enter (Succeeds G) t) :
    (p >>= q).wp Books.enter (Succeeds G) t := by
  rw [wp_bind]
  refine Calls.wp_mono (fun o t ht => ?_) hp
  cases o with
  | returned r =>
      obtain ⟨ret, s⟩ := r
      by_cases hret : ret = 0
      · subst hret
        exact hq s t (ht rfl)
      · exact hfail ret s t hret
  | crashed | cut => trivial

/-- `process_rdma_cm_event` enters a connection request whether or not it is expected. -/
theorem wp_processRdmaCmEvent_books {Q : Ending β → Books → Prop} {channel : Option Ptr}
    {expectedEvent : CmEventType} {k : ℤ × Option CmEvent → VerbsM β}
    (hnone : ∀ errno : ℕ+, (k (-errno, none)).wp Books.enter Q t)
    (hfail : ∀ ret e, ret ≠ 0 → (k (ret, some e)).wp Books.enter Q
      (t.enter ⟨.rdmaGetCmEvent channel, .ok e⟩))
    (hok : ∀ e, e.event = expectedEvent → (k (0, some e)).wp Books.enter Q
      (t.enter ⟨.rdmaGetCmEvent channel, .ok e⟩)) :
    (processRdmaCmEvent channel expectedEvent >>= k).wp Books.enter Q t := by
  rw [wp_bind]
  intro r
  cases r with
  | error errno => exact hnone errno
  | ok e =>
      refine wp_if (fun hstatus _ => hfail _ e (neg_ne_zero.mpr hstatus)) fun _ => ?_
      refine wp_if (fun _ _ => hfail _ e (by decide)) fun hevent => ?_
      exact hok e (not_not.mp hevent)

/-- `rdma_buffer_register` enters a region that it returns. -/
theorem wp_rdmaBufferRegister {Q : Ending β → Books → Prop} {pd : Option Ptr} {addr : Addr}
    {k : Option Mr → VerbsM β} (hnone : (k none).wp Books.enter Q t)
    (hsome : ∀ pd mr, (k (some ⟨mr, addr⟩)).wp Books.enter Q
      (t.enter ⟨.ibvRegMr pd addr, some mr⟩)) :
    (rdmaBufferRegister pd addr >>= k).wp Books.enter Q t := by
  cases pd with
  | none => exact hnone
  | some pd =>
      intro r
      cases r with
      | none => exact hnone
      | some mr => exact hsome pd mr

/-- `rdma_buffer_alloc1` enters a region that it returns. -/
theorem wp_rdmaBufferAlloc1_books {Q : Ending β → Books → Prop} {pd : Option Ptr} {p : Ptr}
    {k : Option Mr → VerbsM β} (hnone : (k none).wp Books.enter Q t)
    (hsome : ∀ pd mr, (k (some ⟨mr, .buf (some p)⟩)).wp Books.enter Q
      (t.enter ⟨.ibvRegMr pd (.buf (some p)), some mr⟩)) :
    (rdmaBufferAlloc1 pd (some p) >>= k).wp Books.enter Q t := by
  cases pd with
  | none => exact hnone
  | some pd =>
      intro r
      cases r with
      | none => exact fun _ => hnone
      | some mr => exact hsome pd mr

end

theorem unbooked_pollLoop (cq : Ptr) (maxWc fuel : ℕ) (wc : List ℕ) :
    (pollLoop cq maxWc fuel wc).All Unbooked := by
  induction fuel generalizing wc with
  | zero => trivial
  | succ fuel ih =>
      refine ⟨fun _ _ => rfl, fun r => ?_⟩
      cases r with
      | error ret => trivial
      | ok statuses => exact .ite (ih _) trivial

theorem unbooked_processWorkCompletionEvents (fuel : ℕ) (channel : Option Ptr) (maxWc : ℕ) :
    (processWorkCompletionEvents fuel channel maxWc).All Unbooked := by
  refine ⟨fun _ _ => rfl, fun r => ?_⟩
  cases r with
  | none => exact all_errno fun _ _ => rfl
  | some cq =>
  refine ⟨fun _ _ => rfl, fun ret => .ite (all_errno fun _ _ => rfl) ?_⟩
  refine (unbooked_pollLoop _ _ _ _).bind fun r => ?_
  cases r with
  | error ret => trivial
  | ok wc =>
  dsimp only
  split
  · trivial
  · exact ⟨fun _ _ => rfl, fun _ => trivial⟩

/-! ## The server -/

/-- The QP of the client, by its CM id. -/
def Server.qp (s : Server) : Option Ptr := s.clientQp.bind fun _ => s.cmClientId

/-- What the members of the server hold, in the order of `disconnect_and_cleanup`. -/
def Server.members (s : Server) : List (Option Resource) :=
  [s.qp.map .qp, s.cmClientId.map .cmId, s.cq.map .cq, s.ioCompletionChannel.map .compChannel,
    s.serverBufferMr.map fun mr => .mr mr.ptr, s.serverMetadataMr.map fun mr => .mr mr.ptr,
    s.clientMetadataMr.map fun mr => .mr mr.ptr, s.pd.map .pd, s.cmServerId.map .cmId,
    s.cmEventChannel.map .eventChannel]

/-- The books of a server that has had its connection request.  The later requests are
in no member. -/
structure Server.Kept (s : Server) (t : Books) : Prop where
  balanced : t.Balanced s.members (t.requests.dropLast.map .cmId)
  requests : t.requests ≠ []
  buffers : t.buffers = (s.serverBufferMr.map Mr.addr).toList

theorem Server.Kept.event {s : Server} {t : Books} (h : s.Kept t) (channel : Option Ptr)
    (e : CmEvent) : s.Kept (t.enter ⟨.rdmaGetCmEvent channel, .ok e⟩) := by
  obtain ⟨ptr, status, event, id⟩ := e
  cases event with
  | connectRequest =>
      refine ⟨?_, List.cons_ne_nil _ _, h.buffers⟩
      have hleft : (id :: t.requests).dropLast = id :: t.requests.dropLast :=
        List.dropLast_cons_of_ne_nil h.requests
      change (Resource.cmId id :: t.ledger).Perm
        (s.members.reduceOption ++ (id :: t.requests).dropLast.map .cmId)
      rw [hleft]
      exact (h.balanced.cons _).trans List.perm_middle.symm
  | addrResolved | routeResolved | established | disconnected | other => exact h

/-- The server after `start_rdma_server`. -/
def Server.started (channel id client : Ptr) : Server :=
  { Server.new with
    cmEventChannel := some channel, cmServerId := some id, cmClientId := some client }

theorem wp_startRdmaServer_books : (startRdmaServer .new).wp Books.enter
    (Succeeds fun s t => s.Kept t ∧ ∃ channel id client, s = .started channel id client)
    ⟨[], [], []⟩ := by
  refine wp_leaving (fun _ _ => rfl) ?_
  intro r
  cases r with
  | error errno => exact failed (neg_errno_ne_zero errno)
  | ok channel =>
  intro r
  cases r with
  | error errno => exact failed (neg_errno_ne_zero errno)
  | ok id =>
  intro r
  cases r with
  | error errno => exact failed (neg_errno_ne_zero errno)
  | ok _ =>
  intro r
  cases r with
  | error errno => exact failed (neg_errno_ne_zero errno)
  | ok _ =>
  refine wp_processRdmaCmEvent_books (fun errno => ?_) (fun ret e hret => ?_) fun e he => ?_
  · exact wp_if (fun hret => failed hret) fun hret => absurd (neg_errno_ne_zero errno) hret
  · exact wp_if (fun hret => failed hret) fun hret' => absurd hret hret'
  · refine wp_if (fun h => absurd rfl h) fun _ => ?_
    obtain ⟨ptr, status, event, client⟩ := e
    obtain rfl : event = .connectRequest := he
    intro r
    cases r with
    | error errno => exact failed (neg_errno_ne_zero errno)
    | ok _ => exact fun _ => ⟨⟨.refl _, List.cons_ne_nil _ _, rfl⟩, channel, id, client, rfl⟩

/-- `setup_client_resources` may return zero after a failure, when `errno` is zero. -/
theorem wp_setupClientResources_books {channel id client : Ptr} {t : Books}
    (h : (Server.started channel id client).Kept t) :
    (setupClientResources (.started channel id client)).wp Books.enter
      (Succeeds fun s t => s.Kept t ∧ s.clientMetadataMr = none ∧ s.serverBufferMr = none ∧
        s.serverMetadataMr = none) t := by
  obtain ⟨h, hrequests, hbuffers⟩ := h
  refine wp_if (fun hnone => absurd hnone (Option.some_ne_none _)) fun _ => ?_
  intro pd
  refine wp_if (fun hpd => ?_) fun hpd => ?_
  · subst hpd
    intro errno _
    exact ⟨⟨h, hrequests, hbuffers⟩, rfl, rfl, rfl⟩
  obtain ⟨pd, rfl⟩ := Option.ne_none_iff_exists'.mp hpd
  have h := h.gain 7 ⟨.ibvAllocPd (some client), some pd⟩ rfl
  intro comp
  refine wp_if (fun hcomp => ?_) fun hcomp => ?_
  · subst hcomp
    intro errno _
    exact ⟨⟨h, hrequests, hbuffers⟩, rfl, rfl, rfl⟩
  obtain ⟨comp, rfl⟩ := Option.ne_none_iff_exists'.mp hcomp
  have h := h.gain 3 ⟨.ibvCreateCompChannel (some client), some comp⟩ rfl
  intro cq
  refine wp_if (fun hcq => ?_) fun hcq => ?_
  · subst hcq
    intro errno _
    exact ⟨⟨h, hrequests, hbuffers⟩, rfl, rfl, rfl⟩
  obtain ⟨cq, rfl⟩ := Option.ne_none_iff_exists'.mp hcq
  have h := h.gain 2 ⟨.ibvCreateCq (some client) (some comp), some cq⟩ rfl
  intro ret
  refine wp_if (fun _ => ?_) fun _ => ?_
  · intro errno _
    exact ⟨⟨h, hrequests, hbuffers⟩, rfl, rfl, rfl⟩
  intro r
  cases r with
  | error errno => exact failed (neg_errno_ne_zero errno)
  | ok qp =>
      intro _
      have h := h.gain 0 ⟨.rdmaCreateQp (some client) (some pd) (some cq), .ok qp⟩ rfl
      exact ⟨⟨h, hrequests, hbuffers⟩, rfl, rfl, rfl⟩

/-- `accept_client_connection` may return zero after an unexpected event. -/
theorem wp_acceptClientConnection_books {s : Server} {t : Books} (h : s.Kept t)
    (hmr : s.clientMetadataMr = none) (hbuf : s.serverBufferMr = none)
    (hmeta : s.serverMetadataMr = none) : (acceptClientConnection s).wp Books.enter
      (Succeeds fun s t => s.Kept t ∧ s.clientQp ≠ none ∧ s.serverBufferMr = none ∧
        s.serverMetadataMr = none) t := by
  have heinval : -EINVAL ≠ 0 := by decide
  have henomem : -ENOMEM ≠ 0 := by decide
  refine wp_leaving (fun _ _ => rfl) (wp_if (fun _ => failed heinval) fun hids => ?_)
  have hqp : s.clientQp ≠ none := fun hqp => hids (.inr hqp)
  refine wp_rdmaBufferRegister ?_ fun pd mr => ?_
  · exact wp_if (fun _ => failed henomem) fun hmr => absurd rfl hmr
  have h : { s with clientMetadataMr := some ⟨mr, .clientMetadataAttr⟩ }.Kept
      (t.enter ⟨.ibvRegMr pd .clientMetadataAttr, some mr⟩) :=
    ⟨h.balanced.gain 6 _ (by rw [Server.members, hmr]; rfl), h.requests, h.buffers⟩
  refine wp_if (fun hnone => absurd hnone (Option.some_ne_none _)) fun _ => ?_
  intro ret
  refine wp_if (fun hret => failed (Nat.cast_ne_zero.mpr hret)) fun _ => ?_
  intro r
  cases r with
  | error errno => exact failed (neg_errno_ne_zero errno)
  | ok _ =>
  refine wp_processRdmaCmEvent_books (fun errno => ?_) (fun ret e hret => ?_) fun e he => ?_
  · refine wp_if (fun _ => ?_) fun hret => absurd (neg_errno_ne_zero errno) hret
    intro errno _
    exact ⟨h, hqp, hbuf, hmeta⟩
  · refine wp_if (fun _ => ?_) fun hret' => absurd hret hret'
    intro errno _
    exact ⟨h.event _ e, hqp, hbuf, hmeta⟩
  · refine wp_if (fun h => absurd rfl h) fun _ => ?_
    intro r
    cases r with
    | error errno => exact failed (neg_errno_ne_zero errno)
    | ok _ => exact fun _ => ⟨h.event _ e, hqp, hbuf, hmeta⟩

/-- `send_server_metadata_to_client1` may return zero before it has a region. -/
theorem wp_sendServerMetadataToClient1_books {s : Server} {t : Books} (h : s.Kept t)
    (hqp : s.clientQp ≠ none) (hbuf : s.serverBufferMr = none)
    (hmeta : s.serverMetadataMr = none) (fuel : ℕ) (p : Ptr) :
    (sendServerMetadataToClient1 fuel (some p) s).wp Books.enter
      (Succeeds fun s t => s.Kept t ∧ s.clientQp ≠ none) t := by
  obtain ⟨channel, id, client, pd, comp, cq, qp, clientMr, bufMr, metaMr⟩ := s
  obtain rfl : bufMr = none := hbuf
  obtain rfl : metaMr = none := hmeta
  refine wp_leaving (fun _ _ => rfl) ?_
  rw [wp_bind]
  refine Calls.wp_mono (fun o t' ht => ?_)
    (wp_unbooked (unbooked_processWorkCompletionEvents fuel comp 1))
  rw [ht]
  cases o with
  | crashed | cut => trivial
  | returned ret =>
  refine wp_if (fun _ _ => ⟨h, hqp⟩) fun _ => ?_
  refine wp_rdmaBufferAlloc1_books trivial fun pd' mr => ?_
  have hgain := h.balanced.gain 4 ⟨.ibvRegMr pd' (.buf (some p)), some mr⟩ rfl
  have hbuffers : .buf (some p) :: t.buffers = [.buf (some p)] := by rw [h.buffers]; rfl
  refine wp_rdmaBufferRegister ?_ fun pd' mr' => ?_
  · refine wp_if (fun _ => ?_) fun hmr => absurd rfl hmr
    intro errno _
    exact ⟨⟨hgain, h.requests, hbuffers⟩, hqp⟩
  refine wp_if (fun hnone => absurd hnone (Option.some_ne_none _)) fun _ => ?_
  intro ret
  refine wp_if (fun hret => failed (neg_ne_zero.mpr (Nat.cast_ne_zero.mpr hret))) fun _ => ?_
  intro _
  have hgain := hgain.gain 5 ⟨.ibvRegMr pd' .serverMetadataAttr, some mr'⟩ rfl
  exact ⟨⟨hgain, h.requests, hbuffers⟩, hqp⟩

/-- `rdma_server_init`. -/
theorem wp_rdmaServerInit_books (fuel : ℕ) (p : Ptr) :
    (rdmaServerInit fuel (some p) .new).wp Books.enter
      (Succeeds fun s t => s.Kept t ∧ s.clientQp ≠ none) ⟨[], [], []⟩ := by
  have hstop {ret : ℤ} {s : Server} {t : Books} {q : VerbsM (ℤ × Server)} (hret : ret ≠ 0) :
      (if ret ≠ 0 then return (ret, s) else q : VerbsM (ℤ × Server)).wp Books.enter
        (Succeeds fun s t => s.Kept t ∧ s.clientQp ≠ none) t :=
    wp_if (fun _ => failed hret) fun h => absurd hret h
  refine wp_then wp_startRdmaServer_books (fun s t hs => ?_) fun _ _ _ => hstop
  obtain ⟨h, channel, id, client, rfl⟩ := hs
  refine wp_if (fun h => absurd rfl h) fun _ => ?_
  refine wp_then (wp_setupClientResources_books h) (fun s t hs => ?_) fun _ _ _ => hstop
  obtain ⟨h, hmr, hbuf, hmeta⟩ := hs
  refine wp_if (fun h => absurd rfl h) fun _ => ?_
  refine wp_then (wp_acceptClientConnection_books h hmr hbuf hmeta) (fun s t hs => ?_)
    fun _ _ _ => hstop
  obtain ⟨h, hqp, hbuf, hmeta⟩ := hs
  refine wp_if (fun h => absurd rfl h) fun _ => ?_
  refine wp_then (wp_sendServerMetadataToClient1_books h hqp hbuf hmeta fuel p)
    (fun s t hs => ?_) fun _ _ _ => hstop
  exact wp_if (fun h => absurd rfl h) fun _ _ => hs

/-! ## Shutting down -/

/-- What a run has been to release, and what it has freed. -/
structure Drops where
  targets : List Resource
  frees : List Addr

def Drops.enter (d : Drops) (e : Event) : Drops :=
  ⟨d.targets ++ (target e.1).toList, d.frees ++ (freed e.1).toList⟩

theorem foldl_drops (l : List Event) (d : Drops) :
    l.foldl Drops.enter d = ⟨d.targets ++ targets l, d.frees ++ frees l⟩ := by
  induction l generalizing d with
  | nil => simp [targets, frees]
  | cons e l ih =>
      rw [List.foldl_cons, ih, Drops.enter, targets, frees, targets, frees, List.filterMap_cons,
        List.filterMap_cons]
      cases target e.1 <;> cases freed e.1 <;> simp

section

variable {β : Type} {Q : Ending β → Drops → Prop} {d : Drops}

/-- Other calls do not change what is dropped. -/
theorem enter_of_none {c : Verb} (htarget : target c = none) (hfreed : freed c = none)
    (r : Reply c) (d : Drops) : d.enter ⟨c, r⟩ = d := by
  rw [Drops.enter, htarget, hfreed, Option.toList_none, Option.toList_none, List.append_nil,
    List.append_nil]

theorem wp_processRdmaCmEvent_drops {channel : Option Ptr} {expectedEvent : CmEventType}
    {k : ℤ × Option CmEvent → VerbsM β} (h : ∀ ret e, (k (ret, e)).wp Drops.enter Q d) :
    (processRdmaCmEvent channel expectedEvent >>= k).wp Drops.enter Q d := by
  rw [wp_bind]
  refine Calls.wp_unseen (fun r => enter_of_none rfl rfl r d) fun r => ?_
  cases r with
  | error errno => exact h _ _
  | ok e =>
      refine wp_if (fun _ => ?_) fun _ => wp_if (fun _ => ?_) fun _ => h _ _
      · exact Calls.wp_unseen (fun r => enter_of_none rfl rfl r d) fun _ => h _ _
      · exact Calls.wp_unseen (fun r => enter_of_none rfl rfl r d) fun _ => h _ _

theorem wp_rdmaBufferDeregister {mr : Option Mr} {k : Unit → VerbsM β}
    (h : (k ()).wp Drops.enter Q ⟨d.targets ++ (mr.map fun mr => .mr mr.ptr).toList, d.frees⟩) :
    (rdmaBufferDeregister mr >>= k).wp Drops.enter Q d := by
  cases mr with
  | none =>
      rw [Option.map_none, Option.toList_none, List.append_nil] at h
      exact h
  | some mr =>
      intro r
      have hdrop : d.enter ⟨.ibvDeregMr mr, r⟩ = ⟨d.targets ++ [.mr mr.ptr], d.frees⟩ := by
        simp [Drops.enter, target, freed]
      rw [hdrop]
      exact h

theorem wp_rdmaBufferFree {mr : Option Mr} {k : Unit → VerbsM β}
    (h : (k ()).wp Drops.enter Q ⟨d.targets ++ (mr.map fun mr => .mr mr.ptr).toList,
      d.frees ++ (mr.map Mr.addr).toList⟩) :
    (rdmaBufferFree mr >>= k).wp Drops.enter Q d := by
  cases mr with
  | none =>
      rw [Option.map_none, Option.map_none, Option.toList_none, Option.toList_none,
        List.append_nil, List.append_nil] at h
      exact h
  | some mr =>
      intro r _
      have hdrop : (d.enter ⟨.ibvDeregMr mr, r⟩).enter ⟨.free mr.addr, ()⟩ =
          ⟨d.targets ++ [.mr mr.ptr], d.frees ++ [mr.addr]⟩ := by
        simp [Drops.enter, target, freed]
      rw [hdrop]
      exact h

end

theorem reduceOption_cons (r : Option Resource) (rs : List (Option Resource)) :
    (r :: rs).reduceOption = r.toList ++ rs.reduceOption := by
  cases r <;> rfl

/-- What `disconnect_and_cleanup` drops when it returns `ret`. -/
def Server.drops (s : Server) (ret : ℤ) : Drops :=
  if ret = 0 then ⟨s.members.reduceOption, (s.serverBufferMr.map Mr.addr).toList⟩ else ⟨[], []⟩

theorem wp_disconnectAndCleanup_drops {s : Server} (hqp : s.clientQp ≠ none) :
    (disconnectAndCleanup s).wp Drops.enter (fun o d => ∃ ret, o = .returned ret ∧ d = s.drops ret)
      ⟨[], []⟩ := by
  refine wp_leaving (enter_of_none rfl rfl) (wp_processRdmaCmEvent_drops fun ret e => ?_)
  refine wp_if (fun hret => ⟨ret, rfl, (if_neg hret).symm⟩) fun _ => ?_
  refine Calls.wp_unseen (fun r => enter_of_none rfl rfl r _) fun r => ?_
  cases r with
  | error errno => exact ⟨_, rfl, (if_neg (neg_errno_ne_zero errno)).symm⟩
  | ok _ =>
  intro _ _ _ _
  refine wp_rdmaBufferFree (wp_rdmaBufferDeregister (wp_rdmaBufferDeregister ?_))
  intro _ _ _
  obtain ⟨qp, hqp⟩ := Option.ne_none_iff_exists'.mp hqp
  refine ⟨0, rfl, ?_⟩
  simp [Drops.enter, target, freed, Server.drops, Server.members, Server.qp, hqp,
    reduceOption_cons]

theorem Server.members_order (s : Server) :
    s.members.reduceOption.Pairwise fun r r' => MayUse r' r = false := by
  rw [List.reduceOption, List.pairwise_filterMap]
  simp [Server.members, MayUse]

/-- A server that has started releases all that it has acquired, but for later
connection requests, and the buffer of its caller.  It does so when the client has
disconnected, and otherwise nothing. -/
theorem server_shutdown {fuel : ℕ} {p : Ptr} {l l' : List Event} {s : Server} {o : Ending ℤ}
    (hinit : Runs (rdmaServerInit fuel (some p) .new) l (.returned (0, s)))
    (hr : Runs (disconnectAndCleanup s) l' o) : ∃ ret, o = .returned ret ∧
      (ret = 0 → Releases l l' ((l.filterMap requested).tail.map .cmId) ∧
        frees l' = l.filterMap registered) ∧
      (ret ≠ 0 → targets l' = [] ∧ frees l' = []) := by
  obtain ⟨hkept, hqp⟩ := Calls.wp_iff.mp (wp_rdmaServerInit_books fuel p) l _ hinit rfl
  obtain ⟨ret, ho, hdrops⟩ := Calls.wp_iff.mp (wp_disconnectAndCleanup_drops hqp) l' o hr
  rw [foldl_drops, List.nil_append, List.nil_append] at hdrops
  refine ⟨ret, ho, fun hret => ?_, fun hret => ?_⟩
  · rw [Server.drops, if_pos hret] at hdrops
    obtain ⟨htargets, hfrees⟩ := Drops.mk.inj hdrops
    obtain ⟨hbalanced, -, hbuffers⟩ := hkept
    rw [foldl_enter] at hbalanced hbuffers
    simp only [Books.Balanced, List.append_nil, List.dropLast_reverse, List.map_reverse]
      at hbalanced hbuffers
    refine ⟨⟨?_, ?_⟩, ?_⟩
    · rw [htargets]
      have hleft := (List.reverse_perm ((l.filterMap requested).tail.map Resource.cmId)).symm
      exact ((hleft.append_left _).trans hbalanced.symm).trans (List.reverse_perm _)
    · rw [htargets]
      exact pairwise_not_madeFrom s.members_order
    · rw [hfrees, List.reverse_eq_iff.mp hbuffers]
      cases s.serverBufferMr <;> rfl
  · rw [Server.drops, if_neg hret] at hdrops
    exact Drops.mk.inj hdrops

/-- The library that fails in nothing.  The fifth call gets a connection request, and
so do all later ones. -/
def withRequests : ℕ → (c : Verb) → Reply c
  | n, .rdmaGetCmEvent _ => .ok ⟨3, 0, .connectRequest, n⟩
  | _, .ibvRegMr _ (.buf _) => some 11
  | _, .ibvRegMr _ .serverMetadataAttr => some 12
  | n, c => withoutBuffer n c

/-- The library that gives the events of one kind. -/
def withEvent (event : CmEventType) : ℕ → (c : Verb) → Reply c
  | _, .rdmaGetCmEvent _ => .ok ⟨3, 0, event, 4⟩
  | _, .rdmaAckCmEvent _ => .ok ()
  | _, c => plainReply c

/-- The server takes the second request for the connection, and never releases its CM
id. -/
theorem server_shutdown_second : ∃ l l' s,
    Runs (rdmaServerInit 1 (some 5) .new) l (.returned (0, s)) ∧
      Runs (disconnectAndCleanup s) l' (.returned 0) ∧ Releases l l' [.cmId 15] := by
  have hinit : Runs (rdmaServerInit 1 (some 5) .new) _ (.returned (0, ⟨some 1, some 2, some 4,
      some 6, some 7, some 8, some 9, some ⟨10, .clientMetadataAttr⟩, some ⟨11, .buf (some 5)⟩,
      some ⟨12, .serverMetadataAttr⟩⟩)) := Calls.runs_play withRequests _ 0
  have hr := Calls.runs_play (withEvent .disconnected) (disconnectAndCleanup ⟨some 1, some 2,
    some 4, some 6, some 7, some 8, some 9, some ⟨10, .clientMetadataAttr⟩,
    some ⟨11, .buf (some 5)⟩, some ⟨12, .serverMetadataAttr⟩⟩) 0
  obtain ⟨ret, ho, hzero, -⟩ := server_shutdown hinit hr
  cases ho
  exact ⟨_, _, _, hinit, hr, (hzero rfl).1⟩

/-! ## The client -/

/-- The QP, by its CM id. -/
def Client.qp (c : Client) : Option Ptr := c.clientQp.bind fun _ => c.cmClientId

/-- What the members of the client hold, in the order of `client_disconnect_and_clean`. -/
def Client.members (c : Client) : List (Option Resource) :=
  [c.qp.map .qp, c.cmClientId.map .cmId, c.clientCq.map .cq,
    c.ioCompletionChannel.map .compChannel, c.serverMetadataMr.map fun mr => .mr mr.ptr,
    c.clientMetadataMr.map fun mr => .mr mr.ptr, c.clientSrcMr.map fun mr => .mr mr.ptr,
    c.clientDstMr.map fun mr => .mr mr.ptr, c.pd.map .pd, c.cmEventChannel.map .eventChannel]

/-- The members hold what was acquired. -/
def Client.Kept (c : Client) (t : Books) : Prop := t.Balanced c.members []

/-- No region, and no buffer of its own. -/
structure Client.Bare (c : Client) : Prop where
  clientMetadataMr : c.clientMetadataMr = none
  clientSrcMr : c.clientSrcMr = none
  serverMetadataMr : c.serverMetadataMr = none
  src : c.src = none
  dst : c.dst = none

theorem enter_event {t : Books} {e : CmEvent} (he : e.event ≠ .connectRequest)
    (channel : Option Ptr) : t.enter ⟨.rdmaGetCmEvent channel, .ok e⟩ = t := by
  obtain ⟨ptr, status, event, id⟩ := e
  cases event with
  | connectRequest => exact absurd rfl he
  | addrResolved | routeResolved | established | disconnected | other => rfl

/-- `client_prepare_connection` may return zero after a failure, when `errno` is zero. -/
theorem wp_clientPrepareConnection_books : (clientPrepareConnection .new).wp Books.enter
    (Succeeds fun c t => c.Kept t ∧ c.Bare) ⟨[], [], []⟩ := by
  refine wp_leaving (fun _ _ => rfl) ?_
  intro r
  cases r with
  | error errno => exact failed (neg_errno_ne_zero errno)
  | ok channel =>
  intro r
  cases r with
  | error errno => exact failed (neg_errno_ne_zero errno)
  | ok id =>
  intro r
  cases r with
  | error errno => exact failed (neg_errno_ne_zero errno)
  | ok _ =>
  refine wp_processRdmaCmEvent_books (fun errno => ?_) (fun ret e hret => ?_) fun e he => ?_
  · exact wp_if (fun hret => failed hret) fun hret => absurd (neg_errno_ne_zero errno) hret
  · exact wp_if (fun hret => failed hret) fun hret' => absurd hret hret'
  rw [enter_event (by rw [he]; decide)]
  refine wp_if (fun h => absurd rfl h) fun _ => ?_
  intro r
  cases r with
  | error errno => exact failed (neg_errno_ne_zero errno)
  | ok _ =>
  intro r
  cases r with
  | error errno => exact failed (neg_errno_ne_zero errno)
  | ok _ =>
  refine wp_processRdmaCmEvent_books (fun errno => ?_) (fun ret e hret => ?_) fun e he => ?_
  · exact wp_if (fun hret => failed hret) fun hret => absurd (neg_errno_ne_zero errno) hret
  · exact wp_if (fun hret => failed hret) fun hret' => absurd hret hret'
  rw [enter_event (by rw [he]; decide)]
  refine wp_if (fun h => absurd rfl h) fun _ => ?_
  intro r
  cases r with
  | error errno => exact failed (neg_errno_ne_zero errno)
  | ok _ =>
  have hbare {channel id pd comp cq qp : Option Ptr} :
      Client.Bare ⟨channel, id, pd, comp, cq, qp, none, none, none, none, none, none⟩ :=
    ⟨rfl, rfl, rfl, rfl, rfl⟩
  have h : Client.Kept { Client.new with cmEventChannel := some channel, cmClientId := some id }
      ⟨[.cmId id, .eventChannel channel], [], []⟩ := .refl _
  intro pd
  refine wp_if (fun hpd => ?_) fun hpd => ?_
  · subst hpd
    intro errno _
    exact ⟨h, hbare⟩
  obtain ⟨pd, rfl⟩ := Option.ne_none_iff_exists'.mp hpd
  have h := h.gain 8 ⟨.ibvAllocPd (some id), some pd⟩ rfl
  intro comp
  refine wp_if (fun hcomp => ?_) fun hcomp => ?_
  · subst hcomp
    intro errno _
    exact ⟨h, hbare⟩
  obtain ⟨comp, rfl⟩ := Option.ne_none_iff_exists'.mp hcomp
  have h := h.gain 3 ⟨.ibvCreateCompChannel (some id), some comp⟩ rfl
  intro cq
  refine wp_if (fun hcq => ?_) fun hcq => ?_
  · subst hcq
    intro errno _
    exact ⟨h, hbare⟩
  obtain ⟨cq, rfl⟩ := Option.ne_none_iff_exists'.mp hcq
  have h := h.gain 2 ⟨.ibvCreateCq (some id) (some comp), some cq⟩ rfl
  intro ret
  refine wp_if (fun _ => ?_) fun _ => ?_
  · intro errno _
    exact ⟨h, hbare⟩
  intro r
  cases r with
  | error errno => exact failed (neg_errno_ne_zero errno)
  | ok qp =>
      have h := h.gain 0 ⟨.rdmaCreateQp (some id) (some pd) (some cq), .ok qp⟩ rfl
      exact fun _ => ⟨h, hbare⟩

theorem wp_clientPrePostRecvBuffer_books {c : Client} {t : Books} (h : c.Kept t) (hbare : c.Bare) :
    (clientPrePostRecvBuffer c).wp Books.enter
      (Succeeds fun c' t => c'.Kept t ∧ ∃ mr, c' = { c with serverMetadataMr := mr }) t := by
  have henomem : -ENOMEM ≠ 0 := by decide
  refine wp_rdmaBufferRegister ?_ fun pd mr => ?_
  · exact wp_if (fun _ => failed henomem) fun hmr => absurd rfl hmr
  refine wp_if (fun hnone => absurd hnone (Option.some_ne_none _)) fun _ => ?_
  intro ret
  refine wp_if (fun hret => failed (Nat.cast_ne_zero.mpr hret)) fun _ => ?_
  intro _
  exact ⟨h.gain 4 _ (by rw [Client.members, hbare.serverMetadataMr]; rfl), _, rfl⟩

theorem unbooked_connectLoop (id : Option Ptr) (fuel : ℕ) : (connectLoop id fuel).All Unbooked := by
  induction fuel with
  | zero => trivial
  | succ fuel ih =>
      refine ⟨fun _ _ => rfl, fun r => ?_⟩
      cases r with
      | error errno => exact ih
      | ok _ => trivial

/-- `client_connect_to_server` acquires nothing. -/
theorem wp_clientConnectToServer_books {c : Client} {t : Books} (h : c.Kept t) (fuel : ℕ) :
    (clientConnectToServer fuel c).wp Books.enter (fun o t => o = .returned 0 → c.Kept t) t := by
  have hstop {ret : ℤ} {t : Books} (hret : ret ≠ 0) :
      (Ending.returned ret) = .returned 0 → c.Kept t :=
    fun h => absurd (Ending.returned.inj h) hret
  refine wp_leaving (fun _ _ => rfl) ?_
  rw [wp_bind]
  refine Calls.wp_mono (fun o t' ht => ?_) (wp_unbooked (unbooked_connectLoop c.cmClientId fuel))
  rw [ht]
  cases o with
  | crashed | cut => rintro ⟨⟩
  | returned _ =>
  refine wp_processRdmaCmEvent_books (fun errno => ?_) (fun ret e hret => ?_) fun e he => ?_
  · exact wp_if (fun hret => hstop hret) fun hret => absurd (neg_errno_ne_zero errno) hret
  · exact wp_if (fun hret => hstop hret) fun hret' => absurd hret hret'
  rw [enter_event (by rw [he]; decide)]
  refine wp_if (fun h => absurd rfl h) fun _ => ?_
  intro r
  cases r with
  | error errno => exact hstop (neg_errno_ne_zero errno)
  | ok _ => exact fun _ => h

/-- `client_send_metadata_to_server1` may return zero before it has its completions. -/
theorem wp_clientSendMetadataToServer1_books {c : Client} {t : Books} (h : c.Kept t)
    (hmr : c.clientMetadataMr = none) (hsrc : c.clientSrcMr = none) (fuel : ℕ)
    (buf : Option Ptr) : (clientSendMetadataToServer1 fuel buf c).wp Books.enter
      (Succeeds fun c' t => c'.Kept t ∧
        ∃ src mr, c' = { c with clientSrcMr := src, clientMetadataMr := mr }) t := by
  have hminus : (-1 : ℤ) ≠ 0 := by decide
  obtain ⟨channel, id, pd, comp, cq, qp, clientMr, srcMr, dstMr, serverMr, src, dst⟩ := c
  obtain rfl : clientMr = none := hmr
  obtain rfl : srcMr = none := hsrc
  refine wp_leaving (fun _ _ => rfl) ?_
  refine wp_rdmaBufferRegister ?_ fun pd' srcMr => ?_
  · exact wp_if (fun _ => failed hminus) fun hmr => absurd rfl hmr
  refine wp_if (fun hnone => absurd hnone (Option.some_ne_none _)) fun _ => ?_
  have h := h.gain 6 ⟨.ibvRegMr pd' (.buf buf), some srcMr⟩ rfl
  refine wp_rdmaBufferRegister ?_ fun pd' mr => ?_
  · exact wp_if (fun _ => failed hminus) fun hmr => absurd rfl hmr
  refine wp_if (fun hnone => absurd hnone (Option.some_ne_none _)) fun _ => ?_
  have h := h.gain 5 ⟨.ibvRegMr pd' .clientMetadataAttr, some mr⟩ rfl
  intro ret
  refine wp_if (fun _ => ?_) fun _ => ?_
  · intro errno _
    exact ⟨h, _, _, rfl⟩
  rw [wp_bind]
  refine Calls.wp_mono (fun o t' ht => ?_)
    (wp_unbooked (unbooked_processWorkCompletionEvents fuel comp 2))
  rw [ht]
  cases o with
  | crashed | cut => trivial
  | returned ret => exact wp_if (fun _ _ => ⟨h, _, _, rfl⟩) fun _ _ => ⟨h, _, _, rfl⟩

/-- `client_disconnect_and_clean` is to release what the members hold, whatever fails. -/
theorem wp_clientDisconnectAndClean_drops {c : Client} (hqp : c.clientQp ≠ none) :
    (clientDisconnectAndClean c).wp Drops.enter (fun o d => o = .returned 0 ∧
      d = ⟨c.members.reduceOption, [.buf c.src, .buf c.dst]⟩) ⟨[], []⟩ := by
  refine wp_leaving (enter_of_none rfl rfl) ?_
  refine Calls.wp_unseen (fun r => enter_of_none rfl rfl r _) fun _ => ?_
  refine wp_processRdmaCmEvent_drops fun _ e => ?_
  refine Calls.wp_unseen (fun r => enter_of_none rfl rfl r _) fun _ => ?_
  intro _ _ _ _
  refine wp_rdmaBufferDeregister (wp_rdmaBufferDeregister ?_)
  refine wp_rdmaBufferDeregister (wp_rdmaBufferDeregister ?_)
  intro _ _ _ _
  obtain ⟨qp, hqp⟩ := Option.ne_none_iff_exists'.mp hqp
  refine ⟨rfl, ?_⟩
  simp [Drops.enter, target, freed, Client.members, Client.qp, hqp, reduceOption_cons]

theorem client_drops {c : Client} {l : List Event} {o : Ending ℤ}
    (hr : Runs (clientDisconnectAndClean c) l o) (hqp : c.clientQp ≠ none) : o = .returned 0 ∧
      targets l = c.members.reduceOption ∧ frees l = [.buf c.src, .buf c.dst] := by
  obtain ⟨ho, hdrops⟩ := Calls.wp_iff.mp (wp_clientDisconnectAndClean_drops hqp) l o hr
  rw [foldl_drops, List.nil_append, List.nil_append] at hdrops
  exact ⟨ho, Drops.mk.inj hdrops⟩

theorem Client.members_order (c : Client) :
    c.members.reduceOption.Pairwise fun r r' => MayUse r' r = false := by
  rw [List.reduceOption, List.pairwise_filterMap]
  simp [Client.members, MayUse]

/-- A client that has connected and sent its metadata releases all that it has
acquired, whatever fails.  The buffer of its caller is not freed. -/
theorem client_shutdown {fuel fuel' : ℕ} {buf : Option Ptr} {l₁ l₂ l₃ l₄ l' : List Event}
    {c₁ c₂ c₃ : Client} {o : Ending ℤ}
    (hprepare : Runs (clientPrepareConnection .new) l₁ (.returned (0, c₁)))
    (hqp : c₁.clientQp ≠ none)
    (hrecv : Runs (clientPrePostRecvBuffer c₁) l₂ (.returned (0, c₂)))
    (hconnect : Runs (clientConnectToServer fuel c₂) l₃ (.returned 0))
    (hsend : Runs (clientSendMetadataToServer1 fuel' buf c₂) l₄ (.returned (0, c₃)))
    (hr : Runs (clientDisconnectAndClean c₃) l' o) :
    o = .returned 0 ∧ Releases (l₁ ++ (l₂ ++ (l₃ ++ l₄))) l' [] ∧
      frees l' = [.buf none, .buf none] := by
  obtain ⟨h, hbare⟩ := Calls.wp_iff.mp wp_clientPrepareConnection_books l₁ _ hprepare rfl
  obtain ⟨h, serverMr, rfl⟩ :=
    Calls.wp_iff.mp (wp_clientPrePostRecvBuffer_books h hbare) l₂ _ hrecv rfl
  have h := Calls.wp_iff.mp (wp_clientConnectToServer_books h fuel) l₃ _ hconnect rfl
  have hend := wp_clientSendMetadataToServer1_books h hbare.clientMetadataMr hbare.clientSrcMr
    fuel' buf
  obtain ⟨h, srcMr, mr, rfl⟩ := Calls.wp_iff.mp hend l₄ _ hsend rfl
  obtain ⟨ho, htargets, hfrees⟩ := client_drops hr hqp
  refine ⟨ho, ⟨?_, ?_⟩, ?_⟩
  · rw [← List.foldl_append, ← List.foldl_append, ← List.foldl_append, foldl_enter] at h
    simp only [Client.Kept, Books.Balanced, List.append_nil] at h
    rw [htargets, List.append_nil]
    exact h.symm.trans (List.reverse_perm _)
  · rw [htargets]
    exact pairwise_not_madeFrom (Client.members_order _)
  · rw [hfrees, hbare.src, hbare.dst]

/-- The library that connects the client. -/
def withServer : ℕ → (c : Verb) → Reply c
  | n, .rdmaGetCmEvent _ =>
      .ok ⟨3, 0, if n = 3 then .addrResolved else if n = 6 then .routeResolved else .established, 4⟩
  | _, .rdmaResolveAddr _ => .ok ()
  | _, .rdmaResolveRoute _ => .ok ()
  | _, .rdmaConnect _ => .ok ()
  | n, c => withRequests n c

/-- All calls of the shutdown fail. -/
theorem client_shutdown_failing : ∃ l l' c, Runs (clientDisconnectAndClean c) l' (.returned 0) ∧
    Releases l l' [] ∧ l.filterMap acquired = [.eventChannel 1, .cmId 2, .pd 6, .compChannel 7,
      .cq 8, .qp 2, .mr 12, .mr 11, .mr 10] := by
  have hprepare : Runs (clientPrepareConnection .new) _ (.returned (0, ⟨some 1, some 2, some 6,
      some 7, some 8, some 9, none, none, none, none, none, none⟩)) :=
    Calls.runs_play withServer _ 0
  have hrecv : Runs (clientPrePostRecvBuffer ⟨some 1, some 2, some 6, some 7, some 8, some 9, none,
      none, none, none, none, none⟩) _ (.returned (0, ⟨some 1, some 2, some 6, some 7, some 8,
      some 9, none, none, none, some ⟨12, .serverMetadataAttr⟩, none, none⟩)) :=
    Calls.runs_play withServer _ 0
  have hconnect : Runs (clientConnectToServer 1 ⟨some 1, some 2, some 6, some 7, some 8, some 9,
      none, none, none, some ⟨12, .serverMetadataAttr⟩, none, none⟩) _ (.returned 0) :=
    Calls.runs_play withServer _ 0
  have hsend : Runs (clientSendMetadataToServer1 1 (some 5) ⟨some 1, some 2, some 6, some 7, some 8,
      some 9, none, none, none, some ⟨12, .serverMetadataAttr⟩, none, none⟩) _ (.returned (0,
      ⟨some 1, some 2, some 6, some 7, some 8, some 9, some ⟨10, .clientMetadataAttr⟩,
      some ⟨11, .buf (some 5)⟩, none, some ⟨12, .serverMetadataAttr⟩, none, none⟩)) :=
    Calls.runs_play withServer _ 0
  have hr := Calls.runs_play (fun _ c => plainReply c) (clientDisconnectAndClean ⟨some 1, some 2,
    some 6, some 7, some 8, some 9, some ⟨10, .clientMetadataAttr⟩, some ⟨11, .buf (some 5)⟩, none,
    some ⟨12, .serverMetadataAttr⟩, none, none⟩) 0
  obtain ⟨-, hreleases, -⟩ :=
    client_shutdown hprepare (Option.some_ne_none _) hrecv hconnect hsend hr
  exact ⟨_, _, _, hr, hreleases, rfl⟩

end StellarBench.Verbs
