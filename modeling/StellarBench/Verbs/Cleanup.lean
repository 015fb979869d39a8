import StellarBench.Verbs.Server

/-!
# The failures of `rdma_server_init`

`held` are the resources that a run has acquired and not released.
`rdma_server_init` releases nothing, so that a failure leaves all that was acquired
before it.  Only a failure of the first call is clean.

When the buffer of the caller cannot be registered, `rdma_buffer_alloc1` frees it and
its caller reads the NULL region (`crashed_iff`).
-/

namespace StellarBench.Verbs

open Calls (Runs log wp_bind wp_if)

/-! ## Resources -/

/-- What has to be released.  A QP is named by its CM id. -/
inductive Resource where
  | eventChannel (p : Ptr)
  | cmId (p : Ptr)
  | pd (p : Ptr)
  | compChannel (p : Ptr)
  | cq (p : Ptr)
  | qp (id : Ptr)
  | mr (p : Ptr)
deriving DecidableEq, Repr

/-- What a call acquires.  A connect request brings a CM id. -/
def acquired : Event → Option Resource
  | ⟨.rdmaCreateEventChannel, .ok p⟩ => some (.eventChannel p)
  | ⟨.rdmaCreateId _, .ok p⟩ => some (.cmId p)
  | ⟨.rdmaGetCmEvent _, .ok e⟩ => if e.event = .connectRequest then some (.cmId e.id) else none
  | ⟨.ibvAllocPd _, some p⟩ => some (.pd p)
  | ⟨.ibvCreateCompChannel _, some p⟩ => some (.compChannel p)
  | ⟨.ibvCreateCq _ _, some p⟩ => some (.cq p)
  | ⟨.rdmaCreateQp (some id) _ _, .ok _⟩ => some (.qp id)
  | ⟨.ibvRegMr _ _, some p⟩ => some (.mr p)
  | _ => none

/-- What a call releases. -/
def released : Event → Option Resource
  | ⟨.rdmaDestroyEventChannel (some p), _⟩ => some (.eventChannel p)
  | ⟨.rdmaDestroyId (some p), .ok _⟩ => some (.cmId p)
  | ⟨.ibvDeallocPd (some p), 0⟩ => some (.pd p)
  | ⟨.ibvDestroyCompChannel (some p), 0⟩ => some (.compChannel p)
  | ⟨.ibvDestroyCq (some p), 0⟩ => some (.cq p)
  | ⟨.rdmaDestroyQp (some id), _⟩ => some (.qp id)
  | ⟨.ibvDeregMr mr, 0⟩ => some (.mr mr.ptr)
  | _ => none

/-- The resources after a call. -/
def hold (resources : List Resource) (e : Event) : List Resource :=
  match released e with
  | some resource => resources.erase resource
  | none => (acquired e).toList ++ resources

/-- What a run has acquired and not released. -/
def held (l : List Event) : List Resource := l.foldl hold []

/-- A call of `rdma_server_init` fails. -/
def callFails : Event → Bool
  | ⟨.rdmaCreateEventChannel, .error _⟩ => true
  | ⟨.rdmaCreateId _, .error _⟩ => true
  | ⟨.rdmaBindAddr _, .error _⟩ => true
  | ⟨.rdmaListen _, .error _⟩ => true
  | ⟨.rdmaGetCmEvent _, .error _⟩ => true
  | ⟨.rdmaAckCmEvent _, .error _⟩ => true
  | ⟨.ibvAllocPd _, none⟩ => true
  | ⟨.ibvCreateCompChannel _, none⟩ => true
  | ⟨.ibvCreateCq _ _, none⟩ => true
  | ⟨.ibvReqNotifyCq _, ret⟩ => ret ≠ 0
  | ⟨.rdmaCreateQp _ _ _, .error _⟩ => true
  | ⟨.ibvRegMr _ _, none⟩ => true
  | ⟨.ibvPostRecv _, ret⟩ => ret ≠ 0
  | ⟨.rdmaAccept _, .error _⟩ => true
  | ⟨.ibvGetCqEvent _, none⟩ => true
  | ⟨.ibvPollCq _ _, .error _⟩ => true
  | ⟨.ibvPostSend _, ret⟩ => ret ≠ 0
  | _ => false

/-- The buffer of the caller is freed. -/
def Freed (registerBuf : Option Ptr) (l : List Event) : Prop :=
  ∃ e ∈ l, e.1 = .free (.buf registerBuf)

/-- The run returns non-zero, has released what it acquired, and has not freed the
buffer of the caller.  It has not read a NULL region, which is a crash. -/
structure Clean (registerBuf : Option Ptr) (l : List Event) (o : Ending (ℤ × Server)) : Prop where
  returned : ∃ ret s, o = .returned (ret, s) ∧ ret ≠ 0
  held_eq : held l = []
  not_freed : ¬ Freed registerBuf l

/-- A failure of a call is clean. -/
def CleanOnFailure (registerBuf : Option Ptr) (l : List Event) (o : Ending (ℤ × Server)) : Prop :=
  (∃ e ∈ l, callFails e) → Clean registerBuf l o

/-- The first call, `rdma_create_event_channel`, fails. -/
def ChannelFails (l : List Event) : Prop :=
  ∃ errno, l.head? = some ⟨.rdmaCreateEventChannel, .error errno⟩

/-! ## What is held -/

/-- The call is no release. -/
def Keeps (c : Verb) : Prop := ∀ r, released ⟨c, r⟩ = none

theorem mem_foldl_hold {l : List Event} (hl : ∀ e ∈ l, Keeps e.1) (resources : List Resource)
    (x : Resource) : x ∈ l.foldl hold resources ↔
      x ∈ resources ∨ ∃ e ∈ l, acquired e = some x := by
  induction l generalizing resources with
  | nil => simp
  | cons e l ih =>
      obtain ⟨he, hl⟩ := List.forall_mem_cons.mp hl
      have hhold : hold resources e = (acquired e).toList ++ resources := by rw [hold, he e.2]
      rw [List.foldl_cons, ih hl, hhold, List.mem_append, Option.mem_toList,
        List.exists_mem_cons_iff]
      tauto

/-- Without a release all that was acquired is held. -/
theorem mem_held {l : List Event} (hl : ∀ e ∈ l, Keeps e.1) (x : Resource) :
    x ∈ held l ↔ ∃ e ∈ l, acquired e = some x := by
  rw [held, mem_foldl_hold hl]
  simp

/-! ## What `rdma_server_init` calls -/

/-- The call releases nothing, and is not about the buffer of the caller. -/
def harmless : Verb → Bool
  | .rdmaDestroyQp _ => false
  | .rdmaDestroyId _ => false
  | .rdmaDestroyEventChannel _ => false
  | .ibvDeallocPd _ => false
  | .ibvDestroyCompChannel _ => false
  | .ibvDestroyCq _ => false
  | .ibvDeregMr _ => false
  | .ibvRegMr _ (.buf _) => false
  | .free _ => false
  | _ => true

/-- A program of harmless calls that does not crash and returns `P`. -/
abbrev Harmless {β : Type} (P : β → Prop) (p : VerbsM β) : Prop := p.Safe (fun c => harmless c) P

theorem keeps_of_harmless (c : Verb) (hc : harmless c) : Keeps c := by
  intro r
  cases c <;> first | rfl | exact absurd hc Bool.false_ne_true

theorem Harmless.keeps {β : Type} {P : β → Prop} {p : VerbsM β} (h : Harmless P p) :
    p.All Keeps :=
  h.all.mono keeps_of_harmless

theorem harmless_leaving {β : Type} {P : β → Prop} {body : VerbsM β} (h : Harmless P body) :
    Harmless P (leaving body) :=
  h.bind fun _ hb => ⟨rfl, fun _ => hb⟩

theorem harmless_errno {γ : Type} {P : γ → Prop} {f : ℕ → γ} (h : ∀ n, P (f n)) :
    Harmless P (do return f (← errno)) :=
  ⟨rfl, h⟩

/-- `process_rdma_cm_event` succeeds with an event. -/
theorem harmless_processRdmaCmEvent (echannel : Option Ptr) (expectedEvent : CmEventType) :
    Harmless (fun r => r.1 = 0 → ∃ e, r.2 = some e)
      (processRdmaCmEvent echannel expectedEvent) := by
  refine ⟨rfl, fun r => ?_⟩
  cases r with
  | error errno => exact fun h => absurd h (neg_ne_zero.mpr (by exact_mod_cast errno.ne_zero))
  | ok e =>
      refine .ite (fun hstatus => ⟨rfl, fun _ h => absurd h (neg_ne_zero.mpr hstatus)⟩) fun _ => ?_
      have hunexpected : (-1 : ℤ) ≠ 0 := by decide
      exact .ite (fun _ => ⟨rfl, fun _ h => absurd h hunexpected⟩) fun _ _ => ⟨e, rfl⟩

theorem harmless_startRdmaServer (s : Server) : Harmless (fun _ => True) (startRdmaServer s) := by
  refine harmless_leaving ⟨rfl, fun r => ?_⟩
  cases r with
  | error errno => trivial
  | ok channel =>
  refine ⟨rfl, fun r => ?_⟩
  cases r with
  | error errno => trivial
  | ok id =>
  refine ⟨rfl, fun r => ?_⟩
  cases r with
  | error errno => trivial
  | ok _ =>
  refine ⟨rfl, fun r => ?_⟩
  cases r with
  | error errno => trivial
  | ok _ =>
  refine (harmless_processRdmaCmEvent _ _).bind fun ⟨ret, cmEvent⟩ hevent => ?_
  refine .ite (fun _ => trivial) fun hret => ?_
  obtain ⟨e, rfl⟩ := hevent (not_not.mp hret)
  refine ⟨rfl, fun r => ?_⟩
  cases r with
  | error errno => trivial
  | ok _ => trivial

theorem harmless_setupClientResources (s : Server) :
    Harmless (fun _ => True) (setupClientResources s) := by
  have herrno (s : Server) : Harmless (fun _ => True) (do return (-(← errno : ℤ), s)) :=
    harmless_errno fun _ => trivial
  refine .ite (fun _ => trivial) fun _ => ⟨rfl, fun pd => ?_⟩
  refine .ite (fun _ => herrno _) fun _ => ⟨rfl, fun channel => ?_⟩
  refine .ite (fun _ => herrno _) fun _ => ⟨rfl, fun cq => ?_⟩
  refine .ite (fun _ => herrno _) fun _ => ⟨rfl, fun ret => ?_⟩
  refine .ite (fun _ => herrno _) fun _ => ⟨rfl, fun r => ?_⟩
  cases r with
  | error errno => trivial
  | ok qp => trivial

theorem harmless_register {pd : Option Ptr} {addr : Addr} (h : ∀ pd, harmless (.ibvRegMr pd addr)) :
    Harmless (fun mr => mr ≠ none → pd ≠ none) (rdmaBufferRegister pd addr) := by
  cases pd with
  | none => exact fun hmr => absurd rfl hmr
  | some pd => exact ⟨h pd, fun _ _ => Option.some_ne_none pd⟩

/-- The server accepts with a protection domain only. -/
theorem harmless_acceptClientConnection (s : Server) :
    Harmless (fun r => r.1 = 0 → r.2.pd ≠ none) (acceptClientConnection s) := by
  have heinval : -EINVAL ≠ 0 := by decide
  have henomem : -ENOMEM ≠ 0 := by decide
  refine harmless_leaving (.ite (fun _ h => absurd h heinval) fun _ => ?_)
  refine (harmless_register fun _ => rfl).bind fun mr hpd => ?_
  refine .ite (fun _ h => absurd h henomem) fun hmr => ⟨rfl, fun ret => ?_⟩
  have hpd := hpd hmr
  refine .ite (fun _ _ => hpd) fun _ => ⟨rfl, fun r => ?_⟩
  cases r with
  | error errno => exact fun _ => hpd
  | ok _ =>
  refine (harmless_processRdmaCmEvent _ _).bind fun ⟨ret, cmEvent⟩ _ => ?_
  refine .ite (fun _ => harmless_errno fun _ _ => hpd) fun _ => ⟨rfl, fun r => ?_⟩
  cases r with
  | error errno => exact fun _ => hpd
  | ok _ => exact fun _ => hpd

theorem harmless_pollLoop (cq : Ptr) (maxWc fuel : ℕ) (wc : List ℕ) :
    Harmless (fun _ => True) (pollLoop cq maxWc fuel wc) := by
  induction fuel generalizing wc with
  | zero => trivial
  | succ fuel ih =>
      refine ⟨rfl, fun r => ?_⟩
      cases r with
      | error ret => trivial
      | ok statuses => exact .ite (fun _ => ih _) fun _ => trivial

theorem harmless_processWorkCompletionEvents (fuel : ℕ) (compChannel : Option Ptr) (maxWc : ℕ) :
    Harmless (fun _ => True) (processWorkCompletionEvents fuel compChannel maxWc) := by
  refine ⟨rfl, fun r => ?_⟩
  cases r with
  | none => exact harmless_errno fun _ => trivial
  | some cq =>
  refine ⟨rfl, fun ret => .ite (fun _ => harmless_errno fun _ => trivial) fun _ => ?_⟩
  refine (harmless_pollLoop _ _ _ _).bind fun r _ => ?_
  cases r with
  | error ret => trivial
  | ok wc =>
  dsimp only
  split
  · trivial
  · exact ⟨rfl, fun _ => trivial⟩

/-- The rest of `send_server_metadata_to_client1`, with a region. -/
theorem harmless_sendMetadata (s : Server) : Harmless (fun _ => True) (do
    let mr ← rdmaBufferRegister s.pd .serverMetadataAttr
    let s := { s with serverMetadataMr := mr }
    if mr = none then
      return (-(← errno), s)
    let ret ← ibvPostSend s.clientQp
    if ret ≠ 0 then
      return (-ret, s)
    return (0, s) : VerbsM (ℤ × Server)) := by
  refine (harmless_register fun _ => rfl).bind fun mr _ => ?_
  refine .ite (fun _ => harmless_errno fun _ => trivial) fun _ => ⟨rfl, fun ret => ?_⟩
  exact .ite (fun _ => trivial) fun _ => trivial

theorem all_sendServerMetadataToClient1 (fuel : ℕ) (buf : Option Ptr) (s : Server) :
    (sendServerMetadataToClient1 fuel buf s).All Keeps := by
  have hpolls := harmless_processWorkCompletionEvents fuel s.ioCompletionChannel 1
  refine Calls.All.bind ?_ fun _ => ⟨fun _ => rfl, fun _ => trivial⟩
  refine hpolls.keeps.bind fun ret => .ite trivial ?_
  refine (all_alloc1 (fun _ _ _ => rfl) (fun _ _ => rfl) s.pd buf).bind fun mr => ?_
  cases mr with
  | none => trivial
  | some mr => exact (harmless_sendMetadata _).keeps

/-- `rdma_server_init` releases nothing. -/
theorem all_rdmaServerInit (fuel : ℕ) (buf : Option Ptr) (s : Server) :
    (rdmaServerInit fuel buf s).All Keeps := by
  refine (harmless_startRdmaServer s).keeps.bind fun ⟨ret, s⟩ => ?_
  refine .ite trivial ((harmless_setupClientResources s).keeps.bind ?_)
  refine fun ⟨ret, s⟩ => .ite trivial ?_
  refine (harmless_acceptClientConnection s).keeps.bind fun ⟨ret, s⟩ => ?_
  refine .ite trivial ((all_sendServerMetadataToClient1 fuel buf s).bind ?_)
  exact fun ⟨ret, s⟩ => .ite trivial trivial

/-! ## When it fails cleanly -/

/-- Only a failure of the first call is clean. -/
theorem clean_iff {fuel : ℕ} {buf : Option Ptr} {s : Server} {l : List Event}
    {o : Ending (ℤ × Server)} (hr : Runs (rdmaServerInit fuel buf s) l o) :
    Clean buf l o ↔ ChannelFails l := by
  have hkeeps := (all_rdmaServerInit fuel buf s).of_runs hr
  obtain ⟨r, l', rfl, hrest⟩ := Calls.runs_call.mp hr
  cases r with
  | ok channel =>
      -- the channel is held at the end
      have hchannel : Resource.eventChannel channel ∈
          held (⟨.rdmaCreateEventChannel, .ok channel⟩ :: l') :=
        (mem_held hkeeps _).mpr ⟨_, List.mem_cons_self, rfl⟩
      refine ⟨fun hclean => ?_, fun ⟨errno, hfails⟩ => by cases hfails⟩
      rw [hclean.held_eq] at hchannel
      exact absurd hchannel List.not_mem_nil
  | error errno =>
      refine ⟨fun _ => ⟨errno, rfl⟩, fun _ => ?_⟩
      have hret : (-errno : ℤ) ≠ 0 := neg_ne_zero.mpr (by exact_mod_cast errno.ne_zero)
      obtain ⟨_, l', rfl, hleft⟩ := Calls.runs_call.mp hrest
      have hreturn : Runs (if (-errno : ℤ) ≠ 0 then
          .ret (-(errno : ℤ), { s with cmEventChannel := none }) else _) l' o := hleft
      rw [if_pos hret] at hreturn
      cases hreturn
      exact ⟨⟨_, _, rfl, hret⟩, rfl, by simp [Freed]⟩

/-- A failure of `rdma_server_init` is clean exactly if it is the first call that
fails. -/
theorem cleanOnFailure_iff (fuel : ℕ) (buf : Option Ptr) (s : Server) (l : List Event)
    (o : Ending (ℤ × Server)) (hr : Runs (rdmaServerInit fuel buf s) l o) :
    CleanOnFailure buf l o ↔ ((∃ e ∈ l, callFails e) → ChannelFails l) :=
  forall_congr' fun _ => clean_iff hr

/-- A run without an event channel. -/
theorem clean_without_channel :
    ∃ l o, Runs (rdmaServerInit 1 (some 5) Server.new) l o ∧ Clean (some 5) l o := by
  have hr := Calls.runs_play (fun _ c => plainReply c) (rdmaServerInit 1 (some 5) Server.new) 0
  have hiff := cleanOnFailure_iff 1 (some 5) Server.new _ _ hr
  exact ⟨_, _, hr, hiff.mpr (fun _ => ⟨1, rfl⟩) ⟨_, List.mem_cons_self, rfl⟩⟩

/-- The library that creates an event channel and no CM id. -/
def withoutId : ℕ → (c : Verb) → Reply c
  | _, .rdmaCreateEventChannel => .ok 1
  | _, c => plainReply c

/-- The library that registers no buffer.  The fifth call gets the connect request. -/
def withoutBuffer : ℕ → (c : Verb) → Reply c
  | _, .rdmaCreateEventChannel => .ok 1
  | _, .rdmaCreateId _ => .ok 2
  | _, .rdmaBindAddr _ => .ok ()
  | _, .rdmaListen _ => .ok ()
  | n, .rdmaGetCmEvent _ => .ok ⟨3, 0, if n = 4 then .connectRequest else .established, 4⟩
  | _, .rdmaAckCmEvent _ => .ok ()
  | _, .ibvAllocPd _ => some 6
  | _, .ibvCreateCompChannel _ => some 7
  | _, .ibvCreateCq _ _ => some 8
  | _, .rdmaCreateQp _ _ _ => .ok 9
  | _, .ibvRegMr _ .clientMetadataAttr => some 10
  | _, .rdmaAccept _ => .ok ()
  | _, .ibvGetCqEvent _ => some 8
  | _, .ibvPollCq _ n => .ok ⟨List.replicate n 0, List.length_replicate.le⟩
  | _, c => plainReply c

/-- The channel is left without a CM id.  Without a region the buffer is freed, and
the server crashes. -/
theorem not_cleanOnFailure :
    (∃ l o, Runs (rdmaServerInit 1 (some 5) Server.new) l o ∧ ¬ CleanOnFailure (some 5) l o) ∧
      ∃ l, Runs (rdmaServerInit 1 (some 5) Server.new) l .crashed ∧ Freed (some 5) l ∧
        ¬ CleanOnFailure (some 5) l .crashed := by
  refine ⟨⟨_, _, Calls.runs_play withoutId _ 0, fun h => ?_⟩,
    ⟨_, Calls.runs_play withoutBuffer _ 0, ?_, fun h => ?_⟩⟩
  · have hclean := h (by decide)
    exact absurd hclean.held_eq (by decide)
  · unfold Freed
    decide
  · obtain ⟨ret, s, hcrashed, -⟩ := (h (by decide)).returned
    cases hcrashed

/-! ## The buffer of the caller -/

/-- The buffer cannot be registered. -/
def Unregistered (p : Ptr) (l : List Event) : Prop :=
  ∃ pd, ⟨.ibvRegMr pd (.buf (some p)), none⟩ ∈ l

/-- The buffer has not been freed, and its registration has not failed. -/
def Untouched (p : Ptr) (l : List Event) : Prop := ¬ Unregistered p l ∧ ¬ Freed (some p) l

/-- What a run does to the buffer. -/
def Fate {β : Type} (p : Ptr) : Ending β → List Event → Prop
  | .returned _, l => Untouched p l
  | .crashed, l => Unregistered p l ∧ Freed (some p) l
  | .cut, l => Untouched p l

section

variable {β γ : Type} {p : Ptr} {l : List Event}

theorem Untouched.log (hl : Untouched p l) {e : Event}
    (hreg : ∀ pd, e ≠ ⟨.ibvRegMr pd (.buf (some p)), none⟩)
    (hfree : e.1 ≠ .free (.buf (some p))) : Untouched p (log l e) := by
  refine ⟨fun ⟨pd, hpd⟩ => ?_, fun ⟨e', he', h⟩ => ?_⟩
  · rcases List.mem_append.mp hpd with hpd | hpd
    · exact hl.1 ⟨pd, hpd⟩
    · exact hreg pd (List.mem_singleton.mp hpd).symm
  · rcases List.mem_append.mp he' with he' | he'
    · exact hl.2 ⟨e', he', h⟩
    · exact hfree (List.mem_singleton.mp he' ▸ h)

theorem Untouched.log_harmless (c : Verb) (hc : harmless c) (r : Reply c) (l : List Event)
    (hl : Untouched p l) : Untouched p (Calls.log l ⟨c, r⟩) := by
  refine hl.log (fun pd h => ?_) fun h => ?_
  · cases h
    exact Bool.false_ne_true hc
  · cases h
    exact Bool.false_ne_true hc

theorem wp_harmless {P : β → Prop} {q : VerbsM β} (hq : Harmless P q) (hl : Untouched p l) :
    q.wp log (Fate p) l :=
  hq.wp Untouched.log_harmless (fun _ _ _ hl => hl) (fun _ hl => hl) hl

theorem wp_harmless_bind {P : β → Prop} {q : VerbsM β} {f : β → VerbsM γ} (hq : Harmless P q)
    (hf : ∀ b l, P b → Untouched p l → (f b).wp log (Fate p) l) (hl : Untouched p l) :
    (q >>= f).wp log (Fate p) l := by
  rw [wp_bind]
  exact hq.wp Untouched.log_harmless hf (fun _ hl => hl) hl

theorem wp_leaving_fate {body : VerbsM β} (h : body.wp log (Fate p) l) :
    (leaving body).wp log (Fate p) l := by
  rw [leaving, wp_bind]
  refine Calls.wp_mono (fun o l hl => ?_) h
  cases o with
  | returned b => exact fun r => hl.log_harmless .leave rfl r
  | crashed => exact hl
  | cut => exact hl

/-- `rdma_buffer_alloc1` registers the buffer or frees it. -/
theorem wp_rdmaBufferAlloc1 {pd : Option Ptr} {f : Option Mr → VerbsM γ} (hl : Untouched p l)
    (hpd : pd ≠ none) (hsome : ∀ mr l, Untouched p l → (f (some mr)).wp log (Fate p) l)
    (hnone : ∀ l, Unregistered p l → Freed (some p) l → (f none).wp log (Fate p) l) :
    (rdmaBufferAlloc1 pd (some p) >>= f).wp log (Fate p) l := by
  obtain ⟨pd, rfl⟩ := Option.ne_none_iff_exists'.mp hpd
  intro r
  cases r with
  | none =>
      intro _
      have hreg : ⟨.ibvRegMr pd (.buf (some p)), none⟩ ∈
          log l ⟨.ibvRegMr pd (.buf (some p)), none⟩ := List.mem_concat_self
      exact hnone _ ⟨pd, List.mem_append_left _ hreg⟩ ⟨_, List.mem_concat_self, rfl⟩
  | some mr =>
      have hl : Untouched p (log l ⟨.ibvRegMr pd (.buf (some p)), some mr⟩) :=
        hl.log nofun nofun
      exact hsome _ _ hl

/-- When the buffer is freed, the NULL region is read. -/
theorem wp_sendServerMetadataToClient1 (hl : Untouched p l) {s : Server} (hpd : s.pd ≠ none)
    (fuel : ℕ) : (sendServerMetadataToClient1 fuel (some p) s).wp log (Fate p) l := by
  have hpolls := harmless_processWorkCompletionEvents fuel s.ioCompletionChannel 1
  refine wp_leaving_fate (wp_harmless_bind hpolls (fun ret l _ hl => ?_) hl)
  refine wp_if (fun _ => hl) fun _ => ?_
  refine wp_rdmaBufferAlloc1 hl hpd (fun mr l hl => ?_) fun l hreg hfreed => ⟨hreg, hfreed⟩
  exact wp_harmless (harmless_sendMetadata _) hl

theorem wp_rdmaServerInit_buffer (hl : Untouched p l) (fuel : ℕ) (s : Server) :
    (rdmaServerInit fuel (some p) s).wp log (Fate p) l := by
  refine wp_harmless_bind (harmless_startRdmaServer s) (fun ⟨ret, s⟩ l _ hl => ?_) hl
  refine wp_if (fun _ => hl) fun _ => ?_
  refine wp_harmless_bind (harmless_setupClientResources s) (fun ⟨ret, s⟩ l _ hl => ?_) hl
  refine wp_if (fun _ => hl) fun _ => ?_
  refine wp_harmless_bind (harmless_acceptClientConnection s) (fun ⟨ret, s⟩ l hpd hl => ?_) hl
  refine wp_if (fun _ => hl) fun hret => ?_
  have hsend := wp_sendServerMetadataToClient1 hl (hpd (not_not.mp hret)) fuel
  rw [wp_bind]
  refine Calls.wp_mono (fun o l hl => ?_) hsend
  cases o with
  | returned r => exact wp_if (fun _ => hl) fun _ => hl
  | crashed => exact hl
  | cut => exact hl

end

/-- `rdma_server_init` frees the buffer of its caller exactly if it cannot be
registered, and crashes exactly then. -/
theorem crashed_iff {fuel : ℕ} {p : Ptr} {s : Server} {l : List Event} {o : Ending (ℤ × Server)}
    (hr : Runs (rdmaServerInit fuel (some p) s) l o) :
    (Freed (some p) l ↔ Unregistered p l) ∧ (o = .crashed ↔ Unregistered p l) := by
  have hnone : Untouched p [] := by simp [Untouched, Unregistered, Freed]
  have hfate : Fate p o l := Calls.of_wp_log (wp_rdmaServerInit_buffer hnone fuel s) hr
  cases o with
  | returned r => exact ⟨iff_of_false hfate.2 hfate.1, iff_of_false nofun hfate.1⟩
  | crashed => exact ⟨iff_of_true hfate.2 hfate.1, iff_of_true rfl hfate.1⟩
  | cut => exact ⟨iff_of_false hfate.2 hfate.1, iff_of_false nofun hfate.1⟩

end StellarBench.Verbs
