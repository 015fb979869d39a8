import Mathlib.Tactic

/-!
# The connections of one server loop

`server_event_loop` serves every connection with the one `conn_context` it was
given.  `server_on_pre_conn` creates a buffer, a message block and two memory
regions and stores the pointers there, over those of an earlier connection.
`server_on_connection` and `server_on_disconnect` take what they find there.

So a connection keeps its resources exactly as long as no other connection is
requested (`Alone`), and the resources are released once each and by their owner
exactly if every event finds its own connection last requested
(`released_by_owner_iff`).

The pointers and the regions are numbered by the call of `server_on_pre_conn` that
created them.  `created`, `released` and `named` are histories.
-/

namespace StellarBench

/-! ## Resources and events -/

/-- What `server_on_pre_conn` creates. -/
inductive AllocationKind where
  | buffer | bufferMr | msg | msgMr
deriving DecidableEq, Repr

/-- A resource, by the call that created it. -/
structure Allocation where
  kind : AllocationKind
  call : ℕ
deriving DecidableEq, Repr

/-- The pointers of the shared `struct conn_context`. -/
structure SharedContext where
  buffer : Option Allocation
  bufferMr : Option Allocation
  msg : Option Allocation
  msgMr : Option Allocation
deriving DecidableEq, Repr

/-- The loop: its context and what it did for which connection id. -/
structure ServerLoop where
  ctx : SharedContext
  calls : ℕ
  created : List (Allocation × ℕ)
  released : List (Option Allocation × ℕ)
  named : List (Option Allocation × ℕ)
deriving DecidableEq, Repr

/-- The CM events of a listener. -/
inductive CmEvent where
  | connectRequest (id : ℕ)
  | established (id : ℕ)
  | disconnected (id : ℕ)
deriving DecidableEq, Repr

/-- `event_copy.id`. -/
def CmEvent.id : CmEvent → ℕ
  | .connectRequest i | .established i | .disconnected i => i

/-- The connection a `CONNECT_REQUEST` brings. -/
def CmEvent.request? : CmEvent → Option ℕ
  | .connectRequest i => some i
  | _ => none

namespace ServerLoop

/-! ## The handlers -/

/-- `server_on_pre_conn`. -/
def serverOnPreConn (id : ℕ) (s : ServerLoop) : ServerLoop :=
  { s with
    ctx := ⟨some ⟨.buffer, s.calls⟩, some ⟨.bufferMr, s.calls⟩, some ⟨.msg, s.calls⟩,
      some ⟨.msgMr, s.calls⟩⟩
    calls := s.calls + 1
    created := s.created ++ [(⟨.buffer, s.calls⟩, id), (⟨.bufferMr, s.calls⟩, id),
      (⟨.msg, s.calls⟩, id), (⟨.msgMr, s.calls⟩, id)] }

/-- `server_on_connection`: `MSG_MR` names the region of the context. -/
def serverOnConnection (id : ℕ) (s : ServerLoop) : ServerLoop :=
  { s with named := s.named ++ [(s.ctx.bufferMr, id)] }

/-- `server_on_disconnect`. -/
def serverOnDisconnect (id : ℕ) (s : ServerLoop) : ServerLoop :=
  { s with released := s.released ++ [(s.ctx.bufferMr, id), (s.ctx.msgMr, id),
      (s.ctx.buffer, id), (s.ctx.msg, id)] }

/-- One turn of `server_event_loop`. -/
def event (s : ServerLoop) : CmEvent → ServerLoop
  | .connectRequest id => s.serverOnPreConn id
  | .established id => s.serverOnConnection id
  | .disconnected id => s.serverOnDisconnect id

end ServerLoop

/-- `server_event_loop` with `exit_on_disconnect = 0`, after these events. -/
def serverEventLoop (es : List CmEvent) : ServerLoop :=
  es.foldl ServerLoop.event ⟨⟨none, none, none, none⟩, 0, [], [], []⟩

/-! ## Sequences of events -/

/-- Each connection id goes `CONNECT_REQUEST`, `ESTABLISHED`, `DISCONNECTED`, as far
as it goes. -/
def WellFormed (es : List CmEvent) : Prop :=
  ∀ i, es.filter (fun e => e.id = i) <+: [.connectRequest i, .established i, .disconnected i]

/-- The connections requested so far. -/
def requests (es : List CmEvent) : List ℕ := es.filterMap CmEvent.request?

/-- Each event after its request finds its connection the last one requested: no
other connection is requested before a connection is through. -/
def Alone (es : List CmEvent) : Prop :=
  ∀ pre e, pre ++ [e] <+: es → e.request? = none → (requests pre).getLast? = some e.id

theorem wellFormed_iff (es : List CmEvent) : WellFormed es ↔ ∀ e ∈ es,
    es.filter (fun x => x.id = e.id) <+:
      [.connectRequest e.id, .established e.id, .disconnected e.id] := by
  constructor
  · intro h e _
    exact h e.id
  · intro h i
    by_cases hi : ∃ e ∈ es, e.id = i
    · obtain ⟨e, he, rfl⟩ := hi
      exact h e he
    · have hnil : es.filter (fun x => x.id = i) = [] := by
        rw [List.filter_eq_nil_iff]
        intro e he hid
        exact hi ⟨e, he, of_decide_eq_true hid⟩
      rw [hnil]
      exact List.nil_prefix

theorem alone_iff (es : List CmEvent) : Alone es ↔ ∀ n : Fin es.length,
    (es.get n).request? = none → (requests (es.take n)).getLast? = some (es.get n).id := by
  constructor
  · intro h n hn
    refine h _ _ ?_ hn
    rw [List.get_eq_getElem, List.take_concat_get' es n n.isLt]
    exact List.take_prefix _ es
  · rintro h pre e ⟨post, rfl⟩ he
    have hat := h ⟨pre.length, by simp⟩
    simp only [List.get_eq_getElem, List.append_assoc, List.singleton_append,
      List.getElem_append_right le_rfl, Nat.sub_self, List.getElem_cons_zero,
      List.take_left] at hat
    exact hat he

instance (es : List CmEvent) : Decidable (WellFormed es) :=
  decidable_of_iff _ (wellFormed_iff es).symm

instance (es : List CmEvent) : Decidable (Alone es) :=
  decidable_of_iff _ (alone_iff es).symm

/-- What the loop owes to its connections. -/
structure ReleasedByOwner (es : List CmEvent) (s : ServerLoop) : Prop where
  owner : ∀ x i, (x, i) ∈ s.released → ∃ r, x = some r ∧ (r, i) ∈ s.created
  once : (s.released.map Prod.fst).Nodup
  named : ∀ x i, (x, i) ∈ s.named → ∃ r, x = some r ∧ r.kind = .bufferMr ∧ (r, i) ∈ s.created
  all : (∀ i, .connectRequest i ∈ es → .disconnected i ∈ es) →
    ∀ r i, (r, i) ∈ s.created → (some r, i) ∈ s.released

/-! ## The histories in closed form -/

/-- The resource that a context pointer of this kind holds. -/
def current (es : List CmEvent) (k : AllocationKind) : Option Allocation :=
  if requests es = [] then none else some ⟨k, (requests es).length - 1⟩

theorem serverEventLoop_concat (es : List CmEvent) (e : CmEvent) :
    serverEventLoop (es ++ [e]) = (serverEventLoop es).event e := by
  rw [serverEventLoop, List.foldl_append]
  rfl

theorem requests_concat (es : List CmEvent) (e : CmEvent) :
    requests (es ++ [e]) = requests es ++ e.request?.toList := by
  rw [requests, List.filterMap_append]
  cases e <;> rfl

theorem calls_eq (es : List CmEvent) : (serverEventLoop es).calls = (requests es).length := by
  induction es using List.reverseRecOn with
  | nil => rfl
  | append_singleton es e ih =>
      rw [serverEventLoop_concat, requests_concat, List.length_append, ← ih]
      cases e <;> rfl

theorem ctx_eq (es : List CmEvent) : (serverEventLoop es).ctx =
    ⟨current es .buffer, current es .bufferMr, current es .msg, current es .msgMr⟩ := by
  induction es using List.reverseRecOn with
  | nil => rfl
  | append_singleton es e ih =>
      rw [serverEventLoop_concat]
      cases e with
      | connectRequest i =>
          simp [ServerLoop.event, ServerLoop.serverOnPreConn, current, requests_concat,
            CmEvent.request?, calls_eq]
      | established i | disconnected i =>
          simpa [ServerLoop.event, ServerLoop.serverOnConnection, ServerLoop.serverOnDisconnect,
            current, requests_concat, CmEvent.request?] using ih

theorem mem_created (es : List CmEvent) (r : Allocation) (i : ℕ) :
    (r, i) ∈ (serverEventLoop es).created ↔ (requests es)[r.call]? = some i := by
  induction es using List.reverseRecOn with
  | nil => simp [serverEventLoop, requests]
  | append_singleton es e ih =>
      rw [serverEventLoop_concat, requests_concat]
      cases e with
      | connectRequest j =>
          obtain ⟨k, n⟩ := r
          simp only [ServerLoop.event, ServerLoop.serverOnPreConn, calls_eq, CmEvent.request?,
            Option.toList_some, List.mem_append, ih]
          rcases lt_trichotomy n (requests es).length with hlt | rfl | hgt
          · rw [List.getElem?_append_left hlt]
            simp [hlt.ne]
          · simp only [List.getElem?_length, List.getElem?_concat_length]
            cases k <;> simp [eq_comm]
          · have hold : (requests es)[n]? = none := List.getElem?_eq_none hgt.le
            have hnew : (requests es ++ [j])[n]? = none :=
              List.getElem?_eq_none (by simpa using Nat.succ_le_of_lt hgt)
            rw [hold, hnew]
            simp [hgt.ne']
      | established j | disconnected j =>
          simpa [ServerLoop.event, ServerLoop.serverOnConnection, ServerLoop.serverOnDisconnect,
            CmEvent.request?] using ih

/-- What happens before an event of a longer sequence. -/
theorem prefix_snoc_iff {pre es : List CmEvent} {x e : CmEvent} :
    pre ++ [x] <+: es ++ [e] ↔ pre ++ [x] <+: es ∨ (pre = es ∧ x = e) := by
  rw [List.prefix_concat_iff]
  constructor
  · rintro (heq | hpre)
    · obtain ⟨h1, h2⟩ := List.append_inj' heq rfl
      exact .inr ⟨h1, List.singleton_inj.mp h2⟩
    · exact .inl hpre
  · rintro (hpre | ⟨rfl, rfl⟩)
    · exact .inr hpre
    · exact .inl rfl

/-- Every release is one of the four of a `server_on_disconnect`. -/
theorem mem_released (es : List CmEvent) (x : Option Allocation) (i : ℕ) :
    (x, i) ∈ (serverEventLoop es).released ↔
      ∃ pre k, pre ++ [.disconnected i] <+: es ∧ x = current pre k := by
  induction es using List.reverseRecOn with
  | nil => simp [serverEventLoop]
  | append_singleton es e ih =>
      rw [serverEventLoop_concat]
      simp only [prefix_snoc_iff]
      cases e with
      | connectRequest j | established j =>
          simpa [ServerLoop.event, ServerLoop.serverOnPreConn, ServerLoop.serverOnConnection]
            using ih
      | disconnected j =>
          simp only [ServerLoop.event, ServerLoop.serverOnDisconnect, ctx_eq, List.mem_append, ih]
          constructor
          · rintro (⟨pre, k, hpre, hx⟩ | hmem)
            · exact ⟨pre, k, .inl hpre, hx⟩
            · simp only [List.mem_cons, Prod.mk.injEq, List.not_mem_nil, or_false] at hmem
              rcases hmem with ⟨rfl, rfl⟩ | ⟨rfl, rfl⟩ | ⟨rfl, rfl⟩ | ⟨rfl, rfl⟩ <;>
                exact ⟨es, _, .inr ⟨rfl, rfl⟩, rfl⟩
          · rintro ⟨pre, k, hpre | ⟨rfl, hij⟩, hx⟩
            · exact .inl ⟨pre, k, hpre, hx⟩
            · obtain rfl := CmEvent.disconnected.inj hij
              subst hx
              cases k <;> simp

/-- Every `MSG_MR` is that of a `server_on_connection`. -/
theorem mem_named (es : List CmEvent) (x : Option Allocation) (i : ℕ) :
    (x, i) ∈ (serverEventLoop es).named ↔
      ∃ pre, pre ++ [.established i] <+: es ∧ x = current pre .bufferMr := by
  induction es using List.reverseRecOn with
  | nil => simp [serverEventLoop]
  | append_singleton es e ih =>
      rw [serverEventLoop_concat]
      simp only [prefix_snoc_iff]
      cases e with
      | connectRequest j | disconnected j =>
          simpa [ServerLoop.event, ServerLoop.serverOnPreConn, ServerLoop.serverOnDisconnect]
            using ih
      | established j =>
          simp only [ServerLoop.event, ServerLoop.serverOnConnection, ctx_eq, List.mem_append, ih,
            List.mem_singleton, Prod.mk.injEq]
          constructor
          · rintro (⟨pre, hpre, hx⟩ | ⟨rfl, rfl⟩)
            · exact ⟨pre, .inl hpre, hx⟩
            · exact ⟨es, .inr ⟨rfl, rfl⟩, rfl⟩
          · rintro ⟨pre, hpre | ⟨rfl, hij⟩, hx⟩
            · exact .inl ⟨pre, hpre, hx⟩
            · exact .inr ⟨hx, CmEvent.established.inj hij⟩

/-! ## Ownership -/

section

variable {es pre : List CmEvent} {i : ℕ} {k : AllocationKind}

theorem prefix_of_snoc {x : CmEvent} (h : pre ++ [x] <+: es) : pre <+: es :=
  (List.prefix_append pre [x]).trans h

theorem requests_mono (h : pre <+: es) : requests pre <+: requests es :=
  h.filterMap CmEvent.request?

theorem requests_ne_nil (hlast : (requests pre).getLast? = some i) : requests pre ≠ [] := by
  intro hnil
  simp [hnil] at hlast

/-- The last call of a prefix is where it was in the whole sequence. -/
theorem getLast_requests (h : pre <+: es) (hne : requests pre ≠ []) :
    (requests es)[(requests pre).length - 1]? = (requests pre).getLast? := by
  have hlt : (requests pre).length - 1 < (requests pre).length :=
    Nat.sub_lt (List.length_pos_iff.mpr hne) Nat.one_pos
  obtain ⟨rest, hrest⟩ := requests_mono h
  rw [List.getLast?_eq_getElem?, ← hrest, List.getElem?_append_left hlt]

/-- What the context holds belongs to the connection last requested. -/
theorem current_owned (h : pre <+: es) (hlast : (requests pre).getLast? = some i)
    (k : AllocationKind) : ∃ r, current pre k = some r ∧ r.kind = k ∧
      (r, i) ∈ (serverEventLoop es).created := by
  have hne := requests_ne_nil hlast
  refine ⟨_, if_neg hne, rfl, ?_⟩
  rw [mem_created, getLast_requests h hne, hlast]

/-- And to no other. -/
theorem last_of_owned (h : pre <+: es) {r : Allocation} (hr : current pre k = some r)
    (hmem : (r, i) ∈ (serverEventLoop es).created) : (requests pre).getLast? = some i := by
  have hne : requests pre ≠ [] := by
    intro hnil
    simp [current, hnil] at hr
  rw [current, if_neg hne, Option.some.injEq] at hr
  subst hr
  rw [← getLast_requests h hne]
  exact (mem_created es _ i).mp hmem

/-- A loop that serves its connections by their owners served each alone. -/
theorem ReleasedByOwner.alone (h : ReleasedByOwner es (serverEventLoop es)) : Alone es := by
  intro pre e hpre he
  cases e with
  | connectRequest i => cases he
  | established i =>
      obtain ⟨r, hr, -, hmem⟩ := h.named _ i ((mem_named es _ i).mpr ⟨pre, hpre, rfl⟩)
      exact last_of_owned (prefix_of_snoc hpre) hr hmem
  | disconnected i =>
      obtain ⟨r, hr, hmem⟩ := h.owner (current pre .buffer) i
        ((mem_released es _ i).mpr ⟨pre, _, hpre, rfl⟩)
      exact last_of_owned (prefix_of_snoc hpre) hr hmem

/-! ## Each id once -/

theorem WellFormed.nodup (h : WellFormed es) : es.Nodup := by
  rw [List.nodup_iff_count_le_one]
  intro e
  have hcount : (es.filter fun x => x.id = e.id).count e = es.count e :=
    List.count_filter (by simp)
  have hnodup : (es.filter fun x => x.id = e.id).Nodup :=
    List.Nodup.sublist (h e.id).sublist (by simp)
  rw [← hcount]
  exact List.nodup_iff_count_le_one.mp hnodup e

theorem requests_nodup (h : es.Nodup) : (requests es).Nodup := by
  refine h.filterMap ?_
  intro a b i ha hb
  cases a <;> cases b <;> simp_all [CmEvent.request?]

theorem Alone.init {e : CmEvent} (h : Alone (es ++ [e])) : Alone es :=
  fun pre x hpre hx => h pre x (hpre.trans (List.prefix_append es [e])) hx

/-- Two prefixes with the same resources have the same last connection. -/
theorem requests_eq_of_current (h : pre <+: es) {k' : AllocationKind}
    (hne : requests es ≠ []) (hcur : current pre k = current es k') :
    requests pre = requests es := by
  have hpre : requests pre ≠ [] := by
    intro hnil
    simp [current, hnil, hne] at hcur
  rw [current, current, if_neg hne, if_neg hpre, Option.some.injEq, Allocation.mk.injEq] at hcur
  have hpos := List.length_pos_iff.mpr hpre
  have hpos' := List.length_pos_iff.mpr hne
  exact (requests_mono h).eq_of_length (by omega)

/-- A connection that is alone releases what nothing else releases. -/
theorem Alone.once (h : Alone es) (hn : es.Nodup) :
    ((serverEventLoop es).released.map Prod.fst).Nodup := by
  induction es using List.reverseRecOn with
  | nil => exact List.nodup_nil
  | append_singleton es e ih =>
      have hold := ih h.init (List.Nodup.sublist (List.sublist_append_left es [e]) hn)
      rw [serverEventLoop_concat]
      cases e with
      | connectRequest j | established j => exact hold
      | disconnected j =>
          have hlast : (requests es).getLast? = some j := h es _ List.prefix_rfl rfl
          have hne := requests_ne_nil hlast
          simp only [ServerLoop.event, ServerLoop.serverOnDisconnect, List.map_append, ctx_eq]
          refine hold.append ?_ ?_
          · simp [current, hne]
          · intro x hx hx'
            obtain ⟨⟨y, i⟩, hy, rfl⟩ := List.mem_map.mp hx
            obtain ⟨pre, k, hpre, rfl⟩ := (mem_released es y i).mp hy
            obtain ⟨k', hk'⟩ : ∃ k', current pre k = current es k' := by
              simp only [List.map_cons, List.map_nil, List.mem_cons, List.not_mem_nil, or_false]
                at hx'
              rcases hx' with h1 | h1 | h1 | h1 <;> exact ⟨_, h1⟩
            have hreq := requests_eq_of_current (prefix_of_snoc hpre) hne hk'
            have hi := h.init pre _ hpre rfl
            rw [hreq, hlast] at hi
            obtain rfl : j = i := Option.some.inj hi
            -- the connection would be disconnected twice
            have hmem : CmEvent.disconnected j ∈ es := hpre.subset (by simp)
            exact (List.nodup_append.mp hn).2.2 _ hmem _ List.mem_cons_self rfl

theorem Alone.all (h : Alone es) (hn : es.Nodup)
    (hreq : .connectRequest i ∈ es → .disconnected i ∈ es)
    {r : Allocation} (hr : (r, i) ∈ (serverEventLoop es).created) :
    (some r, i) ∈ (serverEventLoop es).released := by
  have hi := (mem_created es r i).mp hr
  have hmem : .connectRequest i ∈ es := by
    obtain ⟨e, he, hid⟩ := List.mem_filterMap.mp (List.mem_of_getElem? hi)
    cases e with
    | connectRequest j => exact Option.some.inj hid ▸ he
    | established j | disconnected j => cases hid
  obtain ⟨pre, post, rfl⟩ := List.append_of_mem (hreq hmem)
  have hpre : pre ++ [.disconnected i] <+: pre ++ .disconnected i :: post := ⟨post, by simp⟩
  have hlast := h pre _ hpre rfl
  have hne := requests_ne_nil hlast
  refine (mem_released _ _ i).mpr ⟨pre, r.kind, hpre, ?_⟩
  -- the id was requested once, so this is the call that created the resource
  have hcall : (requests pre).length - 1 = r.call := by
    have hat := (getLast_requests (prefix_of_snoc hpre) hne).trans hlast
    obtain ⟨h1, heq1⟩ := List.getElem?_eq_some_iff.mp hat
    obtain ⟨h2, heq2⟩ := List.getElem?_eq_some_iff.mp hi
    exact (List.Nodup.getElem_inj_iff (requests_nodup hn)).mp (heq1.trans heq2.symm)
  rw [current, if_neg hne, hcall]

end

/-! ## The loop -/

/-- For every sequence of events in which each connection goes its way, the
resources are released once each and by their owner, `MSG_MR` names the region of
its connection and nothing is left in the end, exactly if no connection is
requested between the request of another one and its last event. -/
theorem released_by_owner_iff {es : List CmEvent} (h : WellFormed es) :
    ReleasedByOwner es (serverEventLoop es) ↔ Alone es := by
  refine ⟨ReleasedByOwner.alone, fun ha => ?_⟩
  refine ⟨?_, ha.once h.nodup, ?_, fun hall r i => ha.all h.nodup (hall i)⟩
  · intro x i hx
    obtain ⟨pre, k, hpre, rfl⟩ := (mem_released es x i).mp hx
    obtain ⟨r, hr, -, hmem⟩ := current_owned (prefix_of_snoc hpre) (ha pre _ hpre rfl) k
    exact ⟨r, hr, hmem⟩
  · intro x i hx
    obtain ⟨pre, hpre, rfl⟩ := (mem_named es x i).mp hx
    exact current_owned (prefix_of_snoc hpre) (ha pre _ hpre rfl) .bufferMr

/-- A connection that comes back after its disconnection. -/
theorem released_by_owner_small :
    ReleasedByOwner
      [.connectRequest 0, .established 0, .disconnected 0,
        .connectRequest 1, .established 1, .disconnected 1]
      (serverEventLoop [.connectRequest 0, .established 0, .disconnected 0,
        .connectRequest 1, .established 1, .disconnected 1]) :=
  (released_by_owner_iff (by decide)).mpr (by decide)

/-- Two clients at once: the buffer of the first is never released and that of the
second twice. -/
def twoClients : List CmEvent :=
  [.connectRequest 0, .established 0, .connectRequest 1, .established 1, .disconnected 0,
    .disconnected 1]

theorem freed_twice : WellFormed twoClients ∧
    (serverEventLoop twoClients).released.count (some ⟨.buffer, 1⟩, 0) = 1 ∧
    (serverEventLoop twoClients).released.count (some ⟨.buffer, 1⟩, 1) = 1 ∧
    (∀ i, (some ⟨.buffer, 0⟩, i) ∉ (serverEventLoop twoClients).released) ∧
    ¬ ReleasedByOwner twoClients (serverEventLoop twoClients) := by
  refine ⟨by decide, by decide, by decide, fun i => ?_, fun h => ?_⟩
  · simp [twoClients, serverEventLoop, ServerLoop.event, ServerLoop.serverOnPreConn,
      ServerLoop.serverOnConnection, ServerLoop.serverOnDisconnect]
  · have hnodup : ¬ ((serverEventLoop twoClients).released.map Prod.fst).Nodup := by decide
    exact hnodup h.once

end StellarBench
