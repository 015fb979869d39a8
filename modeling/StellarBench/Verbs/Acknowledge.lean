import StellarBench.Verbs.Client
import StellarBench.Verbs.Server

/-!
# The acknowledgement of events

`Watch` follows the calls of a run.  It keeps the CM events and the number of CQ
events that are obtained and not acknowledged, and goes wrong when something else
is acknowledged, or when a function that asks for events returns while one is
left.

Two defects break the rule.  `process_work_completion_events` returns early after
a failure without acknowledging the CQ event, and `client_disconnect_and_clean`
acknowledges the event of a failed `process_rdma_cm_event`, which is NULL or
acknowledged already.  `acknowledged_iff` says that there is nothing else.
-/

namespace StellarBench.Verbs

open Calls (Runs wp_iff wp_bind wp_if wp_unseen wp_unseen_bind)

/-! ## Runs -/

/-- What has been obtained and not acknowledged, and whether all was right so far.
`seen` and `failed` are about CQ events: one was obtained, and then a call about
completions failed. -/
structure Watch where
  cm : List Ptr
  cq : ℕ
  right : Bool
  seen : Bool
  failed : Bool

namespace Watch

def start : Watch := ⟨[], 0, true, false, false⟩

def wrong (w : Watch) : Watch := { w with right := false }

def cqFailure (w : Watch) : Watch := { w with failed := w.failed || w.seen }

/-- Nothing is left to acknowledge. -/
def Quiet (w : Watch) : Prop := w.cm = [] ∧ w.cq = 0

instance (w : Watch) : Decidable w.Quiet := inferInstanceAs (Decidable (_ ∧ _))

/-- The watch after a call. -/
def step (w : Watch) : Event → Watch
  | ⟨.rdmaGetCmEvent _, .ok e⟩ => { w with cm := e.ptr :: w.cm }
  | ⟨.rdmaAckCmEvent (some p), _⟩ => if p ∈ w.cm then { w with cm := w.cm.erase p } else w.wrong
  | ⟨.rdmaAckCmEvent none, _⟩ => w.wrong
  | ⟨.ibvGetCqEvent _, some _⟩ => { w with cq := w.cq + 1, seen := true }
  | ⟨.ibvAckCqEvents _ n, _⟩ => if n ≤ w.cq then { w with cq := w.cq - n } else w.wrong
  | ⟨.ibvReqNotifyCq _, ret⟩ => if ret ≠ 0 then w.cqFailure else w
  | ⟨.ibvPollCq _ _, .error _⟩ => w.cqFailure
  | ⟨.ibvPollCq _ _, .ok statuses⟩ =>
      if statuses.1.any fun status => status ≠ 0 then w.cqFailure else w
  | ⟨.leave, _⟩ => if w.Quiet then w else w.wrong
  | _ => w

end Watch

/-- Each event of a run is acknowledged once, before the function that obtained it
or its caller returns, and nothing else is acknowledged. -/
def Acknowledged (l : List Event) : Prop := (l.foldl Watch.step Watch.start).right

/-- A CQ event is obtained. -/
def CqEvent : Event → Prop
  | ⟨.ibvGetCqEvent _, some _⟩ => True
  | _ => False

/-- The CQ cannot be armed or polled, or a completion has an error status. -/
def CqFailure : Event → Prop
  | ⟨.ibvReqNotifyCq _, ret⟩ => ret ≠ 0
  | ⟨.ibvPollCq _ _, .error _⟩ => True
  | ⟨.ibvPollCq _ _, .ok statuses⟩ => ∃ status ∈ statuses.1, status ≠ 0
  | _ => False

/-- Nothing fails about a CQ after an event of it. -/
def NoCqFailure (l : List Event) : Prop := l.Pairwise fun e f => CqEvent e → ¬ CqFailure f

/-- `DISCONNECTED` comes, with status 0. -/
def Disconnects (l : List Event) : Prop :=
  ∃ e ∈ l, ∃ channel event, e = ⟨.rdmaGetCmEvent channel, .ok event⟩ ∧ event.status = 0 ∧
    event.event = .disconnected

/-! ## Rules -/

namespace Watch

variable {β γ : Type} {w : Watch} {Q : Ending β → Watch → Prop}

/-- The call is not about events. -/
def Plain (c : Verb) : Prop := ∀ (w : Watch) (r : Reply c), w.step ⟨c, r⟩ = w

/-- A program whose calls are not about events. -/
theorem wp_all_plain {p : VerbsM β} (h : p.All Plain) :
    p.wp step (fun _ w' => w' = w) w :=
  h.wp (fun _ hc r w' hw => (hc w' r).trans hw) rfl

theorem wp_errno {f : ℕ → γ} :
    (do return f (← errno) : VerbsM γ).wp step (fun _ w' => w' = w) w :=
  wp_all_plain (all_errno fun _ _ => rfl)

theorem step_ack (w : Watch) (p : Ptr) (r : Reply (.rdmaAckCmEvent (some p))) :
    step { w with cm := p :: w.cm } ⟨.rdmaAckCmEvent (some p), r⟩ = w := by
  simp [step]

/-- A CQ that cannot be armed is no failure before the first CQ event. -/
theorem step_reqNotify (hw : w.seen = false) (cq : Option Ptr) (ret : ℕ) :
    w.step ⟨.ibvReqNotifyCq cq, ret⟩ = w := by
  obtain ⟨cm, n, right, seen, failed⟩ := w
  cases hw
  simp [step, cqFailure]

theorem step_leave (hw : w.Quiet) : w.step ⟨.leave, ()⟩ = w := if_pos hw

/-- The caller acknowledges the event that it got. -/
theorem wp_ack {p : Ptr} {k : Except ℕ+ Unit → VerbsM β} (hk : ∀ r, (k r).wp step Q w) :
    (rdmaAckCmEvent (some p) >>= k).wp step Q { w with cm := p :: w.cm } := by
  intro r
  rw [step_ack]
  exact hk r

/-- `process_rdma_cm_event` leaves the event of a success to its caller. -/
theorem wp_processRdmaCmEvent {echannel : Option Ptr} {expectedEvent : CmEventType}
    {k : ℤ × Option CmEvent → VerbsM β}
    (hfail : ∀ ret e, ret ≠ 0 → (k (ret, e)).wp step Q w)
    (hok : ∀ e, (k (0, some e)).wp step Q { w with cm := e.ptr :: w.cm }) :
    (processRdmaCmEvent echannel expectedEvent >>= k).wp step Q w := by
  rw [wp_bind]
  intro r
  cases r with
  | error errno => exact hfail _ none (neg_ne_zero.mpr (by exact_mod_cast errno.ne_zero))
  | ok e =>
      refine wp_if (fun hstatus => ?_) fun _ => ?_
      · refine wp_ack fun _ => ?_
        exact hfail _ (some e) (neg_ne_zero.mpr hstatus)
      · refine wp_if (fun _ => ?_) fun _ => hok e
        refine wp_ack fun _ => ?_
        exact hfail (-1) (some e) (by decide)

/-- A function that leaves nothing. -/
theorem wp_leaving (hw : w.Quiet) {body : VerbsM β}
    (h : body.wp step (fun _ w' => w' = w) w) :
    (leaving body).wp step (fun _ w' => w' = w) w := by
  rw [leaving, wp_bind]
  refine Calls.wp_mono (fun o w' hw' => ?_) h
  subst hw'
  cases o with
  | returned b =>
      intro r
      exact step_leave hw
  | crashed => rfl
  | cut => rfl

/-! ## Functions that ask for CM events -/

theorem wp_startRdmaServer (hw : w.Quiet) (s : Server) :
    (startRdmaServer s).wp step (fun _ w' => w' = w) w := by
  refine wp_leaving hw ?_
  refine wp_unseen (fun _ => rfl) fun r => ?_
  cases r with
  | error errno => rfl
  | ok channel =>
  refine wp_unseen (fun _ => rfl) fun r => ?_
  cases r with
  | error errno => rfl
  | ok id =>
  refine wp_unseen (fun _ => rfl) fun r => ?_
  cases r with
  | error errno => rfl
  | ok _ =>
  refine wp_unseen (fun _ => rfl) fun r => ?_
  cases r with
  | error errno => rfl
  | ok _ =>
  refine wp_processRdmaCmEvent (fun ret e hret => ?_) fun e => ?_
  · exact wp_if (fun _ => rfl) fun h => absurd hret h
  · refine wp_ack fun r => ?_
    cases r with
    | error errno => rfl
    | ok _ => rfl

theorem wp_setupClientResources (hw : w.seen = false) (s : Server) :
    (setupClientResources s).wp step (fun _ w' => w' = w) w := by
  refine wp_if (fun _ => rfl) fun _ => ?_
  refine wp_unseen (fun _ => rfl) fun pd => ?_
  refine wp_if (fun _ => wp_errno) fun _ => ?_
  refine wp_unseen (fun _ => rfl) fun channel => ?_
  refine wp_if (fun _ => wp_errno) fun _ => ?_
  refine wp_unseen (fun _ => rfl) fun cq => ?_
  refine wp_if (fun _ => wp_errno) fun _ => ?_
  refine wp_unseen (step_reqNotify hw cq) fun ret => ?_
  refine wp_if (fun _ => wp_errno) fun _ => ?_
  refine wp_unseen (fun _ => rfl) fun r => ?_
  cases r with
  | error errno => rfl
  | ok qp => rfl

theorem wp_acceptClientConnection (hw : w.Quiet) (s : Server) :
    (acceptClientConnection s).wp step (fun _ w' => w' = w) w := by
  refine wp_leaving hw (wp_if (fun _ => rfl) fun _ => ?_)
  have hreg := all_register (K := Plain) (fun _ _ _ _ => rfl) s.pd .clientMetadataAttr
  refine wp_unseen_bind (wp_all_plain hreg) (fun _ => rfl) fun mr => ?_
  refine wp_if (fun _ => rfl) fun _ => ?_
  refine wp_unseen (fun _ => rfl) fun ret => ?_
  refine wp_if (fun _ => rfl) fun _ => ?_
  refine wp_unseen (fun _ => rfl) fun r => ?_
  cases r with
  | error errno => rfl
  | ok _ =>
  refine wp_processRdmaCmEvent (fun ret e hret => ?_) fun e => ?_
  · exact wp_if (fun _ => wp_errno) fun h => absurd hret h
  · refine wp_ack fun r => ?_
    cases r with
    | error errno => rfl
    | ok _ => rfl

theorem wp_disconnectAndCleanup (hw : w.Quiet) (s : Server) :
    (disconnectAndCleanup s).wp step (fun _ w' => w' = w) w := by
  refine wp_leaving hw ?_
  refine wp_processRdmaCmEvent (fun ret e hret => ?_) fun e => ?_
  · exact wp_if (fun _ => rfl) fun h => absurd hret h
  · refine wp_ack fun r => ?_
    cases r with
    | error errno => rfl
    | ok _ =>
    refine wp_all_plain ?_
    refine ⟨fun _ _ => rfl, fun _ => ⟨fun _ _ => rfl, fun _ => ⟨fun _ _ => rfl, fun _ =>
      ⟨fun _ _ => rfl, fun _ => ?_⟩⟩⟩⟩
    have hdereg (mr : Mr) : Plain (.ibvDeregMr mr) := fun _ _ => rfl
    refine (all_free hdereg (fun _ _ _ => rfl) _).bind fun _ =>
      (all_deregister hdereg _).bind fun _ => (all_deregister hdereg _).bind fun _ => ?_
    exact ⟨fun _ _ => rfl, fun _ => ⟨fun _ _ => rfl, fun _ => ⟨fun _ _ => rfl, fun _ => trivial⟩⟩⟩

theorem wp_clientPrepareConnection (hw : w.Quiet) (hseen : w.seen = false) (c : Client) :
    (clientPrepareConnection c).wp step (fun _ w' => w' = w) w := by
  refine wp_leaving hw ?_
  refine wp_unseen (fun _ => rfl) fun r => ?_
  cases r with
  | error errno => rfl
  | ok channel =>
  refine wp_unseen (fun _ => rfl) fun r => ?_
  cases r with
  | error errno => rfl
  | ok id =>
  refine wp_unseen (fun _ => rfl) fun r => ?_
  cases r with
  | error errno => rfl
  | ok _ =>
  refine wp_processRdmaCmEvent (fun ret e hret => ?_) fun e => ?_
  · exact wp_if (fun _ => rfl) fun h => absurd hret h
  refine wp_ack fun r => ?_
  cases r with
  | error errno => rfl
  | ok _ =>
  refine wp_unseen (fun _ => rfl) fun r => ?_
  cases r with
  | error errno => rfl
  | ok _ =>
  refine wp_processRdmaCmEvent (fun ret e hret => ?_) fun e => ?_
  · exact wp_if (fun _ => rfl) fun h => absurd hret h
  refine wp_ack fun r => ?_
  cases r with
  | error errno => rfl
  | ok _ =>
  refine wp_unseen (fun _ => rfl) fun pd => ?_
  refine wp_if (fun _ => wp_errno) fun _ => ?_
  refine wp_unseen (fun _ => rfl) fun channel => ?_
  refine wp_if (fun _ => wp_errno) fun _ => ?_
  refine wp_unseen (fun _ => rfl) fun cq => ?_
  refine wp_if (fun _ => wp_errno) fun _ => ?_
  refine wp_unseen (step_reqNotify hseen cq) fun ret => ?_
  refine wp_if (fun _ => wp_errno) fun _ => ?_
  refine wp_unseen (fun _ => rfl) fun r => ?_
  cases r with
  | error errno => rfl
  | ok qp => rfl

theorem all_connectLoop (id : Option Ptr) (fuel : ℕ) : (connectLoop id fuel).All Plain := by
  induction fuel with
  | zero => trivial
  | succ fuel ih =>
      refine ⟨fun _ _ => rfl, fun r => ?_⟩
      cases r with
      | error errno => exact ih
      | ok _ => trivial

theorem wp_clientConnectToServer (hw : w.Quiet) (fuel : ℕ) (c : Client) :
    (clientConnectToServer fuel c).wp step (fun _ w' => w' = w) w := by
  refine wp_leaving hw ?_
  refine wp_unseen_bind (wp_all_plain (all_connectLoop _ _)) (fun _ => rfl) fun _ => ?_
  refine wp_processRdmaCmEvent (fun ret e hret => ?_) fun e => ?_
  · exact wp_if (fun _ => rfl) fun h => absurd hret h
  · refine wp_ack fun r => ?_
    cases r with
    | error errno => rfl
    | ok _ => rfl

/-! ## Functions that ask for CQ events -/

/-- All is acknowledged, and nothing failed about a CQ. -/
def Good (w : Watch) : Prop := w.Quiet ∧ w.right = true ∧ w.failed = false

/-- An event is left, after a failure. -/
def Left (w : Watch) : Prop := ¬ w.Quiet ∧ w.failed = true

/-- An event was left, after a failure. -/
def Bad (w : Watch) : Prop := w.right = false ∧ w.failed = true

/-- A bad watch stays bad. -/
theorem Bad.step (h : w.Bad) (e : Event) : (w.step e).Bad := by
  obtain ⟨hright, hfailed⟩ := h
  unfold Watch.step
  split
  all_goals try split
  all_goals simp [Bad, wrong, cqFailure, hright, hfailed]

/-- What the polls show is in the flag. -/
theorem wp_pollLoop (hw : w.seen = true) (cq : Ptr) (maxWc fuel : ℕ) (wc : List ℕ) :
    (pollLoop cq maxWc fuel wc).wp step (fun (o : Ending (Except ℕ+ (List ℕ))) w' =>
      match o with
      | .returned (.ok wc') => w' = { w with failed := wc'.any fun status => status ≠ 0 }
      | .returned (.error _) => w' = { w with failed := true }
      | .crashed => False
      | .cut => ∃ b, w' = { w with failed := b })
      { w with failed := wc.any fun status => status ≠ 0 } := by
  induction fuel generalizing wc with
  | zero => exact ⟨_, rfl⟩
  | succ fuel ih =>
      intro r
      cases r with
      | error ret =>
          change Watch.cqFailure _ = _
          simp [cqFailure, hw]
      | ok statuses =>
          have hstep : ({ w with failed := wc.any fun status => status ≠ 0 } : Watch).step
              ⟨.ibvPollCq cq (maxWc - wc.length), .ok statuses⟩ =
                { w with failed := (wc ++ statuses.1).any fun status => status ≠ 0 } := by
            rw [List.any_append]
            change (if _ then cqFailure _ else _) = _
            split
            · next hany => rw [cqFailure, hw, hany, Bool.or_true]
            · next hany => rw [eq_false_of_ne_true hany, Bool.or_false]
          rw [hstep]
          exact wp_if (fun _ => ih _) fun _ => rfl

/-- `w` after a CQ event that is not acknowledged yet. -/
def obtained (w : Watch) (failed : Bool) : Watch :=
  { w with cq := w.cq + 1, seen := true, failed := failed }

theorem not_quiet_obtained (w : Watch) (failed : Bool) : ¬ (w.obtained failed).Quiet := fun h =>
  Nat.succ_ne_zero _ h.2

/-- What `process_work_completion_events` leaves. -/
def Polled : Ending ℤ → Watch → Prop
  | .returned ret, w => w.Good ∨ ret ≤ 0 ∧ w.Left
  | .crashed, _ => False
  | .cut, w => w.right = true

theorem polled_failed (w : Watch) {ret : ℤ} (hret : ret ≤ 0) :
    Polled (.returned ret) (w.obtained true) :=
  .inr ⟨hret, not_quiet_obtained w true, rfl⟩

/-- The test of the statuses, and the acknowledgement. -/
theorem wp_statuses (hw : w.Good) (cq : Ptr) (wc : List ℕ) :
    Calls.wp step Polled
      (match wc.find? fun status => status ≠ 0 with
        | some status => pure (-status)
        | none => do
          ibvAckCqEvents cq 1
          return wc.length)
      (w.obtained (wc.any fun status => status ≠ 0)) := by
  obtain ⟨hquiet, hright, -⟩ := hw
  cases hfind : wc.find? fun status => decide (status ≠ 0) with
  | some status =>
      have hstatus : decide (status ≠ 0) = true :=
        List.find?_some (p := fun status => decide (status ≠ 0)) hfind
      have hany : (wc.any fun status => status ≠ 0) = true :=
        List.any_eq_true.mpr ⟨status, List.mem_of_find?_eq_some hfind, hstatus⟩
      rw [hany]
      exact polled_failed w (by simp)
  | none =>
      have hany : (wc.any fun status => status ≠ 0) = false :=
        List.any_eq_false.mpr (List.find?_eq_none.mp hfind)
      rw [hany]
      intro r
      have hack : (w.obtained false).step ⟨.ibvAckCqEvents cq 1, r⟩ =
          { w with seen := true, failed := false } := by simp [step, obtained]
      rw [hack]
      exact .inl ⟨hquiet, hright, rfl⟩

/-- `process_work_completion_events` acknowledges its event unless something fails
after it. -/
theorem wp_processWorkCompletionEvents (hw : w.Good) (fuel : ℕ) (compChannel : Option Ptr)
    (maxWc : ℕ) :
    (processWorkCompletionEvents fuel compChannel maxWc).wp step Polled w := by
  intro r
  cases r with
  | none => exact fun _ => .inl hw
  | some cq =>
  intro ret
  have hget : w.step ⟨.ibvGetCqEvent compChannel, some cq⟩ = w.obtained false := by
    rw [obtained, ← hw.2.2]
    rfl
  rw [hget]
  by_cases hret : ret ≠ 0
  · have hreq : (w.obtained false).step ⟨.ibvReqNotifyCq (some cq), ret⟩ = w.obtained true :=
      if_pos hret
    rw [hreq]
    exact wp_if (fun _ _ => polled_failed w (by simp)) fun h => absurd hret h
  · have hreq : (w.obtained false).step ⟨.ibvReqNotifyCq (some cq), ret⟩ = w.obtained false :=
      if_neg hret
    rw [hreq]
    refine wp_if (fun h => absurd h hret) fun _ => ?_
    rw [wp_bind]
    have hpoll := wp_pollLoop (w := w.obtained false) rfl cq maxWc fuel []
    refine Calls.wp_mono (fun o u hu => ?_) hpoll
    cases o with
    | crashed => exact hu
    | cut =>
        obtain ⟨b, rfl⟩ := hu
        exact hw.2.1
    | returned res =>
        cases res with
        | error ret =>
            cases hu
            exact polled_failed w (by simp)
        | ok wc =>
            cases hu
            exact wp_statuses hw cq wc

/-- What a function may leave for the mark of its return. -/
def Ready : Ending β → Watch → Prop
  | .returned _, w => w.Good ∨ w.Left
  | .crashed, w => w.Good
  | .cut, w => w.right = true

/-- What it leaves after the mark: all is right and nothing failed, or neither.  A
run that is cut off can have seen a failure without having returned. -/
def Settled : Ending β → Watch → Prop
  | .returned _, w => w.Good ∨ w.Bad
  | .crashed, w => w.Good ∨ w.Bad
  | .cut, w => w.right = true ∨ w.Bad

theorem Good.ready (hw : w.Good) (o : Ending β) : Ready o w := by
  cases o with
  | returned b => exact .inl hw
  | crashed => exact hw
  | cut => exact hw.2.1

theorem Good.settled (hw : w.Good) (o : Ending β) : Settled o w := by
  cases o with
  | returned b => exact .inl hw
  | crashed => exact .inl hw
  | cut => exact .inl hw.2.1

/-- What went wrong stays wrong. -/
theorem wp_bad (hw : w.Bad) (p : VerbsM β) : p.wp step Settled w := by
  refine Calls.wp_mono (fun o u hu => ?_) (Calls.wp_invariant (fun _ e hu => hu.step e) hw)
  cases o with
  | returned b => exact .inr hu
  | crashed => exact .inr hu
  | cut => exact .inr hu

theorem wp_leaving_settled {body : VerbsM β} (h : body.wp step Ready w) :
    (leaving body).wp step Settled w := by
  rw [leaving, wp_bind]
  refine Calls.wp_mono (fun o u hu => ?_) h
  cases o with
  | crashed => exact .inl hu
  | cut => exact .inl hu
  | returned b =>
      intro r
      rcases hu with hgood | ⟨hquiet, hfailed⟩
      · rw [step_leave hgood.1]
        exact .inl hgood
      · have hleave : u.step ⟨.leave, r⟩ = u.wrong := if_neg hquiet
        rw [hleave]
        exact .inr ⟨rfl, hfailed⟩

/-- After `process_work_completion_events` a caller that does not get `maxWc` returns,
and one that does is not about events any more. -/
theorem wp_polled {fuel maxWc : ℕ} {compChannel : Option Ptr} {f : ℤ → VerbsM β} (hw : w.Good)
    (hfail : ∀ ret ≤ 0, ∃ b, f ret = pure b) (hrest : ∀ ret, (f ret).All Plain) :
    (processWorkCompletionEvents fuel compChannel maxWc >>= f).wp step Ready w := by
  rw [wp_bind]
  refine Calls.wp_mono (fun o u hu => ?_) (wp_processWorkCompletionEvents hw fuel compChannel maxWc)
  cases o with
  | crashed => exact hu.elim
  | cut => exact hu
  | returned ret =>
      rcases hu with hgood | ⟨hret, hleft⟩
      · refine Calls.wp_mono (fun o u' hu' => ?_) (wp_all_plain (hrest ret))
        subst hu'
        exact hgood.ready o
      · obtain ⟨b, hb⟩ := hfail ret hret
        change (f ret).wp step Ready u
        rw [hb]
        exact .inr hleft

theorem wp_sendServerMetadataToClient1 (hw : w.Good) (fuel : ℕ) (buf : Option Ptr) (s : Server) :
    (sendServerMetadataToClient1 fuel buf s).wp step Settled w := by
  refine wp_leaving_settled (wp_polled hw (fun ret hret => ?_) fun ret => ?_)
  · exact ⟨_, if_pos (by omega)⟩
  · refine .ite trivial ((all_alloc1 (fun _ _ _ _ => rfl) (fun _ _ _ => rfl) _ _).bind fun mr => ?_)
    cases mr with
    | none => trivial
    | some mr =>
    refine (all_register (fun _ _ _ _ => rfl) _ _).bind fun mr => ?_
    refine .ite (all_errno fun _ _ => rfl) ⟨fun _ _ => rfl, fun ret => ?_⟩
    exact .ite trivial trivial

theorem wp_clientSendMetadataToServer1 (hw : w.Good) (fuel : ℕ) (buf : Option Ptr) (c : Client) :
    (clientSendMetadataToServer1 fuel buf c).wp step Settled w := by
  refine wp_leaving_settled ?_
  have hreg (pd : Option Ptr) (addr : Addr) : (rdmaBufferRegister pd addr).All Plain :=
    all_register (fun _ _ _ _ => rfl) pd addr
  refine wp_unseen_bind (wp_all_plain (hreg _ _)) hw.ready fun mr => ?_
  refine wp_if (fun _ => hw.ready _) fun _ => ?_
  refine wp_unseen_bind (wp_all_plain (hreg _ _)) hw.ready fun mr => ?_
  refine wp_if (fun _ => hw.ready _) fun _ => ?_
  refine wp_unseen (fun _ => rfl) fun ret => ?_
  refine wp_if (fun _ => fun _ => hw.ready _) fun _ => ?_
  refine wp_polled hw (fun ret hret => ?_) fun ret => ?_
  · exact ⟨_, if_pos (by omega)⟩
  · exact .ite trivial trivial

theorem wp_rdmaServerInit (hw : w.Good) (hseen : w.seen = false) (fuel : ℕ) (buf : Option Ptr)
    (s : Server) : (rdmaServerInit fuel buf s).wp step Settled w := by
  refine wp_unseen_bind (wp_startRdmaServer hw.1 s) hw.settled fun ⟨ret, s⟩ => ?_
  refine wp_if (fun _ => hw.settled _) fun _ => ?_
  refine wp_unseen_bind (wp_setupClientResources hseen s) hw.settled fun ⟨ret, s⟩ => ?_
  refine wp_if (fun _ => hw.settled _) fun _ => ?_
  refine wp_unseen_bind (wp_acceptClientConnection hw.1 s) hw.settled fun ⟨ret, s⟩ => ?_
  refine wp_if (fun _ => hw.settled _) fun _ => ?_
  rw [wp_bind]
  refine Calls.wp_mono (fun o u hu => ?_) (wp_sendServerMetadataToClient1 hw fuel buf s)
  cases o with
  | returned r => exact wp_if (fun _ => hu) fun _ => hu
  | crashed => exact hu
  | cut => exact hu

end Watch

/-- `rdma_server_init` and then `disconnect_and_cleanup`. -/
def serverRun (fuel : ℕ) (registerBuf : Option Ptr) (s : Server) : VerbsM ℤ := do
  let (_, s) ← rdmaServerInit fuel registerBuf s
  disconnectAndCleanup s

namespace Watch

theorem wp_serverRun (hw : w.Good) (hseen : w.seen = false) (fuel : ℕ) (buf : Option Ptr)
    (s : Server) : (serverRun fuel buf s).wp step Settled w := by
  rw [serverRun, wp_bind]
  refine Calls.wp_mono (fun o u hu => ?_) (wp_rdmaServerInit hw hseen fuel buf s)
  cases o with
  | crashed => exact hu
  | cut => exact hu
  | returned r =>
      rcases hu with hgood | hbad
      · refine Calls.wp_mono (fun o u' hu' => ?_) (wp_disconnectAndCleanup hgood.1 r.2)
        subst hu'
        exact hgood.settled o
      · exact wp_bad hbad _

end Watch

/-! ## `client_disconnect_and_clean` -/

/-- `DISCONNECTED` with status 0 has been seen. -/
def sawDisconnect (saw : Bool) : Event → Bool
  | ⟨.rdmaGetCmEvent _, .ok e⟩ => saw || decide (e.status = 0 ∧ e.event = .disconnected)
  | _ => saw

/-- Both observers of the disconnect. -/
def watchDisconnect : Watch × Bool → Event → Watch × Bool := Calls.both Watch.step sawDisconnect

/-- The calls after the acknowledgement. -/
def cleanUp (c : Client) : VerbsM ℤ := do
  rdmaDestroyQp c.cmClientId
  let _ ← rdmaDestroyId c.cmClientId
  let _ ← ibvDestroyCq c.clientCq
  let _ ← ibvDestroyCompChannel c.ioCompletionChannel
  rdmaBufferDeregister c.serverMetadataMr
  rdmaBufferDeregister c.clientMetadataMr
  rdmaBufferDeregister c.clientSrcMr
  rdmaBufferDeregister c.clientDstMr
  free (.buf c.src)
  free (.buf c.dst)
  let _ ← ibvDeallocPd c.pd
  rdmaDestroyEventChannel c.cmEventChannel
  return 0

/-- All is right exactly if the event was the one expected. -/
def RightIfSeen (s : Watch × Bool) : Prop := s.1.Quiet ∧ s.1.failed = false ∧ s.1.right = s.2

theorem wp_cleanUp {s : Watch × Bool} (hs : RightIfSeen s) (c : Client) :
    (cleanUp c).wp watchDisconnect (fun _ s => RightIfSeen s) s := by
  let K (v : Verb) : Prop := ∀ (s : Watch × Bool) (r : Reply v), watchDisconnect s ⟨v, r⟩ = s
  have hdereg (mr : Option Mr) : (rdmaBufferDeregister mr).All K :=
    all_deregister (fun _ _ _ => rfl) mr
  have hall : (cleanUp c).All K := by
    refine ⟨fun _ _ => rfl, fun _ => ⟨fun _ _ => rfl, fun _ => ⟨fun _ _ => rfl, fun _ =>
      ⟨fun _ _ => rfl, fun _ => ?_⟩⟩⟩⟩
    refine (hdereg _).bind fun _ => (hdereg _).bind fun _ => (hdereg _).bind fun _ =>
      (hdereg _).bind fun _ => ?_
    exact ⟨fun _ _ => rfl, fun _ => ⟨fun _ _ => rfl, fun _ => ⟨fun _ _ => rfl, fun _ =>
      ⟨fun _ _ => rfl, fun _ => trivial⟩⟩⟩⟩
  refine hall.wp (fun v hv r s hs => ?_) hs
  rw [hv s r]
  exact hs

theorem get_disconnect (channel : Option Ptr) (e : CmEvent) :
    watchDisconnect (Watch.start, false) ⟨.rdmaGetCmEvent channel, .ok e⟩ =
      ({ Watch.start with cm := [e.ptr] }, decide (e.status = 0 ∧ e.event = .disconnected)) :=
  Prod.ext rfl (Bool.false_or _)

theorem ack_disconnect (p : Ptr) (saw : Bool) (r : Reply (.rdmaAckCmEvent (some p))) :
    watchDisconnect ({ Watch.start with cm := [p] }, saw) ⟨.rdmaAckCmEvent (some p), r⟩ =
      (Watch.start, saw) :=
  Prod.ext (Watch.step_ack Watch.start p r) rfl

/-- A second acknowledgement is wrong. -/
theorem again_disconnect (p : Ptr) (r : Reply (.rdmaAckCmEvent (some p))) :
    RightIfSeen (watchDisconnect (Watch.start, false) ⟨.rdmaAckCmEvent (some p), r⟩) := by
  have hnone : p ∉ Watch.start.cm := List.not_mem_nil
  have hwrong : Watch.start.step ⟨.rdmaAckCmEvent (some p), r⟩ = Watch.start.wrong := by
    simp only [Watch.step, hnone, if_false]
  have hboth : watchDisconnect (Watch.start, false) ⟨.rdmaAckCmEvent (some p), r⟩ =
      (Watch.start.wrong, false) := Prod.ext hwrong rfl
  rw [hboth]
  exact ⟨⟨rfl, rfl⟩, rfl, rfl⟩

/-- The event is acknowledged whether it was obtained or not, and a second time when
it was not the one expected. -/
theorem wp_clientDisconnectAndClean (c : Client) :
    (clientDisconnectAndClean c).wp watchDisconnect (fun _ s => RightIfSeen s)
      (Watch.start, false) := by
  have hbody : Calls.wp watchDisconnect (fun (_ : Ending ℤ) s => RightIfSeen s) (do
      let _ ← rdmaDisconnect c.cmClientId
      let r ← processRdmaCmEvent c.cmEventChannel .disconnected
      let _ ← rdmaAckCmEvent (r.2.map CmEvent.ptr)
      cleanUp c) (Watch.start, false) := by
    intro _
    change Calls.wp watchDisconnect _ (processRdmaCmEvent _ _ >>= _) (Watch.start, false)
    rw [wp_bind]
    intro r
    cases r with
    | error errno =>
        -- the pointer is NULL
        intro _
        exact wp_cleanUp ⟨⟨rfl, rfl⟩, rfl, rfl⟩ c
    | ok e =>
        have hget := get_disconnect c.cmEventChannel e
        refine wp_if (fun hstatus => ?_) fun hstatus => ?_
        · intro _ _
          rw [decide_eq_false fun h => hstatus h.1] at hget
          rw [hget, ack_disconnect]
          exact wp_cleanUp (again_disconnect e.ptr _) c
        · refine wp_if (fun hevent => ?_) fun hevent => ?_
          · intro _ _
            rw [decide_eq_false fun h => hevent h.2] at hget
            rw [hget, ack_disconnect]
            exact wp_cleanUp (again_disconnect e.ptr _) c
          · intro r
            rw [decide_eq_true ⟨not_not.mp hstatus, not_not.mp hevent⟩] at hget
            have hack := ack_disconnect e.ptr true r
            rw [hget]
            exact wp_cleanUp (hack ▸ ⟨⟨rfl, rfl⟩, rfl, rfl⟩) c
  rw [clientDisconnectAndClean, leaving, wp_bind]
  refine Calls.wp_mono (fun o s hs => ?_) hbody
  cases o with
  | crashed => exact hs
  | cut => exact hs
  | returned ret =>
      intro r
      have hleave : watchDisconnect s ⟨.leave, r⟩ = s :=
        Prod.ext (Watch.step_leave hs.1) rfl
      rw [hleave]
      exact hs

/-! ## The conditions along a run -/

namespace Watch

/-- The flags are about CQ events and failures only. -/
theorem step_flags (w : Watch) (e : Event) :
    ((w.step e).seen = true ↔ w.seen = true ∨ CqEvent e) ∧
      ((w.step e).failed = true ↔ w.failed = true ∨ w.seen = true ∧ CqFailure e) := by
  obtain ⟨c, r⟩ := e
  cases c with
  | rdmaGetCmEvent channel => cases r <;> simp [step, CqEvent, CqFailure]
  | rdmaAckCmEvent event =>
      cases event with
      | none => simp [step, CqEvent, CqFailure, wrong]
      | some p =>
          rw [step]
          split <;> simp [CqEvent, CqFailure, wrong]
  | ibvGetCqEvent channel => cases r <;> simp [step, CqEvent, CqFailure]
  | ibvAckCqEvents cq n =>
      rw [step]
      split <;> simp [CqEvent, CqFailure, wrong]
  | ibvReqNotifyCq cq =>
      rw [step]
      split <;> simp_all [CqEvent, CqFailure, cqFailure]
  | ibvPollCq cq n =>
      cases r with
      | error ret => simp [step, CqEvent, CqFailure, cqFailure]
      | ok statuses =>
          rw [step]
          split <;> simp_all [CqEvent, CqFailure, cqFailure]
  | leave =>
      rw [step]
      split <;> simp [CqEvent, CqFailure, wrong]
  | _ => simp [step, CqEvent, CqFailure]

theorem foldl_failed (w : Watch) (l : List Event) : (l.foldl step w).failed = true ↔
    w.failed = true ∨ (w.seen = true ∧ ∃ f ∈ l, CqFailure f) ∨ ¬ NoCqFailure l := by
  induction l generalizing w with
  | nil => simp [NoCqFailure]
  | cons e l ih =>
      obtain ⟨hseen, hfailed⟩ := step_flags w e
      have hcons : NoCqFailure (e :: l) ↔
          (CqEvent e → ¬ ∃ f ∈ l, CqFailure f) ∧ NoCqFailure l := by
        rw [NoCqFailure, List.pairwise_cons]
        simp only [not_exists, not_and]
        exact and_congr_left' ⟨fun h he f hf => h f hf he, fun h f hf he => h he f hf⟩
      rw [List.foldl_cons, ih, hseen, hfailed, hcons, List.exists_mem_cons_iff]
      grind

theorem failed_iff (l : List Event) : (l.foldl step start).failed = true ↔ ¬ NoCqFailure l := by
  rw [foldl_failed]
  simp [start]

end Watch

theorem step_sawDisconnect (saw : Bool) (e : Event) : sawDisconnect saw e = true ↔
    saw = true ∨ ∃ channel event, e = ⟨.rdmaGetCmEvent channel, .ok event⟩ ∧
      event.status = 0 ∧ event.event = .disconnected := by
  obtain ⟨c, r⟩ := e
  cases c with
  | rdmaGetCmEvent channel =>
      cases r with
      | error errno => simp [sawDisconnect]
      | ok event => simp [sawDisconnect, and_assoc]
  | _ => simp [sawDisconnect]

theorem foldl_sawDisconnect (saw : Bool) (l : List Event) :
    l.foldl sawDisconnect saw = true ↔ saw = true ∨ Disconnects l := by
  induction l generalizing saw with
  | nil => simp [Disconnects]
  | cons e l ih =>
      rw [List.foldl_cons, ih, Disconnects, Disconnects, List.exists_mem_cons_iff, ← or_assoc]
      exact or_congr_left (step_sawDisconnect saw e)

/-! ## Which runs acknowledge their events -/

/-- The runs of `p` acknowledge their events under the condition, and those that end
under no other. -/
def AcknowledgesIff {β : Type} (p : VerbsM β) (cond : List Event → Prop) : Prop :=
  ∀ l o, Runs p l o → (cond l → Acknowledged l) ∧ (o ≠ .cut → Acknowledged l → cond l)

section

variable {β : Type} {p : VerbsM β}

theorem good_start : Watch.start.Good := ⟨⟨rfl, rfl⟩, rfl, rfl⟩

theorem AcknowledgesIff.of_same
    (h : p.wp Watch.step (fun _ w => w = Watch.start) Watch.start) :
    AcknowledgesIff p fun _ => True := by
  intro l o hr
  have hend := wp_iff.mp h l o hr
  refine ⟨fun _ => ?_, fun _ _ => trivial⟩
  rw [Acknowledged, hend]
  rfl

theorem AcknowledgesIff.of_settled (h : p.wp Watch.step Watch.Settled Watch.start) :
    AcknowledgesIff p NoCqFailure := by
  intro l o hr
  have hend := wp_iff.mp h l o hr
  have hfailed := Watch.failed_iff l
  rw [Acknowledged]
  generalize l.foldl Watch.step Watch.start = w at hend hfailed
  -- all is right exactly if nothing failed, once the run has ended
  have hends (hsettled : w.Good ∨ w.Bad) : w.right = true ↔ NoCqFailure l := by
    rcases hsettled with ⟨-, hright, hnone⟩ | ⟨hright, hsome⟩
    · simp_all
    · simp_all
  cases o with
  | returned b => exact ⟨(hends hend).mpr, fun _ => (hends hend).mp⟩
  | crashed => exact ⟨(hends hend).mpr, fun _ => (hends hend).mp⟩
  | cut =>
      refine ⟨fun hno => ?_, fun hne => absurd rfl hne⟩
      rcases hend with hright | hbad
      · exact hright
      · exact absurd hno (hfailed.mp hbad.2)

end

/-- The client connects and the server accepts without leaving an event.  A CQ event
is left exactly if something about its CQ fails before it is acknowledged, and a
disconnect is right exactly if it gets the event that it expects. -/
theorem acknowledged_iff (fuel : ℕ) (buf : Option Ptr) (c : Client) (s : Server) :
    AcknowledgesIff (clientPrepareConnection c) (fun _ => True) ∧
      AcknowledgesIff (clientConnectToServer fuel c) (fun _ => True) ∧
      AcknowledgesIff (clientSendMetadataToServer1 fuel buf c) NoCqFailure ∧
      AcknowledgesIff (clientDisconnectAndClean c) Disconnects ∧
      AcknowledgesIff (rdmaServerInit fuel buf s) NoCqFailure ∧
      AcknowledgesIff (serverRun fuel buf s) NoCqFailure := by
  refine ⟨.of_same (Watch.wp_clientPrepareConnection good_start.1 rfl c),
    .of_same (Watch.wp_clientConnectToServer good_start.1 fuel c),
    .of_settled (Watch.wp_clientSendMetadataToServer1 good_start fuel buf c), ?_,
    .of_settled (Watch.wp_rdmaServerInit good_start rfl fuel buf s),
    .of_settled (Watch.wp_serverRun good_start rfl fuel buf s)⟩
  intro l o hr
  obtain ⟨-, -, hright⟩ := wp_iff.mp (wp_clientDisconnectAndClean c) l o hr
  rw [watchDisconnect, Calls.foldl_both] at hright
  have hsame : (l.foldl Watch.step Watch.start).right = l.foldl sawDisconnect false := hright
  have hsaw := foldl_sawDisconnect false l
  rw [← hsame, Bool.false_eq_true, false_or] at hsaw
  exact ⟨hsaw.mpr, fun _ => hsaw.mp⟩

/-! ## Concrete runs -/

/-- The library that gives this CM event, whenever it is asked. -/
def withCmEvent (e : CmEvent) : ℕ → (c : Verb) → Reply c
  | _, .rdmaGetCmEvent _ => .ok e
  | _, c => plainReply c

/-- The library that gives memory regions and a CQ event, and whose polls fail. -/
def withCqEvent : ℕ → (c : Verb) → Reply c
  | _, .ibvRegMr _ _ => some 1
  | _, .ibvGetCqEvent _ => some 2
  | _, c => plainReply c

theorem replicate_length_le (n : ℕ) : (List.replicate n 0).length ≤ n :=
  List.length_replicate.le

/-- The same library, where all completions are there at the first poll. -/
def withCompletions : ℕ → (c : Verb) → Reply c
  | _, .ibvPollCq _ n => .ok ⟨List.replicate n 0, replicate_length_le n⟩
  | k, c => withCqEvent k c

/-- A client with a protection domain. -/
def preparedClient : Client := { Client.new with pd := some 1 }

instance (l : List Event) : Decidable (Acknowledged l) := inferInstanceAs (Decidable (_ = _))

/-- A disconnect that gets its event, and an exchange of metadata whose CQ calls succeed. -/
theorem acknowledged_disconnect :
    Acknowledged (Calls.play (withCmEvent ⟨3, 0, .disconnected, 4⟩)
      (clientDisconnectAndClean Client.new) 0).1 ∧
    Acknowledged (Calls.play withCompletions
      (clientSendMetadataToServer1 1 (some 5) preparedClient) 0).1 := by
  constructor
  · obtain ⟨-, -, -, hdisconnect, -⟩ := acknowledged_iff 0 none Client.new Server.new
    refine (hdisconnect _ _ (Calls.runs_play _ _ 0)).1 ?_
    exact ⟨_, List.mem_cons_of_mem _ List.mem_cons_self, none, ⟨3, 0, .disconnected, 4⟩, rfl, rfl,
      rfl⟩
  · obtain ⟨-, -, hmetadata, -⟩ := acknowledged_iff 1 (some 5) preparedClient Server.new
    refine (hmetadata _ _ (Calls.runs_play _ _ 0)).1 ?_
    by_contra hfail
    exact absurd ((Watch.failed_iff _).mpr hfail) (by decide)

/-- A CQ event is left when a poll fails, and NULL is acknowledged when there is no
CM event. -/
theorem not_acknowledged :
    (∃ l o, Runs (clientSendMetadataToServer1 1 (some 5) preparedClient) l o ∧ ¬ Acknowledged l) ∧
      ∃ l o, Runs (clientDisconnectAndClean Client.new) l o ∧ ¬ Acknowledged l := by
  refine ⟨⟨_, _, Calls.runs_play withCqEvent _ 0, ?_⟩,
    ⟨_, _, Calls.runs_play (fun _ c => plainReply c) _ 0, ?_⟩⟩
  · decide
  · decide

end StellarBench.Verbs
