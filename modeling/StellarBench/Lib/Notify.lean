import Mathlib.Tactic

/-!
# Queues that notify their owner

A push to an armed queue makes an event and disarms the queue.  The poller of the
queue sleeps until there is an event.  It acknowledges the event, arms the queue
and then polls until the queue is empty.  As it arms first, it never sleeps on a
queue that is not empty (`Awake.empty`).

A `Handler` acts on a state that others may change as well.  It is entered with an
entry and takes its steps in the thread of the poller (`pollCq`), which brings
every entry to its handler by its own steps alone (`Awake.closer`).
-/

namespace StellarBench

/-- What the poller does about an entry. -/
inductive Verdict where
  | handle | skip | die
deriving DecidableEq, Repr

/-- Where a poller stands. -/
inductive PollerPc (W : Type) where
  /-- In the call that waits for an event. -/
  | get
  /-- Before it acknowledges the event. -/
  | ack
  /-- Before it arms the queue. -/
  | arm
  /-- In the call that polls. -/
  | poll
  /-- In the handler. -/
  | handle (w : W)
  | dead
deriving DecidableEq, Repr

/-- A queue and its poller. -/
structure Poller (W : Type) where
  queue : List W
  armed : Bool
  /-- The events not got yet. -/
  events : ℕ
  /-- The events got and not acknowledged. -/
  unacked : ℕ
  pc : PollerPc W
deriving DecidableEq, Repr

namespace Poller

variable {W : Type} {verdict : W → Verdict} {s t : Poller W}

/-- An armed queue without entries. -/
def start : Poller W := ⟨[], true, 0, 0, .get⟩

def push (w : W) (s : Poller W) : Poller W :=
  { s with queue := s.queue ++ [w], armed := false, events := s.events + s.armed.toNat }

/-- Where the poller goes with an entry. -/
def enter (verdict : W → Verdict) (w : W) : PollerPc W :=
  match verdict w with
  | .handle => .handle w
  | .skip => .poll
  | .die => .dead

/-- The next call of the poller. -/
def poll (verdict : W → Verdict) (s : Poller W) : Option (Poller W) :=
  match s.pc with
  | .get =>
      if 0 < s.events then
        some { s with events := s.events - 1, unacked := s.unacked + 1, pc := .ack }
      else none
  | .ack => some { s with unacked := s.unacked - 1, pc := .arm }
  | .arm => some { s with armed := true, pc := .poll }
  | .poll =>
      match s.queue with
      | [] => some { s with pc := .get }
      | w :: ws => some { s with queue := ws, pc := enter verdict w }
  | .handle _ | .dead => none

/-- The return of the handler. -/
def finish (s : Poller W) : Option (Poller W) :=
  match s.pc with
  | .handle _ => some { s with pc := .poll }
  | _ => none

/-- All the calls of the poller. -/
inductive Step (verdict : W → Verdict) (s : Poller W) : Poller W → Prop where
  | get : s.pc = .get → 0 < s.events →
      s.Step verdict { s with events := s.events - 1, unacked := s.unacked + 1, pc := .ack }
  | ack : s.pc = .ack → s.Step verdict { s with unacked := s.unacked - 1, pc := .arm }
  | arm : s.pc = .arm → s.Step verdict { s with armed := true, pc := .poll }
  | sleep : s.pc = .poll → s.queue = [] → s.Step verdict { s with pc := .get }
  | take {w : W} {ws : List W} : s.pc = .poll → s.queue = w :: ws →
      s.Step verdict { s with queue := ws, pc := enter verdict w }

theorem poll_cases (h : s.poll verdict = some t) : s.Step verdict t := by
  unfold poll at h
  cases hpc : s.pc with
  | get =>
      simp only [hpc] at h
      split at h
      next hpos => exact Option.some.inj h ▸ .get hpc hpos
      next => cases h
  | ack =>
      simp only [hpc] at h
      exact Option.some.inj h ▸ .ack hpc
  | arm =>
      simp only [hpc] at h
      exact Option.some.inj h ▸ .arm hpc
  | poll =>
      simp only [hpc] at h
      split at h
      next hq => exact Option.some.inj h ▸ .sleep hpc hq
      next hq => exact Option.some.inj h ▸ .take hpc hq
  | handle | dead => simp [hpc] at h

theorem finish_cases (h : s.finish = some t) :
    ∃ w, s.pc = .handle w ∧ t = { s with pc := .poll } := by
  unfold finish at h
  cases hpc : s.pc with
  | handle w =>
      simp only [hpc] at h
      exact ⟨w, rfl, (Option.some.inj h).symm⟩
  | get | ack | arm | poll | dead => simp [hpc] at h

/-! ## Notification -/

/-- The queue has been armed since the last event was got. -/
def listens : PollerPc W → Prop
  | .ack | .arm => False
  | _ => True

/-- The events got and not acknowledged there. -/
@[simp] def owes : PollerPc W → ℕ
  | .ack => 1
  | _ => 0

/-- The poller is notified of what it does not poll. -/
structure Awake (s : Poller W) : Prop where
  armed : listens s.pc → s.armed = true ∨ 0 < s.events
  empty : s.pc = .get → s.events = 0 → s.queue = []
  unacked : s.unacked = owes s.pc

theorem enter_ne_get (verdict : W → Verdict) (w : W) : enter verdict w ≠ .get := by
  rw [enter]
  cases verdict w <;> rintro ⟨⟩

theorem owes_enter (verdict : W → Verdict) (w : W) : owes (enter verdict w) = 0 := by
  rw [enter]
  cases verdict w <;> rfl

theorem awake_start : (start : Poller W).Awake := ⟨fun _ => .inl rfl, fun _ _ => rfl, rfl⟩

theorem Awake.push (h : s.Awake) (w : W) : (s.push w).Awake := by
  have hevents : listens s.pc → 0 < s.events + s.armed.toNat := by
    intro hl
    rcases h.armed hl with ha | hpos
    · rw [ha, Bool.toNat_true]
      omega
    · omega
  refine ⟨fun hl => .inr (hevents hl), fun hpc he => ?_, h.unacked⟩
  -- an owner that sleeps has asked, so the push is notified
  have hpc : s.pc = .get := hpc
  have hpos := hevents (by rw [hpc]; trivial)
  exact absurd he hpos.ne'

theorem Awake.poll (h : s.Awake) (hs : s.poll verdict = some t) : t.Awake := by
  obtain ⟨harm, hempty, hack⟩ := h
  cases poll_cases hs with
  | get hpc hpos | ack hpc =>
      rw [hpc] at hack
      exact ⟨False.elim, by rintro ⟨⟩, by simp [hack]⟩
  | arm hpc =>
      rw [hpc] at hack
      exact ⟨fun _ => .inl rfl, by rintro ⟨⟩, hack⟩
  | sleep hpc hq =>
      rw [hpc] at harm hack
      exact ⟨harm, fun _ _ => hq, hack⟩
  | take hpc hq =>
      rw [hpc] at harm hack
      exact ⟨fun _ => harm trivial, fun hget => absurd hget (enter_ne_get verdict _),
        hack.trans (owes_enter verdict _).symm⟩

theorem Awake.finish (h : s.Awake) (hs : s.finish = some t) : t.Awake := by
  obtain ⟨harm, hempty, hack⟩ := h
  obtain ⟨w, hpc, rfl⟩ := finish_cases hs
  rw [hpc] at harm hack
  exact ⟨harm, by rintro ⟨⟩, hack⟩

end Poller

/-! ## Handlers -/

/-- A handler that acts on an `X`, one step after the other, until it is idle. -/
structure Handler (W X : Type) where
  /-- The entries it does something about. -/
  starts : W → Bool
  idle : X → Bool
  step : X → Option X

namespace Poller

variable {W X : Type} {verdict : W → Verdict} {H : Handler W X} {s t : Poller W} {x y : X}

/-- The next step of the thread of a poller: of its loop or of the handler it is in. -/
def pollCq (verdict : W → Verdict) (H : Handler W X) (s : Poller W) (x : X) :
    Option (Poller W × X) :=
  match s.pc, s.queue with
  | .handle w, _ =>
      if H.starts w = true ∧ H.idle x = false then (H.step x).map fun y => (s, y)
      else s.finish.map fun t => (t, x)
  | .poll, w :: _ =>
      if verdict w = .handle ∧ H.starts w = true then
        (s.poll verdict).bind fun t => (H.step x).map fun y => (t, y)
      else (s.poll verdict).map fun t => (t, x)
  | _, _ => (s.poll verdict).map fun t => (t, x)

/-- All a step of the thread can be. -/
inductive Thread (verdict : W → Verdict) (H : Handler W X) (s : Poller W) (x : X) :
    Poller W → X → Prop where
  | handler {w : W} {y : X} : s.pc = .handle w → H.starts w = true → H.idle x = false →
      H.step x = some y → Thread verdict H s x s y
  | finish {w : W} {t : Poller W} : s.pc = .handle w → (H.starts w = true → H.idle x = true) →
      s.finish = some t → Thread verdict H s x t x
  | enter {w : W} {ws : List W} {y : X} : s.pc = .poll → s.queue = w :: ws →
      verdict w = .handle → H.starts w = true → H.step x = some y →
      Thread verdict H s x { s with queue := ws, pc := .handle w } y
  | poll {t : Poller W} : (∀ w, s.pc ≠ .handle w) →
      (s.pc = .poll → ∀ w ∈ s.queue.head?, ¬ (verdict w = .handle ∧ H.starts w = true)) →
      s.poll verdict = some t → Thread verdict H s x t x

theorem pollCq_cases (h : pollCq verdict H s x = some (t, y)) : Thread verdict H s x t y := by
  unfold pollCq at h
  split at h
  next _ _ w hpc =>
    split at h
    next hrun =>
      obtain ⟨z, hz, heq⟩ := Option.map_eq_some_iff.mp h
      cases heq
      exact .handler hpc hrun.1 hrun.2 hz
    next hdone =>
      obtain ⟨u, hu, heq⟩ := Option.map_eq_some_iff.mp h
      cases heq
      refine .finish hpc (fun hst => ?_) hu
      by_contra hbusy
      exact hdone ⟨hst, Bool.eq_false_iff.mpr hbusy⟩
  next w ws hpc hq =>
    split at h
    next hstart =>
      obtain ⟨u, hu, h⟩ := Option.bind_eq_some_iff.mp h
      obtain ⟨z, hz, heq⟩ := Option.map_eq_some_iff.mp h
      cases heq
      simp only [Poller.poll, hpc, hq, Option.some.injEq, Poller.enter, hstart.1] at hu
      subst hu
      exact .enter hpc hq hstart.1 hstart.2 hz
    next hother =>
      obtain ⟨u, hu, heq⟩ := Option.map_eq_some_iff.mp h
      cases heq
      exact .poll (by simp [hpc]) (fun _ v hv => by simp_all) hu
  next hhandle hpoll =>
    obtain ⟨u, hu, heq⟩ := Option.map_eq_some_iff.mp h
    cases heq
    refine .poll (fun w hw => hhandle w hw) (fun hpc v hv => ?_) hu
    obtain ⟨ws, hq⟩ := List.head?_eq_some_iff.mp hv
    exact absurd hq (hpoll v ws hpc)

theorem Awake.pollCq (h : s.Awake) (hs : pollCq verdict H s x = some (t, y)) : t.Awake := by
  cases pollCq_cases hs with
  | handler => exact h
  | finish _ _ hfinish => exact h.finish hfinish
  | @enter w ws _ hpc hq hv _ _ =>
      have hpoll : s.poll verdict = some { s with queue := ws, pc := .handle w } := by
        simp [Poller.poll, hpc, hq, enter, hv]
      exact h.poll hpoll
  | poll _ _ hpoll => exact h.poll hpoll

/-- Where the poller stands on its way to the next poll. -/
def distance : PollerPc W → ℕ
  | .get => 3
  | .ack => 2
  | .arm | .handle _ => 1
  | .poll | .dead => 0

/-- What is left until the queue is empty and polled. -/
def rank (s : Poller W) : ℕ := 4 * s.queue.length + distance s.pc

/-- The next step of the handler is the next of the thread, or the thread comes closer
to it.  An idle handler needs an entry that waits for it, and no entry before it may be
the end of the poller. -/
theorem Awake.closer (h : s.Awake) (hdead : s.pc ≠ .dead) (hdie : ∀ w ∈ s.queue, verdict w ≠ .die)
    (hbusy : H.idle x = false → ∃ w, s.pc = .handle w ∧ H.starts w = true)
    (hwaits : H.idle x = true → ∃ w ∈ s.queue, verdict w = .handle ∧ H.starts w = true)
    (hs : H.step x = some y) : (∃ t, Poller.pollCq verdict H s x = some (t, y)) ∨
      ∃ t, Poller.pollCq verdict H s x = some (t, x) ∧ rank t < rank s ∧ t.pc ≠ .dead ∧
        ∀ w ∈ t.queue, w ∈ s.queue := by
  cases hidle : H.idle x with
  | false =>
      obtain ⟨w, hpc, hst⟩ := hbusy hidle
      exact .inl ⟨s, by simp [Poller.pollCq, hpc, hst, hidle, hs]⟩
  | true =>
  obtain ⟨w, hmem, hv, hst⟩ := hwaits hidle
  cases hpc : s.pc with
  | get =>
      have hpos : 0 < s.events := by
        refine Nat.pos_of_ne_zero fun h0 => ?_
        rw [h.empty hpc h0] at hmem
        exact List.not_mem_nil hmem
      refine .inr ⟨{ s with events := s.events - 1, unacked := s.unacked + 1, pc := .ack }, ?_, ?_⟩
      · simp only [Poller.pollCq, hpc, Poller.poll, if_pos hpos, Option.map_some]
      · exact ⟨by simp [rank, distance, hpc], by rintro ⟨⟩, fun _ h => h⟩
  | ack =>
      refine .inr ⟨{ s with unacked := s.unacked - 1, pc := .arm }, ?_, ?_⟩
      · simp only [Poller.pollCq, hpc, Poller.poll, Option.map_some]
      · exact ⟨by simp [rank, distance, hpc], by rintro ⟨⟩, fun _ h => h⟩
  | arm =>
      refine .inr ⟨{ s with armed := true, pc := .poll }, ?_, ?_⟩
      · simp only [Poller.pollCq, hpc, Poller.poll, Option.map_some]
      · exact ⟨by simp [rank, distance, hpc], by rintro ⟨⟩, fun _ h => h⟩
  | handle v =>
      refine .inr ⟨{ s with pc := .poll }, by simp [Poller.pollCq, hpc, hidle, Poller.finish], ?_⟩
      exact ⟨by simp [rank, distance, hpc], by rintro ⟨⟩, fun _ h => h⟩
  | dead => exact absurd hpc hdead
  | poll =>
      obtain ⟨v, vs, hq⟩ := List.exists_cons_of_ne_nil (List.ne_nil_of_mem hmem)
      by_cases hstart : verdict v = .handle ∧ H.starts v = true
      · refine .inl ⟨{ s with queue := vs, pc := enter verdict v }, ?_⟩
        simp only [Poller.pollCq, hpc, hq, hstart, and_self, if_true, Poller.poll, Option.bind_some,
          hs, Option.map_some]
      · -- an entry that is not for the handler
        have hentered : distance (enter verdict v) ≤ 1 ∧ enter verdict v ≠ .dead := by
          have hne := hdie v (by rw [hq]; exact List.mem_cons_self)
          rw [enter]
          cases hverdict : verdict v with
          | handle => exact ⟨le_rfl, by rintro ⟨⟩⟩
          | skip => exact ⟨Nat.zero_le _, by rintro ⟨⟩⟩
          | die => exact absurd hverdict hne
        refine .inr ⟨{ s with queue := vs, pc := enter verdict v }, ?_, ?_, hentered.2, ?_⟩
        · simp only [Poller.pollCq, hpc, hq, if_neg hstart, Poller.poll, Option.map_some]
        · have hle := hentered.1
          simp only [rank, hq, hpc, List.length_cons, distance] at *
          omega
        · intro u hu
          rw [hq]
          exact List.mem_cons_of_mem _ hu

end Poller

end StellarBench
