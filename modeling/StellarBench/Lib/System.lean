import Mathlib.Tactic

/-!
# Labelled transition systems

A system is a set of initial states and a partial step function.  The state and
the action fix the next state, and an action that is not enabled has none.  So
all nondeterminism, the interleaving of threads included, is the choice of the
next action.

A *guard* is a condition on the state before a step and on its action.
`Via guard` holds of the states that a run reaches when every one of its steps
meets the guard, and `Reachable` is `Via` at the guard that is always true.
`restrict guard` is the system whose runs these are.

Two constructions make coarser systems.  `atomic rest` lets one action run alone
until the state is at rest.  `bundle len` runs a number of steps of the action at
once that the state fixes.

A `Trace` is a run with a log of what its steps show to an observer.
-/

namespace StellarBench

/-- A transition system over states `S` and actions `A`. -/
structure System (S A : Type) where
  /-- The initial states. -/
  init : S → Prop
  /-- One step, if the action is enabled. -/
  step : S → A → Option S

namespace System

variable {S A O : Type} {M : System S A} {guard : S → A → Prop}

/-! ## Runs -/

/-- The state after a list of actions, if each is enabled in its turn. -/
def run (M : System S A) : S → List A → Option S
  | s, [] => some s
  | s, a :: as => (M.step s a).bind fun t => M.run t as

@[simp] theorem run_nil (s : S) : M.run s [] = some s := rfl

theorem run_cons_eq_some {s t : S} {a : A} {as : List A} :
    M.run s (a :: as) = some t ↔ ∃ u, M.step s a = some u ∧ M.run u as = some t := by
  simp [run, Option.bind_eq_some_iff]

theorem run_append (s : S) (as bs : List A) :
    M.run s (as ++ bs) = (M.run s as).bind fun t => M.run t bs := by
  induction as generalizing s with
  | nil => rfl
  | cons a as ih => simp only [List.cons_append, run, Option.bind_assoc, ih]

/-- The states that runs reach when every step meets the guard. -/
inductive Via (M : System S A) (guard : S → A → Prop) : S → Prop where
  | init {s : S} : M.init s → M.Via guard s
  | step {s t : S} {a : A} : M.Via guard s → guard s a → M.step s a = some t → M.Via guard t

/-- The states that any run reaches. -/
abbrev Reachable (M : System S A) : S → Prop := M.Via fun _ _ => True

/-- The induction over a run: what holds initially and is kept by every step
that meets the guard holds of every state reached. -/
theorem Via.invariant {I : S → Prop} (hinit : ∀ s, M.init s → I s)
    (hstep : ∀ s a t, M.Via guard s → I s → guard s a → M.step s a = some t → I t)
    {s : S} (h : M.Via guard s) : I s := by
  induction h with
  | init h0 => exact hinit _ h0
  | step hr hg hs ih => exact hstep _ _ _ hr ih hg hs

theorem Via.mono {guard' : S → A → Prop} (hle : ∀ s a, guard s a → guard' s a) {s : S}
    (h : M.Via guard s) : M.Via guard' s := by
  induction h with
  | init h0 => exact .init h0
  | step _ hg hs ih => exact .step ih (hle _ _ hg) hs

theorem Via.reachable {s : S} (h : M.Via guard s) : M.Reachable s :=
  h.mono fun _ _ _ => trivial

/-- Every step of a run meets the guard. -/
def Meets (M : System S A) (guard : S → A → Prop) : S → List A → Prop
  | _, [] => True
  | s, a :: as => guard s a ∧ ∀ t, M.step s a = some t → M.Meets guard t as

theorem Via.run {s t : S} {as : List A} (h : M.Via guard s) (hm : M.Meets guard s as)
    (hr : M.run s as = some t) : M.Via guard t := by
  induction as generalizing s with
  | nil =>
      cases hr
      exact h
  | cons a as ih =>
      obtain ⟨u, hs, hr⟩ := run_cons_eq_some.mp hr
      exact ih (.step h hm.1 hs) (hm.2 u hs) hr

theorem Meets.of_forall (h : ∀ s a, guard s a) (s : S) (as : List A) : M.Meets guard s as := by
  induction as generalizing s with
  | nil => trivial
  | cons a as ih => exact ⟨h s a, fun t _ => ih t⟩

theorem Meets.replicate {a : A} (h : ∀ s, guard s a) (s : S) (k : ℕ) :
    M.Meets guard s (List.replicate k a) := by
  induction k generalizing s with
  | zero => trivial
  | succ k ih => exact ⟨h s, fun t _ => ih t⟩

/-- What a run reaches from an initial state is reachable. -/
theorem reachable_of_run {s t : S} {as : List A} (h0 : M.init s) (hr : M.run s as = some t) :
    M.Reachable t :=
  (Via.init h0).run (Meets.of_forall (fun _ _ => trivial) s as) hr

/-- A run that can be computed shows a reachable state with a decidable property. -/
theorem exists_reachable (M : System S A) {s : S} (as : List A) (p : S → Prop)
    [DecidablePred p] (h0 : M.init s)
    (h : (M.run s as).any (fun t => p t) = true) : ∃ t, M.Reachable t ∧ p t := by
  obtain ⟨t, hr, hp⟩ := (Option.any_eq_true _ _).mp h
  exact ⟨t, reachable_of_run h0 hr, of_decide_eq_true hp⟩

/-- A list of actions, each as often as its number says. -/
def script (l : List (A × ℕ)) : List A := l.flatMap fun p => List.replicate p.2 p.1

/-! ## Guarded systems -/

/-- The system whose steps all meet a guard that can be computed. -/
def restrict (M : System S A) (guard : S → A → Prop) [∀ s a, Decidable (guard s a)] :
    System S A where
  init := M.init
  step s a := if guard s a then M.step s a else none

theorem via_of_restrict [∀ s a, Decidable (guard s a)] {s : S}
    (h : (M.restrict guard).Reachable s) : M.Via guard s := by
  induction h with
  | init h0 => exact .init h0
  | step _ _ hs ih =>
      obtain ⟨hg, hs⟩ := Option.ite_none_right_eq_some.mp hs
      exact .step ih hg hs

/-! ## Coarser systems -/

/-- One step is a number of steps of one action that nothing interrupts and
that end in a state at rest. -/
def atomic (M : System S A) (rest : S → Prop) [DecidablePred rest] : System S (A × ℕ) where
  init := M.init
  step s ak := (M.run s (List.replicate ak.2 ak.1)).filter fun t => rest t

theorem atomic_step {rest : S → Prop} [DecidablePred rest] {s t : S} {ak : A × ℕ}
    (h : (M.atomic rest).step s ak = some t) :
    M.run s (List.replicate ak.2 ak.1) = some t ∧ rest t := by
  obtain ⟨hrun, hrest⟩ := Option.filter_eq_some_iff.mp h
  exact ⟨hrun, by simpa using hrest⟩

/-- The coarse system reaches only states at rest that the fine one reaches. -/
theorem atomic_reachable {rest : S → Prop} [DecidablePred rest]
    (hinit : ∀ s, M.init s → rest s) {s : S} (h : (M.atomic rest).Reachable s) :
    M.Reachable s ∧ rest s := by
  induction h with
  | init h0 => exact ⟨.init h0, hinit _ h0⟩
  | step _ _ hs ih =>
      obtain ⟨hrun, hrest⟩ := atomic_step hs
      exact ⟨ih.1.run (Meets.of_forall (fun _ _ => trivial) _ _) hrun, hrest⟩

/-- Some actions run for several steps at once. -/
def bundle (M : System S A) (len : S → A → ℕ) : System S A where
  init := M.init
  step s a := M.run s (List.replicate (len s a) a)

theorem bundle_reachable {len : S → A → ℕ} {s : S} (h : (M.bundle len).Reachable s) :
    M.Reachable s := by
  induction h with
  | init h0 => exact .init h0
  | step _ _ hs ih => exact ih.run (Meets.of_forall (fun _ _ => trivial) _ _) hs

/-- The states a run reaches, with the log of what its steps showed. -/
inductive Trace (M : System S A) (obs : S → A → List O) : S → List O → Prop where
  | init {s : S} : M.init s → M.Trace obs s []
  | step {s t : S} {a : A} {l : List O} :
      M.Trace obs s l → M.step s a = some t → M.Trace obs t (l ++ obs s a)

variable {obs : S → A → List O}

theorem Trace.reachable {s : S} {l : List O} (h : M.Trace obs s l) : M.Reachable s := by
  induction h with
  | init h0 => exact .init h0
  | step _ hs ih => exact .step ih trivial hs

/-- A counter starts at `-1`, and each step shows nothing and keeps it or shows
the entry of the next number and counts it.  Then the log has the entries in
order, each once. -/
theorem Trace.filterMap_eq_range {B : Type} {f : O → Option B} {g : ℕ → B} (count : S → ℤ)
    (hinit : ∀ s, M.init s → count s = -1)
    (hstep : ∀ s a t, M.Reachable s → M.step s a = some t →
      ((obs s a).filterMap f = [] ∧ count t = count s) ∨
        ∃ k : ℕ, (obs s a).filterMap f = [g k] ∧ count s + 1 = k ∧ count t = k)
    {s : S} {l : List O} (h : M.Trace obs s l) :
    l.filterMap f = (List.range (count s + 1).toNat).map g := by
  induction h with
  | init h0 =>
      rw [hinit _ h0]
      rfl
  | step htr hs ih =>
      rw [List.filterMap_append, ih]
      rcases hstep _ _ _ htr.reachable hs with ⟨hobs, hcount⟩ | ⟨k, hobs, hcount, hcount'⟩
      · rw [hobs, List.append_nil, hcount]
      · have hk : ((k : ℤ) + 1).toNat = k + 1 := by omega
        rw [hobs, hcount', hcount, Int.toNat_natCast, hk, List.range_succ, List.map_append,
          List.map_singleton]

/-- The log of a list of actions. -/
def log (M : System S A) (obs : S → A → List O) : S → List A → List O
  | _, [] => []
  | s, a :: as => obs s a ++ ((M.step s a).elim [] fun t => M.log obs t as)

theorem log_cons {s t : S} {a : A} (h : M.step s a = some t) (as : List A) :
    M.log obs s (a :: as) = obs s a ++ M.log obs t as := by
  rw [log, h, Option.elim_some]

theorem log_append {s t : S} {as : List A} (hr : M.run s as = some t) (bs : List A) :
    M.log obs s (as ++ bs) = M.log obs s as ++ M.log obs t bs := by
  induction as generalizing s with
  | nil =>
      cases hr
      rfl
  | cons a as ih =>
      obtain ⟨u, hs, hr⟩ := run_cons_eq_some.mp hr
      rw [List.cons_append, log_cons hs, log_cons hs, ih hr, List.append_assoc]

theorem Trace.run {s t : S} {as : List A} {l : List O} (h : M.Trace obs s l)
    (hr : M.run s as = some t) : M.Trace obs t (l ++ M.log obs s as) := by
  induction as generalizing s l with
  | nil =>
      cases hr
      simpa [log] using h
  | cons a as ih =>
      obtain ⟨u, hs, hr⟩ := run_cons_eq_some.mp hr
      have hu := ih (h.step hs) hr
      simpa [log, hs] using hu

theorem exists_trace (M : System S A) (obs : S → A → List O) {s : S} (as : List A) (p : S → Prop)
    [DecidablePred p] (h0 : M.init s) (h : (M.run s as).any (fun t => p t) = true) :
    ∃ t, M.Trace obs t (M.log obs s as) ∧ p t := by
  obtain ⟨t, hr, hp⟩ := (Option.any_eq_true _ _).mp h
  exact ⟨t, (Trace.init h0).run hr, of_decide_eq_true hp⟩

end System

end StellarBench
