import StellarBench.Lib.System

/-!
# Forward simulations

A simulation relates the states of a system to those of a simpler one.  Each step
of the first is one step of the second, which its label names, or none.  So every
run has an abstract run with the same labels.

Two systems with the same actions may simulate each other step by step.  Then the
same lists of actions are runs of both.
-/

namespace StellarBench.System

variable {S A T B : Type} {M : System S A} {N : System T B} {label : S → A → Option B}
  {R : S → T → Prop}

/-- A step without a label is none of the abstract system. -/
def Follows (N : System T B) (t : T) : Option B → T → Prop
  | none, t' => t' = t
  | some b, t' => N.step t b = some t'

theorem Follows.reachable {t t' : T} {l : Option B} (h : N.Follows t l t') (ht : N.Reachable t) :
    N.Reachable t' := by
  cases l with
  | none => exact (show t' = t from h) ▸ ht
  | some b => exact ht.step trivial h

/-- A forward simulation of `M` by `N`. -/
structure Simulation (M : System S A) (N : System T B) (label : S → A → Option B)
    (R : S → T → Prop) : Prop where
  init : ∀ s, M.init s → ∃ t, N.init t ∧ R s t
  step : ∀ s a s' t, M.Reachable s → N.Reachable t → R s t → M.step s a = some s' →
    ∃ t', N.Follows t (label s a) t' ∧ R s' t'

/-- The labels of a list of actions. -/
def labels (M : System S A) (label : S → A → Option B) : S → List A → List B :=
  M.log fun s a => (label s a).toList

theorem Simulation.run (h : M.Simulation N label R) {s s' : S} {t : T} {as : List A}
    (hs : M.Reachable s) (ht : N.Reachable t) (hR : R s t) (hr : M.run s as = some s') :
    ∃ t', N.run t (M.labels label s as) = some t' ∧ N.Reachable t' ∧ R s' t' := by
  induction as generalizing s t with
  | nil =>
      cases hr
      exact ⟨t, rfl, ht, hR⟩
  | cons a as ih =>
      obtain ⟨u, hstep, hr⟩ := run_cons_eq_some.mp hr
      obtain ⟨v, hv, hRv⟩ := h.step s a u t hs ht hR hstep
      rw [labels, log_cons hstep]
      cases hl : label s a with
      | none =>
          rw [hl] at hv
          obtain rfl : v = t := hv
          exact ih (hs.step trivial hstep) ht hRv hr
      | some b =>
          rw [hl] at hv
          have hv : N.step t b = some v := hv
          obtain ⟨t', hrun, ht', hR'⟩ := ih (hs.step trivial hstep) (ht.step trivial hv) hRv hr
          exact ⟨t', run_cons_eq_some.mpr ⟨v, hv, hrun⟩, ht', hR'⟩

/-- Every reachable state has an abstract counterpart. -/
theorem Simulation.reachable (h : M.Simulation N label R) {s : S} (hs : M.Reachable s) :
    ∃ t, N.Reachable t ∧ R s t := by
  induction hs with
  | init h0 =>
      obtain ⟨t, ht, hR⟩ := h.init _ h0
      exact ⟨t, .init ht, hR⟩
  | @step s s' a hs _ hstep ih =>
      obtain ⟨t, ht, hR⟩ := ih
      obtain ⟨t', ht', hR'⟩ := h.step s a s' t hs ht hR hstep
      exact ⟨t', ht'.reachable ht, hR'⟩

/-! ## Bisimulations -/

section Partial

variable {S' T' : Type} {R' : S' → T' → Prop} {x : Option S} {y : Option T}

theorem rel_imp {R₂ : S → T → Prop} (h : Option.Rel R x y)
    (himp : ∀ s t, x = some s → y = some t → R s t → R₂ s t) : Option.Rel R₂ x y := by
  cases h with
  | none => exact .none
  | some hR => exact .some (himp _ _ rfl rfl hR)

theorem rel_bind {f : S → Option S'} {g : T → Option T'} (h : Option.Rel R x y)
    (hfg : ∀ s t, x = some s → y = some t → R s t → Option.Rel R' (f s) (g t)) :
    Option.Rel R' (x.bind f) (y.bind g) := by
  cases h with
  | none => exact .none
  | some hR => exact hfg _ _ rfl rfl hR

theorem rel_map {f : S → S'} {g : T → T'} (h : Option.Rel R x y)
    (hfg : ∀ s t, x = some s → y = some t → R s t → R' (f s) (g t)) :
    Option.Rel R' (x.map f) (y.map g) := by
  cases h with
  | none => exact .none
  | some hR => exact .some (hfg _ _ rfl rfl hR)

theorem rel_some_left {s : S} (h : Option.Rel R (some s) y) : ∃ t, y = some t ∧ R s t := by
  cases h with
  | some hR => exact ⟨_, rfl, hR⟩

end Partial

/-- Two systems that can take the same actions and stay related. -/
structure Bisimulation (M : System S A) (N : System T A) (R : S → T → Prop) : Prop where
  init : ∀ s, M.init s → ∃ t, N.init t ∧ R s t
  step : ∀ s t a, M.Reachable s → N.Reachable t → R s t → Option.Rel R (M.step s a) (N.step t a)

/-- A list of actions is a run of both or of neither. -/
theorem Bisimulation.run {N : System T A} (h : M.Bisimulation N R) {s : S} {t : T}
    (hs : M.Reachable s) (ht : N.Reachable t) (hR : R s t) (as : List A) :
    Option.Rel R (M.run s as) (N.run t as) := by
  induction as generalizing s t with
  | nil => exact .some hR
  | cons a as ih =>
      exact rel_bind (h.step s t a hs ht hR) fun _ _ hM hN hR' =>
        ih (hs.step trivial hM) (ht.step trivial hN) hR'

/-- Every reachable state has a counterpart. -/
theorem Bisimulation.reachable {N : System T A} (h : M.Bisimulation N R) {s : S}
    (hs : M.Reachable s) : ∃ t, N.Reachable t ∧ R s t := by
  induction hs with
  | init h0 =>
      obtain ⟨t, ht, hR⟩ := h.init _ h0
      exact ⟨t, .init ht, hR⟩
  | @step s s' a hs _ hstep ih =>
      obtain ⟨t, ht, hR⟩ := ih
      have hrel := h.step s t a hs ht hR
      rw [hstep] at hrel
      obtain ⟨t', hstep', hR'⟩ := rel_some_left hrel
      exact ⟨t', ht.step trivial hstep', hR'⟩

/-- A bisimulation that shows the lengths of the bundles is one of the bundled systems. -/
theorem Bisimulation.bundle {N : System T A} (h : M.Bisimulation N R) {lenM : S → A → ℕ}
    {lenN : T → A → ℕ} (hlen : ∀ s t a, R s t → lenM s a = lenN t a) :
    (M.bundle lenM).Bisimulation (N.bundle lenN) R where
  init := h.init
  step s t a hs ht hR := by
    have hrun := h.run (bundle_reachable hs) (bundle_reachable ht) hR
      (List.replicate (lenM s a) a)
    show Option.Rel R (M.run s (List.replicate (lenM s a) a))
      (N.run t (List.replicate (lenN t a) a))
    rwa [hlen s t a hR] at hrun ⊢

end StellarBench.System
