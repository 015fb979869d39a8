import StellarBench.Lib.System

/-!
# Measures of progress

A measure that no step lowers, and that the picked steps raise, bounds how many
picked steps a run has (`picked_le`).  If it is bounded itself, and from every
state short of the goal some run raises it, then the goal is never out of reach
(`exists_run`).
-/

namespace StellarBench.System

variable {S A : Type} {M : System S A} {s t : S} {as : List A}

/-- How many steps of a run are picked. -/
def picked (M : System S A) (pick : S → A → Bool) : S → List A → ℕ
  | _, [] => 0
  | s, a :: as => (pick s a).toNat + (M.step s a).elim 0 fun t => M.picked pick t as

/-- A step raises the measure by one if it is picked, and never lowers it. -/
def Advances (M : System S A) (pick : S → A → Bool) (measure : S → ℤ) : Prop :=
  ∀ s a t, M.Reachable s → M.step s a = some t → measure s + (pick s a).toNat ≤ measure t

variable {pick : S → A → Bool} {measure : S → ℤ}

theorem Advances.picked_le (h : M.Advances pick measure) (hs : M.Reachable s)
    (hr : M.run s as = some t) : measure s + M.picked pick s as ≤ measure t := by
  induction as generalizing s with
  | nil =>
      cases hr
      simp [picked]
  | cons a as ih =>
      obtain ⟨u, hstep, hr⟩ := run_cons_eq_some.mp hr
      have hone := h s a u hs hstep
      have hrest := ih (hs.step trivial hstep) hr
      rw [picked, hstep, Option.elim_some]
      push_cast
      omega

/-- A run whose first step is picked raises the measure. -/
theorem Advances.lt {a : A} (h : M.Advances pick measure) (hs : M.Reachable s)
    (hr : M.run s (a :: as) = some t) (hp : pick s a = true) : measure s < measure t := by
  have hle := h.picked_le hs hr
  rw [picked, hp, Bool.toNat_true] at hle
  omega

/-- What can always be raised and is bounded reaches its goal. -/
theorem exists_run {goal : S → Prop} {bound : ℤ} (hbound : ∀ s, M.Reachable s → measure s ≤ bound)
    (hmove : ∀ s, M.Reachable s → ¬ goal s → ∃ as t, M.run s as = some t ∧ measure s < measure t)
    (hs : M.Reachable s) : ∃ as t, M.run s as = some t ∧ goal t := by
  induction hk : (bound - measure s).toNat using Nat.strong_induction_on generalizing s with
  | _ k ih =>
      by_cases hg : goal s
      · exact ⟨[], s, rfl, hg⟩
      · obtain ⟨as, t, hr, hlt⟩ := hmove s hs hg
        have ht : M.Reachable t := hs.run (Meets.of_forall (fun _ _ => trivial) s as) hr
        have hle := hbound t ht
        obtain ⟨bs, v, hr', hv⟩ := ih _ (by omega) ht rfl
        refine ⟨as ++ bs, v, ?_, hv⟩
        rw [run_append, hr, Option.bind_some, hr']

end StellarBench.System
