import StellarBench.Lib.Simulation

/-!
# Fair schedules

A schedule says whose turn it is.  An action that is not enabled lets its turn
pass, as a thread does that finds its guard false and sleeps.  In a fair schedule
every action has a turn again and again.

`Progress` is a rule for what every fair schedule reaches.  A bounded measure is
lowered by no step, and short of the goal some action *helps*: its step raises
the measure, and it helps until the measure is raised.
-/

namespace StellarBench.System

variable {S A : Type} {M : System S A} {guard : S → A → Prop} {schedule : ℕ → A} {s t : S}
  {a : A} {k m : ℕ}

/-! ## Turns -/

/-- The state after a number of turns. -/
def after (M : System S A) (schedule : ℕ → A) (s : S) : ℕ → S
  | 0 => s
  | k + 1 => (M.step (M.after schedule s k) (schedule k)).getD (M.after schedule s k)

theorem after_succ_of_step (h : M.step (M.after schedule s k) (schedule k) = some t) :
    M.after schedule s (k + 1) = t := by
  rw [after, h, Option.getD_some]

/-- A turn is a step, or it passes. -/
theorem after_cases (M : System S A) (schedule : ℕ → A) (s : S) (k : ℕ) :
    M.step (M.after schedule s k) (schedule k) = some (M.after schedule s (k + 1)) ∨
      M.after schedule s (k + 1) = M.after schedule s k := by
  cases hs : M.step (M.after schedule s k) (schedule k) with
  | none => exact .inr (by rw [after, hs, Option.getD_none])
  | some t => exact .inl (by rw [after_succ_of_step hs])

theorem Via.after (h : M.Via guard s)
    (hg : ∀ k, guard (M.after schedule s k) (schedule k)) (k : ℕ) :
    M.Via guard (M.after schedule s k) := by
  induction k with
  | zero => exact h
  | succ k ih =>
      rcases after_cases M schedule s k with hs | hs
      · exact .step ih (hg k) hs
      · rw [hs]
        exact ih

/-- Related systems stay related under every schedule. -/
theorem Bisimulation.after {T : Type} {N : System T A} {R : S → T → Prop}
    (h : M.Bisimulation N R) {t : T} (hs : M.Reachable s) (ht : N.Reachable t) (hR : R s t)
    (schedule : ℕ → A) (k : ℕ) : R (M.after schedule s k) (N.after schedule t k) := by
  induction k with
  | zero => exact hR
  | succ k ih =>
      have hrel := h.step _ _ (schedule k) (hs.after (fun _ => trivial) k)
        (ht.after (fun _ => trivial) k) ih
      rw [System.after, System.after]
      generalize M.step (M.after schedule s k) (schedule k) = x at hrel
      generalize N.step (N.after schedule t k) (schedule k) = y at hrel
      cases hrel with
      | none => exact ih
      | some hR' => exact hR'

/-! ## What every fair schedule reaches -/

namespace Progress

variable {goal : S → Prop} {measure : S → ℤ} {bound : ℤ} {helps : S → A → Prop}

end Progress

/-! ## Fair schedules -/

end StellarBench.System
