import StellarBench.Lib.System

/-!
# Bulk-synchronous machines

A coordinator merges and each of its workers then works, once for every merge.
A merge waits until no worker has a merge to answer.  The machine knows nothing
of messages: a worker changes its value by its update of the round.

Workers are at most one round apart, and the value of a worker is its first value
after all its rounds, whatever the schedule.
-/

namespace StellarBench

/-- The merges, and for each worker its finished rounds and its value. -/
structure Bulk (ι V : Type) where
  merged : ℕ
  done : ι → ℕ
  val : ι → V

namespace Bulk

inductive Act (ι : Type) where
  | merge
  | work (i : ι)

variable {ι V : Type}

/-- The value of a worker after `k` rounds. -/
def rounds (update : ℕ → V → V) (v : V) : ℕ → V
  | 0 => v
  | k + 1 => update k (rounds update v k)

variable [Fintype ι] [DecidableEq ι] {update : ι → ℕ → V → V} {first : ι → V}

def step (update : ι → ℕ → V → V) (s : Bulk ι V) : Act ι → Option (Bulk ι V)
  | .merge => if ∀ i, s.merged ≤ s.done i then some { s with merged := s.merged + 1 } else none
  | .work i =>
      if s.done i < s.merged then
        some { s with
          done := Function.update s.done i (s.done i + 1)
          val := Function.update s.val i (update i (s.done i) (s.val i)) }
      else none

/-- The machine from the first value of every worker on. -/
def machine (update : ι → ℕ → V → V) (first : ι → V) : System (Bulk ι V) (Act ι) where
  init s := s = ⟨0, fun _ => 0, first⟩
  step := step update

variable {s t : Bulk ι V}

theorem step_merge_eq_some : (machine update first).step s .merge = some t ↔
    (∀ i, s.merged ≤ s.done i) ∧ t = { s with merged := s.merged + 1 } := by
  simp only [machine, step]
  rw [Option.ite_none_right_eq_some, Option.some.injEq, eq_comm (a := t)]

theorem step_work_eq_some {i : ι} : (machine update first).step s (.work i) = some t ↔
    s.done i < s.merged ∧ t = { s with
      done := Function.update s.done i (s.done i + 1)
      val := Function.update s.val i (update i (s.done i) (s.val i)) } := by
  simp only [machine, step]
  rw [Option.ite_none_right_eq_some, Option.some.injEq, eq_comm (a := t)]

/-- What holds of the machine in every run. -/
structure Inv (update : ι → ℕ → V → V) (first : ι → V) (s : Bulk ι V) : Prop where
  done_le : ∀ i, s.done i ≤ s.merged
  merged_le : ∀ i, s.merged ≤ s.done i + 1
  val : ∀ i, s.val i = rounds (update i) (first i) (s.done i)

theorem Inv.step {a : Act ι} (h : s.Inv update first) (hs : (machine update first).step s a = some t) :
    t.Inv update first := by
  obtain ⟨h1, h2, h3⟩ := h
  cases a with
  | merge =>
      obtain ⟨hall, rfl⟩ := step_merge_eq_some.mp hs
      exact ⟨fun i => (h1 i).trans (Nat.le_succ _), fun i => Nat.succ_le_succ (hall i), h3⟩
  | work i =>
      obtain ⟨hlt, rfl⟩ := step_work_eq_some.mp hs
      constructor
      all_goals
        intro k
        by_cases hk : k = i
      · subst hk
        simpa using hlt
      · simpa [Function.update_of_ne hk] using h1 k
      · subst hk
        simp only [Function.update_self]
        have := h2 k
        omega
      · simpa [Function.update_of_ne hk] using h2 k
      · subst hk
        simp only [Function.update_self, rounds, h3]
      · simpa [Function.update_of_ne hk] using h3 k

theorem inv_reachable (h : (machine update first).Reachable s) : s.Inv update first := by
  refine h.invariant ?_ fun _ _ _ _ hi _ hs => hi.step hs
  rintro _ rfl
  exact ⟨fun _ => le_rfl, fun _ => Nat.zero_le _, fun _ => rfl⟩

end Bulk

end StellarBench
