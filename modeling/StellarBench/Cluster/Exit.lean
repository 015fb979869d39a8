import StellarBench.Lib.CInt
import StellarBench.Cluster.Bulk
import StellarBench.Cluster.Termination

/-!
# Counters and blocks at the end

The counters of a run never leave the interval from `-1` to 1200.  At `exit(0)`
the server has merged 1200 times, so it has the replies of 1199 rounds of every
worker, and of some workers that of the last one.
-/

namespace StellarBench

variable {n : ℕ} {α : Type}

/-- The `int` counters of all processes. -/
def Cluster.counters (s : Cluster n α) : List ℤ :=
  s.iterT :: s.completedIter :: (List.finRange n).flatMap fun i => (s.lane i).counters

namespace Job

variable {j : Job n α} {s : Cluster n α}

theorem counters_bounds (h : j.system.Reachable s) : ∀ k ∈ s.counters, -1 ≤ k ∧ k ≤ 1200 := by
  have hc := ctl_reachable h
  have hM := hc.merged_le
  have hiter := hc.main.iter
  have hnonneg := hc.main.nonneg
  have hlag : s.mainPc.lag ≤ 1 := by cases s.mainPc <;> simp
  simp only [Cluster.counters, List.forall_mem_cons, List.mem_flatMap]
  refine ⟨by omega, by omega, ?_⟩
  rintro k ⟨i, -, hk⟩
  obtain ⟨hlow, hhigh⟩ := (hc.lane i).counters_le k hk
  exact ⟨hlow, by omega⟩

/-- No counter of any process overflows an `int`, nor does what the loops compare
them with. -/
theorem counters_fit (h : j.system.Reachable s) :
    ∀ k ∈ s.counters, (-1 ≤ k ∧ k ≤ 1200) ∧ IsInt (k - 1) ∧ IsInt (k + 1) := by
  intro k hk
  obtain ⟨hlow, hhigh⟩ := counters_bounds h k hk
  refine ⟨⟨hlow, hhigh⟩, ?_, ?_⟩ <;> rw [IsInt] <;> omega

/-- The counters after the first round. -/
theorem counters_fit_small : ∃ s : Cluster 1 ℕ, s.completedIter = 0 ∧
    ∀ k ∈ s.counters, (-1 ≤ k ∧ k ≤ 1200) ∧ IsInt (k - 1) ∧ IsInt (k + 1) := by
  obtain ⟨s, hreach, hcomp⟩ := small.system.exists_reachable
    (System.script ((List.finRange 1).flatMap smallRound)) (fun s => s.completedIter = 0) rfl
    (by decide)
  exact ⟨s, hcomp, counters_fit hreach⟩

/-- At `exit(0)` the server has the result of 1199 or 1200 rounds for every worker:
it is that of the sequential program, unless a decoder was interrupted. -/
theorem at_exit (h : j.system.Reachable s) (hx : s.mainPc = .exited) :
    s.completedIter = 1199 ∧ ∀ i, ∃ r : ℕ, (r = 1199 ∨ r = 1200) ∧
      (s.lane i).recvedIter + 1 = r ∧
      (s.Whole i → stamp r (pairAt (s.pblocks, s.qblocks) i) = stamp r (pairAt (j.bsp r) i)) := by
  have hc := ctl_reachable h
  have hiter := hc.main.iter
  have hend := hc.main.exited hx
  simp only [hx, MainPc.lag] at hiter
  refine ⟨by omega, fun i => ?_⟩
  have hmerged := (hc.lane i).chain.merged
  obtain ⟨r, hr⟩ := Int.eq_ofNat_of_zero_le (hc.lane i).chain.nonneg
  have hle : (s.lane i).recvedIter + 1 ≤ 1200 := by
    obtain ⟨h1, h2, h3, h4, h5, h6, h7, h8⟩ := (hc.lane i).chain
    obtain ⟨hd, hu⟩ := (hc.lane i).counted_le
    omega
  refine ⟨r, by omega, hr, fun hw => ?_⟩
  rw [stamp_pairAt h hw hr.symm, (pairAt_bsp j i r).1]

/-- A run of `small` to the exit. -/
theorem at_exit_small : ∃ s : Cluster 1 ℕ, s.completedIter = 1199 ∧ ∀ i, ∃ r : ℕ,
    (r = 1199 ∨ r = 1200) ∧ (s.lane i).recvedIter + 1 = r ∧
      (s.Whole i →
        stamp r (pairAt (s.pblocks, s.qblocks) i) = stamp r (pairAt (small.bsp r) i)) := by
  have hstart : (small.system.bundle Cluster.wholePost).Reachable small.start := .init rfl
  obtain ⟨as, s, hr, hx⟩ := System.exists_run
    (fun _ hs => taken_le (bundle_via hs).1.reachable) (fun _ hs hx => goes_on hs hx) hstart
  have hreach : (small.system.bundle Cluster.wholePost).Reachable s :=
    System.reachable_of_run rfl hr
  exact ⟨s, at_exit (bundle_via hreach).1.reachable hx⟩

end Job

end StellarBench
