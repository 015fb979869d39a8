import StellarBench.Matrix.KernelSteps
import StellarBench.Matrix.Coverage

/-!
# The whole of `gpu_mf`

`gpu_mf` launches the kernel again and again, each time with new permutations.  A
launch takes the entries whose residues some thread has.  Two of them that belong to
different threads share no row and no column, so the launch is one pass over the
rating matrix, row by row, in one thread.  The whole of `gpu_mf` is the body of
`FakeSubMF` on the rated entries of these passes (`gpuMf_eq_samples`).
-/

namespace StellarBench.Kernel

open Prog Threads

variable {α : Type} {wn : ℕ}

/-- The entries of a launch, row by row. -/
def launched (a : Args α) (ids : Ids wn) : List (ℕ × ℕ) :=
  (entries a).filter fun e => SomeMatches ids e

variable {a : Args α} {ids : Ids wn}

theorem mem_launched {e : ℕ × ℕ} :
    e ∈ launched a ids ↔ (e.1 < a.rowHeight ∧ e.2 < a.colHeight) ∧ SomeMatches ids e := by
  rw [launched, List.mem_filter, decide_eq_true_eq, entries, List.mem_product, List.mem_range,
    List.mem_range]

/-- A thread has its entries of the pass in the same order. -/
theorem filter_launched (tid : Fin wn) :
    ((launched a ids).filter fun e => Matches ids tid e) = visited a ids tid := by
  rw [launched, List.filter_filter, visited]
  refine List.filter_congr fun e _ => ?_
  by_cases he : Matches ids tid e
  · have hex : SomeMatches ids e := ⟨tid, he⟩
    simp [he, hex]
  · simp [he]

/-- Only one part of the list is not empty. -/
theorem flatMap_eq_of_nodup {ι γ : Type} {g : ι → List γ} {i : ι} {l : List ι} (hn : l.Nodup)
    (hi : i ∈ l) (h : ∀ j, j ≠ i → g j = []) : l.flatMap g = g i := by
  induction l with
  | nil => cases hi
  | cons j l ih =>
      obtain ⟨hj, hl⟩ := List.nodup_cons.mp hn
      rw [List.flatMap_cons]
      rcases List.mem_cons.mp hi with rfl | hi
      · have hrest : l.flatMap g = [] := by
          rw [List.flatMap_eq_nil_iff]
          intro k hk
          refine h k ?_
          rintro rfl
          exact hj hk
        rw [hrest, List.append_nil]
      · have hne : j ≠ i := by
          rintro rfl
          exact hj hi
        rw [h j hne, List.nil_append]
        exact ih hl hi

/-- And it has them in its part of the threads one after the other. -/
theorem filter_visited (tid : Fin wn) :
    (((List.finRange wn).flatMap (visited a ids)).filter fun e => Matches ids tid e) =
      visited a ids tid := by
  have hself : ((visited a ids tid).filter fun e => Matches ids tid e) = visited a ids tid := by
    rw [List.filter_eq_self]
    intro e he
    exact decide_eq_true (mem_visited.mp he).2
  have hother : ∀ tid', tid' ≠ tid →
      ((visited a ids tid').filter fun e => Matches ids tid e) = [] := by
    intro tid' hne
    rw [List.filter_eq_nil_iff]
    intro e he htid
    exact hne ((mem_visited.mp he).2.unique (of_decide_eq_true htid))
  rw [List.filter_flatMap, flatMap_eq_of_nodup (List.nodup_finRange wn) (List.mem_finRange tid)
    hother, hself]

section Launch

variable [Zero α] [Add α] [Sub α] [Mul α] [BEq α]

/-- Every entry of the list belongs to a thread. -/
theorem pieces {l : List (ℕ × ℕ)} (hl : ∀ e ∈ l, e ∈ launched a ids) :
    Pieces (readable a ids) (own a ids) (fun e => entryBody a e.1 e.2) (Matches ids) l where
  owner e he := (mem_launched.mp (hl e he)).2
  within e he tid htid := by
    obtain ⟨⟨hi, hj⟩, -⟩ := mem_launched.mp (hl e he)
    exact within_entryBody (index_lt hi hj) own_subset_readable
      fun k hk => ⟨row_mem ⟨htid.1, hi⟩ hk, col_mem ⟨htid.2, hj⟩ hk⟩
  sub _ := own_subset_readable
  apart _ _ hne _ hc := own_apart hne hc

/-- A launch is one pass over the matrix. -/
theorem launchInOrder_eq (m : Cell → α) : launchInOrder a m ids =
    (launched a ids).foldl (fun m e => (entryBody a e.1 e.2).exec m) m := by
  have hthreads : launchInOrder a m ids = ((List.finRange wn).flatMap (visited a ids)).foldl
      (fun m e => (entryBody a e.1 e.2).exec m) m := by
    rw [List.foldl_flatMap]
    simp only [launchInOrder, inOrder, cudaMf_eq_forM, exec_forM]
  have hmem : ∀ e ∈ (List.finRange wn).flatMap (visited a ids), e ∈ launched a ids := by
    intro e he
    obtain ⟨tid, -, he⟩ := List.mem_flatMap.mp he
    obtain ⟨hin, htid⟩ := mem_visited.mp he
    exact mem_launched.mpr ⟨hin, tid, htid⟩
  rw [hthreads]
  refine (pieces hmem).foldl_congr (pieces fun e he => he) (fun tid => ?_) m
  rw [filter_visited, filter_launched]

end Launch

variable [CommRing α] [DecidableEq α] {ratings : List α} {d : Cell → α} {m : List α × List α}

/-- The entries of a launch that have a rating. -/
def rated (a : Args α) (ratings : List α) (ids : Ids wn) : List (ℕ × ℕ) :=
  (launched a ids).filter fun e => ratingOf a ratings e ≠ 0

theorem Holds.launch (h : Holds a ratings d m) (ids : Ids wn) :
    Holds a ratings (launchInOrder a d ids)
      ((rated a ratings ids).foldl (sampleEntry a ratings) m) := by
  rw [launchInOrder_eq, rated, List.foldl_filter]
  refine List.foldl_rel (r := Holds a ratings) h fun e he d m h => ?_
  obtain ⟨⟨hi, hj⟩, -⟩ := mem_launched.mp he
  simp only [decide_eq_true_eq]
  exact h.entryBody hi hj

/-- Whatever the schedules of its launches, `gpu_mf` returns what one thread returns
that takes the body of `FakeSubMF` on the rated entries of each launch, row by row. -/
theorem gpuMf_eq_samples (a : Args α) (l : List (Ids wn)) (rowEles colEles ratings : List α)
    (hrow : rowEles.length = a.rowHeight * a.dim) (hcol : colEles.length = a.colHeight * a.dim)
    (res : List α × List α) :
    GpuMf a l rowEles colEles ratings res ↔
      res = (l.flatMap (rated a ratings)).foldl (sampleEntry a ratings) (rowEles, colEles) := by
  have hstart : Holds a ratings (toDevice rowEles colEles ratings) (rowEles, colEles) :=
    .toDevice hrow hcol
  have hend : Holds a ratings (l.foldl (launchInOrder a) (toDevice rowEles colEles ratings))
      ((l.flatMap (rated a ratings)).foldl (sampleEntry a ratings) (rowEles, colEles)) := by
    rw [List.foldl_flatMap]
    exact List.foldl_rel (r := Holds a ratings) hstart fun ids _ d m h => h.launch ids
  rw [← hend.fromDevice]
  constructor
  · rintro ⟨m, hm, rfl⟩
    rw [(launches_iff a).mp hm]
  · rintro rfl
    exact ⟨_, (launches_iff a).mpr rfl, rfl⟩

/-- Two launches of two threads. -/
theorem gpuMf_eq_samples_small : GpuMf (⟨⟨2, 3⟩, 1, 2, 2⟩ : Args ℤ) [Ids.small, Ids.small]
    [1, 2] [3, 4] [0, 5, 6, 0]
    (([Ids.small, Ids.small].flatMap (rated (⟨⟨2, 3⟩, 1, 2, 2⟩ : Args ℤ) [0, 5, 6, 0])).foldl
      (sampleEntry (⟨⟨2, 3⟩, 1, 2, 2⟩ : Args ℤ) [0, 5, 6, 0]) ([1, 2], [3, 4])) :=
  (gpuMf_eq_samples _ _ _ _ _ rfl rfl _).mpr rfl

end StellarBench.Kernel
