import StellarBench.Matrix.Gradient

/-!
# The kernel and the samples

The body of `FakeSubMF` takes a sample, an index into each block.  A thread of
`cuda_mf` takes the entries of its residue classes that have a rating, in
row-major order, and makes of each what the body of `FakeSubMF` makes of it with
that rating (`cudaMf_eq_samples`).

The arrays of the host are lists and the memory of the device is a function of the
cells.  `Holds` relates the two.
-/

namespace StellarBench.Kernel

open Prog

variable {α : Type} {wn : ℕ} [CommRing α] {a : Args α}

/-- The device memory `d` holds the arrays `m` and the ratings. -/
structure Holds (a : Args α) (ratings : List α) (d : Cell → α) (m : List α × List α) : Prop where
  rowLength : m.1.length = a.rowHeight * a.dim
  colLength : m.2.length = a.colHeight * a.dim
  eles : deviceView d = view m
  rating : ∀ x, d (.rating x) = ratings.getD x 0

variable {ratings : List α} {d : Cell → α} {m : List α × List α}

theorem Holds.toDevice {rowEles colEles : List α} (hrow : rowEles.length = a.rowHeight * a.dim)
    (hcol : colEles.length = a.colHeight * a.dim) :
    Holds a ratings (toDevice rowEles colEles ratings) (rowEles, colEles) :=
  ⟨hrow, hcol, rfl, fun _ => rfl⟩

/-- A list is what its elements are read from. -/
theorem map_getD_range {l : List α} {n : ℕ} (hn : l.length = n) :
    (List.range n).map (fun x => l.getD x 0) = l := by
  subst hn
  refine List.ext_getElem (by simp) fun x hx hx' => ?_
  rw [List.getElem_map, List.getElem_range, List.getD_eq_getElem?_getD,
    List.getElem?_eq_getElem hx', Option.getD_some]

theorem Holds.fromDevice (h : Holds a ratings d m) : fromDevice a d = m := by
  have hrow (x : ℕ) : d (.row x) = m.1.getD x 0 := congrFun (congrArg Prod.fst h.eles) x
  have hcol (x : ℕ) : d (.col x) = m.2.getD x 0 := congrFun (congrArg Prod.snd h.eles) x
  simp only [Kernel.fromDevice, hrow, hcol]
  exact Prod.ext (map_getD_range h.rowLength) (map_getD_range h.colLength)

/-- The rating of an entry. -/
def ratingOf (a : Args α) (ratings : List α) (e : ℕ × ℕ) : α :=
  ratings.getD (e.1 * a.colHeight + e.2) 0

/-- The body of `FakeSubMF` on an entry, with its rating in the place of `r`. -/
def sampleEntry (a : Args α) (ratings : List α) (m : List α × List α) (e : ℕ × ℕ) :
    List α × List α :=
  sampleAt a.rates (ratingOf a ratings e) a.dim (e.1 * a.dim) (e.2 * a.dim) m

variable [DecidableEq α]

/-- The body of the kernel on an entry inside the matrix. -/
theorem Holds.entryBody {e : ℕ × ℕ} (h : Holds a ratings d m) (hi : e.1 < a.rowHeight)
    (hj : e.2 < a.colHeight) :
    Holds a ratings ((entryBody a e.1 e.2).exec d)
      (if ratingOf a ratings e ≠ 0 then sampleEntry a ratings m e else m) := by
  have hrating : d (.rating (e.1 * a.colHeight + e.2)) = ratingOf a ratings e := h.rating _
  by_cases h0 : ratingOf a ratings e = 0
  · -- the entry is skipped
    have hskip : (Kernel.entryBody a e.1 e.2).exec d = d := by
      have hget : (get (.rating (e.1 * a.colHeight + e.2)) : Prog Cell α α).value d = 0 :=
        hrating.trans h0
      have hkeep : (get (.rating (e.1 * a.colHeight + e.2)) : Prog Cell α α).exec d = d := rfl
      rw [Kernel.entryBody, exec_bind, hget, hkeep, if_pos (by simp)]
      rfl
    rw [if_neg (not_not_intro h0), hskip]
    exact h
  · rw [if_pos h0]
    have hne : d (.rating (e.1 * a.colHeight + e.2)) ≠ 0 := hrating.trans_ne h0
    obtain ⟨heles, hkeep⟩ := steps_entryBody (c := a.rates) (K := a.dim) a.rowHeight hne
    have hrow : (e.1 + 1) * a.dim ≤ m.1.length := h.rowLength ▸ Nat.mul_le_mul_right _ hi
    have hcol : (e.2 + 1) * a.dim ≤ m.2.length := h.colLength ▸ Nat.mul_le_mul_right _ hj
    obtain ⟨hlp, hlq, hview⟩ :=
      steps_sampleAt (c := a.rates) (r := ratingOf a ratings e) hrow hcol
    refine ⟨hlp.trans h.rowLength, hlq.trans h.colLength, ?_, fun x => (hkeep x).trans (h.rating x)⟩
    rw [hrating, h.eles] at heles
    exact heles.trans hview.symm

/-- A thread of the kernel is the body of `FakeSubMF` on the entries that have its
residues and a rating, in row-major order. -/
theorem cudaMf_eq_samples (a : Args α) (ids : Ids wn) (tid : Fin wn)
    (rowEles colEles ratings : List α) (hrow : rowEles.length = a.rowHeight * a.dim)
    (hcol : colEles.length = a.colHeight * a.dim) :
    fromDevice a ((cudaMf a ids tid).exec (toDevice rowEles colEles ratings)) =
      ((entries a).filter fun e => Matches ids tid e ∧ ratingOf a ratings e ≠ 0).foldl
        (sampleEntry a ratings) (rowEles, colEles) := by
  have hfilter : ((entries a).filter fun e => Matches ids tid e ∧ ratingOf a ratings e ≠ 0) =
      (visited a ids tid).filter fun e => ratingOf a ratings e ≠ 0 := by
    rw [visited, List.filter_filter]
    refine List.filter_congr fun e _ => ?_
    rw [Bool.decide_and, Bool.and_comm]
  rw [cudaMf_eq_forM, exec_forM, hfilter, List.foldl_filter]
  -- the memory holds the arrays before and after each entry
  have hstart : Holds a ratings (toDevice rowEles colEles ratings) (rowEles, colEles) :=
    .toDevice hrow hcol
  refine Holds.fromDevice (List.foldl_rel (r := Holds a ratings) hstart fun e he d m h => ?_)
  obtain ⟨hi, hj⟩ := List.mem_product.mp (List.mem_of_mem_filter he)
  simp only [decide_eq_true_eq]
  exact h.entryBody (List.mem_range.mp hi) (List.mem_range.mp hj)

/-- Thread 0 of two takes the entry in the second row and first column. -/
theorem cudaMf_eq_samples_small :
    fromDevice (⟨⟨1 / 5, 1 / 5⟩, 2, 2, 3⟩ : Args ℚ)
        ((cudaMf ⟨⟨1 / 5, 1 / 5⟩, 2, 2, 3⟩ Ids.small 0).exec
          (toDevice [1, 2, 3, 4] [1, 2, 3, 4, 5, 6] [0, 1, 2, 3, 4, 0])) =
      ((entries (⟨⟨1 / 5, 1 / 5⟩, 2, 2, 3⟩ : Args ℚ)).filter fun e =>
          Matches Ids.small 0 e ∧
            ratingOf (⟨⟨1 / 5, 1 / 5⟩, 2, 2, 3⟩ : Args ℚ) [0, 1, 2, 3, 4, 0] e ≠ 0).foldl
        (sampleEntry ⟨⟨1 / 5, 1 / 5⟩, 2, 2, 3⟩ [0, 1, 2, 3, 4, 0])
        ([1, 2, 3, 4], [1, 2, 3, 4, 5, 6]) :=
  cudaMf_eq_samples _ _ _ _ _ _ (by decide) (by decide)

end StellarBench.Kernel
