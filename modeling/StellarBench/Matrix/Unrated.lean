import StellarBench.Matrix.Kernel

/-!
# Rows and columns without ratings

The kernel skips an entry without a rating before it writes, and an entry with one
changes its own row and column only.  So a row or a column without any rating is
the same after `gpu_mf` as before (`unrated_untouched`).  The ratings do not
change either, which is why an entry that is skipped once is always skipped.
-/

namespace StellarBench.Kernel

open Prog Threads

variable {α : Type} {wn : ℕ} [Zero α] [BEq α] {a : Args α} {m m' m'' : Cell → α} {i j : ℕ}

/-- All ratings of row `i` are zero. -/
def UnratedRow (a : Args α) (m : Cell → α) (i : ℕ) : Prop :=
  ∀ j < a.colHeight, m (.rating (i * a.colHeight + j)) == 0

/-- All ratings of column `j` are zero. -/
def UnratedCol (a : Args α) (m : Cell → α) (j : ℕ) : Prop :=
  ∀ i < a.rowHeight, m (.rating (i * a.colHeight + j)) == 0

/-- The memory `m'` has the ratings of `m`, and its elements in the rows and columns
without ratings. -/
structure Untouched (a : Args α) (m m' : Cell → α) : Prop where
  rating : ∀ x, m' (.rating x) = m (.rating x)
  row : ∀ i, UnratedRow a m i → ∀ k < a.dim, m' (.row (i * a.dim + k)) = m (.row (i * a.dim + k))
  col : ∀ j, UnratedCol a m j → ∀ k < a.dim, m' (.col (j * a.dim + k)) = m (.col (j * a.dim + k))

theorem Untouched.refl : Untouched a m m :=
  ⟨fun _ => rfl, fun _ _ _ _ => rfl, fun _ _ _ _ => rfl⟩

theorem Untouched.unratedRow (h : Untouched a m m') (hi : UnratedRow a m i) :
    UnratedRow a m' i := fun j hj => by
  rw [h.rating]
  exact hi j hj

theorem Untouched.unratedCol (h : Untouched a m m') (hj : UnratedCol a m j) :
    UnratedCol a m' j := fun i hi => by
  rw [h.rating]
  exact hj i hi

theorem Untouched.trans (h : Untouched a m m') (h' : Untouched a m' m'') : Untouched a m m'' where
  rating x := (h'.rating x).trans (h.rating x)
  row i hi k hk := (h'.row i (h.unratedRow hi) k hk).trans (h.row i hi k hk)
  col j hj k hk := (h'.col j (h.unratedCol hj) k hk).trans (h.col j hj k hk)

/-- A loop whose passes keep what is not rated. -/
theorem untouched_foldl {β : Type} {f : (Cell → α) → β → Cell → α} {l : List β}
    (h : ∀ m, ∀ x ∈ l, Untouched a m (f m x)) (m : Cell → α) : Untouched a m (l.foldl f m) := by
  induction l generalizing m with
  | nil => exact .refl
  | cons x l ih =>
      have hrest : ∀ m, ∀ y ∈ l, Untouched a m (f m y) :=
        fun m y hy => h m y (List.mem_cons_of_mem x hy)
      exact (h m x List.mem_cons_self).trans (ih hrest (f m x))

variable [Add α] [Sub α] [Mul α]

/-- The elements of the row and the column of an entry. -/
def entryCells (a : Args α) (i j : ℕ) : Set Cell :=
  {c | ∃ k < a.dim, c = .row (i * a.dim + k) ∨ c = .col (j * a.dim + k)}

/-- What is not of the row or the column of an entry stays. -/
theorem entryBody_frame {c : Cell} (hc : c ∉ entryCells a i j) (m : Cell → α) :
    (entryBody a i j).exec m c = m c := by
  have hwithin : (entryBody a i j).Within Set.univ (entryCells a i j) :=
    within_entryBody trivial (Set.subset_univ _) fun k hk =>
      ⟨⟨k, hk, .inl rfl⟩, ⟨k, hk, .inr rfl⟩⟩
  exact hwithin.exec_apply hc m

/-- An entry without a rating is skipped. -/
theorem entryBody_skip (h : m (.rating (i * a.colHeight + j)) == 0) :
    (entryBody a i j).exec m = m := by
  let cell : Cell := .rating (i * a.colHeight + j)
  have hvalue : (get cell : Prog Cell α α).value m = m cell := rfl
  have hexec : (get cell : Prog Cell α α).exec m = m := rfl
  rw [entryBody, exec_bind, hvalue, hexec, if_pos h]
  rfl

theorem untouched_entryBody (hi : i < a.rowHeight) (hj : j < a.colHeight) (m : Cell → α) :
    Untouched a m ((entryBody a i j).exec m) := by
  by_cases h0 : m (.rating (i * a.colHeight + j)) == 0
  · rw [entryBody_skip h0]
    exact .refl
  · refine ⟨fun x => entryBody_frame ?_ m, fun i' hi' k hk => entryBody_frame ?_ m,
      fun j' hj' k hk => entryBody_frame ?_ m⟩
    · rintro ⟨k, -, hx | hx⟩
      · cases hx
      · cases hx
    · -- an element of row `i'` is of the entry if `i'` is its row, which is rated
      rintro ⟨k', hk', hx | hx⟩
      · have heq : i' = i := by
          rw [← div_row (i := i') hk, ← div_row (i := i) hk', Cell.row.inj hx]
        subst heq
        exact h0 (hi' j hj)
      · cases hx
    · rintro ⟨k', hk', hx | hx⟩
      · cases hx
      · have heq : j' = j := by
          rw [← div_row (i := j') hk, ← div_row (i := j) hk', Cell.col.inj hx]
        subst heq
        exact h0 (hj' i hi)

theorem untouched_cudaMf (ids : Ids wn) (tid : Fin wn) (m : Cell → α) :
    Untouched a m ((cudaMf a ids tid).exec m) := by
  rw [cudaMf_eq_forM, exec_forM]
  refine untouched_foldl (fun m e he => ?_) m
  obtain ⟨⟨hi, hj⟩, -⟩ := mem_visited.mp he
  exact untouched_entryBody hi hj m

/-- Any launches, with any permutations and schedules. -/
theorem untouched_launches {l : List (Ids wn)} (h : Launches a l m m') : Untouched a m m' := by
  rw [(launches_iff a).mp h]
  exact untouched_foldl
    (fun m ids _ => untouched_foldl (fun m tid _ => untouched_cudaMf ids tid m) m) m

/-- `gpu_mf` leaves the rows and columns without ratings, and the ratings, as they
were. -/
theorem unrated_untouched (a : Args α) (l : List (Ids wn)) (rowEles colEles ratings : List α) :
    (∀ res, GpuMf a l rowEles colEles ratings res →
      (∀ i < a.rowHeight, (∀ j < a.colHeight, ratings.getD (i * a.colHeight + j) 0 == 0) →
        ∀ k < a.dim, res.1.getD (i * a.dim + k) 0 = rowEles.getD (i * a.dim + k) 0) ∧
      ∀ j < a.colHeight, (∀ i < a.rowHeight, ratings.getD (i * a.colHeight + j) 0 == 0) →
        ∀ k < a.dim, res.2.getD (j * a.dim + k) 0 = colEles.getD (j * a.dim + k) 0) ∧
    ∀ m, Launches a l (toDevice rowEles colEles ratings) m →
      ∀ x, m (.rating x) = ratings.getD x 0 := by
  refine ⟨?_, fun m hm x => (untouched_launches hm).rating x⟩
  rintro res ⟨m, hm, rfl⟩
  have hun := untouched_launches hm
  refine ⟨fun i hi hrow k hk => ?_, fun j hj hcol k hk => ?_⟩
  · rw [fromDevice_row a (index_lt hi hk)]
    exact hun.row i hrow k hk
  · rw [fromDevice_col a (index_lt hj hk)]
    exact hun.col j hcol k hk

/-- The first row and the second column have no rating. -/
theorem unrated_untouched_small :
    let res := gpuMfInOrder (⟨⟨2, 3⟩, 1, 2, 2⟩ : Args ℤ) [Ids.small, Ids.small] [1, 2] [3, 4]
      [0, 0, 6, 0]
    res.1.getD 0 0 = 1 ∧ res.2.getD 1 0 = 4 := by
  intro res
  have hres : GpuMf (⟨⟨2, 3⟩, 1, 2, 2⟩ : Args ℤ) [Ids.small, Ids.small] [1, 2] [3, 4]
      [0, 0, 6, 0] res := ⟨_, (launches_iff _).mpr rfl, rfl⟩
  obtain ⟨hrow, hcol⟩ := (unrated_untouched _ _ _ _ _).1 res hres
  exact ⟨hrow 0 (by decide) (by decide) 0 (by decide),
    hcol 1 (by decide) (by decide) 0 (by decide)⟩

end StellarBench.Kernel
