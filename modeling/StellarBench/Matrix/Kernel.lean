import StellarBench.Lib.Threads
import StellarBench.Matrix.Serializable

/-!
# The CUDA kernel

`cuda_mf` is one program per thread.  Thread `tid` visits the rows congruent to
`random_row_id[tid]` and the columns congruent to `random_col_id[tid]` modulo
`wn`, so with permutations no two threads share a row or a column.  The threads
share `rating_entries`, which none of them writes.

A compound assignment loads its left side too.  The arithmetic and the test of
a rating against zero are those of `α`, of which nothing is assumed.
-/

namespace StellarBench.Kernel

open Prog Threads

/-- A cell of `row_eles`, `col_eles` or `rating_entries`. -/
inductive Cell where
  | row (x : ℕ)
  | col (x : ℕ)
  | rating (x : ℕ)
deriving DecidableEq

variable {α : Type} {wn : ℕ}

/-! ## The program of a thread -/

/-- The values of `i` in `for (i = start; i < stop; i += step)`. -/
def strided (start stop step : ℕ) : List ℕ :=
  List.range' start ((stop - start + step - 1) / step) step

/-- `random_row_id` and `random_col_id` after the shuffles of one launch. -/
structure Ids (wn : ℕ) where
  row : Equiv.Perm (Fin wn)
  col : Equiv.Perm (Fin wn)

/-- The arguments of `cuda_mf` that are not arrays, with its two constants. -/
structure Args (α : Type) where
  rates : Rates α
  dim : ℕ
  rowHeight : ℕ
  colHeight : ℕ

section Program

variable [Zero α] [Add α] [Sub α] [Mul α] [BEq α] (a : Args α)

/-- One pass of the first loop over `k`, which takes the prediction off `err`. -/
def errStep (i j : ℕ) (err : α) (k : ℕ) : Prog Cell α α := do
  let r ← get (.row (i * a.dim + k))
  let c ← get (.col (j * a.dim + k))
  return err - r * c

/-- One pass of the second loop over `k`. -/
def elesStep (i j : ℕ) (err : α) (k : ℕ) : Prog Cell α Unit := do
  let c ← get (.col (j * a.dim + k))
  let r ← get (.row (i * a.dim + k))
  let old ← get (.row (i * a.dim + k))
  set (.row (i * a.dim + k)) (old + a.rates.yita * (err * c - a.rates.theta * r))
  let r ← get (.row (i * a.dim + k))
  let c ← get (.col (j * a.dim + k))
  let old ← get (.col (j * a.dim + k))
  set (.col (j * a.dim + k)) (old + a.rates.yita * (err * r - a.rates.theta * c))

/-- The body of the loops over `i` and `j`.  A rating of zero is skipped. -/
def entryBody (i j : ℕ) : Prog Cell α Unit := do
  let err ← get (.rating (i * a.colHeight + j))
  if err == 0 then return ()
  else
    let err ← (List.range a.dim).foldlM (errStep a i j) err
    (List.range a.dim).forM (elesStep a i j err)

/-- `cuda_mf` in the thread `tid`. -/
def cudaMf (ids : Ids wn) (tid : Fin wn) : Prog Cell α Unit :=
  (strided (ids.row tid) a.rowHeight wn).forM fun i =>
    (strided (ids.col tid) a.colHeight wn).forM fun j => entryBody a i j

end Program

/-! ## Footprints -/

/-- The cells of the rows and columns of thread `tid`, inside the arrays. -/
def own (a : Args α) (ids : Ids wn) (tid : Fin wn) : Set Cell
  | .row x => x / a.dim % wn = ids.row tid ∧ x < a.rowHeight * a.dim
  | .col x => x / a.dim % wn = ids.col tid ∧ x < a.colHeight * a.dim
  | .rating _ => False

/-- These and the ratings. -/
def readable (a : Args α) (ids : Ids wn) (tid : Fin wn) : Set Cell
  | .rating x => x < a.rowHeight * a.colHeight
  | l => l ∈ own a ids tid

/-- The loop visits what it reaches below its bound. -/
theorem mem_strided {start stop step x : ℕ} (hs : 0 < step) :
    x ∈ strided start stop step ↔ ∃ t, x = start + step * t ∧ x < stop := by
  have hlt (t : ℕ) : t < (stop - start + step - 1) / step ↔ start + step * t < stop := by
    rw [Nat.lt_div_iff_mul_lt hs, Nat.mul_comm]
    omega
  rw [strided, List.mem_range']
  constructor
  · rintro ⟨t, ht, rfl⟩
    exact ⟨t, rfl, (hlt t).mp ht⟩
  · rintro ⟨t, rfl, ht⟩
    exact ⟨t, (hlt t).mpr ht, rfl⟩

/-- A loop that starts at a thread's number visits its residue class. -/
theorem mem_strided_tid {tid : Fin wn} {stop x : ℕ} :
    x ∈ strided tid stop wn ↔ x % wn = tid ∧ x < stop := by
  rw [mem_strided tid.pos]
  constructor
  · rintro ⟨t, rfl, hx⟩
    exact ⟨by rw [Nat.add_mul_mod_self_left, Nat.mod_eq_of_lt tid.isLt], hx⟩
  · rintro ⟨htid, hx⟩
    exact ⟨x / wn, by rw [← htid, Nat.mod_add_div], hx⟩

/-- `i * dim + k` is a cell of row `i`. -/
theorem div_row {i k dim : ℕ} (hk : k < dim) : (i * dim + k) / dim = i := by
  rw [Nat.mul_comm, Nat.mul_add_div (Nat.zero_lt_of_lt hk), Nat.div_eq_of_lt hk, Nat.add_zero]

theorem index_lt {i rows k dim : ℕ} (hi : i < rows) (hk : k < dim) :
    i * dim + k < rows * dim := by
  have := row_end dim hi
  omega

section Footprint

variable {ids : Ids wn} {tid : Fin wn} {a : Args α} {i j k : ℕ}

theorem row_mem (hi : i % wn = ids.row tid ∧ i < a.rowHeight) (hk : k < a.dim) :
    Cell.row (i * a.dim + k) ∈ own a ids tid :=
  ⟨by rw [div_row hk, hi.1], index_lt hi.2 hk⟩

theorem col_mem (hj : j % wn = ids.col tid ∧ j < a.colHeight) (hk : k < a.dim) :
    Cell.col (j * a.dim + k) ∈ own a ids tid :=
  ⟨by rw [div_row hk, hj.1], index_lt hj.2 hk⟩

theorem own_subset_readable : own a ids tid ⊆ readable a ids tid := by
  intro l hl
  cases l with
  | row x => exact hl
  | col x => exact hl
  | rating x => exact hl.elim

/-- The permutations keep the rows and the columns of two threads apart. -/
theorem own_apart {tid' : Fin wn} (h : tid ≠ tid') {l : Cell} (hl : l ∈ own a ids tid) :
    l ∉ readable a ids tid' := by
  intro hl'
  cases l with
  | row x => exact h (ids.row.injective (Fin.ext (hl.1.symm.trans hl'.1)))
  | col x => exact h (ids.col.injective (Fin.ext (hl.1.symm.trans hl'.1)))
  | rating x => exact hl

section Within

variable [Zero α] [Add α] [Sub α] [Mul α] [BEq α]

variable {R W : Set Cell}

omit [Zero α] [Add α] [BEq α] in
theorem within_errStep (hr : .row (i * a.dim + k) ∈ W) (hc : .col (j * a.dim + k) ∈ W) (err : α) :
    (errStep a i j err k).Within W W :=
  (within_get hr).bind fun _ => (within_get hc).bind fun _ => trivial

omit [Zero α] [BEq α] in
theorem within_elesStep (hr : .row (i * a.dim + k) ∈ W) (hc : .col (j * a.dim + k) ∈ W)
    (err : α) : (elesStep a i j err k).Within W W := by
  have getRow := within_get (V := α) (W := W) hr
  have getCol := within_get (V := α) (W := W) hc
  exact getCol.bind fun _ => getRow.bind fun _ => getRow.bind fun _ =>
    (within_set hr _).bind fun _ => getRow.bind fun _ => getCol.bind fun _ =>
      getCol.bind fun _ => within_set hc _

omit [Zero α] [BEq α] in
/-- Both loops over `k`. -/
theorem within_loops
    (h : ∀ k < a.dim, .row (i * a.dim + k) ∈ W ∧ .col (j * a.dim + k) ∈ W) (err : α) :
    ((List.range a.dim).foldlM (errStep a i j) err >>= fun err =>
      (List.range a.dim).forM (elesStep a i j err)).Within W W := by
  refine (within_foldlM (fun err k hk => ?_) err).bind fun err => within_forM fun k hk => ?_
  · obtain ⟨hr, hc⟩ := h k (List.mem_range.mp hk)
    exact within_errStep hr hc err
  · obtain ⟨hr, hc⟩ := h k (List.mem_range.mp hk)
    exact within_elesStep hr hc err

theorem within_entryBody (hrating : .rating (i * a.colHeight + j) ∈ R) (hsub : W ⊆ R)
    (h : ∀ k < a.dim, .row (i * a.dim + k) ∈ W ∧ .col (j * a.dim + k) ∈ W) :
    (entryBody a i j).Within R W := by
  refine (within_get hrating).bind fun err => ?_
  by_cases h0 : err == 0
  · rw [if_pos h0]
    trivial
  · rw [if_neg h0]
    exact (within_loops h err).mono hsub subset_rfl

/-- The threads of a launch do not touch each other's cells, and they stay inside
the arrays. -/
theorem separate_cudaMf (a : Args α) (ids : Ids wn) :
    Separate (readable a ids) (own a ids) (cudaMf a ids) where
  within _ := within_forM fun _ hi => within_forM fun _ hj => by
    have hi := mem_strided_tid.mp hi
    have hj := mem_strided_tid.mp hj
    exact within_entryBody (index_lt hi.2 hj.2) own_subset_readable
      fun _ hk => ⟨row_mem hi hk, col_mem hj hk⟩
  sub _ := own_subset_readable
  apart _ _ h _ hl := own_apart h hl

end Within

end Footprint

/-! ## The entries of a thread -/

/-- A strided loop that starts at a residue visits its class in order. -/
theorem strided_eq_filter (tid : Fin wn) (stop : ℕ) :
    strided tid stop wn = (List.range stop).filter fun x => x % wn = tid := by
  have hstrided : (strided tid stop wn).SortedLT := by
    rw [List.sortedLT_iff_pairwise]
    exact List.pairwise_lt_range' _ tid.pos
  have hfilter : ((List.range stop).filter fun x => x % wn = tid).SortedLT := by
    rw [List.sortedLT_iff_pairwise]
    exact List.pairwise_lt_range.filter _
  refine hstrided.eq_of_mem_iff hfilter fun x => ?_
  rw [mem_strided_tid, List.mem_filter, List.mem_range, decide_eq_true_eq, and_comm]

theorem product_filter {β γ : Type} (l : List β) (l' : List γ) (p : β → Bool) (q : γ → Bool) :
    l.filter p ×ˢ l'.filter q = (l ×ˢ l').filter fun e => p e.1 && q e.2 := by
  induction l with
  | nil => rfl
  | cons x l ih =>
      rw [List.product_cons, List.filter_append, ← ih, List.filter_map]
      cases hp : p x with
      | true =>
          rw [List.filter_cons_of_pos hp, List.product_cons]
          simp only [Function.comp_def, hp, Bool.true_and]
      | false =>
          rw [List.filter_cons_of_neg (by simp [hp])]
          simp only [Function.comp_def, hp, Bool.false_and, List.filter_false, List.map_nil,
            List.nil_append]

/-- The indices of the rating matrix, row by row. -/
def entries (a : Args α) : List (ℕ × ℕ) :=
  List.range a.rowHeight ×ˢ List.range a.colHeight

/-- The entry has the residues of thread `tid`. -/
def Matches (ids : Ids wn) (tid : Fin wn) (e : ℕ × ℕ) : Prop :=
  e.1 % wn = ids.row tid ∧ e.2 % wn = ids.col tid

instance (ids : Ids wn) (tid : Fin wn) (e : ℕ × ℕ) : Decidable (Matches ids tid e) :=
  inferInstanceAs (Decidable (_ ∧ _))

/-- The entries that a thread visits. -/
def visited (a : Args α) (ids : Ids wn) (tid : Fin wn) : List (ℕ × ℕ) :=
  (entries a).filter fun e => Matches ids tid e

theorem mem_visited {a : Args α} {ids : Ids wn} {tid : Fin wn} {e : ℕ × ℕ} :
    e ∈ visited a ids tid ↔ (e.1 < a.rowHeight ∧ e.2 < a.colHeight) ∧ Matches ids tid e := by
  rw [visited, List.mem_filter, decide_eq_true_eq, entries, List.mem_product, List.mem_range,
    List.mem_range]

theorem nodup_visited (a : Args α) (ids : Ids wn) (tid : Fin wn) : (visited a ids tid).Nodup :=
  (List.nodup_range.product List.nodup_range).filter _

/-- The two loops of a thread are one loop over the entries that it visits. -/
theorem visited_eq (a : Args α) (ids : Ids wn) (tid : Fin wn) :
    visited a ids tid =
      strided (ids.row tid) a.rowHeight wn ×ˢ strided (ids.col tid) a.colHeight wn := by
  rw [strided_eq_filter, strided_eq_filter, product_filter, visited, entries]
  exact List.filter_congr fun e _ => Bool.decide_and _ _

/-- The thread takes them one after the other. -/
theorem cudaMf_eq_forM [Zero α] [Add α] [Sub α] [Mul α] [BEq α] (a : Args α) (ids : Ids wn)
    (tid : Fin wn) : cudaMf a ids tid = (visited a ids tid).forM fun e => entryBody a e.1 e.2 := by
  rw [visited_eq, forM_product]
  rfl

/-! ## Launches -/

section Launch

variable [Zero α] [Add α] [Sub α] [Mul α] [BEq α] (a : Args α)

/-- The device memory and the threads when a kernel is launched. -/
def launchStart (ids : Ids wn) (m : Cell → α) : Threads (Fin wn) Cell α :=
  ⟨m, cudaMf a ids⟩

/-- A launch may leave the memory `m'`: some complete interleaving does. -/
def Launch (ids : Ids wn) (m m' : Cell → α) : Prop :=
  ∃ as t, (launchStart a ids m).system.run (launchStart a ids m) as = some t ∧ t.Done ∧ t.mem = m'

/-- The threads `0 .. wn - 1` one after the other. -/
def launchInOrder (m : Cell → α) (ids : Ids wn) : Cell → α :=
  inOrder (cudaMf a ids) (List.finRange wn) m

theorem launch_iff {ids : Ids wn} {m m' : Cell → α} :
    Launch a ids m m' ↔ m' = launchInOrder a m ids := by
  have hsep := separate_cudaMf a ids
  have hall : ∀ i : Fin wn, i ∈ List.finRange wn := List.mem_finRange
  have heq {as : List (Fin wn)} {t : Threads (Fin wn) Cell α}
      (hr : (launchStart a ids m).system.run (launchStart a ids m) as = some t) (hd : t.Done) :
      t.mem = launchInOrder a m ids :=
    Separate.run_eq_inOrder (s := launchStart a ids m) hsep (List.nodup_finRange wn) hall hr hd
  constructor
  · rintro ⟨as, t, hr, hd, rfl⟩
    exact heq hr hd
  · rintro rfl
    obtain ⟨as, t, hr, hd⟩ := exists_run (launchStart a ids m) (launchStart a ids m) hall
    exact ⟨as, t, hr, hd, heq hr hd⟩

/-- The launches of `gpu_mf`, one after the other. -/
inductive Launches : List (Ids wn) → (Cell → α) → (Cell → α) → Prop where
  | nil {m : Cell → α} : Launches [] m m
  | cons {ids : Ids wn} {l : List (Ids wn)} {m m' m'' : Cell → α} :
      Launch a ids m m' → Launches l m' m'' → Launches (ids :: l) m m''

theorem launches_iff {l : List (Ids wn)} {m m' : Cell → α} :
    Launches a l m m' ↔ m' = l.foldl (launchInOrder a) m := by
  induction l generalizing m with
  | nil =>
      constructor
      · rintro ⟨⟩
        rfl
      · rintro rfl
        exact .nil
  | cons ids l ih =>
      constructor
      · rintro (_ | ⟨h, hl⟩)
        rw [List.foldl_cons, ← (launch_iff a).mp h]
        exact ih.mp hl
      · intro h
        exact .cons ((launch_iff a).mpr rfl) (ih.mpr h)

/-- The device memory after the copies to the device. -/
def toDevice (rowEles colEles ratings : List α) : Cell → α
  | .row x => rowEles.getD x 0
  | .col x => colEles.getD x 0
  | .rating x => ratings.getD x 0

/-- The two arrays that are copied back. -/
def fromDevice (m : Cell → α) : List α × List α :=
  ((List.range (a.rowHeight * a.dim)).map fun x => m (.row x),
    (List.range (a.colHeight * a.dim)).map fun x => m (.col x))

omit [Add α] [Sub α] [Mul α] [BEq α] in
theorem fromDevice_row {m : Cell → α} {x : ℕ} (hx : x < a.rowHeight * a.dim) :
    (fromDevice a m).1.getD x 0 = m (.row x) := by
  simp [fromDevice, List.getD_eq_getElem?_getD, List.getElem?_range hx]

omit [Add α] [Sub α] [Mul α] [BEq α] in
theorem fromDevice_col {m : Cell → α} {x : ℕ} (hx : x < a.colHeight * a.dim) :
    (fromDevice a m).2.getD x 0 = m (.col x) := by
  simp [fromDevice, List.getD_eq_getElem?_getD, List.getElem?_range hx]

/-- `gpu_mf` may return these arrays, when the shuffles of its launches give the
permutations `l`. -/
def GpuMf (l : List (Ids wn)) (rowEles colEles ratings : List α) (res : List α × List α) :
    Prop :=
  ∃ m, Launches a l (toDevice rowEles colEles ratings) m ∧ res = fromDevice a m

/-- `gpu_mf` with the threads of each launch one after the other. -/
def gpuMfInOrder (l : List (Ids wn)) (rowEles colEles ratings : List α) : List α × List α :=
  fromDevice a (l.foldl (launchInOrder a) (toDevice rowEles colEles ratings))

/-- The schedule of the threads does not matter, neither in one launch nor in
`gpu_mf` with any number of launches. -/
theorem schedule_independent :
    (∀ (ids : Ids wn) (m : Cell → α) (as : List (Fin wn)) (t : Threads (Fin wn) Cell α),
      (launchStart a ids m).system.run (launchStart a ids m) as = some t → t.Done →
      t.mem = launchInOrder a m ids) ∧
    ∀ (l : List (Ids wn)) (rowEles colEles ratings : List α) (res : List α × List α),
      GpuMf a l rowEles colEles ratings res ↔ res = gpuMfInOrder a l rowEles colEles ratings := by
  refine ⟨fun ids m as t hr hd => (launch_iff a).mp ⟨as, t, hr, hd, rfl⟩,
    fun l rowEles colEles ratings res => ?_⟩
  constructor
  · rintro ⟨m, hm, rfl⟩
    rw [gpuMfInOrder, ← (launches_iff a).mp hm]
  · rintro rfl
    exact ⟨_, (launches_iff a).mpr rfl, rfl⟩

end Launch

/-- Two threads that exchange their rows. -/
def Ids.small : Ids 2 := ⟨Equiv.swap 0 1, 1⟩

/-- A launch of them. -/
def launchSmall : Threads (Fin 2) Cell ℤ :=
  launchStart ⟨⟨2, 3⟩, 1, 2, 2⟩ .small (toDevice [1, 2] [3, 4] [0, 5, 6, 0])

/-- The threads take turns at single accesses. -/
theorem schedule_independent_small :
    ∃ t, launchSmall.system.run launchSmall (List.replicate 11 [0, 1]).flatten = some t ∧
      t.mem = launchInOrder ⟨⟨2, 3⟩, 1, 2, 2⟩ launchSmall.mem .small := by
  have hr : ∃ t, launchSmall.system.run launchSmall (List.replicate 11 [0, 1]).flatten = some t ∧
      t.Done := ⟨_, rfl, fun i => by fin_cases i <;> rfl⟩
  obtain ⟨t, ht, hd⟩ := hr
  exact ⟨t, ht, (schedule_independent ⟨⟨2, 3⟩, 1, 2, 2⟩).1 .small _ _ t ht hd⟩

end StellarBench.Kernel
