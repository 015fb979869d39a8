import StellarBench.Lib.Faults
import StellarBench.Matrix.Frame
import StellarBench.Matrix.Kernel
import StellarBench.Matrix.Partition

/-!
# The CUDA kernel in 32-bit arithmetic

`gpu_mf` computes the sizes of its buffers in `size_t`, `cuda_mf` its indices and
its loop counters in `int`.  Here both are as in the source: an index that
overflows or is outside its buffer is a fault, and so is a counter that
overflows in the step of a loop.

`cudaMf32_eq_iff` says for which arguments this is the kernel of `Matrix.Kernel`.
The last row and the last column are those that matter, and some permutations
give both to one thread.
-/

namespace StellarBench.Kernel

open Faults CInt

variable {α : Type} {wn : ℕ}

/-! ## The program of a thread -/

/-- The number of doubles that `cudaMalloc` allocates for `height` rows of `width`
elements, with `sizeof(double) * height * width` in `size_t`. -/
def bufferEles (height width : ℕ) : ℕ := doubleSz * height * width % 2 ^ 64 / doubleSz

/-- `x * width + k`, an index into a buffer of `size` elements. -/
def index (x width k : ℤ) (size : ℕ) : Option ℕ := do
  let start ← mul x width
  let idx ← add start k
  if 0 ≤ idx ∧ idx < size then some idx.toNat else none

/-- `for (x = start; x < stop; x += step)`.  The step is positive, since it is
the number of threads. -/
def loop {L V : Type} (stop step : ℤ) (body : ℤ → OptionT (Prog L V) Unit) (x : ℤ) :
    OptionT (Prog L V) Unit :=
  if x < stop ∧ 0 < step then do
    body x
    if IsInt (x + step) then loop stop step body (x + step) else check none
  else pure ()
termination_by (stop - x).toNat
decreasing_by omega

section Program

variable [Zero α] [Add α] [Sub α] [Mul α] [BEq α] (a : Args α)

/-- The index `i*dim+k` into `row_eles`. -/
def rowIndex (i : ℤ) (k : ℕ) : Option ℕ := index i a.dim k (bufferEles a.rowHeight a.dim)

/-- The index `j*dim+k` into `col_eles`. -/
def colIndex (j : ℤ) (k : ℕ) : Option ℕ := index j a.dim k (bufferEles a.colHeight a.dim)

/-- The index `i*col_height+j` into `rating_entries`. -/
def ratingIndex (i j : ℤ) : Option ℕ :=
  index i a.colHeight j (bufferEles a.rowHeight a.colHeight)

/-- One pass of the first loop over `k`. -/
def errStep32 (i j : ℤ) (err : α) (k : ℕ) : OptionT (Prog Cell α) α := do
  let x ← check (rowIndex a i k)
  let r ← load (.row x)
  let y ← check (colIndex a j k)
  let c ← load (.col y)
  return err - r * c

/-- One pass of the second loop over `k`.  Each index is evaluated once here. -/
def elesStep32 (i j : ℤ) (err : α) (k : ℕ) : OptionT (Prog Cell α) Unit := do
  let y ← check (colIndex a j k)
  let c ← load (.col y)
  let x ← check (rowIndex a i k)
  let r ← load (.row x)
  let old ← load (.row x)
  store (.row x) (old + a.rates.yita * (err * c - a.rates.theta * r))
  let r ← load (.row x)
  let c ← load (.col y)
  let old ← load (.col y)
  store (.col y) (old + a.rates.yita * (err * r - a.rates.theta * c))

/-- The body of the loops over `i` and `j`. -/
def entryBody32 (i j : ℤ) : OptionT (Prog Cell α) Unit := do
  let e ← check (ratingIndex a i j)
  let err ← load (.rating e)
  if err == 0 then return ()
  else
    let err ← (List.range a.dim).foldlM (errStep32 a i j) err
    (List.range a.dim).forM (elesStep32 a i j err)

/-- `cuda_mf` in the thread `tid`. -/
def cudaMf32 (ids : Ids wn) (tid : Fin wn) : OptionT (Prog Cell α) Unit :=
  loop a.rowHeight wn
    (fun i => loop a.colHeight wn (fun j => entryBody32 a i j) (ids.col tid : ℕ))
    (ids.row tid : ℕ)

end Program

/-! ## Loops -/

section Loop

variable {L V : Type} {start stop step : ℕ}

theorem strided_of_le (h : stop ≤ start) (hs : 0 < step) : strided start stop step = [] := by
  have hcount : (stop - start + step - 1) / step = 0 := Nat.div_eq_of_lt (by omega)
  rw [strided, hcount]
  rfl

theorem strided_of_lt (h : start < stop) (hs : 0 < step) :
    strided start stop step = start :: strided (start + step) stop step := by
  have hcount : (stop - start + step - 1) / step =
      (stop - (start + step) + step - 1) / step + 1 := by
    rcases le_total (start + step) stop with hle | hle
    · have hsum : stop - start + step - 1 = stop - (start + step) + step - 1 + step := by omega
      rw [hsum, Nat.add_div_right _ hs]
    · have hsum : stop - start + step - 1 = (stop - start - 1) + step := by omega
      rw [hsum, Nat.add_div_right _ hs, Nat.div_eq_of_lt (show stop - start - 1 < step by omega),
        Nat.div_eq_of_lt (show stop - (start + step) + step - 1 < step by omega)]
  rw [strided, strided, hcount, List.range'_succ]

/-- A loop whose steps do not overflow visits the values of `strided`. -/
theorem loop_eq (hs : 0 < step) {body : ℤ → OptionT (Prog L V) Unit} {g : ℕ → Prog L V Unit}
    (h : ∀ x ∈ strided start stop step, body x = OptionT.lift (g x) ∧ IsInt (x + step)) :
    loop stop step body start = OptionT.lift ((strided start stop step).forM g) := by
  induction hn : stop - start using Nat.strong_induction_on generalizing start with
  | _ n ih =>
      rw [loop]
      rcases Nat.lt_or_ge start stop with hlt | hge
      · rw [strided_of_lt hlt hs] at h ⊢
        obtain ⟨hbody, hstep⟩ := h start List.mem_cons_self
        have htail : ∀ x ∈ strided (start + step) stop step,
            body x = OptionT.lift (g x) ∧ IsInt (x + step) :=
          fun x hx => h x (List.mem_cons_of_mem _ hx)
        have hrest := ih (stop - (start + step)) (by omega) htail rfl
        rw [if_pos (by omega), if_pos hstep, hbody, ← Nat.cast_add, hrest]
        exact (lift_bind (g start) fun _ => (strided (start + step) stop step).forM g).symm
      · rw [strided_of_le hge hs, if_neg (by omega)]
        rfl

/-- The first pass of a safe loop is safe, and so are its step and the rest. -/
theorem Safe.first [Nonempty V] {x stop step : ℤ} {body : ℤ → OptionT (Prog L V) Unit}
    (hx : x < stop) (hs : 0 < step) (h : Safe (loop stop step body x)) :
    Safe (body x) ∧ IsInt (x + step) ∧ Safe (loop stop step body (x + step)) := by
  rw [Kernel.loop, if_pos ⟨hx, hs⟩] at h
  obtain ⟨-, hrest⟩ := h.right
  by_cases hstep : IsInt (x + step)
  · rw [if_pos hstep] at hrest
    exact ⟨h.left, hstep, hrest⟩
  · rw [if_neg hstep] at hrest
    exact absurd hrest not_safe_none

/-- A safe loop has safe passes, and its steps do not overflow. -/
theorem Safe.loop [Nonempty V] (hs : 0 < step) {body : ℤ → OptionT (Prog L V) Unit}
    (h : Safe (loop stop step body start)) :
    ∀ x ∈ strided start stop step, Safe (body x) ∧ IsInt (x + step) := by
  induction hn : stop - start using Nat.strong_induction_on generalizing start with
  | _ n ih =>
      intro x hx
      rcases Nat.lt_or_ge start stop with hlt | hge
      · obtain ⟨hbody, hstep, hrest⟩ := Safe.first (by omega) (by omega) h
        rw [strided_of_lt hlt hs] at hx
        rcases List.mem_cons.mp hx with rfl | hx
        · exact ⟨hbody, hstep⟩
        · rw [← Nat.cast_add] at hrest
          exact ih (stop - (start + step)) (by omega) hrest rfl x hx
      · rw [strided_of_le hge hs] at hx
        cases hx

end Loop

/-! ## Indices -/

section Index

variable {x width k size : ℕ}

theorem index_eq_some (hsize : x * width + k < size) (hint : x * width + k < 2 ^ 31) :
    index x width k size = some (x * width + k) := by
  have hmul : IsInt ((x * width : ℕ) : ℤ) := .of_nonneg (by omega) (by omega)
  have hadd : IsInt ((x * width + k : ℕ) : ℤ) := .of_nonneg (by omega) (by omega)
  rw [Nat.cast_add] at hadd
  rw [Nat.cast_mul] at hmul hadd
  rw [index, mul_of hmul, Option.bind_eq_bind, Option.bind_some, add_of hadd,
    Option.bind_some, ← Nat.cast_mul, ← Nat.cast_add,
    if_pos ⟨by omega, by omega⟩, Int.toNat_natCast]

/-- An index with a value did not overflow. -/
theorem lt_of_index {y : ℕ} (h : index x width k size = some y) : x * width + k < 2 ^ 31 := by
  simp only [index, Option.bind_eq_bind, Option.bind_eq_some_iff] at h
  obtain ⟨start, hstart, idx, hidx, -⟩ := h
  obtain ⟨-, rfl⟩ := exact_eq_some.mp hstart
  obtain ⟨hint, -⟩ := exact_eq_some.mp hidx
  exact_mod_cast hint.2

theorem bufferEles_eq {height : ℕ} (h : height * width ≤ 2 ^ 31) :
    bufferEles height width = height * width := by
  rw [bufferEles, doubleSz, Nat.mul_assoc]
  omega

end Index

/-! ## Arguments without faults -/

/-- The steps of both loops and all indices are values of `int`.  Without rows
there is no pass, and without columns none over `j`. -/
def Representable (a : Args α) (wn : ℕ) : Prop :=
  a.rowHeight = 0 ∨ a.rowHeight + wn ≤ 2 ^ 31 ∧
    (a.colHeight = 0 ∨ a.colHeight + wn ≤ 2 ^ 31 ∧ a.rowHeight * a.colHeight ≤ 2 ^ 31 ∧
      a.rowHeight * a.dim ≤ 2 ^ 31 ∧ a.colHeight * a.dim ≤ 2 ^ 31)

instance (a : Args α) (wn : ℕ) : Decidable (Representable a wn) :=
  inferInstanceAs (Decidable (_ ∨ _))

section Exact

variable [Zero α] [Add α] [Sub α] [Mul α] [BEq α] {a : Args α} {i j k : ℕ}

omit [Zero α] [Add α] [Sub α] [Mul α] [BEq α] in
theorem rowIndex_eq (h : a.rowHeight * a.dim ≤ 2 ^ 31) (hi : i < a.rowHeight) (hk : k < a.dim) :
    rowIndex a i k = some (i * a.dim + k) := by
  have hlt := index_lt hi hk
  exact index_eq_some (hlt.trans_eq (bufferEles_eq h).symm) (hlt.trans_le h)

omit [Zero α] [Add α] [Sub α] [Mul α] [BEq α] in
theorem colIndex_eq (h : a.colHeight * a.dim ≤ 2 ^ 31) (hj : j < a.colHeight) (hk : k < a.dim) :
    colIndex a j k = some (j * a.dim + k) := by
  have hlt := index_lt hj hk
  exact index_eq_some (hlt.trans_eq (bufferEles_eq h).symm) (hlt.trans_le h)

omit [Zero α] [Add α] [Sub α] [Mul α] [BEq α] in
theorem ratingIndex_eq (h : a.rowHeight * a.colHeight ≤ 2 ^ 31) (hi : i < a.rowHeight)
    (hj : j < a.colHeight) : ratingIndex a i j = some (i * a.colHeight + j) := by
  have hlt := index_lt hi hj
  exact index_eq_some (hlt.trans_eq (bufferEles_eq h).symm) (hlt.trans_le h)

omit [Zero α] [Add α] [BEq α] in
theorem errStep32_eq (hx : rowIndex a i k = some (i * a.dim + k))
    (hy : colIndex a j k = some (j * a.dim + k)) (err : α) :
    errStep32 a i j err k = OptionT.lift (errStep a i j err k) := by
  simp only [errStep32, hx, hy, check_some, pure_bind]
  rfl

omit [Zero α] [BEq α] in
theorem elesStep32_eq (hx : rowIndex a i k = some (i * a.dim + k))
    (hy : colIndex a j k = some (j * a.dim + k)) (err : α) :
    elesStep32 a i j err k = OptionT.lift (elesStep a i j err k) := by
  simp only [elesStep32, hx, hy, check_some, pure_bind]
  rfl

/-- An entry whose indices are exact. -/
theorem entryBody32_eq (he : a.rowHeight * a.colHeight ≤ 2 ^ 31)
    (hr : a.rowHeight * a.dim ≤ 2 ^ 31) (hc : a.colHeight * a.dim ≤ 2 ^ 31)
    (hi : i < a.rowHeight) (hj : j < a.colHeight) :
    entryBody32 a i j = OptionT.lift (entryBody a i j) := by
  have hx {k : ℕ} (hk : k ∈ List.range a.dim) := rowIndex_eq hr hi (List.mem_range.mp hk)
  have hy {k : ℕ} (hk : k ∈ List.range a.dim) := colIndex_eq hc hj (List.mem_range.mp hk)
  have herr (err : α) := foldlM_lift (fun err k hk => errStep32_eq (hx hk) (hy hk) err) err
  have heles (err : α) := forM_lift fun k hk => elesStep32_eq (hx hk) (hy hk) err
  rw [entryBody32, entryBody, ratingIndex_eq he hi hj, check_some, pure_bind, lift_bind]
  refine congrArg _ (funext fun err => ?_)
  split
  · rfl
  · rw [herr err, lift_bind]
    exact congrArg _ (funext heles)

/-- A kernel without faults is the kernel over the integers. -/
theorem cudaMf32_eq (hwn : 0 < wn) (h : Representable a wn) (ids : Ids wn) (tid : Fin wn) :
    cudaMf32 a ids tid = OptionT.lift (cudaMf a ids tid) := by
  have hstep {x n : ℕ} (hx : x < n) (hn : n + wn ≤ 2 ^ 31) : IsInt ((x : ℤ) + wn) :=
    .of_nonneg (by omega) (by omega)
  refine loop_eq hwn fun i hi => ?_
  have hlt := (mem_strided_tid.mp hi).2
  rcases h with h0 | ⟨hrows, hcols⟩
  · omega
  · refine ⟨loop_eq hwn fun j hj => ?_, hstep hlt hrows⟩
    have hlt' := (mem_strided_tid.mp hj).2
    rcases hcols with h0 | ⟨hcols, he, hr, hc⟩
    · omega
    · exact ⟨entryBody32_eq he hr hc hlt hlt', hstep hlt' hcols⟩

/-! ## Faults -/

/-- A thread that is safe evaluates these indices. -/
theorem Safe.entryBody32 {v : α} (hv : (v == 0) = false) (h : Safe (entryBody32 a i j)) :
    i * a.colHeight + j < 2 ^ 31 ∧
      ∀ k < a.dim, i * a.dim + k < 2 ^ 31 ∧ j * a.dim + k < 2 ^ 31 := by
  have : Nonempty α := ⟨v⟩
  rw [Kernel.entryBody32] at h
  obtain ⟨e, he, hload⟩ := Safe.check h
  have hloops := Safe.load hload v
  rw [hv] at hloops
  refine ⟨lt_of_index he, fun k hk => ?_⟩
  obtain ⟨err, hbody⟩ := Safe.foldlM (Safe.left hloops) k (List.mem_range.mpr hk)
  rw [errStep32] at hbody
  obtain ⟨x, hx, hbody⟩ := Safe.check hbody
  have hbody := Safe.load hbody v
  obtain ⟨y, hy, -⟩ := Safe.check hbody
  exact ⟨lt_of_index hx, lt_of_index hy⟩

/-- Some permutations give the row `i` and the column `j` to one thread. -/
theorem exists_thread (hwn : 0 < wn) (i j : ℕ) :
    ∃ (ids : Ids wn) (tid : Fin wn), (ids.row tid : ℕ) = i % wn ∧ (ids.col tid : ℕ) = j % wn := by
  let tid : Fin wn := ⟨0, hwn⟩
  let give (x : ℕ) : Equiv.Perm (Fin wn) := Equiv.swap tid ⟨x % wn, Nat.mod_lt x hwn⟩
  have hgive (x : ℕ) : (give x tid : ℕ) = x % wn := by
    rw [Equiv.swap_apply_left]
  exact ⟨⟨give i, give j⟩, tid, hgive i, hgive j⟩

omit [Zero α] [Add α] [Sub α] [Mul α] [BEq α] in
theorem mem_strided_mod {x stop : ℕ} (hwn : 0 < wn) (hx : x < stop) :
    x ∈ strided (x % wn) stop wn :=
  (mem_strided hwn).mpr ⟨x / wn, (Nat.mod_add_div x wn).symm, hx⟩

omit [Zero α] [Add α] [Sub α] [Mul α] [BEq α] in
/-- A buffer whose last index is in range. -/
theorem mul_le_of_last {height width : ℕ} (hh : 0 < height)
    (h : ∀ k < width, (height - 1) * width + k < 2 ^ 31) : height * width ≤ 2 ^ 31 := by
  rcases Nat.eq_zero_or_pos width with h0 | hw
  · simp [h0]
  · have hlast := h (width - 1) (by omega)
    obtain ⟨n, rfl⟩ := Nat.exists_eq_succ_of_ne_zero hh.ne'
    rw [Nat.succ_sub_one] at hlast
    rw [Nat.succ_mul]
    omega

/-- When no thread has a fault, the last row and the last column are in range. -/
theorem representable_of_safe (hwn : 0 < wn) {v : α} (hv : (v == 0) = false)
    (h : ∀ (ids : Ids wn) (tid : Fin wn), Safe (cudaMf32 a ids tid)) : Representable a wn := by
  have : Nonempty α := ⟨v⟩
  rcases Nat.eq_zero_or_pos a.rowHeight with h0 | hrows
  · exact .inl h0
  · obtain ⟨ids, tid, hrow, hcol⟩ := exists_thread hwn (a.rowHeight - 1) (a.colHeight - 1)
    have hsafe := h ids tid
    rw [cudaMf32, hrow, hcol] at hsafe
    obtain ⟨hinner, hstep⟩ := Safe.loop hwn hsafe (a.rowHeight - 1)
      (mem_strided_mod hwn (by omega))
    have hrowStep := hstep.2
    refine .inr ⟨by omega, ?_⟩
    rcases Nat.eq_zero_or_pos a.colHeight with h0 | hcols
    · exact .inl h0
    · obtain ⟨hbody, hstep⟩ := Safe.loop hwn hinner (a.colHeight - 1)
        (mem_strided_mod hwn (by omega))
      have hcolStep := hstep.2
      obtain ⟨he, hk⟩ := Safe.entryBody32 hv hbody
      refine .inr ⟨by omega, mul_le_of_last hrows fun k hlt => ?_,
        mul_le_of_last hrows fun k hlt => (hk k hlt).1,
        mul_le_of_last hcols fun k hlt => (hk k hlt).2⟩
      omega

/-- The kernel is that over the integers, for all permutations and in all threads,
exactly when the last row and the last column are in range.  `v` is a rating
that is not skipped. -/
theorem cudaMf32_eq_iff (a : Args α) (hwn : 0 < wn) {v : α} (hv : (v == 0) = false) :
    (∀ (ids : Ids wn) (tid : Fin wn), cudaMf32 a ids tid = OptionT.lift (cudaMf a ids tid)) ↔
      Representable a wn := by
  constructor
  · intro h
    refine representable_of_safe hwn hv fun ids tid => ?_
    rw [h ids tid]
    exact safe_lift _
  · intro h ids tid
    exact cudaMf32_eq hwn h ids tid

end Exact

/-- Two threads on two rows and three columns. -/
theorem cudaMf32_eq_small :
    cudaMf32 (⟨⟨1, 1⟩, 2, 2, 3⟩ : Args ℚ) Ids.small 1 =
      OptionT.lift (cudaMf ⟨⟨1, 1⟩, 2, 2, 3⟩ Ids.small 1) :=
  (cudaMf32_eq_iff ⟨⟨1, 1⟩, 2, 2, 3⟩ (by decide) (v := 1) (by decide)).mpr (by decide) _ _

/-- The first blocks of the matrices of `mf_common.h` for 17 workers.  The ratings
take 17 gigabytes, and there are more of them than values of `int`. -/
theorem rating_index_overflows :
    (partitionBlock 1000990 100 17 (fun _ _ => (0 : ℚ)) (fun _ => Block.zero) 0).height = 58882 ∧
      (partitionBlock 624961 100 17 (fun _ _ => (0 : ℚ)) (fun _ => Block.zero) 0).height = 36763 ∧
      let a : Args ℚ := ⟨⟨1 / 5, 1 / 5⟩, 100, 58882, 36763⟩
      ¬ ∀ (ids : Ids 4) (tid : Fin 4), cudaMf32 a ids tid = OptionT.lift (cudaMf a ids tid) := by
  refine ⟨rfl, rfl, ?_⟩
  intro a h
  have hrep : Representable a 4 := by
    refine representable_of_safe (by decide) (v := 1) (by decide) fun ids tid => ?_
    rw [h ids tid]
    exact safe_lift _
  revert hrep
  decide

end StellarBench.Kernel
