import StellarBench.Lib.InPlace
import StellarBench.Matrix.Kernel

/-!
# The gradient step

A simultaneous gradient step takes both new rows from the old ones.  Both
programs update the rows in place, element by element, so the row of Q is
computed from the new row of P (`step_in_place`).  Over a ring without zero
divisors the two are the same exactly where the new row makes no difference
(`sampleAt_gradient_iff`, `entryBody_gradient_iff`).
-/

namespace StellarBench

open Finset

variable {α : Type} {dim pOff qOff : ℕ}

/-! ## The rule -/

section Rule

variable [CommRing α] (c : Rates α)

/-- The new element of P. -/
def newP (error p q : α) : α := p + c.yita * (error * q - c.theta * p)

/-- The new element of Q. -/
def newQ (error p q : α) : α := q + c.yita * (error * p - c.theta * q)

/-- `r - p·q` for the rows that start at the two offsets. -/
def errorAt (r : α) (dim pOff qOff : ℕ) (m : (ℕ → α) × (ℕ → α)) : α :=
  r - ∑ k ∈ range dim, m.1 (pOff + k) * m.2 (qOff + k)

/-- The simultaneous rule, with the old rows on both sides. -/
def gradientStep (r : α) (dim pOff qOff : ℕ) (m : (ℕ → α) × (ℕ → α)) : (ℕ → α) × (ℕ → α) :=
  let error := errorAt r dim pOff qOff m
  simultaneous (newP c error) (newQ c error) dim pOff qOff m

/-- The rule that takes the new row of P for Q. -/
def inPlaceStep (r : α) (dim pOff qOff : ℕ) (m : (ℕ → α) × (ℕ → α)) : (ℕ → α) × (ℕ → α) :=
  let error := errorAt r dim pOff qOff m
  simultaneous (newP c error) (fun p q => newQ c error (newP c error p q) q) dim pOff qOff m

/-- The new row of P serves as well as the old one. -/
def NoDifference (r : α) (dim pOff qOff : ℕ) (m : (ℕ → α) × (ℕ → α)) : Prop :=
  let error := errorAt r dim pOff qOff m
  c.yita = 0 ∨ error = 0 ∨ ∀ k < dim, error * m.2 (qOff + k) = c.theta * m.1 (pOff + k)

/-- The new element of P makes no difference in one place. -/
theorem newQ_newP_iff [NoZeroDivisors α] (error p q : α) :
    newQ c error (newP c error p q) q = newQ c error p q ↔
      c.yita = 0 ∨ error = 0 ∨ error * q = c.theta * p := by
  have hdiff : newQ c error (newP c error p q) q - newQ c error p q =
      c.yita * (error * (c.yita * (error * q - c.theta * p))) := by
    rw [newQ, newQ, newP]
    ring
  rw [← sub_eq_zero, hdiff, mul_eq_zero, mul_eq_zero, mul_eq_zero, sub_eq_zero]
  tauto

/-- The rules agree exactly when the new row makes no difference. -/
theorem inPlaceStep_eq_iff [NoZeroDivisors α] (r : α) (m : (ℕ → α) × (ℕ → α)) :
    inPlaceStep c r dim pOff qOff m = gradientStep c r dim pOff qOff m ↔
      NoDifference c r dim pOff qOff m := by
  rw [inPlaceStep, gradientStep, simultaneous_eq_iff, NoDifference]
  simp only [newQ_newP_iff]
  constructor
  · intro h
    by_contra! hno
    obtain ⟨hyita, herror, k, hk, hne⟩ := hno
    rcases h k hk with h0 | h0 | h0
    · exact hyita h0
    · exact herror h0
    · exact hne h0
  · rintro (h | h | h) k hk
    · exact .inl h
    · exact .inr (.inl h)
    · exact .inr (.inr (h k hk))

end Rule

/-! ## `FakeSubMF` -/

/-- The elements of two arrays. -/
def view [Zero α] (m : List α × List α) : (ℕ → α) × (ℕ → α) :=
  (fun x => m.1.getD x 0, fun x => m.2.getD x 0)

theorem getD_set [Zero α] {l : List α} {i : ℕ} (hi : i < l.length) (v : α) :
    (fun x => (l.set i v).getD x 0) = Function.update (fun x => l.getD x 0) i v := by
  funext x
  rcases eq_or_ne x i with rfl | hx
  · rw [Function.update_self, List.getD_eq_getElem?_getD, List.getElem?_set_self hi]
    rfl
  · rw [Function.update_of_ne hx, List.getD_eq_getElem?_getD, List.getD_eq_getElem?_getD,
      List.getElem?_set_ne hx.symm]

section FakeSubMF

variable [CommRing α] (c : Rates α) {m : List α × List α}

theorem view_updateStep (error : α) {k : ℕ} (hp : pOff + k < m.1.length)
    (hq : qOff + k < m.2.length) : view (updateStep c error pOff qOff m k) =
      inPlace (newP c error) (newQ c error) pOff qOff (view m) k := by
  have hfst := getD_set hp (newP c error (m.1.getD (pOff + k) 0) (m.2.getD (qOff + k) 0))
  refine Prod.ext hfst ((getD_set hq _).trans ?_)
  -- the new element of P is read back from the array
  exact congrArg (fun p => Function.update (fun x => m.2.getD x 0) (qOff + k)
    (newQ c error p (m.2.getD (qOff + k) 0))) (congrFun hfst (pOff + k))

theorem predict_eq_sum (m : List α × List α) : predict dim pOff qOff m =
    ∑ k ∈ range dim, m.1.getD (pOff + k) 0 * m.2.getD (qOff + k) 0 := by
  rw [predict]
  induction dim with
  | zero => rfl
  | succ dim ih =>
      rw [List.range_succ, List.foldl_append, ih, sum_range_succ, List.foldl_cons, List.foldl_nil]

theorem updateStep_length (error : α) (pOff qOff : ℕ) (m : List α × List α) (k : ℕ) :
    (updateStep c error pOff qOff m k).1.length = m.1.length ∧
      (updateStep c error pOff qOff m k).2.length = m.2.length :=
  ⟨List.length_set, List.length_set⟩

/-- The loops on rows inside the arrays. -/
theorem view_sampleAt (r : α) (hp : pOff + dim ≤ m.1.length) (hq : qOff + dim ≤ m.2.length) :
    view (sampleAt c r dim pOff qOff m) = inPlaceStep c r dim pOff qOff (view m) ∧
      (sampleAt c r dim pOff qOff m).1.length = m.1.length ∧
      (sampleAt c r dim pOff qOff m).2.length = m.2.length := by
  have herror : r - predict dim pOff qOff m = errorAt r dim pOff qOff (view m) := by
    rw [predict_eq_sum]
    rfl
  rw [sampleAt, herror, inPlaceStep, ← foldl_inPlace]
  refine List.foldl_rel (r := fun l v => view l = v ∧ l.1.length = m.1.length ∧
    l.2.length = m.2.length) ⟨rfl, rfl, rfl⟩ fun k hk l v h => ?_
  obtain ⟨rfl, hlp, hlq⟩ := h
  have hk' := List.mem_range.mp hk
  obtain ⟨hlp', hlq'⟩ := updateStep_length c (errorAt r dim pOff qOff (view m)) pOff qOff l k
  exact ⟨view_updateStep c _ (by omega) (by omega), hlp'.trans hlp, hlq'.trans hlq⟩

end FakeSubMF

/-- The arrays `m'` hold what a rule makes of the arrays `m`. -/
structure Steps [Zero α] (rule : (ℕ → α) × (ℕ → α) → (ℕ → α) × (ℕ → α))
    (m m' : List α × List α) : Prop where
  pLength : m'.1.length = m.1.length
  qLength : m'.2.length = m.2.length
  eles : view m' = rule (view m)

/-! ## `cuda_mf` -/

namespace Kernel

open Prog

/-- The elements of `row_eles` and `col_eles`. -/
def deviceView (m : Cell → α) : (ℕ → α) × (ℕ → α) := (m ∘ Cell.row, m ∘ Cell.col)

theorem deviceView_update_row (m : Cell → α) (x : ℕ) (v : α) :
    deviceView (Function.update m (.row x) v) =
      (Function.update (deviceView m).1 x v, (deviceView m).2) := by
  have hrow : Function.Injective Cell.row := fun _ _ h => Cell.row.inj h
  have hcol (y : ℕ) : Cell.col y ≠ Cell.row x := nofun
  exact Prod.ext (Function.update_comp_eq_of_injective m hrow x v)
    (Function.update_comp_eq_of_forall_ne m v hcol)

theorem deviceView_update_col (m : Cell → α) (x : ℕ) (v : α) :
    deviceView (Function.update m (.col x) v) =
      ((deviceView m).1, Function.update (deviceView m).2 x v) := by
  have hcol : Function.Injective Cell.col := fun _ _ h => Cell.col.inj h
  have hrow (y : ℕ) : Cell.row y ≠ Cell.col x := nofun
  exact Prod.ext (Function.update_comp_eq_of_forall_ne m v hrow)
    (Function.update_comp_eq_of_injective m hcol x v)

section Kernel

variable [CommRing α] (a : Args α) {i j : ℕ}

/-- A pass of the second loop. -/
theorem exec_elesStep (err : α) (k : ℕ) (m : Cell → α) :
    deviceView ((elesStep a i j err k).exec m) =
        inPlace (newP a.rates err) (newQ a.rates err) (i * a.dim) (j * a.dim) (deviceView m) k ∧
      ∀ x, (elesStep a i j err k).exec m (.rating x) = m (.rating x) := by
  let p := newP a.rates err (m (.row (i * a.dim + k))) (m (.col (j * a.dim + k)))
  let m' := Function.update m (.row (i * a.dim + k)) p
  have hp : m' (.row (i * a.dim + k)) = p := Function.update_self ..
  have hne : Cell.col (j * a.dim + k) ≠ Cell.row (i * a.dim + k) :=
    fun h => by cases h
  have hq : m' (.col (j * a.dim + k)) = m (.col (j * a.dim + k)) := Function.update_of_ne hne ..
  have hexec : (elesStep a i j err k).exec m = Function.update m' (.col (j * a.dim + k))
      (newQ a.rates err (m' (.row (i * a.dim + k))) (m' (.col (j * a.dim + k)))) := rfl
  rw [hexec, hp, hq]
  constructor
  · rw [deviceView_update_col, deviceView_update_row]
    simp only [inPlace, Function.update_self]
    rfl
  · intro x
    have hcol : Cell.rating x ≠ Cell.col (j * a.dim + k) := fun h => by cases h
    have hrow : Cell.rating x ≠ Cell.row (i * a.dim + k) := fun h => by cases h
    rw [Function.update_of_ne hcol]
    exact Function.update_of_ne hrow ..

/-- The second loop. -/
theorem exec_elesLoop (err : α) (m : Cell → α) :
    deviceView (((List.range a.dim).forM (elesStep a i j err)).exec m) =
        (List.range a.dim).foldl
          (inPlace (newP a.rates err) (newQ a.rates err) (i * a.dim) (j * a.dim)) (deviceView m) ∧
      ∀ x, ((List.range a.dim).forM (elesStep a i j err)).exec m (.rating x) = m (.rating x) := by
  rw [exec_forM]
  refine List.foldl_rel (r := fun l v => deviceView l = v ∧ ∀ x, l (.rating x) = m (.rating x))
    ⟨rfl, fun _ => rfl⟩ fun k _ l v h => ?_
  obtain ⟨rfl, hrating⟩ := h
  obtain ⟨hview, hkeep⟩ := exec_elesStep a (i := i) (j := j) err k l
  exact ⟨hview, fun x => (hkeep x).trans (hrating x)⟩

/-- The first loop leaves the memory and gives the error. -/
theorem errLoop (r : α) (m : Cell → α) :
    ((List.range a.dim).foldlM (errStep a i j) r).exec m = m ∧
      ((List.range a.dim).foldlM (errStep a i j) r).value m =
        errorAt r a.dim (i * a.dim) (j * a.dim) (deviceView m) := by
  obtain ⟨hexec, hvalue⟩ := foldlM_of_loads (f := errStep a i j) (fun _ _ _ => rfl)
    (List.range a.dim) r m
  have hsum : ∀ n, (List.range n).foldl (fun err k => (errStep a i j err k).value m) r =
      r - ∑ k ∈ range n, m (.row (i * a.dim + k)) * m (.col (j * a.dim + k)) := by
    intro n
    induction n with
    | zero => simp
    | succ n ih =>
        rw [List.range_succ, List.foldl_append, ih, sum_range_succ, ← sub_sub]
        rfl
  exact ⟨hexec, hvalue.trans (hsum a.dim)⟩

variable [DecidableEq α]

/-- The body of the loops over `i` and `j`, with a rating that is not zero. -/
theorem exec_entryBody (m : Cell → α) (hr : m (.rating (i * a.colHeight + j)) ≠ 0) :
    let error := errorAt (m (.rating (i * a.colHeight + j))) a.dim (i * a.dim) (j * a.dim)
      (deviceView m)
    deviceView ((entryBody a i j).exec m) = (List.range a.dim).foldl
        (inPlace (newP a.rates error) (newQ a.rates error) (i * a.dim) (j * a.dim))
        (deviceView m) ∧
      ∀ x, (entryBody a i j).exec m (.rating x) = m (.rating x) := by
  intro error
  obtain ⟨hexec, hvalue⟩ := errLoop a (i := i) (j := j) (m (.rating (i * a.colHeight + j))) m
  have hbody : (entryBody a i j).exec m =
      ((List.range a.dim).forM (elesStep a i j error)).exec m := by
    have hget : (get (.rating (i * a.colHeight + j)) : Prog Cell α α).value m =
        m (.rating (i * a.colHeight + j)) := rfl
    have hkeep : (get (.rating (i * a.colHeight + j)) : Prog Cell α α).exec m = m := rfl
    rw [entryBody, exec_bind, hget, hkeep, if_neg (by simpa using hr), exec_bind, hexec, hvalue]
  rw [hbody]
  exact exec_elesLoop a error m

end Kernel

/-- The device memory `m'` holds what a rule makes of the memory `m`, and the
ratings of `m`. -/
structure Steps (rule : (ℕ → α) × (ℕ → α) → (ℕ → α) × (ℕ → α)) (m m' : Cell → α) : Prop where
  eles : deviceView m' = rule (deviceView m)
  rating : ∀ x, m' (.rating x) = m (.rating x)

end Kernel

/-! ## Both programs -/

section Both

variable [CommRing α] [DecidableEq α] {c : Rates α} {K : ℕ}

omit [DecidableEq α] in
theorem steps_sampleAt {r : α} {m : List α × List α} {pr qc : ℕ}
    (hp : (pr + 1) * K ≤ m.1.length) (hq : (qc + 1) * K ≤ m.2.length) :
    Steps (inPlaceStep c r K (pr * K) (qc * K)) m (sampleAt c r K (pr * K) (qc * K) m) := by
  rw [Nat.succ_mul] at hp hq
  obtain ⟨hview, hlp, hlq⟩ := view_sampleAt c r hp hq
  exact ⟨hlp, hlq, hview⟩

theorem steps_entryBody (rows : ℕ) {cols i j : ℕ} {m : Kernel.Cell → α}
    (hr : m (.rating (i * cols + j)) ≠ 0) :
    Kernel.Steps (inPlaceStep c (m (.rating (i * cols + j))) K (i * K) (j * K)) m
      ((Kernel.entryBody ⟨c, K, rows, cols⟩ i j).exec m) := by
  obtain ⟨hview, hkeep⟩ := Kernel.exec_entryBody ⟨c, K, rows, cols⟩ m hr
  rw [foldl_inPlace] at hview
  exact ⟨hview, hkeep⟩

omit [DecidableEq α] in
/-- The body of `FakeSubMF` is a simultaneous step exactly when the new row of P
makes no difference. -/
theorem sampleAt_gradient_iff [NoZeroDivisors α] {r : α} {m : List α × List α} {pr qc : ℕ}
    (hp : (pr + 1) * K ≤ m.1.length) (hq : (qc + 1) * K ≤ m.2.length) :
    Steps (gradientStep c r K (pr * K) (qc * K)) m (sampleAt c r K (pr * K) (qc * K) m) ↔
      NoDifference c r K (pr * K) (qc * K) (view m) := by
  obtain ⟨hlp, hlq, heles⟩ := steps_sampleAt (c := c) (r := r) hp hq
  rw [← inPlaceStep_eq_iff, ← heles]
  exact ⟨fun h => h.eles, fun h => ⟨hlp, hlq, h⟩⟩

/-- So is the body of `cuda_mf`. -/
theorem entryBody_gradient_iff [NoZeroDivisors α] (rows : ℕ) {cols i j : ℕ} {m : Kernel.Cell → α}
    (hr : m (.rating (i * cols + j)) ≠ 0) :
    Kernel.Steps (gradientStep c (m (.rating (i * cols + j))) K (i * K) (j * K)) m
        ((Kernel.entryBody ⟨c, K, rows, cols⟩ i j).exec m) ↔
      NoDifference c (m (.rating (i * cols + j))) K (i * K) (j * K) (Kernel.deviceView m) := by
  obtain ⟨heles, hkeep⟩ := steps_entryBody (c := c) (K := K) rows hr
  rw [← inPlaceStep_eq_iff, ← heles]
  exact ⟨fun h => h.eles, fun h => ⟨h, hkeep⟩⟩

end Both

/-- The loop bodies of `FakeSubMF` and of `cuda_mf` update the row of P by the rule,
and the row of Q by the rule with the new row of P.  Everything else stays. -/
theorem step_in_place (c : Rates ℚ) (K : ℕ) :
    (∀ (r : ℚ) (m : List ℚ × List ℚ) (pr qc : ℕ), (pr + 1) * K ≤ m.1.length →
        (qc + 1) * K ≤ m.2.length →
        Steps (inPlaceStep c r K (pr * K) (qc * K)) m (sampleAt c r K (pr * K) (qc * K) m)) ∧
      ∀ (rows cols i j : ℕ) (m : Kernel.Cell → ℚ), m (.rating (i * cols + j)) ≠ 0 →
        Kernel.Steps (inPlaceStep c (m (.rating (i * cols + j))) K (i * K) (j * K)) m
          ((Kernel.entryBody ⟨c, K, rows, cols⟩ i j).exec m) :=
  ⟨fun _ _ _ _ hp hq => steps_sampleAt hp hq, fun rows _ _ _ _ hr => steps_entryBody rows hr⟩

/-- Rows of one and of two elements. -/
theorem step_in_place_small :
    Steps (inPlaceStep ⟨1 / 1000, 1 / 20⟩ 0 2 (1 * 2) (0 * 2)) ([1, 2, 3, 4], [5, 6])
        (sampleAt (⟨1 / 1000, 1 / 20⟩ : Rates ℚ) 0 2 (1 * 2) (0 * 2) ([1, 2, 3, 4], [5, 6])) ∧
      Kernel.Steps (inPlaceStep ⟨1 / 5, 1 / 5⟩ 7 1 (0 * 1) (0 * 1)) (fun _ => 7)
        ((Kernel.entryBody (⟨⟨1 / 5, 1 / 5⟩, 1, 1, 1⟩ : Kernel.Args ℚ) 0 0).exec fun _ => 7) :=
  ⟨(step_in_place _ 2).1 0 ([1, 2, 3, 4], [5, 6]) 1 0 (by decide) (by decide),
    (step_in_place _ 1).2 1 1 0 0 (fun _ => 7) (by norm_num)⟩

/-- One element in each row: neither body is a simultaneous step. -/
theorem not_simultaneous :
    ¬ Steps (gradientStep ⟨1 / 1000, 1 / 20⟩ 0 1 (0 * 1) (0 * 1)) ([1], [2])
        (sampleAt (⟨1 / 1000, 1 / 20⟩ : Rates ℚ) 0 1 (0 * 1) (0 * 1) ([1], [2])) ∧
      let m : Kernel.Cell → ℚ
        | .row _ => 1
        | .col _ => 2
        | .rating _ => 5
      ¬ Kernel.Steps (gradientStep ⟨1 / 5, 1 / 5⟩ 5 1 (0 * 1) (0 * 1)) m
        ((Kernel.entryBody ⟨⟨1 / 5, 1 / 5⟩, 1, 1, 1⟩ 0 0).exec m) := by
  constructor
  · rw [sampleAt_gradient_iff (by decide) (by decide)]
    norm_num [NoDifference, errorAt, view]
  · intro m
    rw [entryBody_gradient_iff 1 (m := m) (by norm_num [m])]
    norm_num [NoDifference, errorAt, Kernel.deviceView, m]

end StellarBench
