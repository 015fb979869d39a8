import StellarBench.Matrix.Frame
import StellarBench.Matrix.Partition

/-!
# The samples of `FakeSubMF`

A worker draws its samples with `random() % height`.  Here the divisions, the
indices and the accesses to the arrays are checked, so a run without a value divides
by zero, overflows or leaves an array.  Nothing else can go wrong: with a row in each
block the run is that of `Matrix.Serializable`, on the samples that are drawn
(`HasRows.fakeSubMFRandom`).

Rounding the height up can exhaust the rows before the last block.
-/

namespace StellarBench

open CInt

variable {α : Type} {dim : ℕ}

/-! ## The function -/

/-- The values of `random`. -/
abbrev Rand := Fin (2 ^ 31)

/-- `eles[idx]`, inside the `ele_num` elements of the block. -/
def Block.load [Zero α] (b : Block α) (idx : ℤ) : Option α :=
  if 0 ≤ idx ∧ idx < b.eleNum then some (b.eles.getD idx.toNat 0) else none

/-- `eles[idx] = x`. -/
def Block.store (b : Block α) (idx : ℤ) (x : α) : Option (Block α) :=
  if 0 ≤ idx ∧ idx < b.eleNum then some { b with eles := b.eles.set idx.toNat x } else none

/-- `row * K + k`. -/
def eleIdx (dim : ℕ) (row : ℤ) (k : ℕ) : Option ℤ := do
  let off ← mul row dim
  add off k

section Program

variable [Zero α] [Add α] [Sub α] [Mul α] (c : Rates α) (dim : ℕ)

/-- The first loop over `k`. -/
def predictAt (pr qc : ℤ) (b : Block α × Block α) : Option α :=
  (List.range dim).foldlM (fun predictR (k : ℕ) => do
    let p ← b.1.load (← eleIdx dim pr k)
    let q ← b.2.load (← eleIdx dim qc k)
    return predictR + p * q) 0

/-- One pass of the second loop. -/
def updateAt (error : α) (pr qc : ℤ) (b : Block α × Block α) (k : ℕ) :
    Option (Block α × Block α) := do
  let pIdx ← eleIdx dim pr k
  let qIdx ← eleIdx dim qc k
  let q ← b.2.load qIdx
  let p ← b.1.load pIdx
  let pblock ← b.1.store pIdx (p + c.yita * (error * q - c.theta * p))
  let p ← pblock.load pIdx
  let qblock ← b.2.store qIdx (q + c.yita * (error * p - c.theta * q))
  return (pblock, qblock)

/-- Both loops over `k`, for the rating `0.0`. -/
def localSample (b : Block α × Block α) (pr qc : ℤ) : Option (Block α × Block α) := do
  let predictR ← predictAt dim pr qc b
  (List.range dim).foldlM (updateAt c dim (0 - predictR) pr qc) b

/-- The body of the loop over `sn`, with the two values of `random`. -/
def randomSample (b : Block α × Block α) (rnd : Rand × Rand) : Option (Block α × Block α) := do
  let pr ← mod rnd.1 b.1.height
  let qc ← mod rnd.2 b.2.height
  localSample c dim b pr qc

/-- `FakeSubMF`, with all values of `random`. -/
def fakeSubMFRandom (rnds : List (Rand × Rand)) (b : Block α × Block α) :
    Option (Block α × Block α) :=
  rnds.foldlM (randomSample c dim) b

end Program

/-! ## Runs that succeed -/

/-- The blocks `b` with other elements. -/
def withEles (b : Block α × Block α) (m : List α × List α) : Block α × Block α :=
  ({ b.1 with eles := m.1 }, { b.2 with eles := m.2 })

/-- Both blocks have rows, of `dim` elements each. -/
structure HasRows (dim : ℕ) (b : Block α × Block α) : Prop where
  p : 1 ≤ b.1.height
  q : 1 ≤ b.2.height
  pEles : b.1.eleNum = b.1.height * dim
  qEles : b.2.eleNum = b.2.height * dim
  pInt : IsInt b.1.eleNum
  qInt : IsInt b.2.eleNum

/-- The sample that two values of `random` give. -/
def drawn (b : Block α × Block α) (rnd : Rand × Rand) : ℕ × ℕ :=
  (rnd.1 % b.1.height.toNat, rnd.2 % b.2.height.toNat)

/-- An element of a row of the block. -/
theorem row_lt_eleNum {b : Block α} {row k : ℕ} (he : b.eleNum = b.height * dim)
    (hrow : row < b.height.toNat) (hk : k < dim) : ((row * dim + k : ℕ) : ℤ) < b.eleNum := by
  have hend := row_end dim hrow
  have hh : (b.height.toNat : ℤ) = b.height := Int.toNat_of_nonneg (by omega)
  have hlt : row * dim + k < b.height.toNat * dim := by omega
  rw [he, ← hh]
  exact_mod_cast hlt

/-- The index of an element does not overflow. -/
theorem eleIdx_row {b : Block α} {row k : ℕ} (he : b.eleNum = b.height * dim)
    (hint : IsInt b.eleNum) (hrow : row < b.height.toNat) (hk : k < dim) :
    eleIdx dim row k = some ((row : ℤ) * dim + k) := by
  have hlt := row_lt_eleNum he hrow hk
  push_cast at hlt
  have hoff : (0 : ℤ) ≤ row * dim := by positivity
  have hend := hint.2
  rw [eleIdx, mul_of (.of_nonneg hoff (by omega)), Option.bind_eq_bind, Option.bind_some,
    add_of (.of_nonneg (by omega) (by omega))]

theorem Block.load_row [Zero α] {b : Block α} {row k : ℕ} (he : b.eleNum = b.height * dim)
    (hrow : row < b.height.toNat) (hk : k < dim) :
    b.load ((row : ℤ) * dim + k) = some (b.eles.getD (row * dim + k) 0) := by
  have hlt := row_lt_eleNum he hrow hk
  rw [← Nat.cast_mul, ← Nat.cast_add, Block.load, if_pos ⟨by omega, hlt⟩, Int.toNat_natCast]

theorem Block.store_row {b : Block α} {row k : ℕ} (he : b.eleNum = b.height * dim)
    (hrow : row < b.height.toNat) (hk : k < dim) (x : α) :
    b.store ((row : ℤ) * dim + k) x =
      some { b with eles := b.eles.set (row * dim + k) x } := by
  have hlt := row_lt_eleNum he hrow hk
  rw [← Nat.cast_mul, ← Nat.cast_add, Block.store, if_pos ⟨by omega, hlt⟩, Int.toNat_natCast]

section Success

variable [Zero α] [Add α] [Sub α] [Mul α] {b : Block α × Block α} {m : List α × List α}
  {pr qc : ℕ}

omit [Sub α] in
theorem HasRows.predictAt (h : HasRows dim b) (hpr : pr < b.1.height.toNat)
    (hqc : qc < b.2.height.toNat) :
    predictAt dim pr qc (withEles b m) = some (predict dim (pr * dim) (qc * dim) m) := by
  rw [StellarBench.predictAt, predict]
  refine foldlM_eq_some id (fun r k hk => ?_) 0
  have hk' := List.mem_range.mp hk
  simp only [id_eq, eleIdx_row h.pEles h.pInt hpr hk', eleIdx_row h.qEles h.qInt hqc hk',
    Option.bind_eq_bind, Option.bind_some,
    Block.load_row (b := (withEles b m).1) h.pEles hpr hk',
    Block.load_row (b := (withEles b m).2) h.qEles hqc hk']
  rfl

theorem HasRows.updateAt (h : HasRows dim b) (c : Rates α) (error : α)
    (hpr : pr < b.1.height.toNat) (hqc : qc < b.2.height.toNat) (m : List α × List α) {k : ℕ}
    (hk : k < dim) :
    updateAt c dim error pr qc (withEles b m) k =
      some (withEles b (updateStep c error (pr * dim) (qc * dim) m k)) := by
  have hq := Block.load_row (b := (withEles b m).2) h.qEles hqc hk
  have hp := Block.load_row (b := (withEles b m).1) h.pEles hpr hk
  have hsetP (x : α) := Block.store_row (b := (withEles b m).1) h.pEles hpr hk x
  have hnew (x : α) := Block.load_row
    (b := { b.1 with eles := m.1.set (pr * dim + k) x }) h.pEles hpr hk
  have hsetQ (x : α) := Block.store_row (b := (withEles b m).2) h.qEles hqc hk x
  simp only [withEles] at hq hp hsetP hsetQ
  simp only [StellarBench.updateAt, withEles, eleIdx_row h.pEles h.pInt hpr hk,
    eleIdx_row h.qEles h.qInt hqc hk, hq, hp, hsetP, hnew, hsetQ, Option.bind_eq_bind,
    Option.bind_some]
  rfl

/-- A sample of rows of the blocks. -/
theorem HasRows.localSample (h : HasRows dim b) (c : Rates α) (m : List α × List α)
    (hpr : pr < b.1.height.toNat) (hqc : qc < b.2.height.toNat) :
    localSample c dim (withEles b m) pr qc = some (withEles b (sampleStep c dim m (pr, qc))) := by
  rw [StellarBench.localSample, h.predictAt hpr hqc, Option.bind_eq_bind, Option.bind_some]
  exact foldlM_eq_some (withEles b)
    (fun m k hk => h.updateAt c _ hpr hqc m (List.mem_range.mp hk)) m

/-- A pass of the loop over `sn`. -/
theorem HasRows.randomSample (h : HasRows dim b) (c : Rates α) (m : List α × List α)
    (rnd : Rand × Rand) :
    randomSample c dim (withEles b m) rnd =
      some (withEles b (sampleStep c dim m (drawn b rnd))) := by
  have hpos := h.p
  have hpos' := h.q
  have hdraw {height : ℤ} (hh : 1 ≤ height) (rnd : Rand) :
      mod rnd height = some ((rnd.val % height.toNat : ℕ) : ℤ) := by
    have hmod := mod_of (x := rnd) (y := height.toNat) (by omega)
      (.of_nonneg (by omega) (by exact_mod_cast rnd.isLt))
    rwa [Int.toNat_of_nonneg (by omega)] at hmod
  have hpr : (drawn b rnd).1 < b.1.height.toNat := Nat.mod_lt _ (by omega)
  have hqc : (drawn b rnd).2 < b.2.height.toNat := Nat.mod_lt _ (by omega)
  have hmodP : mod rnd.1 (withEles b m).1.height = some ((drawn b rnd).1 : ℤ) := hdraw hpos _
  have hmodQ : mod rnd.2 (withEles b m).2.height = some ((drawn b rnd).2 : ℤ) := hdraw hpos' _
  simp only [StellarBench.randomSample, hmodP, hmodQ, Option.bind_eq_bind, Option.bind_some]
  exact h.localSample c m hpr hqc

/-- With rows in both blocks a run is that of the samples that are drawn. -/
theorem HasRows.fakeSubMFRandom (h : HasRows dim b) (c : Rates α) (rnds : List (Rand × Rand)) :
    fakeSubMFRandom c dim rnds b = some (fakeSubMF c dim (rnds.map (drawn b)) b) := by
  have hrun := foldlM_eq_some (withEles b) (l := rnds)
    (fun m rnd _ => h.randomSample c m rnd) (b.1.eles, b.2.eles)
  have hfold : withEles b (rnds.foldl (fun m rnd => sampleStep c dim m (drawn b rnd))
      (b.1.eles, b.2.eles)) = fakeSubMF c dim (rnds.map (drawn b)) b := by
    rw [fakeSubMF, List.foldl_map]
    exact (List.foldl_hom (withEles b) fun _ _ => rfl).symm
  rw [hfold] at hrun
  exact hrun

/-- A block without rows is divided by. -/
theorem randomSample_empty (c : Rates α) (rnd : Rand × Rand)
    (h : b.1.height = 0 ∨ b.2.height = 0) : randomSample c dim b rnd = none := by
  rcases h with h0 | h0
  · rw [randomSample, h0, mod_zero]
    rfl
  · rw [randomSample, h0]
    cases mod rnd.1 b.1.height <;> rfl

/-- The first sample of a run on such a block fails. -/
theorem fakeSubMFRandom_empty (c : Rates α) (h : b.1.height = 0 ∨ b.2.height = 0)
    (rnd : Rand × Rand) (rnds : List (Rand × Rand)) :
    fakeSubMFRandom c dim (rnd :: rnds) b = none := by
  rw [fakeSubMFRandom, List.foldlM_cons, randomSample_empty c rnd h]
  rfl

/-- `FakeSubMF` never faults exactly when both blocks have rows. -/
theorem fakeSubMFRandom_isSome_iff (c : Rates α) (hp : 0 ≤ b.1.height) (hq : 0 ≤ b.2.height)
    (hpe : b.1.eleNum = b.1.height * dim) (hqe : b.2.eleNum = b.2.height * dim)
    (hpi : IsInt b.1.eleNum) (hqi : IsInt b.2.eleNum) :
    (∀ rnds, (fakeSubMFRandom c dim rnds b).isSome) ↔ 1 ≤ b.1.height ∧ 1 ≤ b.2.height := by
  constructor
  · intro h
    by_contra hno
    have hempty : b.1.height = 0 ∨ b.2.height = 0 := by omega
    have hsome := h [(0, 0)]
    rw [fakeSubMFRandom_empty c hempty] at hsome
    cases hsome
  · rintro ⟨h1, h2⟩ rnds
    have hrows : HasRows dim b := ⟨h1, h2, hpe, hqe, hpi, hqi⟩
    rw [hrows.fakeSubMFRandom c rnds]
    rfl

end Success

/-! ## Blocks without rows -/

/-- The rows are not exhausted before the last of `n` blocks. -/
def LastHasRow (rows n : ℕ) : Prop := (n - 1) * ((rows + n - 1) / n) < rows

instance (rows n : ℕ) : Decidable (LastHasRow rows n) := inferInstanceAs (Decidable (_ < _))

section Dealt

variable {rows n : ℕ}

/-- The last block is the first to be empty. -/
theorem height_pos_iff (rows dim : ℕ) (malloc : ℕ → ℕ → α) (blocks : ℤ → Block α) (hn : 1 ≤ n) :
    (∀ i < n, 1 ≤ (partitionBlock rows dim n malloc blocks i).height) ↔ LastHasRow rows n := by
  have hheight := partHeight_natCast rows hn
  have hpos : 1 ≤ rows → 1 ≤ (rows + n - 1) / n := fun hrows =>
    (Nat.one_le_div_iff hn).mpr (by omega)
  have hlast := dealt_last (Int.natCast_nonneg rows) hn
  rw [LastHasRow]
  generalize (rows + n - 1) / n = height at hheight hpos ⊢
  rw [hheight] at hlast
  constructor
  · intro h
    have hh := h (n - 1) (by omega)
    rw [partitionBlock_height _ _ _ (Int.natCast_nonneg rows) (by omega), Nat.sub_add_cancel hn,
      hheight, hlast, dealt_natCast] at hh
    omega
  · intro h i hi
    rw [partitionBlock_height _ _ _ (Int.natCast_nonneg rows) hi, hheight, dealt_natCast,
      dealt_natCast, Nat.succ_mul]
    have hle : i * height ≤ (n - 1) * height := Nat.mul_le_mul_right height (by omega)
    omega

/-- No block has more elements than the rounded-up height gives. -/
theorem eleNum_le (rows dim : ℕ) (malloc : ℕ → ℕ → α) (blocks : ℤ → Block α) (hn : 1 ≤ n) {i : ℕ}
    (hi : i < n) :
    (partitionBlock rows dim n malloc blocks i).eleNum.toNat ≤ (rows + n - 1) / n * dim := by
  have hcover := exactCover dim (Int.natCast_nonneg rows) hn malloc blocks
  have hheight : (partitionBlock rows dim n malloc blocks i).height ≤ ((rows + n - 1) / n : ℕ) := by
    rw [partitionBlock_height _ _ _ (Int.natCast_nonneg rows) hi, ← partHeight_natCast rows hn]
    exact dealt_succ_sub_le rows (partHeight_nonneg (Int.natCast_nonneg rows) n) i
  rw [hcover.eleNum i hi, Int.toNat_le]
  push_cast
  exact mul_le_mul_of_nonneg_right (by exact_mod_cast hheight) (by omega)

/-- So the number of elements is an `int` when this is. -/
theorem eleNum_isInt (hn : 1 ≤ n) (hele : (rows + n - 1) / n * dim < 2 ^ 31)
    (malloc : ℕ → ℕ → α) (blocks : ℤ → Block α) {i : ℕ} (hi : i < n) :
    IsInt (partitionBlock rows dim n malloc blocks i).eleNum := by
  have hcover := exactCover dim (Int.natCast_nonneg rows) hn malloc blocks
  have hle := eleNum_le rows dim malloc blocks hn hi
  have hnonneg : 0 ≤ (partitionBlock rows dim n malloc blocks i).eleNum := by
    rw [hcover.eleNum i hi]
    exact mul_nonneg (hcover.height_nonneg i hi) (Int.natCast_nonneg dim)
  exact .of_nonneg hnonneg (by omega)

end Dealt

/-! ## The workers -/

/-- `Pblock` and `Qblock` of a worker that has decoded the frame of two blocks. -/
def received (p q : Block α) (old : Block α × Block α) : Block α × Block α :=
  ((Frame.ofBlocks p q).workerDecodeP old.1, (Frame.ofBlocks p q).workerDecodeQ old.2)

theorem received_height (p q : Block α) (old : Block α × Block α) :
    (received p q old).1.height = p.height ∧ (received p q old).2.height = q.height := ⟨rfl, rfl⟩

section Workers

variable [Zero α] [Add α] [Sub α] [Mul α] {N M n : ℕ}

/-- Over the integers, no worker faults exactly when all blocks have a row. -/
theorem workers_isSome_iff (hn : 1 ≤ n) (c : Rates α) {K : ℕ}
    (hP : (N + n - 1) / n * K < 2 ^ 31) (hQ : (M + n - 1) / n * K < 2 ^ 31)
    (mallocP mallocQ : ℕ → ℕ → α) (blocksP blocksQ : ℤ → Block α)
    (pidx qidx : Equiv.Perm (Fin n)) (old : Fin n → Block α × Block α) :
    (∀ i rnds, (fakeSubMFRandom c K rnds (received
        (partitionBlock N K n mallocP blocksP (pidx i : ℕ))
        (partitionBlock M K n mallocQ blocksQ (qidx i : ℕ)) (old i))).isSome) ↔
      LastHasRow N n ∧ LastHasRow M n := by
  have hcoverP := exactCover K (Int.natCast_nonneg N) hn mallocP blocksP
  have hcoverQ := exactCover K (Int.natCast_nonneg M) hn mallocQ blocksQ
  have hworker (i : Fin n) := fakeSubMFRandom_isSome_iff
    (b := received (partitionBlock N K n mallocP blocksP (pidx i : ℕ))
      (partitionBlock M K n mallocQ blocksQ (qidx i : ℕ)) (old i)) c
    (hcoverP.height_nonneg _ (pidx i).isLt) (hcoverQ.height_nonneg _ (qidx i).isLt)
    (hcoverP.eleNum _ (pidx i).isLt) (hcoverQ.eleNum _ (qidx i).isLt)
    (eleNum_isInt hn hP mallocP blocksP (pidx i).isLt)
    (eleNum_isInt hn hQ mallocQ blocksQ (qidx i).isLt)
  rw [← height_pos_iff _ K mallocP blocksP hn,
    ← height_pos_iff _ K mallocQ blocksQ hn]
  constructor
  · intro h
    constructor
    · intro i hi
      have hrow := ((hworker (pidx.symm ⟨i, hi⟩)).mp (h _)).1
      rwa [Equiv.apply_symm_apply] at hrow
    · intro i hi
      have hrow := ((hworker (qidx.symm ⟨i, hi⟩)).mp (h _)).2
      rwa [Equiv.apply_symm_apply] at hrow
  · rintro ⟨hrowP, hrowQ⟩ i
    exact (hworker i).mpr ⟨hrowP _ (pidx i).isLt, hrowQ _ (qidx i).isLt⟩

/-- In `int`, every block has a row, and no worker faults, exactly when the partitions do not
overflow and the rows are not exhausted before the last block.  Worker `i` has the blocks
`pidx i` and `qidx i`. -/
theorem no_fault_iff (hn : 1 ≤ n) (c : Rates α) (K : ℕ)
    (mallocP mallocQ : ℕ → ℕ → α) (blocksP blocksQ : ℤ → Block α)
    (pidx qidx : Equiv.Perm (Fin n)) (old : Fin n → Block α × Block α) :
    ((∃ pb, partitionBlock32 N K n mallocP blocksP = some pb ∧
        ∀ i < n, 1 ≤ (pb (i : ℕ)).height) ↔
      (N + n < 2 ^ 31 ∧ (N + n - 1) / n * K < 2 ^ 31) ∧ LastHasRow N n) ∧
    ((∃ pb qb, partitionBlock32 N K n mallocP blocksP = some pb ∧
        partitionBlock32 M K n mallocQ blocksQ = some qb ∧
        ∀ i rnds, (fakeSubMFRandom c K rnds
          (received (pb (pidx i : ℕ)) (qb (qidx i : ℕ)) (old i))).isSome) ↔
      (N + n < 2 ^ 31 ∧ (N + n - 1) / n * K < 2 ^ 31) ∧
        (M + n < 2 ^ 31 ∧ (M + n - 1) / n * K < 2 ^ 31) ∧ LastHasRow N n ∧ LastHasRow M n) := by
  have hpos := height_pos_iff N K mallocP blocksP hn
  constructor
  · constructor
    · rintro ⟨pb, hpb, hrows⟩
      obtain ⟨hfit, rfl⟩ := (partitionBlock32_eq_some_iff _ _ hn).mp hpb
      exact ⟨hfit, hpos.mp hrows⟩
    · rintro ⟨hfit, hlast⟩
      exact ⟨_, (partitionBlock32_eq_some_iff _ _ hn).mpr ⟨hfit, rfl⟩, hpos.mpr hlast⟩
  · constructor
    · rintro ⟨pb, qb, hpb, hqb, hruns⟩
      obtain ⟨hP, rfl⟩ := (partitionBlock32_eq_some_iff _ _ hn).mp hpb
      obtain ⟨hQ, rfl⟩ := (partitionBlock32_eq_some_iff _ _ hn).mp hqb
      exact ⟨hP, hQ, (workers_isSome_iff hn c hP.2 hQ.2 mallocP mallocQ blocksP blocksQ
        pidx qidx old).mp hruns⟩
    · rintro ⟨hP, hQ, hlast⟩
      exact ⟨_, _, (partitionBlock32_eq_some_iff _ _ hn).mpr ⟨hP, rfl⟩,
        (partitionBlock32_eq_some_iff _ _ hn).mpr ⟨hQ, rfl⟩,
        (workers_isSome_iff hn c hP.2 hQ.2 mallocP mallocQ blocksP blocksQ
          pidx qidx old).mpr hlast⟩

end Workers

/-- Seven and six rows for three workers. -/
theorem no_fault_small : ∃ pb qb,
    partitionBlock32 7 2 3 (fun _ _ => (0 : ℚ)) (fun _ => Block.zero) = some pb ∧
      partitionBlock32 6 2 3 (fun _ _ => (0 : ℚ)) (fun _ => Block.zero) = some qb ∧
      ∀ (i : Fin 3) rnds, (fakeSubMFRandom ⟨1 / 1000, 1 / 20⟩ 2 rnds
        (received (pb (i : ℕ)) (qb (i : ℕ)) (Block.zero, Block.zero))).isSome :=
  (no_fault_iff (N := 7) (M := 6) (n := 3) (by decide)
    ⟨1 / 1000, 1 / 20⟩ 2 _ _ _ _ 1 1 fun _ => (Block.zero, Block.zero)).2.mpr (by decide)

/-- Five rows for four blocks, and the matrices of `mf_common.h` for 1500 workers: the last
block is empty, and its worker divides by zero. -/
theorem divides_by_zero :
    (∃ pb, partitionBlock32 5 1 4 (fun _ _ => (0 : ℚ)) (fun _ => Block.zero) = some pb ∧
      (pb 3).height = 0) ∧
    ∃ pb qb, partitionBlock32 1000990 100 1500 (fun _ _ => (0 : ℚ)) (fun _ => Block.zero) =
        some pb ∧
      partitionBlock32 624961 100 1500 (fun _ _ => (0 : ℚ)) (fun _ => Block.zero) = some qb ∧
      fakeSubMFRandom ⟨1 / 1000, 1 / 20⟩ 100 [(0, 0)]
        (received (pb 1499) (qb 1499) (Block.zero, Block.zero)) = none := by
  refine ⟨⟨_, rfl, rfl⟩, _, _,
    (partitionBlock32_eq_some_iff 1000990 100 (n := 1500) (by decide)).mpr
      ⟨by decide, rfl⟩,
    (partitionBlock32_eq_some_iff 624961 100 (n := 1500) (by decide)).mpr
      ⟨by decide, rfl⟩, ?_⟩
  have hempty := partitionBlock_height 100 (fun _ _ => (0 : ℚ)) (fun _ => Block.zero)
    (show (0 : ℤ) ≤ 624961 by decide) (show 1499 < 1500 by decide)
  norm_num [dealt, partHeight] at hempty
  exact fakeSubMFRandom_empty _ (.inr ((received_height _ _ _).2.trans hempty)) _ _

end StellarBench
