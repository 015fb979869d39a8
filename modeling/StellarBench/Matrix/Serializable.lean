import StellarBench.Lib.Merge
import StellarBench.Lib.Slice
import StellarBench.Matrix.Block

/-!
# Stochastic gradient descent on blocks

`FakeSubMF` draws samples and updates one row of each of its blocks for a
sample.  The arithmetic is that of `α`, of which nothing is assumed.

The blocks of a partition are slices of a matrix, and the slice of a worker is
read and written by this worker only.  So a sample on the matrix, seen through
the slices, is a sample on one block (`fillAll_globalStep`).
-/

namespace StellarBench

variable {α : Type} {n dim : ℕ}

/-! ## The sample step -/

section Sample

variable [Zero α] [Add α] [Sub α] [Mul α]

/-- The constants `yita` and `theta`. -/
structure Rates (α : Type) where
  yita : α
  theta : α

/-- The first loop over `k`, which sums up `predict_r`. -/
def predict (dim pOff qOff : ℕ) (m : List α × List α) : α :=
  (List.range dim).foldl (fun r k => r + m.1.getD (pOff + k) 0 * m.2.getD (qOff + k) 0) 0

/-- One pass of the second loop.  The new element of P is used for Q. -/
def updateStep (c : Rates α) (error : α) (pOff qOff : ℕ) (m : List α × List α) (k : ℕ) :
    List α × List α :=
  let p := m.1.getD (pOff + k) 0
  let q := m.2.getD (qOff + k) 0
  let eles := m.1.set (pOff + k) (p + c.yita * (error * q - c.theta * p))
  (eles, m.2.set (qOff + k) (q + c.yita * (error * eles.getD (pOff + k) 0 - c.theta * q)))

/-- Both loops, for the rating `r` and the rows that start at the two offsets. -/
def sampleAt (c : Rates α) (r : α) (dim pOff qOff : ℕ) (m : List α × List α) :
    List α × List α :=
  let error := r - predict dim pOff qOff m
  (List.range dim).foldl (updateStep c error pOff qOff) m

/-- The body of the loop of `FakeSubMF` for the sample `(pr, qc)`.  It reads no
rating and takes `r = 0.0`. -/
def sampleStep (c : Rates α) (dim : ℕ) (m : List α × List α) (s : ℕ × ℕ) : List α × List α :=
  sampleAt c 0 dim (s.1 * dim) (s.2 * dim) m

/-- The same on a pair of blocks. -/
def blockStep (c : Rates α) (dim : ℕ) (b : Block α × Block α) (s : ℕ × ℕ) :
    Block α × Block α :=
  let m := sampleStep c dim (b.1.eles, b.2.eles) s
  ({ b.1 with eles := m.1 }, { b.2 with eles := m.2 })

/-- `FakeSubMF` with the samples that `random` draws. -/
def fakeSubMF (c : Rates α) (dim : ℕ) (samples : List (ℕ × ℕ)) (b : Block α × Block α) :
    Block α × Block α :=
  samples.foldl (blockStep c dim) b

/-! ## Slices -/

variable {pOff qOff a la b lb : ℕ}

/-- Both matrices seen through a slice of each. -/
def slices (a la b lb : ℕ) (m : List α × List α) : List α × List α :=
  (slice m.1 a la, slice m.2 b lb)

omit [Sub α] in
theorem predict_slices (m : List α × List α) (hp : pOff + dim ≤ la) (hq : qOff + dim ≤ lb) :
    predict dim pOff qOff (slices a la b lb m) = predict dim (a + pOff) (b + qOff) m := by
  refine List.foldl_ext _ _ _ fun r k hk => ?_
  rw [List.mem_range] at hk
  rw [slices, slice_getD _ _ (by omega), slice_getD _ _ (by omega), Nat.add_assoc, Nat.add_assoc]

theorem updateStep_slices (c : Rates α) (error : α) (m : List α × List α) {k : ℕ}
    (hp : pOff + k < la) (hq : qOff + k < lb) :
    updateStep c error pOff qOff (slices a la b lb m) k =
      slices a la b lb (updateStep c error (a + pOff) (b + qOff) m k) := by
  simp only [updateStep, slices, slice_getD _ _ hp, slice_getD _ _ hq, ← slice_set,
    Nat.add_assoc]

/-- A sample inside the slices. -/
theorem sampleAt_slices (c : Rates α) (r : α) (m : List α × List α) (hp : pOff + dim ≤ la)
    (hq : qOff + dim ≤ lb) :
    sampleAt c r dim pOff qOff (slices a la b lb m) =
      slices a la b lb (sampleAt c r dim (a + pOff) (b + qOff) m) := by
  rw [sampleAt, sampleAt, predict_slices m hp hq]
  refine List.foldl_rel (r := fun l g => l = slices a la b lb g) rfl fun k hk l g h => ?_
  rw [List.mem_range] at hk
  rw [h, updateStep_slices c _ g (by omega) (by omega)]

/-- A sample outside a slice of P. -/
theorem slice_sampleAt_fst (c : Rates α) (r : α) (m : List α × List α)
    (h : pOff + dim ≤ a ∨ a + la ≤ pOff) :
    slice (sampleAt c r dim pOff qOff m).1 a la = slice m.1 a la := by
  refine List.foldlRecOn (motive := fun g : List α × List α => slice g.1 a la = slice m.1 a la) _ _ rfl
    fun g hg k hk => ?_
  rw [List.mem_range] at hk
  rw [updateStep, slice_set_of_outside _ _ (by omega), hg]

/-- A sample outside a slice of Q. -/
theorem slice_sampleAt_snd (c : Rates α) (r : α) (m : List α × List α)
    (h : qOff + dim ≤ b ∨ b + lb ≤ qOff) :
    slice (sampleAt c r dim pOff qOff m).2 b lb = slice m.2 b lb := by
  refine List.foldlRecOn (motive := fun g : List α × List α => slice g.2 b lb = slice m.2 b lb) _ _ rfl
    fun g hg k hk => ?_
  rw [List.mem_range] at hk
  rw [updateStep, slice_set_of_outside _ _ (by omega), hg]

theorem sampleStep_length (c : Rates α) (dim : ℕ) (m : List α × List α) (s : ℕ × ℕ) :
    (sampleStep c dim m s).1.length = m.1.length ∧
      (sampleStep c dim m s).2.length = m.2.length := by
  refine List.foldlRecOn (motive := fun g : List α × List α =>
    g.1.length = m.1.length ∧ g.2.length = m.2.length) _ _ ⟨rfl, rfl⟩ fun g hg k _ => ?_
  simp only [updateStep, List.length_set, hg, and_self]

theorem fakeSubMF_length (c : Rates α) (dim : ℕ) (samples : List (ℕ × ℕ))
    (b : Block α × Block α) :
    (fakeSubMF c dim samples b).1.eles.length = b.1.eles.length ∧
      (fakeSubMF c dim samples b).2.eles.length = b.2.eles.length := by
  refine List.foldlRecOn (motive := fun g : Block α × Block α =>
    g.1.eles.length = b.1.eles.length ∧ g.2.eles.length = b.2.eles.length) _ _ ⟨rfl, rfl⟩
    fun g hg s _ => ?_
  have h := sampleStep_length c dim (g.1.eles, g.2.eles) s
  exact ⟨h.1.trans hg.1, h.2.trans hg.2⟩

end Sample

/-! ## Tilings -/

/-- The blocks `0 .. n - 1` tile `rows` rows: block `i` takes the rows between
two cuts.  Where an empty block starts is left open. -/
structure Tiles (bs : ℤ → Block α) (n rows : ℕ) (cut : ℕ → ℕ) : Prop where
  mono : Monotone cut
  zero : cut 0 = 0
  total : cut n = rows
  height : ∀ i < n, (bs i).height.toNat = cut (i + 1) - cut i
  sta : ∀ i < n, (bs i).height.toNat ≠ 0 → (bs i).staIdx.toNat = cut i

/-- A row of one block is not a row of another block. -/
theorem Tiles.apart {bs : ℤ → Block α} {rows i j pr : ℕ} {cut : ℕ → ℕ} (h : Tiles bs n rows cut)
    (hi : i < n) (hj : j < n) (hij : i ≠ j) (hpr : pr < (bs i).height.toNat) :
    (bs i).staIdx.toNat + pr < (bs j).staIdx.toNat ∨
      (bs j).staIdx.toNat + (bs j).height.toNat ≤ (bs i).staIdx.toNat + pr := by
  rcases Nat.eq_zero_or_pos (bs j).height.toNat with h0 | h0
  · omega
  · have h1 := h.height i hi
    have h2 := h.height j hj
    have h3 := h.sta i hi (by omega)
    have h4 := h.sta j hj (by omega)
    rcases Nat.lt_or_gt_of_ne hij with hlt | hlt
    · have h5 : cut (i + 1) ≤ cut j := h.mono hlt
      omega
    · have h5 : cut (j + 1) ≤ cut i := h.mono hlt
      omega

/-- The rounded-up height covers the rows. -/
theorem le_mul_partHeight (rows : ℕ) (hn : 1 ≤ n) :
    rows ≤ n * (partHeight rows n).toNat := by
  have hd := Nat.div_add_mod (rows + n - 1) n
  have hm := Nat.mod_lt (rows + n - 1) hn
  rw [partHeight_natCast rows hn, Int.toNat_natCast]
  omega

/-- `partitionBlock` tiles the rows. -/
theorem tiles_partitionBlock (rows dim : ℕ) (hn : 1 ≤ n) (malloc : ℕ → ℕ → α)
    (blocks : ℤ → Block α) :
    Tiles (partitionBlock rows dim n malloc blocks) n rows
      (fun i => min rows (i * (partHeight rows n).toNat)) := by
  have hh : partHeight rows n = ((partHeight rows n).toNat : ℤ) :=
    (Int.toNat_of_nonneg (partHeight_nonneg (by omega) n)).symm
  have hcov := le_mul_partHeight rows hn
  generalize (partHeight rows n).toNat = h at hh hcov
  have hd (i : ℕ) : dealt rows (partHeight rows n) i = ((min rows (i * h) : ℕ) : ℤ) := by
    rw [hh, dealt_natCast]
  have hs (i : ℕ) : (i + 1) * h = i * h + h := Nat.succ_mul i h
  refine ⟨fun i j hij => ?_, by simp, by simpa using hcov, fun i hi => ?_, fun i hi h0 => ?_⟩
  · have := Nat.mul_le_mul_right h hij
    omega
  · rw [partitionBlock_apply dim malloc blocks (by omega) hi]
    simp only [partOf, hd]
    omega
  · rw [partitionBlock_apply dim malloc blocks (by omega) hi] at h0 ⊢
    simp only [partOf, hd] at h0 ⊢
    have := hs i
    rw [hh, ← Nat.cast_mul, Int.toNat_natCast]
    omega

/-! ## A round on two matrices -/

/-- The block with the rows that it covers in `m`. -/
def Block.fill (dim : ℕ) (m : List α) (b : Block α) : Block α :=
  { b with eles := slice m (b.staIdx.toNat * dim) (b.height.toNat * dim) }

/-- The pair of blocks of every worker, filled from P and Q. -/
def fillAll (n dim : ℕ) (pb qb : ℤ → Block α) (m : List α × List α) :
    Fin n → Block α × Block α :=
  fun i => ((pb (i : ℕ)).fill dim m.1, (qb (i : ℕ)).fill dim m.2)

/-- `m` with the rows `sta_idx .. sta_idx + height - 1` taken from the blocks. -/
def placeBack (dim : ℕ) (bs : Fin n → Block α) (m : List α) : List α :=
  (List.finRange n).foldl (fun m i => splice m ((bs i).staIdx.toNat * dim) (bs i).eles) m

/-- The sample is in the blocks of its worker. -/
def InBlocks (pb qb : ℤ → Block α) (i : Fin n) (s : ℕ × ℕ) : Prop :=
  (s.1 : ℤ) < (pb (i : ℕ)).height ∧ (s.2 : ℤ) < (qb (i : ℕ)).height

instance (pb qb : ℤ → Block α) (i : Fin n) (s : ℕ × ℕ) : Decidable (InBlocks pb qb i s) :=
  inferInstanceAs (Decidable (_ ∧ _))

/-- Filled blocks cover the matrix they were filled from. -/
theorem placeBack_fill {bs : ℤ → Block α} {rows : ℕ} {cut : ℕ → ℕ} {g x : List α}
    (h : Tiles bs n rows cut) (hg : g.length = rows * dim) (hx : x.length = rows * dim) :
    placeBack dim (fun i : Fin n => (bs (i : ℕ)).fill dim g) x = g := by
  let place (m : List α) (i : ℕ) : List α :=
    splice m ((bs i).staIdx.toNat * dim) ((bs i).fill dim g).eles
  have hle {k : ℕ} (hk : k ≤ n) : cut k * dim ≤ rows * dim :=
    Nat.mul_le_mul_right dim (h.total ▸ h.mono hk)
  have hpre : ∀ k ≤ n, (List.range k).foldl place x =
      g.take (cut k * dim) ++ x.drop (cut k * dim) := by
    intro k
    induction k with
    | zero => simp [h.zero]
    | succ k ih =>
        intro hk
        have hh := h.height k hk
        rw [List.range_succ, List.foldl_append, ih (by omega), List.foldl_cons, List.foldl_nil]
        rcases Nat.eq_zero_or_pos (bs k).height.toNat with h0 | h0
        · have hc : cut (k + 1) = cut k := by
            have : cut k ≤ cut (k + 1) := h.mono (Nat.le_succ k)
            omega
          rw [hc]
          simp [place, Block.fill, h0, slice, splice]
        · have hc : cut k * dim + (bs k).height.toNat * dim = cut (k + 1) * dim := by
            rw [← Nat.add_mul]
            congr 1
            omega
          have hs : (bs k).staIdx.toNat = cut k := h.sta k hk (by omega)
          have hl : cut k * dim + (bs k).height.toNat * dim ≤ g.length := by
            rw [hc, hg]
            exact hle hk
          simp only [place, Block.fill, hs]
          rw [splice_take hl, hc]
  have hfin : placeBack dim (fun i : Fin n => (bs (i : ℕ)).fill dim g) x =
      (List.range n).foldl place x := by
    rw [← List.map_coe_finRange_eq_range, List.foldl_map]
    rfl
  rw [hfin, hpre n le_rfl, h.total, List.take_of_length_le hg.le, List.drop_eq_nil_of_le hx.le,
    List.append_nil]

theorem row_end {a b : ℕ} (dim : ℕ) (h : a < b) : a * dim + dim ≤ b * dim := by
  rw [← Nat.succ_mul]
  exact Nat.mul_le_mul_right dim h

/-- A slice of one block is not changed by a row of another. -/
theorem rows_apart {bs : ℤ → Block α} {rows pr : ℕ} {cut : ℕ → ℕ} (h : Tiles bs n rows cut)
    {i j : Fin n} (hij : i ≠ j) (hpr : pr < (bs (i : ℕ)).height.toNat) (dim : ℕ) :
    ((bs (i : ℕ)).staIdx.toNat + pr) * dim + dim ≤ (bs (j : ℕ)).staIdx.toNat * dim ∨
      (bs (j : ℕ)).staIdx.toNat * dim + (bs (j : ℕ)).height.toNat * dim ≤
        ((bs (i : ℕ)).staIdx.toNat + pr) * dim := by
  rcases h.apart i.isLt j.isLt (Fin.val_ne_of_ne hij) hpr with h | h
  · exact .inl (row_end dim h)
  · rw [← Nat.add_mul]
    exact .inr (Nat.mul_le_mul_right dim h)

section Round

variable [Zero α] [Add α] [Sub α] [Mul α]

/-- A sample of worker `i` on the matrices, at the rows where its blocks start. -/
def globalStep (c : Rates α) (dim : ℕ) (pb qb : ℤ → Block α) (m : List α × List α)
    (x : Fin n × (ℕ × ℕ)) : List α × List α :=
  sampleStep c dim m
    ((pb (x.1 : ℕ)).staIdx.toNat + x.2.1, (qb (x.1 : ℕ)).staIdx.toNat + x.2.2)

variable {pb qb : ℤ → Block α} {N M : ℕ} {cutP cutQ : ℕ → ℕ}

/-- A sample on the matrices is a sample on the blocks of one worker. -/
theorem fillAll_globalStep (c : Rates α) (hp : Tiles pb n N cutP) (hq : Tiles qb n M cutQ)
    (m : List α × List α) {i : Fin n} {s : ℕ × ℕ} (hs : InBlocks pb qb i s) :
    fillAll n dim pb qb (globalStep c dim pb qb m (i, s)) =
      Function.update (fillAll n dim pb qb m) i (blockStep c dim (fillAll n dim pb qb m i) s) := by
  obtain ⟨pr, qc⟩ := s
  have hpr : pr < (pb (i : ℕ)).height.toNat := by
    have := hs.1
    omega
  have hqc : qc < (qb (i : ℕ)).height.toNat := by
    have := hs.2
    omega
  funext j
  by_cases hj : j = i
  · subst hj
    have hm := sampleAt_slices c 0 m (a := (pb (j : ℕ)).staIdx.toNat * dim)
      (b := (qb (j : ℕ)).staIdx.toNat * dim) (row_end dim hpr) (row_end dim hqc)
    rw [← Nat.add_mul, ← Nat.add_mul] at hm
    rw [Function.update_self]
    simp only [blockStep, sampleStep, fillAll, Block.fill, globalStep]
    rw [slices] at hm
    rw [hm]
    rfl
  · rw [Function.update_of_ne hj]
    simp only [fillAll, Block.fill, globalStep, sampleStep,
      slice_sampleAt_fst c 0 m (rows_apart hp (Ne.symm hj) hpr dim),
      slice_sampleAt_snd c 0 m (rows_apart hq (Ne.symm hj) hqc dim)]

/-- A round on the matrices is a round on the blocks. -/
theorem fillAll_foldl (c : Rates α) (hp : Tiles pb n N cutP) (hq : Tiles qb n M cutQ)
    (m : List α × List α) {as : List (Fin n × (ℕ × ℕ))}
    (has : ∀ x ∈ as, InBlocks pb qb x.1 x.2) :
    runTagged (blockStep c dim) (fillAll n dim pb qb m) as =
      fillAll n dim pb qb (as.foldl (globalStep c dim pb qb) m) :=
  List.foldl_rel (r := fun w g => w = fillAll n dim pb qb g) rfl fun x hx w g h => by
    rw [h]
    exact (fillAll_globalStep c hp hq g (has x hx)).symm

/-- A worker runs `FakeSubMF` on its own samples, whatever the others do. -/
theorem runTagged_blockStep (c : Rates α) (w : Fin n → Block α × Block α)
    (as : List (Fin n × (ℕ × ℕ))) (i : Fin n) :
    runTagged (blockStep c dim) w as i = fakeSubMF c dim (tagged i as) (w i) :=
  runTagged_apply (blockStep c dim) w as i

theorem foldl_globalStep_length (c : Rates α) (dim : ℕ) (pb qb : ℤ → Block α) (m : List α × List α)
    (as : List (Fin n × (ℕ × ℕ))) :
    (as.foldl (globalStep c dim pb qb) m).1.length = m.1.length ∧
      (as.foldl (globalStep c dim pb qb) m).2.length = m.2.length := by
  refine List.foldlRecOn (motive := fun g : List α × List α =>
    g.1.length = m.1.length ∧ g.2.length = m.2.length) _ _ ⟨rfl, rfl⟩ fun g hg x _ => ?_
  have h := sampleStep_length c dim g
    ((pb (x.1 : ℕ)).staIdx.toNat + x.2.1, (qb (x.1 : ℕ)).staIdx.toNat + x.2.2)
  exact ⟨h.1.trans hg.1, h.2.trans hg.2⟩

/-- Placing the blocks of a round back gives the matrices of the round. -/
theorem placeBack_round (c : Rates α) (hp : Tiles pb n N cutP) (hq : Tiles qb n M cutQ)
    {m x : List α × List α} (hm : m.1.length = N * dim ∧ m.2.length = M * dim)
    (hx : x.1.length = N * dim ∧ x.2.length = M * dim) {as : List (Fin n × (ℕ × ℕ))}
    (has : ∀ x ∈ as, InBlocks pb qb x.1 x.2) :
    (placeBack dim (fun i => (runTagged (blockStep c dim) (fillAll n dim pb qb m) as i).1) x.1,
      placeBack dim (fun i => (runTagged (blockStep c dim) (fillAll n dim pb qb m) as i).2) x.2) =
      as.foldl (globalStep c dim pb qb) m := by
  have hl := foldl_globalStep_length c dim pb qb m as
  rw [fillAll_foldl c hp hq m has]
  exact Prod.ext (placeBack_fill hp (hl.1.trans hm.1) hx.1)
    (placeBack_fill hq (hl.2.trans hm.2) hx.2)

/-- A round is serializable: the workers' blocks, placed back, are the matrices
that the same samples give one after the other, in the same order or worker by
worker in any order. -/
theorem round_serializable {N M K : ℕ} (hn : 1 ≤ n) (c : Rates α)
    (mallocP mallocQ : ℕ → ℕ → α) (blocksP blocksQ : ℤ → Block α) {pb qb : ℤ → Block α}
    (hpb : pb = partitionBlock N K n mallocP blocksP)
    (hqb : qb = partitionBlock M K n mallocQ blocksQ) {P Q X Y : List α}
    (hP : P.length = N * K) (hQ : Q.length = M * K) (hX : X.length = N * K)
    (hY : Y.length = M * K) (samples : Fin n → List (ℕ × ℕ))
    (hs : ∀ i, ∀ s ∈ samples i, InBlocks pb qb i s) (as : List (Fin n × (ℕ × ℕ)))
    (has : ∀ i, tagged i as = samples i) :
    let w := runTagged (blockStep c K) (fillAll n K pb qb (P, Q)) as
    (placeBack K (fun i => (w i).1) X, placeBack K (fun i => (w i).2) Y) =
        as.foldl (globalStep c K pb qb) (P, Q) ∧
      ∀ order : List (Fin n), order.Perm (List.finRange n) →
        (placeBack K (fun i => (w i).1) X, placeBack K (fun i => (w i).2) Y) =
          (oneByOne order samples).foldl (globalStep c K pb qb) (P, Q) := by
  intro w
  have hp : Tiles pb n N _ := hpb ▸ tiles_partitionBlock N K hn mallocP blocksP
  have hq : Tiles qb n M _ := hqb ▸ tiles_partitionBlock M K hn mallocQ blocksQ
  have hin {bs : List (Fin n × (ℕ × ℕ))} (hbs : ∀ i, tagged i bs = samples i) :
      ∀ x ∈ bs, InBlocks pb qb x.1 x.2 := by
    intro x hx
    exact hs x.1 x.2 (hbs x.1 ▸ mem_tagged.mpr hx)
  refine ⟨placeBack_round c hp hq ⟨hP, hQ⟩ (x := (X, Y)) ⟨hX, hY⟩ (hin has), fun order ho => ?_⟩
  have hbs : ∀ i, tagged i (oneByOne order samples) = samples i := fun i =>
    tagged_oneByOne samples (ho.nodup_iff.mpr (List.nodup_finRange n))
      (ho.mem_iff.mpr (List.mem_finRange i))
  have hw : w = runTagged (blockStep c K) (fillAll n K pb qb (P, Q)) (oneByOne order samples) :=
    runTagged_congr _ _ fun i => (has i).trans (hbs i).symm
  rw [hw]
  exact placeBack_round c hp hq ⟨hP, hQ⟩ (x := (X, Y)) ⟨hX, hY⟩ (hin hbs)

end Round

end StellarBench
