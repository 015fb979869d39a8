import StellarBench.Matrix.Sampling

/-!
# A round in 32-bit arithmetic

A round as in `Matrix.Serializable`, where the partitions, the indices of a sample and the
accesses to the blocks are checked.  For the arguments of which `Matrix.Partition` says that
they leave room, no interleaving of the samples fails, and the blocks placed back are the
matrices of the same samples one after the other.

For other arguments there is no partition: the first sum or the number of elements overflows.
-/

namespace StellarBench

variable {α : Type} {n K N M : ℕ}

section Round

variable [Zero α] [Add α] [Sub α] [Mul α]

/-- A sample of a worker on its own blocks. -/
def sampleStep32 (c : Rates α) (dim : ℕ) (b : Block α × Block α) (s : ℕ × ℕ) :
    Option (Block α × Block α) :=
  localSample c dim b s.1 s.2

/-- A sample of rows that the blocks have. -/
theorem sampleStep32_eq {b : Block α × Block α} (h : HasRows K b) (c : Rates α) {s : ℕ × ℕ}
    (hp : s.1 < b.1.height.toNat) (hq : s.2 < b.2.height.toNat) :
    sampleStep32 c K b s = some (blockStep c K b s) :=
  h.localSample c (b.1.eles, b.2.eles) hp hq

/-- Blocks whose elements have an index in `int`. -/
structure IntRows (dim : ℕ) (b : Block α × Block α) : Prop where
  pEles : b.1.eleNum = b.1.height * dim
  qEles : b.2.eleNum = b.2.height * dim
  pInt : IsInt b.1.eleNum
  qInt : IsInt b.2.eleNum

omit [Zero α] [Add α] [Sub α] [Mul α] in
theorem IntRows.hasRows {b : Block α × Block α} (h : IntRows K b) {s : ℕ × ℕ}
    (hp : s.1 < b.1.height.toNat) (hq : s.2 < b.2.height.toNat) : HasRows K b :=
  ⟨by omega, by omega, h.pEles, h.qEles, h.pInt, h.qInt⟩

/-- Samples in the blocks of their workers do not fail, in any interleaving. -/
theorem tryTagged_blockStep (c : Rates α) {w : Fin n → Block α × Block α}
    (hw : ∀ i, IntRows K (w i)) {as : List (Fin n × (ℕ × ℕ))}
    (has : ∀ x ∈ as, x.2.1 < (w x.1).1.height.toNat ∧ x.2.2 < (w x.1).2.height.toNat) :
    tryTagged (sampleStep32 c K) w as = some (runTagged (blockStep c K) w as) := by
  induction as generalizing w with
  | nil => rfl
  | cons x as ih =>
      obtain ⟨hp, hq⟩ := has x List.mem_cons_self
      have hstep := sampleStep32_eq ((hw x.1).hasRows hp hq) c hp hq
      have hkeep (i : Fin n) : ∃ m,
          Function.update w x.1 (blockStep c K (w x.1) x.2) i = withEles (w i) m := by
        by_cases hi : i = x.1
        · subst hi
          exact ⟨_, Function.update_self ..⟩
        · exact ⟨((w i).1.eles, (w i).2.eles), Function.update_of_ne hi ..⟩
      have hrest := ih (w := Function.update w x.1 (blockStep c K (w x.1) x.2))
        (fun i => by
          obtain ⟨m, hm⟩ := hkeep i
          rw [hm]
          exact ⟨(hw i).pEles, (hw i).qEles, (hw i).pInt, (hw i).qInt⟩)
        (fun y hy => by
          obtain ⟨m, hm⟩ := hkeep y.1
          rw [hm]
          exact has y (List.mem_cons_of_mem x hy))
      rw [tryTagged, List.foldlM_cons, hstep]
      exact hrest

omit [Zero α] [Add α] [Sub α] [Mul α] in
/-- The filled blocks of two partitions have indices in `int`. -/
theorem intRows_fillAll (hN : Fits N K n) (hM : Fits M K n) (mallocP mallocQ : ℕ → ℕ → α)
    (blocksP blocksQ : ℤ → Block α) (m : List α × List α) (i : Fin n) :
    IntRows K (fillAll n K (partitionBlock N K n mallocP blocksP)
      (partitionBlock M K n mallocQ blocksQ) m i) where
  pEles := (exactCover K hN.rc hN.portion mallocP blocksP).eleNum i i.isLt
  qEles := (exactCover K hM.rc hM.portion mallocQ blocksQ).eleNum i i.isLt
  pInt := eleNum_isInt hN.portion ((isInt_firstBlock hN.portion).mp hN.room.ele) mallocP blocksP
    i.isLt
  qInt := eleNum_isInt hM.portion ((isInt_firstBlock hM.portion).mp hM.room.ele) mallocQ blocksQ
    i.isLt

/-- A round in `int` is serializable. -/
theorem int_round_serializable (hN : Fits N K n) (hM : Fits M K n) (hsumN : IsInt (N + n))
    (hsumM : IsInt (M + n)) (c : Rates α) (mallocP mallocQ : ℕ → ℕ → α)
    (blocksP blocksQ : ℤ → Block α) :
    ∃ pb qb, partitionBlock32 N K n mallocP blocksP = some pb ∧
      partitionBlock32 M K n mallocQ blocksQ = some qb ∧
      ∀ {P Q X Y : List α}, P.length = N * K → Q.length = M * K → X.length = N * K →
        Y.length = M * K → ∀ (samples : Fin n → List (ℕ × ℕ)),
        (∀ i, ∀ s ∈ samples i, InBlocks pb qb i s) → ∀ (as : List (Fin n × (ℕ × ℕ))),
        (∀ i, tagged i as = samples i) →
        ∃ w, tryTagged (sampleStep32 c K) (fillAll n K pb qb (P, Q)) as = some w ∧
          (placeBack K (fun i => (w i).1) X, placeBack K (fun i => (w i).2) Y) =
            as.foldl (globalStep c K pb qb) (P, Q) ∧
          ∀ order : List (Fin n), order.Perm (List.finRange n) →
            (placeBack K (fun i => (w i).1) X, placeBack K (fun i => (w i).2) Y) =
              (oneByOne order samples).foldl (globalStep c K pb qb) (P, Q) := by
  have hn := hN.portion
  refine ⟨_, _, hN.room.partitionBlock32 hsumN mallocP blocksP,
    hM.room.partitionBlock32 hsumM mallocQ blocksQ, ?_⟩
  intro P Q X Y hP hQ hX hY samples hs as has
  refine ⟨_, tryTagged_blockStep c (intRows_fillAll hN hM mallocP mallocQ blocksP blocksQ (P, Q))
    (fun x hx => ?_),
    round_serializable hn c mallocP mallocQ blocksP blocksQ rfl rfl hP hQ hX hY samples hs as has⟩
  have hin := hs x.1 x.2 (has x.1 ▸ mem_tagged.mpr hx)
  exact ⟨Int.lt_toNat.mpr hin.1, Int.lt_toNat.mpr hin.2⟩

end Round

/-- Three rows of P and two rows of Q in two blocks each.  The second worker takes its sample
between those of the first. -/
theorem int_round_small : ∃ pb qb,
    partitionBlock32 3 1 2 (fun _ _ => 0) (fun _ => Block.zero) = some pb ∧
      partitionBlock32 2 1 2 (fun _ _ => 0) (fun _ => Block.zero) = some qb ∧
      ∃ w, tryTagged (sampleStep32 (⟨2, 3⟩ : Rates ℤ) 1) (fillAll 2 1 pb qb ([1, 2, 3], [4, 5]))
          [(0, (1, 0)), (1, (0, 0)), (0, (0, 0))] = some w ∧
        (placeBack 1 (fun i => (w i).1) [0, 0, 0], placeBack 1 (fun i => (w i).2) [0, 0]) =
          (([(1, (0, 0)), (0, (1, 0)), (0, (0, 0))] : List (Fin 2 × (ℕ × ℕ))).foldl
            (globalStep (⟨2, 3⟩ : Rates ℤ) 1 pb qb) ([1, 2, 3], [4, 5])) := by
  have hN : Fits (3 : ℕ) (1 : ℕ) 2 := by
    constructor <;> decide
  have hM : Fits (2 : ℕ) (1 : ℕ) 2 := by
    constructor <;> decide
  obtain ⟨pb, qb, hpb, hqb, h⟩ := int_round_serializable (n := 2) (N := 3) (M := 2) (K := 1) hN hM
    (by decide) (by decide) (⟨2, 3⟩ : Rates ℤ) (fun _ _ => 0) (fun _ _ => 0)
    (fun _ => Block.zero) (fun _ => Block.zero)
  let samples : Fin 2 → List (ℕ × ℕ) := ![[(1, 0), (0, 0)], [(0, 0)]]
  have hP := ((partitionBlock32_eq_some_iff 3 1 (n := 2) (by decide)).mp hpb).2
  have hQ := ((partitionBlock32_eq_some_iff 2 1 (n := 2) (by decide)).mp hqb).2
  obtain ⟨w, hw, -, horder⟩ := h (P := [1, 2, 3]) (Q := [4, 5]) (X := [0, 0, 0]) (Y := [0, 0])
    rfl rfl rfl rfl samples (by subst hP hQ; decide)
    [(0, (1, 0)), (1, (0, 0)), (0, (0, 0))] (by decide)
  exact ⟨pb, qb, hpb, hqb, w, hw, horder [1, 0] (by decide)⟩

/-- `2 ^ 31 - 1` rows for two workers overflow in the first sum, and 30 million rows of 100
elements for one worker in the number of elements. -/
theorem int_round_overflows :
    partitionBlock32 2147483647 1 2 (fun _ _ => ()) (fun _ => Block.zero) = none ∧
      partitionBlock32 30000000 100 1 (fun _ _ => ()) (fun _ => Block.zero) = none :=
  ⟨rfl, rfl⟩

end StellarBench
