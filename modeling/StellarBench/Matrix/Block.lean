import Mathlib.Tactic

/-!
# Blocks and their partition

`struct Block` is a header and the array its pointer `eles` owns.  Integers of
the source are mathematical here, and `/` is the division of C, which truncates.

`partitionBlock` deals rows to blocks in one loop with an accumulator.  The
start of a block comes from its index and the height from the accumulator.
`partitionBlock_apply` gives both in closed form.
-/

namespace StellarBench

/-! ## Blocks -/

/-- The fields of `struct Block` other than `eles`. -/
structure Header where
  blockId : ℤ
  dataAge : ℤ
  staIdx : ℤ
  height : ℤ
  eleNum : ℤ
  isP : Bool
deriving DecidableEq, Repr

/-- `struct Block`, with the array that `eles` points to. -/
structure Block (α : Type) extends Header where
  eles : List α
deriving DecidableEq

/-- A zero-initialised global block. -/
def Block.zero {α : Type} : Block α := ⟨⟨0, 0, 0, 0, 0, false⟩, []⟩

/-- `memcpy` of the first `len` elements of an array over another one. -/
def copyEles {α : Type} (dst src : List α) (len : ℕ) : List α := src.take len ++ dst.drop len

/-- A block owns exactly `ele_num` elements. -/
def Block.Full {α : Type} (b : Block α) : Prop := b.eles.length = b.eleNum.toNat

theorem copyEles_of_length {α : Type} {dst src : List α} {len : ℕ} (hs : src.length = len)
    (hd : dst.length = len) : copyEles dst src len = src := by
  simp [copyEles, ← hs, List.drop_eq_nil_of_le (hd.trans hs.symm).le]

/-! ## The partition -/

section Partition

variable {α : Type}

/-- The rounded-up height, `(rc_num + portion_num - 1) / portion_num`. -/
def partHeight (rcNum : ℤ) (portionNum : ℕ) : ℤ := (rcNum + portionNum - 1).tdiv portionNum

/-- The height of the next block when `acc` rows are dealt. -/
def nextHeight (rcNum height acc : ℤ) : ℤ :=
  if acc + height ≤ rcNum then height else rcNum - acc

/-- One pass of the loop of `partitionBlock`, on `acc_height` and the blocks.
`malloc i j` is element `j` of the array allocated for block `i`. -/
def partStep (rcNum dim height : ℤ) (malloc : ℕ → ℕ → α) (st : ℤ × (ℤ → Block α)) (i : ℕ) :
    ℤ × (ℤ → Block α) :=
  let h := nextHeight rcNum height st.1
  (st.1 + h, Function.update st.2 i { st.2 i with
    blockId := i, dataAge := 0, staIdx := i * height, height := h, eleNum := h * dim,
    eles := (List.range (h * dim).toNat).map (malloc i) })

/-- `partitionBlock`. -/
def partitionBlock (rcNum dim : ℤ) (portionNum : ℕ) (malloc : ℕ → ℕ → α)
    (blocks : ℤ → Block α) : ℤ → Block α :=
  ((List.range portionNum).foldl
    (partStep rcNum dim (partHeight rcNum portionNum) malloc) (0, blocks)).2

/-- The rows dealt before block `i`. -/
def dealt (rcNum height : ℤ) (i : ℕ) : ℤ := min rcNum (i * height)

/-- Block `i` of a partition in closed form. -/
def partOf (rcNum dim height : ℤ) (malloc : ℕ → ℕ → α) (old : Block α) (i : ℕ) : Block α :=
  let h := dealt rcNum height (i + 1) - dealt rcNum height i
  { old with
    blockId := i, dataAge := 0, staIdx := i * height, height := h, eleNum := h * dim,
    eles := (List.range (h * dim).toNat).map (malloc i) }

theorem partOf_full (rcNum dim height : ℤ) (malloc : ℕ → ℕ → α) (old : Block α) (i : ℕ) :
    (partOf rcNum dim height malloc old i).Full := by
  simp [partOf, Block.Full]

theorem partHeight_nonneg {rcNum : ℤ} (h : 0 ≤ rcNum) (portionNum : ℕ) :
    0 ≤ partHeight rcNum portionNum := by
  rcases Nat.eq_zero_or_pos portionNum with h0 | h0
  · simp [partHeight, h0]
  · exact Int.tdiv_nonneg (by omega) (by omega)

/-- The quotient rounded up, on natural numbers. -/
theorem partHeight_natCast (rows : ℕ) {portionNum : ℕ} (hn : 1 ≤ portionNum) :
    partHeight rows portionNum = ((rows + portionNum - 1) / portionNum : ℕ) := by
  have hsum : (rows : ℤ) + portionNum - 1 = ((rows + portionNum - 1 : ℕ) : ℤ) := by omega
  rw [partHeight, hsum, ← Int.ofNat_tdiv]

theorem dealt_natCast (rows height i : ℕ) :
    dealt rows height i = ((min rows (i * height) : ℕ) : ℤ) := by
  rw [dealt]
  push_cast
  rfl

theorem dealt_step (rcNum : ℤ) {height : ℤ} (hh : 0 ≤ height) (i : ℕ) :
    dealt rcNum height i + nextHeight rcNum height (dealt rcNum height i) =
      dealt rcNum height (i + 1) := by
  have hi : 0 ≤ (i : ℤ) * height := by positivity
  have hs : ((i + 1 : ℕ) : ℤ) * height = i * height + height := by push_cast; ring
  rw [dealt, dealt, hs, nextHeight]
  split <;> omega

/-- No block is higher than the rounded-up height. -/
theorem dealt_succ_sub_le (rcNum : ℤ) {height : ℤ} (hh : 0 ≤ height) (i : ℕ) :
    dealt rcNum height (i + 1) - dealt rcNum height i ≤ height := by
  rw [← dealt_step rcNum hh i, add_sub_cancel_left, nextHeight]
  split
  · exact le_rfl
  · omega

theorem dealt_zero {rcNum : ℤ} (hr : 0 ≤ rcNum) (height : ℤ) : dealt rcNum height 0 = 0 := by
  simp [dealt, hr]

/-- After `k` passes the accumulator is the number of rows dealt, and the first
`k` blocks are final. -/
theorem partStep_foldl {rcNum height : ℤ} (dim : ℤ) (malloc : ℕ → ℕ → α)
    (blocks : ℤ → Block α) (hr : 0 ≤ rcNum) (hh : 0 ≤ height) (k : ℕ) :
    (List.range k).foldl (partStep rcNum dim height malloc) (0, blocks) =
      (dealt rcNum height k, fun z : ℤ =>
        if 0 ≤ z ∧ z < k then partOf rcNum dim height malloc (blocks z) z.toNat
        else blocks z) := by
  induction k with
  | zero =>
      refine Prod.ext (dealt_zero hr height).symm (funext fun z => ?_)
      simp only [List.range_zero, List.foldl_nil]
      rw [if_neg (by omega)]
  | succ k ih =>
      have hd := dealt_step rcNum hh k
      rw [List.range_succ, List.foldl_append, ih, List.foldl_cons, List.foldl_nil, partStep]
      refine Prod.ext hd (funext fun z => ?_)
      have hh' : nextHeight rcNum height (dealt rcNum height k) =
          dealt rcNum height (k + 1) - dealt rcNum height k := by omega
      by_cases hz : z = k
      · subst hz
        simp [partOf, hh']
      · simp only [Function.update_of_ne hz]
        by_cases hlt : 0 ≤ z ∧ z < k
        · rw [if_pos hlt, if_pos (by omega)]
        · rw [if_neg hlt, if_neg (by omega)]

/-- The blocks below `portionNum` in closed form. -/
theorem partitionBlock_apply {rcNum : ℤ} (dim : ℤ) {portionNum : ℕ} (malloc : ℕ → ℕ → α)
    (blocks : ℤ → Block α) (hr : 0 ≤ rcNum) {i : ℕ} (hi : i < portionNum) :
    partitionBlock rcNum dim portionNum malloc blocks i =
      partOf rcNum dim (partHeight rcNum portionNum) malloc (blocks i) i := by
  rw [partitionBlock, partStep_foldl dim malloc blocks hr (partHeight_nonneg hr _)]
  simp [hi]

theorem partitionBlock_height {rcNum : ℤ} (dim : ℤ) {portionNum : ℕ} (malloc : ℕ → ℕ → α)
    (blocks : ℤ → Block α) (hr : 0 ≤ rcNum) {i : ℕ} (hi : i < portionNum) :
    (partitionBlock rcNum dim portionNum malloc blocks i).height =
      dealt rcNum (partHeight rcNum portionNum) (i + 1) -
        dealt rcNum (partHeight rcNum portionNum) i := by
  rw [partitionBlock_apply dim malloc blocks hr hi]
  rfl

end Partition

end StellarBench
