import StellarBench.Lib.CInt
import StellarBench.Matrix.Serializable

/-!
# The partition in 32-bit arithmetic

`partitionBlock32` is `partitionBlock` with every operation checked.  The start
of a block is a multiple of the rounded-up height, and the accumulator follows
this multiple until the rows run out.  So neither exceeds
`rc_num + portion_num - 1`, and the heights are the differences of the cuts
`dealt`.

The blocks cover every row once (`ExactCover`).  The sum from which the height is
rounded up is one more than this bound, and it is computed first.
-/

namespace StellarBench

open CInt

variable {α : Type} {rcNum dim height r : ℤ} {n : ℕ}

/-! ## The function -/

/-- `(rc_num + portion_num - 1) / portion_num`, from the left to the right. -/
def partHeight32 (rcNum : ℤ) (portionNum : ℕ) : Option ℤ := do
  let sum ← add rcNum portionNum
  let sum ← sub sum 1
  div sum portionNum

/-- The test on `acc_height` and the height of the next block. -/
def nextHeight32 (rcNum height acc : ℤ) : Option ℤ := do
  let sum ← add acc height
  if sum ≤ rcNum then some height else sub rcNum acc

/-- One pass of the loop, with the step of its counter. -/
def partStep32 (rcNum dim height : ℤ) (malloc : ℕ → ℕ → α) (st : ℤ × (ℤ → Block α)) (i : ℕ) :
    Option (ℤ × (ℤ → Block α)) := do
  let sta ← mul i height
  let h ← nextHeight32 rcNum height st.1
  let acc ← add st.1 h
  let ele ← mul h dim
  let _ ← add i 1
  return (acc, Function.update st.2 i { st.2 i with
    blockId := i, dataAge := 0, staIdx := sta, height := h, eleNum := ele,
    eles := (List.range ele.toNat).map (malloc i) })

/-- The loop of `partitionBlock`. -/
def dealBlocks32 (rcNum dim height : ℤ) (portionNum : ℕ) (malloc : ℕ → ℕ → α)
    (blocks : ℤ → Block α) : Option (ℤ → Block α) := do
  let st ← (List.range portionNum).foldlM (partStep32 rcNum dim height malloc) (0, blocks)
  return st.2

/-- `partitionBlock` in `int`. -/
def partitionBlock32 (rcNum dim : ℤ) (portionNum : ℕ) (malloc : ℕ → ℕ → α)
    (blocks : ℤ → Block α) : Option (ℤ → Block α) := do
  let height ← partHeight32 rcNum portionNum
  dealBlocks32 rcNum dim height portionNum malloc blocks

/-! ## Cuts -/

/-- A value between the ends of a monotone sequence is between two neighbours
only. -/
theorem existsUnique_between {cut : ℕ → ℤ} (hmono : Monotone cut) (h0 : cut 0 ≤ r)
    (hn : r < cut n) : ∃! i, i < n ∧ cut i ≤ r ∧ r < cut (i + 1) := by
  induction n with
  | zero => omega
  | succ n ih =>
      rcases lt_or_ge r (cut n) with hlt | hge
      · obtain ⟨i, ⟨hi, hcut⟩, huniq⟩ := ih hlt
        refine ⟨i, ⟨by omega, hcut⟩, fun j hj => huniq j ⟨?_, hj.2⟩⟩
        by_contra hjn
        have := hmono (not_lt.mp hjn)
        omega
      · refine ⟨n, ⟨by omega, hge, hn⟩, fun j hj => ?_⟩
        by_contra hjn
        have := hmono (show j + 1 ≤ n by omega)
        omega

theorem dealt_mono (rcNum : ℤ) (hh : 0 ≤ height) : Monotone (dealt rcNum height) := by
  intro i j hij
  have := mul_le_mul_of_nonneg_right (Int.ofNat_le.mpr hij) hh
  rw [dealt, dealt]
  omega

theorem dealt_le (rcNum height : ℤ) (i : ℕ) : dealt rcNum height i ≤ rcNum := min_le_left _ _

theorem dealt_nonneg (hr : 0 ≤ rcNum) (hh : 0 ≤ height) (i : ℕ) : 0 ≤ dealt rcNum height i := by
  rw [dealt]
  positivity

theorem dealt_le_mul (rcNum height : ℤ) (i : ℕ) : dealt rcNum height i ≤ i * height :=
  min_le_right _ _

/-- The rounded-up height exceeds the quotient by less than one row for each
block. -/
theorem mul_partHeight_le (hr : 0 ≤ rcNum) (hn : 1 ≤ n) :
    n * partHeight rcNum n ≤ rcNum + n - 1 := by
  rw [partHeight, Int.tdiv_eq_ediv_of_nonneg (by omega)]
  exact Int.mul_ediv_self_le (by omega)

/-- The blocks take all rows. -/
theorem dealt_last (hr : 0 ≤ rcNum) (hn : 1 ≤ n) :
    dealt rcNum (partHeight rcNum n) n = rcNum := by
  obtain ⟨rows, rfl⟩ := Int.eq_ofNat_of_zero_le hr
  have hcov : (rows : ℤ) ≤ n * ((partHeight rows n).toNat : ℤ) := by
    exact_mod_cast le_mul_partHeight rows hn
  rw [Int.toNat_of_nonneg (partHeight_nonneg hr n)] at hcov
  exact min_eq_left hcov

/-- A block with a row starts at its cut. -/
theorem dealt_eq_mul {i : ℕ} (h : dealt rcNum height i < dealt rcNum height (i + 1)) :
    dealt rcNum height i = i * height := by
  have := dealt_le rcNum height (i + 1)
  rw [dealt] at h ⊢
  omega

/-- Not every height is the quotient rounded up, but none is larger. -/
theorem partHeight_le_ceil (hn : 1 ≤ n) (hr : 0 ≤ rcNum) :
    partHeight rcNum n ≤ ⌈(rcNum : ℚ) / n⌉ := by
  have hpos : (0 : ℚ) < n := by exact_mod_cast hn
  rw [Int.le_ceil_iff, lt_div_iff₀ hpos]
  have hle := mul_partHeight_le hr hn
  have hlt : (partHeight rcNum n - 1) * n < rcNum := by linarith
  exact_mod_cast hlt

/-! ## The cover -/

/-- The rows of a block. -/
def Block.Covers (b : Block α) (r : ℤ) : Prop := b.staIdx ≤ r ∧ r < b.staIdx + b.height

/-- The blocks `0 .. n - 1` cover the rows `0 .. rc_num - 1`, each once. -/
structure ExactCover (bs : ℤ → Block α) (rcNum dim : ℤ) (n : ℕ) : Prop where
  height_nonneg : ∀ i < n, 0 ≤ (bs i).height
  height_le : ∀ i < n, (bs i).height ≤ ⌈(rcNum : ℚ) / n⌉
  cover : ∀ r, 0 ≤ r → r < rcNum → ∃! i : ℕ, i < n ∧ (bs i).Covers r
  inside : ∀ i < n, ∀ r, (bs i).Covers r → 0 ≤ r ∧ r < rcNum
  total : ∑ i ∈ Finset.range n, (bs i).height = rcNum
  first : 0 < (bs 0).height → (bs 0).staIdx = 0
  next : ∀ i : ℕ, i + 1 < n → 0 < (bs (i + 1 : ℕ)).height →
    (bs (i + 1 : ℕ)).staIdx = (bs i).staIdx + (bs i).height
  blockId : ∀ i < n, (bs i).blockId = i
  eleNum : ∀ i < n, (bs i).eleNum = (bs i).height * dim

section Cover

variable {malloc : ℕ → ℕ → α} {old : Block α} {i : ℕ}

theorem partOf_height : (partOf rcNum dim height malloc old i).height =
    dealt rcNum height (i + 1) - dealt rcNum height i := rfl

/-- The rows of a block lie between its cuts. -/
theorem partOf_covers (dim : ℤ) (malloc : ℕ → ℕ → α) (old : Block α) (hh : 0 ≤ height) (i : ℕ)
    (r : ℤ) : (partOf rcNum dim height malloc old i).Covers r ↔
    dealt rcNum height i ≤ r ∧ r < dealt rcNum height (i + 1) := by
  have hsta : (partOf rcNum dim height malloc old i).staIdx = i * height := rfl
  have hmono := dealt_mono rcNum hh (Nat.le_add_right i 1)
  rw [Block.Covers, partOf_height, hsta]
  rcases hmono.eq_or_lt with heq | hlt
  · omega
  · rw [← dealt_eq_mul hlt]
    omega

/-- `partitionBlock` is an exact cover. -/
theorem exactCover (dim : ℤ) (hr : 0 ≤ rcNum) (hn : 1 ≤ n) (malloc : ℕ → ℕ → α)
    (blocks : ℤ → Block α) : ExactCover (partitionBlock rcNum dim n malloc blocks) rcNum dim n := by
  have hh := partHeight_nonneg hr n
  have hmono := dealt_mono rcNum hh
  have hzero := dealt_zero hr (partHeight rcNum n)
  have hlast := dealt_last hr hn
  have hpart {i : ℕ} (hi : i < n) := partitionBlock_apply dim malloc blocks hr hi
  have hheight {i : ℕ} (hi : i < n) := partitionBlock_height dim malloc blocks hr hi
  have hcovers {i : ℕ} (hi : i < n) (r : ℤ) := by
    have hrow : (partOf rcNum dim (partHeight rcNum n) malloc (blocks i) i).Covers r ↔ _ :=
      partOf_covers dim malloc (blocks i) hh i r
    rwa [← hpart hi] at hrow
  constructor
  case height_nonneg =>
    intro i hi
    rw [hheight hi]
    have := hmono (Nat.le_add_right i 1)
    omega
  case height_le =>
    intro i hi
    rw [hheight hi]
    exact (dealt_succ_sub_le rcNum hh i).trans (partHeight_le_ceil hn hr)
  case cover =>
    intro r h0 hlt
    obtain ⟨i, ⟨hi, hcut⟩, huniq⟩ := existsUnique_between (n := n) hmono (hzero.trans_le h0)
      (hlt.trans_eq hlast.symm)
    exact ⟨i, ⟨hi, (hcovers hi r).mpr hcut⟩,
      fun j hj => huniq j ⟨hj.1, (hcovers hj.1 r).mp hj.2⟩⟩
  case inside =>
    intro i hi r hrow
    obtain ⟨hge, hlt⟩ := (hcovers hi r).mp hrow
    exact ⟨(dealt_nonneg hr hh i).trans hge, hlt.trans_le (dealt_le _ _ _)⟩
  case total =>
    rw [Finset.sum_congr rfl fun i hi => hheight (Finset.mem_range.mp hi),
      Finset.sum_range_sub (dealt rcNum (partHeight rcNum n)), hlast, hzero, sub_zero]
  case first =>
    intro _
    have := hpart (i := 0) hn
    rw [Nat.cast_zero] at this
    simp [this, partOf]
  case next =>
    intro i hi hpos
    rw [hheight hi] at hpos
    have hcut := dealt_eq_mul (sub_pos.mp hpos)
    have hprev : dealt rcNum (partHeight rcNum n) i = i * partHeight rcNum n := by
      have hle := dealt_le rcNum (partHeight rcNum n) (i + 1)
      rw [hcut, Nat.cast_succ, add_mul] at hle
      rw [dealt]
      omega
    rw [hheight (Nat.lt_of_succ_lt hi), hpart hi, hpart (Nat.lt_of_succ_lt hi), hprev]
    simp only [partOf]
    omega
  case blockId =>
    intro i hi
    rw [hpart hi]
    rfl
  case eleNum =>
    intro i hi
    rw [hpart hi]
    rfl

end Cover

/-! ## No overflow -/

/-- Arguments that leave room for the last multiple of the height and for the
elements of all blocks. -/
structure Fits (rcNum dim : ℤ) (n : ℕ) : Prop where
  rc : 0 ≤ rcNum
  width : 0 ≤ dim
  portion : 1 ≤ n
  counter : IsInt n
  last : IsInt (rcNum + n - 1)
  eles : IsInt (rcNum * dim)

/-- What the loop needs: room for the last multiple of the height, and for the elements of
a block of this height. -/
structure Room (rcNum dim : ℤ) (n : ℕ) : Prop where
  rc : 0 ≤ rcNum
  width : 0 ≤ dim
  portion : 1 ≤ n
  counter : IsInt n
  last : IsInt (rcNum + n - 1)
  ele : IsInt (partHeight rcNum n * dim)

theorem partHeight_le (hr : 0 ≤ rcNum) (hn : 1 ≤ n) : partHeight rcNum n ≤ rcNum := by
  rw [partHeight, Int.tdiv_eq_ediv_of_nonneg (by omega)]
  have hmul : rcNum ≤ rcNum * n := le_mul_of_one_le_right hr (by exact_mod_cast hn)
  exact Int.lt_add_one_iff.mp (Int.ediv_lt_of_lt_mul (by omega) (by linarith))

theorem Fits.room (h : Fits rcNum dim n) : Room rcNum dim n where
  rc := h.rc
  width := h.width
  portion := h.portion
  counter := h.counter
  last := h.last
  ele := .of_nonneg (mul_nonneg (partHeight_nonneg h.rc n) h.width)
    ((mul_le_mul_of_nonneg_right (partHeight_le h.rc h.portion) h.width).trans_lt h.eles.2)

/-- Behind the first sum nothing overflows. -/
theorem partHeight32_of (hr : 0 ≤ rcNum) (hn : 1 ≤ n) (hsum : IsInt (rcNum + n)) :
    partHeight32 rcNum n = some (partHeight rcNum n) := by
  have hlt := hsum.2
  have hlast : IsInt (rcNum + n - 1) := .of_nonneg (by omega) (by omega)
  have hheight : IsInt ((rcNum + n - 1).tdiv n) :=
    .of_nonneg (partHeight_nonneg hr n) ((partHeight_le hr hn).trans_lt (by omega))
  simp only [partHeight32, add_of hsum, sub_of hlast,
    div_of (Int.natCast_ne_zero.mpr (by omega)) hheight, Option.bind_eq_bind, Option.bind_some]
  rfl

section Loop

variable {malloc : ℕ → ℕ → α} {i : ℕ}

theorem nextHeight32_of {acc : ℤ} (hsum : IsInt (acc + height)) (hrest : IsInt (rcNum - acc)) :
    nextHeight32 rcNum height acc = some (nextHeight rcNum height acc) := by
  simp only [nextHeight32, nextHeight, add_of hsum, sub_of hrest, Option.bind_eq_bind,
    Option.bind_some]
  split <;> rfl

/-- The multiples of the height stay below the sum from which it was rounded up. -/
theorem Room.mul_le (h : Room rcNum dim n) {k : ℕ} (hk : k ≤ n) :
    k * partHeight rcNum n ≤ rcNum + n - 1 :=
  (mul_le_mul_of_nonneg_right (Int.ofNat_le.mpr hk) (partHeight_nonneg h.rc n)).trans
    (mul_partHeight_le h.rc h.portion)

theorem Room.sta_isInt (h : Room rcNum dim n) (hi : i < n) : IsInt (i * partHeight rcNum n) :=
  .of_nonneg (mul_nonneg (Int.natCast_nonneg i) (partHeight_nonneg h.rc n))
    ((h.mul_le hi.le).trans_lt h.last.2)

/-- The accumulator is at most a multiple of the height, so the sum with one more
height is at most the next multiple. -/
theorem Room.sum_isInt (h : Room rcNum dim n) (hi : i < n) :
    IsInt (dealt rcNum (partHeight rcNum n) i + partHeight rcNum n) := by
  have hh := partHeight_nonneg h.rc n
  refine .of_nonneg (add_nonneg (dealt_nonneg h.rc hh i) hh) (lt_of_le_of_lt ?_ h.last.2)
  calc dealt rcNum (partHeight rcNum n) i + partHeight rcNum n
      ≤ i * partHeight rcNum n + partHeight rcNum n := by
        exact add_le_add_left (dealt_le_mul rcNum _ i) _
    _ = (i + 1 : ℕ) * partHeight rcNum n := by
        push_cast
        ring
    _ ≤ rcNum + n - 1 := h.mul_le hi

/-- Whatever lies between 0 and the number of rows is representable. -/
theorem Room.isInt_of_le (h : Room rcNum dim n) {x : ℤ} (h0 : 0 ≤ x) (hx : x ≤ rcNum) :
    IsInt x := by
  have hn := h.portion
  have hlast := h.last.2
  exact .of_nonneg h0 (by omega)

/-- One pass does not overflow. -/
theorem Room.partStep32 (h : Room rcNum dim n) (hi : i < n) (bs : ℤ → Block α) :
    partStep32 rcNum dim (partHeight rcNum n) malloc (dealt rcNum (partHeight rcNum n) i, bs) i =
      some (partStep rcNum dim (partHeight rcNum n) malloc
        (dealt rcNum (partHeight rcNum n) i, bs) i) := by
  have hh := partHeight_nonneg h.rc n
  have hcut := dealt_nonneg h.rc hh i
  have hcut' := dealt_le rcNum (partHeight rcNum n) (i + 1)
  have hmono := dealt_mono rcNum hh (Nat.le_add_right i 1)
  have hle := dealt_succ_sub_le rcNum hh i
  have hstep := dealt_step rcNum hh i
  have hrest : IsInt (rcNum - dealt rcNum (partHeight rcNum n) i) :=
    h.isInt_of_le (by omega) (by omega)
  have hacc : IsInt (dealt rcNum (partHeight rcNum n) i +
      nextHeight rcNum (partHeight rcNum n) (dealt rcNum (partHeight rcNum n) i)) :=
    h.isInt_of_le (by omega) (by omega)
  have hele : IsInt
      (nextHeight rcNum (partHeight rcNum n) (dealt rcNum (partHeight rcNum n) i) * dim) := by
    refine .of_nonneg (mul_nonneg (by omega) h.width) (lt_of_le_of_lt ?_ h.ele.2)
    exact mul_le_mul_of_nonneg_right (by omega) h.width
  have hi' : IsInt (i + 1) := .of_nonneg (by omega) (lt_of_le_of_lt (by omega) h.counter.2)
  simp only [StellarBench.partStep32, mul_of (h.sta_isInt hi),
    nextHeight32_of (h.sum_isInt hi) hrest, add_of hacc, mul_of hele, add_of hi',
    Option.bind_eq_bind, Option.bind_some]
  rfl

/-- The loop deals what the loop over the integers deals. -/
theorem Room.dealBlocks32 (h : Room rcNum dim n) (malloc : ℕ → ℕ → α) (blocks : ℤ → Block α) :
    dealBlocks32 rcNum dim (partHeight rcNum n) n malloc blocks =
      some (partitionBlock rcNum dim n malloc blocks) := by
  have hh := partHeight_nonneg h.rc n
  have hloop : ∀ k ≤ n, (List.range k).foldlM
      (StellarBench.partStep32 rcNum dim (partHeight rcNum n) malloc) (0, blocks) =
      some ((List.range k).foldl (partStep rcNum dim (partHeight rcNum n) malloc)
        (0, blocks)) := by
    intro k
    induction k with
    | zero => intro _; rfl
    | succ k ih =>
        intro hk
        rw [List.range_succ, List.foldlM_append, List.foldl_append, ih (by omega),
          partStep_foldl dim malloc blocks h.rc hh k]
        simp only [Option.bind_eq_bind, Option.bind_some, List.foldlM_cons, List.foldlM_nil,
          h.partStep32 (Nat.lt_of_succ_le hk), List.foldl_cons, List.foldl_nil]
        rfl
  simp only [StellarBench.dealBlocks32, hloop n le_rfl, Option.bind_eq_bind, Option.bind_some]
  rfl

/-- The first sum and the loop. -/
theorem Room.partitionBlock32 (h : Room rcNum dim n) (hsum : IsInt (rcNum + n))
    (malloc : ℕ → ℕ → α) (blocks : ℤ → Block α) :
    partitionBlock32 rcNum dim n malloc blocks =
      some (partitionBlock rcNum dim n malloc blocks) := by
  simp only [StellarBench.partitionBlock32, partHeight32_of h.rc h.portion hsum,
    Option.bind_eq_bind, Option.bind_some, h.dealBlocks32 malloc blocks]

/-- The first block has the rounded-up height, and its elements are counted in the first
pass. -/
theorem dealBlocks32_first (hr : 0 ≤ rcNum) (hn : 1 ≤ n)
    (hele : ¬ IsInt (partHeight rcNum n * dim)) (malloc : ℕ → ℕ → α) (blocks : ℤ → Block α) :
    dealBlocks32 rcNum dim (partHeight rcNum n) n malloc blocks = none := by
  have hpass : partStep32 rcNum dim (partHeight rcNum n) malloc (0, blocks) 0 = none := by
    rw [partStep32]
    by_cases hint : IsInt (partHeight rcNum n)
    · have hnext : nextHeight32 rcNum (partHeight rcNum n) 0 = some (partHeight rcNum n) := by
        rw [nextHeight32, add, zero_add, exact_of hint, Option.bind_eq_bind, Option.bind_some,
          if_pos (partHeight_le hr hn)]
      have hmul : mul (partHeight rcNum n) dim = none := if_neg hele
      simp [hnext, hmul]
    · have hnext : nextHeight32 rcNum (partHeight rcNum n) 0 = none := by
        rw [nextHeight32, add, zero_add, exact, if_neg hint]
        rfl
      simp [hnext]
  obtain ⟨m, rfl⟩ := Nat.exists_eq_add_of_le' hn
  rw [dealBlocks32, List.range_succ_eq_map, List.foldlM_cons, hpass]
  rfl

/-- The number of elements of the first block. -/
theorem isInt_firstBlock {rows dim : ℕ} (hn : 1 ≤ n) :
    IsInt (partHeight rows n * dim) ↔ (rows + n - 1) / n * dim < 2 ^ 31 := by
  rw [partHeight_natCast rows hn, ← Nat.cast_mul, IsInt]
  omega

/-- `partitionBlock` overflows in the first sum or in the first pass, or not at all. -/
theorem partitionBlock32_eq_some_iff (rows dim : ℕ) (hn : 1 ≤ n) {blocks bs : ℤ → Block α} :
    partitionBlock32 rows dim n malloc blocks = some bs ↔
      (rows + n < 2 ^ 31 ∧ (rows + n - 1) / n * dim < 2 ^ 31) ∧
        partitionBlock rows dim n malloc blocks = bs := by
  have hr : (0 : ℤ) ≤ rows := Int.natCast_nonneg rows
  have hroom (hlt : rows + n < 2 ^ 31) (hfit : IsInt (partHeight rows n * dim)) :
      Room rows dim n :=
    ⟨hr, Int.natCast_nonneg dim, hn, .of_nonneg (by omega) (by omega),
      .of_nonneg (by omega) (by omega), hfit⟩
  rw [← isInt_firstBlock hn]
  constructor
  · intro h
    have hsum : IsInt ((rows : ℤ) + n) := by
      by_contra hno
      rw [StellarBench.partitionBlock32, partHeight32, add, exact, if_neg hno] at h
      cases h
    have hlt := hsum.2
    have hfit : IsInt (partHeight rows n * dim) := by
      by_contra hno
      rw [StellarBench.partitionBlock32, partHeight32_of hr hn hsum, Option.bind_eq_bind,
        Option.bind_some, dealBlocks32_first hr hn hno] at h
      cases h
    rw [(hroom (by omega) hfit).partitionBlock32 hsum malloc blocks] at h
    exact ⟨⟨by omega, hfit⟩, Option.some.inj h⟩
  · rintro ⟨⟨hlt, hfit⟩, rfl⟩
    exact (hroom hlt hfit).partitionBlock32 (.of_nonneg (by omega) (by omega)) malloc blocks

end Loop

/-- `partitionBlock` is an exact cover.  It does not overflow when the first sum
does not, and its loop does not overflow in any case. -/
theorem partitionBlock32_exact (h : Fits rcNum dim n) (malloc : ℕ → ℕ → α)
    (blocks : ℤ → Block α) :
    ExactCover (partitionBlock rcNum dim n malloc blocks) rcNum dim n ∧
      (IsInt (rcNum + n) → partitionBlock32 rcNum dim n malloc blocks =
        some (partitionBlock rcNum dim n malloc blocks)) ∧
      dealBlocks32 rcNum dim (partHeight rcNum n) n malloc blocks =
        some (partitionBlock rcNum dim n malloc blocks) := by
  exact ⟨exactCover dim h.rc h.portion malloc blocks,
    fun hsum => h.room.partitionBlock32 hsum malloc blocks, h.room.dealBlocks32 malloc blocks⟩

/-- Five rows for four blocks. -/
theorem partitionBlock32_exact_small :
    ExactCover (partitionBlock 5 3 4 (fun _ _ => (0 : ℤ)) fun _ => Block.zero) 5 3 4 ∧
      (partitionBlock32 5 3 4 (fun _ _ => (0 : ℤ)) fun _ => Block.zero).isSome := by
  have hfits : Fits 5 3 4 := by
    constructor <;> decide
  have h := partitionBlock32_exact hfits (fun _ _ => (0 : ℤ)) fun _ => Block.zero
  exact ⟨h.1, Option.isSome_iff_exists.mpr ⟨_, h.2.1 (by decide)⟩⟩

/-- One block of `2 ^ 31 - 1` rows: the sum is `2 ^ 31`. -/
theorem partitionBlock32_overflows : Fits 2147483647 0 1 ∧
    partitionBlock32 2147483647 0 1 (fun _ _ => ()) (fun _ => Block.zero) = none := by
  refine ⟨?_, rfl⟩
  constructor <;> decide

end StellarBench
