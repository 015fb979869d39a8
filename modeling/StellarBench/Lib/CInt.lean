import Mathlib.Tactic

/-!
# The arithmetic of `int`

A value of `int` is an integer from `-2 ^ 31` to `2 ^ 31 - 1`.  An operation
whose exact result is not one of them is undefined in C, and it has no result
here.  So a computation that succeeds is exact in each of its steps.

`foldlM_eq_some` is the rule for a loop whose passes all succeed.
-/

namespace StellarBench

/-- The values of `int`. -/
def IsInt (x : ℤ) : Prop := -2147483648 ≤ x ∧ x < 2147483648

instance : DecidablePred IsInt := fun _ => inferInstanceAs (Decidable (_ ∧ _))

theorem IsInt.of_nonneg {x : ℤ} (h : 0 ≤ x) (hx : x < 2 ^ 31) : IsInt x := by
  rw [IsInt]
  omega

/-- A value of `int` survives in 32 bits. -/
theorem IsInt.toInt_ofInt {x : ℤ} (h : IsInt x) : (BitVec.ofInt 32 x).toInt = x := by
  have hlow := h.1
  have hhigh := h.2
  rw [BitVec.toInt_ofInt]
  exact Int.bmod_eq_of_le (by omega) (by omega)

namespace CInt

/-! ## Operations -/

/-- The result of an operation. -/
def exact (x : ℤ) : Option ℤ := if IsInt x then some x else none

def add (x y : ℤ) : Option ℤ := exact (x + y)
def sub (x y : ℤ) : Option ℤ := exact (x - y)
def mul (x y : ℤ) : Option ℤ := exact (x * y)

/-- The quotient truncates. -/
def div (x y : ℤ) : Option ℤ := if y = 0 then none else exact (x.tdiv y)

/-- The remainder of the truncated quotient. -/
def mod (x y : ℤ) : Option ℤ := if y = 0 then none else exact (x.tmod y)

theorem exact_eq_some {x y : ℤ} : exact x = some y ↔ IsInt x ∧ x = y := by
  rw [exact]
  split
  · next h => simp [h]
  · next h => simp [h]

theorem exact_of {x : ℤ} (h : IsInt x) : exact x = some x := if_pos h

theorem add_of {x y : ℤ} (h : IsInt (x + y)) : add x y = some (x + y) := exact_of h
theorem sub_of {x y : ℤ} (h : IsInt (x - y)) : sub x y = some (x - y) := exact_of h
theorem mul_of {x y : ℤ} (h : IsInt (x * y)) : mul x y = some (x * y) := exact_of h

theorem div_of {x y : ℤ} (hy : y ≠ 0) (h : IsInt (x.tdiv y)) : div x y = some (x.tdiv y) := by
  rw [div, if_neg hy, exact_of h]

/-- The remainder by a positive number is below it. -/
theorem mod_of {x y : ℕ} (hy : 0 < y) (hx : IsInt x) :
    mod x y = some ((x % y : ℕ) : ℤ) := by
  have hle : x % y ≤ x := Nat.mod_le x y
  have hint : IsInt ((x % y : ℕ) : ℤ) := .of_nonneg (by omega) (lt_of_le_of_lt (by omega) hx.2)
  rw [mod, if_neg (by omega), ← Int.ofNat_tmod]
  exact exact_of hint

theorem mod_zero (x : ℤ) : mod x 0 = none := rfl

end CInt

/-! ## Loops -/

/-- A loop whose passes succeed on the states `φ m` and act there as `g` does
on `m`. -/
theorem foldlM_eq_some {β γ δ : Type} {f : β → γ → Option β} {g : δ → γ → δ} (φ : δ → β)
    {l : List γ} (h : ∀ m, ∀ x ∈ l, f (φ m) x = some (φ (g m x))) (m : δ) :
    l.foldlM f (φ m) = some (φ (l.foldl g m)) := by
  induction l generalizing m with
  | nil => rfl
  | cons x l ih =>
      rw [List.foldlM_cons, h m x List.mem_cons_self]
      exact ih (fun m y hy => h m y (List.mem_cons_of_mem x hy)) (g m x)

end StellarBench
