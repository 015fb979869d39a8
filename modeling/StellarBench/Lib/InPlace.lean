import Mathlib.Tactic

/-!
# In-place updates of two vectors

A loop updates two vectors element by element, first the one and then the other.
The second update reads the element that the first has just stored.  So the loop
is a simultaneous update by another rule (`foldl_inPlace`), and it is the one by
the rule it was written with exactly where the new element makes no difference
(`simultaneous_eq_iff`).
-/

namespace StellarBench

variable {α : Type} (f g : α → α → α) (n pOff qOff : ℕ)

/-- The `n` elements of each vector from its offset on are replaced, all from the
old ones: `f` gives the new element of the first vector and `g` that of the
second. -/
def simultaneous (m : (ℕ → α) × (ℕ → α)) : (ℕ → α) × (ℕ → α) :=
  (fun x => if pOff ≤ x ∧ x < pOff + n then f (m.1 x) (m.2 (qOff + (x - pOff))) else m.1 x,
    fun x => if qOff ≤ x ∧ x < qOff + n then g (m.1 (pOff + (x - qOff))) (m.2 x) else m.2 x)

/-- Element `k` of the first vector, then element `k` of the second. -/
def inPlace (m : (ℕ → α) × (ℕ → α)) (k : ℕ) : (ℕ → α) × (ℕ → α) :=
  let eles := Function.update m.1 (pOff + k) (f (m.1 (pOff + k)) (m.2 (qOff + k)))
  (eles, Function.update m.2 (qOff + k) (g (eles (pOff + k)) (m.2 (qOff + k))))

variable {f g n pOff qOff}

theorem simultaneous_fst (m : (ℕ → α) × (ℕ → α)) (x : ℕ) :
    (simultaneous f g n pOff qOff m).1 x =
      if pOff ≤ x ∧ x < pOff + n then f (m.1 x) (m.2 (qOff + (x - pOff))) else m.1 x := rfl

theorem simultaneous_snd (m : (ℕ → α) × (ℕ → α)) (x : ℕ) :
    (simultaneous f g n pOff qOff m).2 x =
      if qOff ≤ x ∧ x < qOff + n then g (m.1 (pOff + (x - qOff))) (m.2 x) else m.2 x := rfl

/-- One more element of both vectors. -/
theorem inPlace_simultaneous (m : (ℕ → α) × (ℕ → α)) :
    inPlace f g pOff qOff (simultaneous f (fun p q => g (f p q) q) n pOff qOff m) n =
      simultaneous f (fun p q => g (f p q) q) (n + 1) pOff qOff m := by
  have hp : (simultaneous f (fun p q => g (f p q) q) n pOff qOff m).1 (pOff + n) =
      m.1 (pOff + n) := if_neg (by omega)
  have hq : (simultaneous f (fun p q => g (f p q) q) n pOff qOff m).2 (qOff + n) =
      m.2 (qOff + n) := if_neg (by omega)
  refine Prod.ext (funext fun x => ?_) (funext fun x => ?_)
  · simp only [inPlace, hp, hq]
    rcases eq_or_ne x (pOff + n) with rfl | hx
    · rw [Function.update_self, simultaneous_fst, if_pos (by omega), Nat.add_sub_cancel_left]
    · rw [Function.update_of_ne hx]
      have hiff : (pOff ≤ x ∧ x < pOff + n) ↔ (pOff ≤ x ∧ x < pOff + (n + 1)) := by omega
      simp only [simultaneous_fst, hiff]
  · simp only [inPlace, hp, hq, Function.update_self]
    rcases eq_or_ne x (qOff + n) with rfl | hx
    · rw [Function.update_self, simultaneous_snd, if_pos (by omega), Nat.add_sub_cancel_left]
    · rw [Function.update_of_ne hx]
      have hiff : (qOff ≤ x ∧ x < qOff + n) ↔ (qOff ≤ x ∧ x < qOff + (n + 1)) := by omega
      simp only [simultaneous_snd, hiff]

theorem simultaneous_zero (m : (ℕ → α) × (ℕ → α)) : simultaneous f g 0 pOff qOff m = m := by
  refine Prod.ext (funext fun x => ?_) (funext fun x => ?_)
  · exact if_neg (by omega)
  · exact if_neg (by omega)

/-- The loop is a simultaneous update, with the new element of the first vector in
the rule of the second. -/
theorem foldl_inPlace (m : (ℕ → α) × (ℕ → α)) :
    (List.range n).foldl (inPlace f g pOff qOff) m =
      simultaneous f (fun p q => g (f p q) q) n pOff qOff m := by
  induction n with
  | zero => rw [List.range_zero, List.foldl_nil, simultaneous_zero]
  | succ n ih =>
      rw [List.range_succ, List.foldl_append, ih, List.foldl_cons, List.foldl_nil,
        inPlace_simultaneous]

/-- Two rules for the second vector agree on the elements that are replaced. -/
theorem simultaneous_eq_iff {g' : α → α → α} (m : (ℕ → α) × (ℕ → α)) :
    simultaneous f g n pOff qOff m = simultaneous f g' n pOff qOff m ↔
      ∀ k < n, g (m.1 (pOff + k)) (m.2 (qOff + k)) = g' (m.1 (pOff + k)) (m.2 (qOff + k)) := by
  constructor
  · intro h k hk
    have hx := congrFun (congrArg Prod.snd h) (qOff + k)
    rw [simultaneous_snd, simultaneous_snd] at hx
    rwa [if_pos (by omega), if_pos (by omega), Nat.add_sub_cancel_left] at hx
  · intro h
    refine Prod.ext rfl (funext fun x => ?_)
    rw [simultaneous_snd, simultaneous_snd]
    split
    · next hx =>
      have hk := h (x - qOff) (by omega)
      rwa [Nat.add_sub_cancel' hx.1] at hk
    · rfl

end StellarBench
