import Mathlib.Tactic

/-!
# Slices of arrays

A slice is the part of an array in an interval of indices.  A read and a write
of the array inside the interval are a read and a write of the slice.  A write
elsewhere keeps it.  `splice` puts a slice back.
-/

namespace StellarBench

variable {α : Type} {m : List α} {off len : ℕ}

/-- The `len` elements of `m` from index `off` on. -/
def slice (m : List α) (off len : ℕ) : List α := (m.drop off).take len

/-- `m` with the elements from index `off` on replaced by `l`. -/
def splice (m : List α) (off : ℕ) (l : List α) : List α :=
  m.take off ++ (l ++ m.drop (off + l.length))

theorem slice_length (h : off + len ≤ m.length) : (slice m off len).length = len := by
  rw [slice, List.length_take, List.length_drop]
  omega

theorem slice_getD (m : List α) (off : ℕ) {len k : ℕ} (hk : k < len) (d : α) :
    (slice m off len).getD k d = m.getD (off + k) d := by
  rw [slice, List.getD_eq_getElem?_getD, List.getD_eq_getElem?_getD,
    List.getElem?_take_of_lt hk, List.getElem?_drop]

theorem slice_set (m : List α) (off len k : ℕ) (v : α) :
    slice (m.set (off + k) v) off len = (slice m off len).set k v := by
  rw [slice, slice, List.drop_set, if_neg (by omega), List.take_set, Nat.add_sub_cancel_left]

theorem slice_set_of_outside (m : List α) {off len x : ℕ} (v : α)
    (hx : x < off ∨ off + len ≤ x) : slice (m.set x v) off len = slice m off len := by
  rw [slice, slice, List.drop_set]
  rcases hx with hx | hx
  · rw [if_pos hx]
  · rw [if_neg (by omega), List.take_set]
    exact List.set_eq_of_length_le (by rw [List.length_take]; omega)

/-- A prefix grows by the slice behind it. -/
theorem take_append_slice (m : List α) (off len : ℕ) :
    m.take off ++ slice m off len = m.take (off + len) := List.take_add.symm

/-- Putting the slice of `g` behind a prefix of `g` gives a longer prefix. -/
theorem splice_take {g x : List α} (h : off + len ≤ g.length) :
    splice (g.take off ++ x.drop off) off (slice g off len) =
      g.take (off + len) ++ x.drop (off + len) := by
  have ht : (g.take off).length = off := List.length_take_of_le (by omega)
  have hd : (g.take off ++ x.drop off).drop (off + len) = x.drop (off + len) := by
    rw [List.drop_append, List.drop_eq_nil_of_le (by omega), List.drop_drop, ht, List.nil_append]
    congr 1
    omega
  rw [splice, List.take_left' ht, slice_length h, hd, ← List.append_assoc, take_append_slice]

end StellarBench
