import Mathlib.Tactic

/-!
# Byte arrays

A region of memory is a list of bytes.  `readAt` and `writeAt` are a read and a
`memcpy` at an offset, and they fail outside the region.  So a computation that
succeeds on a prefix reads nothing behind it.  `leBytes` is the little-endian
image of a number and `wordsOf` an array of such images.
-/

namespace StellarBench

/-- The contents of a region of memory. -/
abbrev Bytes := List (BitVec 8)

/-! ## Numbers -/

/-- The `n` low bytes of a number, the lowest first. -/
def leBytes : ℕ → ℕ → Bytes
  | 0, _ => []
  | n + 1, v => BitVec.ofNat 8 v :: leBytes n (v / 256)

/-- The number that a list of bytes stands for. -/
def leValue : Bytes → ℕ
  | [] => 0
  | b :: bs => b.toNat + 256 * leValue bs

@[simp] theorem leBytes_length (n v : ℕ) : (leBytes n v).length = n := by
  induction n generalizing v with
  | zero => rfl
  | succ n ih => rw [leBytes, List.length_cons, ih]

theorem leValue_leBytes (n v : ℕ) : leValue (leBytes n v) = v % 256 ^ n := by
  induction n generalizing v with
  | zero => simp [leBytes, leValue, Nat.mod_one]
  | succ n ih =>
      have hb : (BitVec.ofNat 8 v).toNat = v % 256 := BitVec.toNat_ofNat v 8
      rw [leBytes, leValue, ih, hb, Nat.pow_succ', Nat.mod_mul]

/-- A word of `n` bytes is what its image stands for. -/
theorem ofNat_leValue_leBytes {n w : ℕ} (hw : w = 8 * n) (x : BitVec w) :
    BitVec.ofNat w (leValue (leBytes n x.toNat)) = x := by
  have hx : x.toNat < 256 ^ n := x.isLt.trans_eq (by rw [hw, Nat.pow_mul])
  rw [leValue_leBytes, Nat.mod_eq_of_lt hx, BitVec.ofNat_toNat, BitVec.setWidth_eq]

/-- Bytes are the image of the number they stand for. -/
theorem leBytes_leValue (bs : Bytes) : leBytes bs.length (leValue bs) = bs := by
  induction bs with
  | nil => rfl
  | cons b bs ih =>
      have hb : b.toNat < 256 := b.isLt
      have hlow : BitVec.ofNat 8 (b.toNat + 256 * leValue bs) = b := by
        apply BitVec.eq_of_toNat_eq
        rw [BitVec.toNat_ofNat]
        omega
      have hhigh : (b.toNat + 256 * leValue bs) / 256 = leValue bs := by omega
      rw [List.length_cons, leValue, leBytes, hlow, hhigh, ih]

theorem leValue_lt (bs : Bytes) : leValue bs < 256 ^ bs.length := by
  rw [← leBytes_leValue bs, leValue_leBytes, leBytes_length]
  exact Nat.mod_lt _ (by positivity)

/-! ## Byte order -/

/-- The number whose image is that of `x`, reversed. -/
def byteSwap (n : ℕ) (x : ℕ) : ℕ := leValue (leBytes n x).reverse

theorem byteSwap_lt (n x : ℕ) : byteSwap n x < 256 ^ n := by
  have h := leValue_lt (leBytes n x).reverse
  rwa [List.length_reverse, leBytes_length] at h

theorem byteSwap_byteSwap {n x : ℕ} (hx : x < 256 ^ n) : byteSwap n (byteSwap n x) = x := by
  have h := leBytes_leValue (leBytes n x).reverse
  rw [List.length_reverse, leBytes_length] at h
  rw [byteSwap, byteSwap, h, List.reverse_reverse, leValue_leBytes, Nat.mod_eq_of_lt hx]

/-! ## Reads -/

/-- The `len` bytes at offset `off`. -/
def readAt (buf : Bytes) (off len : ℕ) : Option Bytes :=
  if off + len ≤ buf.length then some ((buf.drop off).take len) else none

section Read

variable {a b c : Bytes}

/-- A read that lies in the first part of a region. -/
theorem readAt_append_left {off len : ℕ} (h : off + len ≤ a.length) (b : Bytes) :
    readAt (a ++ b) off len = readAt a off len := by
  have hb : off + len ≤ (a ++ b).length := by
    rw [List.length_append]
    omega
  rw [readAt, readAt, if_pos h, if_pos hb, List.drop_append_of_le_length (by omega),
    List.take_append_of_le_length (by rw [List.length_drop]; omega)]

/-- A read behind the first part of a region. -/
theorem readAt_append_right (a b : Bytes) (off len : ℕ) :
    readAt (a ++ b) (a.length + off) len = readAt b off len := by
  simp only [readAt, List.length_append, List.drop_append, Nat.add_assoc,
    Nat.add_le_add_iff_left]
  rw [List.drop_eq_nil_of_le (Nat.le_add_right _ _), Nat.add_sub_cancel_left, List.nil_append]

/-- A read of a whole region. -/
theorem readAt_self (a : Bytes) : readAt a 0 a.length = some a := by
  simp [readAt]

/-- A read of exactly the middle part of a region. -/
theorem readAt_middle {off len : ℕ} (ha : a.length = off) (hb : b.length = len) :
    readAt (a ++ (b ++ c)) off len = some b := by
  subst ha hb
  rw [← Nat.add_zero a.length, readAt_append_right, readAt_append_left (by omega), readAt_self]

end Read

/-! ## Writes -/

/-- `memcpy` of `src` to offset `off`. -/
def writeAt (buf : Bytes) (off : ℕ) (src : Bytes) : Option Bytes :=
  if off + src.length ≤ buf.length then
    some (buf.take off ++ (src ++ buf.drop (off + src.length)))
  else none

/-- A write right behind the part `a` that is written already. -/
theorem writeAt_append {a src : Bytes} {off : ℕ} (buf : Bytes) (ha : a.length = off)
    (h : off + src.length ≤ buf.length) :
    writeAt (a ++ buf.drop off) off src =
      some (a ++ src ++ buf.drop (a ++ src).length) := by
  have hl : (a ++ buf.drop off).length = buf.length := by
    rw [List.length_append, List.length_drop]
    omega
  have hd : (a ++ buf.drop off).drop (off + src.length) = buf.drop (a ++ src).length := by
    rw [← ha, List.drop_length_add_append, List.drop_drop, List.length_append]
  rw [writeAt, if_pos (by omega), List.take_left' ha, hd, List.append_assoc]

/-- A write at the start of a region. -/
theorem writeAt_zero {buf src : Bytes} (h : src.length ≤ buf.length) :
    writeAt buf 0 src = some (src ++ buf.drop src.length) := by
  rw [writeAt, if_pos (by omega), List.take_zero, List.nil_append, Nat.zero_add]

theorem writeAt_eq_some {buf buf' src : Bytes} {off : ℕ} (h : writeAt buf off src = some buf') :
    off + src.length ≤ buf.length ∧ buf'.length = buf.length := by
  rw [writeAt] at h
  split at h
  · next hle =>
      obtain rfl := Option.some.inj h
      simp only [List.length_append, List.length_take, List.length_drop]
      omega
  · cases h

/-- A write behind a prefix makes a longer one. -/
theorem exists_writeAt {a buf src : Bytes} {off : ℕ} (h : a <+: buf) (ha : a.length = off)
    (hroom : off + src.length ≤ buf.length) :
    ∃ buf', writeAt buf off src = some buf' ∧ buf'.length = buf.length ∧ a ++ src <+: buf' := by
  obtain ⟨c, rfl⟩ := h
  have hw : writeAt (a ++ (a ++ c).drop off) off src = _ := writeAt_append (a ++ c) ha hroom
  rw [List.drop_left' ha] at hw
  refine ⟨_, hw, ?_, List.prefix_append ..⟩
  simp only [List.length_append, List.length_drop] at hroom ⊢
  omega

/-! ## Arrays of words -/

/-- The image of an array of 64-bit words. -/
def wordBytes (l : List (BitVec 64)) : Bytes := l.flatMap fun x => leBytes 8 x.toNat

/-- The `n` words that a region starts with. -/
def wordsOf : ℕ → Bytes → List (BitVec 64)
  | 0, _ => []
  | n + 1, bs => BitVec.ofNat 64 (leValue (bs.take 8)) :: wordsOf n (bs.drop 8)

@[simp] theorem wordBytes_length (l : List (BitVec 64)) : (wordBytes l).length = 8 * l.length := by
  induction l with
  | nil => rfl
  | cons x l ih =>
      rw [wordBytes, List.flatMap_cons, List.length_append, leBytes_length, ← wordBytes, ih,
        List.length_cons]
      omega

theorem wordBytes_append (l l' : List (BitVec 64)) :
    wordBytes (l ++ l') = wordBytes l ++ wordBytes l' := List.flatMap_append

theorem wordsOf_wordBytes (l : List (BitVec 64)) : wordsOf l.length (wordBytes l) = l := by
  induction l with
  | nil => rfl
  | cons x l ih =>
      rw [wordBytes, List.flatMap_cons, ← wordBytes, List.length_cons, wordsOf,
        List.take_left' (leBytes_length 8 _), List.drop_left' (leBytes_length 8 _),
        ofNat_leValue_leBytes (n := 8) rfl, ih]

/-- `memcpy` to the start of an array of words. -/
def copyWords (dst : List (BitVec 64)) (src : Bytes) : Option (List (BitVec 64)) :=
  (writeAt (wordBytes dst) 0 src).map (wordsOf dst.length)

/-- Words over the first words of an array. -/
theorem copyWords_wordBytes {dst src : List (BitVec 64)} (h : src.length ≤ dst.length) :
    copyWords dst (wordBytes src) = some (src ++ dst.drop src.length) := by
  have hd : (wordBytes dst).drop (8 * src.length) = wordBytes (dst.drop src.length) := by
    conv_lhs => rw [← List.take_append_drop src.length dst, wordBytes_append]
    exact List.drop_left' (by rw [wordBytes_length, List.length_take_of_le h])
  have hl : dst.length = (src ++ dst.drop src.length).length := by
    rw [List.length_append, List.length_drop]
    omega
  rw [copyWords, writeAt_zero (by rw [wordBytes_length, wordBytes_length]; omega),
    wordBytes_length, hd, ← wordBytes_append, Option.map_some]
  conv_lhs => rw [hl, wordsOf_wordBytes]

end StellarBench
