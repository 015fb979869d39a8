import StellarBench.Matrix.Codec
import StellarBench.Matrix.Sampling

/-!
# The length of a frame

`client_on_pre_conn` allocates `BUFFER_SIZE` bytes, and no encoder compares
`total_len` with this.  The first block of a partition has the rounded-up height,
so the frame of the two first blocks is the longest.

The length goes through a `uint32_t` parameter, `htonl`, the immediate and
`ntohl`.  A frame that fits its buffer is short enough for that.
-/

namespace StellarBench.Codec

variable {α : Type}

/-! ## The length on the wire -/

/-- `htonl` of a little-endian machine. -/
def htonl (x : BitVec 32) : BitVec 32 := BitVec.ofNat 32 (byteSwap 4 x.toNat)

/-- `ntohl` of a little-endian machine. -/
def ntohl (x : BitVec 32) : BitVec 32 := BitVec.ofNat 32 (byteSwap 4 x.toNat)

theorem ntohl_htonl (x : BitVec 32) : ntohl (htonl x) = x := by
  have hx : x.toNat < 256 ^ 4 := x.isLt
  have hswap : byteSwap 4 x.toNat < 2 ^ 32 := byteSwap_lt 4 x.toNat
  rw [ntohl, htonl, BitVec.toNat_ofNat, Nat.mod_eq_of_lt hswap, byteSwap_byteSwap hx,
    BitVec.ofNat_toNat, BitVec.setWidth_eq]

/-- `imm_data` of the write that `client_send_next_chunk` posts: `buf_len` as the
`uint32_t` parameter of `client_write_remote`, in network order. -/
def immData (bufLen : BitVec 64) : BitVec 32 := htonl (bufLen.setWidth 32)

/-- `buf_len` that `server_on_completion` stores for an immediate. -/
def storedLen (immData : BitVec 32) : BitVec 64 := (ntohl immData).setWidth 64

/-- A length of 32 bits survives. -/
theorem storedLen_immData {n : BitVec 64} (h : n.toNat < 2 ^ 32) : storedLen (immData n) = n := by
  rw [storedLen, immData, ntohl_htonl]
  apply BitVec.eq_of_toNat_eq
  rw [BitVec.toNat_setWidth, BitVec.toNat_setWidth, Nat.mod_eq_of_lt h,
    Nat.mod_eq_of_lt (h.trans (by norm_num))]

/-! ## Blocks in memory -/

/-- `s` has the elements of the block `b`. -/
structure Stored.Holds (s : Stored) (b : Block α) : Prop where
  full : s.Full
  eleNum : s.eleNum.toInt = b.eleNum

/-- A block with `n` elements in memory. -/
def Stored.ofCount (n : ℕ) : Stored :=
  ⟨⟨0, 0, 0, 0, BitVec.ofNat 32 n, 0, 0, 0⟩, List.replicate n 0⟩

theorem Stored.ofCount_holds {n : ℕ} {b : Block α} (hn : n < 2 ^ 31) (hb : b.eleNum = n) :
    (Stored.ofCount n).Holds b := by
  have hnat : (BitVec.ofNat 32 n).toNat = n := by
    rw [BitVec.toNat_ofNat]
    omega
  have hint : (Stored.ofCount n).eleNum.toInt = n := by
    change (BitVec.ofNat 32 n).toInt = n
    rw [BitVec.toInt_eq_toNat_of_lt (by omega), hnat]
  have hfull : (Stored.ofCount n).Full := by
    constructor
    · rw [hint]
      omega
    · rw [hint, Int.toNat_natCast]
      exact List.length_replicate
  exact ⟨hfull, hint.trans hb.symm⟩

/-- `total_len` of the blocks that are held. -/
theorem Stored.Holds.totalLen {p q : Block α} {P Q : Stored} (hP : P.Holds p) (hQ : Q.Holds q) :
    (totalLen P.toStruct Q.toStruct).toNat = StellarBench.totalLen p q := by
  have hp : P.block.eleNum = p.eleNum := hP.eleNum
  have hq : Q.block.eleNum = q.eleNum := hQ.eleNum
  rw [hP.full.totalLen_block hQ.full, StellarBench.totalLen, StellarBench.totalLen, hp, hq]

/-! ## Frames of a partition -/

/-- The frame of `p` and `q` goes to a worker and back.  No copy leaves a buffer,
the lengths are `total_len`, and the receivers store them. -/
def Passes (p q : Block α) : Prop :=
  ∀ (P Q : Stored), P.Holds p → Q.Holds q → ∀ (s : Server) (pbid qbid toSendIter : BitVec 32),
    entry s.pblocks pbid = some P → entry s.qblocks qbid = some Q →
    ∀ (buf buf' : Bytes), buf.length = bufferSize → buf'.length = bufferSize →
    ∀ (w : Worker) (mp mq : Chunk), ∃ s' f n w' f',
      s.rdmaSendTd pbid qbid toSendIter buf = some (s', f, n) ∧
      w.rdmaRecvTd mp mq f = some w' ∧ w'.rdmaSendTd buf' = some (f', n) ∧
      n.toNat = StellarBench.totalLen p q ∧ n.toNat ≤ bufferSize ∧
      storedLen (immData n) = n ∧ n ≠ 0

/-- A frame passes when it fits. -/
theorem passes_of_le {p q : Block α} (h : StellarBench.totalLen p q ≤ bufferSize) :
    Passes p q := by
  intro P Q hP hQ s pbid qbid toSendIter hp hq buf buf' hb hb' w mp mq
  have hlen := hP.totalLen hQ
  obtain ⟨s', f, n, w', f', hsend, rfl, hrecv, -, -, -, hreply, -⟩ :=
    frame_down hP.full hQ.full (hlen.trans_le h) hp hq toSendIter hb hb' w mp mq
  refine ⟨s', f, _, w', f', hsend, hrecv, hreply, hlen, hlen.trans_le h, storedLen_immData ?_, ?_⟩
  · rw [hlen]
    exact lt_of_le_of_lt h (by decide)
  · intro h0
    rw [h0, StellarBench.totalLen, structSz] at hlen
    simp at hlen
    omega

/-- A frame that passes fits. -/
theorem Passes.le {p q : Block α} (h : Passes p q) {m n : ℕ} (hm : m < 2 ^ 31) (hn : n < 2 ^ 31)
    (hp : p.eleNum = m) (hq : q.eleNum = n) : StellarBench.totalLen p q ≤ bufferSize := by
  let P := Stored.ofCount m
  let Q := Stored.ofCount n
  obtain ⟨_, _, len, _, _, -, -, -, htotal, hle, -⟩ :=
    h P Q (Stored.ofCount_holds hm hp) (Stored.ofCount_holds hn hq) ⟨[P], [Q]⟩ 0 0 0 rfl rfl
      (List.replicate bufferSize 0) (List.replicate bufferSize 0) List.length_replicate
      List.length_replicate ⟨P, Q⟩ ⟨0, fun _ => 0⟩ ⟨0, fun _ => 0⟩
  exact htotal.symm.trans_le hle

section Partition

variable {rows K w : ℕ} {malloc : ℕ → ℕ → α} {blocks : ℤ → Block α}

theorem roundUp_le (rows : ℕ) (hw : 1 ≤ w) : (rows + w - 1) / w ≤ rows := by
  have hmul : rows ≤ w * rows := Nat.le_mul_of_pos_left rows hw
  rw [Nat.div_le_iff_le_mul_add_pred hw]
  omega

/-- The first block has the rounded-up height. -/
theorem eleNum_first (hw : 1 ≤ w) :
    (partitionBlock rows K w malloc blocks 0).eleNum = ((rows + w - 1) / w * K : ℕ) := by
  have hcover := exactCover K (Int.natCast_nonneg rows) hw malloc blocks
  have hheight := partitionBlock_height K malloc blocks (Int.natCast_nonneg rows) hw
  have hele := hcover.eleNum 0 hw
  rw [partHeight_natCast rows hw, dealt_zero (by omega), zero_add, sub_zero, dealt_natCast, one_mul,
    min_eq_right (roundUp_le rows hw)] at hheight
  rw [Nat.cast_zero] at hheight hele
  rw [hele, hheight, Nat.cast_mul]

end Partition

section Frames

variable {N M K w : ℕ} {mallocP mallocQ : ℕ → ℕ → α} {blocksP blocksQ : ℤ → Block α}

theorem longest_frame (N M K w : ℕ) : 64 + 8 * K * ((N + w - 1) / w + (M + w - 1) / w) =
    (structSz + doubleSz * ((N + w - 1) / w * K)) +
      (structSz + doubleSz * ((M + w - 1) / w * K)) := by
  rw [structSz, doubleSz]
  ring

/-- A block with the rounded-up height has no more elements than the matrix. -/
theorem roundUp_mul_lt (hw : 1 ≤ w) {rows : ℕ} (hrows : rows * K < 2 ^ 31) :
    (rows + w - 1) / w * K < 2 ^ 31 :=
  lt_of_le_of_lt (Nat.mul_le_mul_right K (roundUp_le rows hw)) hrows

/-- The frame of the two first blocks fits if it passes. -/
theorem first_frame_fits (hw : 1 ≤ w) (hN : N * K < 2 ^ 31) (hM : M * K < 2 ^ 31)
    (h : Passes (partitionBlock N K w mallocP blocksP 0) (partitionBlock M K w mallocQ blocksQ 0)) :
    64 + 8 * K * ((N + w - 1) / w + (M + w - 1) / w) ≤ bufferSize := by
  have hle := h.le (roundUp_mul_lt hw hN) (roundUp_mul_lt hw hM) (eleNum_first hw) (eleNum_first hw)
  rw [StellarBench.totalLen, eleNum_first hw, eleNum_first hw, Int.toNat_natCast,
    Int.toNat_natCast] at hle
  rwa [longest_frame]

/-- Every frame passes when the longest one fits. -/
theorem frames_pass (hw : 1 ≤ w) (mallocP mallocQ : ℕ → ℕ → α) (blocksP blocksQ : ℤ → Block α)
    (h : 64 + 8 * K * ((N + w - 1) / w + (M + w - 1) / w) ≤ bufferSize) {p q : ℕ} (hp : p < w)
    (hq : q < w) : Passes (partitionBlock N K w mallocP blocksP (p : ℕ))
      (partitionBlock M K w mallocQ blocksQ (q : ℕ)) := by
  have hpe := eleNum_le N K mallocP blocksP hw hp
  have hqe := eleNum_le M K mallocQ blocksQ hw hq
  apply passes_of_le
  rw [longest_frame, doubleSz] at h
  rw [StellarBench.totalLen, doubleSz]
  omega

/-- In `int`, the two partitions exist and every frame of them passes exactly when their first
sums do not overflow and the longest frame fits. -/
theorem passes_iff (hw : 1 ≤ w) (hN : N * K < 2 ^ 31) (hM : M * K < 2 ^ 31)
    (mallocP mallocQ : ℕ → ℕ → α) (blocksP blocksQ : ℤ → Block α) :
    (∃ pb qb, partitionBlock32 N K w mallocP blocksP = some pb ∧
        partitionBlock32 M K w mallocQ blocksQ = some qb ∧
        ∀ p < w, ∀ q < w, Passes (pb (p : ℕ)) (qb (q : ℕ))) ↔
      N + w < 2 ^ 31 ∧ M + w < 2 ^ 31 ∧
        64 + 8 * K * ((N + w - 1) / w + (M + w - 1) / w) ≤ bufferSize := by
  constructor
  · rintro ⟨pb, qb, hpb, hqb, h⟩
    obtain ⟨⟨hsumN, -⟩, rfl⟩ := (partitionBlock32_eq_some_iff _ _ hw).mp hpb
    obtain ⟨⟨hsumM, -⟩, rfl⟩ := (partitionBlock32_eq_some_iff _ _ hw).mp hqb
    exact ⟨hsumN, hsumM, first_frame_fits hw hN hM (h 0 hw 0 hw)⟩
  · rintro ⟨hsumN, hsumM, h⟩
    exact ⟨_, _,
      (partitionBlock32_eq_some_iff _ _ hw).mpr ⟨⟨hsumN, roundUp_mul_lt hw hN⟩, rfl⟩,
      (partitionBlock32_eq_some_iff _ _ hw).mpr ⟨⟨hsumM, roundUp_mul_lt hw hM⟩, rfl⟩,
      fun p hp q hq => frames_pass hw mallocP mallocQ blocksP blocksQ h hp hq⟩

end Frames

/-- Seven and six rows for three workers. -/
theorem passes_small : ∃ pb qb,
    partitionBlock32 7 2 3 (fun _ _ => 0) (fun _ => Block.zero) = some pb ∧
      partitionBlock32 6 2 3 (fun _ _ => 0) (fun _ => Block.zero) = some qb ∧
      ∀ p < 3, ∀ q < 3, Passes (pb (p : ℕ)) (qb (q : ℕ)) :=
  (passes_iff (N := 7) (M := 6) (K := 2) (w := 3) (by decide) (by decide) (by decide)
    (fun _ _ => 0) (fun _ _ => 0) _ _).mpr (by decide)

/-- The matrices of `mf_common.h`, for one worker and for two. -/
theorem first_frame_too_long {w : ℕ} (hw : w = 1 ∨ w = 2) : ∃ pb qb,
    partitionBlock32 1000990 100 w (fun _ _ => ()) (fun _ => Block.zero) = some pb ∧
      partitionBlock32 624961 100 w (fun _ _ => ()) (fun _ => Block.zero) = some qb ∧
      ¬ Passes (pb (0 : ℕ)) (qb (0 : ℕ)) := by
  have hone : 1 ≤ w := by omega
  refine ⟨_, _,
    (partitionBlock32_eq_some_iff 1000990 100 hone).mpr ⟨?_, rfl⟩,
    (partitionBlock32_eq_some_iff 624961 100 hone).mpr ⟨?_, rfl⟩, fun h => ?_⟩
  · rcases hw with rfl | rfl <;> decide
  · rcases hw with rfl | rfl <;> decide
  · have hfits := first_frame_fits (N := 1000990) (M := 624961) (K := 100) hone (by norm_num)
      (by norm_num) h
    rcases hw with rfl | rfl <;> norm_num [bufferSize] at hfits

/-- The partitions exist, and the first frame is too long. -/
theorem frame_too_long :
    (∃ pb qb, partitionBlock32 1000990 100 1 (fun _ _ => ()) (fun _ => Block.zero) = some pb ∧
      partitionBlock32 624961 100 1 (fun _ _ => ()) (fun _ => Block.zero) = some qb ∧
      ¬ Passes (pb (0 : ℕ)) (qb (0 : ℕ))) ∧
    ∃ pb qb, partitionBlock32 1000990 100 2 (fun _ _ => ()) (fun _ => Block.zero) = some pb ∧
      partitionBlock32 624961 100 2 (fun _ _ => ()) (fun _ => Block.zero) = some qb ∧
      ¬ Passes (pb (0 : ℕ)) (qb (0 : ℕ)) :=
  ⟨first_frame_too_long (.inl rfl), first_frame_too_long (.inr rfl)⟩

end StellarBench.Codec
