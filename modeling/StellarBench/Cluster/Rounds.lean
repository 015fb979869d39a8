import StellarBench.Cluster.Counters
import StellarBench.Transport.Contents

/-!
# What the blocks and the buffers hold

`Job.roundOf j i k` is the pair of blocks that a bulk-synchronous run without
threads, buffers and messages has for worker `i` at the start of round `k`, and
`Job.replyOf j i k` is the pair at the end of the round.

A lane that has merged `r` replies is in round `r`, and whatever it holds is one
of these two pairs at `r`.  `Lane.Data` says which memory holds which of them.
It says so under the same strict inequalities that the counter chain allows only
one at a time, so a step of one thread cannot disturb what another one left.
-/

namespace StellarBench

variable {n : ℕ} {α : Type}

/-! ## The bulk-synchronous run -/

/-- A pair of blocks with an age stored in both. -/
def stamp (k : ℤ) (f : Block α × Block α) : Block α × Block α :=
  ({ f.1 with dataAge := k }, { f.2 with dataAge := k })

/-- A pair of blocks after the update of worker `i` in round `k`. -/
def Update.apply (u : Update n α) (i : Fin n) (k : ℤ) (f : Block α × Block α) :
    Block α × Block α :=
  ({ f.1 with eles := (u.run i k f.1 f.2).1 }, { f.2 with eles := (u.run i k f.1 f.2).2 })

namespace Job

/-- The pair of worker `i` at the start of round `k`. -/
def roundOf (j : Job n α) (i : Fin n) : ℕ → Block α × Block α
  | 0 => (j.startP (i : ℕ), j.startQ (i : ℕ))
  | k + 1 => stamp (k + 1) (j.update.apply i k (roundOf j i k))

/-- The pair of worker `i` at the end of round `k`. -/
def replyOf (j : Job n α) (i : Fin n) (k : ℕ) : Block α × Block α :=
  j.update.apply i k (j.roundOf i k)

/-- The shape of a pair of blocks of worker `i`, and the flag no one sets. -/
structure Shape (i : Fin n) (f : Block α × Block α) : Prop where
  fullP : f.1.Full
  fullQ : f.2.Full
  idP : f.1.blockId = (i : ℕ)
  idQ : f.2.blockId = (i : ℕ)
  isP : f.1.isP = false
  isQ : f.2.isP = false

variable {j : Job n α} {i : Fin n}

theorem Shape.stamp {f : Block α × Block α} (h : Shape i f) (k : ℤ) : Shape i (stamp k f) :=
  ⟨h.1, h.2, h.3, h.4, h.5, h.6⟩

theorem Shape.apply {f : Block α × Block α} (h : Shape i f) (u : Update n α) (k : ℤ) :
    Shape i (u.apply i k f) :=
  ⟨(u.length_fst ..).trans h.1, (u.length_snd ..).trans h.2, h.3, h.4, h.5, h.6⟩

theorem startP_eq (j : Job n α) (i : Fin n) : j.startP (i : ℕ) =
    partOf j.rowsP j.dim (partHeight j.rowsP n) j.initP .zero i :=
  partitionBlock_apply _ _ _ (Int.natCast_nonneg _) i.isLt

theorem startQ_eq (j : Job n α) (i : Fin n) : j.startQ (i : ℕ) =
    partOf j.rowsQ j.dim (partHeight j.rowsQ n) j.initQ .zero i :=
  partitionBlock_apply _ _ _ (Int.natCast_nonneg _) i.isLt

theorem shape_start (j : Job n α) (i : Fin n) : Shape i (j.startP (i : ℕ), j.startQ (i : ℕ)) := by
  rw [startP_eq, startQ_eq]
  exact ⟨partOf_full .., partOf_full .., rfl, rfl, rfl, rfl⟩

theorem shape_roundOf (j : Job n α) (i : Fin n) (k : ℕ) : Shape i (j.roundOf i k) := by
  induction k with
  | zero => exact shape_start j i
  | succ k ih => exact (ih.apply _ _).stamp _

theorem shape_replyOf (j : Job n α) (i : Fin n) (k : ℕ) : Shape i (j.replyOf i k) :=
  (shape_roundOf j i k).apply _ _

theorem stamp_roundOf (j : Job n α) (i : Fin n) (k : ℕ) :
    StellarBench.stamp k (j.roundOf i k) = j.roundOf i k := by
  cases k with
  | zero =>
      rw [roundOf, startP_eq, startQ_eq]
      rfl
  | succ k => simp [roundOf, StellarBench.stamp]

/-- The header of a pair never changes, the age apart. -/
theorem roundOf_header (j : Job n α) (i : Fin n) (k : ℕ) :
    (j.roundOf i k).1.toHeader = { (j.startP (i : ℕ)).toHeader with dataAge := k } ∧
      (j.roundOf i k).2.toHeader = { (j.startQ (i : ℕ)).toHeader with dataAge := k } := by
  induction k with
  | zero =>
      have h := stamp_roundOf j i 0
      exact ⟨congrArg (fun f => f.1.toHeader) h.symm, congrArg (fun f => f.2.toHeader) h.symm⟩
  | succ k ih =>
      simp only [roundOf, StellarBench.stamp, Update.apply, ih.1, ih.2]
      simp

end Job

/-! ## The frame under construction -/

/-- The copies a `rdma_sendTd` has made of the frame it is encoding. -/
@[simp] def SendPc.slots : SendPc → ℕ
  | .elesP => 1
  | .headQ => 2
  | .elesQ => 3
  | .setLen | .announce => 4
  | _ => 0

theorem filled_sendBody {p q : Block α} {c c' : Conn (Frame α)} {pc pc' : SendPc}
    (h : Frame.Filled pc.slots p q c.client.buffer) (hb : Cluster.SendBody p q c pc pc' c') :
    Frame.Filled pc'.slots p q c'.client.buffer := by
  cases hb with
  | headP => exact h.setPb
  | elesP => exact h.setPEles
  | headQ => exact h.setQb
  | elesQ => exact h.setQEles
  | setLen => exact h
  | announce => exact Frame.filled_zero ..

/-- What the encoder leaves in the connection, when all earlier frames are read. -/
theorem contents_sendBody {p q : Block α} {c c' : Conn (Frame α)} {pc pc' : SendPc} {k R : ℤ}
    (hctl : c.Ctl (k + pc.sent)) (hR : c.counted ≤ R) (hE : k + pc.sent ≤ c.counted)
    (h : Frame.Filled pc.slots p q c.client.buffer) (hb : Cluster.SendBody p q c pc pc' c') :
    c'.Contents (Frame.ofBlocks p q) R (k + pc'.sent) := by
  cases hb with
  | headP | elesP | headQ | elesQ | setLen =>
      obtain ⟨-, h2, h3, h4⟩ := Conn.Contents.of_idle hctl hR hE (Frame.ofBlocks p q)
      refine ⟨fun hlt => ?_, h2, h3, h4⟩
      simp only [SendPc.sent] at hE hlt
      exact absurd hlt (not_lt.mpr hE)
  | announce =>
      have hc := Conn.Contents.announce hctl hR hE h.eq_ofBlocks
      simpa using hc

/-! ## The data of a lane -/

namespace Lane

/-- The data invariant of a lane in round `r`.  `f` and `g` are its pairs at the
start and at the end of the round, `P` and `Q` the blocks of the server. -/
structure Data (r : ℕ) (f g : Block α × Block α) (P Q : Block α) (l : Lane α) : Prop where
  round : l.recvedIter + 1 = r
  -- the blocks of the server, before and after each half of its decoder
  serverP : (∀ a, l.recvPc ≠ .decodeQ a) → (∀ a b, l.recvPc ≠ .count a b) →
    { P with dataAge := r } = f.1
  serverQ : (∀ a b, l.recvPc ≠ .count a b) → { Q with dataAge := r } = f.2
  decodedP : ∀ a, l.recvPc = .decodeQ a → P = g.1 ∧ a = g.1.blockId
  decodedPQ : ∀ a b, l.recvPc = .count a b →
    (P = g.1 ∧ Q = g.2) ∧ a = g.1.blockId ∧ b = g.2.blockId
  -- the frame on its way down
  stamped : l.sendPc.encoding = 1 → l.sendPc ≠ .stamp → P = f.1 ∧ Q = f.2
  filledDown : Frame.Filled l.sendPc.slots f.1 f.2 l.down.client.buffer
  down : l.down.Contents (Frame.ofBlocks f.1 f.2) (l.worker.recvedAge + 1) l.sentDown
  -- the blocks of the worker
  workerP : ∀ a, l.worker.recvPc = .decodeQ a → l.worker.pblock = f.1
  workerPQ : ∀ a b, l.worker.recvPc = .count a b → l.worker.pblock = f.1 ∧ l.worker.qblock = f.2
  fresh : l.worker.completedIter < l.worker.recvedAge → l.worker.mainPc ≠ .done →
    l.worker.pblock = f.1 ∧ l.worker.qblock = f.2
  updated : l.worker.mainPc = .done → l.worker.pblock = g.1 ∧ l.worker.qblock = g.2
  ready : l.sentUp < l.worker.completedIter + 1 →
    l.worker.pblock = g.1 ∧ l.worker.qblock = g.2
  isP : l.worker.pblock.isP = false ∧ l.worker.qblock.isP = false
  -- the reply on its way up
  filledUp : Frame.Filled l.worker.sendPc.slots g.1 g.2 l.up.client.buffer
  up : l.up.Contents (Frame.ofBlocks g.1 g.2) (l.recvedIter + 1) l.sentUp

end Lane

end StellarBench
