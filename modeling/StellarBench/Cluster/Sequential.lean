import StellarBench.Cluster.Data

/-!
# The distributed run equals the sequential run

`Job.bsp` is the program without threads and messages: round after round, and in
each round worker after worker.  `observe` logs a pair of blocks whenever a
receive thread increments its counter, that is, every frame a worker has decoded
and every reply the server has decoded.  In every run the log of a lane is the
sequence of the rounds.
-/

namespace StellarBench

variable {n : ℕ} {α : Type}

namespace Job

/-! ## The sequential program -/

/-- The blocks of worker `i` in a pair of block arrays. -/
def pairAt (m : (ℤ → Block α) × (ℤ → Block α)) (i : Fin n) : Block α × Block α :=
  (m.1 (i : ℕ), m.2 (i : ℕ))

/-- The turn of worker `i` in round `k`. -/
def bspTurn (j : Job n α) (k : ℤ) (m : (ℤ → Block α) × (ℤ → Block α)) (i : Fin n) :
    (ℤ → Block α) × (ℤ → Block α) :=
  let f := j.update.apply i k (stamp k (pairAt m i))
  (Function.update m.1 (i : ℕ) f.1, Function.update m.2 (i : ℕ) f.2)

/-- The block arrays after `k` rounds. -/
def bsp (j : Job n α) : ℕ → (ℤ → Block α) × (ℤ → Block α)
  | 0 => (j.startP, j.startQ)
  | k + 1 => (List.finRange n).foldl (j.bspTurn k) (j.bsp k)

variable {j : Job n α} {i : Fin n}

theorem pairAt_bspTurn_self (j : Job n α) (k : ℤ) (m : (ℤ → Block α) × (ℤ → Block α))
    (i : Fin n) : pairAt (j.bspTurn k m i) i = j.update.apply i k (stamp k (pairAt m i)) := by
  simp [pairAt, bspTurn]

theorem pairAt_bspTurn_of_ne (j : Job n α) (k : ℤ) (m : (ℤ → Block α) × (ℤ → Block α))
    {i i' : Fin n} (h : i' ≠ i) : pairAt (j.bspTurn k m i') i = pairAt m i := by
  have hne : ((i : ℕ) : ℤ) ≠ (i' : ℕ) := by exact_mod_cast Fin.val_ne_of_ne h.symm
  simp [pairAt, bspTurn, Function.update_of_ne hne]

theorem pairAt_foldl_of_notMem (j : Job n α) (k : ℤ) {l : List (Fin n)} (h : i ∉ l)
    (m : (ℤ → Block α) × (ℤ → Block α)) : pairAt (l.foldl (j.bspTurn k) m) i = pairAt m i := by
  induction l generalizing m with
  | nil => rfl
  | cons i' l ih =>
      rw [List.mem_cons, not_or] at h
      rw [List.foldl_cons, ih h.2, pairAt_bspTurn_of_ne _ _ _ (Ne.symm h.1)]

theorem pairAt_foldl_of_mem (j : Job n α) (k : ℤ) {l : List (Fin n)} (hn : l.Nodup) (h : i ∈ l)
    (m : (ℤ → Block α) × (ℤ → Block α)) :
    pairAt (l.foldl (j.bspTurn k) m) i = j.update.apply i k (stamp k (pairAt m i)) := by
  induction l generalizing m with
  | nil => cases h
  | cons i' l ih =>
      rw [List.nodup_cons] at hn
      rw [List.foldl_cons]
      rcases List.mem_cons.mp h with rfl | hl
      · rw [pairAt_foldl_of_notMem j k hn.1, pairAt_bspTurn_self]
      · have hne : i' ≠ i := by
          rintro rfl
          exact hn.1 hl
        rw [ih hn.2 hl, pairAt_bspTurn_of_ne _ _ _ hne]

/-- The sequential program computes the rounds of every worker. -/
theorem pairAt_bsp (j : Job n α) (i : Fin n) (k : ℕ) :
    stamp k (pairAt (j.bsp k) i) = j.roundOf i k ∧ pairAt (j.bsp (k + 1)) i = j.replyOf i k := by
  have hturn : ∀ k : ℕ, stamp k (pairAt (j.bsp k) i) = j.roundOf i k →
      pairAt (j.bsp (k + 1)) i = j.replyOf i k := by
    intro k hk
    rw [bsp, pairAt_foldl_of_mem j k (List.nodup_finRange n) (List.mem_finRange i), hk, replyOf]
  suffices h : stamp k (pairAt (j.bsp k) i) = j.roundOf i k from ⟨h, hturn k h⟩
  induction k with
  | zero => exact stamp_roundOf j i 0
  | succ k ih =>
      rw [hturn k ih, replyOf, roundOf]
      push_cast
      rfl

end Job

/-! ## Observed runs -/

/-- What a receive thread has decoded when it increments its counter. -/
inductive Event (n : ℕ) (α : Type) where
  /-- Worker `i` sets `recved_age = age`. -/
  | frame (i : Fin n) (age : ℤ) (f : Block α × Block α)
  /-- The server sets `recved_iter[i] = iter`. -/
  | reply (i : Fin n) (iter : ℤ) (f : Block α × Block α)

def Event.frameTo (i : Fin n) : Event n α → Option (ℤ × (Block α × Block α))
  | .frame k age f => if k = i then some (age, f) else none
  | .reply .. => none

def Event.replyFrom (i : Fin n) : Event n α → Option (ℤ × (Block α × Block α))
  | .frame .. => none
  | .reply k iter f => if k = i then some (iter, f) else none

namespace Cluster

/-- What the next step shows. -/
def observe (s : Cluster n α) : Act n → List (Event n α)
  | .workerRecv i =>
      let w := (s.lane i).worker
      match w.recvPc with
      | .count _ _ => [.frame i (w.recvedAge + 1) (w.pblock, w.qblock)]
      | _ => []
  | .psRecv i =>
      match (s.lane i).recvPc with
      | .count pIdx qIdx =>
          [.reply i ((s.lane i).recvedIter + 1) (s.pblocks pIdx, s.qblocks qIdx)]
      | _ => []
  | _ => []

variable {u : Update n α} {s t : Cluster n α} {i : Fin n}

/-- Only its receive thread counts the frames of a worker. -/
theorem LaneStep.recvedAge {a : Act n} {l : Lane α} (hs : LaneStep u s i a l)
    (ha : a ≠ .workerRecv i) : l.worker.recvedAge = (s.lane i).worker.recvedAge := by
  cases hs with
  | psSend hs | psRecv hs => cases hs <;> simp [setLane]
  | workerMain hs | workerSend hs => cases hs <;> rfl
  | workerRecv => exact absurd rfl ha
  | down | up => rfl

/-- Only the receive thread of a worker counts its replies. -/
theorem LaneStep.recvedIter {a : Act n} {l : Lane α} (hs : LaneStep u s i a l)
    (ha : a ≠ .psRecv i) : l.recvedIter = (s.lane i).recvedIter := by
  cases hs with
  | psSend hs => cases hs <;> simp [setLane]
  | psRecv => exact absurd rfl ha
  | workerMain hs | workerSend hs | workerRecv hs => cases hs <;> rfl
  | down | up => rfl

theorem frameTo_observe_of_ne {a : Act n} (ha : a ≠ .workerRecv i) :
    (s.observe a).filterMap (Event.frameTo i) = [] := by
  cases a with
  | workerRecv k =>
      have hk : k ≠ i := fun h => ha (h ▸ rfl)
      simp only [observe]
      split <;> simp [Event.frameTo, hk]
  | psRecv k =>
      simp only [observe]
      split <;> simp [Event.frameTo]
  | main | psSend | workerMain | workerSend | down | up => rfl

theorem replyFrom_observe_of_ne {a : Act n} (ha : a ≠ .psRecv i) :
    (s.observe a).filterMap (Event.replyFrom i) = [] := by
  cases a with
  | psRecv k =>
      have hk : k ≠ i := fun h => ha (h ▸ rfl)
      simp only [observe]
      split <;> simp [Event.replyFrom, hk]
  | workerRecv k =>
      simp only [observe]
      split <;> simp [Event.replyFrom]
  | main | psSend | workerMain | workerSend | down | up => rfl

end Cluster

namespace Job

variable {j : Job n α} {s t : Cluster n α} {a : Act n} {i : Fin n} {log : List (Event n α)}

/-- A step shows no frame of worker `i`, or the next one. -/
theorem frames_step (hc : s.Ctl) (d : j.Data s) (hs : s.step j.update a = some t) :
    ((s.observe a).filterMap (Event.frameTo i) = [] ∧
      (t.lane i).worker.recvedAge = (s.lane i).worker.recvedAge) ∨
    ∃ k : ℕ, (s.observe a).filterMap (Event.frameTo i) = [(↑k, j.roundOf i k)] ∧
      (s.lane i).worker.recvedAge + 1 = k ∧ (t.lane i).worker.recvedAge = k := by
  by_cases ha : a = .workerRecv i
  · subst ha
    obtain ⟨l, hl, rfl⟩ := Option.map_eq_some_iff.mp hs
    rw [Cluster.setLane_self]
    cases Cluster.workerRecvTd_cases hl with
    | test hpc _ | decodeP hpc | decodeQ hpc | flag hpc =>
        exact .inl ⟨by simp [Cluster.observe, hpc], rfl⟩
    | count hpc =>
        obtain ⟨r, di⟩ := d i
        obtain ⟨hp, hq⟩ := di.workerPQ _ _ hpc
        obtain ⟨-, h2, h3, h4, h5, h6, h7, -⟩ := (hc.lane i).chain
        obtain ⟨hdown, hup⟩ := (hc.lane i).counted_le
        have hround := di.round
        simp only [hpc, RecvPc.decoding] at h5
        have hage : (s.lane i).worker.recvedAge + 1 = r := by omega
        refine .inr ⟨r, ?_, hage, hage⟩
        simp only [Cluster.observe, hpc, hp, hq, hage]
        simp [Event.frameTo]
  · refine .inl ⟨Cluster.frameTo_observe_of_ne ha, ?_⟩
    rcases Cluster.step_lane_or hs i with hl | hl
    · rw [hl]
    · exact hl.recvedAge ha

/-- A step shows no reply of worker `i`, or the next one. -/
theorem replies_step (d : j.Data s) (hs : s.step j.update a = some t) :
    ((s.observe a).filterMap (Event.replyFrom i) = [] ∧
      (t.lane i).recvedIter = (s.lane i).recvedIter) ∨
    ∃ k : ℕ, (s.observe a).filterMap (Event.replyFrom i) = [(↑k, j.replyOf i k)] ∧
      (s.lane i).recvedIter + 1 = k ∧ (t.lane i).recvedIter = k := by
  by_cases ha : a = .psRecv i
  · subst ha
    cases Cluster.psRecvTd_cases hs with
    | test hpc _ | flag hpc =>
        exact .inl ⟨by simp [Cluster.observe, hpc], by simp⟩
    | decodeP hpc | decodeQ hpc =>
        exact .inl ⟨by simp [Cluster.observe, hpc], by simp [Cluster.setLane]⟩
    | count hpc =>
        obtain ⟨r, di⟩ := d i
        obtain ⟨⟨hp, hq⟩, hpi, hqi⟩ := di.decodedPQ _ _ hpc
        have hshape := shape_replyOf j i r
        have hround := di.round
        refine .inr ⟨r, ?_, hround, by simp [hround]⟩
        simp only [Cluster.observe, hpc, hpi, hqi, hshape.idP, hshape.idQ, hp, hq, hround]
        simp [Event.replyFrom]
  · refine .inl ⟨Cluster.replyFrom_observe_of_ne ha, ?_⟩
    rcases Cluster.step_lane_or hs i with hl | hl
    · rw [hl]
    · exact hl.recvedIter ha

/-- Every run decodes the rounds of the sequential program, each once and in
order: the frames of worker `i` are its pairs at the start of the rounds, the
replies its pairs at their end. -/
theorem run_eq_sequential (h : j.system.Trace Cluster.observe s log) (i : Fin n) :
    log.filterMap (Event.frameTo i) =
      (List.range ((s.lane i).worker.recvedAge + 1).toNat).map (fun k => (↑k, j.roundOf i k)) ∧
    log.filterMap (Event.replyFrom i) =
      (List.range ((s.lane i).recvedIter + 1).toNat).map (fun k => (↑k, j.replyOf i k)) ∧
    ∀ k : ℕ, stamp k (pairAt (j.bsp k) i) = j.roundOf i k ∧
      pairAt (j.bsp (k + 1)) i = j.replyOf i k := by
  refine ⟨?_, ?_, fun k => pairAt_bsp j i k⟩
  · refine h.filterMap_eq_range (fun s => (s.lane i).worker.recvedAge)
      (by rintro s rfl; rfl) fun s a t hr hs => ?_
    obtain ⟨hc, d⟩ := data_reachable hr
    exact frames_step hc d hs
  · refine h.filterMap_eq_range (fun s => (s.lane i).recvedIter)
      (by rintro s rfl; rfl) fun s a t hr hs => ?_
    obtain ⟨-, d⟩ := data_reachable hr
    exact replies_step d hs

/-- The log of the first round of two workers. -/
theorem run_eq_sequential_small : ∃ log : List (Event 2 ℕ), ∀ i,
    log.filterMap (Event.frameTo i) = [(0, pair.roundOf i 0)] ∧
    log.filterMap (Event.replyFrom i) = [(0, pair.replyOf i 0)] := by
  obtain ⟨s, htrace, hround⟩ := pair.system.exists_trace Cluster.observe
    (System.script (frames 2 ++ replies 2))
    (fun s => ∀ i, (s.lane i).worker.recvedAge = 0 ∧ (s.lane i).recvedIter = 0) rfl (by decide)
  refine ⟨pair.system.log Cluster.observe pair.start (System.script (frames 2 ++ replies 2)),
    fun i => ?_⟩
  obtain ⟨hframes, hreplies, -⟩ := run_eq_sequential htrace i
  rw [(hround i).1] at hframes
  rw [(hround i).2] at hreplies
  exact ⟨hframes, hreplies⟩

end Job

end StellarBench
