import StellarBench.Lib.Simulation
import StellarBench.Lib.Bulk
import StellarBench.Cluster.Sequential

/-!
# The cluster is a bulk-synchronous machine

The machine merges where the main loop of `ps` stores `completed_iter`, and its
worker works where the receive thread increments `recved_iter`.  All other steps
of the cluster are none of the machine.  Its values stand in `Pblocks` and
`Qblocks`, but for the blocks that a decoder is storing to, and but for the age,
which the encoder sets.

`Job.at_exit` reads off the machine what the server has when it exits.
-/

namespace StellarBench

variable {n : ℕ} {α : Type}

namespace Cluster

/-- The decoder of worker `i` is not between its two halves, nor before its counter. -/
def Whole (s : Cluster n α) (i : Fin n) : Prop :=
  (∀ a, (s.lane i).recvPc ≠ .decodeQ a) ∧ ∀ a b, (s.lane i).recvPc ≠ .count a b

/-- What the next step is in the bulk-synchronous machine. -/
def bulkAct (s : Cluster n α) : Act n → Option (Bulk.Act (Fin n))
  | .main => if s.mainPc = .merge then some .merge else none
  | .psRecv i =>
      match (s.lane i).recvPc with
      | .count _ _ => some (.work i)
      | _ => none
  | _ => none

/-- The memory of the server shows the state of the machine. -/
structure Shows (s : Cluster n α) (b : Bulk (Fin n) (Block α × Block α)) : Prop where
  merged : (b.merged : ℤ) = s.completedIter + 1
  done : ∀ i, (b.done i : ℤ) = (s.lane i).recvedIter + 1
  val : ∀ i, s.Whole i → stamp (b.done i) (Job.pairAt (s.pblocks, s.qblocks) i) = b.val i

variable {u : Update n α} {s t : Cluster n α} {a : Act n}

/-- A step that is none of the machine changes none of its counters. -/
theorem counters_of_bulkAct (hs : s.step u a = some t) (ha : s.bulkAct a = none) :
    t.completedIter = s.completedIter ∧ ∀ k, (t.lane k).recvedIter = (s.lane k).recvedIter := by
  rcases step_lane hs with ⟨rfl, hm⟩ | ⟨i, hon, hl⟩
  · cases hm with
    | merge hpc => simp [bulkAct, hpc] at ha
    | scanFail | scanNext | scanEnd | incr => exact ⟨rfl, fun _ => rfl⟩
  · refine ⟨hon.completedIter, fun k => ?_⟩
    by_cases hk : k = i
    · subst hk
      by_cases hrecv : a = .psRecv k
      · subst hrecv
        cases psRecvTd_cases hs with
        | count hpc => simp [bulkAct, hpc] at ha
        | test | decodeP | decodeQ | flag => simp [setLane]
      · exact hl.recvedIter hrecv
    · rw [hon.lane_ne hk]

end Cluster

namespace Job

variable {j : Job n α} {s t : Cluster n α} {b : Bulk (Fin n) (Block α × Block α)} {i : Fin n}

/-! ## The machine -/

/-- The update of worker `i`, with the age of the next frame. -/
def bulkUpdate (j : Job n α) (i : Fin n) (k : ℕ) (f : Block α × Block α) : Block α × Block α :=
  stamp (k + 1) (j.update.apply i k f)

/-- The bulk-synchronous machine of a job. -/
def bulk (j : Job n α) : System (Bulk (Fin n) (Block α × Block α)) (Bulk.Act (Fin n)) :=
  Bulk.machine j.bulkUpdate fun i => (j.startP (i : ℕ), j.startQ (i : ℕ))

theorem rounds_eq_roundOf (j : Job n α) (i : Fin n) (k : ℕ) :
    Bulk.rounds (j.bulkUpdate i) (j.startP (i : ℕ), j.startQ (i : ℕ)) k = j.roundOf i k := by
  induction k with
  | zero => rfl
  | succ k ih => rw [Bulk.rounds, ih, bulkUpdate, roundOf]

/-- The blocks of the server are those of its round. -/
theorem stamp_pairAt (h : j.system.Reachable s) (hw : s.Whole i) {r : ℕ}
    (hr : (r : ℤ) = (s.lane i).recvedIter + 1) :
    stamp r (pairAt (s.pblocks, s.qblocks) i) = j.roundOf i r := by
  obtain ⟨k, d⟩ := (data_reachable h).2 i
  have hround := d.round
  obtain rfl : r = k := by omega
  exact Prod.ext (d.serverP hw.1 hw.2) (d.serverQ hw.2)

/-- The memory shows the machine once the counters do. -/
theorem shows_of_counters (h : j.system.Reachable s) (hb : j.bulk.Reachable b)
    (hmerged : (b.merged : ℤ) = s.completedIter + 1)
    (hdone : ∀ i, (b.done i : ℤ) = (s.lane i).recvedIter + 1) : s.Shows b := by
  refine ⟨hmerged, hdone, fun i hw => ?_⟩
  rw [stamp_pairAt h hw (hdone i), (Bulk.inv_reachable hb).val i, rounds_eq_roundOf]

/-- A decoder that is about to count has a merge to answer. -/
theorem done_lt_merged (hc : (s.lane i).Ctl (s.completedIter + 1))
    (hdec : (s.lane i).recvPc.decoding = 1) : (s.lane i).recvedIter + 1 < s.completedIter + 1 := by
  obtain ⟨h1, h2, h3, h4, h5, h6, h7, h8⟩ := hc.chain
  obtain ⟨hd, hu⟩ := hc.counted_le
  omega

/-! ## The simulation -/

/-- The counters of the machine are those of the server. -/
def SameCounters (s : Cluster n α) (b : Bulk (Fin n) (Block α × Block α)) : Prop :=
  (b.merged : ℤ) = s.completedIter + 1 ∧ ∀ i, (b.done i : ℤ) = (s.lane i).recvedIter + 1

/-- The machine can merge when the server does. -/
theorem follows_merge (hc : s.Ctl) (hR : SameCounters s b) (hpc : s.mainPc = .merge)
    (hs : s.Main t) : ∃ b', j.bulk.step b .merge = some b' ∧ SameCounters t b' := by
  obtain ⟨hmerged, hdone⟩ := hR
  have hiter := hc.main.iter
  simp only [hpc, MainPc.lag] at hiter
  have hall : ∀ i, b.merged ≤ b.done i := by
    intro i
    have hready := hc.main.mergeable hpc i
    have hi := hdone i
    omega
  have hstep : j.bulk.step b .merge = some { b with merged := b.merged + 1 } :=
    Bulk.step_merge_eq_some.mpr ⟨hall, rfl⟩
  cases hs with
  | merge =>
      refine ⟨_, hstep, ?_, hdone⟩
      push_cast
      omega
  | scanFail _ hpc' _ | scanNext _ hpc' _ | scanEnd hpc' _ | incr hpc' =>
      rw [hpc] at hpc'
      cases hpc'

/-- Its worker can work when the server counts a reply. -/
theorem follows_work (hc : (s.lane i).Ctl (s.completedIter + 1)) (hR : SameCounters s b)
    (hdec : (s.lane i).recvPc.decoding = 1) {l : Lane α}
    (hl : l.recvedIter = (s.lane i).recvedIter + 1) :
    ∃ b', j.bulk.step b (.work i) = some b' ∧ SameCounters (s.setLane i l) b' := by
  obtain ⟨hmerged, hdone⟩ := hR
  have hlt : b.done i < b.merged := by
    have hahead := done_lt_merged hc hdec
    have hi := hdone i
    omega
  have hstep : j.bulk.step b (.work i) = some { b with
      done := Function.update b.done i (b.done i + 1)
      val := Function.update b.val i (j.bulkUpdate i (b.done i) (b.val i)) } :=
    Bulk.step_work_eq_some.mpr ⟨hlt, rfl⟩
  refine ⟨_, hstep, hmerged, fun k => ?_⟩
  by_cases hk : k = i
  · subst hk
    have hi := hdone k
    simp only [Function.update_self, Cluster.setLane_self, hl]
    push_cast
    omega
  · rw [(Cluster.onLane_setLane ..).lane_ne hk]
    simpa [Function.update_of_ne hk] using hdone k

theorem follows_counters (hs : j.system.Reachable s) (hR : SameCounters s b)
    (hstep : j.system.step s a = some t) :
    ∃ b', j.bulk.Follows b (s.bulkAct a) b' ∧ SameCounters t b' := by
  have hc := ctl_reachable hs
  cases hl : s.bulkAct a with
  | none =>
      obtain ⟨hcomp, hrecv⟩ := Cluster.counters_of_bulkAct hstep hl
      exact ⟨b, rfl, by rw [hcomp]; exact hR.1, fun i => by rw [hrecv i]; exact hR.2 i⟩
  | some l =>
      cases a with
      | psSend | workerMain | workerSend | workerRecv | down | up => cases hl
      | main =>
          obtain ⟨hpc, hmerge⟩ := Option.ite_none_right_eq_some.mp hl
          obtain rfl := Option.some.inj hmerge
          exact follows_merge hc hR hpc (Cluster.mainStep_cases hstep)
      | psRecv i =>
          cases Cluster.psRecvTd_cases hstep with
          | test hpc _ | decodeP hpc | decodeQ hpc | flag hpc =>
              simp [Cluster.bulkAct, hpc] at hl
          | count hpc =>
              simp only [Cluster.bulkAct, hpc, Option.some.injEq] at hl
              subst hl
              exact follows_work (hc.lane i) hR (by simp [hpc]) rfl

/-- Every run of the cluster is, step by step, a run of the bulk-synchronous machine,
whose state the memory of the server shows. -/
theorem bulk_simulation (j : Job n α) :
    j.system.Simulation j.bulk Cluster.bulkAct Cluster.Shows where
  init := by
    rintro _ rfl
    refine ⟨_, rfl, shows_of_counters (.init rfl) (.init rfl) ?_ fun _ => ?_⟩ <;> rfl
  step := by
    intro s a t b hs hb hR hstep
    obtain ⟨b', hfollow, hmerged, hdone⟩ := follows_counters hs ⟨hR.merged, hR.done⟩ hstep
    exact ⟨b', hfollow, shows_of_counters (hs.step trivial hstep) (hfollow.reachable hb) hmerged
      hdone⟩

/-- The same for a whole run: its merges and its counted replies are a run of the
machine, and the memory of the server shows where the machine is. -/
theorem run_bulk {as : List (Act n)} (hr : j.system.run j.start as = some s) :
    ∃ b, j.bulk.run ⟨0, fun _ => 0, fun i => (j.startP (i : ℕ), j.startQ (i : ℕ))⟩
        (j.system.labels Cluster.bulkAct j.start as) = some b ∧
      s.Shows b ∧ ∀ i, b.val i = j.roundOf i (b.done i) := by
  have hstart : j.system.Reachable j.start := .init rfl
  have hshows : j.start.Shows ⟨0, fun _ => 0, fun i => (j.startP (i : ℕ), j.startQ (i : ℕ))⟩ :=
    shows_of_counters hstart (.init rfl) rfl fun _ => rfl
  obtain ⟨b, hrun, hb, hR⟩ := j.bulk_simulation.run hstart (.init rfl) hshows hr
  refine ⟨b, hrun, hR, fun i => ?_⟩
  rw [(Bulk.inv_reachable hb).val i, rounds_eq_roundOf]

/-- One merge and one answer. -/
theorem run_bulk_small : ∃ (s : Cluster 1 ℕ) (b : Bulk (Fin 1) (Block ℕ × Block ℕ)),
    s.Shows b ∧ b.merged = 1 ∧ ∀ i, b.done i = 1 ∧ b.val i = small.roundOf i 1 := by
  have hsome : (small.system.run small.start (System.script (List.flatMap smallRound
      (List.finRange 1)))).any (fun s => decide (s.completedIter = 0 ∧
        ∀ i, (s.lane i).recvedIter = 0)) = true := by decide
  obtain ⟨s, hr, hs⟩ := (Option.any_eq_true _ _).mp hsome
  obtain ⟨hcomp, hrecv⟩ := of_decide_eq_true hs
  obtain ⟨b, -, hR, hval⟩ := run_bulk hr
  have hmerged := hR.merged
  refine ⟨s, b, hR, by omega, fun i => ?_⟩
  have hdone : b.done i = 1 := by
    have hi := hR.done i
    have hri := hrecv i
    omega
  rw [hval i, hdone]
  exact ⟨rfl, rfl⟩

end Job

end StellarBench
