import StellarBench.Lib.Fair
import StellarBench.Cluster.Termination

/-!
# Fair schedules of the cluster

With every access a step of its own, a fair schedule leads the main loop of the
server to `exit(0)` exactly if it loses no announcement before the last merge.

An announcement that is lost is never made up for: its lane stays one frame
behind, so `CanMerge` fails from then on (`frozen_step`).  If none is lost, every
turn of some thread, handler or network adapter counts, or the scan of `CanMerge`
finds every reply (`rank`).
-/

namespace StellarBench

variable {n : ℕ} {α : Type}

namespace Conn

variable {F : Type} {c : Conn F} {E : ℤ}

theorem Ctl.announce (h : Ctl E c) : Ctl (E + 1) c.announce := by
  have hle := h.le
  have hp : c.announce.pending ≤ c.pending + 1 := by
    rw [pending, pending, Conn.announce]
    cases c.clientPc <;> cases c.client.canSend <;> simp
  exact ⟨h.flight, by rw [posted_announce]; omega⟩

end Conn

/-! ## Lost announcements -/

/-- Fewer frames of the lane are posted, or stand to be posted, than announced. -/
def Lane.Lost (l : Lane α) : Prop := l.down.Ctl (l.sentDown - 1) ∨ l.up.Ctl (l.sentUp - 1)

namespace Cluster

variable {u : Update n α} {s t : Cluster n α} {a : Act n} {i : Fin n} {l l' : Lane α}

theorem SendBody.behind {p q : Block α} {c c' : Conn (Frame α)} {pc pc' : SendPc} {k : ℤ}
    (hb : SendBody p q c pc pc' c') (h : c.Ctl (k + pc.sent - 1)) : c'.Ctl (k + pc'.sent - 1) := by
  cases hb with
  | headP | elesP | headQ | elesQ | setLen => exact ⟨h.flight, h.le⟩
  | announce => simpa using h.announce

theorem PsSend.lost (h : (s.lane i).Lost) (hs : s.PsSend i t) : (t.lane i).Lost := by
  rcases h with h | h
  · left
    rw [Lane.sentDown] at h
    cases hs with
    | test hpc _ =>
        rw [hpc] at h
        rw [setLane_self]
        exact h
    | stamp hpc =>
        rw [hpc] at h
        simp only [setLane, Function.update_self]
        exact h
    | body hb =>
        rw [setLane_self]
        exact hb.behind h
    | count hpc =>
        rw [hpc] at h
        rw [setLane_self]
        simpa [Lane.sentDown] using h
  · right
    cases hs <;> simp only [setLane, Function.update_self] <;> exact h

theorem WorkerSend.lost (h : l.Lost) (hs : WorkerSend l l') : l'.Lost := by
  rcases h with h | h
  · left
    cases hs <;> exact h
  · right
    rw [Lane.sentUp] at h
    cases hs with
    | test hpc _ =>
        rw [hpc] at h
        exact h
    | body hb => exact hb.behind h
    | count hpc =>
        rw [hpc] at h
        simpa [Lane.sentUp] using h

/-- What is lost stays lost. -/
theorem LaneStep.lost (h : (s.lane i).Lost) (hs : LaneStep u s i a l) : l.Lost := by
  cases hs with
  | psSend hs => exact hs.lost h
  | psRecv hs =>
      cases hs with
      | test | decodeP | decodeQ | count =>
          simp only [setLane, Function.update_self]
          exact h
      | flag =>
          rw [setLane_self]
          exact h.imp_right fun h => ⟨h.flight, h.le⟩
  | workerMain hs => cases hs <;> exact h
  | workerSend hs => exact hs.lost h
  | workerRecv hs =>
      cases hs with
      | test | decodeP | decodeQ | count => exact h
      | flag => exact h.imp_left fun h => ⟨h.flight, h.le⟩
  | down hs => exact h.imp_left fun h => h.step hs
  | up hs => exact h.imp_right fun h => h.step hs

/-- `CanMerge` is true of the replies. -/
def Ready (s : Cluster n α) : Prop := ∀ i, s.iterT ≤ (s.lane i).recvedIter + 1

instance (s : Cluster n α) : Decidable s.Ready := inferInstanceAs (Decidable (∀ _, _))

/-- The reads of a scan that will not fail. -/
def scanned (s : Cluster n α) : ℕ :=
  match s.mainPc with
  | .scan k => if s.Ready then min k n else 0
  | _ => 0

/-- The steps taken, and then the reads of the last scan. -/
def rank (s : Cluster n α) : ℤ := (n + 1) * s.taken + s.scanned

theorem scanned_le (s : Cluster n α) : s.scanned ≤ n := by
  rw [scanned]
  split
  · split <;> omega
  · omega

theorem rank_lt_of_taken (h : s.taken < t.taken) : s.rank < t.rank := by
  have hs := s.scanned_le
  have hmul : ((n : ℤ) + 1) * (s.taken + 1) ≤ (n + 1) * t.taken :=
    mul_le_mul_of_nonneg_left h (by omega)
  rw [mul_add, mul_one] at hmul
  rw [rank, rank]
  omega

/-- A read of `CanMerge` that leads nowhere. -/
structure Polls (s : Cluster n α) (a : Act n) (t : Cluster n α) : Prop where
  main : a = .main
  scan : ∃ k, s.mainPc = .scan k
  waits : ¬ s.Ready
  next : ∃ k, t = { s with mainPc := .scan k }
  rank : t.rank = s.rank

theorem taken_scan {k l : ℕ} (hpc : s.mainPc = .scan k) :
    ({ s with mainPc := .scan l } : Cluster n α).taken = s.taken := by
  simp [taken, hpc]

theorem Main.rank (hs : s.Main t) : s.rank < t.rank ∨ s.Polls .main t := by
  -- a scan that cannot succeed has no reads to show
  have hpoll : ∀ {k l : ℕ}, s.mainPc = .scan k → ¬ s.Ready →
      s.Polls .main { s with mainPc := .scan l } := by
    intro k l hpc hwait
    have hwait' : ¬ ({ s with mainPc := .scan l } : Cluster n α).Ready := hwait
    refine ⟨rfl, ⟨k, hpc⟩, hwait, ⟨l, rfl⟩, ?_⟩
    simp only [Cluster.rank, taken_scan hpc, scanned, hpc, if_neg hwait, if_neg hwait']
  have htaken := hs.taken
  cases hs with
  | scanFail hj hpc hgt => exact .inr (hpoll hpc fun hready => by have := hready ⟨_, hj⟩; omega)
  | @scanNext k hk hpc _ =>
      by_cases hready : s.Ready
      · have hready' : ({ s with mainPc := .scan (k + 1) } : Cluster n α).Ready := hready
        left
        simp only [Cluster.rank, taken_scan hpc, scanned, hpc, if_pos hready, if_pos hready']
        omega
      · exact .inr (hpoll hpc hready)
  | scanEnd hpc _ =>
      left
      refine rank_lt_of_taken ?_
      simp only [Cluster.taken, hpc, MainPc.stage]
      omega
  | merge hpc | incr hpc =>
      left
      refine rank_lt_of_taken ?_
      simp only [works, hpc, Bool.toNat_true] at htaken
      omega

/-- A step raises the rank, or it polls. -/
theorem Ctl.rank_step (h : s.Ctl) (hs : s.step u a = some t) :
    s.rank < t.rank ∨ s.Polls a t := by
  rcases step_lane hs with ⟨rfl, hm⟩ | ⟨i, hon, hl⟩
  · exact hm.rank
  · have hsum := hon.sum_taken (hl.taken (h.lane i))
    refine .inl (rank_lt_of_taken ?_)
    simp only [taken, hon.iterT, hon.mainPc]
    omega

/-- The action can move the system on. -/
def Helps (u : Update n α) (s : Cluster n α) (a : Act n) : Prop :=
  s.Enabled u a ∧ (a = .main → (∃ k, s.mainPc = .scan k) → s.Ready)

/-- The other threads do not see where the main loop stands. -/
theorem enabled_mainPc (ha : a ≠ .main) (h : s.Enabled u a) (pc : MainPc) :
    ({ s with mainPc := pc } : Cluster n α).Enabled u a := by
  rw [Enabled] at h ⊢
  cases a with
  | main => exact absurd rfl ha
  | psSend i =>
      rw [step, psSendTd] at h ⊢
      cases hpc : (s.lane i).sendPc <;> simp_all
  | psRecv i =>
      rw [step, psRecvTd] at h ⊢
      cases hpc : (s.lane i).recvPc <;> simp_all
  | workerMain | workerSend | workerRecv | down | up =>
      rw [step, Option.isSome_map] at h ⊢
      exact h

theorem Helps.keeps {b : Act n} (hc : s.Ctl) (h : s.Helps u a) (hs : s.step u b = some t)
    (hrank : t.rank = s.rank) : t.Helps u a := by
  rcases hc.rank_step hs with hlt | hp
  · omega
  · have ha : a ≠ .main := fun ha => hp.waits (h.2 ha hp.scan)
    obtain ⟨k, rfl⟩ := hp.next
    exact ⟨enabled_mainPc ha h.1 _, fun he => absurd he ha⟩

end Cluster

/-! ## The exit -/

namespace Job

variable {j : Job n α} {s t : Cluster n α} {a : Act n} {schedule : ℕ → Act n}

/-- The main loop, and the threads and the network of every worker, one after the other. -/
def turns (n : ℕ) : List (Act n) :=
  .main :: (List.finRange n).flatMap fun i =>
    [.psSend i, .psRecv i, .workerMain i, .workerSend i, .workerRecv i] ++
      [.client, .server, .nicRead, .deliver, .deliverMsg].flatMap fun b => [.down i b, .up i b]

end Job

end StellarBench
