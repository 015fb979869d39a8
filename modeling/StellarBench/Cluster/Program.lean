import StellarBench.Cluster.Faithful
import StellarBench.Cluster.Fair

/-!
# The two programs

A run in memory as in `Cluster.Raw`, whose update is `FakeSubMF` itself.  It has no value
for a block without rows, and `ps` has no start when its partition overflows or a worker
has no entry in its arrays.  So three things can go wrong: the start, a copy into a send
buffer, and a division by zero in a worker.

`RawProgram.Sized` says of the sizes that none of them does.  Then the programs are bisimilar
to the cluster over values (`RawProgram.bisimulation`), and what `Cluster.Progress`,
`Cluster.Termination` and `Cluster.Fair` say of that holds of them.  Otherwise some run
ends in a fault (`RawProgram.no_deadlock_iff`).
-/

namespace StellarBench

open Codec (Stored)

variable {n : ℕ}

/-- `sample_num`. -/
def sampleNum : ℕ := 90000

/-- What the programs are given: the operations on `double`, the rates, and the values that
`random` returns to worker `i` in iteration `k`. -/
structure RawProgram (n : ℕ) extends RawInput n where
  zero : BitVec 64
  add : BitVec 64 → BitVec 64 → BitVec 64
  sub : BitVec 64 → BitVec 64 → BitVec 64
  mul : BitVec 64 → BitVec 64 → BitVec 64
  rates : Rates (BitVec 64)
  draws : Fin n → ℤ → List (Rand × Rand)
  draws_length : ∀ i k, (draws i k).length = sampleNum

/-- As for values. -/
def RawCluster.wholePost (s : RawCluster n) : Act n → ℕ
  | .down i .client => if (s.lane i).down.clientPc = .post then 4 else 1
  | .up i .client => if (s.lane i).up.clientPc = .post then 4 else 1
  | _ => 1

namespace RawProgram

/-! ## The system -/

/-- `FakeSubMF` of worker `i` in iteration `k`. -/
def fakeSubMF (g : RawProgram n) (i : Fin n) (k : ℤ) (b : Block (BitVec 64) × Block (BitVec 64)) :
    Option (Block (BitVec 64) × Block (BitVec 64)) :=
  @fakeSubMFRandom (BitVec 64) ⟨g.zero⟩ ⟨g.add⟩ ⟨g.sub⟩ ⟨g.mul⟩ g.rates g.dim (g.draws i k) b

/-- The elements that it computes if it does not fault. -/
def update (g : RawProgram n) : Update n (BitVec 64) where
  run i k p q :=
    let b := @StellarBench.fakeSubMF (BitVec 64) ⟨g.zero⟩ ⟨g.add⟩ ⟨g.sub⟩ ⟨g.mul⟩ g.rates g.dim
      ((g.draws i k).map (drawn (p, q))) (p, q)
    (b.1.eles, b.2.eles)
  length_fst _ _ _ _ := (@fakeSubMF_length (BitVec 64) ⟨g.zero⟩ ⟨g.add⟩ ⟨g.sub⟩ ⟨g.mul⟩ ..).1
  length_snd _ _ _ _ := (@fakeSubMF_length (BitVec 64) ⟨g.zero⟩ ⟨g.add⟩ ⟨g.sub⟩ ⟨g.mul⟩ ..).2

/-- The run in memory over this update. -/
def raw (g : RawProgram n) : RawJob n := { g.toRawInput with update := g.update }

/-- The main loop of worker `i`. -/
def workerMain (g : RawProgram n) (i : Fin n) (l : RawLane) : Option (Option RawLane) :=
  let w := l.worker
  match w.mainPc with
  | .compute => some do
      let b ← g.fakeSubMF i w.iterT (w.pblock.block, w.qblock.block)
      return { l with worker := { w with
        pblock := { w.pblock with arr := b.1.eles }, qblock := { w.qblock with arr := b.2.eles },
        mainPc := .done } }
  | _ => (RawCluster.workerMain g.update i l).map some

/-- One step of the whole system. -/
def step (g : RawProgram n) (s : RawCluster n) : Act n → Option (Option (RawCluster n))
  | .workerMain i => (g.workerMain i (s.lane i)).map <| Option.map (s.setLane i)
  | a => s.step g.raw a

/-- The state when the main loop of `ps` starts: each worker has an entry in the arrays of
`ps`, and the partitions do not overflow. -/
def start (g : RawProgram n) : Option (RawCluster n) :=
  if n ≤ cap ∧ (partitionBlock32 g.rowsP g.dim n g.initP fun _ => .zero).isSome ∧
    (partitionBlock32 g.rowsQ g.dim n g.initQ fun _ => .zero).isSome then some g.raw.start else none

/-- The composed system.  A state is `none` after a fault. -/
def system (g : RawProgram n) : System (Option (RawCluster n)) (Act n) where
  init x := x = g.start
  step x a := x.bind fun s => g.step s a

/-- The composed system with the whole post of a client handler as one step. -/
def whole (g : RawProgram n) : System (Option (RawCluster n)) (Act n) :=
  g.system.bundle fun x a => x.elim 1 fun s => s.wholePost a

variable {g : RawProgram n} {s : RawCluster n} {t t' : Cluster n (BitVec 64)}
variable {i : Fin n} {a : Act n}

/-! ## The start -/

/-- The blocks of worker `i` have rows. -/
def Rows (g : RawProgram n) (i : Fin n) : Prop :=
  1 ≤ (g.raw.job.startP (i : ℕ)).height ∧ 1 ≤ (g.raw.job.startQ (i : ℕ)).height

/-- The blocks of a round keep the heights and the sizes of the partition. -/
theorem roundOf_sizes (g : RawProgram n) (i : Fin n) (r : ℕ) :
    ((g.raw.job.roundOf i r).1.height = (g.raw.job.startP (i : ℕ)).height ∧
        (g.raw.job.roundOf i r).1.eleNum = (g.raw.job.startP (i : ℕ)).eleNum) ∧
      (g.raw.job.roundOf i r).2.height = (g.raw.job.startQ (i : ℕ)).height ∧
        (g.raw.job.roundOf i r).2.eleNum = (g.raw.job.startQ (i : ℕ)).eleNum := by
  obtain ⟨hp, hq⟩ := Job.roundOf_header g.raw.job i r
  rw [hp, hq]
  exact ⟨⟨rfl, rfl⟩, rfl, rfl⟩

theorem hasRows_roundOf (hj : g.raw.Exact) (h : g.Rows i) (r : ℕ) :
    HasRows g.dim (g.raw.job.roundOf i r) := by
  obtain ⟨⟨hheightP, heleP⟩, hheightQ, heleQ⟩ := roundOf_sizes g i r
  have hcoverP := exactCover g.dim hj.rowsP.rc hj.rowsP.portion g.initP fun _ => .zero
  have hcoverQ := exactCover g.dim hj.rowsQ.rc hj.rowsQ.portion g.initQ fun _ => .zero
  exact
    { p := hheightP ▸ h.1
      q := hheightQ ▸ h.2
      pEles := by
        rw [heleP, hheightP]
        exact hcoverP.eleNum i i.isLt
      qEles := by
        rw [heleQ, hheightQ]
        exact hcoverQ.eleNum i i.isLt
      pInt := heleP ▸ (hj.rowsP.ints g.initP (fun _ => .zero) i).eleNum
      qInt := heleQ ▸ (hj.rowsQ.ints g.initQ (fun _ => .zero) i).eleNum }

theorem roundOf_empty (hj : g.raw.Exact) (h : ¬ g.Rows i) (r : ℕ) :
    (g.raw.job.roundOf i r).1.height = 0 ∨ (g.raw.job.roundOf i r).2.height = 0 := by
  obtain ⟨⟨hheightP, -⟩, hheightQ, -⟩ := roundOf_sizes g i r
  have hnonnegP : 0 ≤ (g.raw.job.startP (i : ℕ)).height :=
    (exactCover g.dim hj.rowsP.rc hj.rowsP.portion g.initP fun _ => .zero).height_nonneg i i.isLt
  have hnonnegQ : 0 ≤ (g.raw.job.startQ (i : ℕ)).height :=
    (exactCover g.dim hj.rowsQ.rc hj.rowsQ.portion g.initQ fun _ => .zero).height_nonneg i i.isLt
  rw [Rows] at h
  rw [hheightP, hheightQ]
  omega

/-- On the blocks of a round `FakeSubMF` faults, or it is the update. -/
theorem fakeSubMF_cases (hj : g.raw.Exact) (i : Fin n) (r : ℕ) (k : ℤ) :
    (g.fakeSubMF i k (g.raw.job.roundOf i r) = none ∧ ¬ g.Rows i) ∨
      (∃ b, g.fakeSubMF i k (g.raw.job.roundOf i r) = some b ∧ (b.1.eles, b.2.eles) =
        g.update.run i k (g.raw.job.roundOf i r).1 (g.raw.job.roundOf i r).2) ∧ g.Rows i := by
  by_cases hrows : g.Rows i
  · exact .inr ⟨⟨_, @HasRows.fakeSubMFRandom (BitVec 64) g.dim ⟨g.zero⟩ ⟨g.add⟩ ⟨g.sub⟩ ⟨g.mul⟩ _
      (hasRows_roundOf hj hrows r) g.rates (g.draws i k), rfl⟩, hrows⟩
  · -- the first of the samples divides by zero
    obtain ⟨rnd, rnds, hdraws⟩ : ∃ rnd rnds, g.draws i k = rnd :: rnds := by
      refine List.exists_cons_of_ne_nil fun hnil => ?_
      have hlen := g.draws_length i k
      rw [hnil] at hlen
      cases hlen
    refine .inl ⟨?_, hrows⟩
    rw [fakeSubMF, hdraws]
    exact @fakeSubMFRandom_empty (BitVec 64) g.dim ⟨g.zero⟩ ⟨g.add⟩ ⟨g.sub⟩ ⟨g.mul⟩ _ g.rates
      (roundOf_empty hj hrows r) rnd rnds

/-! ## Steps -/

/-- A worker that computes has the blocks of its round. -/
theorem blocks_computing (ht : g.raw.job.system.Reachable t) (h : s.Image g.raw t)
    (hpc : (s.lane i).worker.mainPc = .compute) : ∃ r,
      ((s.lane i).worker.pblock.block, (s.lane i).worker.qblock.block) =
        g.raw.job.roundOf i r := by
  obtain ⟨hc, hd⟩ := Job.data_reachable ht
  obtain ⟨r, p, q, d, u, m, hi⟩ := RawJob.exists_image h hd i
  have hci := hc.lane i
  rw [Job.LaneData, m.view] at hi
  rw [m.view] at hci
  have hchain := hci.chain.completed
  have hcomp : ((s.lane i).view d u).worker.mainPc.computing = 1 := by
    simp [RawLane.view, RawWorker.view, hpc]
  have hne : ((s.lane i).view d u).worker.mainPc ≠ .done := by
    simp [RawLane.view, RawWorker.view, hpc]
  obtain ⟨hp, hq⟩ := hi.fresh (by omega) hne
  exact ⟨r, Prod.ext hp hq⟩

/-- A step is that of the run in memory, or a worker without rows computes and faults. -/
theorem step_cases (hj : g.raw.Exact) (ht : g.raw.job.system.Reachable t) (h : s.Image g.raw t)
    (a : Act n) : (∃ i, a = .workerMain i ∧ g.step s a = some none ∧ ¬ g.Rows i) ∨
      g.step s a = s.step g.raw a ∧
        ∀ i, a = .workerMain i → (s.lane i).worker.mainPc = .compute → g.Rows i := by
  cases a with
  | main | psSend | psRecv | workerSend | workerRecv | down | up =>
      exact .inr ⟨rfl, fun i ha => by cases ha⟩
  | workerMain i =>
      by_cases hpc : (s.lane i).worker.mainPc = .compute
      · obtain ⟨r, hblocks⟩ := blocks_computing ht h hpc
        have hcases := fakeSubMF_cases hj i r (s.lane i).worker.iterT
        rw [← hblocks] at hcases
        rcases hcases with ⟨hnone, hrows⟩ | ⟨⟨b, hsome, hrun⟩, hrows⟩
        · refine .inl ⟨i, rfl, ?_, hrows⟩
          simp only [step, workerMain, hpc, hnone]
          rfl
        · refine .inr ⟨?_, fun k hk _ => by cases hk; exact hrows⟩
          have hrun : (b.1.eles, b.2.eles) = g.raw.update.run i (s.lane i).worker.iterT
              (s.lane i).worker.pblock.block (s.lane i).worker.qblock.block := hrun
          simp only [step, workerMain, RawCluster.step, RawCluster.workerMain, hpc, hsome, ← hrun]
          rfl
      · refine .inr ⟨?_, fun k hk hcomp => by cases hk; exact absurd hcomp hpc⟩
        cases hpc' : (s.lane i).worker.mainPc with
        | compute => exact absurd hpc' hpc
        | test | done | incr =>
            simp only [step, workerMain, hpc', RawCluster.step, Option.map_map]
            rfl

/-! ## The bisimulation -/

/-- A step other than a failed poll can be taken, and its body runs. -/
def Moves (g : RawProgram n) (s : RawCluster n) : Prop :=
  ∃ a s', g.whole.step (some s) a = some (some s') ∧
    (a = .main → s.mainPc = .merge ∨ s.mainPc = .incr ∨
      canMerge s.iterT (List.ofFn fun i => (s.lane i).recvedIter) = true)

/-- The worker has computed. -/
def Computed (l : Lane (BitVec 64)) : Prop :=
  0 ≤ l.worker.completedIter ∨ l.worker.mainPc = .done

/-- The programs are in a state of these values, and the workers that have computed have
rows. -/
def Follows (g : RawProgram n) (t : Cluster n (BitVec 64)) : Prop :=
  ∃ s, g.whole.Reachable (some s) ∧ s.Image g.raw t ∧ ∀ i, Computed (t.lane i) → g.Rows i

/-- No reachable state has faulted, and in each of them short of iteration 1200 a step other
than a failed poll can be taken. -/
def Deadlockless (g : RawProgram n) : Prop :=
  ∀ x, g.whole.Reachable x → ∃ s, x = some s ∧ (s.iterT < 1200 → g.Moves s)

theorem Deadlockless.safe (h : g.Deadlockless) : ¬ g.whole.Reachable none := by
  intro hnone
  obtain ⟨s, hs, -⟩ := h none hnone
  cases hs

/-- As for values: the step does not announce a frame between `ibv_post_send` and
`can_send = false`. -/
def ClearedFirst (s : RawCluster n) : Act n → Prop
  | .psSend i => (s.lane i).sendPc = .announce → (s.lane i).down.clientPc ≠ .clear
  | .workerSend i => (s.lane i).worker.sendPc = .announce → (s.lane i).up.clientPc ≠ .clear
  | _ => True

end RawProgram

end StellarBench
