import StellarBench.Lib.Marks
import StellarBench.Matrix.Kernel

/-!
# The entries that a launch updates

A mark in `cuda_mf` shows which entry a thread begins to update, after the test
of its rating.  The marks change nothing else (`launch_iff_marked`).

The residues of an entry belong to one thread at most, since the ids of a launch
are permutations.  So a launch updates the rated entries that match one of its
threads, each once, and its threads keep to rows and columns of their own
(`latin_square`).
-/

namespace StellarBench.Kernel

open Prog Threads

variable {α : Type} {wn : ℕ}

/-! ## The kernel with marks -/

/-- A cell of the kernel or the mark of an entry. -/
abbrev MarkedCell := Cell ⊕ ℕ × ℕ

section Program

variable [Zero α] [Add α] [Sub α] [Mul α] [BEq α] (a : Args α)

/-- The body of the loops over `i` and `j`, with the mark of the entry after the
test. -/
def markedBody (i j : ℕ) : Prog MarkedCell α Unit := do
  let err ← get (.inl (.rating (i * a.colHeight + j)))
  if err == 0 then return ()
  else
    set (.inr (i, j)) err
    rename Sum.inl do
      let err ← (List.range a.dim).foldlM (errStep a i j) err
      (List.range a.dim).forM (elesStep a i j err)

/-- `cuda_mf` with marks. -/
def markedMf (ids : Ids wn) (tid : Fin wn) : Prog MarkedCell α Unit :=
  (strided (ids.row tid) a.rowHeight wn).forM fun i =>
    (strided (ids.col tid) a.colHeight wn).forM fun j => markedBody a i j

theorem marked_body (i j : ℕ) : Prog.Marked (markedBody a i j) (entryBody a i j) := by
  refine .load fun err => ?_
  change Prog.Marked (if _ then _ else _) (if _ then _ else _)
  by_cases h0 : err == 0
  · rw [if_pos h0, if_pos h0]
    exact .ret ()
  · rw [if_neg h0, if_neg h0]
    exact .mark (marked_rename _)

theorem marked_cudaMf (ids : Ids wn) (tid : Fin wn) :
    Prog.Marked (markedMf a ids tid) (cudaMf a ids tid) :=
  marked_forM fun i => marked_forM fun j => marked_body a i j

theorem markedMf_eq_forM (ids : Ids wn) (tid : Fin wn) :
    markedMf a ids tid = (visited a ids tid).forM fun e => markedBody a e.1 e.2 := by
  rw [visited_eq, forM_product]
  rfl

/-- The device memory and the threads when the kernel with marks is launched. -/
def markedStart (ids : Ids wn) (m : MarkedCell → α) : Threads (Fin wn) MarkedCell α :=
  ⟨m, markedMf a ids⟩

/-- A launch may leave the memory `m'` and show this log. -/
def MarkedLaunch (ids : Ids wn) (m m' : MarkedCell → α)
    (log : List (Fin wn × Access MarkedCell)) : Prop :=
  ∃ as t, (markedStart a ids m).system.run (markedStart a ids m) as = some t ∧ t.Done ∧
    t.mem = m' ∧ (markedStart a ids m).accessLog as = log

/-- The launches are those of the kernel without marks. -/
theorem launch_iff_marked (ids : Ids wn) (m : MarkedCell → α) (m' : Cell → α) :
    Launch a ids (m ∘ Sum.inl) m' ↔
      ∃ m'' log, MarkedLaunch a ids m m'' log ∧ m'' ∘ Sum.inl = m' := by
  have hmarked : Threads.Marked (markedStart a ids m) (launchStart a ids (m ∘ Sum.inl)) :=
    ⟨rfl, marked_cudaMf a ids⟩
  have hcomplete := hmarked.complete (List.mem_finRange (n := wn))
  constructor
  · rintro ⟨as, t, hr, hd, rfl⟩
    obtain ⟨bs, u, hu, hdone, hmem, -⟩ := (hcomplete _ t.mem).mpr ⟨as, t, hr, hd, rfl, rfl⟩
    exact ⟨u.mem, _, ⟨bs, u, hu, hdone, rfl, rfl⟩, hmem⟩
  · rintro ⟨m'', log, ⟨as, t, hr, hd, rfl, rfl⟩, rfl⟩
    obtain ⟨bs, u, hu, hdone, hmem, -⟩ := (hcomplete _ _).mp ⟨as, t, hr, hd, rfl, rfl⟩
    exact ⟨bs, u, hu, hdone, hmem⟩

end Program

/-! ## Footprints -/

section Footprint

variable (a : Args α) (ids : Ids wn) (tid : Fin wn)

/-- The row that a cell or a mark belongs to. -/
def rowOf : MarkedCell → Option ℕ
  | .inl (.row x) => some (x / a.dim)
  | .inl (.col _) => none
  | .inl (.rating x) => some (x / a.colHeight)
  | .inr e => some e.1

/-- The column that a cell or a mark belongs to. -/
def colOf : MarkedCell → Option ℕ
  | .inl (.row _) => none
  | .inl (.col x) => some (x / a.dim)
  | .inl (.rating x) => some (x % a.colHeight)
  | .inr e => some e.2

/-- The cells in the rows and the columns of thread `tid`. -/
def touched : Set MarkedCell :=
  {c | (∀ i ∈ rowOf a c, i % wn = ids.row tid) ∧ ∀ j ∈ colOf a c, j % wn = ids.col tid}

/-- These without the ratings. -/
def written : Set MarkedCell :=
  {c | c ∈ touched a ids tid ∧ ∀ x, c ≠ .inl (.rating x)}

variable {a ids tid}

theorem own_subset_written : Sum.inl '' own a ids tid ⊆ written a ids tid := by
  rintro _ ⟨c, hc, rfl⟩
  cases c with
  | row x =>
      refine ⟨⟨fun i hi => ?_, nofun⟩, nofun⟩
      cases hi
      exact hc.1
  | col x =>
      refine ⟨⟨nofun, fun j hj => ?_⟩, nofun⟩
      cases hj
      exact hc.1
  | rating x => exact hc.elim

/-- Every cell has a row or a column, which belongs to one thread. -/
theorem touched_inj {tid' : Fin wn} {c : MarkedCell} (h : c ∈ touched a ids tid)
    (h' : c ∈ touched a ids tid') : tid = tid' := by
  have hrow {i : ℕ} (hi : i ∈ rowOf a c) : tid = tid' :=
    ids.row.injective (Fin.ext ((h.1 i hi).symm.trans (h'.1 i hi)))
  have hcol {j : ℕ} (hj : j ∈ colOf a c) : tid = tid' :=
    ids.col.injective (Fin.ext ((h.2 j hj).symm.trans (h'.2 j hj)))
  rcases c with (x | x | x) | e
  · exact hrow rfl
  · exact hcol rfl
  · exact hrow rfl
  · exact hrow rfl

theorem rating_notMem_written (e : ℕ × ℕ) :
    (.inl (.rating (e.1 * a.colHeight + e.2)) : MarkedCell) ∉ written a ids tid :=
  fun h => h.2 _ rfl

variable [Zero α] [Add α] [Sub α] [Mul α] [BEq α]

theorem within_markedBody {e : ℕ × ℕ} (he : e ∈ visited a ids tid) :
    (markedBody a e.1 e.2).Within (touched a ids tid) (written a ids tid) := by
  obtain ⟨hmem, hmatch⟩ := List.mem_filter.mp he
  obtain ⟨hi, hj⟩ := List.mem_product.mp hmem
  obtain ⟨hrow, hcol⟩ := of_decide_eq_true hmatch
  have hj' := List.mem_range.mp hj
  have hrating : (.inl (.rating (e.1 * a.colHeight + e.2)) : MarkedCell) ∈ touched a ids tid := by
    refine ⟨fun i hi => ?_, fun j hj => ?_⟩
    · cases hi
      rw [div_row hj', hrow]
    · cases hj
      rw [Nat.mul_add_mod_of_lt hj', hcol]
  have hmark : (.inr e : MarkedCell) ∈ written a ids tid := by
    refine ⟨⟨fun i hi => ?_, fun j hj => ?_⟩, nofun⟩
    · cases hi
      exact hrow
    · cases hj
      exact hcol
  refine (within_get hrating).bind fun err => ?_
  by_cases h0 : err == 0
  · rw [if_pos h0]
    trivial
  · rw [if_neg h0]
    have hi' := List.mem_range.mp hi
    have hloops := within_loops (W := own a ids tid)
      (fun k hk => ⟨row_mem ⟨hrow, hi'⟩ hk, col_mem ⟨hcol, hj'⟩ hk⟩) err
    exact (within_set hmark err).bind fun _ => (within_rename hloops).mono
      (own_subset_written.trans fun _ hc => hc.1) own_subset_written

/-- The threads of a launch have their rows and columns for themselves. -/
theorem separate_markedMf (a : Args α) (ids : Ids wn) :
    Separate (touched a ids) (written a ids) (markedMf a ids) where
  within tid := by
    rw [markedMf_eq_forM]
    exact within_forM fun _ he => within_markedBody he
  sub _ _ hc := hc.1
  apart _ _ h _ hc hc' := h (touched_inj hc.1 hc')

end Footprint

/-! ## Counting the updates -/

section Count

variable [Zero α] [Add α] [Sub α] [Mul α] [BEq α] {a : Args α} {ids : Ids wn} {tid : Fin wn}
  {m : MarkedCell → α}

/-- The rating of an entry, in the device memory. -/
def deviceRating (a : Args α) (m : MarkedCell → α) (e : ℕ × ℕ) : α :=
  m (.inl (.rating (e.1 * a.colHeight + e.2)))

/-- The marks of one pass. -/
theorem count_markedBody (e e' : ℕ × ℕ) :
    ((markedBody a e'.1 e'.2).accesses m).count (.store (.inr e)) =
      if deviceRating a m e' == 0 then 0 else [e'].count e := by
  let cell : MarkedCell := .inl (.rating (e'.1 * a.colHeight + e'.2))
  have hget : (get cell : Prog MarkedCell α α).value m = deviceRating a m e' := rfl
  have hload : (get cell : Prog MarkedCell α α).accesses m = [.load cell] := rfl
  rw [markedBody, accesses_bind, hget, hload, List.count_append]
  by_cases h0 : deviceRating a m e' == 0
  · rw [if_pos h0, if_pos h0]
    rfl
  · have hset : (Prog.set (.inr (e'.1, e'.2) : MarkedCell) (deviceRating a m e')).accesses
        ((get cell).exec m) = [.store (.inr e')] := rfl
    rw [if_neg h0, if_neg h0, accesses_bind, List.count_append, count_mark_rename, hset]
    simp [List.count_singleton]

/-- The marks of a loop over entries of the thread. -/
theorem count_forM {l : List (ℕ × ℕ)} (hl : ∀ e ∈ l, e ∈ visited a ids tid) (e : ℕ × ℕ) :
    ((l.forM fun e => markedBody a e.1 e.2).accesses m).count (.store (.inr e)) =
      if deviceRating a m e == 0 then 0 else l.count e := by
  induction l generalizing m with
  | nil => exact (ite_self 0).symm
  | cons e' l ih =>
      have he' := within_markedBody (hl e' List.mem_cons_self)
      have hl' : ∀ e ∈ l, e ∈ visited a ids tid := fun e he => hl e (List.mem_cons_of_mem e' he)
      have hrating : deviceRating a ((markedBody a e'.1 e'.2).exec m) e = deviceRating a m e :=
        he'.exec_apply (rating_notMem_written e) m
      change ((markedBody a e'.1 e'.2 >>= fun _ =>
        l.forM fun e => markedBody a e.1 e.2).accesses m).count _ = _
      rw [accesses_bind, List.count_append, count_markedBody, ih hl', hrating, List.count_cons]
      by_cases he : e' = e
      · subst he
        split <;> simp [Nat.add_comm]
      · simp [he]

/-- A thread marks the rated entries that it visits, each once. -/
theorem count_thread (e : ℕ × ℕ) :
    ((markedMf a ids tid).accesses m).count (.store (.inr e)) =
      if deviceRating a m e == 0 then 0 else if e ∈ visited a ids tid then 1 else 0 := by
  rw [markedMf_eq_forM, count_forM (fun _ he => he), (nodup_visited a ids tid).count]

end Count

/-! ## Launches -/

/-- How often a thread updates an entry. -/
def updates (log : List (Fin wn × Access MarkedCell)) (tid : Fin wn) (e : ℕ × ℕ) : ℕ :=
  log.count (tid, .store (.inr e))

/-- How often any thread does. -/
def totalUpdates (log : List (Fin wn × Access MarkedCell)) (e : ℕ × ℕ) : ℕ :=
  log.countP fun x => x.2 = .store (.inr e)

/-- The permutations of a launch give the residues of an entry to a thread. -/
def SomeMatches (ids : Ids wn) (e : ℕ × ℕ) : Prop := ∃ tid, Matches ids tid e

instance (ids : Ids wn) (e : ℕ × ℕ) : Decidable (SomeMatches ids e) :=
  inferInstanceAs (Decidable (∃ _, _))

theorem Matches.unique {ids : Ids wn} {tid tid' : Fin wn} {e : ℕ × ℕ} (h : Matches ids tid e)
    (h' : Matches ids tid' e) : tid = tid' :=
  ids.row.injective (Fin.ext (h.1.symm.trans h'.1))

section Launch

variable [Zero α] [Add α] [Sub α] [Mul α] [BEq α] {a : Args α} {ids : Ids wn}
  {m m' : MarkedCell → α} {log : List (Fin wn × Access MarkedCell)} {e : ℕ × ℕ}

theorem MarkedLaunch.updates (h : MarkedLaunch a ids m m' log) (hi : e.1 < a.rowHeight)
    (hj : e.2 < a.colHeight) (tid : Fin wn) : updates log tid e =
      if deviceRating a m e == 0 then 0 else if Matches ids tid e then 1 else 0 := by
  obtain ⟨as, t, hr, hd, -, rfl⟩ := h
  have hthread := (separate_markedMf a ids).log_thread (s := markedStart a ids m) hr hd tid
  rw [Kernel.updates, ← count_ofThread, hthread]
  have hvisited : e ∈ visited a ids tid ↔ Matches ids tid e := by
    rw [mem_visited, and_iff_right ⟨hi, hj⟩]
  simp only [← hvisited]
  exact count_thread e

theorem MarkedLaunch.total (h : MarkedLaunch a ids m m' log) (hi : e.1 < a.rowHeight)
    (hj : e.2 < a.colHeight) : totalUpdates log e =
      if deviceRating a m e == 0 then 0 else if SomeMatches ids e then 1 else 0 := by
  have hupdates := h.updates hi hj
  -- a mark in the log is of a thread that matches
  have hmark {x : Fin wn × Access MarkedCell} (hx : x ∈ log) (he : x.2 = .store (.inr e)) :
      Matches ids x.1 e := by
    by_contra hno
    have hzero := hupdates x.1
    rw [if_neg hno, ite_self, Kernel.updates, ← he, List.count_eq_zero] at hzero
    exact hzero hx
  by_cases hsome : SomeMatches ids e
  · have ⟨tid, htid⟩ := hsome
    have hone := hupdates tid
    rw [if_pos htid] at hone
    rw [if_pos hsome, ← hone, totalUpdates, Kernel.updates, List.count]
    refine List.countP_congr fun x hx => ?_
    rw [decide_eq_true_eq, beq_iff_eq, Prod.ext_iff]
    exact ⟨fun he => ⟨(hmark hx he).unique htid, he⟩, fun he => he.2⟩
  · rw [if_neg hsome, ite_self, totalUpdates, List.countP_eq_zero]
    intro x hx he
    exact hsome ⟨x.1, hmark hx (of_decide_eq_true he)⟩

theorem MarkedLaunch.rating (h : MarkedLaunch a ids m m' log) (e : ℕ × ℕ) :
    deviceRating a m' e = deviceRating a m e := by
  obtain ⟨as, t, hr, hd, rfl, -⟩ := h
  exact ((separate_markedMf a ids).outcome_run (s := markedStart a ids m) hr hd).outside _
    fun _ => rating_notMem_written e

variable (a) in
/-- Launches one after the other, with the log of them all. -/
inductive MarkedLaunches : List (Ids wn) → (MarkedCell → α) → (MarkedCell → α) →
    List (Fin wn × Access MarkedCell) → Prop where
  | nil {m : MarkedCell → α} : MarkedLaunches [] m m []
  | cons {ids : Ids wn} {l : List (Ids wn)} {m m' m'' : MarkedCell → α}
      {log log' : List (Fin wn × Access MarkedCell)} : MarkedLaunch a ids m m' log →
      MarkedLaunches l m' m'' log' → MarkedLaunches (ids :: l) m m'' (log ++ log')

theorem MarkedLaunches.total {l : List (Ids wn)} (h : MarkedLaunches a l m m' log)
    (hi : e.1 < a.rowHeight) (hj : e.2 < a.colHeight) : totalUpdates log e =
      if deviceRating a m e == 0 then 0 else l.countP fun ids => SomeMatches ids e := by
  induction h with
  | nil => exact (ite_self 0).symm
  | @cons ids l m m' m'' log log' hlaunch hrest ih =>
      have hhead := hlaunch.total hi hj
      rw [totalUpdates] at hhead ih ⊢
      rw [List.countP_append, hhead, ih, hlaunch.rating e, List.countP_cons]
      by_cases hsome : SomeMatches ids e
      · simp only [hsome, if_true, decide_true]
        split
        · rfl
        · exact Nat.add_comm _ _
      · simp [hsome]

/-- Two cells of one row or of one column. -/
def InLine (a : Args α) (c c' : MarkedCell) : Prop :=
  (∃ i ∈ rowOf a c, i ∈ rowOf a c') ∨ ∃ j ∈ colOf a c, j ∈ colOf a c'

/-- In any run of a launch one thread accesses a row or a column. -/
theorem one_thread {as : List (Fin wn)} {t : Threads (Fin wn) MarkedCell α}
    (hr : (markedStart a ids m).system.run (markedStart a ids m) as = some t)
    {x y : Fin wn × Access MarkedCell} (hx : x ∈ (markedStart a ids m).accessLog as)
    (hy : y ∈ (markedStart a ids m).accessLog as) (h : InLine a x.2.cell y.2.cell) :
    x.1 = y.1 := by
  have hsep := separate_markedMf a ids
  have htouched {z : Fin wn × Access MarkedCell} (hz : z ∈ (markedStart a ids m).accessLog as) :
      z.2.cell ∈ touched a ids z.1 :=
    (hsep.log_in (s := markedStart a ids m) hr hz).cell_mem (hsep.sub z.1)
  rcases h with ⟨i, hi, hi'⟩ | ⟨j, hj, hj'⟩
  · have hrow := ((htouched hx).1 i hi).symm.trans ((htouched hy).1 i hi')
    exact ids.row.injective (Fin.ext hrow)
  · have hcol := ((htouched hx).2 j hj).symm.trans ((htouched hy).2 j hj')
    exact ids.col.injective (Fin.ext hcol)

/-- A launch updates the entries that have a rating and the residues of a thread,
each once and in one thread.  Over any launches the updates of an entry with a
rating are the launches that match it.  In a launch no row and no column is
accessed by two threads. -/
theorem latin_square (a : Args α) :
    (∀ (ids : Ids wn) (m m' : MarkedCell → α) (log : List (Fin wn × Access MarkedCell)),
      MarkedLaunch a ids m m' log → ∀ e : ℕ × ℕ, e.1 < a.rowHeight → e.2 < a.colHeight →
        ((∃ tid, updates log tid e ≠ 0) ↔ ¬ deviceRating a m e == 0 ∧ ∃ tid, Matches ids tid e) ∧
        ∀ tid, updates log tid e ≠ 0 →
          updates log tid e = 1 ∧ ∀ tid' ≠ tid, updates log tid' e = 0) ∧
    (∀ (l : List (Ids wn)) (m m' : MarkedCell → α) (log : List (Fin wn × Access MarkedCell)),
      MarkedLaunches a l m m' log → ∀ e : ℕ × ℕ, e.1 < a.rowHeight → e.2 < a.colHeight →
        totalUpdates log e =
          if deviceRating a m e == 0 then 0 else l.countP fun ids => ∃ tid, Matches ids tid e) ∧
    ∀ (ids : Ids wn) (m : MarkedCell → α) (as : List (Fin wn)) (t : Threads (Fin wn) MarkedCell α),
      (markedStart a ids m).system.run (markedStart a ids m) as = some t →
      ∀ x ∈ (markedStart a ids m).accessLog as, ∀ y ∈ (markedStart a ids m).accessLog as,
        InLine a x.2.cell y.2.cell → x.1 = y.1 := by
  refine ⟨fun ids m m' log h e hi hj => ?_, fun l m m' log h e hi hj => h.total hi hj,
    fun ids m as t hr x hx y hy hline => one_thread hr hx hy hline⟩
  have hupdates := h.updates hi hj
  have hne {tid : Fin wn} : updates log tid e ≠ 0 ↔
      ¬ deviceRating a m e == 0 ∧ Matches ids tid e := by
    rw [hupdates]
    split
    · simp [*]
    · simp [*]
  refine ⟨by simp only [hne, exists_and_left], fun tid htid => ?_⟩
  obtain ⟨hrated, hmatch⟩ := hne.mp htid
  refine ⟨by rw [hupdates, if_neg hrated, if_pos hmatch], fun tid' hne' => ?_⟩
  rw [hupdates, if_neg hrated, if_neg fun hmatch' => hne' (hmatch'.unique hmatch)]

/-- Two threads on two rows and two columns. -/
def markedSmall : Threads (Fin 2) MarkedCell ℤ :=
  markedStart ⟨⟨2, 3⟩, 1, 2, 2⟩ .small (Sum.elim (toDevice [1, 2] [3, 4] [0, 5, 6, 0]) fun _ => 0)

/-- They take turns at single accesses. -/
def turns : List (Fin 2) := (List.replicate 12 (List.finRange 2)).flatten

/-- One of them updates the entry of the second row and first column. -/
theorem latin_square_small :
    (∃ tid, updates (markedSmall.accessLog turns) tid (1, 0) = 1 ∧
      ∀ tid' ≠ tid, updates (markedSmall.accessLog turns) tid' (1, 0) = 0) ∧
    totalUpdates (markedSmall.accessLog turns ++ []) (1, 0) = 1 ∧
    ∀ x ∈ markedSmall.accessLog turns, ∀ y ∈ markedSmall.accessLog turns,
      InLine (⟨⟨2, 3⟩, 1, 2, 2⟩ : Args ℤ) x.2.cell y.2.cell → x.1 = y.1 := by
  have hlaunch : ∃ t, markedSmall.system.run markedSmall turns = some t ∧ t.Done :=
    ⟨_, rfl, fun i => by fin_cases i <;> rfl⟩
  obtain ⟨t, hr, hd⟩ := hlaunch
  have h : MarkedLaunch ⟨⟨2, 3⟩, 1, 2, 2⟩ .small markedSmall.mem t.mem
      (markedSmall.accessLog turns) := ⟨turns, t, hr, hd, rfl, rfl⟩
  have hsquare := @latin_square ℤ 2 _ _ _ _ _ ⟨⟨2, 3⟩, 1, 2, 2⟩
  obtain ⟨hone, hall, hline⟩ := hsquare
  obtain ⟨hiff, hunique⟩ := hone .small _ _ _ h (1, 0) (by decide) (by decide)
  obtain ⟨tid, htid⟩ := hiff.mpr ⟨by decide, 0, by decide⟩
  have htotal := hall [.small] _ _ _ (.cons h .nil) (1, 0) (by decide) (by decide)
  exact ⟨⟨tid, hunique tid htid⟩, htotal.trans (by decide), hline .small _ turns t hr⟩

end Launch

end StellarBench.Kernel
