import StellarBench.Lib.Threads

/-!
# Access logs and marks

A run of threads shows its accesses to an observer.  Threads that are separate
make the accesses that they make alone (`Separate.log_thread`).

A mark is a store to a cell that no program loads.  It shows in the log which
place of the program a thread has come to.  The runs of a program with marks are
those of the program without them (`Marked.run`, `Marked.lift`).
-/

namespace StellarBench

variable {L M V β γ ι : Type}

/-! ## Accesses -/

/-- An access, without the value. -/
inductive Access (L : Type) where
  | load (l : L)
  | store (l : L)
deriving DecidableEq

namespace Access

/-- The access is within the bounds of a program. -/
def In (R W : Set L) : Access L → Prop
  | load l => l ∈ R
  | store l => l ∈ W

def cell : Access L → L
  | load l => l
  | store l => l

theorem In.cell_mem {R W : Set L} {a : Access L} (h : a.In R W) (hsub : W ⊆ R) : a.cell ∈ R := by
  cases a with
  | load l => exact h
  | store l => exact hsub h

end Access

namespace Prog

variable {R W : Set L}

/-- The next access, if the program has not returned. -/
def access : Prog L V β → List (Access L)
  | ret _ => []
  | load l _ => [.load l]
  | store l _ _ => [.store l]

theorem Within.access {p : Prog L V β} (h : p.Within R W) : ∀ a ∈ p.access, a.In R W := by
  cases p with
  | ret b => exact fun a ha => absurd ha List.not_mem_nil
  | load l k => exact fun a ha => List.mem_singleton.mp ha ▸ h.1
  | store l v k => exact fun a ha => List.mem_singleton.mp ha ▸ h.1

variable [DecidableEq L]

/-- The accesses of a program that runs alone. -/
def accesses : Prog L V β → (L → V) → List (Access L)
  | ret _, _ => []
  | load l k, m => .load l :: (k (m l)).accesses m
  | store l v k, m => .store l :: k.accesses (Function.update m l v)

theorem accesses_bind (p : Prog L V β) (f : β → Prog L V γ) (m : L → V) :
    (p >>= f).accesses m = p.accesses m ++ (f (p.value m)).accesses (p.exec m) := by
  induction p generalizing m with
  | ret b => rfl
  | load l k ih => exact congrArg (Access.load l :: ·) (ih (m l) m)
  | store l v k ih => exact congrArg (Access.store l :: ·) (ih (Function.update m l v))

theorem accesses_next {p p' : Prog L V β} {m m' : L → V} (h : p.next m = some (p', m')) :
    p.accesses m = p.access ++ p'.accesses m' := by
  cases p with
  | ret b => cases h
  | load l k =>
      cases h
      rfl
  | store l v k =>
      cases h
      rfl

theorem Within.accesses {p : Prog L V β} (h : p.Within R W) (m : L → V) :
    ∀ a ∈ p.accesses m, a.In R W := by
  induction p generalizing m with
  | ret b => exact fun a ha => absurd ha List.not_mem_nil
  | load l k ih => exact List.forall_mem_cons.mpr ⟨h.1, ih _ (h.2 _) m⟩
  | store l v k ih => exact List.forall_mem_cons.mpr ⟨h.1, ih h.2 _⟩

/-- What a program accesses depends on what it reads only. -/
theorem Within.accesses_congr {p : Prog L V β} (h : p.Within R W) {m m' : L → V}
    (hm : Set.EqOn m m' R) : p.accesses m = p.accesses m' := by
  induction p generalizing m m' with
  | ret b => rfl
  | load l k ih =>
      rw [Prog.accesses, Prog.accesses, hm h.1, ih _ (h.2 _) hm]
  | store l v k ih =>
      rw [Prog.accesses, Prog.accesses]
      refine congrArg _ (ih h.2 fun l' hl' => ?_)
      by_cases he : l' = l
      · rw [he, Function.update_self, Function.update_self]
      · rw [Function.update_of_ne he, Function.update_of_ne he, hm hl']

end Prog

namespace Threads

variable [DecidableEq ι] [DecidableEq L] {R W : ι → Set L} {s t start : Threads ι L V}
  {as : List ι}

/-- What a step shows: the thread and its access. -/
def shown (s : Threads ι L V) (i : ι) : List (ι × Access L) := (s.prog i).access.map (i, ·)

/-- The accesses that a run shows. -/
abbrev accessLog (s : Threads ι L V) (as : List ι) : List (ι × Access L) :=
  s.system.log shown s as

/-- The accesses of one thread. -/
def ofThread (i : ι) (log : List (ι × Access L)) : List (Access L) :=
  (log.filter fun x => x.1 = i).map Prod.snd

omit [DecidableEq L] in
theorem ofThread_append (i : ι) (log log' : List (ι × Access L)) :
    ofThread i (log ++ log') = ofThread i log ++ ofThread i log' := by
  rw [ofThread, List.filter_append, List.map_append]
  rfl

omit [DecidableEq L] in
theorem ofThread_shown (s : Threads ι L V) (i j : ι) :
    ofThread i (s.shown j) = if j = i then (s.prog j).access else [] := by
  rw [ofThread, shown, List.filter_map, List.map_map]
  by_cases h : j = i
  · subst h
    simp [Function.comp_def]
  · simp [Function.comp_def, h]

theorem count_ofThread (i : ι) (a : Access L) (log : List (ι × Access L)) :
    (ofThread i log).count a = log.count (i, a) := by
  rw [ofThread, List.count, List.count, List.countP_map, List.countP_filter]
  refine List.countP_congr fun x _ => ?_
  simp [Prod.ext_iff, and_comm]

/-- In a complete run of separate threads each makes the accesses that it makes
alone. -/
theorem Separate.log_thread (hs : Separate R W s.prog) (hr : start.system.run s as = some t)
    (hd : t.Done) (i : ι) :
    ofThread i (start.system.log shown s as) = (s.prog i).accesses s.mem := by
  induction as generalizing s with
  | nil =>
      cases hr
      rw [hd i]
      rfl
  | cons j as ih =>
      obtain ⟨u, hu, hr⟩ := System.run_cons_eq_some.mp hr
      obtain ⟨p, hn, hprog⟩ := step_eq_some hu
      rw [System.log_cons hu, ofThread_append, ofThread_shown, ih (hs.step hu) hr, hprog]
      by_cases hj : j = i
      · subst hj
        rw [if_pos rfl, Function.update_self]
        exact (Prog.accesses_next hn).symm
      · -- thread `j` does not write what thread `i` reads
        have hm : Set.EqOn u.mem s.mem (R i) := hs.eqOn (Ne.symm hj) ((hs.within j).next hn).2.2
        rw [if_neg hj, Function.update_of_ne (Ne.symm hj), List.nil_append]
        exact (hs.within i).accesses_congr hm

/-- In any run the accesses of a thread are within its bounds. -/
theorem Separate.log_in (hs : Separate R W s.prog) (hr : start.system.run s as = some t)
    {x : ι × Access L} (hx : x ∈ start.system.log shown s as) : x.2.In (R x.1) (W x.1) := by
  induction as generalizing s with
  | nil => cases hx
  | cons j as ih =>
      obtain ⟨u, hu, hr⟩ := System.run_cons_eq_some.mp hr
      rw [System.log_cons hu] at hx
      rcases List.mem_append.mp hx with hx | hx
      · obtain ⟨a, ha, rfl⟩ := List.mem_map.mp hx
        exact (hs.within j).access a ha
      · exact ih (hs.step hu) hr hx

end Threads

/-! ## Marks -/

namespace Prog

/-- The same program on other cells. -/
def rename (f : L → M) : Prog L V β → Prog M V β
  | ret b => ret b
  | load l k => load (f l) fun v => (k v).rename f
  | store l v k => store (f l) v (k.rename f)

theorem within_rename {f : L → M} {p : Prog L V β} {R W : Set L} (h : p.Within R W) :
    (p.rename f).Within (f '' R) (f '' W) := by
  induction p with
  | ret b => trivial
  | load l k ih => exact ⟨Set.mem_image_of_mem f h.1, fun v => ih v (h.2 v)⟩
  | store l v k ih => exact ⟨Set.mem_image_of_mem f h.1, ih h.2⟩

theorem count_mark_rename [DecidableEq L] [DecidableEq M] (p : Prog L V β) (m : L ⊕ M → V)
    (e : M) : ((p.rename Sum.inl).accesses m).count (.store (.inr e)) = 0 := by
  have hin := (within_rename (f := Sum.inl) (M := L ⊕ M) p.within_univ).accesses m
  rw [List.count_eq_zero]
  intro hmem
  obtain ⟨l, -, hl⟩ := hin _ hmem
  cases hl

/-- The first program is the second with stores to cells `M` that it does not
load. -/
inductive Marked : Prog (L ⊕ M) V β → Prog L V β → Prop where
  | ret (b : β) : Marked (ret b) (ret b)
  | load {l : L} {k : V → Prog (L ⊕ M) V β} {k' : V → Prog L V β} :
      (∀ v, Marked (k v) (k' v)) → Marked (load (.inl l) k) (load l k')
  | store {l : L} {v : V} {p : Prog (L ⊕ M) V β} {p' : Prog L V β} :
      Marked p p' → Marked (store (.inl l) v p) (store l v p')
  | mark {e : M} {v : V} {p : Prog (L ⊕ M) V β} {p' : Prog L V β} :
      Marked p p' → Marked (store (.inr e) v p) p'

theorem marked_rename (p : Prog L V β) : Marked (M := M) (p.rename Sum.inl) p := by
  induction p with
  | ret b => exact .ret b
  | load l k ih => exact .load ih
  | store l v k ih => exact .store ih

theorem Marked.of_ret {b : β} {p : Prog L V β} (h : Marked (.ret b : Prog (L ⊕ M) V β) p) :
    p = .ret b := by
  cases h
  rfl

theorem Marked.bind {p : Prog (L ⊕ M) V β} {p' : Prog L V β} {f : β → Prog (L ⊕ M) V γ}
    {f' : β → Prog L V γ} (hp : Marked p p') (hf : ∀ b, Marked (f b) (f' b)) :
    Marked (p >>= f) (p' >>= f') := by
  induction hp with
  | ret b => exact hf b
  | load _ ih => exact .load ih
  | store _ ih => exact .store ih
  | mark _ ih => exact .mark ih

theorem marked_forM {l : List γ} {f : γ → Prog (L ⊕ M) V PUnit} {f' : γ → Prog L V PUnit}
    (hf : ∀ x, Marked (f x) (f' x)) : Marked (l.forM f) (l.forM f') := by
  induction l with
  | nil => exact .ret _
  | cons x l ih => exact (hf x).bind fun _ => ih

end Prog

namespace Threads

open Prog

variable [DecidableEq ι] [DecidableEq L] [DecidableEq M]

/-- The access of a step that is not a mark. -/
def real : ι × Access (L ⊕ M) → Option (ι × Access L)
  | (i, .load (.inl l)) => some (i, .load l)
  | (i, .store (.inl l)) => some (i, .store l)
  | (_, .load (.inr _)) => none
  | (_, .store (.inr _)) => none

/-- The threads of the first system are those of the second with marks, and the
memories agree. -/
structure Marked (s : Threads ι (L ⊕ M) V) (s' : Threads ι L V) : Prop where
  mem : s'.mem = s.mem ∘ Sum.inl
  prog : ∀ i, Prog.Marked (s.prog i) (s'.prog i)

variable {start s t : Threads ι (L ⊕ M) V} {start' s' t' : Threads ι L V}

omit [DecidableEq ι] [DecidableEq L] [DecidableEq M] in
theorem Marked.done (h : Marked s s') (hd : s.Done) : s'.Done := fun i => by
  have hp := h.prog i
  rw [hd i] at hp
  exact hp.of_ret

omit [DecidableEq L] [DecidableEq M] in
theorem Marked.update (h : Marked s s') {i : ι} {p : Prog (L ⊕ M) V Unit} {p' : Prog L V Unit}
    (hp : Prog.Marked p p') (j : ι) :
    Prog.Marked (Function.update s.prog i p j) (Function.update s'.prog i p' j) := by
  by_cases hj : j = i
  · subst hj
    rw [Function.update_self, Function.update_self]
    exact hp
  · rw [Function.update_of_ne hj, Function.update_of_ne hj]
    exact h.prog j

theorem Marked.mark (h : Marked s s') {i : ι} (e : M) (v : V) {p : Prog (L ⊕ M) V Unit}
    (hp : Prog.Marked p (s'.prog i)) :
    Marked ⟨Function.update s.mem (.inr e) v, Function.update s.prog i p⟩ s' := by
  have hu := h.update (i := i) hp
  rw [Function.update_eq_self] at hu
  refine ⟨?_, hu⟩
  rw [h.mem]
  exact (Function.update_comp_eq_of_forall_ne s.mem v fun _ => Sum.inl_ne_inr).symm

/-- A step of a thread with marks is one of the thread without them, or a mark. -/
theorem Marked.step {i : ι} (h : Marked s s') (start' : Threads ι L V)
    (hs : start.system.step s i = some t) :
    (∃ t', start'.system.step s' i = some t' ∧ Marked t t' ∧
        s'.shown i = (s.shown i).filterMap real) ∨
      Marked t s' ∧ (s.shown i).filterMap real = [] := by
  obtain ⟨p, hn, hprog⟩ := step_eq_some hs
  obtain ⟨m, prog⟩ := t
  cases hprog
  have hp := h.prog i
  generalize hq : s.prog i = q at hp hn
  generalize hq' : s'.prog i = q' at hp
  cases hp with
  | ret b => cases hn
  | @load l k k' hk =>
      cases hn
      have hn' : (s'.prog i).next s'.mem = some (k' (s'.mem l), s'.mem) := by rw [hq', Prog.next]
      refine .inl ⟨_, step_of_next start' hn', ⟨h.mem, ?_⟩, ?_⟩
      · rw [h.mem]
        exact h.update (hk _)
      · rw [shown, shown, hq, hq']
        rfl
  | @store l v r r' hr =>
      cases hn
      have hn' : (s'.prog i).next s'.mem = some (r', Function.update s'.mem l v) := by
        rw [hq', Prog.next]
      refine .inl ⟨_, step_of_next start' hn', ⟨?_, h.update hr⟩, ?_⟩
      · exact h.mem ▸ (Function.update_comp_eq_of_injective s.mem Sum.inl_injective l v).symm
      · rw [shown, shown, hq, hq']
        rfl
  | @mark e v r _ hr =>
      cases hn
      refine .inr ⟨h.mark e v (hq' ▸ hr), ?_⟩
      rw [shown, hq]
      rfl

/-- A run with marks is one without them. -/
theorem Marked.run {as : List ι} (h : Marked s s') (start' : Threads ι L V)
    (hr : start.system.run s as = some t) :
    ∃ as' t', start'.system.run s' as' = some t' ∧ Marked t t' ∧
      start'.system.log shown s' as' = (start.system.log shown s as).filterMap real := by
  induction as generalizing s s' with
  | nil =>
      cases hr
      exact ⟨[], s', rfl, h, rfl⟩
  | cons i as ih =>
      obtain ⟨u, hs, hr⟩ := System.run_cons_eq_some.mp hr
      rw [System.log_cons hs, List.filterMap_append]
      rcases h.step start' hs with ⟨u', hs', hu, hshown⟩ | ⟨hu, hnone⟩
      · obtain ⟨as', t', hr', ht, hlog⟩ := ih hu hr
        refine ⟨i :: as', t', System.run_cons_eq_some.mpr ⟨u', hs', hr'⟩, ht, ?_⟩
        rw [System.log_cons hs', hshown, hlog]
      · obtain ⟨as', t', hr', ht, hlog⟩ := ih hu hr
        exact ⟨as', t', hr', ht, by rw [hlog, hnone, List.nil_append]⟩

/-- A thread that is not at a mark makes the step of the thread without marks. -/
theorem Marked.lift_real {i : ι} {p : Prog (L ⊕ M) V Unit} {m : L ⊕ M → V} (h : Marked s s')
    (start : Threads ι (L ⊕ M) V)
    (hn : (s.prog i).next s.mem = some (p, m)) (hreal : (s.shown i).filterMap real ≠ [])
    (hs : start'.system.step s' i = some t') :
    ∃ as t, start.system.run s as = some t ∧ Marked t t' ∧
      (start.system.log shown s as).filterMap real = s'.shown i := by
  have hstep := step_of_next start hn
  rcases h.step start' hstep with ⟨u', hu', hu, hshown⟩ | ⟨-, hnone⟩
  · cases hs.symm.trans hu'
    refine ⟨[i], _, System.run_cons_eq_some.mpr ⟨_, hstep, rfl⟩, hu, ?_⟩
    rw [System.log_cons hstep, System.log, List.append_nil, hshown]
  · exact absurd hnone hreal

/-- For a step without marks there are the marks before it and the step. -/
theorem Marked.lift_step {i : ι} (h : Marked s s') (start : Threads ι (L ⊕ M) V)
    (hs : start'.system.step s' i = some t') :
    ∃ as t, start.system.run s as = some t ∧ Marked t t' ∧
      (start.system.log shown s as).filterMap real = s'.shown i := by
  have hp := h.prog i
  generalize hq : s.prog i = q at hp
  generalize hq' : s'.prog i = q' at hp
  induction hp generalizing s with
  | ret b =>
      obtain ⟨p, hn, -⟩ := step_eq_some hs
      rw [hq'] at hn
      cases hn
  | @load l k k' hk =>
      have hn : (s.prog i).next s.mem = some (k (s.mem (.inl l)), s.mem) := by rw [hq, Prog.next]
      refine h.lift_real start hn ?_ hs
      rw [shown, hq]
      exact fun h => by cases h
  | @store l v r r' hr =>
      have hn : (s.prog i).next s.mem = some (r, Function.update s.mem (.inl l) v) := by
        rw [hq, Prog.next]
      refine h.lift_real start hn ?_ hs
      rw [shown, hq]
      exact fun h => by cases h
  | @mark e v r r' hr ih =>
      have hn : (s.prog i).next s.mem = some (r, Function.update s.mem (.inr e) v) := by
        rw [hq, Prog.next]
      have hstep := step_of_next start hn
      have hu := h.mark e v (hq' ▸ hr)
      obtain ⟨as, t, hrun, ht, hlog⟩ := ih hu (Function.update_self ..) hq'
      refine ⟨i :: as, t, System.run_cons_eq_some.mpr ⟨_, hstep, hrun⟩, ht, ?_⟩
      rw [System.log_cons hstep, List.filterMap_append, hlog, shown, hq]
      rfl

/-- A run without marks is one with them, up to marks that are left to make. -/
theorem Marked.lift {as : List ι} (h : Marked s s') (start : Threads ι (L ⊕ M) V)
    (hr : start'.system.run s' as = some t') :
    ∃ bs t, start.system.run s bs = some t ∧ Marked t t' ∧
      (start.system.log shown s bs).filterMap real = start'.system.log shown s' as := by
  induction as generalizing s s' with
  | nil =>
      cases hr
      exact ⟨[], s, rfl, h, rfl⟩
  | cons i as ih =>
      obtain ⟨u', hs, hr⟩ := System.run_cons_eq_some.mp hr
      obtain ⟨bs, u, hu, hm, hshown⟩ := h.lift_step start hs
      obtain ⟨cs, t, ht, hm, hlog⟩ := ih hm hr
      refine ⟨bs ++ cs, t, ?_, hm, ?_⟩
      · rw [System.run_append, hu]
        exact ht
      · rw [System.log_append hu, List.filterMap_append, hshown, hlog, System.log_cons hs]

/-- The complete runs with marks are those without them. -/
theorem Marked.complete {order : List ι} (hall : ∀ i, i ∈ order) (h : Marked s s')
    (log : List (ι × Access L)) (m : L → V) :
    (∃ as t, s.system.run s as = some t ∧ t.Done ∧ t.mem ∘ Sum.inl = m ∧
        (s.accessLog as).filterMap real = log) ↔
      ∃ as t', s'.system.run s' as = some t' ∧ t'.Done ∧ t'.mem = m ∧ s'.accessLog as = log := by
  constructor
  · rintro ⟨as, t, hr, hd, rfl, rfl⟩
    obtain ⟨as', t', hr', ht, hlog⟩ := h.run s' hr
    exact ⟨as', t', hr', ht.done hd, ht.mem, hlog⟩
  · rintro ⟨as', t', hr', hd, rfl, rfl⟩
    obtain ⟨as, t, hr, ht, hlog⟩ := h.lift s hr'
    -- only marks are left to make
    obtain ⟨bs, u, hu, hdone⟩ := exists_run s t hall
    obtain ⟨cs, u', hu', hm, hrest⟩ := ht.run s' hu
    have hnone : cs = [] := hd.run_nil hu'
    subst hnone
    cases hu'
    refine ⟨as ++ bs, u, ?_, hdone, hm.mem.symm, ?_⟩
    · rw [System.run_append, hr]
      exact hu
    · rw [accessLog, System.log_append hr, List.filterMap_append, hlog]
      rw [← hrest]
      exact List.append_nil _

end Threads

end StellarBench
