import StellarBench.Lib.System

/-!
# Threads over a shared memory

A thread is a program of loads and stores.  The threads of a system share one
memory and take turns at single accesses, in any order.

When no thread writes what another reads or writes, a cell ends with the value
that its own thread gives it alone (`Outcome`).  This fixes the final memory, so
every complete interleaving ends where the threads end one after the other
(`run_eq_inOrder`).
-/

namespace StellarBench

variable {L V β γ : Type}

/-! ## Programs -/

/-- A program that accesses cells `L` with values `V` and returns a `β`. -/
inductive Prog (L V β : Type) : Type where
  | ret (b : β)
  | load (l : L) (k : V → Prog L V β)
  | store (l : L) (v : V) (k : Prog L V β)

namespace Prog

def bind : Prog L V β → (β → Prog L V γ) → Prog L V γ
  | ret b, f => f b
  | load l k, f => load l fun v => (k v).bind f
  | store l v k, f => store l v (k.bind f)

instance : Monad (Prog L V) where
  pure := ret
  bind := bind

theorem bind_ret (p : Prog L V β) : p.bind ret = p := by
  induction p with
  | ret b => rfl
  | load l k ih =>
      rw [bind]
      exact congrArg (load l) (funext ih)
  | store l v k ih => rw [bind, ih]

theorem bind_assoc' {δ : Type} (p : Prog L V β) (f : β → Prog L V γ) (g : γ → Prog L V δ) :
    (p.bind f).bind g = p.bind fun b => (f b).bind g := by
  induction p with
  | ret b => rfl
  | load l k ih => exact congrArg (load l) (funext ih)
  | store l v k ih => exact congrArg (store l v) ih

instance : LawfulMonad (Prog L V) := LawfulMonad.mk' _
  (fun p => bind_ret p)
  (fun _ _ => rfl)
  bind_assoc'

/-- A loop over pairs is two nested loops. -/
theorem forM_product {δ : Type} (l : List γ) (l' : List δ) (f : γ × δ → Prog L V PUnit) :
    (l ×ˢ l').forM f = l.forM fun i => l'.forM fun j => f (i, j) := by
  induction l with
  | nil => rfl
  | cons i l ih =>
      have hmap : (l'.map fun j => (i, j)).forM f = l'.forM fun j => f (i, j) :=
        List.forM_map ..
      have happend (l₁ l₂ : List (γ × δ)) :
          (l₁ ++ l₂).forM f = l₁.forM f >>= fun _ => l₂.forM f := List.forM_append
      rw [List.product_cons, happend]
      rw [ih, hmap]
      rfl

/-- The value of a cell. -/
def get (l : L) : Prog L V V := load l ret

/-- A new value for a cell. -/
def set (l : L) (v : V) : Prog L V Unit := store l v (ret ())

/-- The program reads in `R` and writes in `W`, whatever it loads. -/
def Within (R W : Set L) : Prog L V β → Prop
  | ret _ => True
  | load l k => l ∈ R ∧ ∀ v, (k v).Within R W
  | store l _ k => l ∈ W ∧ k.Within R W

variable {R W : Set L}

theorem Within.mono {R' W' : Set L} (hR : R ⊆ R') (hW : W ⊆ W') {p : Prog L V β}
    (h : p.Within R W) : p.Within R' W' := by
  induction p with
  | ret b => trivial
  | load l k ih => exact ⟨hR h.1, fun v => ih v (h.2 v)⟩
  | store l v k ih => exact ⟨hW h.1, ih h.2⟩

theorem within_univ (p : Prog L V β) : p.Within Set.univ Set.univ := by
  induction p with
  | ret b => trivial
  | load l k ih => exact ⟨trivial, ih⟩
  | store l v k ih => exact ⟨trivial, ih⟩

theorem Within.bind {p : Prog L V β} {f : β → Prog L V γ} (hp : p.Within R W)
    (hf : ∀ b, (f b).Within R W) : (p >>= f).Within R W := by
  induction p with
  | ret b => exact hf b
  | load l k ih => exact ⟨hp.1, fun v => ih v (hp.2 v)⟩
  | store l v k ih => exact ⟨hp.1, ih hp.2⟩

theorem within_get {l : L} (h : l ∈ R) : (get l : Prog L V V).Within R W :=
  ⟨h, fun _ => trivial⟩

theorem within_set {l : L} (h : l ∈ W) (v : V) : (set l v).Within R W :=
  ⟨h, trivial⟩

theorem within_foldlM {l : List γ} {f : β → γ → Prog L V β}
    (hf : ∀ b, ∀ x ∈ l, (f b x).Within R W) (b : β) : (l.foldlM f b).Within R W := by
  induction l generalizing b with
  | nil => trivial
  | cons x l ih =>
      rw [List.foldlM_cons]
      exact (hf b x List.mem_cons_self).bind
        (ih fun b y hy => hf b y (List.mem_cons_of_mem x hy))

theorem within_forM {l : List γ} {f : γ → Prog L V PUnit} (hf : ∀ x ∈ l, (f x).Within R W) :
    (l.forM f).Within R W := by
  induction l with
  | nil => trivial
  | cons x l ih =>
      exact (hf x List.mem_cons_self).bind
        fun _ => ih fun y hy => hf y (List.mem_cons_of_mem x hy)

/-! ## A program alone -/

variable [DecidableEq L]

/-- The memory after a program that runs alone. -/
def exec : Prog L V β → (L → V) → L → V
  | ret _, m => m
  | load l k, m => (k (m l)).exec m
  | store l v k, m => k.exec (Function.update m l v)

/-- The result of a program that runs alone. -/
def value : Prog L V β → (L → V) → β
  | ret b, _ => b
  | load l k, m => (k (m l)).value m
  | store l v k, m => k.value (Function.update m l v)

theorem exec_bind (p : Prog L V β) (f : β → Prog L V γ) (m : L → V) :
    (p >>= f).exec m = (f (p.value m)).exec (p.exec m) := by
  induction p generalizing m with
  | ret b => rfl
  | load l k ih => exact ih (m l) m
  | store l v k ih => exact ih (Function.update m l v)

theorem value_bind (p : Prog L V β) (f : β → Prog L V γ) (m : L → V) :
    (p >>= f).value m = (f (p.value m)).value (p.exec m) := by
  induction p generalizing m with
  | ret b => rfl
  | load l k ih => exact ih (m l) m
  | store l v k ih => exact ih (Function.update m l v)

/-- The passes of a loop one after the other. -/
theorem exec_forM (f : γ → Prog L V PUnit) (l : List γ) (m : L → V) :
    (l.forM f).exec m = l.foldl (fun m x => (f x).exec m) m := by
  induction l generalizing m with
  | nil => rfl
  | cons x l ih =>
      change (f x >>= fun _ => l.forM f).exec m = _
      rw [exec_bind, ih, List.foldl_cons]

/-- A loop with an accumulator whose passes store nothing. -/
theorem foldlM_of_loads {f : β → γ → Prog L V β} (hf : ∀ b x m, (f b x).exec m = m)
    (l : List γ) (b : β) (m : L → V) :
    (l.foldlM f b).exec m = m ∧
      (l.foldlM f b).value m = l.foldl (fun b x => (f b x).value m) b := by
  induction l generalizing b with
  | nil => exact ⟨rfl, rfl⟩
  | cons x l ih =>
      rw [List.foldlM_cons, exec_bind, value_bind, hf, List.foldl_cons]
      exact ih _

/-- The next access of a program. -/
def next : Prog L V β → (L → V) → Option (Prog L V β × (L → V))
  | ret _, _ => none
  | load l k, m => some (k (m l), m)
  | store l v k, m => some (k, Function.update m l v)

/-- A program changes what it writes only. -/
theorem Within.exec_apply {p : Prog L V β} (h : p.Within R W) {l : L} (hl : l ∉ W) (m : L → V) :
    p.exec m l = m l := by
  induction p generalizing m with
  | ret b => rfl
  | load l' k ih => exact ih _ (h.2 _) m
  | store l' v k ih =>
      have hne : l ≠ l' := by
        rintro rfl
        exact hl h.1
      rw [exec, ih h.2, Function.update_of_ne hne]

/-- What a program does depends on what it reads only. -/
theorem Within.exec_congr {p : Prog L V β} (h : p.Within R W) {m m' : L → V}
    (hm : Set.EqOn m m' R) : Set.EqOn (p.exec m) (p.exec m') R := by
  induction p generalizing m m' with
  | ret b => exact hm
  | load l k ih =>
      rw [exec, exec, hm h.1]
      exact ih _ (h.2 _) hm
  | store l v k ih =>
      refine ih h.2 fun l' hl' => ?_
      by_cases he : l' = l
      · rw [he, Function.update_self, Function.update_self]
      · rw [Function.update_of_ne he, Function.update_of_ne he, hm hl']

/-- One access: the rest stays within the bounds and completes the program, and
the other cells are kept. -/
theorem Within.next {p p' : Prog L V β} {m m' : L → V} (h : p.Within R W)
    (hs : p.next m = some (p', m')) :
    p'.Within R W ∧ p'.exec m' = p.exec m ∧ ∀ l ∉ W, m' l = m l := by
  cases p with
  | ret b => cases hs
  | load l k =>
      cases hs
      exact ⟨h.2 _, rfl, fun _ _ => rfl⟩
  | store l v k =>
      cases hs
      refine ⟨h.2, rfl, fun l' hl' => Function.update_of_ne ?_ _ _⟩
      rintro rfl
      exact hl' h.1

/-! ## Mixed pieces -/

section Pieces

variable {ι : Type} {R W : ι → Set L} {f : γ → Prog L V PUnit} {own : ι → γ → Prop}
  [∀ i, DecidablePred (own i)]

/-- Pieces of programs, each of an owner that reads in its `R` and writes in its `W`,
and no owner writes what another may read. -/
structure Pieces (R W : ι → Set L) (f : γ → Prog L V PUnit) (own : ι → γ → Prop) (l : List γ) :
    Prop where
  owner : ∀ x ∈ l, ∃ i, own i x
  within : ∀ x ∈ l, ∀ i, own i x → (f x).Within (R i) (W i)
  sub : ∀ i, W i ⊆ R i
  apart : ∀ i j, i ≠ j → ∀ c ∈ W i, c ∉ R j

omit [DecidableEq L] [∀ i, DecidablePred (own i)] in
theorem Pieces.tail {x : γ} {l : List γ} (h : Pieces R W f own (x :: l)) : Pieces R W f own l :=
  ⟨fun y hy => h.owner y (List.mem_cons_of_mem x hy),
    fun y hy => h.within y (List.mem_cons_of_mem x hy), h.sub, h.apart⟩

/-- What an owner reads comes from its own pieces. -/
theorem Pieces.eqOn {l : List γ} (h : Pieces R W f own l) (i : ι) {m m' : L → V}
    (hm : Set.EqOn m m' (R i)) :
    Set.EqOn (l.foldl (fun m x => (f x).exec m) m)
      ((l.filter fun x => own i x).foldl (fun m x => (f x).exec m) m') (R i) := by
  induction l generalizing m m' with
  | nil => exact hm
  | cons x l ih =>
      by_cases hx : own i x
      · have hcons : ((x :: l).filter fun x => own i x) = x :: l.filter fun x => own i x :=
          List.filter_cons_of_pos (by simpa using hx)
        rw [hcons]
        exact ih h.tail ((h.within x List.mem_cons_self i hx).exec_congr hm)
      · have hcons : ((x :: l).filter fun x => own i x) = l.filter fun x => own i x :=
          List.filter_cons_of_neg (by simpa using hx)
        rw [hcons]
        obtain ⟨j, hj⟩ := h.owner x List.mem_cons_self
        have hne : j ≠ i := by
          rintro rfl
          exact hx hj
        -- the piece of another owner writes nothing that `i` reads
        have hkeep : Set.EqOn ((f x).exec m) m' (R i) := by
          intro c hc
          have hc' : c ∉ W j := fun hw => h.apart j i hne c hw hc
          rw [(h.within x List.mem_cons_self j hj).exec_apply hc']
          exact hm hc
        exact ih h.tail hkeep

omit [∀ i, DecidablePred (own i)] in
/-- What nobody writes is kept. -/
theorem Pieces.outside {l : List γ} (h : Pieces R W f own l) {c : L} (hc : ∀ i, c ∉ W i)
    (m : L → V) : l.foldl (fun m x => (f x).exec m) m c = m c := by
  induction l generalizing m with
  | nil => rfl
  | cons x l ih =>
      obtain ⟨j, hj⟩ := h.owner x List.mem_cons_self
      rw [List.foldl_cons, ih h.tail]
      exact (h.within x List.mem_cons_self j hj).exec_apply (hc j) m

/-- Only the order of the pieces of each owner matters. -/
theorem Pieces.foldl_congr {l l' : List γ} (h : Pieces R W f own l) (h' : Pieces R W f own l')
    (heq : ∀ i, (l.filter fun x => own i x) = l'.filter fun x => own i x) (m : L → V) :
    l.foldl (fun m x => (f x).exec m) m = l'.foldl (fun m x => (f x).exec m) m := by
  funext c
  by_cases hc : ∃ i, c ∈ W i
  · obtain ⟨i, hi⟩ := hc
    have hl := h.eqOn i (Set.eqOn_refl m (R i)) (h.sub i hi)
    rw [heq i] at hl
    exact hl.trans (h'.eqOn i (Set.eqOn_refl m (R i)) (h'.sub i hi)).symm
  · have hc : ∀ i, c ∉ W i := fun i hi => hc ⟨i, hi⟩
    rw [h.outside hc, h'.outside hc]

end Pieces

end Prog

/-! ## Threads -/

/-- A memory and what is left of each thread. -/
structure Threads (ι L V : Type) where
  mem : L → V
  prog : ι → Prog L V Unit

namespace Threads

variable {ι : Type} [DecidableEq ι] [DecidableEq L]

/-- The system that starts in `start`.  An action is the thread that moves. -/
def system (start : Threads ι L V) : System (Threads ι L V) ι where
  init s := s = start
  step s i := ((s.prog i).next s.mem).map fun r => ⟨r.2, Function.update s.prog i r.1⟩

/-- All threads have returned. -/
def Done (s : Threads ι L V) : Prop := ∀ i, s.prog i = .ret ()

/-- The threads one after the other, each to its end. -/
def inOrder (prog : ι → Prog L V Unit) (order : List ι) (m : L → V) : L → V :=
  order.foldl (fun m i => (prog i).exec m) m

/-- Thread `i` reads in `R i` and writes in `W i`, and no thread writes what
another may read. -/
structure Separate (R W : ι → Set L) (prog : ι → Prog L V Unit) : Prop where
  within : ∀ i, (prog i).Within (R i) (W i)
  sub : ∀ i, W i ⊆ R i
  apart : ∀ i j, i ≠ j → ∀ l ∈ W i, l ∉ R j

/-- In `m` a cell has the value that its thread alone makes of `s`. -/
structure Outcome (W : ι → Set L) (s : Threads ι L V) (m : L → V) : Prop where
  inside : ∀ i, ∀ l ∈ W i, m l = (s.prog i).exec s.mem l
  outside : ∀ l, (∀ i, l ∉ W i) → m l = s.mem l

variable {R W : ι → Set L} {s t : Threads ι L V} {m m' : L → V}

omit [DecidableEq ι] in
theorem Outcome.unique (h : Outcome W s m) (h' : Outcome W s m') : m = m' := by
  funext l
  by_cases hl : ∃ i, l ∈ W i
  · obtain ⟨i, hi⟩ := hl
    rw [h.inside i l hi, h'.inside i l hi]
  · have hout : ∀ i, l ∉ W i := fun i hi => hl ⟨i, hi⟩
    rw [h.outside l hout, h'.outside l hout]

omit [DecidableEq ι] in
theorem Done.outcome (h : s.Done) : Outcome W s s.mem :=
  ⟨fun i l _ => by rw [h i, Prog.exec], fun _ _ => rfl⟩

theorem step_eq_some {start : Threads ι L V} {i : ι} (h : start.system.step s i = some t) :
    ∃ p, (s.prog i).next s.mem = some (p, t.mem) ∧ t.prog = Function.update s.prog i p := by
  obtain ⟨⟨p, m⟩, hn, rfl⟩ := Option.map_eq_some_iff.mp h
  exact ⟨p, hn, rfl⟩

theorem step_of_next (start : Threads ι L V) {i : ι} {p : Prog L V Unit} {m : L → V}
    (h : (s.prog i).next s.mem = some (p, m)) :
    start.system.step s i = some ⟨m, Function.update s.prog i p⟩ := by
  simp only [system, h, Option.map_some]

theorem Done.run_nil {start : Threads ι L V} {as : List ι} (h : s.Done)
    (hr : start.system.run s as = some t) : as = [] := by
  cases as with
  | nil => rfl
  | cons i as =>
      obtain ⟨u, hs, -⟩ := System.run_cons_eq_some.mp hr
      obtain ⟨p, hn, -⟩ := step_eq_some hs
      rw [h i] at hn
      cases hn

omit [DecidableEq ι] [DecidableEq L] in
/-- What is written by thread `i` only is the same for the reads of thread `j`. -/
theorem Separate.eqOn {prog : ι → Prog L V Unit} (hs : Separate R W prog) {i j : ι} (hj : j ≠ i)
    (hm : ∀ l ∉ W i, m' l = m l) : Set.EqOn m' m (R j) := fun l hl =>
  hm l fun hw => hs.apart i j hj.symm l hw hl

theorem Separate.step {start : Threads ι L V} {i : ι} (hs : Separate R W s.prog)
    (h : start.system.step s i = some t) : Separate R W t.prog := by
  obtain ⟨p, hn, ht⟩ := step_eq_some h
  refine ⟨fun j => ?_, hs.sub, hs.apart⟩
  rw [ht]
  by_cases hj : j = i
  · subst hj
    rw [Function.update_self]
    exact ((hs.within j).next hn).1
  · rw [Function.update_of_ne hj]
    exact hs.within j

/-- What the threads make of the state after a step, they make of the state
before it. -/
theorem Outcome.step {start : Threads ι L V} {i : ι} (hs : Separate R W s.prog)
    (h : start.system.step s i = some t) (ho : Outcome W t m) : Outcome W s m := by
  obtain ⟨p, hn, ht⟩ := step_eq_some h
  obtain ⟨-, he, hf⟩ := (hs.within i).next hn
  refine ⟨fun j l hl => ?_, fun l hl => ?_⟩
  · rw [ho.inside j l hl, ht]
    by_cases hj : j = i
    · subst hj
      rw [Function.update_self, he]
    · -- Thread `i` did not write what thread `j` reads.
      have hm : Set.EqOn t.mem s.mem (R j) := hs.eqOn hj hf
      rw [Function.update_of_ne hj]
      exact (hs.within j).exec_congr hm (hs.sub j hl)
  · rw [ho.outside l hl]
    exact hf l (hl i)

/-- A complete interleaving ends in the outcome of its first state. -/
theorem Separate.outcome_run {start : Threads ι L V} (hs : Separate R W s.prog) {as : List ι}
    (hr : start.system.run s as = some t) (hd : t.Done) : Outcome W s t.mem := by
  induction as generalizing s with
  | nil =>
      cases hr
      exact hd.outcome
  | cons i as ih =>
      obtain ⟨u, hu, hr⟩ := System.run_cons_eq_some.mp hr
      exact (ih (hs.step hu) hr).step hs hu

omit [DecidableEq ι] in
/-- Threads that run one after the other make the same of each cell. -/
theorem Separate.inOrder_apply {prog : ι → Prog L V Unit} (hs : Separate R W prog)
    {order : List ι} (hn : order.Nodup) (m : L → V) :
    (∀ i ∈ order, ∀ l ∈ W i, inOrder prog order m l = (prog i).exec m l) ∧
      ∀ l, (∀ i ∈ order, l ∉ W i) → inOrder prog order m l = m l := by
  induction order generalizing m with
  | nil => exact ⟨fun i hi => absurd hi List.not_mem_nil, fun _ _ => rfl⟩
  | cons i order ih =>
      rw [List.nodup_cons] at hn
      obtain ⟨hin, hout⟩ := ih hn.2 ((prog i).exec m)
      refine ⟨fun j hmem l hl => ?_, fun l hl => ?_⟩
      · rcases List.mem_cons.mp hmem with rfl | hj
        · refine hout l fun k hk hlk => hs.apart j k ?_ l hl (hs.sub k hlk)
          rintro rfl
          exact hn.1 hk
        · have hij : j ≠ i := by
            rintro rfl
            exact hn.1 hj
          have hm : Set.EqOn ((prog i).exec m) m (R j) :=
            hs.eqOn hij fun l hl => (hs.within i).exec_apply hl m
          exact (hin j hj l hl).trans ((hs.within j).exec_congr hm (hs.sub j hl))
      · have hl' : ∀ k ∈ order, l ∉ W k := fun k hk => hl k (List.mem_cons_of_mem i hk)
        exact (hout l hl').trans ((hs.within i).exec_apply (hl i List.mem_cons_self) m)

/-- Every complete interleaving of separate threads ends in the memory that the
threads give one after the other. -/
theorem Separate.run_eq_inOrder (hs : Separate R W s.prog) {order as : List ι}
    (hn : order.Nodup) (hall : ∀ i, i ∈ order) (hr : s.system.run s as = some t)
    (hd : t.Done) : t.mem = inOrder s.prog order s.mem := by
  obtain ⟨hin, hout⟩ := hs.inOrder_apply hn s.mem
  exact (hs.outcome_run hr hd).unique
    ⟨fun i => hin i (hall i), fun l hl => hout l fun i _ => hl i⟩

/-! ## Complete interleavings exist -/

/-- A thread can run to its end while the others wait. -/
theorem exists_run_thread (start s : Threads ι L V) (i : ι) :
    ∃ as, start.system.run s as =
      some ⟨(s.prog i).exec s.mem, Function.update s.prog i (.ret ())⟩ := by
  obtain ⟨m, prog⟩ := s
  generalize hp : prog i = p
  induction p generalizing m prog with
  | ret u =>
      refine ⟨[], ?_⟩
      rw [System.run_nil, ← hp, Function.update_eq_self]
      simp only [hp, Prog.exec]
  | load l k ih =>
      obtain ⟨as, has⟩ := ih (m l) m (Function.update prog i (k (m l))) (Function.update_self ..)
      refine ⟨i :: as, System.run_cons_eq_some.mpr ⟨_, ?_, has.trans ?_⟩⟩
      · simp only [system, hp, Prog.next, Option.map_some]
      · simp only [hp, Function.update_self, Function.update_idem, Prog.exec]
  | store l v k ih =>
      obtain ⟨as, has⟩ := ih (Function.update m l v) (Function.update prog i k)
        (Function.update_self ..)
      refine ⟨i :: as, System.run_cons_eq_some.mpr ⟨_, ?_, has.trans ?_⟩⟩
      · simp only [system, hp, Prog.next, Option.map_some]
      · simp only [hp, Function.update_self, Function.update_idem, Prog.exec]

/-- Some interleaving is complete: that of the threads one after the other. -/
theorem exists_run (start s : Threads ι L V) {order : List ι} (hall : ∀ i, i ∈ order) :
    ∃ as t, start.system.run s as = some t ∧ t.Done := by
  have h : ∀ (l : List ι) (s : Threads ι L V), (∀ i, i ∉ l → s.prog i = .ret ()) →
      ∃ as t, start.system.run s as = some t ∧ t.Done := by
    intro l
    induction l with
    | nil => exact fun s hs => ⟨[], s, rfl, fun i => hs i List.not_mem_nil⟩
    | cons i l ih =>
        intro s hs
        obtain ⟨as, has⟩ := exists_run_thread start s i
        obtain ⟨bs, t, hbs, hd⟩ := ih
          ⟨(s.prog i).exec s.mem, Function.update s.prog i (.ret ())⟩ fun j hj => by
            by_cases hji : j = i
            · subst hji
              exact Function.update_self ..
            · exact (Function.update_of_ne hji ..).trans (hs j (by simp [hji, hj]))
        refine ⟨as ++ bs, t, ?_, hd⟩
        rw [System.run_append, has]
        exact hbs
  exact h order s fun i hi => absurd (hall i) hi

end Threads

end StellarBench
