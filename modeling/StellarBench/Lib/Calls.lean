import Mathlib.Tactic

/-!
# Programs that call a library

A program is a tree of calls, and the library chooses the reply to each.  It ends
with a result or it crashes.  A loop is unrolled up to a bound, where the program
is cut off.

`Runs` are the runs of a program, for all replies, with their calls and replies.
An observer follows a run.  `wp` says what it has seen at the end of every run
(`wp_iff`), and is computed along the program.
-/

namespace StellarBench

variable {C S β γ : Type} {R : C → Type}

/-- A program that calls `C`, with replies `R`, and returns a `β`. -/
inductive Calls (C : Type) (R : C → Type) (β : Type) : Type where
  | ret (b : β)
  | call (c : C) (k : R c → Calls C R β)
  | crash
  | cut

/-- A call with its reply. -/
abbrev Exchange (C : Type) (R : C → Type) : Type := Σ c, R c

/-- How a run ends. -/
inductive Ending (β : Type) where
  | returned (b : β)
  | crashed
  | cut

namespace Calls

def bind : Calls C R β → (β → Calls C R γ) → Calls C R γ
  | ret b, f => f b
  | call c k, f => call c fun r => (k r).bind f
  | crash, _ => crash
  | cut, _ => cut

instance : Monad (Calls C R) where
  pure := ret
  bind := bind

/-- One call. -/
def perform (c : C) : Calls C R (R c) := call c ret

/-! ## Runs -/

/-- The program can make these calls, with these replies, and end so. -/
inductive Runs : Calls C R β → List (Exchange C R) → Ending β → Prop where
  | ret (b : β) : Runs (ret b) [] (.returned b)
  | call {c : C} {k : R c → Calls C R β} (r : R c) {l : List (Exchange C R)} {o : Ending β} :
      Runs (k r) l o → Runs (call c k) (⟨c, r⟩ :: l) o
  | crash : Runs crash [] .crashed
  | cut : Runs cut [] .cut

/-- The run with the replies of a given library, which knows how many calls there
have been. -/
def play (lib : ℕ → (c : C) → R c) : Calls C R β → ℕ → List (Exchange C R) × Ending β
  | ret b, _ => ([], .returned b)
  | call c k, n =>
      let rest := (k (lib n c)).play lib (n + 1)
      (⟨c, lib n c⟩ :: rest.1, rest.2)
  | crash, _ => ([], .crashed)
  | cut, _ => ([], .cut)

theorem runs_call {c : C} {k : R c → Calls C R β} {l : List (Exchange C R)} {o : Ending β} :
    Runs (call c k) l o ↔ ∃ r l', l = ⟨c, r⟩ :: l' ∧ Runs (k r) l' o := by
  constructor
  · rintro (_ | ⟨r, hr⟩)
    exact ⟨r, _, rfl, hr⟩
  · rintro ⟨r, l', rfl, hr⟩
    exact .call r hr

theorem runs_play (lib : ℕ → (c : C) → R c) (p : Calls C R β) (n : ℕ) :
    Runs p (p.play lib n).1 (p.play lib n).2 := by
  induction p generalizing n with
  | ret b => exact .ret b
  | call c k ih => exact .call _ (ih _ (n + 1))
  | crash => exact .crash
  | cut => exact .cut

/-! ## What a program calls -/

/-- The program calls `K` only. -/
def All (K : C → Prop) : Calls C R β → Prop
  | ret _ => True
  | call c k => K c ∧ ∀ r, (k r).All K
  | crash => True
  | cut => True

variable {K : C → Prop}

theorem All.bind {p : Calls C R β} {f : β → Calls C R γ} (hp : p.All K)
    (hf : ∀ b, (f b).All K) : (p >>= f).All K := by
  induction p with
  | ret b => exact hf b
  | call c k ih => exact ⟨hp.1, fun r => ih r (hp.2 r)⟩
  | crash => trivial
  | cut => trivial

theorem All.ite {P : Prop} [Decidable P] {p q : Calls C R β} (hp : p.All K) (hq : q.All K) :
    (if P then p else q).All K := by
  split
  · exact hp
  · exact hq

theorem All.mono {K' : C → Prop} (hK : ∀ c, K c → K' c) {p : Calls C R β} (h : p.All K) :
    p.All K' := by
  induction p with
  | ret b => trivial
  | call c k ih => exact ⟨hK c h.1, fun r => ih r (h.2 r)⟩
  | crash => trivial
  | cut => trivial

theorem All.of_runs {p : Calls C R β} {l : List (Exchange C R)} {o : Ending β} (h : p.All K)
    (hr : Runs p l o) : ∀ e ∈ l, K e.1 := by
  induction hr with
  | ret b => exact fun e he => absurd he List.not_mem_nil
  | call r _ ih => exact List.forall_mem_cons.mpr ⟨h.1, ih (h.2 r)⟩
  | crash => exact fun e he => absurd he List.not_mem_nil
  | cut => exact fun e he => absurd he List.not_mem_nil

/-! ## Weakest preconditions -/

/-- An observer in state `s` has seen `Q` at the end of every run. -/
def wp (step : S → Exchange C R → S) (Q : Ending β → S → Prop) : Calls C R β → S → Prop
  | ret b, s => Q (.returned b) s
  | call c k, s => ∀ r, (k r).wp step Q (step s ⟨c, r⟩)
  | crash, s => Q .crashed s
  | cut, s => Q .cut s

variable {step : S → Exchange C R → S} {Q Q' : Ending β → S → Prop} {p : Calls C R β} {s : S}

/-- The rule for a whole run. -/
theorem wp_iff : p.wp step Q s ↔ ∀ l o, Runs p l o → Q o (l.foldl step s) := by
  induction p generalizing s with
  | ret b =>
      constructor
      · rintro h l o ⟨⟩
        exact h
      · exact fun h => h [] _ (.ret b)
  | call c k ih =>
      constructor
      · rintro h _ o (_ | ⟨r, hr⟩)
        exact (ih r).mp (h r) _ o hr
      · exact fun h r => (ih r).mpr fun l o hr => h _ o (.call r hr)
  | crash =>
      constructor
      · rintro h l o ⟨⟩
        exact h
      · exact fun h => h [] _ .crash
  | cut =>
      constructor
      · rintro h l o ⟨⟩
        exact h
      · exact fun h => h [] _ .cut

theorem wp_mono (hQ : ∀ o t, Q o t → Q' o t) (h : p.wp step Q s) : p.wp step Q' s :=
  wp_iff.mpr fun l o hr => hQ o _ (wp_iff.mp h l o hr)

/-- The rule for one program after another. -/
theorem wp_bind {f : β → Calls C R γ} {Q : Ending γ → S → Prop} :
    (p >>= f).wp step Q s ↔ p.wp step (fun o t =>
      match o with
      | .returned b => (f b).wp step Q t
      | .crashed => Q .crashed t
      | .cut => Q .cut t) s := by
  induction p generalizing s with
  | ret b => exact Iff.rfl
  | call c k ih => exact forall_congr' fun r => ih r
  | crash => exact Iff.rfl
  | cut => exact Iff.rfl

/-- The rule for a branch. -/
theorem wp_if {P : Prop} [Decidable P] {q : Calls C R β} (hp : P → p.wp step Q s)
    (hq : ¬ P → q.wp step Q s) : (if P then p else q).wp step Q s := by
  by_cases h : P
  · rw [if_pos h]
    exact hp h
  · rw [if_neg h]
    exact hq h

/-- The rule for a call that the observer does not see. -/
theorem wp_unseen {c : C} {k : R c → Calls C R β} (hc : ∀ r, step s ⟨c, r⟩ = s)
    (hk : ∀ r, (k r).wp step Q s) : (perform c >>= k).wp step Q s := by
  intro r
  rw [hc r]
  exact hk r

/-- The rule for a program that leaves the observer as it was, before another. -/
theorem wp_unseen_bind {f : β → Calls C R γ} {Q : Ending γ → S → Prop}
    (hp : p.wp step (fun _ t => t = s) s) (hends : ∀ o, Q o s)
    (hf : ∀ b, (f b).wp step Q s) : (p >>= f).wp step Q s := by
  rw [wp_bind]
  refine wp_mono (fun o t ht => ?_) hp
  subst ht
  cases o with
  | returned b => exact hf b
  | crashed => exact hends .crashed
  | cut => exact hends .cut

/-- The rule for an invariant of the observer: what the calls keep holds at the
end. -/
theorem All.wp {I : S → Prop} (hI : ∀ c, K c → ∀ r s, I s → I (step s ⟨c, r⟩)) (h : p.All K)
    (hs : I s) : p.wp step (fun _ t => I t) s := by
  induction p generalizing s with
  | ret b => exact hs
  | call c k ih => exact fun r => ih r (h.2 r) (hI c h.1 r s hs)
  | crash => exact hs
  | cut => exact hs

/-- The observer that only remembers the calls. -/
def log (l : List (Exchange C R)) (e : Exchange C R) : List (Exchange C R) := l ++ [e]

theorem of_wp_log {Q : Ending β → List (Exchange C R) → Prop} {l : List (Exchange C R)}
    {o : Ending β} (h : p.wp log Q []) (hr : Runs p l o) : Q o l := by
  have hend : Q o (l.foldl (fun l e => l ++ [e]) []) := wp_iff.mp h l o hr
  rwa [List.foldl_append_eq_append, ← List.flatMap_def, List.flatMap_singleton',
    List.nil_append] at hend

theorem wp_invariant {I : S → Prop} (hI : ∀ s e, I s → I (step s e)) (hs : I s) :
    p.wp step (fun _ t => I t) s := by
  induction p generalizing s with
  | ret b => exact hs
  | call c k ih => exact fun r => ih r (hI s ⟨c, r⟩ hs)
  | crash => exact hs
  | cut => exact hs

/-! ## Contracts -/

/-- The program calls `K` only, does not crash and returns `P`. -/
def Safe (K : C → Prop) (P : β → Prop) : Calls C R β → Prop
  | ret b => P b
  | call c k => K c ∧ ∀ r, (k r).Safe K P
  | crash => False
  | cut => True

section

variable {P : β → Prop}

theorem Safe.bind {P' : γ → Prop} {f : β → Calls C R γ} (hp : p.Safe K P)
    (hf : ∀ b, P b → (f b).Safe K P') : (p >>= f).Safe K P' := by
  induction p with
  | ret b => exact hf b hp
  | call c k ih => exact ⟨hp.1, fun r => ih r (hp.2 r)⟩
  | crash => exact hp
  | cut => trivial

theorem Safe.ite {A : Prop} [Decidable A] {q : Calls C R β} (hp : A → p.Safe K P)
    (hq : ¬ A → q.Safe K P) : (if A then p else q).Safe K P := by
  split
  · next h => exact hp h
  · next h => exact hq h

theorem Safe.all (hp : p.Safe K P) : p.All K := by
  induction p with
  | ret b => trivial
  | call c k ih => exact ⟨hp.1, fun r => ih r (hp.2 r)⟩
  | crash => trivial
  | cut => trivial

/-- The rule for a contract and an invariant of the observer. -/
theorem Safe.wp {I : S → Prop} (hI : ∀ c, K c → ∀ r s, I s → I (step s ⟨c, r⟩))
    (hret : ∀ b t, P b → I t → Q (.returned b) t) (hcut : ∀ t, I t → Q .cut t)
    (hp : p.Safe K P) (hs : I s) : p.wp step Q s := by
  induction p generalizing s with
  | ret b => exact hret b s hp hs
  | call c k ih => exact fun r => ih r (hp.2 r) (hI c hp.1 r s hs)
  | crash => exact hp.elim
  | cut => exact hcut s hs

end

/-! ## Two observers -/

/-- Two observers follow the same run. -/
def both {T : Type} (f : S → Exchange C R → S) (g : T → Exchange C R → T) (s : S × T)
    (e : Exchange C R) : S × T :=
  (f s.1 e, g s.2 e)

theorem foldl_both {T : Type} (f : S → Exchange C R → S) (g : T → Exchange C R → T)
    (l : List (Exchange C R)) (s : S × T) :
    l.foldl (both f g) s = (l.foldl f s.1, l.foldl g s.2) := by
  induction l generalizing s with
  | nil => rfl
  | cons e l ih => exact ih (both f g s e)

end Calls

end StellarBench
