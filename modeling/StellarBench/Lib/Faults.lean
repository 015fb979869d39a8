import StellarBench.Lib.Threads

/-!
# Programs that can fault

A program of type `OptionT (Prog L V) β` can perform an operation that is
undefined.  It is `Safe` if it never does, whatever it loads.  A program that is
lifted from `Prog` is safe, and the parts of a safe program are.
-/

namespace StellarBench

variable {L V β γ : Type}

namespace Prog

/-! ## Results -/

/-- Every result satisfies `P`, whatever the program loads. -/
def All (P : β → Prop) : Prog L V β → Prop
  | ret b => P b
  | load _ k => ∀ v, (k v).All P
  | store _ _ k => k.All P

variable {P Q : β → Prop}

theorem All.mono {p : Prog L V β} (h : p.All P) (hPQ : ∀ b, P b → Q b) : p.All Q := by
  induction p with
  | ret b => exact hPQ b h
  | load l k ih => exact fun v => ih v (h v)
  | store l v k ih => exact ih h

theorem all_bind {p : Prog L V β} {f : β → Prog L V γ} {P : γ → Prop} :
    (p >>= f).All P ↔ p.All fun b => (f b).All P := by
  induction p with
  | ret b => exact Iff.rfl
  | load l k ih => exact forall_congr' ih
  | store l v k ih => exact ih

/-- A program has a result. -/
theorem All.exists_of [Nonempty V] {p : Prog L V β} (h : p.All P) : ∃ b, P b := by
  induction p with
  | ret b => exact ⟨b, h⟩
  | load l k ih =>
      obtain ⟨v⟩ := ‹Nonempty V›
      exact ih v (h v)
  | store l v k ih => exact ih h

end Prog

/-! ## Faults -/

namespace Faults

open Prog

/-- The result of an operation, if it is defined. -/
def check (o : Option β) : OptionT (Prog L V) β := OptionT.mk (pure o)

/-- The value of a cell. -/
def load (l : L) : OptionT (Prog L V) V := OptionT.lift (Prog.get l)

/-- A new value for a cell. -/
def store (l : L) (v : V) : OptionT (Prog L V) Unit := OptionT.lift (Prog.set l v)

/-- No operation is undefined. -/
def Safe (p : OptionT (Prog L V) β) : Prop := p.run.All fun o => o.isSome

variable {p : OptionT (Prog L V) β} {f : β → OptionT (Prog L V) γ}

theorem check_some (b : β) : (check (some b) : OptionT (Prog L V) β) = pure b := rfl

theorem not_safe_none : ¬ Safe (check none : OptionT (Prog L V) β) := by
  intro h
  cases h

theorem safe_lift (p : Prog L V β) : Safe (OptionT.lift p) := by
  induction p with
  | ret b => rfl
  | load l k ih => exact ih
  | store l v k ih => exact ih

/-- What follows an operation is safe for its result. -/
theorem safe_bind : Safe (p >>= f) ↔
    p.run.All fun o => ∃ b, o = some b ∧ Safe (f b) := by
  have hrun : (p >>= f).run = p.run >>= fun o => o.elim (pure none) fun b => (f b).run :=
    OptionT.run_bind ..
  rw [Safe, hrun, all_bind]
  constructor
  · intro h
    refine h.mono fun o ho => ?_
    cases o with
    | none => cases ho
    | some b => exact ⟨b, rfl, ho⟩
  · intro h
    refine h.mono fun o ho => ?_
    obtain ⟨b, rfl, hb⟩ := ho
    exact hb

theorem Safe.left (h : Safe (p >>= f)) : Safe p := by
  refine (safe_bind.mp h).mono fun o ho => ?_
  obtain ⟨b, rfl, -⟩ := ho
  rfl

theorem Safe.right [Nonempty V] (h : Safe (p >>= f)) : ∃ b, Safe (f b) := by
  obtain ⟨-, b, -, hb⟩ := (safe_bind.mp h).exists_of
  exact ⟨b, hb⟩

theorem Safe.check {o : Option β} (h : Safe (check (L := L) (V := V) o >>= f)) :
    ∃ b, o = some b ∧ Safe (f b) := safe_bind.mp h

/-- What follows a load is safe for any value. -/
theorem Safe.load {l : L} {f : V → OptionT (Prog L V) γ} (h : Safe (load l >>= f)) (v : V) :
    Safe (f v) := by
  obtain ⟨b, hb, hf⟩ := safe_bind.mp h v
  cases hb
  exact hf

/-- Each pass of a loop with an accumulator is safe for some value of it. -/
theorem Safe.foldlM [Nonempty V] {l : List γ} {body : β → γ → OptionT (Prog L V) β} {b : β}
    (h : Safe (l.foldlM body b)) : ∀ x ∈ l, ∃ b, Safe (body b x) := by
  induction l generalizing b with
  | nil =>
      intro x hx
      cases hx
  | cons y l ih =>
      intro x hx
      rw [List.foldlM_cons] at h
      obtain ⟨c, hrest⟩ := h.right
      rcases List.mem_cons.mp hx with rfl | hx
      · exact ⟨b, h.left⟩
      · exact ih hrest x hx

-- From here on a safe program is taken apart by the rules above, and is not
-- evaluated.
attribute [irreducible] Safe

/-! ## Lifted loops -/

theorem lift_bind (p : Prog L V β) (f : β → Prog L V γ) :
    OptionT.lift (p >>= f) = OptionT.lift p >>= fun b => OptionT.lift (f b) := by
  apply OptionT.ext
  simp [OptionT.lift]

theorem forM_lift {l : List γ} {body : γ → OptionT (Prog L V) PUnit} {g : γ → Prog L V PUnit}
    (h : ∀ x ∈ l, body x = OptionT.lift (g x)) : l.forM body = OptionT.lift (l.forM g) := by
  induction l with
  | nil => rfl
  | cons x l ih =>
      change body x >>= (fun _ => l.forM body) = OptionT.lift (g x >>= fun _ => l.forM g)
      rw [lift_bind, h x List.mem_cons_self, ih fun y hy => h y (List.mem_cons_of_mem x hy)]

theorem foldlM_lift {l : List γ} {body : β → γ → OptionT (Prog L V) β} {g : β → γ → Prog L V β}
    (h : ∀ b, ∀ x ∈ l, body b x = OptionT.lift (g b x)) (b : β) :
    l.foldlM body b = OptionT.lift (l.foldlM g b) := by
  induction l generalizing b with
  | nil => rfl
  | cons x l ih =>
      rw [List.foldlM_cons, List.foldlM_cons, lift_bind, h b x List.mem_cons_self]
      exact congrArg _ (funext fun c => ih (fun b y hy => h b y (List.mem_cons_of_mem x hy)) c)

end Faults

end StellarBench
