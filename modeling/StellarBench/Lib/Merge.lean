import Mathlib.Tactic

/-!
# Merges of sequential programs

A family of components each has a program, a list of actions.  A merge of the
programs is a list of tagged actions whose part with tag `i` is the program of
`i`.  When an action changes its own component only, all merges of the same
programs give the same result (`runTagged_congr`).
-/

namespace StellarBench

variable {ι σ A : Type} [DecidableEq ι]

/-- The actions with tag `i`. -/
def tagged (i : ι) (as : List (ι × A)) : List A :=
  as.filterMap fun x => if x.1 = i then some x.2 else none

/-- Run tagged actions on a family of components. -/
def runTagged (f : σ → A → σ) (w : ι → σ) (as : List (ι × A)) : ι → σ :=
  as.foldl (fun w x => Function.update w x.1 (f (w x.1) x.2)) w

/-- Run tagged actions that can fail. -/
def tryTagged (f : σ → A → Option σ) (w : ι → σ) (as : List (ι × A)) : Option (ι → σ) :=
  as.foldlM (fun w x => (f (w x.1) x.2).map (Function.update w x.1)) w

/-- The programs one after the other, in the order of `order`. -/
def oneByOne (order : List ι) (prog : ι → List A) : List (ι × A) :=
  order.flatMap fun i => (prog i).map (Prod.mk i)

theorem tagged_cons_self (i : ι) (a : A) (as : List (ι × A)) :
    tagged i ((i, a) :: as) = a :: tagged i as := by
  rw [tagged, List.filterMap_cons, if_pos rfl, tagged]

theorem tagged_cons_of_ne {i j : ι} (h : j ≠ i) (a : A) (as : List (ι × A)) :
    tagged i ((j, a) :: as) = tagged i as := by
  rw [tagged, List.filterMap_cons, if_neg h, tagged]

theorem mem_tagged {i : ι} {a : A} {as : List (ι × A)} : a ∈ tagged i as ↔ (i, a) ∈ as := by
  simp [tagged, List.mem_filterMap]

/-- A component runs its own program. -/
theorem runTagged_apply (f : σ → A → σ) (w : ι → σ) (as : List (ι × A)) (i : ι) :
    runTagged f w as i = (tagged i as).foldl f (w i) := by
  induction as generalizing w with
  | nil => rfl
  | cons x as ih =>
      obtain ⟨j, a⟩ := x
      have hstep : runTagged f w ((j, a) :: as) =
          runTagged f (Function.update w j (f (w j) a)) as := rfl
      rw [hstep, ih]
      by_cases h : j = i
      · subst h
        rw [tagged_cons_self, List.foldl_cons, Function.update_self]
      · rw [tagged_cons_of_ne h, Function.update_of_ne (Ne.symm h)]

/-- Merges of the same programs give the same result. -/
theorem runTagged_congr (f : σ → A → σ) (w : ι → σ) {as bs : List (ι × A)}
    (h : ∀ i, tagged i as = tagged i bs) : runTagged f w as = runTagged f w bs := by
  funext i
  rw [runTagged_apply, runTagged_apply, h]

theorem tagged_map_mk_self (i : ι) (l : List A) : tagged i (l.map (Prod.mk i)) = l := by
  induction l with
  | nil => rfl
  | cons a l ih => rw [List.map_cons, tagged_cons_self, ih]

theorem tagged_map_mk_of_ne {i j : ι} (h : j ≠ i) (l : List A) :
    tagged i (l.map (Prod.mk j)) = [] := by
  induction l with
  | nil => rfl
  | cons a l ih => rw [List.map_cons, tagged_cons_of_ne h, ih]

/-- The programs one after the other are a merge, in any order. -/
theorem tagged_oneByOne {i : ι} {order : List ι} (prog : ι → List A) (hn : order.Nodup)
    (hi : i ∈ order) : tagged i (oneByOne order prog) = prog i := by
  have happ (as bs : List (ι × A)) : tagged i (as ++ bs) = tagged i as ++ tagged i bs :=
    List.filterMap_append
  have hnil {l : List ι} (hl : i ∉ l) : tagged i (oneByOne l prog) = [] := by
    induction l with
    | nil => rfl
    | cons j l ih =>
        rw [List.mem_cons, not_or] at hl
        rw [oneByOne, List.flatMap_cons, happ, tagged_map_mk_of_ne (Ne.symm hl.1),
          List.nil_append]
        exact ih hl.2
  induction order with
  | nil => cases hi
  | cons j l ih =>
      rw [List.nodup_cons] at hn
      rw [oneByOne, List.flatMap_cons, happ, ← oneByOne]
      by_cases h : j = i
      · subst h
        rw [tagged_map_mk_self, hnil hn.1, List.append_nil]
      · have hl : i ∈ l := (List.mem_cons.mp hi).resolve_left (Ne.symm h)
        rw [tagged_map_mk_of_ne h, List.nil_append, ih hn.2 hl]

end StellarBench
