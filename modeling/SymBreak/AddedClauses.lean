import SymBreak.LexOrder

/-!
# The clauses that a constraint adds

`Extendable s s' σ`: on the clauses that `s'` has beyond those of `s`, the values that `σ` gives to
the variables of `s` can be completed on the variables that are new in `s'`. What a constraint adds
does not depend on the clauses posted before (`onto`), so it can be read off a solver without
clauses (`extendable_onto`).

Results:
* `boolArraysLex_onto`, `boolArraysLexLt_onto`: the clauses posted before play no part;
* **`arraysLex_exact`**: the clauses of `boolArraysLex` and of `boolArraysLexLt` are exactly the two
  orders, and complements of each other.
-/

namespace SymBreak.ConstraintSolver

open Cnf

variable {s s' : ConstraintSolver} {F : Formula} {σ τ : Assignment} {arr1 arr2 : List BoolVarRef}

/-- The solver with `F` posted before. -/
def onto (F : Formula) (s : ConstraintSolver) : ConstraintSolver :=
  { s with clauses := F ++ s.clauses }

/-- The solver without its clauses. -/
def bare (s : ConstraintSolver) : ConstraintSolver := { s with clauses := [] }

/-- The values of `σ` can be completed to satisfy the clauses that `s'` adds to `s`. -/
def Extendable (s s' : ConstraintSolver) (σ : Assignment) : Prop :=
  ∃ D τ, s'.clauses = s.clauses ++ D ∧ AgreeBelow s.nVars σ τ ∧ Sat τ D

theorem onto_bare (s : ConstraintSolver) : onto s.clauses s.bare = s := by
  simp [onto, bare]

theorem ok_bare (s : ConstraintSolver) : s.bare.Ok := below_nil _

/-- What is posted onto a solver without clauses is what is added. -/
theorem extendable_onto (h : s'.clauses = s.clauses ++ F) :
    Extendable s s' σ ↔ ∃ τ, AgreeBelow s.nVars σ τ ∧ Sat τ F := by
  constructor
  · rintro ⟨D, τ, hD, hag, hτ⟩
    rw [h, List.append_cancel_left_eq] at hD
    exact ⟨τ, hag, hD ▸ hτ⟩
  · rintro ⟨τ, hag, hτ⟩
    exact ⟨F, τ, h, hag, hτ⟩

/-- **A constraint posted onto a solver without clauses** is exactly what is added elsewhere. -/
theorem Posts.extendable {P : Assignment → Prop} (h : Posts s.bare s' P) (hP : Local s.nVars P) :
    Extendable s (onto s.clauses s') σ ↔ P σ := by
  rw [extendable_onto rfl]
  exact (h.ext.projects (ok_bare s).below hP σ).trans (and_iff_right (by simp [bare]))

/-! ## What was posted before -/

theorem post_onto (D : List (List BoolVarRef)) : (onto F s).post D = onto F (s.post D) := by
  simp [onto, post, List.append_assoc]

theorem newBoolVar_onto :
    (onto F s).newBoolVar = (s.newBoolVar.1, onto F s.newBoolVar.2) := rfl

/-- A loop, when its turns do not depend on what was posted before. -/
theorem foldl_onto {ι : Type*} {f : ConstraintSolver → ι → ConstraintSolver}
    (hf : ∀ s i, f (onto F s) i = onto F (f s i)) (l : List ι) :
    l.foldl f (onto F s) = onto F (l.foldl f s) :=
  List.foldl_hom (onto F) hf

theorem foldl_onto_pair {ι α : Type*} {f : α × ConstraintSolver → ι → α × ConstraintSolver}
    (hf : ∀ a s i, f (a, onto F s) i = ((f (a, s) i).1, onto F (f (a, s) i).2)) (l : List ι) :
    ∀ a s, l.foldl f (a, onto F s) = ((l.foldl f (a, s)).1, onto F (l.foldl f (a, s)).2) := by
  induction l with
  | nil => exact fun _ _ => rfl
  | cons i l ih =>
    intro a s
    rw [List.foldl_cons, List.foldl_cons, hf, ih]

theorem collect_onto {ι : Type*} {g : ConstraintSolver → ι → BoolVarRef × ConstraintSolver}
    (hg : ∀ s i, g (onto F s) i = ((g s i).1, onto F (g s i).2)) (l : List ι) :
    collect g (onto F s) l = ((collect g s l).1, onto F (collect g s l).2) :=
  foldl_onto_pair (fun a s i => by simp only [collectTurn, hg]) l [] s

theorem chainLoop_onto {reif : BoolVarRef → BoolVarRef → BoolVarRef → List (List BoolVarRef)}
    {bvars : List BoolVarRef} (m : Nat) : chainLoop reif bvars (onto F s) m =
      ((chainLoop reif bvars s m).1, onto F (chainLoop reif bvars s m).2) :=
  foldl_onto_pair (fun a s i => by simp only [newBoolVar_onto, post_onto]) _ _ s

theorem boolArrayAndReif_onto (bvars : List BoolVarRef) (t : BoolVarRef) :
    (onto F s).boolArrayAndReif bvars t = onto F (s.boolArrayAndReif bvars t) := by
  rw [boolArrayAndReif_eq, boolArrayAndReif_eq, chainLoop_onto, post_onto]

theorem eqTerm_onto (i : Nat) : eqTerm arr1 arr2 (onto F s) i =
    ((eqTerm arr1 arr2 s i).1, onto F (eqTerm arr1 arr2 s i).2) := by
  simp only [eqTerm, boolIffReif_eq, newBoolVar_onto, post_onto]

theorem hornTurn_onto (eqs : List BoolVarRef) (i : Nat) :
    hornTurn arr1 arr2 eqs (onto F s) i = onto F (hornTurn arr1 arr2 eqs s i) := by
  rw [hornTurn, hornTurn, boolArrayOr_eq, boolArrayOr_eq, post_onto]

section Length

variable (hlen : arr1.length = arr2.length)
include hlen

theorem boolArraysLex_onto (h : s.boolArraysLex arr1 arr2 = .ok s') :
    (onto F s).boolArraysLex arr1 arr2 = .ok (onto F s') := by
  rw [boolArraysLex_eq hlen, Except.ok.injEq] at h ⊢
  rw [← h, collect_onto fun s i => eqTerm_onto i]
  exact foldl_onto (fun s i => hornTurn_onto _ i) _

theorem boolArraysLexLt_onto (h : s.boolArraysLexLt arr1 arr2 = .ok s') :
    (onto F s).boolArraysLexLt arr1 arr2 = .ok (onto F s') := by
  rw [boolArraysLexLt_eq hlen, Except.ok.injEq] at h ⊢
  rw [← h, collect_onto fun s i => eqTerm_onto i]
  simp only
  rw [collect_onto (g := fun s _ => s.newBoolVar) fun s i => newBoolVar_onto]
  simp only [boolArrayOr_eq]
  rw [foldl_onto fun s i => boolArrayAndReif_onto _ _, post_onto]

end Length

/-! ## Exactness -/

theorem values_local {N : Nat} {R : List Bool → List Bool → Prop} (h1 : ∀ b ∈ arr1, RefBelow N b)
    (h2 : ∀ b ∈ arr2, RefBelow N b) : Local N fun σ => R (values σ arr1) (values σ arr2) := by
  intro σ τ hag h
  rwa [← values_congr hag h1, ← values_congr hag h2]

/-- **The two lexicographic constraints are exact.** On arrays of one length the clauses of
`boolArraysLex` can be satisfied iff the values of the first array are at most those of the second,
those of `boolArraysLexLt` iff they are smaller; so exactly one of the two, with the arrays swapped
in the other, can be satisfied. On arrays of different length both throw before they add a clause.
-/
theorem arraysLex_exact (s : ConstraintSolver) {arr1 arr2 : List BoolVarRef}
    (h1 : ∀ b ∈ arr1, RefBelow s.nVars b) (h2 : ∀ b ∈ arr2, RefBelow s.nVars b) :
    (arr1.length = arr2.length → ∃ s₁ s₂ s₃, s.boolArraysLex arr1 arr2 = .ok s₁ ∧
      s.boolArraysLexLt arr1 arr2 = .ok s₂ ∧ s.boolArraysLexLt arr2 arr1 = .ok s₃ ∧ ∀ σ,
        (Extendable s s₁ σ ↔ values σ arr1 ≤ values σ arr2) ∧
        (Extendable s s₂ σ ↔ values σ arr1 < values σ arr2) ∧
        (Extendable s s₁ σ ↔ ¬ Extendable s s₃ σ)) ∧
    (arr1.length ≠ arr2.length → (∃ what, s.boolArraysLex arr1 arr2 =
        .error (.raised (.runtimeError what))) ∧
      ∃ what, s.boolArraysLexLt arr1 arr2 = .error (.raised (.runtimeError what))) := by
  constructor
  · intro hlen
    obtain ⟨s₁, hs₁, hp₁⟩ := posts_arraysLex (ok_bare s) hlen h1 h2
    obtain ⟨s₂, hs₂, hp₂⟩ := posts_arraysLexLt (ok_bare s) hlen h1 h2
    obtain ⟨s₃, hs₃, hp₃⟩ := posts_arraysLexLt (ok_bare s) hlen.symm h2 h1
    have e₁ := boolArraysLex_onto (F := s.clauses) hlen hs₁
    have e₂ := boolArraysLexLt_onto (F := s.clauses) hlen hs₂
    have e₃ := boolArraysLexLt_onto (F := s.clauses) hlen.symm hs₃
    rw [onto_bare] at e₁ e₂ e₃
    refine ⟨_, _, _, e₁, e₂, e₃, fun σ => ⟨hp₁.extendable (values_local h1 h2),
      hp₂.extendable (values_local h1 h2), ?_⟩⟩
    rw [hp₁.extendable (values_local h1 h2), hp₃.extendable (values_local h2 h1), not_lt]
  · intro hlen
    exact ⟨⟨_, if_pos hlen⟩, ⟨_, if_pos hlen⟩⟩

/-- The solver with one variable beside the constant. -/
def oneVar : ConstraintSolver := newModel.newBoolVar.2

theorem arraysLex_exact_oneVar : ∃ s₁ s₂ s₃, oneVar.boolArraysLex [2, 2] [-2, 1] = .ok s₁ ∧
    oneVar.boolArraysLexLt [2, 2] [-2, 1] = .ok s₂ ∧
    oneVar.boolArraysLexLt [-2, 1] [2, 2] = .ok s₃ ∧ ∀ σ,
      (Extendable oneVar s₁ σ ↔ values σ [2, 2] ≤ values σ [-2, 1]) ∧
      (Extendable oneVar s₂ σ ↔ values σ [2, 2] < values σ [-2, 1]) ∧
      (Extendable oneVar s₁ σ ↔ ¬ Extendable oneVar s₃ σ) :=
  have h1 : ∀ b ∈ ([2, 2] : List BoolVarRef), RefBelow oneVar.nVars b := by
    unfold RefBelow
    decide
  have h2 : ∀ b ∈ ([-2, 1] : List BoolVarRef), RefBelow oneVar.nVars b := by
    unfold RefBelow
    decide
  (arraysLex_exact oneVar h1 h2).1 rfl

end SymBreak.ConstraintSolver
