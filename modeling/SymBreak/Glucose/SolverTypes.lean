import SymBreak.ConstraintSolver

/-!
# The types of the SAT solver

Model of `core/SolverTypes.h` and of the records of `core/Solver.h`: lifted Booleans, clauses by
reference, watchers. A clause reference is the number of the clause in the order of allocation; the
activity of a clause, a `float`, is left out.
-/

namespace SymBreak

open Cnf

/-! ## Lifted Booleans -/

/-- `lbool ^ bool` (`SolverTypes.h:107`) -/
def LBool.xor : LBool → Bool → LBool
  | .l_Undef, _ => .l_Undef
  | b, false => b
  | .l_True, true => .l_False
  | .l_False, true => .l_True

/-- `lbool(bool)` (`SolverTypes.h:103`) -/
def LBool.ofBool (b : Bool) : LBool := if b then .l_True else .l_False

@[simp] theorem LBool.xor_eq_undef {b : LBool} {s : Bool} : b.xor s = .l_Undef ↔ b = .l_Undef := by
  cases b <;> cases s <;> simp [LBool.xor]

@[simp] theorem LBool.xor_ofBool_self (s : Bool) : (LBool.ofBool !s).xor s = .l_True := by
  cases s <;> rfl

theorem LBool.xor_not_eq_true {b : LBool} {s : Bool} :
    b.xor (!s) = .l_True ↔ b.xor s = .l_False := by
  cases b <;> cases s <;> simp [LBool.xor]

namespace Glucose

abbrev Var := Nat

instance : Inhabited Lit := ⟨⟨0, false⟩⟩

@[simp] theorem neg_neg (p : Lit) : p.neg.neg = p := by
  cases p
  simp [Lit.neg]

@[simp] theorem var_neg (p : Lit) : p.neg.var = p.var := rfl

theorem neg_ne (p : Lit) : p.neg ≠ p := by
  intro h
  have := congrArg Lit.sign h
  simp [Lit.neg] at this

theorem neg_inj {p q : Lit} : p.neg = q.neg ↔ p = q :=
  ⟨fun h => by rw [← neg_neg p, h, neg_neg], congrArg Lit.neg⟩

/-- Two literals of one variable. -/
theorem eq_or_eq_neg {p q : Lit} (h : p.var = q.var) : p = q ∨ p = q.neg := by
  obtain ⟨v, s⟩ := p
  obtain ⟨w, t⟩ := q
  obtain rfl : v = w := h
  by_cases hst : s = t
  · exact Or.inl (by rw [hst])
  · exact Or.inr (by simp [Lit.neg, Bool.eq_not.mpr hst])

/-! ## Clauses -/

/-- `CRef` (`SolverTypes.h:129`) -/
abbrev CRef := Nat

/-- `Clause` (`SolverTypes.h:131-208`); `mark` is set when the clause is removed. -/
structure Clause where
  lits : List Lit
  learnt : Bool
  mark : Bool
  lbd : Nat
  canBeDel : Bool
  deriving Inhabited

/-- A new clause (`SolverTypes.h:149-167`). -/
def Clause.new (ps : List Lit) (learnt : Bool) : Clause where
  lits := ps
  learnt := learnt
  mark := false
  lbd := 0
  canBeDel := true

def Clause.size (c : Clause) : Nat := c.lits.length

/-- `c[i]` -/
def Clause.get (c : Clause) (i : Nat) : Lit := c.lits.getD i default

/-- Swap `c[0]` and `c[1]`. -/
def Clause.swap (c : Clause) : Clause :=
  { c with lits := (c.lits.set 0 (c.get 1)).set 1 (c.get 0) }

/-- `Watcher` (`Solver.h:182-188`) -/
structure Watcher where
  cref : CRef
  blocker : Lit
  deriving DecidableEq

/-- `VarData` (`Solver.h:179`) -/
structure VarData where
  reason : Option CRef
  level : Nat

/-! ## Watcher lists -/

/-- `OccLists` (`SolverTypes.h:283-339`): a list for every literal, and the lists that may hold
watchers of clauses removed since they were cleaned. -/
structure OccLists where
  occs : Lit → List Watcher
  dirty : Lit → Bool

namespace OccLists

variable (ws : OccLists)

/-- `ws[p].push(w)` -/
def push (p : Lit) (w : Watcher) : OccLists :=
  { ws with occs := Function.update ws.occs p (ws.occs p ++ [w]) }

/-- `smudge` -/
def smudge (p : Lit) : OccLists := { ws with dirty := Function.update ws.dirty p true }

/-- `cleanAll`, where `deleted` is `WatcherDeleted` -/
def cleanAll (deleted : Watcher → Bool) : OccLists where
  occs p := if ws.dirty p then (ws.occs p).filter fun w => !deleted w else ws.occs p
  dirty _ := false

end OccLists

end Glucose

end SymBreak
