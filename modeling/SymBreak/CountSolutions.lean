import SymBreak.Lib.ModelCount
import SymBreak.Posting

/-!
# Counting solutions

Model of `ConstraintSolver::countSolutions` (`core/ConstraintSolver.cc:470-482`): as long as there
is a model, its values of the projected references are ruled out by a clause, and counted. The loop
takes fuel; the counter, an `int`, is unbounded here.

Results:
* `blockingClause_eq`: the clause posted is the one against the values in the model;
* **`countSolutions_exact`**: the loop ends with the number of different value vectors.
-/

namespace SymBreak.ConstraintSolver

open Cnf

/-- `blockingClause` (`ConstraintSolver.cc:473-477`) -/
def blockingClause (model : Assignment) (projected : List BoolVarRef) : List BoolVarRef :=
  projected.map fun b => if getBoolAssignment model b = true then neg b else b

/-- `while (solve() == l_True)` (`ConstraintSolver.cc:472-480`): the counter, and the solver with
the clauses posted on the way. -/
def countLoop (solver : SatSolver) (projected : List BoolVarRef) :
    Nat → ConstraintSolver → Nat → Except (Halt Exn) (Nat × ConstraintSolver)
  | 0, _, _ => .error .outOfFuel
  | fuel + 1, s, count =>
    match solver s.clauses with
    | .l_True model =>
      countLoop solver projected fuel (s.boolArrayOr (blockingClause model projected)) (count + 1)
    | _ => .ok (count, s)

/-- `countSolutions` (`ConstraintSolver.cc:470-482`) -/
def countSolutions (solver : SatSolver) (s : ConstraintSolver) (projected : List BoolVarRef)
    (fuel : Nat) : Except (Halt Exn) (Nat × ConstraintSolver) :=
  countLoop solver projected fuel s 0

variable {solver : SatSolver} {projected : List BoolVarRef}

/-- **The clause posted** is the one against the values in the model. -/
theorem blockingClause_eq (h : ∀ b ∈ projected, b ≠ 0) (model : Assignment) :
    (blockingClause model projected).map toLit = block model (projected.map toLit) := by
  unfold blockingClause block
  rw [List.map_map, List.map_map]
  refine List.map_congr_left fun b hb => ?_
  simp only [Function.comp_apply]
  by_cases hv : getBoolAssignment model b = true
  · rw [if_pos hv, ← toLit_neg (h b hb)]
    exact (if_pos hv).symm
  · rw [if_neg hv]
    exact (if_neg hv).symm

/-- **The loop** adds the number of vectors that are left. -/
theorem countLoop_converges (hsolver : solver.Correct) (h : ∀ b ∈ projected, b ≠ 0) :
    ∀ (k : Nat) (s : ConstraintSolver), (projections s.clauses (projected.map toLit)).ncard = k →
      ∀ count, ∃ s', Converges (fun fuel => countLoop solver projected fuel s count)
        (.ok (count + k, s')) := by
  intro k
  induction k with
  | zero =>
    intro s hk count
    have hunsat := hsolver.l_False _ (ncard_projections_eq_zero.mp hk)
    refine ⟨s, Converges.succ (Converges.of_eq fun fuel => ?_)⟩
    rw [countLoop, hunsat]
    rfl
  | succ k ih =>
    intro s hk count
    have hsat : Satisfiable s.clauses := by
      by_contra hunsat
      rw [ncard_projections_eq_zero.mpr hunsat] at hk
      omega
    obtain ⟨model, hmodel⟩ := hsolver.l_True _ hsat
    -- one vector fewer after the clause
    have hclauses : (s.boolArrayOr (blockingClause model projected)).clauses =
        s.clauses ++ [block model (projected.map toLit)] := by
      rw [← blockingClause_eq h]
      rfl
    have hleft : (projections s.clauses (projected.map toLit)).ncard = _ :=
      ncard_projections_block (hsolver.model _ _ hmodel)
    obtain ⟨s', hconv⟩ := ih (s.boolArrayOr (blockingClause model projected))
      (by rw [hclauses]; omega) (count + 1)
    rw [Nat.add_assoc, Nat.add_comm 1 k] at hconv
    refine ⟨s', Converges.succ (hconv.congr fun fuel => ?_)⟩
    rw [countLoop, hmodel]

/-- **`countSolutions`** terminates and returns the number of different value vectors of the
projected references in the models of the clauses posted before the call. -/
theorem countSolutions_exact (hsolver : solver.Correct) (s : ConstraintSolver)
    (projected : List BoolVarRef) (h : ∀ b ∈ projected, b ≠ 0) :
    {v : List Bool | ∃ σ, Sat σ s.clauses ∧ projected.map (getBoolAssignment σ) = v}.Finite ∧
    ∃ s', Converges (fun fuel => countSolutions solver s projected fuel)
      (.ok ({v : List Bool | ∃ σ, Sat σ s.clauses ∧
        projected.map (getBoolAssignment σ) = v}.ncard, s')) := by
  have hset : {v : List Bool | ∃ σ, Sat σ s.clauses ∧ projected.map (getBoolAssignment σ) = v} =
      projections s.clauses (projected.map toLit) := by
    unfold projections evals
    simp only [List.map_map]
    rfl
  rw [hset]
  obtain ⟨s', hconv⟩ := countLoop_converges hsolver h _ s rfl 0
  rw [Nat.zero_add] at hconv
  exact ⟨finite_projections _ _, s', hconv⟩

/-- A variable projected on twice, once complemented. -/
theorem countSolutions_exact_pair : ∃ s', Converges
    (fun fuel => countSolutions bruteForceSolver newModel.newBoolVar.2 [2, -2] fuel)
    (.ok (2, s')) := by
  obtain ⟨-, s', hconv⟩ := countSolutions_exact bruteForceSolver_correct
    newModel.newBoolVar.2 [2, -2] (by decide)
  have hset : {v : List Bool | ∃ σ, Sat σ newModel.newBoolVar.2.clauses ∧
      [2, -2].map (getBoolAssignment σ) = v} = {[true, false], [false, true]} := by
    ext v
    constructor
    · rintro ⟨σ, -, rfl⟩
      cases h : σ 1 <;> simp [getBoolAssignment, toLit, Lit.eval, h]
    · rintro (rfl | rfl)
      · exact ⟨fun _ => true, by decide, by decide⟩
      · exact ⟨fun v => v == 0, by decide, by decide⟩
  rw [hset, Set.ncard_pair (by decide)] at hconv
  exact ⟨s', hconv⟩

end SymBreak.ConstraintSolver
