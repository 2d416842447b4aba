import SymBreak.LexOrder
import Mathlib.Data.List.Permutation

/-!
# Loops guided by counterexamples

Both canonizing algorithms ask the solver for a pair of graphs and a permutation, as long as there
is one, and post a constraint that excludes the permutation found
(`CanonizingLexImplicationsAlg.cc:74-84`, `CanonizingPermutationSetAlg.cc:38-56`). `CeLoop` is the
equation of such a loop.

Results:
* **`CeLoop.spec`**: the loop ends, since every counterexample is a permutation not found before,
  and then no graph that satisfies the constraints of those found has a counterexample.
-/

namespace SymBreak

open Cnf Matrix ConstraintSolver

variable {n : Nat} {α : Type}

/-- `loop` asks the solver for a model; if there is one, it posts the constraint of the permutation
decoded, and goes on with that in the result. -/
structure CeLoop (solver : SatSolver) (perm : List IntVarRef)
    (post : ConstraintSolver → List Nat → Except (Halt Exn) ConstraintSolver)
    (add : α → List Nat → α) (loop : Nat → ConstraintSolver → α → Except (Halt Exn) α) : Prop where
  turn : ∀ fuel s acc model, solver s.clauses = .l_True model →
    loop (fuel + 1) s acc = (post s (s.decodeIntArray model perm) >>= fun s' =>
      loop fuel s' (add acc (s.decodeIntArray model perm)))
  stop : ∀ fuel s acc, solver s.clauses = .l_False → loop (fuel + 1) s acc = .ok acc

/-- The constraint of a permutation, `Holds q`, is posted on the first graph. -/
def PostsOnFirst (post : ConstraintSolver → List Nat → Except (Halt Exn) ConstraintSolver)
    (Holds : List Nat → Graph n → Prop) : Prop :=
  ∀ {s : ConstraintSolver} {R : Graph n → Graph n → List Nat → Prop} {q : List Nat},
    Posted n s R → q.Perm (List.range n) →
      ∃ s', post s q = .ok s' ∧ Posted n s' fun A B p => R A B p ∧ Holds q A

/-- `R` relates counterexamples only: the first graph violates the constraint of the permutation,
and satisfies those of the permutations `banned`. -/
structure Counterexamples (Holds : List Nat → Graph n → Prop) (banned : List (List Nat))
    (R : Graph n → Graph n → List Nat → Prop) : Prop where
  violates : ∀ A B p, p.Perm (List.range n) → R A B p → ¬ Holds p A
  banned : ∀ A B p, R A B p → ∀ q ∈ banned, Holds q A

section Spec

variable {solver : SatSolver}
  {post : ConstraintSolver → List Nat → Except (Halt Exn) ConstraintSolver}
  {add : α → List Nat → α} {loop : Nat → ConstraintSolver → α → Except (Halt Exn) α}
  {Holds : List Nat → Graph n → Prop} {R : Graph n → Graph n → List Nat → Prop}
  {banned : List (List Nat)} {s : ConstraintSolver}

theorem Counterexamples.ban (h : Counterexamples Holds banned R) (q : List Nat) :
    Counterexamples Holds (banned ++ [q]) fun A B p => R A B p ∧ Holds q A where
  violates A B p hp hR := h.violates A B p hp hR.1
  banned A B p hR := List.forall_mem_append.mpr
    ⟨h.banned A B p hR.1, List.forall_mem_singleton.mpr hR.2⟩

/-- **The loop ends, without a counterexample left.** The permutations found, on top of those
banned, are all different. -/
theorem CeLoop.spec (hloop : CeLoop solver (declare n).perm post add loop)
    (hsolver : solver.Correct) (hpost : PostsOnFirst post Holds) (h : Posted n s R)
    (hR : Counterexamples Holds banned R) (hnd : banned.Nodup)
    (hperm : ∀ p ∈ banned, p.Perm (List.range n)) (acc : α) :
    ∃ found : List (List Nat), (banned ++ found).Nodup ∧ (∀ p ∈ found, p.Perm (List.range n)) ∧
      Converges (fun fuel => loop fuel s acc) (.ok (found.foldl add acc)) ∧
      ∀ A B p, p.Perm (List.range n) → R A B p → ¬ ∀ q ∈ found, Holds q A := by
  -- every turn leaves one permutation fewer that is not banned
  induction hr : (List.range n).permutations.length - banned.length using Nat.strong_induction_on
    generalizing R s banned acc with
  | _ room ih =>
  by_cases hsat : Satisfiable s.clauses
  · obtain ⟨model, hm⟩ := hsolver.l_True _ hsat
    obtain ⟨hp, hRp⟩ := h.model (hsolver.model _ _ hm)
    set q := s.decodeIntArray model (declare n).perm with hq
    have hfresh : q ∉ banned := fun hmem => hR.violates _ _ q hp hRp (hR.banned _ _ q hRp q hmem)
    have hnd' : (banned ++ [q]).Nodup :=
      List.nodup_append_comm.mp (List.nodup_cons.mpr ⟨hfresh, hnd⟩)
    have hperm' : ∀ p ∈ banned ++ [q], p.Perm (List.range n) :=
      List.forall_mem_append.mpr ⟨hperm, List.forall_mem_singleton.mpr hp⟩
    have hroom : (banned ++ [q]).length ≤ (List.range n).permutations.length :=
      (List.subperm_of_subset hnd' fun p hp => List.mem_permutations.mpr (hperm' p hp)).length_le
    rw [List.length_append, List.length_singleton] at hroom
    obtain ⟨s', hs', h'⟩ := hpost h hp
    obtain ⟨found, hfnd, hfp, hconv, hnone⟩ := ih _ (by
      rw [List.length_append, List.length_singleton]
      omega) h' (hR.ban q) hnd' hperm' (add acc q) rfl
    refine ⟨q :: found, by rwa [List.append_assoc] at hfnd, List.forall_mem_cons.mpr ⟨hp, hfp⟩, ?_,
      fun A B p hpp hRAB hall => ?_⟩
    · refine Converges.succ (hconv.congr fun fuel => ?_)
      rw [hloop.turn fuel s acc model hm, ← hq, hs', ok_bind]
    · obtain ⟨hhead, htail⟩ := List.forall_mem_cons.mp hall
      exact hnone A B p hpp ⟨hRAB, hhead⟩ htail
  · refine ⟨[], by simpa using hnd, by simp, ?_, fun A B p hp hRAB => ?_⟩
    · exact Converges.succ (Converges.of_eq fun fuel => hloop.stop fuel s acc
        (hsolver.l_False _ hsat))
    · obtain ⟨τ, hτ, -⟩ := h.exists_model hp hRAB
      exact absurd ⟨τ, hτ⟩ hsat

end Spec

end SymBreak
