import SymBreak.CounterexampleLoop

/-!
# Computing canonizing permutation sets

Model of `CanonizingPermutationSetAlg` (`core/CanonizingPermutationSetAlg.cc`): as long as some
graph `g1` has an isomorphic `g2` whose string is smaller, the permutation between them joins the
set, and `g1` is asked to be at most its image under it. The object keeps its solver, which
`compute` leaves as the constructor made it; the loop takes fuel.

Results:
* `compute_spec`: one call;
* **`calls_canonizing`**: every call on one object terminates with a canonizing set of different
  permutations.
-/

namespace SymBreak.CanonizingPermutationSetAlg

open Cnf Matrix ConstraintSolver Graph

variable (solver : SatSolver) (n : Nat) (idx : CanonicalIndexing)

/-- `while (m_solver.solve() == l_True)` (`CanonizingPermutationSetAlg.cc:38-56`) -/
def findPermutations (g1 : Matrix BoolVarRef) (perm : List IntVarRef) :
    Nat → ConstraintSolver → List (List Nat) → Except (Halt Exn) (List (List Nat))
  | 0, _, _ => .error .outOfFuel
  | fuel + 1, s, canonizingSet =>
    match solver s.clauses with
    | .l_True model => do
      let cePerm := s.decodeIntArray model perm
      let permutedG1 := g1.permute cePerm
      let s ← s.boolArraysLex (indexing idx g1) (indexing idx permutedG1)
      findPermutations g1 perm fuel s (canonizingSet ++ [cePerm])
    | _ => .ok canonizingSet

/-- `compute()` (`CanonizingPermutationSetAlg.cc:17-61`) on an object with solver `s`: the set, and
the solver left behind. -/
def compute (s : ConstraintSolver) (fuel : Nat) :
    Except (Halt Exn) (List (List Nat) × ConstraintSolver) := do
  let (g1, s) := s.newAdjMatrix n
  let (g2, s) := s.newAdjMatrix n
  let (perm, s) := s.newPermutation n
  let s := s.isomorphic g1 g2 perm
  let s ← s.boolArraysLexLt (indexing idx g2) (indexing idx g1)
  let canonizingSet ← findPermutations solver idx g1 perm fuel s []
  .ok (canonizingSet, newModel)

/-- One call of `compute()` after another on one object, with the SAT solvers of the calls. -/
def calls (fuel : Nat) : List SatSolver → ConstraintSolver →
    Except (Halt Exn) (List (List (List Nat)))
  | [], _ => .ok []
  | solver :: solvers, s => do
    let (canonizingSet, s) ← compute solver n idx s fuel
    let canonizingSets ← calls fuel solvers s
    .ok (canonizingSet :: canonizingSets)

/-- The graphs whose string is at most that of each of these images are those of minimal string. -/
def CanonizingSet (P : List (List Nat)) : Prop :=
  ∀ G : Graph n, (∀ p ∈ P, G.string idx ≤ indexing idx (G.matrix.permute p)) ↔ LexMin idx G

variable {solver n idx}

/-! ## The constraints -/

/-- **The string of `g1` is at most that of its image.** -/
theorem posts_lexImage : PostsOnFirst (n := n)
    (fun s q =>
      s.boolArraysLex (indexing idx (declare n).g1) (indexing idx ((declare n).g1.permute q)))
    fun q A => A.string idx ≤ indexing idx (A.matrix.permute q) := by
  intro s R q h hq
  exact h.postStrings (stringRefs_g1 n idx) (stringRefs_permute idx hq le_rfl) fun hlen b1 b2 =>
    posts_arraysLex h.ok hlen b1 b2

/-- **The string of `g2` is smaller.** -/
theorem posted_lexLt (n : Nat) (idx : CanonicalIndexing) :
    ∃ s, (isoModel n).solver.boolArraysLexLt (indexing idx (declare n).g2)
      (indexing idx (declare n).g1) = .ok s ∧
      Posted n s fun A B p => IsImage A B p ∧ B.string idx < A.string idx :=
  (posted_iso n).postStrings (stringRefs_g2 n idx) (stringRefs_g1 n idx) fun hlen b2 b1 =>
    posts_arraysLexLt (posted_iso n).ok hlen b2 b1

/-! ## The calls -/

theorem ceLoop_findPermutations (solver : SatSolver) (idx : CanonicalIndexing)
    (g1 : Matrix BoolVarRef) (perm : List IntVarRef) :
    CeLoop solver perm (fun s q => s.boolArraysLex (indexing idx g1) (indexing idx (g1.permute q)))
      (fun acc q => acc ++ [q]) (findPermutations solver idx g1 perm) where
  turn fuel s acc model hm := by rw [findPermutations, hm]
  stop fuel s acc hm := by rw [findPermutations, hm]

theorem foldl_concat (found set : List (List Nat)) :
    found.foldl (fun acc q => acc ++ [q]) set = set ++ found := by
  induction found generalizing set with
  | nil => exact (List.append_nil set).symm
  | cons q found ih => rw [List.foldl_cons, ih, List.append_assoc, List.singleton_append]

/-- **One call**, on an object as the constructor made it: the set is canonizing, and the object is
as before. -/
theorem compute_spec (hsolver : solver.Correct) (n : Nat) (idx : CanonicalIndexing) :
    ∃ P : List (List Nat), Converges (fun fuel => compute solver n idx newModel fuel)
        (.ok (P, newModel)) ∧ P.Nodup ∧ (∀ p ∈ P, p.Perm (List.range n)) ∧
      CanonizingSet n idx P := by
  obtain ⟨s, hs, h⟩ := posted_lexLt n idx
  have hR : Counterexamples (fun q A => A.string idx ≤ indexing idx (A.matrix.permute q)) []
      fun (A B : Graph n) p => IsImage A B p ∧ B.string idx < A.string idx := by
    refine ⟨fun A B p hp hRAB hle => ?_, fun A B p _ => List.forall_mem_nil _⟩
    rw [indexing_matrix_permute idx A hp le_rfl, isImage_iff.mp hRAB.1] at hle
    exact absurd hRAB.2 (not_lt.mpr hle)
  obtain ⟨P, hnd, hperm, hconv, hnone⟩ := (ceLoop_findPermutations solver idx _ _).spec hsolver
    posts_lexImage h hR List.nodup_nil (List.forall_mem_nil _) []
  rw [foldl_concat, List.nil_append] at hconv
  refine ⟨P, ?_, hnd, hperm, fun G => ⟨fun hG H hH => ?_, fun hG p hp => ?_⟩⟩
  · have e : ∀ fuel, compute solver n idx newModel fuel =
        ((isoModel n).solver.boolArraysLexLt (indexing idx (declare n).g2)
          (indexing idx (declare n).g1) >>= fun s => findPermutations solver idx (declare n).g1
            (declare n).perm fuel s [] >>= fun P => .ok (P, newModel)) := fun _ => rfl
    simp only [e, hs, ok_bind]
    exact Converges.bind_ok hconv (Converges.const _)
  · -- a smaller image would be a counterexample left
    obtain ⟨p, hp, rfl⟩ := isomorphic_iff.mp hH
    exact not_lt.mp fun hlt => hnone G _ p hp ⟨isImage_iff.mpr rfl, hlt⟩ hG
  · rw [indexing_matrix_permute idx G (hperm p hp) le_rfl]
    exact hG _ (permute_isomorphic G (hperm p hp) le_rfl)

/-- **Every call on one object** terminates, with a set of different permutations such that the
graphs whose string is at most that of each image are those of minimal string in their isomorphism
class. -/
theorem calls_canonizing (n : Nat) (idx : CanonicalIndexing) (solvers : List SatSolver)
    (hsolvers : ∀ solver ∈ solvers, solver.Correct) :
    ∃ canonizingSets : List (List (List Nat)),
      Converges (fun fuel => calls n idx fuel solvers newModel) (.ok canonizingSets) ∧
      canonizingSets.length = solvers.length ∧
      ∀ P ∈ canonizingSets, P.Nodup ∧ (∀ p ∈ P, p.Perm (List.range n)) ∧
        CanonizingSet n idx P := by
  induction solvers with
  | nil => exact ⟨[], Converges.const _, rfl, List.forall_mem_nil _⟩
  | cons solver solvers ih =>
    obtain ⟨hsolver, hrest⟩ := List.forall_mem_cons.mp hsolvers
    obtain ⟨P, hconv, hP⟩ := compute_spec hsolver n idx
    obtain ⟨Ps, hconv', hlen, hPs⟩ := ih hrest
    refine ⟨P :: Ps, Converges.bind_ok hconv (Converges.bind_ok hconv' (Converges.const _)), ?_,
      List.forall_mem_cons.mpr ⟨hP, hPs⟩⟩
    rw [List.length_cons, List.length_cons, hlen]

/-- Two calls for three vertices. -/
theorem calls_canonizing_three : ∃ canonizingSets : List (List (List Nat)),
    Converges (fun fuel => calls 3 .upperTriangleCols fuel [bruteForceSolver, bruteForceSolver]
      newModel) (.ok canonizingSets) ∧
    canonizingSets.length = 2 ∧
    ∀ P ∈ canonizingSets, P.Nodup ∧ (∀ p ∈ P, p.Perm (List.range 3)) ∧
      CanonizingSet 3 .upperTriangleCols P :=
  calls_canonizing 3 .upperTriangleCols [bruteForceSolver, bruteForceSolver] (by
    simp only [List.forall_mem_cons, List.not_mem_nil, false_implies, implies_true, and_true]
    exact ⟨bruteForceSolver_correct, bruteForceSolver_correct⟩)

end SymBreak.CanonizingPermutationSetAlg
