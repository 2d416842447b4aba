import SymBreak.Reducer

/-!
# Computing canonizing lex implications

Model of `CanonizingLexImplicationsAlg` (`core/CanonizingLexImplicationsAlg.cc`) and of the runs of
`core/Main.cc`. The three computations (`compute`, `extend`, and `extend` with a subgraph) have one
loop in common, over the lengths of the implications; they differ in the implications given, in the
subgraph embedded and in the reduction. The loop that asks the solver for one more counterexample
takes fuel.
-/

namespace SymBreak

open Matrix ConstraintSolver

namespace CanonizingLexImplicationsAlg

variable (solver : SatSolver) (glucoseReducer : GlucoseReducer) (n : Nat) (idx : CanonicalIndexing)

/-- The lex implication `(perm, length)` on the variables of `g1`. -/
def postImplication (g1 : Matrix BoolVarRef) (s : ConstraintSolver) (imp : LexImplication) :
    Except (Halt Exn) ConstraintSolver :=
  s.boolArraysLexImplication (indexing idx g1) (indexing idx (g1.permute imp.perm)) imp.length

/-- Find implications of length `i` (`CanonizingLexImplicationsAlg.cc:74-84`): as long as there is a
counterexample, its permutation joins the set. -/
def findImplications (g1 : Matrix BoolVarRef) (perm : List IntVarRef) (i : Nat) :
    Nat → ConstraintSolver → List LexImplication → Except (Halt Exn) (List LexImplication)
  | 0, _, _ => .error .outOfFuel
  | fuel + 1, s, canonizingSet =>
    match solver s.clauses with
    | .l_True model => do
      let leximp : LexImplication := ⟨s.decodeIntArray model perm, i⟩
      let s ← postImplication idx g1 s leximp
      findImplications g1 perm i fuel s (canonizingSet ++ [leximp])
    | _ => .ok canonizingSet

/-- The implications of length `i`: a graph `g1` that contains the subgraph and satisfies the
implications so far, and an isomorphic one whose string is smaller at that length
(`CanonizingLexImplicationsAlg.cc:51-84, 118-157, 195-242`). -/
def lengthStep (embed : Matrix BoolVarRef → ConstraintSolver → ConstraintSolver)
    (impSet : List LexImplication) (fuel : Nat) (delta : List LexImplication) (i : Nat) :
    Except (Halt Exn) (List LexImplication) := do
  let m := isoModel n
  let s := embed m.g1 m.solver
  let s ← s.boolArraysLexLtImplication (indexing idx m.g2) (indexing idx m.g1) i
  let s ← impSet.foldlM (postImplication idx m.g1) s
  let s ← delta.foldlM (postImplication idx m.g1) s
  findImplications solver idx m.g1 m.perm i fuel s delta

/-- `int maxLen = ((m_nvertices * (m_nvertices-1)) / 2) - 1` -/
def maxLen : Nat := n * (n - 1) / 2 - 1

/-- One turn of the loop over the lengths: the set is reduced at every fifth length and at the last.
-/
def lengthTurn (embed : Matrix BoolVarRef → ConstraintSolver → ConstraintSolver)
    (impSet : List LexImplication)
    (reduce : List LexImplication → Except (Halt Exn) (List LexImplication)) (fuel : Nat)
    (delta : List LexImplication) (i : Nat) : Except (Halt Exn) (List LexImplication) := do
  let delta ← lengthStep solver n idx embed impSet fuel delta i
  if i % 5 = 0 ∨ i = maxLen n then reduce delta else .ok delta

/-- The loop over the lengths. -/
def canonize (embed : Matrix BoolVarRef → ConstraintSolver → ConstraintSolver)
    (impSet : List LexImplication)
    (reduce : List LexImplication → Except (Halt Exn) (List LexImplication)) (fuel : Nat) :
    Except (Halt Exn) (List LexImplication) :=
  (List.range' 1 (maxLen n)).foldlM (lengthTurn solver n idx embed impSet reduce fuel) []

/-- Nothing to embed. -/
def noSubgraph (_ : Matrix BoolVarRef) (s : ConstraintSolver) : ConstraintSolver := s

/-- `reducer.reduce(canonizingSet)` on a new reducer. -/
def reduceSet (canonizingSet : List LexImplication) : Except (Halt Exn) (List LexImplication) :=
  (LexImplicationsReducer.new n idx).reduce glucoseReducer canonizingSet

/-- `reducer.reduceDelta(impSet, delta)` on a new reducer. -/
def reduceDelta (impSet delta : List LexImplication) : Except (Halt Exn) (List LexImplication) :=
  (LexImplicationsReducer.new n idx).reduceDelta glucoseReducer impSet delta

/-- ... with a subgraph. -/
def reduceDeltaSubgraph (subgraphStr : List Char) (impSet delta : List LexImplication) :
    Except (Halt Exn) (List LexImplication) :=
  (LexImplicationsReducer.newSubgraph n idx subgraphStr).reduceDelta glucoseReducer impSet delta

/-- `compute()` (`CanonizingLexImplicationsAlg.cc:43-104`) -/
def compute (fuel : Nat) : Except (Halt Exn) (List LexImplication) :=
  canonize solver n idx noSubgraph [] (reduceSet glucoseReducer n idx) fuel

/-- `extend(impSet)` (`CanonizingLexImplicationsAlg.cc:109-175`) -/
def extend (impSet : List LexImplication) (fuel : Nat) : Except (Halt Exn) (List LexImplication) :=
  canonize solver n idx noSubgraph impSet (reduceDelta glucoseReducer n idx impSet) fuel

/-- `extend(impSet, subgraphStr)` (`CanonizingLexImplicationsAlg.cc:183-261`) -/
def extendSubgraph (impSet : List LexImplication) (subgraphStr : List Char) (fuel : Nat) :
    Except (Halt Exn) (List LexImplication) :=
  canonize solver n idx (fun g1 s => embedSubgraph g1 subgraphStr s) impSet
    (reduceDeltaSubgraph glucoseReducer n idx subgraphStr impSet) fuel

end CanonizingLexImplicationsAlg

namespace Main

open CanonizingLexImplicationsAlg

variable (solver : SatSolver) (glucoseReducer : GlucoseReducer) (n : Nat) (idx : CanonicalIndexing)

/-- One order of `runIncremental`: the delta joins the set. -/
def incrementalTurn (fuel : Nat) (canset : List LexImplication) (i : Nat) :
    Except (Halt Exn) (List LexImplication) := do
  let delta ← extend solver glucoseReducer i idx canset fuel
  .ok (canset ++ delta)

/-- `runIncremental` (`Main.cc:10-20`), with the set it accumulates. -/
def runIncremental (fuel : Nat) : Except (Halt Exn) (List LexImplication) :=
  (List.range' 3 (n + 1 - 3)).foldlM (incrementalTurn solver glucoseReducer idx fuel) []

/-- One order of `runIncrementalSubgraph`. -/
def subgraphTurn (subgraphStr : List Char) (fuel : Nat) (canset : List LexImplication) (i : Nat) :
    Except (Halt Exn) (List LexImplication) := do
  let delta ← extendSubgraph solver glucoseReducer i idx canset subgraphStr fuel
  .ok (canset ++ delta)

/-- `runIncrementalSubgraph` (`Main.cc:23-33`), with the set it accumulates. -/
def runIncrementalSubgraph (subgraphStr : List Char) (fuel : Nat) :
    Except (Halt Exn) (List LexImplication) :=
  let start := Nat.sqrt subgraphStr.length + 1
  (List.range' start (n + 1 - start)).foldlM
    (subgraphTurn solver glucoseReducer idx subgraphStr fuel) []

end Main

end SymBreak
