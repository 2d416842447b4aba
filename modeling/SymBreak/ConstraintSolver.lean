import SymBreak.Lib.Cnf
import SymBreak.Lib.Loop
import SymBreak.Matrix

/-!
# The constraint solver

Model of `ConstraintSolver` (`core/ConstraintSolver.h`, `core/ConstraintSolver.cc`): Boolean
variables by reference number, integers in the direct representation, and the clauses each
constraint posts. The state is the variables and clauses handed to the SAT solver, the next
reference numbers, the integers, and the cache of `boolIffReif`. The SAT solver itself is a
parameter, a function from the posted clauses to its answer (`SolverAnswer`), assumed `Correct`.
-/

namespace SymBreak

open Cnf

/-- A reference number; a negative one is the complement (`ConstraintSolver.h:15`). -/
abbrev BoolVarRef := Int

abbrev IntVarRef := Nat

/-- An integer in `lb, …, ub`, with one Boolean for each value (`ConstraintSolver.h:20-24`). -/
structure IntVar where
  lb : Int
  ub : Int
  bools : List BoolVarRef
  deriving Inhabited

/-- `lbool_t`, the entries of a partial adjacency matrix. -/
inductive LBool where
  | l_True
  | l_False
  | l_Undef
  deriving DecidableEq, Repr, Inhabited

/-- The answer of `m_satSolver->solveLimited`. -/
inductive SolverAnswer where
  | l_True (model : Assignment)
  | l_False
  | l_Undef

/-- A SAT solver: the answer on the clauses posted so far. -/
abbrev SatSolver := Formula → SolverAnswer

/-- The solver answers `l_True`, with a model, exactly on the satisfiable formulas, and `l_False` on
the others. -/
structure SatSolver.Correct (solver : SatSolver) : Prop where
  model : ∀ F m, solver F = .l_True m → Sat m F
  l_True : ∀ F, Satisfiable F → ∃ m, solver F = .l_True m
  l_False : ∀ F, ¬ Satisfiable F → solver F = .l_False

/-- A solver that tries every assignment. -/
def bruteForceSolver : SatSolver := fun F =>
  match search F with
  | some model => .l_True model
  | none => .l_False

theorem bruteForceSolver_correct : bruteForceSolver.Correct where
  model F m h := by
    unfold bruteForceSolver at h
    split at h
    · rename_i model hm
      obtain rfl : model = m := SolverAnswer.l_True.inj h
      exact search_sound hm
    · exact absurd h (by simp)
  l_True F h := by
    obtain ⟨m, hm⟩ := search_complete h
    exact ⟨m, by rw [bruteForceSolver, hm]⟩
  l_False F h := by
    unfold bruteForceSolver
    split
    · rename_i model hm
      exact absurd ⟨model, search_sound hm⟩ h
    · rfl

/-- `std::runtime_error` -/
inductive Exn where
  | runtimeError (what : String)
  | outOfRange
  deriving DecidableEq, Repr

/-- `m_iffReifCache` -/
abbrev IffReifCache := List ((BoolVarRef × BoolVarRef) × BoolVarRef)

/-- The members of `ConstraintSolver`. -/
@[ext] structure ConstraintSolver where
  nVars : Nat
  clauses : Formula
  nextBoolID : Nat
  ints : List IntVar
  nextIntID : Nat
  iffReifCache : IffReifCache
  nextBoolID_eq : nextBoolID = nVars + 1
  nextIntID_eq : nextIntID = ints.length

namespace ConstraintSolver

/-! ## References -/

def neg (b : BoolVarRef) : BoolVarRef := -b

def trueConst : BoolVarRef := 1

def falseConst : BoolVarRef := -1

/-- `toLit` (`ConstraintSolver.cc:107-111`) -/
def toLit (b : BoolVarRef) : Lit where
  var := b.natAbs - 1
  sign := !decide (0 < b)

/-- The value of a reference in a model. -/
def getBoolAssignment (model : Assignment) (b : BoolVarRef) : Bool := (toLit b).eval model

/-! ## Clauses -/

variable (s : ConstraintSolver)

/-- `m_satSolver->addClause` -/
def addClause (c : Clause) : ConstraintSolver := { s with clauses := s.clauses ++ [c] }

def newBoolVar : BoolVarRef × ConstraintSolver :=
  (s.nextBoolID,
    { s with
      nVars := s.nVars + 1
      nextBoolID := s.nextBoolID + 1
      nextBoolID_eq := by rw [s.nextBoolID_eq] })

theorem nextIntID_nil : 0 = ([] : List IntVar).length := rfl

/-- `newModel` (`ConstraintSolver.cc:456-465`), and the constructor. -/
def newModel : ConstraintSolver :=
  let s : ConstraintSolver := ⟨0, [], 1, [], 0, [], rfl, nextIntID_nil⟩
  let (trueConst, s) := s.newBoolVar
  s.addClause [toLit trueConst]

def setBoolVar (b : BoolVarRef) (val : Bool) : ConstraintSolver :=
  if val then s.addClause [toLit b] else s.addClause [(toLit b).neg]

def boolOr (b1 b2 : BoolVarRef) : ConstraintSolver := s.addClause [toLit b1, toLit b2]

/-- `boolOr` of three references. -/
def boolOr3 (b1 b2 b3 : BoolVarRef) : ConstraintSolver :=
  s.addClause [toLit b1, toLit b2, toLit b3]

def atLeastOne (bools : List BoolVarRef) : ConstraintSolver := s.addClause (bools.map toLit)

def boolArrayOr (bools : List BoolVarRef) : ConstraintSolver := s.atLeastOne bools

/-- `atMostOne` (`ConstraintSolver.cc:94-100`): every pair, the first one outermost. -/
def atMostOne (s : ConstraintSolver) : List BoolVarRef → ConstraintSolver
  | [] => s
  | b :: bools =>
    atMostOne (bools.foldl (fun s b' => s.addClause [toLit (neg b), toLit (neg b')]) s) bools

def exactlyOne (bools : List BoolVarRef) : ConstraintSolver :=
  (s.atLeastOne bools).atMostOne bools

/-! ## Reifications -/

/-- `boolIffReif(b1, b2, t)` (`ConstraintSolver.cc:61-66`) -/
def boolIffReif (b1 b2 t : BoolVarRef) : ConstraintSolver :=
  (((s.boolOr3 b1 b2 t).boolOr3 (neg b1) (neg b2) t).boolOr3 b1 (neg b2) (neg t)).boolOr3
    (neg b1) b2 (neg t)

/-- `boolIffReif(b1, b2)` (`ConstraintSolver.cc:68-82`): looked up in both orders. -/
def boolIffReifCached (b1 b2 : BoolVarRef) : BoolVarRef × ConstraintSolver :=
  match s.iffReifCache.lookup (b1, b2) with
  | some t => (t, s)
  | none =>
    match s.iffReifCache.lookup (b2, b1) with
    | some t => (t, s)
    | none =>
      let (t, s) := s.newBoolVar
      let s := s.boolIffReif b1 b2 t
      (t, { s with iffReifCache := ((b1, b2), t) :: s.iffReifCache })

/-- `boolAndReif(b1, b2, t)` (`ConstraintSolver.cc:226-231`) -/
def boolAndReif (b1 b2 t : BoolVarRef) : ConstraintSolver :=
  ((s.boolOr b1 (neg t)).boolOr b2 (neg t)).boolOr3 (neg b1) (neg b2) t

/-- `boolAndReif(b1, b2, b3, t)` (`ConstraintSolver.cc:234-244`) -/
def boolAndReif3 (b1 b2 b3 t : BoolVarRef) : ConstraintSolver :=
  (((s.boolOr b1 (neg t)).boolOr b2 (neg t)).boolOr b3 (neg t)).boolArrayOr
    [neg b1, neg b2, neg b3, t]

/-- `boolArrayAndReif` (`ConstraintSolver.cc:246-254`) -/
def boolArrayAndReif (bvars : List BoolVarRef) (t : BoolVarRef) : ConstraintSolver :=
  let (ti, s) := (List.range' 1 (bvars.length - 2)).foldl (fun (ti, s) i =>
    let (ti1, s) := s.newBoolVar
    (ti1, s.boolAndReif ti (bvars.getD i 0) ti1)) (bvars.getD 0 0, s)
  s.boolAndReif (bvars.getD (bvars.length - 1) 0) ti t

/-- `boolOrReif(b1, b2, t)` (`ConstraintSolver.cc:269-273`) -/
def boolOrReif (b1 b2 t : BoolVarRef) : ConstraintSolver :=
  ((s.boolOr3 b1 b2 (neg t)).boolOr3 b1 (neg b2) t).boolOr3 (neg b1) b2 t

/-- `boolOrReif(b1, b2, b3, t)` (`ConstraintSolver.cc:275-279`) -/
def boolOrReif3 (b1 b2 b3 t : BoolVarRef) : ConstraintSolver :=
  let (t1, s) := s.newBoolVar
  (s.boolOrReif b1 b2 t1).boolOrReif t1 b3 t

/-- `boolArrayOrReif` (`ConstraintSolver.cc:281-289`) -/
def boolArrayOrReif (bvars : List BoolVarRef) (t : BoolVarRef) : ConstraintSolver :=
  let (ti, s) := (List.range' 1 (bvars.length - 2)).foldl (fun (ti, s) i =>
    let (ti1, s) := s.newBoolVar
    (ti1, s.boolOrReif ti (bvars.getD i 0) ti1)) (bvars.getD 0 0, s)
  s.boolOrReif (bvars.getD (bvars.length - 1) 0) ti t

/-! ## Integers and matrices -/

/-- `m_ints.push_back(v)`, with the next number. -/
def pushInt (v : IntVar) : ConstraintSolver :=
  { s with
    ints := s.ints ++ [v]
    nextIntID := s.nextIntID + 1
    nextIntID_eq := by rw [s.nextIntID_eq, List.length_append, List.length_singleton] }

/-- `newIntVar` (`ConstraintSolver.cc:256-267`) -/
def newIntVar (lb ub : Int) : IntVarRef × ConstraintSolver :=
  let vRef := s.nextIntID
  let (bools, s) := (List.range (ub + 1 - lb).toNat).foldl (fun (bools, s) _ =>
    let (b, s) := s.newBoolVar
    (bools ++ [b], s)) (([], s) : List BoolVarRef × ConstraintSolver)
  (vRef, (s.exactlyOne bools).pushInt ⟨lb, ub, bools⟩)

/-- `newPermutation` (`ConstraintSolver.cc:291-309`) -/
def newPermutation (n : Nat) : List IntVarRef × ConstraintSolver :=
  let (perm, s) := (List.range n).foldl (fun (perm, s) _ =>
    let (v, s) := s.newIntVar 0 (n - 1)
    (perm ++ [v], s)) (([], s) : List IntVarRef × ConstraintSolver)
  (perm, (List.range n).foldl (fun s num =>
    s.exactlyOne (perm.map fun v => (s.ints.getD v default).bools.getD num 0)) s)

def intEqReif (vi : IntVarRef) (c : Int) : BoolVarRef :=
  let v := s.ints.getD vi default
  v.bools.getD (c - v.lb).toNat 0

/-- `newAdjMatrix` (`ConstraintSolver.cc:316-327`) -/
def newAdjMatrix (n : Nat) : Matrix BoolVarRef × ConstraintSolver :=
  (List.range n).foldl (fun (adjMatrix, s) i =>
    (List.range' (i + 1) (n - (i + 1))).foldl (fun (adjMatrix, s) j =>
      let (xij, s) := s.newBoolVar
      ((adjMatrix.set i j xij).set j i xij, s)) (adjMatrix.set i i (neg trueConst), s))
    (Matrix.new n n, s)

/-- `isomorphic` (`ConstraintSolver.cc:382-406`) -/
def isomorphic (g1 g2 : Matrix BoolVarRef) (perm : List IntVarRef) : ConstraintSolver :=
  let n := g1.nRows
  (List.range n).foldl (fun s i =>
    (List.range' (i + 1) (n - (i + 1))).foldl (fun s j =>
      let (ts, s) := (List.range n).foldl (fun (ts, s) k =>
        (List.range n).foldl (fun (ts, s) l =>
          if k ≠ l then
            let t1 := s.intEqReif (perm.getD k 0) i
            let t2 := s.intEqReif (perm.getD l 0) j
            let xkl := g2.get k l
            let (t, s) := s.newBoolVar
            (ts ++ [t], s.boolAndReif3 t1 t2 xkl t)
          else (ts, s)) (ts, s)) (([], s) : List BoolVarRef × ConstraintSolver)
      s.boolArrayOrReif ts (g1.get i j)) s) s

/-! ## Lexicographic order -/

/-- `boolArraysLex` (`ConstraintSolver.cc:114-135`): one Horn clause for each position. -/
def boolArraysLex (arr1 arr2 : List BoolVarRef) : Except (Halt Exn) ConstraintSolver :=
  if arr1.length ≠ arr2.length then
    .error (.raised (.runtimeError "boolArraysLex: input arrays with different length!"))
  else
    let n := arr1.length
    let (reifs, s) := (List.range (n - 1)).foldl (fun (reifs, s) i =>
      let (t, s) := s.newBoolVar
      (reifs ++ [t], s.boolIffReif (arr1.getD i 0) (arr2.getD i 0) t))
      (([], s) : List BoolVarRef × ConstraintSolver)
    .ok ((List.range n).foldl (fun s i =>
      let c := (List.range i).map fun j => neg (reifs.getD j 0)
      s.boolArrayOr (c ++ [neg (arr1.getD i 0), arr2.getD i 0])) s)

/-- `boolArraysLexLt` (`ConstraintSolver.cc:198-223`): `ts[i]` says that the first difference is at
position `i`, in the right direction. -/
def boolArraysLexLt (arr1 arr2 : List BoolVarRef) : Except (Halt Exn) ConstraintSolver :=
  if arr1.length ≠ arr2.length then
    .error (.raised (.runtimeError "got arrays with different length"))
  else
    let n := arr1.length
    let (eqReifs, s) := (List.range (n - 1)).foldl (fun (eqReifs, s) i =>
      let (t, s) := s.newBoolVar
      (eqReifs ++ [t], s.boolIffReif (arr1.getD i 0) (arr2.getD i 0) t))
      (([], s) : List BoolVarRef × ConstraintSolver)
    let (ts, s) := (List.range n).foldl (fun (ts, s) _ =>
      let (t, s) := s.newBoolVar
      (ts ++ [t], s)) (([], s) : List BoolVarRef × ConstraintSolver)
    let s := (List.range n).foldl (fun s i =>
      let bvars := (List.range i).map fun j => eqReifs.getD j 0
      s.boolArrayAndReif (bvars ++ [neg (arr1.getD i 0), arr2.getD i 0]) (ts.getD i 0)) s
    .ok (s.boolArrayOr ts)

/-- `boolArraysLexImplication` (`ConstraintSolver.cc:136-150`) -/
def boolArraysLexImplication (arr1 arr2 : List BoolVarRef) (length : Nat) :
    Except (Halt Exn) ConstraintSolver :=
  if arr1.length ≠ arr2.length then
    .error (.raised (.runtimeError "boolArraysLexImplication: input arrays with different length!"))
  else
    let (c, s) := (List.range (length - 1)).foldl (fun (c, s) i =>
      let (t, s) := s.boolIffReifCached (arr1.getD i 0) (arr2.getD i 0)
      (c ++ [neg t], s)) (([], s) : List BoolVarRef × ConstraintSolver)
    .ok (s.boolArrayOr (c ++ [neg (arr1.getD (length - 1) 0), arr2.getD (length - 1) 0]))

/-- `boolArraysLexLtImplication` (`ConstraintSolver.cc:152-166`) -/
def boolArraysLexLtImplication (arr1 arr2 : List BoolVarRef) (length : Nat) :
    Except (Halt Exn) ConstraintSolver :=
  if arr1.length ≠ arr2.length then
    .error (.raised (.runtimeError "boolArraysLexImplication: input arrays with different length!"))
  else
    let s := (List.range (length - 1)).foldl (fun s i =>
      let (t, s) := s.newBoolVar
      (s.boolIffReif (arr1.getD i 0) (arr2.getD i 0) t).setBoolVar t true) s
    .ok ((s.setBoolVar (arr1.getD (length - 1) 0) false).setBoolVar
      (arr2.getD (length - 1) 0) true)

/-! ## Lex-leaders -/

/-- The covering clauses of `notLexLeader` for the entry `(i2, j2)` of `g2`
(`ConstraintSolver.cc:337-359`): the entries of `g1` that may be sent there, by their value. -/
def coverPair (g1 : Matrix LBool) (g2 : Matrix BoolVarRef) (perm : List IntVarRef) (i2 j2 : Nat) :
    ConstraintSolver :=
  let n := g1.nRows
  let (tsTrue, tsFalse, s) := (List.range n).foldl (fun r i1 =>
    (List.range n).foldl (fun (tsTrue, tsFalse, s) j1 =>
      if i1 ≠ j1 then
        let (t, s) := s.newBoolVar
        let t1 := s.intEqReif (perm.getD i1 0) i2
        let t2 := s.intEqReif (perm.getD j1 0) j2
        let s := s.boolAndReif t1 t2 t
        if g1.get i1 j1 = .l_False then (tsTrue, tsFalse ++ [t], s)
        else (tsTrue ++ [t], tsFalse, s)
      else (tsTrue, tsFalse, s)) r)
    (([], [], s) : List BoolVarRef × List BoolVarRef × ConstraintSolver)
  (s.boolArrayOr (tsTrue ++ [neg (g2.get i2 j2)])).boolArrayOr (tsFalse ++ [g2.get i2 j2])

/-- The strings of `g1` and `g2` before the first undefined entry (`ConstraintSolver.cc:360-374`).
-/
def groundedStrings (g1 : Matrix LBool) (g2 : Matrix BoolVarRef) :
    List BoolVarRef × List BoolVarRef :=
  let n := g1.nRows
  let (stringG1, stringG2, _) := (List.range n).foldl (fun r i =>
    (List.range' (i + 1) (n - (i + 1))).foldl (fun (stringG1, stringG2, grounded) j =>
      if grounded then
        if g1.get i j ≠ .l_Undef then
          (stringG1 ++ [if g1.get i j = .l_True then trueConst else falseConst],
            stringG2 ++ [g2.get i j], true)
        else (stringG1, stringG2, false)
      else (stringG1, stringG2, false)) r)
    (([], [], true) : List BoolVarRef × List BoolVarRef × Bool)
  (stringG1, stringG2)

/-- `notLexLeader` (`ConstraintSolver.cc:330-380`): a smaller isomorphic copy of `g1`. -/
def notLexLeader (g1 : Matrix LBool) : Except (Halt Exn) (List IntVarRef × ConstraintSolver) := do
  let n := g1.nRows
  let (perm, s) := s.newPermutation n
  let (g2, s) := s.newAdjMatrix n
  let s := (List.range n).foldl (fun s i2 =>
    (List.range' (i2 + 1) (n - (i2 + 1))).foldl (fun s j2 => s.coverPair g1 g2 perm i2 j2) s) s
  let (stringG1, stringG2) := groundedStrings g1 g2
  let s ← s.boolArraysLexLt stringG2 stringG1
  .ok (perm, s)

/-! ## Models -/

/-- `getIntAssignment` (`ConstraintSolver.cc:434-444`): the first value whose Boolean is true,
else `lb`. -/
def getIntAssignment (model : Assignment) (vref : IntVarRef) : Int :=
  let v := s.ints.getD vref default
  match v.bools.findIdx? (getBoolAssignment model) with
  | some i => v.lb + i
  | none => v.lb

/-- `decodeIntArray` (`ConstraintSolver.cc:447-453`), of integers that are vertices. -/
def decodeIntArray (model : Assignment) (arr : List IntVarRef) : List Nat :=
  arr.map fun vref => (s.getIntAssignment model vref).toNat

end ConstraintSolver

end SymBreak
