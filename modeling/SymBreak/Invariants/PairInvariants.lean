import SymBreak.Invariants.Bee

/-!
# The pair invariants

Model of the invariants that `pair_invariants.pl` exports (`pair_invariants.pl:59-463`): each makes
a symmetric matrix of integers whose entry at `(I, J)` says something about the two vertices in the
graph. Vertices are counted from `1` here, as in the source. Where a predicate leaves choice points
(`shorten`, `findall` goals) the first solution is taken, as the cuts of its callers do.
-/

namespace SymBreak.PairInvariants

open Declare Bee

/-! ## Model -/

/-- `pairs(N, Pairs)` (`pair_invariants.pl:608-609`) -/
def pairs (n : Nat) : List (Nat × Nat) :=
  (between 1 n).flatMap fun i => ((between i n).filter (i < ·)).map fun j => (i, j)

/-- `shorten(I, J, Row, Vec)` (`pair_invariants.pl:640-645`) -/
def shorten (i j : Nat) (row : List Term) : Option (List Term) :=
  if row.length = 1 then some row else (nth1Rest j row).bind (nth1Rest i)

/-- `bitwise_and` and its like (`pair_invariants.pl:691-709`). -/
def bitwise (gate : Term → Term → Term → Constraint) :
    List Term → List Term → Post Constraint (List Term)
  | [], [] => return []
  | x :: xs, y :: ys => do
    let z ← define (gate x y)
    return z :: (← bitwise gate xs ys)
  | _, _ => failure

def andGate (x y z : Term) : Constraint := .boolArrayAndReif [x, y] z

def orGate (x y z : Term) : Constraint := .boolArrayOrReif [x, y] z

def nandGate (x y z : Term) : Constraint := .boolArrayOrReif [.neg x, .neg y] z

def norGate (x y z : Term) : Constraint := .boolArrayAndReif [.neg x, .neg y] z

section Model

variable (aux : Auxs)

/-- The shape of every invariant: a new matrix, and constraints for the cell of every pair. -/
def pairMatrix (n : Nat) (d : Int) (turn : Nat → Nat → Term → Post Constraint Unit) :
    Post Constraint Rows := do
  let matrix ← aux.createAdjacencyMatrix n (.int d)
  (pairs n).forM fun p => do
    let x ← aux.matrixGetCell matrix p.1 p.2
    turn p.1 p.2 x
  return matrix

/-- The shape of `inv_min_deg` and `inv_max_deg`. -/
def extremeDeg (extreme : Term → Term → Term → Constraint) (ds : List Term) :
    Post Constraint Rows :=
  pairMatrix aux ds.length 0 fun i j x => do
    let di ← nth1 i ds
    let dj ← nth1 j ds
    post (.newInt x 0 (ds.length - 1))
    post (extreme di dj x)

/-- `inv_min_deg(Ds, MinDegMatrix)` (`pair_invariants.pl:63-77`) -/
def invMinDeg : List Term → Post Constraint Rows := extremeDeg aux .intMin

/-- `inv_max_deg(Ds, MaxDegMatrix)` (`pair_invariants.pl:83-97`) -/
def invMaxDeg : List Term → Post Constraint Rows := extremeDeg aux .intMax

/-- The gates on the rows of a pair, where `cut` deletes the two columns or nothing. -/
def rowGates (m : Rows) (cut : Nat → Nat → List Term → Option (List Term))
    (gate : Term → Term → Term → Constraint) (i j : Nat) : Post Constraint (List Term) := do
  let ri ← nth1 i m
  let rj ← nth1 j m
  let vec1 ← cut i j ri
  let vec2 ← cut i j rj
  bitwise gate vec1 vec2

/-- The shape of the invariants that count a gate of the rows of a pair. -/
def countGates (n : Nat) (m : Rows) (cut : Nat → Nat → List Term → Option (List Term))
    (gate : Term → Term → Term → Constraint) (max : Int) : Post Constraint Rows :=
  pairMatrix aux n 0 fun i j x => do
    let xs ← rowGates m cut gate i j
    countEq x max xs

/-- `inv_common(AdjMatrix, CommonMatrix)` (`pair_invariants.pl:129-150`) -/
def invCommon (adjMatrix : Rows) : Post Constraint Rows :=
  countGates aux adjMatrix.length adjMatrix (fun _ _ row => some row) andGate (adjMatrix.length - 1)

/-- `multiply_matrix_by_const(Matrix, _, Product)` (`pair_invariants.pl:158-167`): it multiplies by
`-1`, whatever the constant. -/
def multiplyMatrixByConst (m : Rows) : Post Constraint Rows :=
  m.mapM fun row => row.mapM fun x => define fun y => .newIntMulK y x (-1)

/-- `inv_minus_common(AdjMatrix, MinusCommonMatrix)` (`pair_invariants.pl:153-155`) -/
def invMinusCommon (adjMatrix : Rows) : Post Constraint Rows := do
  multiplyMatrixByConst (← invCommon aux adjMatrix)

/-- `inv_adj(AdjMatrix, Matrix)` (`pair_invariants.pl:172-188`) -/
def invAdj (adjMatrix : Rows) : Post Constraint Rows :=
  pairMatrix aux adjMatrix.length 0 fun i j x => do
    let xij ← aux.matrixGetCell adjMatrix i j
    post (.newInt x 0 1)
    post (.intEqReif x 1 xij)

/-- `inv_anti_common(AdjMatrix, CommonMatrix)` (`pair_invariants.pl:196-220`) -/
def invAntiCommon (adjMatrix : Rows) : Post Constraint Rows :=
  countGates aux adjMatrix.length adjMatrix shorten norGate (adjMatrix.length - 1)

/-- `inv_sum_degrees_common_neighbors(AdjMatrix, Ds, CommonMatrix)` (`pair_invariants.pl:225-247`):
despite its name it sums over the vertices that are not common neighbours. -/
def invSumDegreesCommonNeighbors (adjMatrix : Rows) (ds : List Term) : Post Constraint Rows :=
  pairMatrix aux adjMatrix.length 0 fun i j x => do
    let ri ← nth1 i adjMatrix
    let rj ← nth1 j adjMatrix
    let vec1 ← shorten i j ri
    let vec2 ← shorten i j rj
    let vecDs ← shorten i j ds
    let xs ← bitwise nandGate vec1 vec2
    post (.newInt x 0 ((adjMatrix.length - 1) * (adjMatrix.length - 1)))
    post (.intArraySumCondEq xs vecDs x)

/-- The reified conjunction of three cells. -/
def andCells (adjMatrix : Rows) (p q r : Nat × Nat) : Post Constraint Term := do
  let x ← aux.matrixGetCell adjMatrix p.1 p.2
  let y ← aux.matrixGetCell adjMatrix q.1 q.2
  let z ← aux.matrixGetCell adjMatrix r.1 r.2
  define (.boolArrayAndReif [x, y, z])

/-- The keys `p(I,A,B,J)` of `inv_len3_paths`, as `(A, B)`. -/
def len3Paths (n i j : Nat) : List (Nat × Nat) :=
  ((between 1 n).flatMap fun a => (between 1 n).map fun b => (a, b)).filter fun p =>
    p.1 ≠ p.2 ∧ p.1 ≠ i ∧ p.1 ≠ j ∧ p.2 ≠ i ∧ p.2 ≠ j

/-- `inv_len3_paths(AdjMatrix, Len3PathsMatrix)` (`pair_invariants.pl:255-280`) -/
def invLen3Paths (adjMatrix : Rows) : Post Constraint Rows :=
  pairMatrix aux adjMatrix.length 0 fun i j x => do
    let ts ← (len3Paths adjMatrix.length i j).mapM fun p =>
      andCells aux adjMatrix (i, p.1) (p.1, p.2) (p.2, j)
    countEq x (adjMatrix.length * adjMatrix.length) (ts.map .neg)

/-- The keys `t(I,J,K)`, `I < J < K`, in order. -/
def triples (n : Nat) : List (Nat × Nat × Nat) :=
  (between 1 n).flatMap fun a => ((between a n).filter (a < ·)).flatMap fun b =>
    ((between b n).filter (b < ·)).map fun c => (a, b, c)

/-- `triangles_reif_map(AdjMatrix, Map)` (`pair_invariants.pl:392-403`) -/
def trianglesReifMap (adjMatrix : Rows) : Post Constraint (List ((Nat × Nat × Nat) × Term)) :=
  (triples adjMatrix.length).mapM fun t => do
    return (t, ← andCells aux adjMatrix (t.1, t.2.1) (t.1, t.2.2) (t.2.1, t.2.2))

/-- The solutions of `member(I, [A,B,C])`, each as the key `t(A,B,C)`. -/
def withMember (i : Nat) (t : Nat × Nat × Nat) : List (Nat × Nat × Nat) :=
  ([t.1, t.2.1, t.2.2].filter (· = i)).map fun _ => t

/-- The keys of `inv_triangles`: a triangle with both vertices is found twice. -/
def triangleKeys (n i j : Nat) : List (Nat × Nat × Nat) :=
  (triples n).flatMap fun t => withMember i t ++ withMember j t

/-- `triangles_map_get_values(Map, Keys, Values)` (`pair_invariants.pl:405-412`) -/
def trianglesMapGetValues (map : List ((Nat × Nat × Nat) × Term)) (keys : List (Nat × Nat × Nat)) :
    Option (List Term) := keys.mapM fun key => List.lookup key map

/-- `inv_triangles(AdjMatrix, Matrix)` (`pair_invariants.pl:320-336`) -/
def invTriangles (adjMatrix : Rows) : Post Constraint Rows := do
  let trianglesMap ← trianglesReifMap aux adjMatrix
  pairMatrix aux adjMatrix.length 0 fun i j x => do
    let n : Int := adjMatrix.length
    let vars ← trianglesMapGetValues trianglesMap (triangleKeys adjMatrix.length i j)
    countEq x (n * (n - 1) * (n - 2) / 3) (vars.map .neg)

/-- `dist2_matrix(AdjMatrix, D2Matrix)` (`pair_invariants.pl:445-463`) -/
def dist2Matrix (adjMatrix : Rows) : Post Constraint Rows :=
  pairMatrix aux adjMatrix.length (-1) fun i j y => do
    let xij ← aux.matrixGetCell adjMatrix i j
    let xs ← rowGates adjMatrix shorten andGate i j
    post (.boolArrayOrReif (xij :: xs) y)

/-- `inv_dist2(AdjMatrix, InvMatrix)` (`pair_invariants.pl:421-442`) -/
def invDist2 (adjMatrix : Rows) : Post Constraint Rows := do
  let d2Matrix ← dist2Matrix aux adjMatrix
  countGates aux adjMatrix.length d2Matrix shorten orGate d2Matrix.length

/-- `inv_minus_dist2(AdjMatrix, MinusInvMatrix)` (`pair_invariants.pl:417-419`) -/
def invMinusDist2 (adjMatrix : Rows) : Post Constraint Rows := do
  multiplyMatrixByConst (← invDist2 aux adjMatrix)

end Model

end SymBreak.PairInvariants
