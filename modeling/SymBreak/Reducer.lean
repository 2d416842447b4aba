import SymBreak.LexPosting

/-!
# The reducer of lex implications

Model of `LexImplicationsReducer` (`core/LexImplicationsReducer.h`,
`core/LexImplicationsReducer.cc`). It writes two DIMACS files, one with the definitions of the
equality variables (and, for a delta, the implications given and the subgraph), one with the
implications to reduce, runs the external `./glucoseReducer` on them and keeps the implications
whose numbers it writes. A file is its lines, a line its numbers; the program is a parameter, a
function from the two files to the lines of its output.
-/

namespace SymBreak

open Cnf Matrix ConstraintSolver

/-- A line of numbers, closed by `0`. -/
abbrev Line := List Int

/-- The implications file: the numbers of its header `p cnf vars clauses`, and the lines below it.
-/
structure ImpFile where
  vars : Nat
  clauses : Nat
  lines : List Line

/-- `./glucoseReducer -verb=0`: the lines it writes, from the Tseitin file and the implications
file. -/
abbrev GlucoseReducer := List Line → ImpFile → List (List Char)

/-- The members of `LexImplicationsReducer`. -/
structure LexImplicationsReducer where
  iffReifCache : IffReifCache
  nextBoolID : Nat
  adjMatrix : Matrix Int
  idx : CanonicalIndexing
  subgraphStr : List Char

namespace LexImplicationsReducer

/-- The constructor (`LexImplicationsReducer.cc:9-28`). -/
def new (n : Nat) (idx : CanonicalIndexing) : LexImplicationsReducer :=
  let (adjMatrix, nextBoolID) := (List.range n).foldl (fun (adjMatrix, nextBoolID) i =>
    (List.range' (i + 1) (n - (i + 1))).foldl (fun (adjMatrix, nextBoolID) j =>
      ((adjMatrix.set i j nextBoolID).set j i nextBoolID, nextBoolID + 1))
      (adjMatrix, nextBoolID)) ((Matrix.new n n, 1) : Matrix Int × Nat)
  { iffReifCache := [], nextBoolID, adjMatrix, idx, subgraphStr := [] }

/-- The constructor with a subgraph (`LexImplicationsReducer.cc:30-33`). -/
def newSubgraph (n : Nat) (idx : CanonicalIndexing) (subgraphStr : List Char) :
    LexImplicationsReducer :=
  { new n idx with subgraphStr }

/-! ## The files -/

/-- The four lines that define `t` as `b1 = b2`. -/
def tseitinLines (b1 b2 t : Int) : List Line :=
  [[b1, b2, t, 0], [-b1, -b2, t, 0], [b1, -b2, -t, 0], [-b1, b2, -t, 0]]

/-- One turn of the inner loop of `writeTseitenCnfFile` (`LexImplicationsReducer.cc:89-100`): a pair
not cached in either order gets a variable and its definition. -/
def tseitinTurn (arr1 arr2 : List Int) (rf : LexImplicationsReducer × List Line) (j : Nat) :
    LexImplicationsReducer × List Line :=
  let (r, tsFile) := rf
  let b1 := arr1.getD j 0
  let b2 := arr2.getD j 0
  if r.iffReifCache.lookup (b1, b2) = none ∧ r.iffReifCache.lookup (b2, b1) = none then
    let t : Int := r.nextBoolID
    ({ r with iffReifCache := ((b1, b2), t) :: r.iffReifCache, nextBoolID := r.nextBoolID + 1 },
      tsFile ++ tseitinLines b1 b2 t)
  else (r, tsFile)

/-- The inner loop over the positions before the last one. -/
def tseitins (arr1 arr2 : List Int) (length : Nat) (rf : LexImplicationsReducer × List Line) :
    LexImplicationsReducer × List Line :=
  (List.range (length - 1)).foldl (tseitinTurn arr1 arr2) rf

/-- One turn of the loop of `boolArraysLexImplication` (`LexImplicationsReducer.cc:236-251`): the
variable of the pair, from the cache or, when it is not cached, a new one. -/
def lexTurn (arr1 arr2 : List Int) (cr : List Int × LexImplicationsReducer) (i : Nat) :
    List Int × LexImplicationsReducer :=
  let (c, r) := cr
  let b1 := arr1.getD i 0
  let b2 := arr2.getD i 0
  match r.iffReifCache.lookup (b1, b2) with
  | some t => (c ++ [-t], r)
  | none =>
    match r.iffReifCache.lookup (b2, b1) with
    | some t => (c ++ [-t], r)
    | none =>
      let t : Int := r.nextBoolID
      (c ++ [-t], { r with
        iffReifCache := ((b1, b2), t) :: r.iffReifCache
        nextBoolID := r.nextBoolID + 1 })

/-- `boolArraysLexImplication` (`LexImplicationsReducer.cc:233-256`): the clause, with what the loop
leaves of the cache. -/
def boolArraysLexImplication (r : LexImplicationsReducer) (arr1 arr2 : List Int) (length : Nat) :
    List Int × LexImplicationsReducer :=
  let (c, r) := (List.range (length - 1)).foldl (lexTurn arr1 arr2) ([], r)
  (c ++ [-(arr1.getD (length - 1) 0), arr2.getD (length - 1) 0], r)

/-- `writeTseitenCnfFile(leximps)` (`LexImplicationsReducer.cc:78-103`) -/
def writeTseitenCnfFile (r : LexImplicationsReducer) (leximps : List LexImplication) :
    LexImplicationsReducer × List Line :=
  let arr1 := indexing r.idx r.adjMatrix
  leximps.foldl (fun (r, tsFile) imp =>
    let arr2 := indexing r.idx (r.adjMatrix.permute imp.perm)
    tseitins arr1 arr2 imp.length (r, tsFile)) (r, [])

/-- The unit clauses of the subgraph (`LexImplicationsReducer.cc:155-162`). -/
def subgraphUnits (r : LexImplicationsReducer) : List Line :=
  let k := Nat.sqrt r.subgraphStr.length
  (List.range r.subgraphStr.length).flatMap fun j =>
    let val : Int := if r.subgraphStr.getD j '0' = '0' then -1 else 1
    let x := r.adjMatrix.get (j / k) (j % k)
    if x ≠ 0 then [[val * x, 0]] else []

/-- The definitions of one of the implications given, and its clause
(`LexImplicationsReducer.cc:119-138`). -/
def givenTurn (arr1 : List Int) (rf : LexImplicationsReducer × List Line) (imp : LexImplication) :
    LexImplicationsReducer × List Line :=
  let (r, tsFile) := rf
  let arr2 := indexing r.idx (r.adjMatrix.permute imp.perm)
  let (r, tsFile) := tseitins arr1 arr2 imp.length (r, tsFile)
  let (clause, r) := r.boolArraysLexImplication arr1 arr2 imp.length
  (r, tsFile ++ [clause ++ [0]])

/-- `writeTseitenCnfFile(leximps, delta)` (`LexImplicationsReducer.cc:107-164`): besides the
definitions, the clauses of `leximps` and the units of the subgraph. -/
def writeTseitenCnfFileDelta (r : LexImplicationsReducer) (leximps delta : List LexImplication) :
    LexImplicationsReducer × List Line :=
  let arr1 := indexing r.idx r.adjMatrix
  let (r, tsFile) := leximps.foldl (givenTurn arr1) (r, [])
  let (r, tsFile) := delta.foldl (fun (r, tsFile) imp =>
    let arr2 := indexing r.idx (r.adjMatrix.permute imp.perm)
    tseitins arr1 arr2 imp.length (r, tsFile)) (r, tsFile)
  (r, tsFile ++ r.subgraphUnits)

/-- The lines of the implications file, with what they leave of the cache. -/
def impLines (r : LexImplicationsReducer) (imps : List LexImplication) :
    LexImplicationsReducer × List Line :=
  let arr1 := indexing r.idx r.adjMatrix
  imps.foldl (fun (r, lines) imp =>
    let arr2 := indexing r.idx (r.adjMatrix.permute imp.perm)
    let (clause, r) := r.boolArraysLexImplication arr1 arr2 imp.length
    (r, lines ++ [clause ++ [0]])) (r, [])

/-- `writeImplicationsCnfFile(leximps)` (`LexImplicationsReducer.cc:189-209`) -/
def writeImplicationsCnfFile (r : LexImplicationsReducer) (leximps : List LexImplication) :
    LexImplicationsReducer × ImpFile :=
  let vars := r.nextBoolID - 1
  let k := Nat.sqrt r.subgraphStr.length
  let clauses := r.iffReifCache.length * 4 + leximps.length + (r.subgraphStr.length - k)
  let (r, lines) := r.impLines leximps
  (r, { vars, clauses, lines })

/-- `writeImplicationsCnfFile(leximps, delta)` (`LexImplicationsReducer.cc:211-230`) -/
def writeImplicationsCnfFileDelta (r : LexImplicationsReducer)
    (leximps delta : List LexImplication) : LexImplicationsReducer × ImpFile :=
  let vars := r.nextBoolID - 1
  let clauses := r.iffReifCache.length * 4 + leximps.length + delta.length
  let (r, lines) := r.impLines delta
  (r, { vars, clauses, lines })

/-! ## The output of the reducer -/

/-- `atoi`: blanks, a sign, and the digits up to the first other character. -/
def atoi (l : List Char) : Int :=
  let digits (l : List Char) : Int := Nat.ofDigitChars 10 (l.takeWhile Char.isDigit) 0
  match l.dropWhile Char.isWhitespace with
  | '-' :: l => -digits l
  | '+' :: l => digits l
  | l => digits l

/-- `runReducer` (`LexImplicationsReducer.cc:167-186`): each line loses its last character, and its
number counts from `1`. -/
def runReducer (glucoseReducer : GlucoseReducer) (tsFile : List Line) (impFile : ImpFile) :
    List Int :=
  (glucoseReducer tsFile impFile).map fun line => atoi line.dropLast - 1

/-- `leximps[res[i]]` -/
def nth (imps : List LexImplication) (i : Int) : Except (Halt Exn) LexImplication :=
  match i with
  | .ofNat i =>
    match imps[i]? with
    | some imp => .ok imp
    | none => .error (.raised .outOfRange)
  | .negSucc _ => .error (.raised .outOfRange)

/-- `reduce` (`LexImplicationsReducer.cc:50-61`) -/
def reduce (glucoseReducer : GlucoseReducer) (r : LexImplicationsReducer)
    (leximps : List LexImplication) : Except (Halt Exn) (List LexImplication) :=
  let (r, tsFile) := r.writeTseitenCnfFile leximps
  let (_, impFile) := r.writeImplicationsCnfFile leximps
  (runReducer glucoseReducer tsFile impFile).mapM (nth leximps)

/-- `reduceDelta` (`LexImplicationsReducer.cc:64-75`) -/
def reduceDelta (glucoseReducer : GlucoseReducer) (r : LexImplicationsReducer)
    (leximps delta : List LexImplication) : Except (Halt Exn) (List LexImplication) :=
  let (r, tsFile) := r.writeTseitenCnfFileDelta leximps delta
  let (_, impFile) := r.writeImplicationsCnfFileDelta leximps delta
  (runReducer glucoseReducer tsFile impFile).mapM (nth delta)

end LexImplicationsReducer

/-! ## What the files say -/

/-- The clause of a line. -/
def lineClause (l : Line) : Clause := (l.takeWhile (· ≠ 0)).map toLit

/-- The clauses of a file. -/
def fileFormula (lines : List Line) : Formula := lines.map lineClause

/-- The reducer writes, each followed by one more character, the 1-based numbers of some of the
implications that entail all of them, together with the Tseitin clauses. -/
def GlucoseReducer.Correct (glucoseReducer : GlucoseReducer) : Prop :=
  ∀ tsFile impFile, ∃ kept : List Nat,
    List.Forall₂ (fun i line => ∃ c, line = Nat.toDigits 10 (i + 1) ++ [c]) kept
      (glucoseReducer tsFile impFile) ∧
    (∀ i ∈ kept, i < impFile.lines.length) ∧
    ∀ σ, Sat σ (fileFormula tsFile) →
      (∀ i ∈ kept, ∀ l, impFile.lines[i]? = some l → ClauseHolds σ (lineClause l)) →
      Sat σ (fileFormula impFile.lines)

/-- A reducer that tries every assignment. -/
def bruteForceReducer : GlucoseReducer := fun tsFile impFile =>
  (irredundant (fileFormula tsFile) (fileFormula impFile.lines)).map fun i =>
    Nat.toDigits 10 (i + 1) ++ [' ']

theorem bruteForceReducer_correct : bruteForceReducer.Correct := by
  intro tsFile impFile
  refine ⟨irredundant (fileFormula tsFile) (fileFormula impFile.lines), ?_, fun i hi => ?_,
    fun σ hσ h => ?_⟩
  · rw [bruteForceReducer, List.forall₂_map_right_iff]
    exact List.forall₂_same.mpr fun i _ => ⟨' ', rfl⟩
  · simpa [fileFormula] using irredundant_lt hi
  · refine irredundant_entails hσ fun j hj c hc => ?_
    simp only [fileFormula, List.getElem?_map, Option.map_eq_some_iff] at hc
    obtain ⟨l, hl, rfl⟩ := hc
    exact h j hj l hl

end SymBreak
