import SymBreak.Lib.Cnf
import SymBreak.Lib.Loop
import SymBreak.Matrix
import SymBreak.ParseUtils

/-!
# The extended DIMACS format

Model of `core/Dimacs.h`: `readClause`, `parse_DIMACS_main`, and `parse_extended_DIMACS_main`,
which reads a `v n` line and `e i j k` lines into the adjacency matrix of literals besides the
clauses. A solver is the number of its variables, the clauses handed to `addClause_`, and the
matrix. The `while` loops have fuel (`Converges`).

`Line` is a line of the format and `Text` the spelling of a sequence of lines.

Results:
* **`parseExtendedDIMACSMain_text`**: on a well-formed text the parser returns what the lines say,
  one after another (`Line.run`); `parseDIMACSMain_text` is the same for the plain one.
* `bare_runLines_plain`: the lines of the graph change nothing but the matrix.
* `entries_runLines`: the last edge line of a pair decides the two entries.
* `Text.plain`: a text without its lines of the graph is a text.
* **`edgeLiterals_exact_iff`**: the clauses of the two parsers agree, but an edge line stores the
  literal of the next variable, so both meet only on texts without edge lines.
-/

namespace SymBreak

open Cnf

instance : Inhabited Lit := ⟨⟨0, false⟩⟩

namespace Dimacs

/-! ## The parser -/

/-- What the parser writes to of `SolverSym`: `newVar`, `addClause_` and `pAdjMatrix`. -/
structure SolverSym where
  nVars : Nat
  clauses : Formula
  pAdjMatrix : Option (Matrix Lit)

/-- `mkLit` (`SolverTypes.h:66`). -/
def mkLit (var : Nat) (sign : Bool) : Lit := ⟨var, sign⟩

/-- `while (var >= S.nVars()) S.newVar();` -/
def SolverSym.newVars (S : SolverSym) (var : Nat) : SolverSym :=
  { S with nVars := max S.nVars (var + 1) }

/-- `S.addClause_(lits)` -/
def SolverSym.addClause_ (S : SolverSym) (lits : Clause) : SolverSym :=
  { S with clauses := S.clauses ++ [lits] }

/-- `var = abs(parsed_lit)-1` -/
def varOf (parsed_lit : Int) : Nat := parsed_lit.natAbs - 1

/-- `(parsed_lit > 0) ? mkLit(var) : ~mkLit(var)` -/
def clauseLit (parsed_lit : Int) : Lit :=
  if 0 < parsed_lit then mkLit (varOf parsed_lit) false else (mkLit (varOf parsed_lit) false).neg

abbrev Result (α : Type) := Except (Halt ParseError) α

/-- An error of a reader stops the parser. -/
def lift {α : Type} : Except ParseError α → Result α
  | .ok a => .ok a
  | .error e => .error (.raised e)

/-- `readClause` (`Dimacs.h:35-46`). -/
def readClause : Nat → Input → SolverSym → Clause → Result (Clause × Input × SolverSym)
  | 0, _, _, _ => .error .outOfFuel
  | fuel + 1, inp, S, lits => do
    let (parsed_lit, inp) ← lift (parseInt inp)
    if parsed_lit = 0 then .ok (lits, inp, S)
    else readClause fuel inp (S.newVars (varOf parsed_lit)) (lits ++ [clauseLit parsed_lit])

/-- The solver and the counters of the parser. -/
structure State where
  S : SolverSym
  vars : Int
  clauses : Int
  cnt : Nat

/-- The start of both parsers. -/
def State.start (S : SolverSym) : State := ⟨S, 0, 0, 0⟩

/-- The branch of `'p'` (`Dimacs.h:57-66`, `Dimacs.h:104-113`). -/
def readHeader (inp : Input) (st : State) : Result (Input × State) :=
  match eagerMatch "p cnf".toList inp with
  | (true, inp) => do
    let (vars, inp) ← lift (parseInt inp)
    let (clauses, inp) ← lift (parseInt inp)
    .ok (inp, { st with vars := vars, clauses := clauses })
  | (false, inp) => .error (.raised (.unexpectedChar inp.head?))

/-- The branch of a clause (`Dimacs.h:69-73`, `Dimacs.h:130-134`). -/
def addClause (fuel : Nat) (inp : Input) (st : State) : Result (Input × State) := do
  let (lits, inp, S) ← readClause fuel inp st.S []
  .ok (inp, { st with S := S.addClause_ lits, cnt := st.cnt + 1 })

/-- The branch of `'v'` (`Dimacs.h:117-121`). -/
def readVertices (inp : Input) (st : State) : Result (Input × State) := do
  let (nvert, inp) ← lift (parseInt inp)
  if nvert < 0 then .error (.raised .outOfRange)
  else
    .ok (inp, { st with S := { st.S with pAdjMatrix := some (.new nvert.toNat nvert.toNat) } })

/-- `S.pAdjMatrix->set(i,j,l)`, then the same with `j` and `i` (`Dimacs.h:127-128`). -/
def setEdge (S : SolverSym) (i j : Int) (l : Lit) : Result SolverSym :=
  match S.pAdjMatrix with
  | none => .error (.raised .nullPointer)
  | some M =>
    if 0 ≤ i ∧ i < M.nRows ∧ 0 ≤ j ∧ j < M.nCols then
      .ok { S with
        pAdjMatrix := some ((M.set i.toNat j.toNat l).set j.toNat i.toNat l) }
    else .error (.raised .outOfRange)

/-- The branch of `'e'` (`Dimacs.h:122-129`). No variable has a negative number. -/
def readEdge (inp : Input) (st : State) : Result (Input × State) := do
  let (i, inp) ← lift (parseInt inp)
  let (j, inp) ← lift (parseInt inp)
  let (k, inp) ← lift (parseInt inp)
  if k < 0 then .error (.raised .outOfRange)
  else
    let S ← setEdge st.S i j (mkLit k.toNat false)
    .ok (inp, { st with S := S })

/-- A turn of `parse_DIMACS_main` at a character `c`, in front of `inp`. -/
def dimacsTurn (fuel : Nat) (c : Char) (inp : Input) (st : State) : Result (Input × State) :=
  if c = 'p' then readHeader (c :: inp) st
  else if c = 'c' then .ok (skipLine (c :: inp), st)
  else addClause fuel (c :: inp) st

/-- A turn of `parse_extended_DIMACS_main` at a character `c`, in front of `inp`. -/
def extendedTurn (fuel : Nat) (c : Char) (inp : Input) (st : State) : Result (Input × State) :=
  if c = 'p' then readHeader (c :: inp) st
  else if c = 'c' then .ok (skipLine (c :: inp), st)
  else if c = 'v' then readVertices inp st
  else if c = 'e' then readEdge inp st
  else addClause fuel (c :: inp) st

/-- `for (;;)`, until `*in == EOF`. -/
def parseLoop (turn : Nat → Char → Input → State → Result (Input × State)) :
    Nat → Input → State → Result State
  | 0, _, _ => .error .outOfFuel
  | fuel + 1, inp, st =>
    match skipWhitespace inp with
    | [] => .ok st
    | c :: inp => do
      let (inp, st) ← turn fuel c inp st
      parseLoop turn fuel inp st

/-- The warnings (`Dimacs.h:75-78`, `Dimacs.h:136-139`). -/
def State.warnings (st : State) : List String :=
  (if st.vars ≠ st.S.nVars then
    ["WARNING! DIMACS header mismatch: wrong number of variables.\n"] else []) ++
  (if st.cnt ≠ st.clauses then
    ["WARNING! DIMACS header mismatch: wrong number of clauses.\n"] else [])

/-- `parse_DIMACS_main` (`Dimacs.h:48-79`). -/
def parseDIMACSMain (inp : Input) (S : SolverSym) (fuel : Nat) :
    Result (SolverSym × List String) := do
  let st ← parseLoop dimacsTurn fuel inp (.start S)
  .ok (st.S, st.warnings)

/-- `parse_extended_DIMACS_main` (`Dimacs.h:95-140`). -/
def parseExtendedDIMACSMain (inp : Input) (S : SolverSym) (fuel : Nat) :
    Result (SolverSym × List String) := do
  let st ← parseLoop extendedTurn fuel inp (.start S)
  .ok (st.S, st.warnings)

/-! ## The format -/

/-- A line of the format. -/
inductive Line where
  | header (vars clauses : Int)
  | comment (words : List Char)
  | vertices (n : Int)
  | edge (i j k : Int)
  | clause (lits : List Int)
  deriving DecidableEq, Repr

/-- A line of the plain format. -/
def Line.isPlain : Line → Bool
  | .vertices _ | .edge _ _ _ => false
  | _ => true

/-- An `e` line that names the pair of `i` and `j`. -/
def Line.NamesPair (i j : Int) : Line → Prop
  | .edge a b _ => (a = i ∧ b = j) ∨ (a = j ∧ b = i)
  | _ => False

/-- The spelling of a line without its end; a clause is spelled with its closing `0`. -/
inductive Line.Spells : Line → List Char → Prop
  | header {vars clauses : Int} {t : List Char} :
      Numerals t [vars, clauses] → Spells (.header vars clauses) ("p cnf".toList ++ t)
  | vertices {n : Int} {t : List Char} : Numerals t [n] → Spells (.vertices n) ('v' :: t)
  | edge {i j k : Int} {t : List Char} : Numerals t [i, j, k] → Spells (.edge i j k) ('e' :: t)
  | clause {v : Int} {vs lits : List Int} {s t : List Char} :
      Numeral s v → Numerals t vs → v :: vs = lits ++ [0] → Spells (.clause lits) (s ++ t)

/-- The end of a line or of the text. -/
def Ends (rest : List Char) : Prop := ∀ c ∈ rest.head?, isWhitespace c = true

/-- The spelling of a text, with any whitespace in front of a line. -/
inductive Text : List Line → List Char → Prop
  | nil {ws : List Char} : Blank ws → Text [] ws
  | comment {ws words t : List Char} {ls : List Line} : Blank ws → '\n' ∉ words → Text ls t →
      Text (.comment words :: ls) (ws ++ ('c' :: words ++ '\n' :: t))
  | lastComment {ws words : List Char} : Blank ws → '\n' ∉ words →
      Text [.comment words] (ws ++ 'c' :: words)
  | line {ws s t : List Char} {l : Line} {ls : List Line} : Blank ws → l.Spells s → Ends t →
      Text ls t → Text (l :: ls) (ws ++ (s ++ t))

/-- A line is in order where the number of vertices is `size`, if there was a `v` line. -/
def Line.Ok (size : Option Int) : Line → Prop
  | .vertices n => size = none ∧ 0 ≤ n
  | .edge i j k => ∃ n, size = some n ∧ 0 ≤ i ∧ i < n ∧ 0 ≤ j ∧ j < n ∧ i ≠ j ∧ 1 ≤ k
  | .clause lits => ∀ l ∈ lits, l ≠ 0
  | _ => True

def Line.sizeAfter (size : Option Int) : Line → Option Int
  | .vertices n => some n
  | _ => size

/-- One `v` line, before any `e` line. -/
def WellFormed : Option Int → List Line → Prop
  | _, [] => True
  | size, l :: ls => l.Ok size ∧ WellFormed (l.sizeAfter size) ls

/-! ## What the lines say -/

/-- The variables of a clause. -/
def SolverSym.declare (S : SolverSym) (lits : List Int) : SolverSym :=
  { S with nVars := lits.foldl (fun n l => max n (varOf l + 1)) S.nVars }

/-- The effect of a line. -/
def Line.run (st : State) : Line → State
  | .header vars clauses => { st with vars := vars, clauses := clauses }
  | .comment _ => st
  | .vertices n => { st with S := { st.S with pAdjMatrix := some (.new n.toNat n.toNat) } }
  | .edge i j k =>
    let l := mkLit k.toNat false
    { st with
      S := { st.S with
        pAdjMatrix := st.S.pAdjMatrix.map fun M =>
          (M.set i.toNat j.toNat l).set j.toNat i.toNat l } }
  | .clause lits =>
    { st with
      S := (st.S.declare lits).addClause_ (lits.map clauseLit)
      cnt := st.cnt + 1 }

/-- The matrix has the size of the `v` line. -/
def Sized (size : Option Int) (st : State) : Prop :=
  ∀ n, size = some n → ∃ M, st.S.pAdjMatrix = some M ∧ (M.nRows : Int) = n ∧ (M.nCols : Int) = n

theorem sized_run {size : Option Int} {st : State} {l : Line} (hok : l.Ok size)
    (h : Sized size st) : Sized (l.sizeAfter size) (l.run st) := by
  cases l with
  | header | comment | clause => exact h
  | vertices n =>
    rintro m ⟨⟩
    exact ⟨_, rfl, Int.toNat_of_nonneg hok.2, Int.toNat_of_nonneg hok.2⟩
  | edge i j k =>
    intro n hn
    obtain ⟨M, hM, hr, hc⟩ := h n hn
    exact ⟨_, congrArg (Option.map _) hM, hr, hc⟩

/-! ## Reading a line -/

section Reading

variable {size : Option Int} {st : State} {l : Line} {s rest : List Char}

theorem lift_parseInt {inp inp' : Input} {v : Int} (h : parseInt inp = .ok (v, inp')) :
    lift (parseInt inp) = .ok (v, inp') := by rw [h]; rfl

theorem Ends.stops (h : Ends rest) : Stops rest :=
  fun c hc => isDigit_of_isWhitespace (h c hc)

/-- A clause is read to its closing `0`. -/
theorem readClause_reads {lits : List Int} (hlits : ∀ l ∈ lits, l ≠ 0) {inp : Input}
    (h : ReadsInts inp (lits ++ [0]) rest) (S : SolverSym) (acc : Clause) :
    Converges (fun k => readClause k inp S acc)
      (.ok (acc ++ lits.map clauseLit, rest, S.declare lits)) := by
  induction lits generalizing inp S acc with
  | nil =>
    obtain ⟨inp', hread, rfl⟩ := h
    refine .succ (.of_eq fun k => ?_)
    rw [readClause, lift_parseInt hread, List.map_nil, List.append_nil]
    rfl
  | cons l lits ih =>
    obtain ⟨hl, hlits⟩ := List.forall_mem_cons.mp hlits
    obtain ⟨inp', hread, h⟩ := h
    have hrest := ih hlits h (S.newVars (varOf l)) (acc ++ [clauseLit l])
    rw [List.append_assoc] at hrest
    refine .succ (hrest.congr fun k => ?_)
    rw [readClause, lift_parseInt hread, ok_bind]
    exact (if_neg hl).symm

theorem readHeader_reads {vars clauses : Int} {inp : Input}
    (h : ReadsInts inp [vars, clauses] rest) :
    readHeader ("p cnf".toList ++ inp) st =
      .ok (rest, (Line.header vars clauses).run st) := by
  obtain ⟨inp', hvars, inp'', hclauses, rfl⟩ := h
  rw [readHeader, eagerMatch_append]
  simp only [lift_parseInt hvars, lift_parseInt hclauses, ok_bind]
  rfl

theorem readVertices_reads {n : Int} (hok : (Line.vertices n).Ok size) {inp : Input}
    (h : ReadsInts inp [n] rest) :
    readVertices inp st = .ok (rest, (Line.vertices n).run st) := by
  obtain ⟨inp', hread, rfl⟩ := h
  rw [readVertices, lift_parseInt hread, ok_bind]
  exact if_neg (by exact not_lt.mpr hok.2)

theorem readEdge_reads {i j k : Int} (hok : (Line.edge i j k).Ok size) (hst : Sized size st)
    {inp : Input} (h : ReadsInts inp [i, j, k] rest) :
    readEdge inp st = .ok (rest, (Line.edge i j k).run st) := by
  obtain ⟨n, hn, hi, hin, hj, hjn, -, hk⟩ := hok
  obtain ⟨M, hM, hr, hc⟩ := hst n hn
  obtain ⟨inp₁, hread₁, inp₂, hread₂, inp₃, hread₃, rfl⟩ := h
  have hset : setEdge st.S i j (mkLit k.toNat false) = .ok ((Line.edge i j k).run st).S := by
    simp only [setEdge, hM, Line.run, Option.map_some]
    exact if_pos ⟨hi, by omega, hj, by omega⟩
  simp only [readEdge, lift_parseInt hread₁, lift_parseInt hread₂, lift_parseInt hread₃, ok_bind]
  rw [if_neg (by omega), hset]
  rfl

theorem addClause_reads {lits : List Int} (hlits : (Line.clause lits).Ok size) {inp : Input}
    (h : ReadsInts inp (lits ++ [0]) rest) :
    Converges (fun k => addClause k inp st) (.ok (rest, (Line.clause lits).run st)) :=
  .bind_ok (readClause_reads hlits h st.S []) (.const _)

/-- A numeral starts with a digit or a sign. -/
theorem numeral_head {v : Int} (h : Numeral s v) :
    ∃ c t, s = c :: t ∧ isWhitespace c = false ∧ c ≠ 'p' ∧ c ≠ 'c' ∧ c ≠ 'v' ∧ c ≠ 'e' := by
  cases h with
  | plain hd =>
    obtain ⟨c, t, rfl, hc⟩ := hd.head
    refine ⟨c, t, rfl, isWhitespace_of_isDigit hc, ?_, ?_, ?_, ?_⟩ <;>
    · rintro rfl
      exact absurd hc (by decide)
  | plus hd => exact ⟨'+', _, rfl, by decide⟩
  | minus hd => exact ⟨'-', _, rfl, by decide⟩

theorem spells_cons (hs : l.Spells s) : ∃ c t, s = c :: t := by
  cases hs with
  | header => exact ⟨'p', _, rfl⟩
  | vertices => exact ⟨'v', _, rfl⟩
  | edge => exact ⟨'e', _, rfl⟩
  | clause hs =>
    obtain ⟨c, t, rfl, -⟩ := numeral_head hs
    exact ⟨c, _, rfl⟩

/-- What the loop needs of a turn: it skips comments, and reads the lines of a kind. -/
structure TurnReads (turn : Nat → Char → Input → State → Result (Input × State))
    (kind : Line → Prop) : Prop where
  comment : ∀ k inp st, turn k 'c' inp st = .ok (skipLine ('c' :: inp), st)
  line : ∀ {l s rest size st}, kind l → l.Spells s → l.Ok size → Sized size st → Ends rest →
    ∃ c t, s = c :: t ∧ isWhitespace c = false ∧
      Converges (fun k => turn k c (t ++ rest) st) (.ok (rest, l.run st))

theorem extendedTurn_reads : TurnReads extendedTurn fun _ => True where
  comment k inp st := rfl
  line {l s rest size st} _ hs hok hst hrest := by
    cases hs with
    | header ht =>
      refine ⟨'p', _, rfl, by decide, .of_eq fun k => ?_⟩
      exact readHeader_reads (ht.reads hrest.stops)
    | vertices ht =>
      exact ⟨'v', _, rfl, by decide, .of_eq fun k => readVertices_reads hok (ht.reads hrest.stops)⟩
    | edge ht =>
      exact ⟨'e', _, rfl, by decide, .of_eq fun k => readEdge_reads hok hst (ht.reads hrest.stops)⟩
    | @clause v vs lits s t hs ht hvs =>
      obtain ⟨c, s', rfl, hws, hp, hc, hv, he⟩ := numeral_head hs
      have hreads : ReadsInts (c :: (s' ++ t ++ rest)) (lits ++ [0]) rest := by
        rw [← hvs, List.append_assoc]
        exact ⟨t ++ rest, parseInt_numeral blank_nil hs (ht.stops hrest.stops),
          ht.reads hrest.stops⟩
      refine ⟨c, s' ++ t, rfl, hws, (addClause_reads hok hreads).congr fun k => ?_⟩
      simp only [extendedTurn, if_neg hp, if_neg hc, if_neg hv, if_neg he]

/-- No plain line starts like a line of the graph. -/
theorem spells_plain (hs : l.Spells s) (hl : l.isPlain = true) {c : Char} {t : List Char}
    (h : s = c :: t) : c ≠ 'v' ∧ c ≠ 'e' := by
  cases hs with
  | header =>
    obtain rfl : 'p' = c := (List.cons.inj h).1
    exact ⟨by decide, by decide⟩
  | vertices | edge => exact absurd hl Bool.false_ne_true
  | clause hs ht hvs =>
    obtain ⟨d, s', rfl, -, -, -, hv, he⟩ := numeral_head hs
    obtain rfl : d = c := (List.cons.inj h).1
    exact ⟨hv, he⟩

theorem dimacsTurn_reads : TurnReads dimacsTurn fun l => l.isPlain = true where
  comment k inp st := rfl
  line {l s rest size st} hl hs hok hst hrest := by
    obtain ⟨c, t, hst, hws, hconv⟩ := extendedTurn_reads.line trivial hs hok hst hrest
    obtain ⟨hv, he⟩ := spells_plain hs hl hst
    refine ⟨c, t, hst, hws, hconv.congr fun k => ?_⟩
    simp only [extendedTurn, dimacsTurn, if_neg hv, if_neg he]

end Reading

/-! ## Reading a text -/

/-- The effect of a sequence of lines. -/
def runLines (st : State) (ls : List Line) : State := ls.foldl Line.run st

/-- **The loop reads a well-formed text line by line.** -/
theorem parseLoop_text {turn : Nat → Char → Input → State → Result (Input × State)}
    {kind : Line → Prop} (hturn : TurnReads turn kind) {ls : List Line} {t : List Char}
    (ht : Text ls t) {size : Option Int} {st : State} (hkind : ∀ l ∈ ls, kind l)
    (hok : WellFormed size ls) (hst : Sized size st) :
    Converges (fun k => parseLoop turn k t st) (.ok (runLines st ls)) := by
  induction ht generalizing size st with
  | @nil ws hws =>
    refine .succ (.of_eq fun k => ?_)
    rw [parseLoop, ← List.append_nil ws, skipWhitespace_blank hws]
    rfl
  | comment hws hwords _ ih =>
    obtain ⟨-, hkind⟩ := List.forall_mem_cons.mp hkind
    refine .succ ((ih hkind hok.2 hst).congr fun k => ?_)
    rw [parseLoop, skipWhitespace_blank hws, List.cons_append, skipWhitespace_cons (by decide)]
    simp only [hturn.comment, ← List.cons_append]
    rw [skipLine_line (by simpa using hwords), ok_bind]
  | lastComment hws hwords =>
    refine .succ (.succ (.of_eq fun k => ?_))
    rw [parseLoop, skipWhitespace_blank hws, skipWhitespace_cons (by decide)]
    simp only [hturn.comment]
    rw [skipLine_last (by simpa using hwords), ok_bind]
    rfl
  | @line ws s t l ls hws hs hends _ ih =>
    obtain ⟨hl, hkind⟩ := List.forall_mem_cons.mp hkind
    obtain ⟨c, s', rfl, hc, hconv⟩ := hturn.line hl hs hok.1 hst hends
    have hrest := ih hkind hok.2 (sized_run hok.1 hst)
    refine .succ ((hconv.bind_ok (g := fun p k => parseLoop turn k p.1 p.2) hrest).congr
      fun k => ?_)
    rw [parseLoop, skipWhitespace_blank hws, List.cons_append, skipWhitespace_cons hc]

/-- The extended parser returns what the lines say. -/
theorem parseExtendedDIMACSMain_text {ls : List Line} {t : List Char} (hok : WellFormed none ls)
    (ht : Text ls t) (S : SolverSym) :
    Converges (parseExtendedDIMACSMain t S)
      (.ok ((runLines (.start S) ls).S, (runLines (.start S) ls).warnings)) :=
  (parseLoop_text extendedTurn_reads ht (fun _ _ => trivial) hok fun _ h => nomatch h).bind_ok
    (.const _)

/-- The plain parser returns what the lines say. -/
theorem parseDIMACSMain_text {ls : List Line} {t : List Char} (hok : WellFormed none ls)
    (hplain : ∀ l ∈ ls, l.isPlain = true) (ht : Text ls t) (S : SolverSym) :
    Converges (parseDIMACSMain t S)
      (.ok ((runLines (.start S) ls).S, (runLines (.start S) ls).warnings)) :=
  (parseLoop_text dimacsTurn_reads ht hplain hok fun _ h => nomatch h).bind_ok (.const _)

/-- Without the lines of the graph a text stays well-formed. -/
theorem WellFormed.plain {ls : List Line} : ∀ {size size' : Option Int}, WellFormed size ls →
    WellFormed size' (ls.filter Line.isPlain) := by
  induction ls with
  | nil => exact fun _ => trivial
  | cons l ls ih =>
    intro size size' h
    cases l with
    | vertices | edge => exact ih h.2
    | header | comment => exact ⟨trivial, ih h.2⟩
    | clause => exact ⟨h.1, ih h.2⟩

/-! ## The clauses -/

/-- A state without its matrix. -/
def State.bare (st : State) : State := { st with S := { st.S with pAdjMatrix := none } }

theorem bare_run (st : State) (l : Line) :
    (l.run st).bare = if l.isPlain then l.run st.bare else st.bare := by
  cases l <;> rfl

/-- The lines of the graph change nothing but the matrix. -/
theorem bare_runLines (ls : List Line) : ∀ st : State,
    (runLines st ls).bare = runLines st.bare (ls.filter Line.isPlain) := by
  induction ls with
  | nil => exact fun _ => rfl
  | cons l ls ih =>
    intro st
    rw [runLines, List.foldl_cons, ← runLines, ih, bare_run, List.filter_cons]
    split <;> rfl

/-- **The clauses, the variables and the warnings do not depend on the lines of the graph.** -/
theorem bare_runLines_plain (ls : List Line) (st : State) :
    (runLines st ls).bare = (runLines st (ls.filter Line.isPlain)).bare := by
  rw [bare_runLines, bare_runLines, List.filter_filter]
  simp only [Bool.and_self]

/-! ## The entries -/

/-- The last edge line that names the pair of `i` and `j` is `e i j k`. -/
def LastEdge (ls : List Line) (i j k : Int) : Prop :=
  ∃ pre post, ls = pre ++ .edge i j k :: post ∧ ∀ l ∈ post, ¬ l.NamesPair i j

/-- The entries of the pair are the literal `l`. -/
def Holds (S : SolverSym) (i j : Int) (l : Lit) : Prop :=
  ∃ M, S.pAdjMatrix = some M ∧ M.get i.toNat j.toNat = l ∧ M.get j.toNat i.toNat = l

section Entries

variable {size : Option Int} {st : State} {ls : List Line} {i j k n : Int}

theorem get_setPair {α : Type} [Inhabited α] {M : Matrix α} {n i j a b : Nat} (hr : M.nRows = n)
    (hc : M.nCols = n) (hi : i < n) (hj : j < n) (hb : b < n) (v : α) :
    ((M.set i j v).set j i v).get a b =
      if (a = i ∧ b = j) ∨ (a = j ∧ b = i) then v else M.get a b := by
  subst hr
  have hcols : (M.set i j v).nCols = M.nRows := hc
  rw [Matrix.get_set (M := M.set i j v) hj (hcols ▸ hi) (hcols ▸ hb),
    Matrix.get_set hi (hc ▸ hj) (hc ▸ hb)]
  split_ifs <;> first | rfl | tauto

theorem Sized.exists_matrix (h : Sized size st) (hn : size = some n) :
    ∃ M, st.S.pAdjMatrix = some M ∧ M.nRows = n.toNat ∧ M.nCols = n.toNat := by
  obtain ⟨M, hM, hr, hc⟩ := h n hn
  exact ⟨M, hM, by omega, by omega⟩

/-- An edge line sets both entries. -/
theorem holds_edge (hok : (Line.edge i j k).Ok size) (hst : Sized size st) :
    Holds ((Line.edge i j k).run st).S i j (mkLit k.toNat false) := by
  obtain ⟨n, hn, hi, hin, hj, hjn, hij, -⟩ := hok
  obtain ⟨M, hM, hr, hc⟩ := hst.exists_matrix hn
  refine ⟨_, congrArg (Option.map _) hM, ?_, ?_⟩
  · rw [get_setPair hr hc (by omega) (by omega) (by omega)]
    exact if_pos (.inl ⟨rfl, rfl⟩)
  · rw [get_setPair hr hc (by omega) (by omega) (by omega)]
    exact if_pos (.inr ⟨rfl, rfl⟩)

/-- A line that names another pair leaves them. -/
theorem holds_run {l : Line} {x : Lit} (hok : l.Ok (some n)) (hst : Sized (some n) st)
    (hi : 0 ≤ i ∧ i < n) (hj : 0 ≤ j ∧ j < n) (hl : ¬ l.NamesPair i j) (h : Holds st.S i j x) :
    Holds (l.run st).S i j x := by
  cases l with
  | header | comment | clause => exact h
  | vertices m => exact absurd hok.1 (by simp)
  | edge a b k =>
    obtain ⟨m, hm, ha, han, hb, hbn, hab, -⟩ := hok
    obtain rfl : n = m := Option.some.inj hm
    obtain ⟨M, hM, hr, hc⟩ := hst.exists_matrix rfl
    obtain ⟨M', hM', hij, hji⟩ := h
    obtain rfl : M = M' := Option.some.inj (hM.symm.trans hM')
    have hne : ¬ ((a = i ∧ b = j) ∨ (a = j ∧ b = i)) := hl
    refine ⟨_, congrArg (Option.map _) hM, ?_, ?_⟩
    · rw [get_setPair hr hc (by omega) (by omega) (by omega), if_neg (by omega), hij]
    · rw [get_setPair hr hc (by omega) (by omega) (by omega), if_neg (by omega), hji]

theorem holds_runLines {x : Lit} (hok : WellFormed (some n) ls) (hst : Sized (some n) st)
    (hi : 0 ≤ i ∧ i < n) (hj : 0 ≤ j ∧ j < n) (hls : ∀ l ∈ ls, ¬ l.NamesPair i j)
    (h : Holds st.S i j x) : Holds (runLines st ls).S i j x := by
  induction ls generalizing st with
  | nil => exact h
  | cons l ls ih =>
    obtain ⟨hl, hls⟩ := List.forall_mem_cons.mp hls
    have hsize : l.sizeAfter (some n) = some n := by
      cases l with
      | vertices m => exact absurd hok.1.1 (by simp)
      | _ => rfl
    have hst' := sized_run hok.1 hst
    have hok' := hok.2
    rw [hsize] at hst' hok'
    exact ih hok' hst' hls (holds_run hok.1 hst hi hj hl h)

/-- **The last edge line of a pair decides its entries.** -/
theorem entries_runLines (hok : WellFormed size ls) (hst : Sized size st)
    (h : LastEdge ls i j k) :
    Holds (runLines st ls).S i j (mkLit k.toNat false) ∧ 1 ≤ k := by
  obtain ⟨pre, post, rfl, hpost⟩ := h
  induction pre generalizing size st with
  | nil =>
    have hedge : (Line.edge i j k).Ok size := hok.1
    obtain ⟨n, rfl, hi, hin, hj, hjn, -, hk⟩ := hedge
    have hrest : WellFormed (some n) post := hok.2
    have hsized : Sized (some n) ((Line.edge i j k).run st) := sized_run hok.1 hst
    have hfinal : Holds (runLines ((Line.edge i j k).run st) post).S i j (mkLit k.toNat false) :=
      holds_runLines hrest hsized ⟨hi, hin⟩ ⟨hj, hjn⟩ hpost (holds_edge hok.1 hst)
    exact ⟨hfinal, hk⟩
  | cons l pre ih => exact ih (sized_run hok.1 hst) hok.2

end Entries

/-! ## The text without the lines of the graph -/

theorem Text.blank_append {ls : List Line} {ws t : List Char} (hws : Blank ws) (h : Text ls t) :
    Text ls (ws ++ t) := by
  have happend : ∀ {ws' : List Char}, Blank ws' → Blank (ws ++ ws') := fun hws' c hc =>
    (List.mem_append.mp hc).elim (hws c) (hws' c)
  cases h with
  | nil h => exact .nil (happend h)
  | comment h hwords ht =>
    rw [← List.append_assoc]
    exact .comment (happend h) hwords ht
  | lastComment h hwords =>
    rw [← List.append_assoc]
    exact .lastComment (happend h) hwords
  | line h hs hends ht =>
    rw [← List.append_assoc]
    exact .line (happend h) hs hends ht

theorem Ends.append {ws t t' : List Char} (hws : Blank ws) (h : Ends t → Ends t') :
    Ends (ws ++ t) → Ends (ws ++ t') := by
  cases ws with
  | nil => exact h
  | cons c ws =>
    intro _ d hd
    obtain rfl : c = d := by simpa using hd
    exact hws c List.mem_cons_self

/-- Cutting the lines of the graph out of a text leaves a text of the other lines. -/
theorem Text.plain {ls : List Line} {t : List Char} (h : Text ls t) :
    ∃ t', t'.Sublist t ∧ Text (ls.filter Line.isPlain) t' ∧ (Ends t → Ends t') := by
  induction h with
  | nil hws => exact ⟨_, .refl _, .nil hws, id⟩
  | comment hws hwords _ ih =>
    obtain ⟨t', hsub, ht', -⟩ := ih
    exact ⟨_, ((hsub.cons_cons _).append_left _).append_left _, .comment hws hwords ht',
      .append hws id⟩
  | lastComment hws hwords => exact ⟨_, .refl _, .lastComment hws hwords, id⟩
  | @line ws s t l ls hws hs hends _ ih =>
    obtain ⟨t', hsub, ht', hends'⟩ := ih
    rw [List.filter_cons]
    split
    · obtain ⟨c, s', rfl⟩ := spells_cons hs
      exact ⟨_, (hsub.append_left _).append_left _, .line hws hs (hends' hends) ht',
        .append hws fun h => h⟩
    · exact ⟨ws ++ t', (hsub.trans (List.sublist_append_right s t)).append_left _,
        ht'.blank_append hws, .append hws fun _ => hends' hends⟩

theorem numeral_digit {c : Char} {v : Int} (hc : c.isDigit = true) (hv : toInt (digit c) = v) :
    Numeral [c] v := by
  subst hv
  have h := Numeral.plain (s := [c]) ⟨by simp, by simpa using hc⟩
  rwa [decimal, List.foldl_cons, List.foldl_nil, Int.zero_mul, Int.zero_add] at h

theorem numerals_digit {c : Char} {v : Int} {t : List Char} {vs : List Int} (hc : c.isDigit = true)
    (hv : toInt (digit c) = v) (h : Numerals t vs) : Numerals (' ' :: c :: t) (v :: vs) := by
  have hspace : Blank [' '] := by simp [Blank, isWhitespace]
  exact .cons hspace (by simp) (numeral_digit hc hv) h

theorem blank_newline : Blank ['\n'] := by simp [Blank, isWhitespace]

theorem ends_newline {t : List Char} : Ends ('\n' :: t) := by simp [Ends, isWhitespace]

/-- Two vertices and their edge, which is the variable of the one clause. -/
def oneEdge : List Line := [.vertices 2, .edge 0 1 1, .clause [1]]

def oneEdgePlain : List Char := ['1', ' ', '0', '\n']

def oneEdgeText : List Char :=
  ['v', ' ', '2', '\n', 'e', ' ', '0', ' ', '1', ' ', '1', '\n'] ++ oneEdgePlain

theorem oneEdge_wellFormed : WellFormed none oneEdge :=
  ⟨⟨rfl, by decide⟩, ⟨2, rfl, by decide⟩, (by decide : ∀ l ∈ [(1 : Int)], l ≠ 0), trivial⟩

theorem oneEdge_plain : Text (oneEdge.filter Line.isPlain) oneEdgePlain :=
  .line (s := ['1', ' ', '0']) blank_nil
    (.clause (s := ['1']) (numeral_digit rfl rfl) (numerals_digit rfl rfl .nil) rfl)
    ends_newline (.nil blank_newline)

theorem oneEdge_text : Text oneEdge oneEdgeText := by
  have hedge : Text [.edge 0 1 1, .clause [1]]
      (['\n', 'e', ' ', '0', ' ', '1', ' ', '1', '\n'] ++ oneEdgePlain) :=
    .line (s := ['e', ' ', '0', ' ', '1', ' ', '1']) blank_newline
      (.edge (numerals_digit rfl rfl (numerals_digit rfl rfl (numerals_digit rfl rfl .nil))))
      ends_newline (oneEdge_plain.blank_append blank_newline)
  exact .line (s := ['v', ' ', '2']) blank_nil (.vertices (numerals_digit rfl rfl .nil))
    ends_newline hedge

/-! ## The literals of the edge lines -/

/-- What the extended parser is for: the clauses of the plain one on the text `t'` without the
lines of the graph, and for the last edge line of a pair the literal of its number. -/
def Agrees (ls : List Line) (t t' : List Char) (S : SolverSym) : Prop :=
  ∃ ext plain, Converges (parseExtendedDIMACSMain t S) (.ok ext) ∧
    Converges (parseDIMACSMain t' S) (.ok plain) ∧
    ext.1.clauses = plain.1.clauses ∧ ext.1.nVars = plain.1.nVars ∧ ext.2 = plain.2 ∧
    ∀ i j k, LastEdge ls i j k → Holds ext.1 i j (clauseLit k)

section EdgeLiterals

variable {ls : List Line} {t t' : List Char}

/-- The clauses agree on every well-formed text; the literals are those of the lines. -/
theorem agrees_iff (hok : WellFormed none ls) (ht : Text ls t)
    (ht' : Text (ls.filter Line.isPlain) t') (S : SolverSym) :
    Agrees ls t t' S ↔
      ∀ i j k, LastEdge ls i j k → Holds (runLines (.start S) ls).S i j (clauseLit k) := by
  have hext := parseExtendedDIMACSMain_text hok ht S
  have hplain := parseDIMACSMain_text hok.plain (fun l hl => (List.mem_filter.mp hl).2) ht' S
  constructor
  · rintro ⟨ext, plain, hext', -, -, -, -, h⟩
    obtain rfl := Except.ok.inj (hext.unique hext')
    exact h
  · intro h
    have hbare := bare_runLines_plain ls (.start S)
    have hclauses := congrArg (fun st : State => st.S.clauses) hbare
    have hvars := congrArg (fun st : State => st.S.nVars) hbare
    have hwarnings := congrArg State.warnings hbare
    exact ⟨_, _, hext, hplain, hclauses, hvars, hwarnings, h⟩

/-- The literal of an edge line is not the one a clause has for its number. -/
theorem mkLit_ne_clauseLit {k : Int} (hk : 1 ≤ k) : mkLit k.toNat false ≠ clauseLit k := by
  rw [clauseLit, if_pos (by omega)]
  intro h
  have hvar : k.toNat = varOf k := congrArg Lit.var h
  rw [varOf] at hvar
  omega

/-- Where there are edge lines, one comes last. -/
theorem exists_lastEdge {i j k : Int} (h : Line.edge i j k ∈ ls) :
    ∃ i j k, LastEdge ls i j k := by
  induction ls generalizing i j k with
  | nil => exact absurd h List.not_mem_nil
  | cons l ls ih =>
    by_cases hls : ∃ i j k, Line.edge i j k ∈ ls
    · obtain ⟨i, j, k, hls⟩ := hls
      obtain ⟨i, j, k, pre, post, rfl, hpost⟩ := ih hls
      exact ⟨i, j, k, l :: pre, post, rfl, hpost⟩
    · rcases List.mem_cons.mp h with rfl | hmem
      · refine ⟨i, j, k, [], ls, rfl, fun l hl hname => ?_⟩
        cases l with
        | edge a b c => exact hls ⟨a, b, c, hl⟩
        | _ => exact hname
      · exact absurd ⟨i, j, k, hmem⟩ hls

/-- An edge line always stores the wrong literal. -/
theorem not_agrees_of_edge (hok : WellFormed none ls) (ht : Text ls t)
    (ht' : Text (ls.filter Line.isPlain) t') (S : SolverSym) {i j k : Int}
    (h : Line.edge i j k ∈ ls) : ¬ Agrees ls t t' S := by
  rw [agrees_iff hok ht ht']
  intro hall
  obtain ⟨i, j, k, hlast⟩ := exists_lastEdge h
  obtain ⟨M, hM, hij, -⟩ := hall i j k hlast
  obtain ⟨⟨M', hM', hij', -⟩, hk⟩ :=
    entries_runLines hok (fun _ h => nomatch h : Sized none (.start S)) hlast
  obtain rfl : M = M' := Option.some.inj (hM.symm.trans hM')
  exact mkLit_ne_clauseLit hk (hij'.symm.trans hij)

/-- **The edge lines and the clauses translate numbers alike only where there are no edge
lines**: `parse_extended_DIMACS_main` stores `mkLit(k)`, `readClause` pushes `mkLit(k-1)`. -/
theorem edgeLiterals_exact_iff (hok : WellFormed none ls) (ht : Text ls t)
    (ht' : Text (ls.filter Line.isPlain) t') (S : SolverSym) :
    Agrees ls t t' S ↔ ∀ i j k, Line.edge i j k ∉ ls := by
  constructor
  · intro h i j k hmem
    exact not_agrees_of_edge hok ht ht' S hmem h
  · intro h
    refine (agrees_iff hok ht ht' S).mpr fun i j k hlast => ?_
    obtain ⟨pre, post, rfl, -⟩ := hlast
    exact absurd (by simp) (h i j k)

theorem edgeLiterals_exact_iff_oneEdge :
    Agrees oneEdge oneEdgeText oneEdgePlain ⟨0, [], none⟩ ↔
      ∀ i j k, Line.edge i j k ∉ oneEdge :=
  edgeLiterals_exact_iff oneEdge_wellFormed oneEdge_text oneEdge_plain _

/-- The entry of the edge is the literal of variable 1, the clause that of variable 0. -/
theorem edgeLiterals_not_exact : ¬ Agrees oneEdge oneEdgeText oneEdgePlain ⟨0, [], none⟩ :=
  not_agrees_of_edge oneEdge_wellFormed oneEdge_text oneEdge_plain _
    (i := 0) (j := 1) (k := 1) (by decide)

end EdgeLiterals

end Dimacs

end SymBreak
