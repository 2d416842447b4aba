import SymBreak.Glucose.ClauseDb
import SymBreak.Glucose.Trail

/-!
# The SAT solver

The members of `Solver` (`core/Solver.h`) and its minor methods, in the default mode: no selectors
(`incremental`), no proof file (`certifiedUNSAT`). What the solver reads off floating point numbers
is given to it, as a `Choice` for every turn of `search`: the activities are only compared, so a
natural number stands for each, and the two tests on averages are Booleans. The order heap is the
list of its elements.

`Inv` is the invariant between two calls of `search`'s operations, for the clauses `F` that were
added so far:
* the trail, the database and the reasons agree (`TrailOk`, `DbOk`, `ReasonsOk`);
* `F` entails every clause and every literal of level 0, and these entail `F` again
  (`Equivalent`);
* a clause with a watched literal that was propagated as false is satisfied no later (`Watched`);
* a variable that may be picked is in the heap (`HeapOk`).
-/

namespace SymBreak.Glucose

open Cnf

/-! ## The members -/

/-- The options that the solver reads (`Solver.cc:50-77`). -/
structure Options where
  sizeLBDQueue : Nat
  firstReduceDB : Nat
  incReduceDB : Nat
  specialIncReduceDB : Nat
  lbLBDFrozenClause : Nat
  lbSizeMinimizingClause : Nat
  lbLBDMinimizingClause : Nat
  ccminMode : Nat
  phaseSaving : Nat
  removeSatisfied : Bool

def Options.default : Options where
  sizeLBDQueue := 50
  firstReduceDB := 2000
  incReduceDB := 300
  specialIncReduceDB := 1000
  lbLBDFrozenClause := 30
  lbSizeMinimizingClause := 30
  lbLBDMinimizingClause := 6
  ccminMode := 2
  phaseSaving := 2
  removeSatisfied := true

/-- What the decisions of one turn of `search` are made from. -/
structure Choice where
  /-- `trail.size() > R * trailQueue.getavg()` -/
  blocks : Bool
  /-- `lbdQueue.getavg() * K > sumLBD / conflictsRestarts` -/
  restarts : Bool
  activity : Var → Nat
  clauseActivity : CRef → Nat
  /-- `irand(random_seed, ..)`, if `drand(random_seed) < random_var_freq` -/
  random : Option Nat

/-- The members of `Solver` by which variables are picked. -/
structure Order where
  polarity : Var → Bool
  decision : Var → Bool
  orderHeap : List Var

/-- The members of `Solver` that only `solve_` and `search` write. -/
structure Control where
  ok : Bool
  assumptions : List Lit
  model : List LBool
  conflict : List Lit
  simpDBAssigns : Int
  conflicts : Nat
  conflictsRestarts : Nat
  curRestart : Nat
  nbclausesbeforereduce : Nat
  lbdQueue : BQueue
  conflictBudget : Int
  propagationBudget : Int
  asynchInterrupt : Bool
  /-- the turns of `search` so far, which number the choices -/
  turns : Nat

/-- The members of `Solver` that propagation works on. -/
structure State extends Trail, ClauseDb

structure Solver extends State, Order, Control where
  qhead : Nat
  seen : Var → Bool
  propagations : Nat
  simpDBProps : Int

/-- The constructor (`Solver.cc:85-154`). -/
def Solver.new (o : Options) : Solver where
  nVars := 0
  assigns _ := .l_Undef
  vardata _ := ⟨none, 0⟩
  trail := []
  trailLim := []
  ca _ := Clause.new [] false
  next := 0
  clauses := []
  learnts := []
  watches := ⟨fun _ => [], fun _ => false⟩
  watchesBin := ⟨fun _ => [], fun _ => false⟩
  clausesLiterals := 0
  learntsLiterals := 0
  polarity _ := false
  decision _ := false
  orderHeap := []
  ok := true
  assumptions := []
  model := []
  conflict := []
  simpDBAssigns := -1
  conflicts := 0
  conflictsRestarts := 0
  curRestart := 1
  nbclausesbeforereduce := o.firstReduceDB
  lbdQueue := BQueue.initSize o.sizeLBDQueue
  conflictBudget := -1
  propagationBudget := -1
  asynchInterrupt := false
  turns := 0
  qhead := 0
  seen _ := false
  propagations := 0
  simpDBProps := 0

/-! ## Minor methods -/

namespace State

variable (s : State)

/-- `uncheckedEnqueue` (`Solver.cc:761-767`) -/
def uncheckedEnqueue (p : Lit) (source : Option CRef) : Result State :=
  if s.value p ≠ .l_Undef then .error (.raised (.assertion "value(p) == l_Undef"))
  else .ok { s with toTrail := s.toTrail.push p source }

/-- `locked` (`Solver.h:385-391`) -/
def locked (cr : CRef) : Bool :=
  let c := s.ca cr
  let first := s.value (c.get 0) == .l_True && s.reason (c.get 0).var == some cr
  if c.size > 2 then first
  else first || (s.value (c.get 1) == .l_True && s.reason (c.get 1).var == some cr)

/-- `satisfied` (`Solver.cc:330-339`) -/
def satisfied (c : Clause) : Bool := c.lits.any fun p => s.value p == .l_True

/-- `removeClause` (`Solver.cc:311-327`) -/
def removeClause (cr : CRef) : Result State := do
  let db ← s.detachClause cr
  let x := ((s.ca cr).get 0).var
  let vardata := if s.locked cr then
      Function.update s.vardata x { s.vardata x with reason := none }
    else s.vardata
  .ok { s with toClauseDb := db.setMark cr, vardata := vardata }

/-- A turn of the loop of `computeLBD`: the level of `p` is marked in `permDiff`, which has an entry
for each variable (`Solver.cc:204`). -/
def markLevel (m : (Nat → Bool) × Nat) (p : Lit) : Result ((Nat → Bool) × Nat) :=
  let l := s.level p.var
  if s.nVars ≤ l then .error (.raised .outOfRange)
  else if m.1 l then .ok m
  else .ok (Function.update m.1 l true, m.2 + 1)

/-- `computeLBD` (`Solver.cc:345-401`): the number of levels. -/
def computeLBD (lits : List Lit) : Result Nat :=
  return (← lits.foldlM s.markLevel (fun _ => false, 0)).2

end State

namespace Solver

variable (o : Options) (s : Solver)

/-- `insertVarOrder` (`Solver.h:349-350`) -/
def insertVarOrder (x : Var) : Solver :=
  if x ∉ s.orderHeap ∧ s.decision x = true then { s with orderHeap := s.orderHeap ++ [x] } else s

/-- `setDecisionVar` (`Solver.h:407-414`) -/
def setDecisionVar (v : Var) (b : Bool) : Solver :=
  insertVarOrder { s with decision := Function.update s.decision v b } v

/-- `newVar` (`Solver.cc:192-210`) -/
def newVar (sign dvar : Bool) : Var × Solver :=
  let v := s.nVars
  (v, setDecisionVar { s with
    nVars := v + 1
    assigns := Function.update s.assigns v .l_Undef
    vardata := Function.update s.vardata v ⟨none, 0⟩
    seen := Function.update s.seen v false
    polarity := Function.update s.polarity v sign } v dvar)

/-- One turn of the loop of `cancelUntil`, at position `c` of the trail. -/
def cancelTurn (s : Solver) (pc : Lit × Nat) : Solver :=
  let x := pc.1.var
  let keep : Bool := o.phaseSaving > 1 ||
    (o.phaseSaving == 1 && decide (s.trailLim.getLastD 0 < pc.2))
  insertVarOrder { s with
    assigns := Function.update s.assigns x .l_Undef
    polarity := if keep then Function.update s.polarity x pc.1.sign else s.polarity } x

/-- `cancelUntil` (`Solver.cc:449-461`) -/
def cancelUntil (level : Nat) : Solver :=
  if level < s.decisionLevel then
    { (s.trail.zipIdx.drop (s.lim level)).reverse.foldl (cancelTurn o) s with
      qhead := s.lim level
      trail := s.trail.take (s.lim level)
      trailLim := s.trailLim.take level }
  else s

/-- `order_heap.removeMin()`, of the variable of the greatest activity. -/
def removeMin (activity : Var → Nat) (heap : List Var) (x : Var) : Var × List Var :=
  let best := heap.foldl (fun b w => if activity b < activity w then w else b) x
  (best, (x :: heap).erase best)

/-- The condition under which `pickBranchLit` takes `next`. -/
def pickable (next : Option Var) : Bool :=
  next.any fun x => s.assigns x == .l_Undef && s.decision x

/-- The loop of `pickBranchLit` (`Solver.cc:479-485`), of at most `n` turns. -/
def pickLoop (activity : Var → Nat) : Nat → Solver → Option Var → Option Var × Solver
  | 0, s, next => if s.pickable next then (next, s) else (none, s)
  | n + 1, s, next =>
    if s.pickable next then (next, s)
    else match s.orderHeap with
      | [] => (none, s)
      | x :: heap =>
        let (next, heap) := removeMin activity heap x
        pickLoop activity n { s with orderHeap := heap } (some next)

/-- `pickBranchLit` (`Solver.cc:468-487`) -/
def pickBranchLit (choice : Choice) : Option Lit × Solver :=
  let next := match choice.random with
    | some r => s.orderHeap[r % s.orderHeap.length]?
    | none => none
  let (next, s) := pickLoop choice.activity s.orderHeap.length s next
  (next.map fun x => ⟨x, s.polarity x⟩, s)

end Solver

end SymBreak.Glucose
