import SymBreak.Glucose.AddClause
import SymBreak.Glucose.AnalyzeFinal
import SymBreak.Glucose.LearntClause

/-!
# The search

Model of `search` and `solve_` (`core/Solver.cc`). A turn of `search` propagates. On a conflict it
learns a clause, goes back to the level where that clause is unit, and sets its literal. Without
one, it restarts, or simplifies and reduces the database when these are due, and sets the next
literal: an assumption, or a decision. `solve_` calls `search` until it returns an answer.

`AssumeOk` says how the levels and the assumptions agree, and `Ready` is what holds at the start of
a turn.
-/

namespace SymBreak.Glucose

open Cnf

/-! ## Learning -/

/-- `setLBD` -/
def ClauseDb.setLBD (db : ClauseDb) (cr : CRef) (nblevels : Nat) : ClauseDb :=
  { db with ca := Function.update db.ca cr { db.ca cr with lbd := nblevels } }

/-- Attach a learnt clause (`Solver.cc:1086-1092`). -/
def ClauseDb.learn (db : ClauseDb) (ps : List Lit) (nblevels : Nat) : Result ClauseDb :=
  let cr := db.next
  let db := (db.alloc ps true).setLBD cr nblevels
  { db with learnts := db.learnts ++ [cr] }.attachClause cr

namespace Solver

/-- Set the first literal of the clause that was learnt (`Solver.cc:1083-1096`). -/
def learn (s : Solver) (c : LearntClause) : Result Solver :=
  match c.clause with
  | [] => .error (.raised .outOfRange)
  | [p] => do
    let t ← s.uncheckedEnqueue p none
    .ok { s with toState := t }
  | p :: ps => do
    let db ← s.toClauseDb.learn (p :: ps) c.lbd
    let t ← { s.toState with toClauseDb := db }.uncheckedEnqueue p (some s.next)
    .ok { s with toState := t }

/-! ## A turn of the search -/

/-- `LOWER_BOUND_FOR_BLOCKING_RESTART` (`Constants.h`) -/
def lowerBoundForBlockingRestart : Nat := 10000

/-- A turn of `search` goes on, or returns. -/
inductive Outcome where
  | continues (s : Solver)
  | returns (status : LBool) (s : Solver)

/-- Block restarts (`Solver.cc:1060-1064`). -/
def blockRestart (s : Solver) (choice : Choice) : Solver :=
  if s.conflictsRestarts > lowerBoundForBlockingRestart ∧ s.lbdQueue.isvalid ∧ choice.blocks then
    { s with lbdQueue := s.lbdQueue.fastclear }
  else s

/-- The turn in which the clause `confl` is false (`Solver.cc:1041-1100`). -/
def onConflict (o : Options) (s : Solver) (choice : Choice) (confl : CRef) : Result Outcome :=
  let s := { s with
    conflicts := s.conflicts + 1
    conflictsRestarts := s.conflictsRestarts + 1 }
  if s.decisionLevel = 0 then .ok (.returns .l_False s)
  else do
    let (c, s) ← (s.blockRestart choice).analyze o confl
    let lbdQueue ← s.lbdQueue.push c.lbd
    let s := cancelUntil o { s with lbdQueue := lbdQueue } c.btlevel
    let s ← s.learn c
    .ok (.continues s)

/-- Perform clause database reduction, if it is due (`Solver.cc:1119-1127`). -/
def reduceIfDue (o : Options) (s : Solver) (choice : Choice) : Result Solver :=
  if s.conflicts ≥ s.curRestart * s.nbclausesbeforereduce then
    if s.learnts = [] then .error (.raised (.assertion "learnts.size()>0"))
    else if s.nbclausesbeforereduce = 0 then .error (.raised .divisionByZero)
    else do
      let s := { s with curRestart := s.conflicts / s.nbclausesbeforereduce + 1 }
      let s ← s.reduceDB o choice
      .ok { s with nbclausesbeforereduce := s.nbclausesbeforereduce + o.incReduceDB }
  else .ok s

/-- What the loop over the assumptions found. -/
inductive Assumed where
  | falsified (p : Lit)
  | next (p : Lit)
  | none

/-- `while (decisionLevel() < assumptions.size())` (`Solver.cc:1130-1143`), over the assumptions
from this level on. -/
def assumeLoop : List Lit → Solver → Assumed × Solver
  | [], s => (.none, s)
  | p :: ps, s =>
    if s.value p = .l_True then
      assumeLoop ps { s with toTrail := s.newDecisionLevel }
    else if s.value p = .l_False then (.falsified p, s)
    else (.next p, s)

/-- Increase decision level and enqueue `next` (`Solver.cc:1158-1159`). -/
def enqueueNext (s : Solver) (next : Lit) : Result Outcome := do
  let s := { s with toTrail := s.newDecisionLevel }
  let t ← s.uncheckedEnqueue next none
  .ok (.continues { s with toState := t })

/-- Set the next literal (`Solver.cc:1129-1159`). -/
def decide (s : Solver) (choice : Choice) : Result Outcome :=
  match assumeLoop (s.assumptions.drop s.decisionLevel) s with
  | (.falsified p, s) => do
    let (conflict, s) ← s.analyzeFinal p.neg
    .ok (.returns .l_False { s with conflict := conflict })
  | (.next p, s) => s.enqueueNext p
  | (.none, s) =>
    match s.pickBranchLit choice with
    | (none, s) => .ok (.returns .l_True s)
    | (some p, s) => s.enqueueNext p

/-- The turn without a conflict (`Solver.cc:1101-1159`). -/
def onPropagated (o : Options) (s : Solver) (choice : Choice) : Result Outcome :=
  if s.lbdQueue.isvalid && choice.restarts then
    .ok (.returns .l_Undef (cancelUntil o { s with lbdQueue := s.lbdQueue.fastclear } 0))
  else do
    let (b, s) ← (if s.decisionLevel = 0 then s.simplify o else .ok (true, s))
    if !b then .ok (.returns .l_False s)
    else do
      let s ← s.reduceIfDue o choice
      s.decide choice

/-- A turn of `for (;;)` (`Solver.cc:1039-1161`). -/
def turn (o : Options) (s : Solver) (choice : Choice) : Result Outcome := do
  let (confl, s) ← s.propagate
  match confl with
  | some cr => s.onConflict o choice cr
  | none => s.onPropagated o choice

/-! ## The loops -/

variable (o : Options) (choices : Nat → Choice)

/-- `for (;;)` -/
def searchLoop : Nat → Solver → Result (LBool × Solver)
  | 0, _ => .error .outOfFuel
  | fuel + 1, s => do
    match ← turn o { s with turns := s.turns + 1 } (choices s.turns) with
    | .continues s => searchLoop fuel s
    | .returns status s => .ok (status, s)

/-- `search` (`Solver.cc:1030-1162`) -/
def search (fuel : Nat) (s : Solver) : Result (LBool × Solver) :=
  if !s.ok then .error (.raised (.assertion "ok")) else searchLoop o choices fuel s

/-- `withinBudget` (`Solver.h`) -/
def withinBudget (s : Solver) : Bool :=
  !s.asynchInterrupt && (s.conflictBudget < 0 || s.conflicts < s.conflictBudget) &&
    (s.propagationBudget < 0 || s.propagations < s.propagationBudget)

/-- `while (status == l_Undef)` (`Solver.cc:1242-1247`) -/
def solveLoop (fuel : Nat) : Nat → Solver → Result (LBool × Solver)
  | 0, _ => .error .outOfFuel
  | n + 1, s => do
    let (status, s) ← search o choices fuel s
    if !s.withinBudget then .ok (status, s)
    else if status = .l_Undef then solveLoop fuel n s
    else .ok (status, s)

/-- Copy the model, or note that the clauses are unsatisfiable (`Solver.cc:1261-1266`). -/
def conclude (s : Solver) (status : LBool) : Solver :=
  if status = .l_True then { s with model := (List.range s.nVars).map s.assigns }
  else if status = .l_False ∧ s.conflict = [] then { s with ok := false }
  else s

/-- `solve_` (`Solver.cc:1202-1283`) -/
def solve_ (fuel : Nat) (s : Solver) : Result (LBool × Solver) :=
  let s := { s with model := [], conflict := [] }
  if !s.ok then .ok (.l_False, s)
  else do
    let (status, s) ← solveLoop o choices fuel fuel s
    .ok (status, (s.conclude status).cancelUntil o 0)

/-- `solveLimited` (`Solver.h`) -/
def solveLimited (fuel : Nat) (s : Solver) (assumps : List Lit) : Result (LBool × Solver) :=
  solve_ o choices fuel { s with assumptions := assumps }

/-- `budgetOff` (`Solver.h`) -/
def budgetOff (s : Solver) : Solver := { s with conflictBudget := -1, propagationBudget := -1 }

/-- `solve` (`Solver.h`) -/
def solve (fuel : Nat) (s : Solver) (assumps : List Lit) : Result (Bool × Solver) := do
  let (status, s) ← solve_ o choices fuel { budgetOff s with assumptions := assumps }
  .ok (status == .l_True, s)

end Solver

variable {F : Formula} {s s' : Solver} {t : Trail} {p q : Lit} {as : List Lit} {l : Nat}

/-! ## Assumptions -/

/-- How the levels and the assumptions `as` agree: a decision of one of the first levels is the
assumption of that level, the assumptions of the levels so far hold, and a level behind the
assumptions has a literal of its own. -/
structure AssumeOk (as : List Lit) (t : Trail) : Prop where
  below : ∀ p ∈ as, p.var < t.nVars
  guess : ∀ p ∈ t.trail, t.reason p.var = none → 0 < t.level p.var → t.level p.var ≤ as.length →
    as[t.level p.var - 1]? = some p
  made : ∀ l p, l < t.decisionLevel → as[l]? = some p → p ∈ t.trail ∧ t.level p.var ≤ l + 1
  own : ∀ l, as.length ≤ l → l < t.decisionLevel → ∃ p ∈ t.trail, t.level p.var = l + 1

namespace AssumeOk

theorem zero (hok : TrailOk t) (hzero : t.decisionLevel = 0) (hbelow : ∀ p ∈ as, p.var < t.nVars) :
    AssumeOk as t := by
  refine ⟨hbelow, fun p hp _ hpos _ => ?_, fun l p hl => ?_, fun l _ hl => ?_⟩
  · have := hok.level_le hp
    omega
  · exact absurd hl (by omega)
  · exact absurd hl (by omega)

theorem cut (h : AssumeOk as t) (hok : TrailOk t) (hl : l ≤ t.decisionLevel) :
    AssumeOk as (t.cut l) := by
  refine ⟨h.below, fun p hp => h.guess p (List.mem_of_mem_take hp), fun m p hm hp => ?_,
    fun m has hm => ?_⟩
  · rw [TrailOk.cut_decisionLevel hl] at hm
    obtain ⟨hmem, hlevel⟩ := h.made m p (Nat.lt_of_lt_of_le hm hl) hp
    exact ⟨hok.mem_cut.mpr ⟨hmem, hlevel.trans hm⟩, hlevel⟩
  · rw [TrailOk.cut_decisionLevel hl] at hm
    obtain ⟨p, hmem, hlevel⟩ := h.own m has (Nat.lt_of_lt_of_le hm hl)
    exact ⟨p, hok.mem_cut.mpr ⟨hmem, hlevel.trans_le hm⟩, hlevel⟩

/-- A literal that is implied, or set at level 0. -/
theorem push (h : AssumeOk as t) (hok : TrailOk t) (hp : t.value p = .l_Undef)
    {source : Option CRef} (hsource : source ≠ none ∨ t.decisionLevel = 0) :
    AssumeOk as (t.push p source) := by
  refine ⟨h.below, fun q hq hr hpos hle => ?_, fun l q hl hq => ?_, fun l has hl => ?_⟩
  · rcases TrailOk.mem_push.mp hq with hq | rfl
    · have hne := hok.var_ne hp hq
      rw [TrailOk.push_reason hne] at hr
      rw [TrailOk.push_level hne] at hpos hle ⊢
      exact h.guess q hq hr hpos hle
    · rw [TrailOk.push_reason_self] at hr
      rw [TrailOk.push_level_self] at hpos
      exact absurd hpos (by rw [hsource.resolve_left (not_not.mpr hr)]; exact Nat.lt_irrefl 0)
  · obtain ⟨hmem, hlevel⟩ := h.made l q hl hq
    rw [TrailOk.push_level (hok.var_ne hp hmem)]
    exact ⟨TrailOk.mem_push.mpr (Or.inl hmem), hlevel⟩
  · obtain ⟨q, hmem, hlevel⟩ := h.own l has hl
    exact ⟨q, TrailOk.mem_push.mpr (Or.inl hmem),
      (TrailOk.push_level (hok.var_ne hp hmem)).trans hlevel⟩

/-- A new level for an assumption that holds already. -/
theorem dummy (h : AssumeOk as t) (hok : TrailOk t) (has : as[t.decisionLevel]? = some p)
    (hp : p ∈ t.trail) : AssumeOk as t.newDecisionLevel := by
  refine ⟨h.below, h.guess, fun l q hl hq => ?_, fun l hlen hl => ?_⟩
  · rw [newDecisionLevel_decisionLevel] at hl
    rcases Nat.lt_succ_iff_lt_or_eq.mp hl with hl | rfl
    · exact h.made l q hl hq
    · obtain rfl := Option.some.inj (has.symm.trans hq)
      exact ⟨hp, (hok.level_le hp).trans (Nat.le_succ _)⟩
  · rw [newDecisionLevel_decisionLevel] at hl
    have hlt := (List.getElem?_eq_some_iff.mp has).1
    exact h.own l hlen (by omega)

/-- A decision: the assumption of the new level, or any literal behind the assumptions. -/
theorem decision (h : AssumeOk as t) (hok : TrailOk t) (hp : t.value p = .l_Undef)
    (has : ∀ q, as[t.decisionLevel]? = some q → q = p) :
    AssumeOk as (t.newDecisionLevel.push p none) := by
  have hlevel : t.newDecisionLevel.decisionLevel = t.decisionLevel + 1 :=
    newDecisionLevel_decisionLevel t
  have hvalue : t.newDecisionLevel.value p = .l_Undef := hp
  have hok' := hok.newDecisionLevel
  refine ⟨h.below, fun q hq hr hpos hle => ?_, fun l q hl hq => ?_, fun l hlen hl => ?_⟩
  · rcases TrailOk.mem_push.mp hq with hq | rfl
    · have hne := hok'.var_ne hvalue hq
      rw [TrailOk.push_reason hne] at hr
      rw [TrailOk.push_level hne] at hpos hle ⊢
      exact h.guess q hq hr hpos hle
    · rw [TrailOk.push_level_self, hlevel] at hle ⊢
      rw [Nat.add_sub_cancel, List.getElem?_eq_getElem hle]
      exact congrArg some (has _ (List.getElem?_eq_getElem hle))
  · change l < t.newDecisionLevel.decisionLevel at hl
    rw [hlevel] at hl
    rcases Nat.lt_succ_iff_lt_or_eq.mp hl with hl | rfl
    · obtain ⟨hmem, hle⟩ := h.made l q hl hq
      rw [TrailOk.push_level (hok'.var_ne hvalue hmem)]
      exact ⟨TrailOk.mem_push.mpr (Or.inl hmem), hle⟩
    · obtain rfl := has q hq
      rw [TrailOk.push_level_self, hlevel]
      exact ⟨TrailOk.mem_push.mpr (Or.inr rfl), Nat.le_refl _⟩
  · change l < t.newDecisionLevel.decisionLevel at hl
    rw [hlevel] at hl
    rcases Nat.lt_succ_iff_lt_or_eq.mp hl with hl | rfl
    · obtain ⟨q, hmem, hle⟩ := h.own l hlen hl
      exact ⟨q, TrailOk.mem_push.mpr (Or.inl hmem),
        (TrailOk.push_level (hok'.var_ne hvalue hmem)).trans hle⟩
    · exact ⟨p, TrailOk.mem_push.mpr (Or.inr rfl), (TrailOk.push_level_self _ p none).trans hlevel⟩

/-- Every level has a variable of its own, when the assumptions are on different variables: that of
the assumption or, behind the assumptions, one of the level. -/
theorem vars (h : AssumeOk as t) (hnodup : (as.map Lit.var).Nodup) {k : Nat}
    (hk : k ≤ t.decisionLevel) : ∃ xs : List Var, xs.length = k ∧ xs.Nodup ∧
      ∀ x ∈ xs, ∃ p ∈ t.trail, p.var = x ∧ t.level p.var ≤ k := by
  induction k with
  | zero => exact ⟨[], rfl, List.nodup_nil, fun x hx => absurd hx List.not_mem_nil⟩
  | succ k ih =>
    rcases Nat.lt_or_ge k as.length with hlt | hge
    · -- the first assumptions
      refine ⟨(as.take (k + 1)).map Lit.var, ?_, ?_, fun x hx => ?_⟩
      · rw [List.length_map, List.length_take, Nat.min_eq_left hlt]
      · exact hnodup.sublist ((List.take_sublist _ _).map _)
      · obtain ⟨p, hp, rfl⟩ := List.mem_map.mp hx
        obtain ⟨i, hi, hip⟩ := mem_take_iff.mp hp
        obtain ⟨hmem, hle⟩ := h.made i p (Nat.lt_of_lt_of_le hi hk) hip
        exact ⟨p, hmem, rfl, hle.trans hi⟩
    · -- one more level
      obtain ⟨xs, hlength, hxs, hmem⟩ := ih (Nat.le_of_succ_le hk)
      obtain ⟨p, hp, hlevel⟩ := h.own k hge hk
      refine ⟨p.var :: xs, congrArg (· + 1) hlength, List.nodup_cons.mpr ⟨fun hx => ?_, hxs⟩,
        fun x hx => ?_⟩
      · obtain ⟨q, _, hqp, hle⟩ := hmem p.var hx
        rw [hqp] at hle
        omega
      · rcases List.mem_cons.mp hx with rfl | hx
        · exact ⟨p, hp, rfl, hlevel.le⟩
        · obtain ⟨q, hq, hqx, hle⟩ := hmem x hx
          exact ⟨q, hq, hqx, hle.trans (Nat.le_succ k)⟩

/-- **There are more variables than levels**, when two are set in the last one and the assumptions
are on different variables. -/
theorem decisionLevel_lt (h : AssumeOk as t) (hok : TrailOk t) (hnodup : (as.map Lit.var).Nodup)
    (hp : p ∈ t.trail) (hq : q ∈ t.trail) (hne : p.var ≠ q.var)
    (hplevel : t.level p.var = t.decisionLevel) (hqlevel : t.level q.var = t.decisionLevel) :
    t.decisionLevel < t.nVars := by
  rcases Nat.eq_zero_or_pos t.decisionLevel with hzero | hpos
  · rw [hzero]
    exact Nat.zero_lt_of_lt (hok.below p hp)
  obtain ⟨xs, hlength, hxs, hmem⟩ := h.vars hnodup (Nat.sub_le t.decisionLevel 1)
  have hlast : ∀ x ∈ xs, t.level x < t.decisionLevel := by
    intro x hx
    obtain ⟨r, _, rfl, hle⟩ := hmem x hx
    omega
  have hall : (p.var :: q.var :: xs).Nodup := by
    refine List.nodup_cons.mpr ⟨fun hx => ?_, List.nodup_cons.mpr ⟨fun hx => ?_, hxs⟩⟩
    · rcases List.mem_cons.mp hx with hx | hx
      · exact hne hx
      · exact absurd (hlast _ hx) (Nat.not_lt.mpr hplevel.ge)
    · exact absurd (hlast _ hx) (Nat.not_lt.mpr hqlevel.ge)
  have hsub : p.var :: q.var :: xs ⊆ List.range t.nVars := by
    refine List.cons_subset.mpr ⟨List.mem_range.mpr (hok.below p hp), List.cons_subset.mpr
      ⟨List.mem_range.mpr (hok.below q hq), fun x hx => ?_⟩⟩
    obtain ⟨r, hr, rfl, _⟩ := hmem x hx
    exact List.mem_range.mpr (hok.below r hr)
  have hle := (hall.subperm hsub).length_le
  rw [List.length_range, List.length_cons, List.length_cons, hlength] at hle
  omega

end AssumeOk

/-- Propagation sets no decision, when every level has a literal. -/
theorem Grown.assumeOk {s s' : State} (h : Grown s s') (ha : AssumeOk as s.toTrail)
    (hok' : StateOk F s') (hlims : ∀ l ∈ s.trailLim, l < s.trail.length) :
    AssumeOk as s'.toTrail := by
  refine ⟨fun p hp => Nat.lt_of_lt_of_eq (ha.below p hp) h.nVars.symm, fun p hp hr hpos hle => ?_,
    fun l p hl hp => ?_, fun l hlen hl => ?_⟩
  · by_cases hold : p ∈ s.trail
    · have hvd := h.vardata p hold
      rw [h.level hold] at hpos hle ⊢
      exact ha.guess p hold ((congrArg VarData.reason hvd).symm.trans hr) hpos hle
    · -- a new literal without a reason would start its level
      obtain ⟨i, hi⟩ := List.mem_iff_getElem?.mp hp
      have hstart := (hok'.reasons i p hi hpos).1 hr
      have hlevel := hok'.trail.level_le hp
      have hlt : s'.level p.var - 1 < s.decisionLevel := by
        rw [← h.decisionLevel]
        omega
      have hlim : s'.lim (s'.level p.var - 1) = s.lim (s'.level p.var - 1) := by
        rw [TrailOk.lim_eq hlt, TrailOk.lim_eq (h.decisionLevel.symm ▸ hlt)]
        simp only [h.trailLim]
        rfl
      rw [hlim] at hstart
      have hilt : i < s.trail.length := hstart ▸ hlims _ (TrailOk.lim_mem hlt)
      refine absurd ?_ hold
      obtain ⟨rest, hrest⟩ := h.trail
      rw [← hrest, List.getElem?_append_left hilt] at hi
      exact List.mem_of_getElem? hi
  · obtain ⟨hmem, hle⟩ := ha.made l p (h.decisionLevel ▸ hl) hp
    exact ⟨h.trail.subset hmem, (h.level hmem).trans_le hle⟩
  · obtain ⟨p, hmem, hlevel⟩ := ha.own l hlen (h.decisionLevel ▸ hl)
    exact ⟨p, h.trail.subset hmem, (h.level hmem).trans hlevel⟩

/-- What holds in the states of a `search`. -/
structure Running (F : Formula) (s : Solver) : Prop extends Valid F s where
  okay : s.ok = true
  assume : AssumeOk s.assumptions s.toTrail

/-- What holds at the start of a turn: each level has a literal. -/
structure Ready (F : Formula) (s : Solver) : Prop extends Running F s where
  lims : ∀ l ∈ s.trailLim, l < s.trail.length

end SymBreak.Glucose
