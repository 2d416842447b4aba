import SymBreak.ConstraintSolver
import SymBreak.Glucose.Solve

/-!
# Runs of the solver

A program uses the solver through its public methods (`Call`), in any order: it makes variables,
adds clauses, simplifies, sets budgets, and solves under assumptions, again and again, and the
solver keeps its trail of level 0, its learnt clauses and its counters in between.
`Reaches o F s` says that such a run made the solver `s` and added the clauses `F`.

* **`call_spec`**: a call from a solver that satisfies the invariant returns, and the solver
  satisfies it again; the one call that can fail is `solveLimited`, at the assertion that there are
  learnt clauses to reduce or, when two assumptions are on one variable, outside `permDiff`.
* **`Reaches.inv`**, **`calls_return`**: so the invariant holds in every solver that a run reaches,
  and every call returns but for these failures.
* **`solveLimited_answers`**, **`solve_iff`**: what `solveLimited` and `solve` answer there.
* **`session_refines`**: one correct solver, a function of the clauses that were added, gives all
  the answers of a session, which is what `ConstraintSolver` assumes.
-/

namespace SymBreak.Glucose

open Cnf

/-! ## The calls -/

namespace Solver

/-- `setPolarity` (`Solver.h:406`) -/
def setPolarity (s : Solver) (v : Var) (b : Bool) : Solver :=
  { s with polarity := Function.update s.polarity v b }

/-- `setConfBudget` (`Solver.h:415`) -/
def setConfBudget (s : Solver) (x : Int) : Solver := { s with conflictBudget := s.conflicts + x }

/-- `setPropBudget` (`Solver.h:416`) -/
def setPropBudget (s : Solver) (x : Int) : Solver :=
  { s with propagationBudget := s.propagations + x }

/-- `interrupt` (`Solver.h:417`) -/
def interrupt (s : Solver) : Solver := { s with asynchInterrupt := true }

/-- `clearInterrupt` (`Solver.h:418`) -/
def clearInterrupt (s : Solver) : Solver := { s with asynchInterrupt := false }

end Solver

/-- A call of a public method. Each call of `solveLimited` has choices of its own. -/
inductive Call where
  | newVar (polarity dvar : Bool)
  | setPolarity (v : Var) (b : Bool)
  | setDecisionVar (v : Var) (b : Bool)
  | addClause (ps : List Lit)
  | simplify
  | setConfBudget (x : Int)
  | setPropBudget (x : Int)
  | budgetOff
  | interrupt
  | clearInterrupt
  | solveLimited (choices : Nat → Choice) (assumps : List Lit)

namespace Call

/-- The solver after a call. -/
def run (o : Options) (fuel : Nat) (s : Solver) : Call → Result Solver
  | newVar polarity dvar => .ok (s.newVar polarity dvar).2
  | setPolarity v b => .ok (s.setPolarity v b)
  | setDecisionVar v b => .ok (s.setDecisionVar v b)
  | addClause ps => return (← s.addClause ps).2
  | simplify => return (← s.simplify o).2
  | setConfBudget x => .ok (s.setConfBudget x)
  | setPropBudget x => .ok (s.setPropBudget x)
  | budgetOff => .ok s.budgetOff
  | interrupt => .ok s.interrupt
  | clearInterrupt => .ok s.clearInterrupt
  | solveLimited choices assumps => return (← s.solveLimited o choices fuel assumps).2

/-- The clauses that a call adds. -/
def added : Call → Formula
  | addClause ps => [ps]
  | _ => []

/-- The variables that a call names were made before. -/
def Allowed (s : Solver) : Call → Prop
  | setPolarity v _ => v < s.nVars
  | setDecisionVar v _ => v < s.nVars
  | addClause ps => ClauseBelow s.nVars ps
  | solveLimited _ assumps => ∀ p ∈ assumps, p.var < s.nVars
  | _ => True

end Call

/-- The options that the solver needs: a queue, and positive distances between the reductions. -/
structure OptionsOk (o : Options) : Prop where
  sizeLBDQueue : 0 < o.sizeLBDQueue
  firstReduceDB : 0 < o.firstReduceDB
  incReduceDB : 0 < o.incReduceDB

/-- A run that added the clauses `F` reached the solver `s`. -/
inductive Reaches (o : Options) : Formula → Solver → Prop where
  | new : Reaches o [] (Solver.new o)
  | call {F : Formula} {s s' : Solver} (h : Reaches o F s) (c : Call) (hallowed : c.Allowed s)
      (hrun : Converges (fun fuel => c.run o fuel s) (.ok s')) : Reaches o (F ++ c.added) s'

variable {F : Formula} {o : Options} {s s' : Solver} {as : List Lit} {v : Var}

/-! ## The invariant -/

theorem optionsOk_default : OptionsOk Options.default :=
  ⟨by decide, by decide, by decide⟩

theorem watching_new (o : Options) (long : Clause → Prop) :
    Watching (Solver.new o).toClauseDb long ⟨fun _ => [], fun _ => false⟩ where
  watched cr hcr := absurd hcr.1 (Nat.not_lt_zero cr)
  lt _ _ hw := absurd hw List.not_mem_nil
  long _ _ hw := absurd hw List.not_mem_nil
  mem _ _ hw := absurd hw List.not_mem_nil
  blocker _ _ hw := absurd hw List.not_mem_nil
  dirty _ _ hw := absurd hw List.not_mem_nil
  nodup _ := List.nodup_nil

theorem stateOk_new (o : Options) : StateOk [] (Solver.new o).toState where
  trail := by
    refine ⟨List.nodup_nil, fun p hp => absurd hp List.not_mem_nil, fun p => ⟨fun hv => ?_,
      fun hp => absurd hp List.not_mem_nil⟩, List.Pairwise.nil,
      fun l hl => absurd hl List.not_mem_nil, fun i p hi => ?_⟩
    · exact absurd hv (by simp [Trail.value, Solver.new, LBool.xor])
    · exact absurd (List.mem_of_getElem? hi) List.not_mem_nil
  db := ⟨fun cr hcr => absurd hcr (Nat.not_lt_zero cr),
    fun cr hcr => absurd hcr (Nat.not_lt_zero cr), fun cr hcr => absurd hcr (Nat.not_lt_zero cr),
    watching_new o _, watching_new o _⟩
  reasons i p hi := absurd (List.mem_of_getElem? hi) List.not_mem_nil
  equiv := ⟨fun cr hcr => absurd hcr (Nat.not_lt_zero cr), fun p hp => absurd hp List.not_mem_nil,
    fun σ _ _ => sat_nil σ⟩

/-- **The constructor.** -/
theorem inv_new (ho : OptionsOk o) : Inv [] (Solver.new o) where
  level := rfl
  valid _ := by
    refine ⟨⟨stateOk_new o, ⟨fun x hx => absurd hx (Nat.not_lt_zero x),
      fun x hx => absurd hx List.not_mem_nil⟩, fun cr hcr => absurd hcr List.not_mem_nil,
      fun cr hcr => absurd hcr List.not_mem_nil, fun _ => rfl, ⟨?_, ho.firstReduceDB⟩⟩,
      fun l hl => absurd hl List.not_mem_nil, Nat.le_refl 0, fun cr hcr => ?_⟩
    · exact ⟨o.sizeLBDQueue, [], ho.sizeLBDQueue, BQueue.holds_initSize _⟩
    · exact absurd hcr.1 (Nat.not_lt_zero cr)
  unsat hno := absurd hno (by simp [Solver.new])

/-- A call that writes only what controls the search. -/
theorem Inv.setControl (h : Inv F s) {c : Control} (hok : c.ok = s.ok)
    (hc : ControlOk s.toControl → ControlOk c) : Inv F { s with toControl := c } where
  level := h.level
  valid hyes :=
    have hv := h.valid (hok.symm.trans hyes)
    hv.setControl (hc hv.control)
  unsat hno := h.unsat (hok.symm.trans hno)

theorem Valid.setPolarity (h : Valid F s) (v : Var) (b : Bool) : Valid F (s.setPolarity v b) :=
  ⟨⟨h.ok, ⟨h.heap.mem, h.heap.lt⟩, h.clauses, h.learnts, h.seen, h.control⟩,
    ⟨h.queue.lims, h.queue.qhead_le, h.queue.watched⟩⟩

theorem Valid.setDecisionVar (h : Valid F s) (hv : v < s.nVars) (b : Bool) :
    Valid F (s.setDecisionVar v b) := by
  unfold Solver.setDecisionVar
  have hmem : ∀ x, x ∈ (Solver.insertVarOrder { s with
      decision := Function.update s.decision v b } v).orderHeap ↔
      x ∈ s.orderHeap ∨ x = v ∧ Function.update s.decision v b v = true :=
    fun x => mem_insertVarOrder
  rw [insertVarOrder_eq]
  generalize (Solver.insertVarOrder _ v).orderHeap = heap at hmem ⊢
  refine ⟨⟨h.ok, ⟨fun x hx hdec hundef => ?_, fun x hx => ?_⟩, h.clauses, h.learnts, h.seen,
    h.control⟩, ⟨h.queue.lims, h.queue.qhead_le, h.queue.watched⟩⟩
  · change Function.update s.decision v b x = true at hdec
    refine (hmem x).mpr ?_
    by_cases hxv : x = v
    · rw [hxv] at hdec ⊢
      exact Or.inr ⟨rfl, hdec⟩
    · rw [Function.update_of_ne hxv] at hdec
      exact Or.inl (h.heap.mem x hx hdec hundef)
  · rcases (hmem x).mp hx with hx | ⟨rfl, _⟩
    · exact h.heap.lt x hx
    · exact hv

theorem newVar_decisionLevel (s : Solver) (polarity dvar : Bool) :
    (s.newVar polarity dvar).2.decisionLevel = s.decisionLevel ∧
      (s.newVar polarity dvar).2.ok = s.ok := by
  unfold Solver.newVar Solver.setDecisionVar
  simp only []
  rw [insertVarOrder_eq]
  exact ⟨rfl, rfl⟩

theorem Inv.newVar (h : Inv F s) (polarity dvar : Bool) : Inv F (s.newVar polarity dvar).2 := by
  obtain ⟨hlevel, hok⟩ := newVar_decisionLevel s polarity dvar
  exact ⟨hlevel.trans h.level,
    fun hyes => newVar_spec (h.valid (hok.symm.trans hyes)) polarity dvar,
    fun hno => h.unsat (hok.symm.trans hno)⟩

theorem Inv.setDecisionVar (h : Inv F s) (hv : v < s.nVars) (b : Bool) :
    Inv F (s.setDecisionVar v b) := by
  have heq : (s.setDecisionVar v b).decisionLevel = s.decisionLevel ∧
      (s.setDecisionVar v b).ok = s.ok := by
    unfold Solver.setDecisionVar
    rw [insertVarOrder_eq]
    exact ⟨rfl, rfl⟩
  exact ⟨heq.1.trans h.level, fun hyes => (h.valid (heq.2.symm.trans hyes)).setDecisionVar hv b,
    fun hno => h.unsat (heq.2.symm.trans hno)⟩

theorem AtLevelZero.inv {b : Bool} (h : AtLevelZero F s b s') : Inv F s' :=
  ⟨h.level, fun hyes => h.valid (h.ok.symm.trans hyes), fun hno => h.unsat (h.ok.symm.trans hno)⟩

theorem Inv.addClause {ps : List Lit} (h : Inv F s) (hps : ClauseBelow s.nVars ps) :
    ∃ b s', s.addClause ps = .ok (b, s') ∧ AtLevelZero (F ++ [ps]) s b s' := by
  cases hok : s.ok with
  | true => exact addClause_spec (h.valid hok) h.level hok hps
  | false =>
    refine ⟨false, s, ?_, rfl, rfl, h.level, id, hok, fun hb => absurd hb (by simp), fun _ => ?_⟩
    · unfold Solver.addClause
      rw [if_neg (not_not.mpr h.level), hok]
      rfl
    · rintro ⟨σ, hσ⟩
      exact h.unsat hok ⟨σ, (sat_append.mp hσ).1⟩

theorem Inv.simplify (h : Inv F s) (o : Options) :
    ∃ b s', s.simplify o = .ok (b, s') ∧ Inv F s' := by
  cases hok : s.ok with
  | true =>
    obtain ⟨b, s', hrun, hz⟩ := simplify_spec o (h.valid hok) h.level hok
    exact ⟨b, s', hrun, hz.toAtLevelZero.inv⟩
  | false =>
    refine ⟨false, { s with ok := false }, ?_, h.level, fun hyes => absurd hyes (by simp),
      fun _ => h.unsat hok⟩
    unfold Solver.simplify
    rw [if_neg (not_not.mpr h.level), hok]
    rfl

/-- The invariant does not read the assumptions. -/
theorem Inv.assume (h : Inv F s) (as : List Lit) : Inv F { s with assumptions := as } :=
  h.setControl rfl fun hc => ⟨hc.lbd, hc.reduce⟩

/-- **`solveLimited`** returns from some fuel on, and its answer is right. -/
theorem Inv.solveLimited (ho : OptionsOk o) (h : Inv F s) (choices : Nat → Choice)
    (has : ∀ p ∈ as, p.var < s.nVars) :
    ∃ r, Converges (fun fuel => s.solveLimited o choices fuel as) r ∧
      Ends as (fun status s' => Concluded F { s with assumptions := as } status s') r :=
  solve_converges choices ho.incReduceDB (h.assume as) has

/-- A call leaves a solver that satisfies the invariant; only `solveLimited` may fail instead. -/
def CallOk (F : Formula) (c : Call) (r : Result Solver) : Prop :=
  (∃ s', r = .ok s' ∧ Inv (F ++ c.added) s') ∨
    ∃ choices assumps e, c = .solveLimited choices assumps ∧ Fails assumps e ∧ r = .error e

/-- **A call** returns from some fuel on, and keeps the invariant. -/
theorem call_spec (ho : OptionsOk o) (h : Inv F s) (c : Call) (hc : c.Allowed s) :
    ∃ r, Converges (fun fuel => c.run o fuel s) r ∧ CallOk F c r := by
  have hkeep : ∀ {s' : Solver}, Inv F s' → Inv (F ++ []) s' :=
    fun h' => (List.append_nil F).symm ▸ h'
  cases c with
  | newVar polarity dvar =>
    exact ⟨_, Converges.const _, Or.inl ⟨_, rfl, hkeep (h.newVar polarity dvar)⟩⟩
  | setPolarity v b =>
    exact ⟨_, Converges.const _, Or.inl ⟨_, rfl,
      hkeep ⟨h.level, fun hyes => (h.valid hyes).setPolarity v b, h.unsat⟩⟩⟩
  | setDecisionVar v b =>
    exact ⟨_, Converges.const _, Or.inl ⟨_, rfl, hkeep (h.setDecisionVar hc b)⟩⟩
  | addClause ps =>
    obtain ⟨b, s', hrun, hz⟩ := h.addClause hc
    refine ⟨.ok s', Converges.of_eq fun fuel => ?_, Or.inl ⟨s', rfl, hz.inv⟩⟩
    simp only [Call.run, hrun, ok_bind]
    rfl
  | simplify =>
    obtain ⟨b, s', hrun, hinv⟩ := h.simplify o
    refine ⟨.ok s', Converges.of_eq fun fuel => ?_, Or.inl ⟨s', rfl, hkeep hinv⟩⟩
    simp only [Call.run, hrun, ok_bind]
    rfl
  | setConfBudget x =>
    exact ⟨_, Converges.const _, Or.inl ⟨_, rfl,
      hkeep (h.setControl rfl fun hc => ⟨hc.lbd, hc.reduce⟩)⟩⟩
  | setPropBudget x =>
    exact ⟨_, Converges.const _, Or.inl ⟨_, rfl,
      hkeep (h.setControl rfl fun hc => ⟨hc.lbd, hc.reduce⟩)⟩⟩
  | budgetOff =>
    exact ⟨_, Converges.const _, Or.inl ⟨_, rfl,
      hkeep (h.setControl rfl fun hc => ⟨hc.lbd, hc.reduce⟩)⟩⟩
  | interrupt =>
    exact ⟨_, Converges.const _, Or.inl ⟨_, rfl,
      hkeep (h.setControl rfl fun hc => ⟨hc.lbd, hc.reduce⟩)⟩⟩
  | clearInterrupt =>
    exact ⟨_, Converges.const _, Or.inl ⟨_, rfl,
      hkeep (h.setControl rfl fun hc => ⟨hc.lbd, hc.reduce⟩)⟩⟩
  | solveLimited choices assumps =>
    obtain ⟨r, ⟨N, hN⟩, hends⟩ := h.solveLimited ho choices hc
    have hrun : ∀ fuel, N ≤ fuel →
        Call.run o fuel s (.solveLimited choices assumps) = (do return (← r).2) := by
      intro fuel hfuel
      rw [← hN fuel hfuel]
      rfl
    rcases hends with ⟨e, he, rfl⟩ | ⟨status, s', rfl, hconc⟩
    · exact ⟨.error e, ⟨N, hrun⟩, Or.inr ⟨choices, assumps, e, rfl, he, rfl⟩⟩
    · exact ⟨_, ⟨N, hrun⟩, Or.inl ⟨s', rfl, hkeep hconc.inv⟩⟩

/-- **Every solver that a run reaches** satisfies the invariant. -/
theorem Reaches.inv (ho : OptionsOk o) (h : Reaches o F s) : Inv F s := by
  induction h with
  | new => exact inv_new ho
  | call h c hallowed hrun ih =>
    obtain ⟨r, hr, hok⟩ := call_spec ho ih c hallowed
    obtain rfl := hr.unique hrun
    rcases hok with ⟨s', hs', hinv⟩ | ⟨_, _, _, _, _, hno⟩
    · obtain rfl := Except.ok.inj hs'
      exact hinv
    · exact absurd hno (by simp)

/-! ## A run -/

/-- Neither restarts nor random decisions, and all activities are equal. -/
def Choice.plain : Choice where
  blocks := false
  restarts := false
  activity _ := 0
  clauseActivity _ := 0
  random := none

/-- The solver that a call returns. -/
def solverOf {α : Type} (r : Result (α × Solver)) (s : Solver) : Solver :=
  match r with
  | .ok (_, s') => s'
  | .error _ => s

def x₀ : Lit := ⟨0, false⟩

def x₁ : Lit := ⟨1, false⟩

def twoVars : Solver := (((Solver.new Options.default).newVar true true).2.newVar true true).2

def oneClause : Solver := solverOf (twoVars.addClause [x₀, x₁]) twoVars

def twoClauses : Solver := solverOf (oneClause.addClause [x₀, x₁.neg]) oneClause

/-- **A run** that makes two variables and adds two clauses. -/
theorem reaches_twoClauses : Reaches Options.default [[x₀, x₁], [x₀, x₁.neg]] twoClauses := by
  have hvars : Reaches Options.default [] twoVars :=
    (Reaches.new.call (.newVar true true) trivial (Converges.const _)).call (.newVar true true)
      trivial (Converges.const _)
  have hclause : Reaches Options.default [[x₀, x₁]] oneClause :=
    hvars.call (.addClause [x₀, x₁]) (fun q hq => by revert q; decide)
      (Converges.of_eq fun _ => rfl)
  exact hclause.call (.addClause [x₀, x₁.neg]) (fun q hq => by revert q; decide)
    (Converges.of_eq fun _ => rfl)

/-- **Every call returns**, whatever came before, unless a call of `solveLimited` fails: at the
assertion that there are learnt clauses to reduce, or outside `permDiff`, which takes two
assumptions on one variable. The solver is then back at level 0, and it has given up only on clauses
that are unsatisfiable. -/
theorem calls_return (ho : OptionsOk o) (h : Reaches o F s) (c : Call) (hc : c.Allowed s) :
    ∃ r, Converges (fun fuel => c.run o fuel s) r ∧
      ((∃ s', r = .ok s' ∧ Reaches o (F ++ c.added) s' ∧ s'.decisionLevel = 0 ∧
          (s'.ok = false → ¬ Satisfiable (F ++ c.added))) ∨
        ∃ choices assumps e, c = .solveLimited choices assumps ∧ Fails assumps e ∧
          r = .error e) := by
  obtain ⟨r, hr, hok⟩ := call_spec ho (h.inv ho) c hc
  refine ⟨r, hr, hok.imp (fun ⟨s', hs', hinv⟩ => ⟨s', hs', ?_, hinv.level, hinv.unsat⟩) id⟩
  subst hs'
  exact h.call c hc hr

theorem calls_return_twoClauses :
    ∃ r, Converges (fun fuel =>
        (Call.solveLimited (fun _ => .plain) [x₀.neg]).run Options.default fuel twoClauses) r ∧
      ((∃ s', r = .ok s' ∧ Reaches Options.default ([[x₀, x₁], [x₀, x₁.neg]] ++ []) s' ∧
          s'.decisionLevel = 0 ∧
          (s'.ok = false → ¬ Satisfiable ([[x₀, x₁], [x₀, x₁.neg]] ++ []))) ∨
        ∃ choices assumps e, Call.solveLimited (fun _ => .plain) [x₀.neg] =
            .solveLimited choices assumps ∧ Fails assumps e ∧ r = .error e) :=
  calls_return optionsOk_default reaches_twoClauses (.solveLimited (fun _ => .plain) [x₀.neg])
    (show ∀ p ∈ [x₀.neg], p.var < twoClauses.nVars by decide)

/-- An assumption that is repeated makes levels without a variable: the conflict is at level 4, and
`permDiff` has 3 entries. -/
example : (twoClauses.newVar true true).2.solveLimited Options.default (fun _ => .plain) 6
    [⟨2, false⟩, ⟨2, false⟩, ⟨2, false⟩] = .error (.raised .outOfRange) := rfl

/-! ## What the solver answers -/

/-- **`solveLimited`** ends, in every solver that a run reaches, in an answer that is right, or
fails as a turn can. -/
theorem Reaches.answer (ho : OptionsOk o) (h : Reaches o F s) (choices : Nat → Choice)
    (has : ∀ p ∈ as, p.var < s.nVars) :
    ∃ r, Converges (fun fuel => s.solveLimited o choices fuel as) r ∧
      Ends as
        (fun status s' => Reaches o F s' ∧ Concluded F { s with assumptions := as } status s')
        r := by
  obtain ⟨r, hr, hends⟩ := (h.inv ho).solveLimited ho choices has
  refine ⟨r, hr, ?_⟩
  rcases hends with hends | ⟨status, s', rfl, hconc⟩
  · exact Or.inl hends
  · obtain ⟨N, hN⟩ := hr
    refine Or.inr ⟨status, s', rfl, ?_, hconc⟩
    have hcall : Reaches o (F ++ []) s' :=
      h.call (.solveLimited choices as) has ⟨N, fun fuel hfuel => by
        show (do return (← Solver.solveLimited o choices fuel s as).2) = _
        rw [show Solver.solveLimited o choices fuel s as = _ from hN fuel hfuel]
        rfl⟩
    rwa [List.append_nil] at hcall

/-- Without a budget, the answer is a model of the clauses and the assumptions, or there is none. -/
theorem Concluded.decides {status : LBool} (h : Concluded F s status s') (hs : Unbounded s)
    (hdec : ∀ x, x < s.nVars → s.decision x = true) :
    status = .l_True ∧ Sat s'.assignment F ∧ (∀ p ∈ s.assumptions, p.eval s'.assignment = true) ∨
      status = .l_False ∧ ∀ σ, Sat σ F → ∃ p ∈ s.assumptions, p.eval σ = false := by
  cases h.solved with
  | model length sat =>
    refine Or.inl ⟨rfl, sat fun x hx => ?_⟩
    rw [h.decision]
    exact hdec x (h.nVars ▸ hx)
  | conflict entails neg =>
    refine Or.inr ⟨rfl, fun σ hσ => ?_⟩
    obtain ⟨q, hq, hqσ⟩ := entails σ hσ
    refine ⟨q.neg, neg q hq, ?_⟩
    rw [Lit.eval_neg, hqσ]
    rfl
  | budget budget => exact absurd (h.unbounded hs).withinBudget (by rw [budget]; simp)

/-- **`solveLimited` is right, whatever came before.** In every solver that a run of calls reaches,
it returns, unless it fails in one of two ways (`Fails`). With `l_True` it stores a model of the
clauses that were added and of the assumptions, if all variables are decision variables; with
`l_False` it stores a clause that the clauses entail, of complements of assumptions; `l_Undef` means
that the budget is used up. -/
theorem solveLimited_answers (ho : OptionsOk o) (h : Reaches o F s) (choices : Nat → Choice)
    (has : ∀ p ∈ as, p.var < s.nVars) :
    ∃ r, Converges (fun fuel => s.solveLimited o choices fuel as) r ∧
      ((∃ e, Fails as e ∧ r = .error e) ∨
        ∃ status s', r = .ok (status, s') ∧ Reaches o F s' ∧ Solved F as status s') := by
  obtain ⟨r, hr, hends⟩ := h.answer ho choices has
  refine ⟨r, hr, hends.imp id fun ⟨status, s', hs', hreach, hconc⟩ => ?_⟩
  exact ⟨status, s', hs', hreach, hconc.solved⟩

/-- The solver with two clauses, under an assumption that they refute. -/
theorem solveLimited_answers_twoClauses :
    ∃ r, Converges (fun fuel =>
        twoClauses.solveLimited Options.default (fun _ => .plain) fuel [x₀.neg]) r ∧
      ((∃ e, Fails [x₀.neg] e ∧ r = .error e) ∨
        ∃ status s', r = .ok (status, s') ∧
          Reaches Options.default [[x₀, x₁], [x₀, x₁.neg]] s' ∧
          Solved [[x₀, x₁], [x₀, x₁.neg]] [x₀.neg] status s') :=
  solveLimited_answers optionsOk_default reaches_twoClauses _ (by decide)

/-- **`solve` decides satisfiability** of the clauses that were added, together with the
assumptions, unless it fails as `solveLimited` can. -/
theorem solve_iff (ho : OptionsOk o) (h : Reaches o F s) (choices : Nat → Choice)
    (has : ∀ p ∈ as, p.var < s.nVars) (hdec : ∀ x, x < s.nVars → s.decision x = true)
    (hint : s.asynchInterrupt = false) :
    ∃ r, Converges (fun fuel => s.solve o choices fuel as) r ∧
      ((∃ e, Fails as e ∧ r = .error e) ∨
        ∃ b s', r = .ok (b, s') ∧
          (b = true ↔ ∃ σ, Sat σ F ∧ ∀ p ∈ as, p.eval σ = true) ∧
          (b = true → Sat s'.assignment F ∧ ∀ p ∈ as, p.eval s'.assignment = true)) := by
  have hoff : Reaches o F s.budgetOff := by
    have := h.call .budgetOff trivial (Converges.const _)
    rwa [Call.added, List.append_nil] at this
    exact fun ps hps => absurd hps (by simp)
  obtain ⟨r, ⟨N, hN⟩, hends⟩ := hoff.answer ho choices has
  have hrun : ∀ fuel, N ≤ fuel → s.solve o choices fuel as =
      r >>= fun x => .ok (x.1 == .l_True, x.2) := by
    intro fuel hfuel
    rw [← hN fuel hfuel]
    rfl
  rcases hends with ⟨e, he, rfl⟩ | ⟨status, s', rfl, _, hconc⟩
  · exact ⟨.error e, ⟨N, hrun⟩, Or.inl ⟨e, he, rfl⟩⟩
  · refine ⟨_, ⟨N, hrun⟩, Or.inr ⟨status == .l_True, s', rfl, ?_⟩⟩
    have hunbounded : Unbounded { s.budgetOff with assumptions := as } :=
      ⟨hint, Int.negSucc_lt_zero 0, Int.negSucc_lt_zero 0⟩
    rcases hconc.decides hunbounded hdec with ⟨rfl, hsat, hassumed⟩ | ⟨rfl, hunsat⟩
    · exact ⟨⟨fun _ => ⟨_, hsat, hassumed⟩, fun _ => rfl⟩, fun _ => ⟨hsat, hassumed⟩⟩
    · refine ⟨⟨fun hb => absurd hb (by decide), ?_⟩, fun hb => absurd hb (by decide)⟩
      rintro ⟨σ, hσ, hassumed⟩
      obtain ⟨p, hp, hpσ⟩ := hunsat σ hσ
      rw [hassumed p hp] at hpσ
      exact absurd hpσ (by simp)

theorem solve_iff_twoClauses :
    ∃ r, Converges (fun fuel => twoClauses.solve Options.default (fun _ => .plain) fuel [x₁]) r ∧
      ((∃ e, Fails [x₁] e ∧ r = .error e) ∨
        ∃ b s', r = .ok (b, s') ∧
          (b = true ↔ ∃ σ, Sat σ [[x₀, x₁], [x₀, x₁.neg]] ∧ ∀ p ∈ [x₁], p.eval σ = true) ∧
          (b = true → Sat s'.assignment [[x₀, x₁], [x₀, x₁.neg]] ∧
            ∀ p ∈ [x₁], p.eval s'.assignment = true)) :=
  solve_iff optionsOk_default reaches_twoClauses _ (by decide) (by decide) rfl

/-! ## The solver of `ConstraintSolver` -/

/-- What `ConstraintSolver` reads off the answer of `solveLimited`. -/
def solverAnswer (status : LBool) (s : Solver) : SolverAnswer :=
  match status with
  | .l_Undef => .l_Undef
  | .l_False => .l_False
  | .l_True => .l_True s.assignment

/-- A correct solver that answers `a` on `F`. -/
theorem correct_update {solver : SatSolver} (h : solver.Correct) {a : SolverAnswer}
    (hmodel : ∀ m, a = .l_True m → Sat m F) (hsat : Satisfiable F → ∃ m, a = .l_True m)
    (hunsat : ¬ Satisfiable F → a = .l_False) : SatSolver.Correct (Function.update solver F a) where
  model G m hm := by
    rcases eq_or_ne G F with rfl | hne
    · exact hmodel m (by rwa [Function.update_self] at hm)
    · exact h.model G m (by rwa [Function.update_of_ne hne] at hm)
  l_True G hG := by
    rcases eq_or_ne G F with rfl | hne
    · rw [Function.update_self]
      exact hsat hG
    · rw [Function.update_of_ne hne]
      exact h.l_True G hG
  l_False G hG := by
    rcases eq_or_ne G F with rfl | hne
    · rw [Function.update_self]
      exact hunsat hG
    · rw [Function.update_of_ne hne]
      exact h.l_False G hG

/-- What `ConstraintSolver` does with the solver: it makes variables, adds clauses and solves. `log`
lists the answers, each with the clauses that were added before. -/
inductive Session (o : Options) : Formula → Solver → List (Formula × SolverAnswer) → Prop where
  | new : Session o [] (Solver.new o) []
  | newVar {F : Formula} {s : Solver} {log : List (Formula × SolverAnswer)}
      (h : Session o F s log) : Session o F (s.newVar true true).2 log
  | addClause {F : Formula} {s s' : Solver} {log : List (Formula × SolverAnswer)}
      (h : Session o F s log) {ps : List Lit} {b : Bool} (hps : ClauseBelow s.nVars ps)
      (hrun : s.addClause ps = .ok (b, s')) : Session o (F ++ [ps]) s' log
  | solve {F : Formula} {s s' : Solver} {log : List (Formula × SolverAnswer)}
      (h : Session o F s log) (choices : Nat → Choice) {status : LBool}
      (hrun : Converges (fun fuel => s.solveLimited o choices fuel []) (.ok (status, s'))) :
      Session o F s' (log ++ [(F, solverAnswer status s')])

/-- In a session, all variables are decision variables, and there is no budget. -/
structure InSession (o : Options) (F : Formula) (s : Solver) : Prop where
  reaches : Reaches o F s
  decision : ∀ x, x < s.nVars → s.decision x = true
  unbounded : Unbounded s

theorem InSession.newVar (h : InSession o F s) : InSession o F (s.newVar true true).2 := by
  have hreach : Reaches o (F ++ []) (s.newVar true true).2 :=
    h.reaches.call (.newVar true true) trivial (Converges.const _)
  rw [List.append_nil] at hreach
  unfold Solver.newVar Solver.setDecisionVar at hreach ⊢
  simp only [] at hreach ⊢
  rw [insertVarOrder_eq] at hreach ⊢
  refine ⟨hreach, fun x hx => ?_, h.unbounded⟩
  change x < s.nVars + 1 at hx
  show Function.update s.decision s.nVars true x = true
  rw [Function.update_apply]
  split
  · rfl
  · rename_i hne
    exact h.decision x (Nat.lt_of_le_of_ne (Nat.le_of_lt_succ hx) hne)

theorem InSession.addClause {ps : List Lit} {b : Bool} (ho : OptionsOk o) (h : InSession o F s)
    (hps : ClauseBelow s.nVars ps) (hrun : s.addClause ps = .ok (b, s')) :
    InSession o (F ++ [ps]) s' := by
  obtain ⟨b', t, ht, hz⟩ := (h.reaches.inv ho).addClause hps
  obtain ⟨rfl, rfl⟩ := Prod.mk.inj (Except.ok.inj (hrun.symm.trans ht))
  refine ⟨h.reaches.call (.addClause ps) hps (Converges.of_eq fun fuel => ?_), fun x hx => ?_,
    hz.unbounded h.unbounded⟩
  · simp only [Call.run, hrun, ok_bind]
    rfl
  · rw [hz.decision]
    exact h.decision x (hz.nVars ▸ hx)

theorem InSession.solve {status : LBool} (ho : OptionsOk o) (h : InSession o F s)
    (choices : Nat → Choice)
    (hrun : Converges (fun fuel => s.solveLimited o choices fuel []) (.ok (status, s'))) :
    InSession o F s' ∧ Concluded F { s with assumptions := [] } status s' := by
  have hnil : ∀ p ∈ ([] : List Lit), p.var < s.nVars := fun p hp => absurd hp List.not_mem_nil
  obtain ⟨r, hr, hends⟩ := h.reaches.answer ho choices hnil
  rcases hends with ⟨_, _, rfl⟩ | ⟨status', t, rfl, hreach, hconc⟩
  · exact absurd (hr.unique hrun) (by simp)
  · obtain ⟨rfl, rfl⟩ := Prod.mk.inj (Except.ok.inj (hr.unique hrun))
    refine ⟨⟨hreach, fun x hx => ?_, hconc.unbounded h.unbounded⟩, hconc⟩
    rw [hconc.decision]
    exact h.decision x (hconc.nVars ▸ hx)

theorem Session.inSession (ho : OptionsOk o) {log : List (Formula × SolverAnswer)}
    (h : Session o F s log) : InSession o F s := by
  induction h with
  | new =>
    exact ⟨.new, fun x hx => absurd hx (Nat.not_lt_zero x), rfl, Int.negSucc_lt_zero 0,
      Int.negSucc_lt_zero 0⟩
  | newVar h ih => exact ih.newVar
  | addClause h hps hrun ih => exact ih.addClause ho hps hrun
  | solve h choices hrun ih => exact (ih.solve ho choices hrun).1

/-- A correct solver answers as this one did. -/
theorem Concluded.correct {status : LBool} (h : Concluded F { s with assumptions := [] } status s')
    (hin : InSession o F s) {solver : SatSolver} (hsolver : solver.Correct) :
    SatSolver.Correct (Function.update solver F (solverAnswer status s')) := by
  rcases h.decides hin.unbounded hin.decision with ⟨rfl, hsat, _⟩ | ⟨rfl, hunsat⟩
  · refine correct_update hsolver (fun m hm => ?_) (fun _ => ⟨_, rfl⟩)
      fun hno => absurd ⟨_, hsat⟩ hno
    exact SolverAnswer.l_True.inj hm ▸ hsat
  · refine correct_update hsolver (fun m hm => absurd hm (by simp [solverAnswer])) ?_ fun _ => rfl
    rintro ⟨σ, hσ⟩
    obtain ⟨p, hp, _⟩ := hunsat σ hσ
    exact absurd hp List.not_mem_nil

/-- **The solver does what is assumed of it**: one correct solver, a function of the clauses, gives
all answers of a session, if clauses are added between two of them. -/
theorem session_refines (ho : OptionsOk o) {log : List (Formula × SolverAnswer)}
    (h : Session o F s log) (hlog : (log.map Prod.fst).Nodup) :
    ∃ solver : SatSolver, solver.Correct ∧ ∀ G a, (G, a) ∈ log → solver G = a := by
  induction h with
  | new => exact ⟨_, bruteForceSolver_correct, fun G a hG => absurd hG List.not_mem_nil⟩
  | newVar h ih => exact ih hlog
  | addClause h hps hrun ih => exact ih hlog
  | @solve F s s' log h choices status hrun ih =>
    rw [List.map_append] at hlog
    obtain ⟨hold, _, hnew⟩ := List.nodup_append.mp hlog
    obtain ⟨solver, hsolver, hanswers⟩ := ih hold
    have hin := h.inSession ho
    have hconc := (hin.solve ho choices hrun).2
    refine ⟨_, hconc.correct hin hsolver, fun G a hG => ?_⟩
    rcases List.mem_append.mp hG with hG | hG
    · -- an answer on fewer clauses
      have hne : G ≠ F := hnew G (List.mem_map.mpr ⟨_, hG, rfl⟩) F List.mem_cons_self
      rw [Function.update_of_ne hne]
      exact hanswers G a hG
    · obtain ⟨rfl, rfl⟩ := Prod.mk.inj (List.mem_singleton.mp hG)
      exact Function.update_self ..

/-- The solver with two clauses, after a call of `solveLimited`. -/
def solved : Solver :=
  solverOf (twoClauses.solveLimited Options.default (fun _ => .plain) 4 []) twoClauses

def refuted : Solver := solverOf (solved.addClause [x₀.neg]) solved

/-- A session that solves, adds a clause that the model violates, and solves again. -/
theorem session_refuted :
    Session Options.default [[x₀, x₁], [x₀, x₁.neg], [x₀.neg]]
      { refuted with assumptions := [], model := [], conflict := [] }
      [([[x₀, x₁], [x₀, x₁.neg]], .l_True solved.assignment),
        ([[x₀, x₁], [x₀, x₁.neg], [x₀.neg]], .l_False)] := by
  have hclause : Session Options.default [[x₀, x₁]] oneClause [] :=
    Session.new.newVar.newVar.addClause (fun q hq => by revert q; decide)
      (show twoVars.addClause [x₀, x₁] = .ok (true, oneClause) from rfl)
  have hclauses : Session Options.default [[x₀, x₁], [x₀, x₁.neg]] twoClauses [] :=
    hclause.addClause (fun q hq => by revert q; decide)
      (show oneClause.addClause [x₀, x₁.neg] = .ok (true, twoClauses) from rfl)
  have hsat : Converges (fun fuel =>
      twoClauses.solveLimited Options.default (fun _ => .plain) fuel []) (.ok (.l_True, solved)) :=
    ⟨4, fun k hk => by
      obtain ⟨j, rfl⟩ := Nat.exists_eq_add_of_le' hk
      rfl⟩
  have hadded := (hclauses.solve _ hsat).addClause (fun q hq => by revert q; decide)
    (show solved.addClause [x₀.neg] = .ok (false, refuted) from rfl)
  have hunsat : Converges (fun fuel =>
      refuted.solveLimited Options.default (fun _ => .plain) fuel [])
      (.ok (.l_False, { refuted with assumptions := [], model := [], conflict := [] })) :=
    Converges.of_eq fun _ => rfl
  exact hadded.solve _ hunsat

theorem session_refines_refuted :
    ∃ solver : SatSolver, solver.Correct ∧
      ∀ G a, (G, a) ∈ [([[x₀, x₁], [x₀, x₁.neg]], SolverAnswer.l_True solved.assignment),
        ([[x₀, x₁], [x₀, x₁.neg], [x₀.neg]], .l_False)] → solver G = a :=
  session_refines optionsOk_default session_refuted (by decide)

end SymBreak.Glucose
