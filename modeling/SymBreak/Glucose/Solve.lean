import SymBreak.Glucose.Termination

/-!
# The solver is correct

`Inv F s` is what holds of a solver between the calls of its public methods, for the clauses `F`
that were added to it. `solve_` returns from some fuel on (`solveLimited_converges`), and its answer
is right: a model of the clauses and the assumptions, or a clause of complements of assumptions that
the clauses entail. It fails only as a turn can (`Fails`).
-/

namespace SymBreak.Glucose

open Cnf

/-- The assignment of a model. -/
def Solver.assignment (s : Solver) : Assignment := fun v => s.model.getD v .l_Undef == .l_True

/-- What holds between the calls of the public methods. -/
structure Inv (F : Formula) (s : Solver) : Prop where
  level : s.decisionLevel = 0
  valid : s.ok = true → Valid F s
  unsat : s.ok = false → ¬ Satisfiable F

/-- The answer of `solve_` under the assumptions `as` is right. When all variables are decision
variables, `l_True` means that the clauses are satisfiable. -/
inductive Solved (F : Formula) (as : List Lit) : LBool → Solver → Prop where
  | model {s : Solver} (length : s.model.length = s.nVars)
      (sat : (∀ x, x < s.nVars → s.decision x = true) →
        Sat s.assignment F ∧ ∀ p ∈ as, p.eval s.assignment = true) : Solved F as .l_True s
  | conflict {s : Solver} (entails : Entails F s.conflict)
      (neg : ∀ q ∈ s.conflict, q.neg ∈ as) : Solved F as .l_False s
  | budget {s : Solver} (budget : s.withinBudget = false) : Solved F as .l_Undef s

variable {F : Formula} {o : Options} {s s' : Solver} {as : List Lit} {p : Lit}

/-! ## Models -/

/-- A literal is true when the value of its variable is the one of its sign. -/
theorem eval_of_value {σ : Assignment} {b : LBool} (hσ : σ p.var = (b == .l_True))
    (hb : b.xor p.sign = .l_True) : p.eval σ = true := by
  unfold Lit.eval
  rw [hσ]
  cases b with
  | l_True =>
    cases hs : p.sign with
    | false => rfl
    | true => exact absurd hb (by rw [hs]; simp [LBool.xor])
  | l_False =>
    cases hs : p.sign with
    | false => exact absurd hb (by rw [hs]; simp [LBool.xor])
    | true => rfl
  | l_Undef => exact absurd hb (by simp [LBool.xor])

/-- The literals of the trail are true in the model that `solve_` stores. -/
theorem eval_assignment {t : Trail} (hok : TrailOk t)
    (hmodel : s.model = (List.range t.nVars).map t.assigns) (hp : p ∈ t.trail) :
    p.eval s.assignment = true := by
  refine eval_of_value (b := t.assigns p.var) ?_ ((hok.value p).mpr hp)
  unfold Solver.assignment
  rw [hmodel, List.getD_eq_getElem?_getD, List.getElem?_map,
    List.getElem?_range (hok.below p hp)]
  rfl

/-- **A full assignment** that was propagated satisfies the clauses. -/
theorem Valid.sat (h : Valid F s) (hq : s.qhead = s.trail.length)
    (hall : ∀ x, x < s.nVars → s.assigns x ≠ .l_Undef) {σ : Assignment}
    (hσ : ∀ p ∈ s.trail, p.eval σ = true) : Sat σ F := by
  refine h.ok.equiv.complete σ (fun cr hcr _ => ?_) fun p hp _ => hσ p hp
  -- the first watched literal is true, or it is false and the clause has another true literal
  have hsize := h.ok.db.size cr hcr.1
  have hmem : (s.ca cr).get 0 ∈ (s.ca cr).lits.take 2 := by
    rw [Clause.take_two hsize]
    exact List.mem_cons_self
  by_cases hfalse : ((s.ca cr).get 0).neg ∈ s.trail
  · obtain ⟨r, hr, hrt, _⟩ := h.queue.watched cr hcr _ hmem (by rwa [hq, List.take_length])
    exact ⟨r, hr, hσ r hrt⟩
  · have hassigned := hall _ (h.ok.lit_below hcr.1 (List.mem_of_mem_take hmem))
    have htrue : (s.ca cr).get 0 ∈ s.trail := by
      by_contra hno
      exact hassigned (TrailOk.value_eq_undef_iff.mp (h.ok.trail.value_eq_undef.mpr ⟨hno, hfalse⟩))
    exact ⟨_, List.mem_of_mem_take hmem, hσ _ htrue⟩

/-! ## `solve_` -/

theorem withinBudget_congr (hcontrol : s'.toControl = s.toControl)
    (hprops : s'.propagations = s.propagations) : s'.withinBudget = s.withinBudget := by
  unfold Solver.withinBudget
  rw [hcontrol, hprops]

theorem Unbounded.withinBudget (h : Unbounded s) : s.withinBudget = true := by
  obtain ⟨hint, hconf, hprop⟩ := h
  simp [Solver.withinBudget, hint, hconf, hprop]

theorem Same.unbounded (h : Same s s') (hs : Unbounded s) : Unbounded s' := by
  unfold Unbounded
  rw [h.asynchInterrupt, h.conflictBudget, h.propagationBudget]
  exact hs

/-- A solver that may go on, back at level 0. -/
theorem Running.inv (h : Running F s) (hb : Backtracked s 0 s') : Inv F s' :=
  ⟨hb.level_zero, fun _ => hb.valid_zero h.toValid, fun hno => by
    have : s'.ok = s.ok := congrArg Control.ok hb.control
    rw [this, h.okay] at hno
    exact absurd hno (by simp)⟩

/-- The model is stored. -/
theorem Running.setModel (h : Running F s) (model : List LBool) :
    Running F { s with model := model } :=
  ⟨h.setControl ⟨h.control.lbd, h.control.reduce⟩, h.okay, h.assume⟩

/-- **A model of the search** satisfies the clauses and the assumptions. -/
theorem Running.sat (h : Running F s) (hq : s.qhead = s.trail.length)
    (hall : ∀ x, x < s.nVars → s.assigns x ≠ .l_Undef)
    (hassumed : s.assumptions.length ≤ s.decisionLevel)
    (hmodel : s'.model = (List.range s.nVars).map s.assigns) :
    Sat s'.assignment F ∧ ∀ p ∈ s.assumptions, p.eval s'.assignment = true := by
  have heval : ∀ p ∈ s.trail, p.eval s'.assignment = true := fun p hp =>
    eval_assignment h.ok.trail hmodel hp
  refine ⟨h.toValid.sat hq hall heval, fun p hp => ?_⟩
  obtain ⟨l, hl, hlp⟩ := List.mem_iff_getElem.mp hp
  have hmade := h.assume.made l p (Nat.lt_of_lt_of_le hl hassumed)
    (List.getElem?_eq_some_iff.mpr ⟨hl, hlp⟩)
  exact heval p hmade.1

/-- What `solve_` returns after the loop: nothing but the answer is left of the search. -/
structure Concluded (F : Formula) (s : Solver) (status : LBool) (s' : Solver) : Prop where
  inv : Inv F s'
  nVars : s'.nVars = s.nVars
  decision : s'.decision = s.decision
  unbounded : Unbounded s → Unbounded s'
  solved : Solved F s.assumptions status s'

/-- **The answer of the search is concluded.** -/
theorem Answered.concluded {status : LBool} (h : Answered F s status s')
    (hconflict : s.conflict = []) (hbudget : status = .l_Undef → s'.withinBudget = false) :
    Concluded F s status ((s'.conclude status).cancelUntil o 0) := by
  have hb := cancelUntil_spec o (s'.conclude status) 0
  generalize (s'.conclude status).cancelUntil o 0 = t at hb ⊢
  have hnVars : t.nVars = (s'.conclude status).nVars := by
    rw [hb.toTrail]
    rfl
  have hunbounded : Same s s' → Unbounded s → Unbounded t := by
    intro hsame hs
    have : Unbounded (s'.conclude status) := by
      unfold Solver.conclude
      split
      · exact hsame.unbounded hs
      · split
        · exact hsame.unbounded hs
        · exact hsame.unbounded hs
    unfold Unbounded
    rw [hb.control]
    exact this
  cases h with
  | restart ready same conflict =>
    change Backtracked s' 0 t at hb
    refine ⟨ready.toRunning.inv hb, hnVars.trans same.nVars, hb.decision.trans same.decision,
      hunbounded same, .budget ?_⟩
    rw [withinBudget_congr hb.control hb.propagations]
    exact hbudget rfl
  | model running same assigned queue assumed =>
    change Backtracked { s' with model := (List.range s'.nVars).map s'.assigns } 0 t at hb
    have hmodel : t.model = (List.range s'.nVars).map s'.assigns :=
      congrArg Control.model hb.control
    have hnVars : t.nVars = s'.nVars := hnVars
    refine ⟨(running.setModel _).inv hb, hnVars.trans same.nVars,
      hb.decision.trans same.decision, hunbounded same, .model ?_ fun hdec => ?_⟩
    · rw [hmodel, List.length_map, List.length_range, hnVars]
    · rw [← same.assumptions]
      refine running.sat queue (fun x hx => assigned x hx ?_) assumed hmodel
      have hd := hdec x (Nat.lt_of_lt_of_eq hx hnVars.symm)
      rwa [hb.decision] at hd
  | unsat same conflict unsat =>
    have hconc : s'.conclude .l_False = { s' with ok := false } := by
      unfold Solver.conclude
      rw [if_neg (by simp), if_pos ⟨rfl, conflict.trans hconflict⟩]
    rw [hconc] at hb hnVars
    have hok : t.ok = false := congrArg Control.ok hb.control
    have hnil : t.conflict = [] :=
      (congrArg Control.conflict hb.control).trans (conflict.trans hconflict)
    refine ⟨⟨hb.level_zero, fun hyes => absurd (hok.symm.trans hyes) (by simp), fun _ => unsat⟩,
      hnVars.trans same.nVars, hb.decision.trans same.decision, hunbounded same, .conflict ?_ ?_⟩
    · intro σ hσ
      exact absurd ⟨σ, hσ⟩ unsat
    · rw [hnil]
      exact fun q hq => absurd hq List.not_mem_nil
  | falsified running same conflict entails neg =>
    have hconc : s'.conclude .l_False = s' := by
      unfold Solver.conclude
      rw [if_neg (by simp), if_neg fun h => conflict h.2]
    rw [hconc] at hb hnVars
    have hc : t.conflict = s'.conflict := congrArg Control.conflict hb.control
    refine ⟨running.inv hb, hnVars.trans same.nVars, hb.decision.trans same.decision,
      hunbounded same, .conflict ?_ ?_⟩
    · rw [hc]
      exact entails
    · rw [hc, ← same.assumptions]
      exact neg

/-- The solver at the start of the search. -/
theorem Inv.ready (h : Inv F s) (hok : s.ok = true) (has : ∀ p ∈ s.assumptions, p.var < s.nVars) :
    Ready F { s with model := [], conflict := [] } := by
  have hv := h.valid hok
  refine ⟨⟨hv.setControl ⟨hv.control.lbd, hv.control.reduce⟩, hok,
    AssumeOk.zero hv.ok.trail h.level has⟩, fun l hl => ?_⟩
  have hnil : s.trailLim = [] := List.eq_nil_of_length_eq_zero h.level
  change l ∈ s.trailLim at hl
  rw [hnil] at hl
  exact absurd hl List.not_mem_nil

/-- **`solve_`** returns from some fuel on, and its answer is right. -/
theorem solve_converges (choices : Nat → Choice) (hinc : 0 < o.incReduceDB) (h : Inv F s)
    (has : ∀ p ∈ s.assumptions, p.var < s.nVars) :
    ∃ r, Converges (fun fuel => Solver.solve_ o choices fuel s) r ∧
      Ends s.assumptions (fun status s' => Concluded F s status s') r := by
  cases hok : s.ok with
  | false =>
    refine ⟨.ok (.l_False, { s with model := [], conflict := [] }),
      Converges.of_eq fun fuel => ?_, Or.inr ⟨_, _, rfl, ?_, rfl, rfl, id, .conflict ?_ ?_⟩⟩
    · unfold Solver.solve_
      simp only [hok, Bool.not_false, if_true]
    · exact ⟨h.level, fun hyes => absurd (hok.symm.trans hyes) (by simp), fun _ => h.unsat hok⟩
    · intro σ hσ
      exact absurd ⟨σ, hσ⟩ (h.unsat hok)
    · exact fun q hq => absurd hq List.not_mem_nil
  | true =>
    obtain ⟨r, ⟨N, hN⟩, hends⟩ := solveLoop_converges choices hinc (h.ready hok has)
    have hrun : ∀ fuel, N ≤ fuel → Solver.solve_ o choices fuel s =
        r >>= fun x => .ok (x.1, (x.2.conclude x.1).cancelUntil o 0) := by
      intro fuel hfuel
      unfold Solver.solve_
      rw [if_neg (by simp [hok]), hN fuel fuel hfuel hfuel]
    rcases hends with ⟨e, he, rfl⟩ | ⟨status, s', rfl, hans, hbudget⟩
    · exact ⟨_, ⟨N, fun fuel hfuel => hrun fuel hfuel⟩, Or.inl ⟨e, he, rfl⟩⟩
    · have hc := hans.concluded (o := o) rfl hbudget
      exact ⟨_, ⟨N, fun fuel hfuel => hrun fuel hfuel⟩,
        Or.inr ⟨_, _, rfl, hc.inv, hc.nVars, hc.decision, hc.unbounded, hc.solved⟩⟩

end SymBreak.Glucose
