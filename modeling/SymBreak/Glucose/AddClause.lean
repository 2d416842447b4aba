import SymBreak.Glucose.Backtrack
import SymBreak.Glucose.Progress

/-!
# Adding clauses

Model of `newVar`, `addClause_` and `simplify` (`core/Solver.cc`), the operations on a solver that
is at level 0. A clause that is added is sorted, so that the copies of a literal and its complement
are next to each other, and loses the literals that are false at level 0.

`Valid F s` is what holds between these operations, for the clauses `F` that were added: the
invariant of the state, of the queue and of the heap. Each operation keeps it, or finds that the
clauses are unsatisfiable (`addClause_spec`, `simplify_spec`).
-/

namespace SymBreak.Glucose

open Cnf

/-- `toInt` (`SolverTypes.h:74`) -/
def toInt (p : Lit) : Nat := 2 * p.var + if p.sign then 1 else 0

/-- The loop that checks if a clause is satisfied and removes false and duplicate literals
(`Solver.cc:234-238`); `none` when it is satisfied. -/
def Trail.filterLits (t : Trail) : List Lit → Option Lit → List Lit → Option (List Lit)
  | [], _, ps => some ps
  | q :: qs, p, ps =>
    if t.value q = .l_True ∨ p.map Lit.neg = some q then none
    else if t.value q ≠ .l_False ∧ p ≠ some q then filterLits t qs (some q) (ps ++ [q])
    else filterLits t qs p ps

namespace State

/-- `removeSatisfied(learnts)` -/
def removeSatisfiedLearnts (s : State) : Result State := do
  let (learnts, s) ← removeSatisfied s.learnts [] s
  .ok { s with learnts := learnts }

/-- `removeSatisfied(clauses)` -/
def removeSatisfiedClauses (s : State) : Result State := do
  let (clauses, s) ← removeSatisfied s.clauses [] s
  .ok { s with clauses := clauses }

end State

namespace Solver

/-- `addClause_` (`Solver.cc:214-264`) -/
def addClause (s : Solver) (ps : List Lit) : Result (Bool × Solver) :=
  if s.decisionLevel ≠ 0 then .error (.raised (.assertion "decisionLevel() == 0"))
  else if !s.ok then .ok (false, s)
  else do
    let ps ← Mtl.sort (fun p q => toInt p < toInt q) ps
    match s.filterLits ps none [] with
    | none => .ok (true, s)
    | some [] => .ok (false, { s with ok := false })
    | some [p] => do
      let t ← s.uncheckedEnqueue p none
      let (confl, s) ← propagate { s with toState := t }
      .ok (confl.isNone, { s with ok := confl.isNone })
    | some ps => do
      let db := s.alloc ps false
      let db ← { db with clauses := db.clauses ++ [s.next] }.attachClause s.next
      .ok (true, { s with toClauseDb := db })

/-- `rebuildOrderHeap` (`Solver.cc:975-982`) -/
def rebuildOrderHeap (s : Solver) : Solver :=
  { s with orderHeap := (List.range s.nVars).filter fun v =>
      s.decision v && s.assigns v == .l_Undef }

/-- `simplify` (`Solver.cc:993-1014`) -/
def simplify (o : Options) (s : Solver) : Result (Bool × Solver) :=
  if s.decisionLevel ≠ 0 then .error (.raised (.assertion "decisionLevel() == 0"))
  else if !s.ok then .ok (false, { s with ok := false })
  else do
    let (confl, s) ← s.propagate
    if confl.isSome then .ok (false, { s with ok := false })
    else if s.nAssigns = s.simpDBAssigns ∨ s.simpDBProps > 0 then .ok (true, s)
    else do
      let t ← s.removeSatisfiedLearnts
      let t ← (if o.removeSatisfied then t.removeSatisfiedClauses else .ok t)
      let s := rebuildOrderHeap { s with toState := t }
      .ok (true, { s with
        simpDBAssigns := s.nAssigns
        simpDBProps := s.clausesLiterals + s.learntsLiterals })

end Solver

variable {F F' : Formula} {s s' : Solver} {p q : Lit} {ps qs : List Lit} {cr : CRef} {k : Nat}

/-! ## The invariant -/

/-- The queue of the restarts, and the divisor of the reductions. -/
structure ControlOk (c : Control) : Prop where
  lbd : ∃ n xs, 0 < n ∧ c.lbdQueue.Holds n xs
  reduce : 0 < c.nbclausesbeforereduce

/-- No budget is set, and the solver was not interrupted. -/
def Unbounded (s : Solver) : Prop :=
  s.asynchInterrupt = false ∧ s.conflictBudget < 0 ∧ s.propagationBudget < 0

/-- What holds in every state of the solver, but for the queue. -/
structure Sound (F : Formula) (s : Solver) : Prop where
  ok : StateOk F s.toState
  heap : HeapOk s
  clauses : ∀ cr ∈ s.clauses, cr < s.next
  learnts : ∀ cr ∈ s.learnts, cr < s.next ∧ (s.ca cr).learnt = true
  seen : ∀ x, s.seen x = false
  control : ControlOk s.toControl

/-- What holds between the operations of the solver, for the clauses `F` that were added. -/
structure Valid (F : Formula) (s : Solver) : Prop extends Sound F s where
  queue : QueueOk s

theorem Equivalent.congr {s : State} (h : Equivalent F s) (hF : ∀ σ, Sat σ F' ↔ Sat σ F) :
    Equivalent F' s :=
  ⟨fun cr hcr σ hσ => h.entails cr hcr σ ((hF σ).mp hσ),
    fun p hp hzero σ hσ => h.fixed p hp hzero σ ((hF σ).mp hσ),
    fun σ hσ hfixed => (hF σ).mpr (h.complete σ hσ hfixed)⟩

theorem StateOk.congr {s : State} (h : StateOk F s) (hF : ∀ σ, Sat σ F' ↔ Sat σ F) :
    StateOk F' s :=
  ⟨h.trail, h.db, h.reasons, h.equiv.congr hF⟩

/-- The heap of a state in which fewer variables have no value. -/
theorem HeapOk.mono (h : HeapOk s) (hheap : s'.orderHeap = s.orderHeap) (hn : s'.nVars = s.nVars)
    (hdec : s'.decision = s.decision)
    (hassigns : ∀ x, s'.assigns x = .l_Undef → s.assigns x = .l_Undef) : HeapOk s' :=
  ⟨fun x hx hd hundef => hheap ▸ h.mem x (hn ▸ hx) (hdec ▸ hd) (hassigns x hundef),
    fun x hx => hn ▸ h.lt x (hheap ▸ hx)⟩

theorem Sound.setControl (h : Sound F s) {c : Control} (hc : ControlOk c) :
    Sound F { s with toControl := c } :=
  ⟨h.ok, ⟨h.heap.mem, h.heap.lt⟩, h.clauses, h.learnts, h.seen, hc⟩

theorem Valid.setControl (h : Valid F s) {c : Control} (hc : ControlOk c) :
    Valid F { s with toControl := c } :=
  ⟨h.toSound.setControl hc, ⟨h.queue.lims, h.queue.qhead_le, h.queue.watched⟩⟩

theorem Propagated.sound {confl : Option CRef} (h : Propagated F s confl s') (hs : Sound F s) :
    Sound F s' where
  ok := h.ok
  heap := by
    refine hs.heap.mono (congrArg Order.orderHeap h.order) h.grown.nVars
      (congrArg Order.decision h.order) fun x hx => ?_
    rw [h.ok.trail.assigns_eq_undef] at hx
    rw [hs.ok.trail.assigns_eq_undef]
    exact fun hx' => hx ((h.grown.trail.map Lit.var).subset hx')
  clauses cr hcr := by
    rw [h.grown.next]
    exact hs.clauses cr (h.grown.lists.1 ▸ hcr)
  learnts cr hcr := by
    rw [h.grown.next, h.grown.learnt]
    exact hs.learnts cr (h.grown.lists.2 ▸ hcr)
  seen := h.seen ▸ hs.seen
  control := h.control ▸ hs.control

theorem Propagated.valid (h : Propagated F s none s') (hs : Valid F s) : Valid F s' where
  toSound := h.sound hs.toSound
  queue := by
    obtain ⟨hqhead, hwatched⟩ := h.done rfl
    refine ⟨fun l hl => ?_, hqhead.le, hwatched⟩
    rw [hqhead]
    exact h.ok.trail.lim_le l hl

/-- **A conflict at level 0** refutes the clauses. -/
theorem Propagated.unsat (h : Propagated F s (some cr) s') (hzero : s'.decisionLevel = 0) :
    ¬ Satisfiable F := by
  rintro ⟨σ, hσ⟩
  obtain ⟨hlive, hfalse, _⟩ := h.conflict cr rfl
  obtain ⟨q, hq, hqσ⟩ := h.ok.equiv.entails cr hlive.1 σ hσ
  have hmem := hfalse q hq
  have hlevel := h.ok.trail.level_le hmem
  have := (h.ok.equiv.neg_fixed hmem (by rw [var_neg] at hlevel; omega)).neg_false hσ
  rw [hqσ] at this
  exact absurd this (by simp)

/-! ## New variables -/

/-- The members of the trail when a variable is made. -/
def Trail.addVar (t : Trail) : Trail :=
  { t with
    nVars := t.nVars + 1
    assigns := Function.update t.assigns t.nVars .l_Undef
    vardata := Function.update t.vardata t.nVars ⟨none, 0⟩ }

theorem Trail.addVar_vardata {t : Trail} (h : TrailOk t) (hp : p ∈ t.trail) :
    t.addVar.vardata p.var = t.vardata p.var :=
  Function.update_of_ne (Nat.ne_of_lt (h.below p hp)) ..

theorem Trail.addVar_level {t : Trail} (h : TrailOk t) (hp : p ∈ t.trail) :
    t.addVar.level p.var = t.level p.var :=
  congrArg VarData.level (t.addVar_vardata h hp)

theorem TrailOk.addVar {t : Trail} (h : TrailOk t) : TrailOk t.addVar where
  nodup := h.nodup
  below p hp := Nat.lt_succ_of_lt (h.below p hp)
  value p := by
    by_cases hp : p.var = t.nVars
    · have hno : p ∉ t.trail := fun hmem => Nat.lt_irrefl _ (hp ▸ h.below p hmem)
      refine ⟨fun hv => ?_, fun hmem => absurd hmem hno⟩
      unfold Trail.value Trail.addVar at hv
      simp only [hp, Function.update_self] at hv
      exact absurd hv (by simp [LBool.xor])
    · have : t.addVar.value p = t.value p := by
        unfold Trail.value Trail.addVar
        simp only [Function.update_of_ne hp]
      rw [this]
      exact h.value p
  sorted := h.sorted
  lim_le := h.lim_le
  level i p hi := (t.addVar_level h (List.mem_of_getElem? hi)).trans (h.level i p hi)

theorem StateOk.addVar {s : State} (h : StateOk F s) :
    StateOk F { s with toTrail := s.toTrail.addVar } where
  trail := h.trail.addVar
  db := ⟨h.db.size, h.db.nodup, fun cr hcr q hq => Nat.lt_succ_of_lt (h.db.below cr hcr q hq),
    h.db.watches, h.db.watchesBin⟩
  reasons i p hi hpos := by
    have hmem := List.mem_of_getElem? hi
    have hlevel := s.toTrail.addVar_level h.trail hmem
    have hpos : 0 < s.level p.var := Nat.lt_of_lt_of_eq hpos hlevel
    have hreason : s.toTrail.addVar.reason p.var = s.reason p.var :=
      congrArg VarData.reason (s.toTrail.addVar_vardata h.trail hmem)
    obtain ⟨hn, hs⟩ := h.reasons i p hi hpos
    refine ⟨fun hr => ?_, fun cr hr => ?_⟩
    · exact (hn (hreason.symm.trans hr)).trans (congrArg (fun l => s.lim (l - 1)) hlevel.symm)
    · obtain ⟨hlive, hmem, hfirst, hbefore⟩ := hs cr (hreason.symm.trans hr)
      exact ⟨hlive, hmem, hfirst, hbefore⟩
  equiv := by
    refine ⟨h.equiv.entails, fun p hp hzero => ?_, fun σ hσ hfixed => ?_⟩
    · exact h.equiv.fixed p hp ((s.toTrail.addVar_level h.trail hp).symm.trans hzero)
    · exact h.equiv.complete σ hσ fun p hp hzero =>
        hfixed p hp ((s.toTrail.addVar_level h.trail hp).trans hzero)

/-- **`newVar`** makes a variable that has no value, and keeps the rest. -/
theorem newVar_spec (h : Valid F s) (sign dvar : Bool) : Valid F (s.newVar sign dvar).2 := by
  unfold Solver.newVar Solver.setDecisionVar
  simp only []
  have hmem : ∀ x, x ∈ (Solver.insertVarOrder { s with
      nVars := s.nVars + 1
      assigns := Function.update s.assigns s.nVars .l_Undef
      vardata := Function.update s.vardata s.nVars ⟨none, 0⟩
      seen := Function.update s.seen s.nVars false
      polarity := Function.update s.polarity s.nVars sign
      decision := Function.update s.decision s.nVars dvar } s.nVars).orderHeap ↔
      x ∈ s.orderHeap ∨ x = s.nVars ∧ Function.update s.decision s.nVars dvar s.nVars = true :=
    fun x => mem_insertVarOrder
  rw [insertVarOrder_eq]
  generalize (Solver.insertVarOrder _ s.nVars).orderHeap = heap at hmem ⊢
  refine ⟨⟨h.ok.addVar, ⟨fun x hx hdec hundef => ?_, fun x hx => ?_⟩, h.clauses, h.learnts,
    fun x => ?_, h.control⟩, ⟨h.queue.lims, h.queue.qhead_le, ?_⟩⟩
  · change x < s.nVars + 1 at hx
    change Function.update s.decision s.nVars dvar x = true at hdec
    change Function.update s.assigns s.nVars .l_Undef x = .l_Undef at hundef
    refine (hmem x).mpr ?_
    rcases Nat.lt_succ_iff_lt_or_eq.mp hx with hx | rfl
    · rw [Function.update_of_ne (Nat.ne_of_lt hx)] at hdec hundef
      exact Or.inl (h.heap.mem x hx hdec hundef)
    · exact Or.inr ⟨rfl, hdec⟩
  · change x < s.nVars + 1
    rcases (hmem x).mp hx with hx | ⟨rfl, _⟩
    · exact Nat.lt_succ_of_lt (h.heap.lt x hx)
    · exact Nat.lt_succ_self _
  · show Function.update s.seen s.nVars false x = false
    rw [Function.update_apply, h.seen, ite_self]
  · intro cr hcr q hq hfalse
    obtain ⟨r, hr, hrt, hrl⟩ := h.queue.watched cr hcr q hq hfalse
    refine ⟨r, hr, hrt, ?_⟩
    show s.toTrail.addVar.level r.var ≤ s.toTrail.addVar.level q.var
    have hq := s.toTrail.addVar_level h.ok.trail (List.mem_of_mem_take hfalse)
    rw [var_neg] at hq
    rwa [s.toTrail.addVar_level h.ok.trail hrt, hq]

/-! ## A new clause in the database -/

/-- The clause `ps` is the new clause of `db'`. -/
structure Added (db : ClauseDb) (ps : List Lit) (learnt : Bool) (db' : ClauseDb) : Prop where
  next : db'.next = db.next + 1
  old : ∀ cr, cr < db.next → db'.ca cr = db.ca cr
  lits : (db'.ca db.next).lits = ps
  learnt : (db'.ca db.next).learnt = learnt
  mark : (db'.ca db.next).mark = false

variable {db : ClauseDb} {learnt : Bool}

theorem Added.live {db' : ClauseDb} (h : Added db ps learnt db') :
    db'.Live cr ↔ db.Live cr ∨ cr = db.next := by
  unfold ClauseDb.Live
  rw [h.next]
  rcases Nat.lt_trichotomy cr db.next with hlt | rfl | hgt
  · rw [h.old cr hlt]
    simp only [Nat.lt_succ_of_lt hlt, hlt, true_and, Nat.ne_of_lt hlt, or_false]
  · simp [h.mark]
  · simp only [Nat.not_lt.mpr (Nat.succ_le_of_lt hgt), Nat.not_lt.mpr hgt.le, false_and,
      Nat.ne_of_gt hgt, or_self]

/-- **A state with one more clause**, which `F'` has over `F`, or `F` entails. -/
theorem StateOk.add {s : State} (h : StateOk F s) (hadd : Added s.toClauseDb ps learnt db)
    (hdb : DbOk db s.nVars) (hmono : ∀ σ, Sat σ F' → Sat σ F) (hent : Entails F' ps)
    (hcomplete : ∀ σ, Sat σ F → (learnt = false → ClauseHolds σ ps) → Sat σ F') :
    StateOk F' { s with toClauseDb := db } where
  trail := h.trail
  db := hdb
  reasons i p hi hpos := by
    obtain ⟨hn, hs⟩ := h.reasons i p hi hpos
    refine ⟨hn, fun cr hr => ?_⟩
    obtain ⟨hlive, hreason⟩ := hs cr hr
    refine ⟨hadd.live.mpr (Or.inl hlive), ?_⟩
    show IsReason s.toTrail (db.ca cr) i p
    rw [hadd.old cr hlive.1]
    exact hreason
  equiv := by
    refine ⟨fun cr hcr => ?_, fun p hp hzero σ hσ => h.equiv.fixed p hp hzero σ (hmono σ hσ),
      fun σ hσ hfixed => ?_⟩
    · show Entails F' (db.ca cr).lits
      rcases Nat.lt_or_eq_of_le (Nat.le_of_lt_succ (hadd.next ▸ hcr)) with hlt | heq
      · rw [hadd.old cr hlt]
        exact fun σ hσ => h.equiv.entails cr hlt σ (hmono σ hσ)
      · rw [heq, hadd.lits]
        exact hent
    · refine hcomplete σ (h.equiv.complete σ (fun cr hcr hl => ?_) hfixed) fun hl => ?_
      · have := hσ cr (hadd.live.mpr (Or.inl hcr)) (by
          show (db.ca cr).learnt = false
          rwa [hadd.old cr hcr.1])
        rwa [show db.ca cr = s.ca cr from hadd.old cr hcr.1] at this
      · have := hσ s.next (hadd.live.mpr (Or.inr rfl)) (hadd.learnt.trans hl)
        rwa [show (db.ca s.next).lits = ps from hadd.lits] at this

theorem Watched.add {s : State} (h : Watched s k) (hadd : Added s.toClauseDb ps learnt db)
    (hnew : ∀ q ∈ ps.take 2, q.neg ∈ s.trail.take k →
      ∃ r ∈ ps, r ∈ s.trail ∧ s.level r.var ≤ s.level q.var) :
    Watched { s with toClauseDb := db } k := by
  intro cr hcr q hq hfalse
  change q ∈ (db.ca cr).lits.take 2 at hq
  show ∃ r ∈ (db.ca cr).lits, r ∈ s.trail ∧ s.level r.var ≤ s.level q.var
  rcases hadd.live.mp hcr with hcr | rfl
  · rw [hadd.old cr hcr.1] at hq ⊢
    exact h cr hcr q hq hfalse
  · rw [hadd.lits] at hq ⊢
    exact hnew q hq hfalse

/-! ## `addClause_` -/

theorem var_le_of_toInt_le (h : toInt p ≤ toInt q) : p.var ≤ q.var := by
  unfold toInt at h
  split at h
  all_goals
    split at h
  all_goals omega

/-- `ps` was kept, `p` last, and the literals `qs` come in order behind it. -/
structure Filtering (t : Trail) (p : Option Lit) (ps qs : List Lit) : Prop where
  last : ∀ x, p = some x → x ∈ ps ∧ ∀ q ∈ qs, toInt x ≤ toInt q
  le : ∀ y ∈ ps, ∃ x, p = some x ∧ y.var ≤ x.var
  nodup : (ps.map Lit.var).Nodup
  undef : ∀ y ∈ ps, t.value y = .l_Undef
  sorted : qs.Pairwise fun x y => toInt x ≤ toInt y

theorem Filtering.keep {t : Trail} {o : Option Lit} (h : Filtering t o ps (q :: qs))
    (hneg : o.map Lit.neg ≠ some q) (hne : o ≠ some q) (hundef : t.value q = .l_Undef) :
    Filtering t (some q) (ps ++ [q]) qs := by
  obtain ⟨hfirst, hrest⟩ := List.pairwise_cons.mp h.sorted
  have hvar : ∀ y ∈ ps, y.var < q.var := by
    intro y hy
    obtain ⟨x, rfl, hyx⟩ := h.le y hy
    refine Nat.lt_of_le_of_lt hyx (Nat.lt_of_le_of_ne ?_ fun heq => ?_)
    · exact var_le_of_toInt_le ((h.last x rfl).2 q List.mem_cons_self)
    · rcases eq_or_eq_neg heq with rfl | rfl
      · exact hne rfl
      · rw [Option.map_some, neg_neg] at hneg
        exact hneg rfl
  refine ⟨fun x hx => ?_, fun y hy => ⟨q, rfl, ?_⟩, ?_, fun y hy => ?_, hrest⟩
  · obtain rfl := Option.some.inj hx
    exact ⟨List.mem_append_right _ List.mem_cons_self, hfirst⟩
  · rcases List.mem_append.mp hy with hy | hy
    · exact (hvar y hy).le
    · rw [List.mem_singleton.mp hy]
  · rw [List.map_append]
    refine List.nodup_append.mpr ⟨h.nodup, List.nodup_singleton _, fun x hx y hy hxy => ?_⟩
    obtain ⟨z, hz, rfl⟩ := List.mem_map.mp hx
    have := hvar z hz
    rw [List.map_singleton, List.mem_singleton] at hy
    omega
  · rcases List.mem_append.mp hy with hy | hy
    · exact h.undef y hy
    · rwa [List.mem_singleton.mp hy]

theorem Filtering.drop {t : Trail} {o : Option Lit} (h : Filtering t o ps (q :: qs)) :
    Filtering t o ps qs :=
  ⟨fun x hx => ⟨(h.last x hx).1, fun r hr => (h.last x hx).2 r (List.mem_cons_of_mem _ hr)⟩, h.le,
    h.nodup, h.undef, (List.pairwise_cons.mp h.sorted).2⟩

/-- The assignment agrees with the values of the trail. -/
def Agrees (t : Trail) (σ : Assignment) : Prop := ∀ p, t.value p = .l_True → p.eval σ = true

theorem Agrees.eval_false {t : Trail} {σ : Assignment} (h : Agrees t σ)
    (hp : t.value p = .l_False) : p.eval σ = false := by
  have := h p.neg (TrailOk.value_neg_eq_true.mpr hp)
  rwa [Lit.eval_neg, Bool.not_eq_true'] at this

/-- What the filter returns: the clause holds, or it says the same as the literals that are left,
which are of different variables without values. -/
theorem filterLits_spec (t : Trail) : ∀ (qs : List Lit) (o : Option Lit) (ps : List Lit),
    Filtering t o ps qs → match t.filterLits qs o ps with
      | none => ∀ σ, Agrees t σ → ClauseHolds σ (ps ++ qs)
      | some rs => (rs.map Lit.var).Nodup ∧ (∀ r ∈ rs, r ∈ ps ++ qs ∧ t.value r = .l_Undef) ∧
        ∀ σ, Agrees t σ → (ClauseHolds σ (ps ++ qs) ↔ ClauseHolds σ rs)
  | [], o, ps, h => by
    unfold Trail.filterLits
    rw [List.append_nil]
    exact ⟨h.nodup, fun r hr => ⟨hr, h.undef r hr⟩, fun σ _ => Iff.rfl⟩
  | q :: qs, o, ps, h => by
    unfold Trail.filterLits
    by_cases hsat : t.value q = .l_True ∨ o.map Lit.neg = some q
    · rw [if_pos hsat]
      intro σ hσ
      rcases hsat with hq | hq
      · exact ⟨q, List.mem_append_right _ List.mem_cons_self, hσ q hq⟩
      · -- a literal and its complement
        obtain ⟨x, hx, rfl⟩ := Option.map_eq_some_iff.mp hq
        by_cases hxσ : x.eval σ = true
        · exact ⟨x, List.mem_append_left _ (h.last x hx).1, hxσ⟩
        · refine ⟨x.neg, List.mem_append_right _ List.mem_cons_self, ?_⟩
          rw [Lit.eval_neg, eq_false_of_ne_true hxσ, Bool.not_false]
    · rw [if_neg hsat]
      obtain ⟨htrue, hneg⟩ := not_or.mp hsat
      by_cases hkeep : t.value q ≠ .l_False ∧ o ≠ some q
      · rw [if_pos hkeep]
        have hundef : t.value q = .l_Undef := by
          cases hv : t.value q with
          | l_True => exact absurd hv htrue
          | l_False => exact absurd hv hkeep.1
          | l_Undef => rfl
        have := filterLits_spec t qs (some q) (ps ++ [q]) (h.keep hneg hkeep.2 hundef)
        rwa [List.append_assoc] at this
      · rw [if_neg hkeep]
        have hiff : ∀ σ, Agrees t σ →
            (ClauseHolds σ (ps ++ q :: qs) ↔ ClauseHolds σ (ps ++ qs)) := by
          intro σ hσ
          refine ⟨fun ⟨l, hl, hlσ⟩ => ?_, fun ⟨l, hl, hlσ⟩ => ⟨l, ?_, hlσ⟩⟩
          · rcases List.mem_append.mp hl with hl | hl
            · exact ⟨l, List.mem_append_left _ hl, hlσ⟩
            · rcases List.mem_cons.mp hl with rfl | hl
              · rcases not_and_or.mp hkeep with hv | hv
                · rw [hσ.eval_false (not_not.mp hv)] at hlσ
                  exact absurd hlσ Bool.false_ne_true
                · exact ⟨l, List.mem_append_left _ (h.last l (not_not.mp hv)).1, hlσ⟩
              · exact ⟨l, List.mem_append_right _ hl, hlσ⟩
          · rcases List.mem_append.mp hl with hl | hl
            · exact List.mem_append_left _ hl
            · exact List.mem_append_right _ (List.mem_cons_of_mem _ hl)
        have := filterLits_spec t qs o ps h.drop
        generalize t.filterLits qs o ps = r at this
        cases r with
        | none => exact fun σ hσ => (hiff σ hσ).mpr (this σ hσ)
        | some rs =>
          obtain ⟨hnodup, hmem, hholds⟩ := this
          refine ⟨hnodup, fun r hr => ⟨?_, (hmem r hr).2⟩, fun σ hσ =>
            (hiff σ hσ).trans (hholds σ hσ)⟩
          rcases List.mem_append.mp (hmem r hr).1 with h | h
          · exact List.mem_append_left _ h
          · exact List.mem_append_right _ (List.mem_cons_of_mem _ h)

/-- The assignment satisfies the clauses, so it agrees with the values of level 0. -/
theorem StateOk.agrees {s : State} (h : StateOk F s) (hzero : s.decisionLevel = 0)
    {σ : Assignment} (hσ : Sat σ F) : Agrees s.toTrail σ := by
  intro p hp
  have hmem := (h.trail.value p).mp hp
  obtain ⟨l, hl, hlσ⟩ := h.equiv.fixed p hmem
    (Nat.le_zero.mp (hzero ▸ h.trail.level_le hmem)) σ hσ
  rwa [List.mem_singleton.mp hl] at hlσ

/-- A unit clause at level 0. -/
theorem StateOk.addUnit {s : State} (h : StateOk F s) (hp : s.value p = .l_Undef)
    (hlt : p.var < s.nVars) (hzero : s.decisionLevel = 0) :
    StateOk (F ++ [[p]]) { s with toTrail := s.toTrail.push p none } where
  trail := h.trail.push hp hlt _
  db := h.db
  reasons := h.reasons.push h.trail hp (fun _ hpos => absurd hzero (Nat.ne_of_gt hpos))
    fun cr hcr => absurd hcr (by simp)
  equiv := by
    have hsat : ∀ σ, Sat σ (F ++ [[p]]) ↔ Sat σ F ∧ p.eval σ = true := by
      intro σ
      simp
    refine ⟨fun cr hcr σ hσ => h.equiv.entails cr hcr σ ((hsat σ).mp hσ).1,
      fun q hq hlevel σ hσ => ?_, fun σ hσ hfixed => (hsat σ).mpr ⟨h.equiv.complete σ hσ
        fun q hq hlevel => hfixed q (TrailOk.mem_push.mpr (Or.inl hq)) ?_, ?_⟩⟩
    · rcases TrailOk.mem_push.mp hq with hq | rfl
      · exact h.equiv.fixed q hq ((TrailOk.push_level (h.trail.var_ne hp hq)).symm.trans hlevel) σ
          ((hsat σ).mp hσ).1
      · exact ⟨q, List.mem_cons_self, ((hsat σ).mp hσ).2⟩
    · exact (TrailOk.push_level (h.trail.var_ne hp hq)).trans hlevel
    · exact hfixed p (TrailOk.mem_push.mpr (Or.inr rfl))
        ((TrailOk.push_level_self s.toTrail p none).trans hzero)

theorem HeapOk.push (h : HeapOk s) (p : Lit) (source : Option CRef) :
    HeapOk { s with toTrail := s.toTrail.push p source } := by
  refine h.mono rfl rfl rfl fun x hx => ?_
  change Function.update s.assigns p.var (LBool.ofBool !p.sign) x = .l_Undef at hx
  rw [Function.update_apply] at hx
  split at hx
  · cases hsign : p.sign with
    | false => exact absurd hx (by simp [LBool.ofBool, hsign])
    | true => exact absurd hx (by simp [LBool.ofBool, hsign])
  · exact hx

theorem Valid.addUnit (h : Valid F s) (hp : s.value p = .l_Undef) (hlt : p.var < s.nVars)
    (hzero : s.decisionLevel = 0) :
    Valid (F ++ [[p]]) { s with toTrail := s.toTrail.push p none } where
  ok := h.ok.addUnit hp hlt hzero
  heap := h.heap.push p none
  clauses := h.clauses
  learnts := h.learnts
  seen := h.seen
  control := h.control
  queue := ⟨h.queue.lims, h.queue.qhead_le.trans (by simp [Trail.push]),
    h.queue.watched.push h.ok.trail hp h.queue.qhead_le⟩

/-- A longer clause at level 0. -/
theorem Valid.addClause (h : Valid F s) (hsize : 2 ≤ ps.length)
    (hnodup : (ps.map Lit.var).Nodup) (hbelow : ClauseBelow s.nVars ps)
    (hundef : ∀ q ∈ ps, s.value q = .l_Undef) :
    ∃ db, { s.alloc ps false with
          clauses := (s.alloc ps false).clauses ++ [s.next] }.attachClause s.next = .ok db ∧
      Valid (F ++ [ps]) { s with toClauseDb := db } := by
  have hdb : DbOk { s.toClauseDb with clauses := s.clauses ++ [s.next] } s.nVars :=
    ⟨h.ok.db.size, h.ok.db.nodup, h.ok.db.below, h.ok.db.watches.congr rfl rfl,
      h.ok.db.watchesBin.congr rfl rfl⟩
  obtain ⟨db, hrun, hdb, hca, hnext, hclauses, hlearnts⟩ := hdb.add false hsize hnodup hbelow
  have hnew : db.ca s.next = Clause.new ps false := by
    rw [hca]
    exact alloc_ca_next _ _ _
  have hadd : Added s.toClauseDb ps false db := by
    refine ⟨hnext, fun cr hcr => ?_, ?_, ?_, ?_⟩
    · rw [hca]
      exact alloc_ca hcr
    · rw [hnew]
      rfl
    · rw [hnew]
      rfl
    · rw [hnew]
      rfl
  refine ⟨db, hrun,
    ⟨h.ok.add hadd hdb ?_ ?_ ?_, ⟨h.heap.mem, h.heap.lt⟩, ?_, ?_, h.seen, h.control⟩,
    h.queue.lims, h.queue.qhead_le, h.queue.watched.add hadd fun q hq hfalse => ?_⟩
  · exact fun σ hσ => (sat_append.mp hσ).1
  · exact fun σ hσ => (sat_append.mp hσ).2 ps List.mem_cons_self
  · intro σ hσ hps
    exact sat_append.mpr ⟨hσ, sat_cons.mpr ⟨hps rfl, sat_nil σ⟩⟩
  · intro cr hcr
    show cr < db.next
    change cr ∈ db.clauses at hcr
    rw [hclauses] at hcr
    rw [hnext]
    rcases List.mem_append.mp hcr with hcr | hcr
    · exact Nat.lt_succ_of_lt (h.clauses cr hcr)
    · rw [List.mem_singleton.mp hcr]
      exact Nat.lt_succ_self _
  · intro cr hcr
    show cr < db.next ∧ (db.ca cr).learnt = true
    change cr ∈ db.learnts at hcr
    rw [hlearnts] at hcr
    obtain ⟨hlt, hl⟩ := h.learnts cr hcr
    rw [hnext, hadd.old cr hlt]
    exact ⟨Nat.lt_succ_of_lt hlt, hl⟩
  · -- no literal of the clause is false
    have hq := hundef q (List.mem_of_mem_take hq)
    rw [h.ok.trail.value_eq_undef] at hq
    exact absurd (List.mem_of_mem_take hfalse) hq.2

/-- What `addClause_` and `simplify` do to a solver at level 0: it returns false when the clauses
`F` are unsatisfiable. -/
structure AtLevelZero (F : Formula) (s : Solver) (b : Bool) (s' : Solver) : Prop where
  nVars : s'.nVars = s.nVars
  decision : s'.decision = s.decision
  level : s'.decisionLevel = 0
  unbounded : Unbounded s → Unbounded s'
  ok : s'.ok = b
  valid : b = true → Valid F s'
  unsat : b = false → ¬ Satisfiable F

theorem AtLevelZero.congr {b : Bool} (h : AtLevelZero F s b s') (hF : ∀ σ, Sat σ F' ↔ Sat σ F) :
    AtLevelZero F' s b s' where
  nVars := h.nVars
  decision := h.decision
  level := h.level
  unbounded := h.unbounded
  ok := h.ok
  valid hb := by
    obtain ⟨⟨hok, hheap, hclauses, hlearnts, hseen, hcontrol⟩, hqueue⟩ := h.valid hb
    exact ⟨⟨hok.congr hF, hheap, hclauses, hlearnts, hseen, hcontrol⟩, hqueue⟩
  unsat hb := fun ⟨σ, hσ⟩ => h.unsat hb ⟨σ, (hF σ).mp hσ⟩

/-- Propagation at level 0. -/
theorem Valid.propagate (h : Valid F s) (hzero : s.decisionLevel = 0) :
    ∃ confl s', s.propagate = .ok (confl, s') ∧ Propagated F s confl s' ∧
      AtLevelZero F s confl.isNone { s' with ok := confl.isNone } := by
  obtain ⟨confl, s', hrun, hp⟩ := propagate_spec h.ok h.queue
  have hlevel : s'.decisionLevel = 0 := hp.grown.decisionLevel.trans hzero
  refine ⟨confl, s', hrun, hp, hp.grown.nVars, congrArg Order.decision hp.order, hlevel,
    fun hs => ?_, rfl, fun hb => ?_, fun hb => ?_⟩
  · show s'.asynchInterrupt = false ∧ s'.conflictBudget < 0 ∧ s'.propagationBudget < 0
    rw [hp.control]
    exact hs
  · obtain rfl := Option.isNone_iff_eq_none.mp hb
    exact (hp.valid h).setControl ⟨(hp.valid h).control.lbd, (hp.valid h).control.reduce⟩
  · cases confl with
    | none => exact absurd hb (by simp)
    | some cr => exact hp.unsat hlevel

/-- **`addClause_`** adds the clause, or finds that the clauses are unsatisfiable. -/
theorem addClause_spec (h : Valid F s) (hzero : s.decisionLevel = 0) (hok : s.ok = true)
    (hps : ClauseBelow s.nVars ps) :
    ∃ b s', s.addClause ps = .ok (b, s') ∧ AtLevelZero (F ++ [ps]) s b s' := by
  have hasymm : Std.Asymm fun p q : Lit => toInt p < toInt q :=
    ⟨fun _ _ h h' => Nat.lt_asymm h h'⟩
  have hconn : IsOrderConnected Lit fun p q => toInt p < toInt q :=
    ⟨fun _ q _ h => (Nat.lt_or_ge _ (toInt q)).imp_right fun hq => Nat.lt_of_le_of_lt hq h⟩
  obtain ⟨qs, hsort, hperm, hsorted⟩ :
      ∃ qs, Mtl.sort (fun p q => toInt p < toInt q) ps = .ok qs ∧ qs.Perm ps ∧
        qs.Pairwise fun p q => ¬ toInt q < toInt p :=
    Mtl.sortRec_spec _ ps (Nat.lt_succ_self _)
  have hspec := filterLits_spec s.toTrail qs none [] ⟨fun x hx => absurd hx (by simp),
    fun y hy => absurd hy List.not_mem_nil, List.nodup_nil, fun y hy => absurd hy List.not_mem_nil,
    hsorted.imp Nat.le_of_not_lt⟩
  rw [List.nil_append] at hspec
  have hholds : ∀ σ, ClauseHolds σ ps ↔ ClauseHolds σ qs := fun σ =>
    exists_congr fun _ => and_congr_left fun _ => hperm.symm.mem_iff
  have hadd : ∀ {c : List Lit}, (∀ σ, Agrees s.toTrail σ → (ClauseHolds σ qs ↔ ClauseHolds σ c)) →
      ∀ σ, Sat σ (F ++ [ps]) ↔ Sat σ (F ++ [c]) := by
    intro c hc σ
    simp only [sat_append, sat_cons, sat_nil, and_true]
    exact and_congr_right fun hσ => (hholds σ).trans (hc σ (h.ok.agrees hzero hσ))
  unfold Solver.addClause
  rw [if_neg (not_not.mpr hzero)]
  simp only [hok, Bool.not_true, Bool.false_eq_true, if_false, hsort, ok_bind]
  generalize s.filterLits qs none [] = r at hspec
  cases r with
  | none =>
    -- satisfied at level 0, or a tautology
    refine ⟨true, s, rfl, rfl, rfl, hzero, id, hok, fun _ => ?_, fun hb => absurd hb (by simp)⟩
    have hF : ∀ σ, Sat σ (F ++ [ps]) ↔ Sat σ F := by
      intro σ
      simp only [sat_append, sat_cons, sat_nil, and_true]
      exact and_iff_left_of_imp fun hσ => (hholds σ).mpr (hspec σ (h.ok.agrees hzero hσ))
    exact ⟨⟨h.ok.congr hF, h.heap, h.clauses, h.learnts, h.seen, h.control⟩, h.queue⟩
  | some rs =>
    obtain ⟨hnodup, hmem, hiff⟩ := hspec
    have hF := hadd hiff
    have hundef : ∀ q ∈ rs, s.value q = .l_Undef := fun q hq => (hmem q hq).2
    have hbelow : ClauseBelow s.nVars rs := fun q hq => hps q (hperm.subset (hmem q hq).1)
    rcases rs with _ | ⟨p, _ | ⟨q, rs⟩⟩
    · refine ⟨false, { s with ok := false }, rfl, rfl, rfl, hzero, id, rfl,
        fun hb => absurd hb (by simp), fun _ => ?_⟩
      rintro ⟨σ, hσ⟩
      exact clauseHolds_nil σ ((sat_append.mp ((hF σ).mp hσ)).2 [] List.mem_cons_self)
    · have hp := hundef p List.mem_cons_self
      have hlt := hbelow p List.mem_cons_self
      obtain ⟨confl, s', hrun, _, hz⟩ := (h.addUnit hp hlt hzero).propagate hzero
      have hz := hz.congr hF
      refine ⟨confl.isNone, { s' with ok := confl.isNone }, ?_, hz.nVars, hz.decision, hz.level,
        hz.unbounded, hz.ok, hz.valid, hz.unsat⟩
      simp only [State.uncheckedEnqueue, hp, ne_eq, not_true, if_false, ok_bind]
      rw [hrun]
      rfl
    · obtain ⟨db, hrun, hv⟩ := h.addClause (by simp) hnodup hbelow hundef
      have hz : AtLevelZero (F ++ [p :: q :: rs]) s true { s with toClauseDb := db } :=
        ⟨rfl, rfl, hzero, id, hok, fun _ => hv, fun hb => absurd hb (by simp)⟩
      refine ⟨true, { s with toClauseDb := db }, ?_, hz.congr hF⟩
      simp only [hrun, ok_bind]

/-! ## `simplify` -/

/-- What `simplify` does: it finds that the clauses are unsatisfiable, or the queue is empty. -/
structure Simplified (F : Formula) (s : Solver) (b : Bool) (s' : Solver) : Prop
    extends AtLevelZero F s b s' where
  control : s'.toControl = { s.toControl with ok := b, simpDBAssigns := s'.simpDBAssigns }
  done : b = true → s'.qhead = s'.trail.length
  trail : s.trail <+: s'.trail
  keeps : Keeps s.toState s'.toState

/-- The heap that is built anew. -/
theorem rebuildOrderHeap_heapOk (s : Solver) : HeapOk s.rebuildOrderHeap where
  mem x hx hdec hundef := by
    refine List.mem_filter.mpr ⟨List.mem_range.mpr hx, ?_⟩
    change s.assigns x = .l_Undef at hundef
    change s.decision x = true at hdec
    simp [hdec, hundef]
  lt x hx := List.mem_range.mp (List.mem_filter.mp hx).1

/-- A state that differs in the two lists of clauses. -/
theorem Valid.removed {t : State} {clauses learnts : List CRef} {gone : CRef → Prop}
    (h : Valid F s) (ht : StateOk F t) (hr : Removed gone s.toState t)
    (hclauses : ∀ cr ∈ clauses, cr ∈ s.clauses) (hlearnts : ∀ cr ∈ learnts, cr ∈ s.learnts) :
    Valid F { s with toState := { t with clauses := clauses, learnts := learnts } } where
  ok := ⟨ht.trail, ⟨ht.db.size, ht.db.nodup, ht.db.below, ht.db.watches.congr rfl rfl,
    ht.db.watchesBin.congr rfl rfl⟩, ht.reasons, ⟨ht.equiv.entails, ht.equiv.fixed,
    ht.equiv.complete⟩⟩
  heap := h.heap.mono rfl hr.nVars rfl fun x hx => by
    rw [← hr.assigns]
    exact hx
  clauses cr hcr := Nat.lt_of_lt_of_eq (h.clauses cr (hclauses cr hcr)) hr.next.symm
  learnts cr hcr := by
    obtain ⟨hlt, hl⟩ := h.learnts cr (hlearnts cr hcr)
    exact ⟨Nat.lt_of_lt_of_eq hlt hr.next.symm, (hr.learnt cr).trans hl⟩
  seen := h.seen
  control := h.control
  queue := by
    refine ⟨fun l hl => h.queue.lims l (hr.trailLim ▸ hl), ?_, hr.watched h.queue.watched⟩
    show s.qhead ≤ t.trail.length
    rw [hr.trail]
    exact h.queue.qhead_le

theorem Valid.rebuildOrderHeap (h : Valid F s) : Valid F s.rebuildOrderHeap :=
  ⟨⟨h.ok, rebuildOrderHeap_heapOk s, h.clauses, h.learnts, h.seen, h.control⟩,
    ⟨h.queue.lims, h.queue.qhead_le, h.queue.watched⟩⟩

/-- The clauses that are true at level 0 are removed. -/
structure Shrunk (F : Formula) (s : Solver) (t : State) : Prop where
  valid : Valid F { s with toState := t }
  nVars : t.nVars = s.nVars
  trail : t.trail = s.trail
  trailLim : t.trailLim = s.trailLim
  keeps : Keeps s.toState t

theorem Valid.shrunk {t : State} {clauses learnts : List CRef} (h : Valid F s) (ht : StateOk F t)
    (hr : Removed (FixedTrue s.toState) s.toState t)
    (hclauses : ∀ cr ∈ clauses, cr ∈ s.clauses) (hlearnts : ∀ cr ∈ learnts, cr ∈ s.learnts) :
    Shrunk F s { t with clauses := clauses, learnts := learnts } :=
  ⟨h.removed ht hr hclauses hlearnts, hr.nVars, hr.trail, hr.trailLim, hr.keeps⟩

theorem removeSatisfiedLearnts_spec (h : Valid F s) (hzero : s.decisionLevel = 0) :
    ∃ t, s.removeSatisfiedLearnts = .ok t ∧ Shrunk F s t := by
  obtain ⟨learnts, t, hrun, hsub, hok, hr⟩ := removeSatisfied_spec s.learnts [] s.toState h.ok hzero
    fun cr hcr => (h.learnts cr hcr).1
  refine ⟨{ t with learnts := learnts }, ?_, h.shrunk hok hr (fun cr hcr => hr.lists.1 ▸ hcr)
    fun cr hcr => hsub.subset hcr⟩
  unfold State.removeSatisfiedLearnts
  rw [hrun]
  rfl

theorem removeSatisfiedClauses_spec (h : Valid F s) (hzero : s.decisionLevel = 0) :
    ∃ t, s.removeSatisfiedClauses = .ok t ∧ Shrunk F s t := by
  obtain ⟨clauses, t, hrun, hsub, hok, hr⟩ := removeSatisfied_spec s.clauses [] s.toState h.ok hzero
    h.clauses
  refine ⟨{ t with clauses := clauses }, ?_, h.shrunk hok hr (fun cr hcr => hsub.subset hcr)
    fun cr hcr => hr.lists.2 ▸ hcr⟩
  unfold State.removeSatisfiedClauses
  rw [hrun]
  rfl

/-- **`simplify`** -/
theorem simplify_spec (o : Options) (h : Valid F s) (hzero : s.decisionLevel = 0)
    (hok : s.ok = true) : ∃ b s', s.simplify o = .ok (b, s') ∧ Simplified F s b s' := by
  obtain ⟨confl, t, hrun, hp, hz⟩ := h.propagate hzero
  unfold Solver.simplify
  rw [if_neg (not_not.mpr hzero)]
  simp only [hok, Bool.not_true, Bool.false_eq_true, if_false, hrun, ok_bind]
  cases confl with
  | some cr =>
    refine ⟨false, { t with ok := false }, by rfl, hz, ?_, fun hb => absurd hb (by simp),
      hp.grown.trail, hp.grown.keeps⟩
    rw [hp.control]
  | none =>
    have hv := hp.valid h
    have htok : t.ok = true := by
      rw [hp.control]
      exact hok
    have hdone := (hp.done rfl).1
    simp only [Option.isSome_none, Bool.false_eq_true, if_false]
    split
    · refine ⟨true, t, rfl, ⟨hz.nVars, hz.decision, hz.level, hz.unbounded, htok, fun _ => hv,
        fun hb => absurd hb (by simp)⟩, ?_, fun _ => hdone, hp.grown.trail, hp.grown.keeps⟩
      rw [hp.control, ← hok]
    · obtain ⟨u, hurun, hu⟩ := removeSatisfiedLearnts_spec hv hz.level
      obtain ⟨v, hvrun, hvv⟩ : ∃ v,
          (if o.removeSatisfied then u.removeSatisfiedClauses else .ok u) = .ok v ∧
            Shrunk F { t with toState := u } v := by
        split
        · exact removeSatisfiedClauses_spec hu.valid
            ((congrArg List.length hu.trailLim).trans hz.level)
        · exact ⟨u, rfl, hu.valid, rfl, rfl, rfl, Keeps.refl u⟩
      have htrail : v.trail = t.trail := hvv.trail.trans hu.trail
      simp only [hurun, hvrun, ok_bind]
      refine ⟨true, _, rfl, ⟨?_, hz.decision, ?_, hz.unbounded, htok, fun _ => ?_,
        fun hb => absurd hb (by simp)⟩, ?_, fun _ => ?_, ?_, ?_⟩
      · exact (hvv.nVars.trans hu.nVars).trans hz.nVars
      · exact (congrArg List.length (hvv.trailLim.trans hu.trailLim)).trans hz.level
      · obtain ⟨⟨hok, hheap, hclauses, hlearnts, hseen, hcontrol⟩, hqueue⟩ :=
          hvv.valid.rebuildOrderHeap
        exact ⟨⟨hok, ⟨hheap.mem, hheap.lt⟩, hclauses, hlearnts, hseen,
          ⟨hcontrol.lbd, hcontrol.reduce⟩⟩, ⟨hqueue.lims, hqueue.qhead_le, hqueue.watched⟩⟩
      · rw [← hp.control, ← htok]
        rfl
      · show t.qhead = v.trail.length
        rw [htrail]
        exact hdone
      · show s.trail <+: v.trail
        rw [htrail]
        exact hp.grown.trail
      · exact (hp.grown.keeps.trans hu.keeps).trans hvv.keeps

end SymBreak.Glucose
