import SymBreak.Glucose.Search

/-!
# A turn of the search

What a turn of `search` does to a solver that is `Ready` (`turn_spec`): it goes on with a solver
that is ready again, or returns an answer that is right, or fails in one of two ways (`Fails`): the
assertion that there are learnt clauses to reduce, and, when two assumptions are on one variable, a
level that `permDiff` has no entry for. With assumptions on different variables there are more
variables than levels at a conflict (`Propagated.decisionLevel_lt`).

`Advance` says what a turn changes, for the proof that the search ends.
-/

namespace SymBreak.Glucose

open Cnf

variable {F : Formula} {o : Options} {s s' : Solver} {p q : Lit} {ps qs as : List Lit} {l : Nat}

/-! ## Learning a clause -/

theorem attachClause_setLBD (db : ClauseDb) (cr : CRef) (n : Nat) :
    (db.setLBD cr n).attachClause cr = (db.attachClause cr).map fun db => db.setLBD cr n := by
  have hca : (db.setLBD cr n).ca cr = { db.ca cr with lbd := n } := Function.update_self ..
  have hsize : (⟨(db.ca cr).lits, (db.ca cr).learnt, (db.ca cr).mark, n, (db.ca cr).canBeDel⟩ :
    Glucose.Clause).size = (db.ca cr).size := rfl
  unfold ClauseDb.attachClause
  simp only [hca, hsize]
  by_cases h1 : (db.ca cr).size ≤ 1
  · rw [if_pos h1, if_pos h1]
    rfl
  · rw [if_neg h1, if_neg h1]
    by_cases h2 : (db.ca cr).size = 2
    · rw [if_pos h2, if_pos h2]
      unfold ClauseDb.count
      split
      · rfl
      · rfl
    · rw [if_neg h2, if_neg h2]
      unfold ClauseDb.count
      split
      · rfl
      · rfl

/-- **A learnt clause** is added to the database. -/
theorem DbOk.learn {db : ClauseDb} {n : Nat} (h : DbOk db n) (hsize : 2 ≤ ps.length)
    (hnodup : (ps.map Lit.var).Nodup) (hbelow : ClauseBelow n ps) (nblevels : Nat) :
    ∃ db', db.learn ps nblevels = .ok db' ∧ DbOk db' n ∧ Added db ps true db' ∧
      db'.clauses = db.clauses ∧ db'.learnts = db.learnts ++ [db.next] := by
  have h₀ : DbOk { db with learnts := db.learnts ++ [db.next] } n :=
    ⟨h.size, h.nodup, h.below, h.watches.congr rfl rfl, h.watchesBin.congr rfl rfl⟩
  obtain ⟨db₁, hrun, hdb₁, hca, hnext, hclauses, hlearnts⟩ := h₀.add true hsize hnodup hbelow
  have hnew : db₁.ca db.next = Clause.new ps true := by
    rw [hca]
    exact alloc_ca_next _ _ _
  have hset : (db₁.setLBD db.next nblevels).ca db.next =
      { Clause.new ps true with lbd := nblevels } := by
    simp only [ClauseDb.setLBD, Function.update_self, hnew]
  have hre : Reordered db₁ (db₁.setLBD db.next nblevels) :=
    Reordered.set (List.Perm.refl _) (List.Perm.refl _) rfl rfl
  refine ⟨db₁.setLBD db.next nblevels, ?_, hdb₁.reorder hre rfl rfl, ⟨hnext, fun cr hcr => ?_, ?_,
    ?_, ?_⟩, hclauses, hlearnts⟩
  · have := attachClause_setLBD ({ db with learnts := db.learnts ++ [db.next] }.alloc ps true)
      db.next nblevels
    rw [hrun] at this
    exact this
  · simp only [ClauseDb.setLBD, Function.update_of_ne (Nat.ne_of_lt hcr), hca]
    exact alloc_ca hcr
  · rw [hset]
    rfl
  · rw [hset]
    rfl
  · rw [hset]
    rfl

/-- What was learnt from a conflict, at the level to which the search goes back. -/
structure Asserting (F : Formula) (s : Solver) (p : Lit) (qs : List Lit) : Prop where
  undef : s.value p = .l_Undef
  false_of_mem : ∀ q ∈ qs, q.neg ∈ s.trail
  level : ∀ q, qs.head? = some q → s.level q.var = s.decisionLevel
  unit : qs = [] → s.decisionLevel = 0
  nodup : ((p :: qs).map Lit.var).Nodup
  below : ClauseBelow s.nVars (p :: qs)
  entails : Entails F (p :: qs)

/-- What `learn` does: the clause is known, and its first literal set. -/
structure Learnt (F : Formula) (s : Solver) (c : List Lit) (s' : Solver) : Prop where
  valid : Valid F s'
  order : s'.toOrder = s.toOrder
  control : s'.toControl = s.toControl
  nVars : s'.nVars = s.nVars
  assume : ∀ as, AssumeOk as s.toTrail → AssumeOk as s'.toTrail
  lims : ∀ l ∈ s'.trailLim, l < s'.trail.length
  keeps : Keeps s.toState s'.toState
  known : Known s'.toState c.toFinset

theorem push_lims (h : TrailOk s.toTrail) (source : Option CRef) :
    ∀ l ∈ (s.toTrail.push p source).trailLim, l < (s.toTrail.push p source).trail.length := by
  intro l hl
  have := h.lim_le l hl
  simp only [Trail.push, List.length_append, List.length_singleton]
  omega

theorem Added.keeps {s : State} {learnt : Bool} {db : ClauseDb}
    (h : Added s.toClauseDb ps learnt db) : Keeps s { s with toClauseDb := db } := by
  rintro c (⟨cr, hcr, rfl⟩ | hp)
  · exact Or.inl ⟨cr, h.live.mpr (Or.inl hcr), congrArg (fun c => c.lits.toFinset) (h.old cr hcr.1)⟩
  · exact Or.inr hp

/-- A unit clause is learnt. -/
theorem Valid.learnUnit (h : Valid F s) (ha : Asserting F s p []) :
    Learnt F s [p] { s with toTrail := s.toTrail.push p none } := by
  have hzero := ha.unit rfl
  have hgrown : Grown s.toState { s.toState with toTrail := s.toTrail.push p none } :=
    Grown.push h.ok.trail ha.undef none
  refine ⟨⟨⟨?_, h.heap.push p none, h.clauses, h.learnts, h.seen, h.control⟩, h.queue.lims,
    h.queue.qhead_le.trans hgrown.trail.length_le, ?_⟩, rfl, rfl, rfl, fun as has => ?_,
    push_lims h.ok.trail none, hgrown.keeps, Or.inr ⟨p, ?_, ?_, ?_⟩⟩
  · exact h.ok.push_unit ha.undef (ha.below p List.mem_cons_self) hzero ha.entails
  · exact h.queue.watched.push h.ok.trail ha.undef h.queue.qhead_le
  · exact has.push h.ok.trail ha.undef (Or.inr hzero)
  · exact List.mem_toFinset.mpr List.mem_cons_self
  · exact TrailOk.mem_push.mpr (Or.inr rfl)
  · exact (TrailOk.push_level_self s.toTrail p none).trans hzero

/-- A longer clause is learnt. -/
theorem Valid.learnClause {db : ClauseDb} (h : Valid F s) (ha : Asserting F s p (q :: qs))
    (hdb : DbOk db s.nVars) (hadd : Added s.toClauseDb (p :: q :: qs) true db)
    (hclauses : db.clauses = s.clauses) (hlearnts : db.learnts = s.learnts ++ [s.next]) :
    Learnt F s (p :: q :: qs)
      { s with toTrail := s.toTrail.push p (some s.next), toClauseDb := db } := by
  have hlits : (db.ca s.next).lits = p :: q :: qs := hadd.lits
  have hok : StateOk F { s.toState with toClauseDb := db } :=
    h.ok.add hadd hdb (fun _ => id) ha.entails fun _ hσ _ => hσ
  have hlive : db.Live s.next := hadd.live.mpr (Or.inr rfl)
  have hgrown : Grown { s.toState with toClauseDb := db }
      { s.toState with toTrail := s.toTrail.push p (some s.next), toClauseDb := db } :=
    Grown.push (s := { s.toState with toClauseDb := db }) h.ok.trail ha.undef (some s.next)
  have hreason : IsReason s.toTrail (db.ca s.next) s.trail.length p := by
    refine ⟨?_, fun _ => ?_, fun r hr hne => ?_⟩
    · rw [hlits]
      exact List.mem_cons_self
    · rw [Clause.get, hlits]
      rfl
    · rw [hlits] at hr
      rw [List.take_length]
      exact ha.false_of_mem r ((List.mem_cons.mp hr).resolve_left hne)
  have hheap := h.heap.push p (some s.next)
  refine ⟨⟨⟨?_, ⟨hheap.mem, hheap.lt⟩, fun cr hcr => ?_, fun cr hcr => ?_, h.seen, h.control⟩,
    h.queue.lims, h.queue.qhead_le.trans hgrown.trail.length_le, ?_⟩, rfl, rfl, rfl,
    fun as has => ?_, push_lims h.ok.trail _, hadd.keeps.trans hgrown.keeps,
    Or.inl ⟨s.next, hlive, congrArg List.toFinset hlits⟩⟩
  · exact hok.push_clause hlive ha.undef hreason
  · have := h.clauses cr (hclauses ▸ hcr)
    exact Nat.lt_of_lt_of_eq (Nat.lt_succ_of_lt this) hadd.next.symm
  · change cr ∈ db.learnts at hcr
    show cr < db.next ∧ (db.ca cr).learnt = true
    rw [hlearnts] at hcr
    rw [hadd.next]
    rcases List.mem_append.mp hcr with hcr | hcr
    · obtain ⟨hlt, hl⟩ := h.learnts cr hcr
      rw [hadd.old cr hlt]
      exact ⟨Nat.lt_succ_of_lt hlt, hl⟩
    · rw [List.mem_singleton.mp hcr]
      exact ⟨Nat.lt_succ_self _, hadd.learnt⟩
  · have hw : Watched { s.toState with toTrail := s.toTrail.push p (some s.next) } s.qhead :=
      h.queue.watched.push h.ok.trail ha.undef h.queue.qhead_le
    refine hw.add hadd fun r hr hfalse => ?_
    -- the second watched literal is false, but not before `p` is true
    have hrp : r ≠ p := by
      rintro rfl
      rw [take_push h.queue.qhead_le] at hfalse
      exact (h.ok.trail.value_eq_undef.mp ha.undef).2 (List.mem_of_mem_take hfalse)
    obtain rfl : r = q := by
      rcases List.mem_cons.mp hr with hr | hr
      · exact absurd hr hrp
      · exact List.mem_singleton.mp hr
    refine ⟨p, List.mem_cons_self, TrailOk.mem_push.mpr (Or.inr rfl), ?_⟩
    have hne := h.ok.trail.var_ne ha.undef (ha.false_of_mem r List.mem_cons_self)
    rw [var_neg] at hne
    show (s.toTrail.push p (some s.next)).level p.var ≤ (s.toTrail.push p (some s.next)).level r.var
    rw [TrailOk.push_level_self, TrailOk.push_level hne, ha.level r rfl]
  · exact has.push h.ok.trail ha.undef (Or.inl (by simp))

/-- **`learn`** fails no assertion. -/
theorem learn_spec (h : Valid F s) (ha : Asserting F s p qs) (btlevel lbd : Nat) :
    ∃ s', s.learn ⟨p :: qs, btlevel, lbd⟩ = .ok s' ∧ Learnt F s (p :: qs) s' := by
  unfold Solver.learn
  cases qs with
  | nil =>
    refine ⟨_, ?_, h.learnUnit ha⟩
    simp only [State.uncheckedEnqueue, ha.undef, ne_eq, not_true, if_false, ok_bind]
  | cons q qs =>
    have hsize : 2 ≤ (p :: q :: qs).length := by simp
    obtain ⟨db, hrun, hdb, hadd, hclauses, hlearnts⟩ :=
      h.ok.db.learn hsize ha.nodup ha.below lbd
    refine ⟨_, ?_, h.learnClause ha hdb hadd hclauses hlearnts⟩
    simp only [hrun, ok_bind, State.uncheckedEnqueue]
    rw [if_neg (not_not.mpr ha.undef)]
    rfl

/-! ## What a turn changes -/

/-- What no turn changes. -/
structure Same (s s' : Solver) : Prop where
  nVars : s'.nVars = s.nVars
  decision : s'.decision = s.decision
  assumptions : s'.assumptions = s.assumptions
  conflictBudget : s'.conflictBudget = s.conflictBudget
  propagationBudget : s'.propagationBudget = s.propagationBudget
  asynchInterrupt : s'.asynchInterrupt = s.asynchInterrupt

/-- No clause was removed, but those that are true at level 0. -/
structure SameEpoch (s s' : Solver) : Prop where
  keeps : Keeps s.toState s'.toState
  curRestart : s'.curRestart = s.curRestart
  nbclausesbeforereduce : s'.nbclausesbeforereduce = s.nbclausesbeforereduce

/-- How a turn brings the search on: a new clause is known, the trail is longer, the learnt clauses
were reduced, or the search restarts, which it does only with a full queue. -/
inductive Advance (o : Options) (s s' : Solver) : Prop where
  | conflict (epoch : SameEpoch s s') (conflicts : s'.conflicts = s.conflicts + 1) (c : Finset Lit)
      (below : ∀ q ∈ c, q.var < s.nVars) (unknown : ¬ Known s.toState c)
      (known : Known s'.toState c)
  | decision (epoch : SameEpoch s s') (conflicts : s'.conflicts = s.conflicts)
      (lbdQueue : s'.lbdQueue = s.lbdQueue) (trail : s.trail.length < s'.trail.length)
  | reduction (due : s.curRestart * s.nbclausesbeforereduce ≤ s.conflicts)
      (conflicts : s'.conflicts = s.conflicts)
      (curRestart : s'.curRestart = s.conflicts / s.nbclausesbeforereduce + 1)
      (nbclausesbeforereduce :
        s.nbclausesbeforereduce + o.incReduceDB ≤ s'.nbclausesbeforereduce)
  | restart (epoch : SameEpoch s s') (conflicts : s'.conflicts = s.conflicts)
      (valid : s.lbdQueue.isvalid = true) (cleared : s'.lbdQueue.isvalid = false)

/-- An answer is right: without one, the search may go on. -/
inductive Answered (F : Formula) (s : Solver) : LBool → Solver → Prop where
  | restart {s' : Solver} (ready : Ready F s') (same : Same s s')
      (conflict : s'.conflict = s.conflict) : Answered F s .l_Undef s'
  | model {s' : Solver} (running : Running F s') (same : Same s s')
      (assigned : ∀ x, x < s'.nVars → s'.decision x = true → s'.assigns x ≠ .l_Undef)
      (queue : s'.qhead = s'.trail.length) (assumed : s'.assumptions.length ≤ s'.decisionLevel) :
      Answered F s .l_True s'
  | unsat {s' : Solver} (same : Same s s') (conflict : s'.conflict = s.conflict)
      (unsat : ¬ Satisfiable F) : Answered F s .l_False s'
  | falsified {s' : Solver} (running : Running F s') (same : Same s s')
      (conflict : s'.conflict ≠ []) (entails : Entails F s'.conflict)
      (neg : ∀ q ∈ s'.conflict, q.neg ∈ s'.assumptions) : Answered F s .l_False s'

/-- What a turn does: it brings the search on, or returns a right answer. -/
inductive TurnOk (F : Formula) (o : Options) (s : Solver) : Solver.Outcome → Prop where
  | continues {s' : Solver} (ready : Ready F s') (same : Same s s')
      (conflict : s'.conflict = s.conflict) (advance : Advance o s s') :
      TurnOk F o s (.continues s')
  | returns {status : LBool} {s' : Solver} (answered : Answered F s status s')
      (advance : status = .l_Undef → Advance o s s') : TurnOk F o s (.returns status s')

/-- How a turn can fail under the assumptions `as`. -/
inductive Fails (as : List Lit) : Halt Mtl.Fault → Prop where
  | learnts : Fails as (.raised (.assertion "learnts.size()>0"))
  | levels (h : ¬ (as.map Lit.var).Nodup) : Fails as (.raised .outOfRange)

/-! ## Backtracking -/

theorem Backtracked.toState (h : Backtracked s l s') :
    s'.toState = { s.toState with toTrail := s.toTrail.cut l } := by
  show (⟨s'.toTrail, s'.toClauseDb⟩ : State) = _
  rw [h.toTrail, h.toClauseDb]

/-- A solver that goes back to an earlier level was propagated there. -/
theorem Backtracked.valid {k : Nat} (h : Backtracked s l s') (hs : Sound F s)
    (hl : l < s.decisionLevel) (hw : Watched s.toState k) (hk : ∀ m ∈ s.trailLim, m ≤ k) :
    Valid F s' ∧ s'.qhead = s'.trail.length := by
  have hcut := hs.ok.cut hl.le
  have hstate := h.toState
  have hlim := hs.ok.trail.lim_le_length l
  have hlength : s'.trail.length = s.lim l := by
    rw [h.toTrail]
    simp only [Trail.cut, List.length_take]
    exact Nat.min_eq_left hlim
  have hqhead : s'.qhead = s.lim l := h.qhead.trans (if_pos hl)
  refine ⟨⟨⟨hstate ▸ hcut, h.heapOk hs.ok.trail hs.heap, fun cr hcr => ?_, fun cr hcr => ?_, ?_,
    ?_⟩, fun m hm => ?_, (hqhead.trans hlength.symm).le, ?_⟩, hqhead.trans hlength.symm⟩
  · rw [h.toClauseDb] at hcr ⊢
    exact hs.clauses cr hcr
  · rw [h.toClauseDb] at hcr ⊢
    exact hs.learnts cr hcr
  · rw [h.seen]
    exact hs.seen
  · rw [h.control]
    exact hs.control
  · rw [hqhead, ← hlength]
    rw [hstate] at hm ⊢
    exact hcut.trail.lim_le m hm
  · rw [hqhead, hstate]
    exact hw.cut hs.ok.trail (hk _ (TrailOk.lim_mem hl))

/-! ## A conflict -/

theorem blockRestart_eq (s : Solver) (choice : Choice) :
    s.blockRestart choice = { s with lbdQueue := (s.blockRestart choice).lbdQueue } := by
  unfold Solver.blockRestart
  split
  · rfl
  · rfl

theorem blockRestart_holds (h : ∃ n xs, 0 < n ∧ s.lbdQueue.Holds n xs) (choice : Choice) :
    ∃ n xs, 0 < n ∧ (s.blockRestart choice).lbdQueue.Holds n xs := by
  unfold Solver.blockRestart
  split
  · obtain ⟨n, xs, hn, hq⟩ := h
    exact ⟨n, [], hn, hq.fastclear⟩
  · exact h

theorem Propagated.same {confl : Option CRef} (h : Propagated F s confl s') : Same s s' :=
  ⟨h.grown.nVars, congrArg Order.decision h.order, congrArg Control.assumptions h.control,
    congrArg Control.conflictBudget h.control, congrArg Control.propagationBudget h.control,
    congrArg Control.asynchInterrupt h.control⟩

theorem Same.trans {s'' : Solver} (h : Same s s') (h' : Same s' s'') : Same s s'' :=
  ⟨h'.nVars.trans h.nVars, h'.decision.trans h.decision, h'.assumptions.trans h.assumptions,
    h'.conflictBudget.trans h.conflictBudget, h'.propagationBudget.trans h.propagationBudget,
    h'.asynchInterrupt.trans h.asynchInterrupt⟩

/-- The state from which the learnt clause is propagated: its first literal has no value there. -/
theorem Learns.asserting {btlevel : Nat} (h : Learns F s.toState p qs btlevel)
    (hok : StateOk F s.toState) (hb : Backtracked s btlevel s') : Asserting F s' p.neg qs := by
  have hcut := hok.trail.cut h.btlevel_lt.le
  have hlevel : ∀ x, s'.level x = s.level x := fun x => by
    rw [hb.toTrail]
    rfl
  have hdl : s'.decisionLevel = btlevel := by
    rw [hb.toTrail]
    exact TrailOk.cut_decisionLevel h.btlevel_lt.le
  refine ⟨?_, fun q hq => ?_, fun q hq => ?_, fun hnil => hdl.trans (h.unit hnil), h.nodup,
    fun q hq => ?_, h.entails⟩
  · rw [hb.toTrail, hcut.value_eq_undef, neg_neg, hok.trail.mem_cut, hok.trail.mem_cut]
    refine ⟨fun hno => hok.trail.neg_notMem h.mem hno.1, fun hno => ?_⟩
    have := h.btlevel_lt
    rw [← h.level] at this
    exact absurd hno.2 (Nat.not_le.mpr this)
  · obtain ⟨hmem, _, hle⟩ := h.false_below q hq
    rw [hb.toTrail]
    exact hok.trail.mem_cut.mpr ⟨hmem, hle⟩
  · rw [hlevel, hdl]
    exact h.btlevel_eq q hq
  · rw [hb.toTrail]
    rcases List.mem_cons.mp hq with rfl | hq
    · exact hok.trail.below p h.mem
    · exact hok.trail.below q.neg (h.false_below q hq).1

/-- The clause that is learnt from a conflict was not known. -/
theorem Learns.unknown {btlevel k : Nat} (h : Learns F s.toState p qs btlevel)
    (hok : StateOk F s.toState) (hw : Watched s.toState k) (hk : ∀ m ∈ s.trailLim, m ≤ k) :
    ¬ Known s.toState (p.neg :: qs).toFinset := by
  refine not_known (p := p.neg) (l := btlevel) hok hw (hk _ (TrailOk.lim_mem h.btlevel_lt))
    (fun q hq => ?_) fun q hq hne => ?_
  · rcases List.mem_cons.mp (List.mem_toFinset.mp hq) with rfl | hq
    · rw [neg_neg]
      exact h.mem
    · exact (h.false_below q hq).1
  · exact (h.false_below q ((List.mem_cons.mp (List.mem_toFinset.mp hq)).resolve_left hne)).2.2

/-- **Going back and learning**: the search may go on from the level where the clause is unit. -/
theorem learnBack_spec {btlevel k : Nat} (o : Options) (hs : Sound F s) (hokay : s.ok = true)
    (ha : AssumeOk s.assumptions s.toTrail) (hw : Watched s.toState k)
    (hk : ∀ m ∈ s.trailLim, m ≤ k) (h : Learns F s.toState p qs btlevel) (lbd : Nat) :
    ∃ s', (s.cancelUntil o btlevel).learn ⟨p.neg :: qs, btlevel, lbd⟩ = .ok s' ∧ Ready F s' ∧
      Same s s' ∧ s'.toControl = s.toControl ∧ Keeps s.toState s'.toState ∧
      Known s'.toState (p.neg :: qs).toFinset := by
  have hb := cancelUntil_spec o s btlevel
  generalize s.cancelUntil o btlevel = t at hb ⊢
  obtain ⟨ht, _⟩ := hb.valid hs h.btlevel_lt hw hk
  obtain ⟨s', hrun, hl⟩ := learn_spec ht (h.asserting hs.ok hb) btlevel lbd
  have hcontrol : s'.toControl = s.toControl := hl.control.trans hb.control
  have hassumptions : s'.assumptions = s.assumptions := congrArg Control.assumptions hcontrol
  have hnVars : t.nVars = s.nVars := by
    rw [hb.toTrail]
    rfl
  refine ⟨s', hrun, ⟨⟨hl.valid, (congrArg Control.ok hcontrol).trans hokay, ?_⟩, hl.lims⟩,
    ⟨hl.nVars.trans hnVars, (congrArg Order.decision hl.order).trans hb.decision, hassumptions,
      congrArg Control.conflictBudget hcontrol, congrArg Control.propagationBudget hcontrol,
      congrArg Control.asynchInterrupt hcontrol⟩, hcontrol, ?_, hl.known⟩
  · rw [hassumptions]
    refine hl.assume _ ?_
    rw [hb.toTrail]
    exact ha.cut hs.ok.trail h.btlevel_lt.le
  · refine Keeps.trans ?_ hl.keeps
    rw [hb.toState]
    exact keeps_cut hs.ok.trail btlevel

/-- The literals of a clause that is learnt. -/
theorem Learns.below {btlevel : Nat} (h : Learns F s.toState p qs btlevel)
    (hok : StateOk F s.toState) : ∀ q ∈ (p.neg :: qs).toFinset, q.var < s.nVars := by
  intro q hq
  rcases List.mem_cons.mp (List.mem_toFinset.mp hq) with rfl | hq
  · exact hok.trail.below p h.mem
  · exact hok.trail.below q.neg (h.false_below q hq).1

/-- **At a conflict there are more variables than levels**, when the assumptions are on different
variables: both watched literals became false on the last level. -/
theorem Propagated.decisionLevel_lt {s₁ : Solver} {cr : CRef} (hp : Propagated F s (some cr) s₁)
    (h : Ready F s) (hnodup : (s.assumptions.map Lit.var).Nodup) :
    s₁.decisionLevel < s₁.nVars := by
  obtain ⟨hlive, hfalse, _⟩ := hp.conflict cr rfl
  have hsize := hp.ok.db.size cr hlive.1
  have htake := Clause.take_two hsize
  have hlevel : ∀ q ∈ (s₁.ca cr).lits.take 2, s₁.level q.var = s₁.decisionLevel := by
    intro q hq
    have hqt := hfalse q (List.mem_of_mem_take hq)
    refine Nat.le_antisymm (hp.ok.trail.level_le (p := q.neg) hqt) (Nat.le_of_not_lt fun hlt => ?_)
    -- otherwise it was propagated before, and the clause would be true
    have hlim : s₁.lim (s₁.level q.var) ≤ s.qhead :=
      h.queue.lims _ (hp.grown.trailLim ▸ TrailOk.lim_mem hlt)
    have hqk : q.neg ∈ s₁.trail.take (s₁.lim (s₁.level q.var)) :=
      hp.ok.trail.mem_take_iff_level.mpr ⟨hqt, Nat.le_refl _⟩
    obtain ⟨r, hr, hrt, _⟩ :=
      hp.watched cr hlive q hq ((List.take_prefix_take_left hlim).subset hqk)
    exact hp.ok.trail.neg_notMem hrt (hfalse r hr)
  have h0 : (s₁.ca cr).get 0 ∈ (s₁.ca cr).lits.take 2 := by simp [htake]
  have h1 : (s₁.ca cr).get 1 ∈ (s₁.ca cr).lits.take 2 := by simp [htake]
  exact (hp.grown.assumeOk h.assume hp.ok h.lims).decisionLevel_lt hp.ok.trail hnodup
    (hfalse _ (List.mem_of_mem_take h0)) (hfalse _ (List.mem_of_mem_take h1))
    (Clause.get_var_ne hsize (hp.ok.db.nodup cr hlive.1)) (hlevel ((s₁.ca cr).get 0) h0)
    (hlevel ((s₁.ca cr).get 1) h1)

/-- The solver `s₂` has learnt a clause at the end of the propagation that started from `s`, and has
not gone back yet. -/
structure Learning (F : Formula) (s s₂ : Solver) (p : Lit) (qs : List Lit) (btlevel : Nat) :
    Prop where
  sound : Sound F s₂
  okay : s₂.ok = true
  assume : AssumeOk s₂.assumptions s₂.toTrail
  watched : Watched s₂.toState s.qhead
  lims : ∀ m ∈ s₂.trailLim, m ≤ s.qhead
  learns : Learns F s₂.toState p qs btlevel
  same : Same s s₂
  keeps : Keeps s.toState s₂.toState

/-- `analyze` reorders clauses, clears its marks and leaves the rest to the counters. -/
theorem Propagated.learning {s₁ : Solver} {cr : CRef} {db : ClauseDb} {queue : BQueue}
    {conflicts conflictsRestarts btlevel : Nat} (hp : Propagated F s (some cr) s₁) (h : Ready F s)
    (hq : ∃ n xs, 0 < n ∧ queue.Holds n xs) (hplace : InPlace s₁.toState db)
    (hlearns : Learns F s₁.toState p qs btlevel) :
    Learning F s { s₁ with
      toClauseDb := db
      conflicts := conflicts
      conflictsRestarts := conflictsRestarts
      lbdQueue := queue
      seen := fun _ => false } p qs btlevel where
  sound := by
    have hs₁ := hp.sound h.toSound
    refine ⟨hs₁.ok.inPlace hplace, ⟨hs₁.heap.mem, hs₁.heap.lt⟩, fun c hc => ?_, fun c hc => ?_,
      fun _ => rfl, ⟨hq, hs₁.control.reduce⟩⟩
    · exact Nat.lt_of_lt_of_eq (hs₁.clauses c (hplace.lists.1 ▸ hc)) hplace.next.symm
    · obtain ⟨hlt, hl⟩ := hs₁.learnts c (hplace.lists.2 ▸ hc)
      exact ⟨Nat.lt_of_lt_of_eq hlt hplace.next.symm, (hplace.learnt c).trans hl⟩
  okay := (congrArg Control.ok hp.control).trans h.okay
  assume := hp.same.assumptions.symm ▸ hp.grown.assumeOk h.assume hp.ok h.lims
  watched := hp.watched.reorder hplace.toReordered
  lims := fun m hm => h.queue.lims m (hp.grown.trailLim ▸ hm)
  learns := ⟨hlearns.mem, hlearns.level, hlearns.false_below, hlearns.btlevel_lt,
    hlearns.btlevel_eq, hlearns.unit, hlearns.nodup, hlearns.entails⟩
  same := hp.same.trans ⟨rfl, rfl, rfl, rfl, rfl, rfl⟩
  keeps := hp.grown.keeps.trans hplace.grown.keeps

/-- **A turn with a conflict** learns a clause that is new, or refutes the clauses. -/
theorem onConflict_spec {s₁ : Solver} {cr : CRef} (h : Ready F s)
    (hp : Propagated F s (some cr) s₁) (choice : Choice) :
    TooDeep s₁.toTrail (s₁.onConflict o choice cr) ∨
      ∃ out, s₁.onConflict o choice cr = .ok out ∧ TurnOk F o s out := by
  have hs₁ := hp.sound h.toSound
  obtain ⟨hlive, hfalse, hcur⟩ := hp.conflict cr rfl
  have hconflict : s₁.conflict = s.conflict := congrArg Control.conflict hp.control
  unfold Solver.onConflict
  simp only []
  by_cases hzero : s₁.decisionLevel = 0
  · rw [if_pos hzero]
    exact Or.inr ⟨_, rfl, .returns (.unsat (hp.same.trans ⟨rfl, rfl, rfl, rfl, rfl, rfl⟩) hconflict
      (hp.unsat hzero)) fun hno => absurd hno (by simp)⟩
  · rw [if_neg hzero, blockRestart_eq]
    obtain ⟨n, xs, hn, hq⟩ := blockRestart_holds (s := { s₁ with
      conflicts := s₁.conflicts + 1, conflictsRestarts := s₁.conflictsRestarts + 1 })
      hs₁.control.lbd choice
    generalize (Solver.blockRestart { s₁ with
      conflicts := s₁.conflicts + 1, conflictsRestarts := s₁.conflictsRestarts + 1 }
      choice).lbdQueue = lbdQueue at hq
    -- the clause that is learnt
    rcases analyze_spec (o := o) (s := { s₁ with
      conflicts := s₁.conflicts + 1, conflictsRestarts := s₁.conflictsRestarts + 1
      lbdQueue := lbdQueue }) hs₁.ok hs₁.seen (Nat.pos_of_ne_zero hzero) hlive hfalse hcur with
      hdeep | ⟨p, qs, btlevel, lbd, db, hrun, hplace, hlearns⟩
    · exact Or.inl hdeep.bind
    obtain ⟨lbdQueue', hpush, hq'⟩ := hq.push hn lbd
    simp only [hrun, ok_bind, hpush]
    generalize hs₂ : ({ s₁ with
        toClauseDb := db
        conflicts := s₁.conflicts + 1
        conflictsRestarts := s₁.conflictsRestarts + 1
        lbdQueue := lbdQueue'
        seen := fun _ => false } : Solver) = s₂
    have hl : Learning F s s₂ p qs btlevel := by
      subst hs₂
      exact hp.learning h ⟨n, _, hn, hq'⟩ hplace hlearns
    obtain ⟨s', hlrun, hready, hsame', hcontrol, hkeeps', hknown⟩ :=
      learnBack_spec o hl.sound hl.okay hl.assume hl.watched hl.lims hl.learns lbd
    simp only [hlrun, ok_bind]
    have hcontrol₂ : s₂.toControl = { s.toControl with
        conflicts := s.conflicts + 1, conflictsRestarts := s.conflictsRestarts + 1
        lbdQueue := lbdQueue' } := by
      subst hs₂
      rw [← hp.control]
    have hcontrol' := hcontrol.trans hcontrol₂
    have hconflict' := congrArg Control.conflict hcontrol'
    have hconflicts := congrArg Control.conflicts hcontrol'
    have hcur := congrArg Control.curRestart hcontrol'
    have hnb := congrArg Control.nbclausesbeforereduce hcontrol'
    refine Or.inr ⟨_, rfl, .continues hready (hl.same.trans hsame') hconflict' (.conflict
      ⟨hl.keeps.trans hkeeps', hcur, hnb⟩ hconflicts _ (fun q hq => ?_) (fun hno => ?_) hknown)⟩
    · exact Nat.lt_of_lt_of_eq (hl.learns.below hl.sound.ok q hq) hl.same.nVars
    · exact hl.learns.unknown hl.sound.ok hl.watched hl.lims (hl.keeps _ hno)

/-! ## The next literal -/

/-- A new level, when the queue is empty. -/
theorem Valid.newDecisionLevel (h : Valid F s) (hq : s.qhead = s.trail.length) :
    Valid F { s with toTrail := s.newDecisionLevel } where
  ok := h.ok.newDecisionLevel
  heap := ⟨h.heap.mem, h.heap.lt⟩
  clauses := h.clauses
  learnts := h.learnts
  seen := h.seen
  control := h.control
  queue := by
    refine ⟨fun l hl => ?_, h.queue.qhead_le, h.queue.watched⟩
    rcases List.mem_append.mp hl with hl | hl
    · exact h.queue.lims l hl
    · rw [List.mem_singleton.mp hl]
      exact hq.ge

/-- What a decision changes. -/
structure Decided (s s' : Solver) : Prop where
  control : s'.toControl = s.toControl
  keeps : Keeps s.toState s'.toState
  trail : s.trail.length < s'.trail.length

/-- **`next` is set**, where its variable was taken out of the heap. -/
theorem enqueueNext_spec (heap : List Var) (h : Running F s) (hq : s.qhead = s.trail.length)
    (hp : s.value p = .l_Undef) (hlt : p.var < s.nVars)
    (has : ∀ q, s.assumptions[s.decisionLevel]? = some q → q = p)
    (hmem : ∀ x, x < s.nVars → s.decision x = true → s.assigns x = .l_Undef → x ≠ p.var →
      x ∈ heap) (hheap : ∀ x ∈ heap, x < s.nVars) :
    ∃ s', Solver.enqueueNext { s with orderHeap := heap } p = .ok (.continues s') ∧ Ready F s' ∧
      Same s s' ∧ Decided s s' := by
  have hv := h.newDecisionLevel hq
  have hvalue : s.newDecisionLevel.value p = .l_Undef := hp
  have hgrown : Grown { s.toState with toTrail := s.newDecisionLevel }
      { s.toState with toTrail := s.newDecisionLevel.push p none } :=
    Grown.push (s := { s.toState with toTrail := s.newDecisionLevel }) hv.ok.trail hvalue none
  refine ⟨{ s with toTrail := s.newDecisionLevel.push p none, orderHeap := heap }, ?_,
    ⟨⟨⟨⟨?_, ⟨fun x hx hdec hundef => ?_, hheap⟩, h.clauses, h.learnts, h.seen, h.control⟩,
      ⟨hv.queue.lims, hv.queue.qhead_le.trans hgrown.trail.length_le, ?_⟩⟩, h.okay, ?_⟩, ?_⟩,
    ⟨rfl, rfl, rfl, rfl, rfl, rfl⟩, ⟨rfl, ?_, ?_⟩⟩
  · unfold Solver.enqueueNext State.uncheckedEnqueue
    simp only []
    rw [if_neg (not_not.mpr hvalue)]
    rfl
  · refine hv.ok.push_decision hvalue hlt ?_ ?_
    · rw [newDecisionLevel_decisionLevel]
      exact Nat.succ_pos _
    · rw [newDecisionLevel_decisionLevel, Nat.add_sub_cancel]
      exact (newDecisionLevel_lim_self s.toTrail).symm
  · change Function.update s.assigns p.var _ x = .l_Undef at hundef
    have hne : x ≠ p.var := by
      rintro rfl
      rw [Function.update_self] at hundef
      cases hsign : p.sign with
      | false => exact absurd hundef (by simp [LBool.ofBool, hsign])
      | true => exact absurd hundef (by simp [LBool.ofBool, hsign])
    rw [Function.update_of_ne hne] at hundef
    exact hmem x hx hdec hundef hne
  · exact hv.queue.watched.push hv.ok.trail hvalue hv.queue.qhead_le
  · exact h.assume.decision h.ok.trail hp has
  · exact push_lims (s := { s with toTrail := s.newDecisionLevel }) hv.ok.trail none
  · exact hgrown.keeps
  · simp [Trail.push, Trail.newDecisionLevel]

/-- **The loop over the assumptions**, by induction on those that are left. -/
theorem assumeLoop_spec : ∀ (ps : List Lit) (s : Solver), Running F s →
    s.qhead = s.trail.length → s.assumptions.drop s.decisionLevel = ps →
    ∃ a t, Solver.assumeLoop ps s = (a, { s with toTrail := t }) ∧
      Running F { s with toTrail := t } ∧ t = { s.toTrail with trailLim := t.trailLim } ∧
      (a = .none → s.assumptions.length ≤ t.decisionLevel) ∧
      (∀ p, a = .next p → s.assumptions[t.decisionLevel]? = some p ∧ t.value p = .l_Undef) ∧
      ∀ p, a = .falsified p → s.assumptions[t.decisionLevel]? = some p ∧ t.value p = .l_False
  | [], s, h, _, hps => by
    refine ⟨.none, s.toTrail, rfl, h, rfl, fun _ => List.drop_eq_nil_iff.mp hps,
      fun p hp => absurd hp (by simp), fun p hp => absurd hp (by simp)⟩
  | p :: ps, s, h, hq, hps => by
    have has : s.assumptions[s.decisionLevel]? = some p := by
      have := congrArg (fun l => l[0]?) hps
      simpa using this
    unfold Solver.assumeLoop
    split
    · rename_i htrue
      -- a dummy level
      have hp : p ∈ s.trail := (h.ok.trail.value p).mp htrue
      have hlevel : s.newDecisionLevel.decisionLevel = s.decisionLevel + 1 :=
        newDecisionLevel_decisionLevel s.toTrail
      obtain ⟨a, t, hrun, hrunning, ht, hnone, hnext, hfalse⟩ := assumeLoop_spec ps
        { s with toTrail := s.newDecisionLevel }
        ⟨h.newDecisionLevel hq, h.okay, h.assume.dummy h.ok.trail has hp⟩ hq (by
          show s.assumptions.drop s.newDecisionLevel.decisionLevel = ps
          rw [hlevel, ← List.drop_drop, hps]
          rfl)
      exact ⟨a, t, hrun, hrunning, ht, hnone, hnext, hfalse⟩
    · split
      · rename_i hfalse
        refine ⟨.falsified p, s.toTrail, rfl, h, rfl, fun hno => absurd hno (by simp),
          fun q hq => absurd hq (by simp), fun q hq => ?_⟩
        obtain rfl : p = q := by simpa using hq
        exact ⟨has, hfalse⟩
      · rename_i htrue hfalse
        refine ⟨.next p, s.toTrail, rfl, h, rfl, fun hno => absurd hno (by simp),
          fun q hq => ?_, fun q hq => absurd hq (by simp)⟩
        obtain rfl : p = q := by simpa using hq
        refine ⟨has, ?_⟩
        cases hv : s.value p with
        | l_True => exact absurd hv htrue
        | l_False => exact absurd hv hfalse
        | l_Undef => rfl

/-- The final conflict is made of complements of assumptions. -/
theorem Running.analyzeFinal (h : Running F s) (has : s.assumptions[s.decisionLevel]? = some p)
    (hp : s.value p = .l_False) :
    ∃ ds, s.analyzeFinal p.neg = .ok (p.neg :: ds, s) ∧ Entails F (p.neg :: ds) ∧
      ∀ q ∈ p.neg :: ds, q.neg ∈ s.assumptions := by
  have hmem := h.ok.trail.value_eq_false.mp hp
  obtain ⟨ds, hrun, hent, hds⟩ := analyzeFinal_spec h.ok h.seen hmem
  refine ⟨ds, hrun, hent, fun q hq => ?_⟩
  rcases List.mem_cons.mp hq with rfl | hq
  · rw [neg_neg]
    exact List.mem_of_getElem? has
  · obtain ⟨hqt, hreason, hpos⟩ := hds q hq
    have hle := h.ok.trail.level_le hqt
    have hlt := (List.getElem?_eq_some_iff.mp has).1
    rw [var_neg] at hle
    exact List.mem_of_getElem? (h.assume.guess q.neg hqt hreason hpos (hle.trans hlt.le))

/-- **`decide`** sets the next literal, or returns an answer. -/
theorem decide_spec {s₀ : Solver} (h : Running F s) (hq : s.qhead = s.trail.length)
    (hsame : Same s₀ s) (hconflict : s.conflict = s₀.conflict) (choice : Choice)
    (hadvance : ∀ s', Decided s s' → Advance o s₀ s') :
    ∃ out, s.decide choice = .ok out ∧ TurnOk F o s₀ out := by
  unfold Solver.decide
  obtain ⟨a, t, hrun, hrunning, ht, hnone, hnext, hfalse⟩ := assumeLoop_spec _ s h hq rfl
  rw [hrun]
  have htrail : t.trail = s.trail := by rw [ht]
  have hn : t.nVars = s.nVars := by rw [ht]
  have hkeeps : Keeps s.toState { s.toState with toTrail := t } := by
    rw [ht]
    exact Keeps.refl s.toState
  have hsame' : Same s₀ { s with toTrail := t } :=
    hsame.trans ⟨hn, rfl, rfl, rfl, rfl, rfl⟩
  have hq' : s.qhead = t.trail.length := by
    rw [htrail]
    exact hq
  -- the literal that is set brings the search on
  have hgoes : ∀ s', Ready F s' → Same { s with toTrail := t } s' →
      Decided { s with toTrail := t } s' → TurnOk F o s₀ (.continues s') := by
    intro s' hready hs hd
    have hcontrol : s'.toControl = s.toControl := hd.control
    refine .continues hready (hsame'.trans hs) ?_
      (hadvance s' ⟨hcontrol, hkeeps.trans hd.keeps, ?_⟩)
    · exact (congrArg Control.conflict hcontrol).trans hconflict
    · have := hd.trail
      rwa [show ({ s with toTrail := t } : Solver).trail = s.trail from htrail] at this
  cases a with
  | falsified p =>
    obtain ⟨has, hvalue⟩ := hfalse p rfl
    obtain ⟨ds, hfinal, hent, hneg⟩ := hrunning.analyzeFinal has hvalue
    simp only [hfinal, ok_bind]
    exact ⟨_, rfl, .returns (.falsified ⟨hrunning.setControl ⟨h.control.lbd, h.control.reduce⟩,
      h.okay, hrunning.assume⟩ (hsame'.trans ⟨rfl, rfl, rfl, rfl, rfl, rfl⟩) (List.cons_ne_nil _ _)
      hent hneg) fun hno => absurd hno (by simp)⟩
  | next p =>
    obtain ⟨has, hvalue⟩ := hnext p rfl
    obtain ⟨s', hset, hready, hs, hd⟩ := enqueueNext_spec s.orderHeap hrunning hq' hvalue
      (hrunning.assume.below p (List.mem_of_getElem? has))
      (fun q hq => Option.some.inj (hq.symm.trans has))
      (fun x hx hdec hundef _ => hrunning.heap.mem x hx hdec hundef) hrunning.heap.lt
    exact ⟨_, hset, hgoes s' hready hs hd⟩
  | none =>
    have hassumed := hnone rfl
    obtain ⟨next, s', hpick, heq, hsome, hlt, hall⟩ := pickBranchLit_spec hrunning.heap choice
    simp only [hpick]
    cases next with
    | none =>
      have hall := hall rfl
      refine ⟨.returns .l_True s', rfl, ?_⟩
      rw [heq]
      exact .returns (.model ⟨⟨⟨hrunning.ok,
        ⟨fun x hx hdec hundef => absurd hundef (hall x hx hdec), hlt⟩, h.clauses, h.learnts, h.seen,
        h.control⟩, ⟨hrunning.queue.lims, hrunning.queue.qhead_le,
        hrunning.queue.watched⟩⟩, h.okay, hrunning.assume⟩
        (hsame'.trans ⟨rfl, rfl, rfl, rfl, rfl, rfl⟩) hall hq' hassumed)
        fun hno => absurd hno (by simp)
    | some p =>
      obtain ⟨hplt, hvalue, hmem⟩ := hsome p rfl
      have has : ∀ q, s.assumptions[t.decisionLevel]? = some q → q = p := fun q hq =>
        absurd (List.getElem?_eq_some_iff.mp hq).1 (Nat.not_lt.mpr hassumed)
      obtain ⟨s'', hset, hready, hs, hd⟩ :=
        enqueueNext_spec s'.orderHeap hrunning hq' hvalue hplt has hmem hlt
      rw [← heq] at hset
      exact ⟨_, hset, hgoes s'' hready hs hd⟩

/-! ## Reducing the database -/

theorem Removed.toTrail {gone : CRef → Prop} {s t : State} (h : Removed gone s t)
    (hpos : 0 < s.decisionLevel) : t.toTrail = s.toTrail := by
  show (⟨t.nVars, t.assigns, t.vardata, t.trail, t.trailLim⟩ : Trail) = _
  rw [h.nVars, h.assigns, h.vardata hpos, h.trail, h.trailLim]

theorem Removed.assumeOk {gone : CRef → Prop} {s t : State} (h : Removed gone s t)
    (ht : TrailOk t.toTrail) (ha : AssumeOk as s.toTrail) : AssumeOk as t.toTrail := by
  rcases Nat.eq_zero_or_pos s.decisionLevel with hzero | hpos
  · refine AssumeOk.zero ht ((congrArg List.length h.trailLim).trans hzero) fun p hp => ?_
    rw [h.nVars]
    exact ha.below p hp
  · rw [h.toTrail hpos]
    exact ha

/-- What a reduction of the database changes. -/
structure Reduced (o : Options) (s s' : Solver) : Prop where
  same : Same s s'
  conflict : s'.conflict = s.conflict
  qhead : s'.qhead = s.qhead
  trail : s'.trail = s.trail
  due : s.curRestart * s.nbclausesbeforereduce ≤ s.conflicts
  conflicts : s'.conflicts = s.conflicts
  curRestart : s'.curRestart = s.conflicts / s.nbclausesbeforereduce + 1
  nbclausesbeforereduce : s.nbclausesbeforereduce + o.incReduceDB ≤ s'.nbclausesbeforereduce

/-- **The reduction that is due** removes learnt clauses, if there are any. -/
theorem reduceIfDue_spec (h : Running F s) (o : Options) (choice : Choice) :
    s.reduceIfDue o choice = .error (.raised (.assertion "learnts.size()>0")) ∨
      s.reduceIfDue o choice = .ok s ∨
      ∃ s', s.reduceIfDue o choice = .ok s' ∧ Running F s' ∧ Reduced o s s' := by
  unfold Solver.reduceIfDue
  split
  · rename_i hdue
    by_cases hne : s.learnts = []
    · exact Or.inl (if_pos hne)
    · rw [if_neg hne, if_neg (Nat.ne_of_gt h.control.reduce)]
      obtain ⟨learnts, t, nb, hrun, ht, hr, hsub, hle⟩ := reduceDB_spec (s := { s with
        curRestart := s.conflicts / s.nbclausesbeforereduce + 1 }) o choice h.ok h.learnts hne
      simp only [hrun, ok_bind]
      have hv := h.toValid.removed ht hr (fun cr hcr => hr.lists.1 ▸ hcr) hsub
      refine Or.inr (Or.inr ⟨_, rfl, ⟨⟨⟨hv.ok, ⟨hv.heap.mem, hv.heap.lt⟩, hv.clauses, hv.learnts,
        hv.seen, ⟨h.control.lbd, ?_⟩⟩, ⟨hv.queue.lims, hv.queue.qhead_le, hv.queue.watched⟩⟩,
        h.okay, hr.assumeOk ht.trail h.assume⟩, ⟨⟨hr.nVars, rfl, rfl, rfl, rfl, rfl⟩, rfl, rfl,
        hr.trail, hdue, rfl, rfl, ?_⟩⟩)
      · exact Nat.lt_of_lt_of_le h.control.reduce (hle.trans (Nat.le_add_right _ _))
      · exact Nat.add_le_add_right hle _
  · exact Or.inr (Or.inl rfl)

/-! ## A turn without a conflict -/

/-- Going back to level 0, from a valid state. -/
theorem Backtracked.valid_zero (h : Backtracked s 0 s') (hs : Valid F s) : Valid F s' := by
  rcases Nat.eq_zero_or_pos s.decisionLevel with hzero | hpos
  · have hstate : s'.toState = s.toState := by
      rw [h.toState, cut_of_le hzero.le]
    have hqhead : s'.qhead = s.qhead := h.qhead.trans (if_neg (by omega))
    refine ⟨⟨hstate ▸ hs.ok, h.heapOk hs.ok.trail hs.heap, ?_, ?_, ?_, ?_⟩, ?_⟩
    · rw [hstate]
      exact hs.clauses
    · rw [hstate]
      exact hs.learnts
    · rw [h.seen]
      exact hs.seen
    · rw [h.control]
      exact hs.control
    · have hq := hs.queue
      exact ⟨by rw [hstate, hqhead]; exact hq.lims, by rw [hstate, hqhead]; exact hq.qhead_le,
        by rw [hstate, hqhead]; exact hq.watched⟩
  · exact (h.valid hs.toSound hpos hs.queue.watched hs.queue.lims).1

theorem Backtracked.level_zero (h : Backtracked s 0 s') : s'.decisionLevel = 0 := by
  rw [h.toTrail]
  exact TrailOk.cut_decisionLevel (Nat.zero_le _)

/-- The database is simplified, if the solver is at level 0. -/
structure Prepared (F : Formula) (s s' : Solver) : Prop where
  running : Running F s'
  queue : s'.qhead = s'.trail.length
  keeps : Keeps s.toState s'.toState
  trail : s.trail.length ≤ s'.trail.length
  lbdQueue : s'.lbdQueue = s.lbdQueue
  conflicts : s'.conflicts = s.conflicts
  curRestart : s'.curRestart = s.curRestart
  nbclausesbeforereduce : s'.nbclausesbeforereduce = s.nbclausesbeforereduce

/-- `simplify` writes two of the members that `solve_` and `search` write. -/
theorem Simplified.field {b : Bool} {α : Type} (h : Simplified F s b s') (f : Control → α)
    (hf : ∀ n, f { s.toControl with ok := b, simpDBAssigns := n } = f s.toControl) :
    f s'.toControl = f s.toControl :=
  (congrArg f h.control).trans (hf _)

theorem prepare_spec (h : Running F s) (hq : s.qhead = s.trail.length) (o : Options) :
    ∃ b s', (if s.decisionLevel = 0 then s.simplify o else .ok (true, s)) = .ok (b, s') ∧
      Same s s' ∧ s'.conflict = s.conflict ∧ (b = false → ¬ Satisfiable F) ∧
      (b = true → Prepared F s s') := by
  split
  · rename_i hzero
    obtain ⟨b, s', hrun, hs⟩ := simplify_spec o h.toValid hzero h.okay
    have hassumptions : s'.assumptions = s.assumptions := hs.field Control.assumptions fun _ => rfl
    refine ⟨b, s', hrun, ⟨hs.nVars, hs.decision, hassumptions,
      hs.field Control.conflictBudget fun _ => rfl, hs.field Control.propagationBudget fun _ => rfl,
      hs.field Control.asynchInterrupt fun _ => rfl⟩, hs.field Control.conflict fun _ => rfl,
      hs.unsat, fun hb => ⟨⟨hs.valid hb, hs.ok.trans hb, ?_⟩, hs.done hb, hs.keeps,
        hs.trail.length_le, hs.field Control.lbdQueue fun _ => rfl,
        hs.field Control.conflicts fun _ => rfl, hs.field Control.curRestart fun _ => rfl,
        hs.field Control.nbclausesbeforereduce fun _ => rfl⟩⟩
    refine AssumeOk.zero (hs.valid hb).ok.trail hs.level fun p hp => ?_
    rw [hs.nVars]
    exact h.assume.below p (hassumptions ▸ hp)
  · exact ⟨true, s, rfl, ⟨rfl, rfl, rfl, rfl, rfl, rfl⟩, rfl, fun hb => absurd hb (by simp),
      fun _ => ⟨h, hq, Keeps.refl _, Nat.le_refl _, rfl, rfl, rfl, rfl⟩⟩

/-- A restart, from a state of the search. -/
theorem Running.restart (h : Running F s) (hb : Backtracked s 0 s') :
    Ready F s' ∧ Same s s' ∧ Keeps s.toState s'.toState := by
  have hzero := hb.level_zero
  have hv := hb.valid_zero h.toValid
  have hn : s'.nVars = s.nVars := by
    rw [hb.toTrail]
    rfl
  have hassumptions : s'.assumptions = s.assumptions := congrArg Control.assumptions hb.control
  refine ⟨⟨⟨hv, (congrArg Control.ok hb.control).trans h.okay, ?_⟩, fun l hl => ?_⟩,
    ⟨hn, hb.decision, hassumptions, congrArg Control.conflictBudget hb.control,
      congrArg Control.propagationBudget hb.control,
      congrArg Control.asynchInterrupt hb.control⟩, ?_⟩
  · refine AssumeOk.zero hv.ok.trail hzero fun p hp => ?_
    rw [hn]
    exact h.assume.below p (hassumptions ▸ hp)
  · rw [List.eq_nil_of_length_eq_zero hzero] at hl
    exact absurd hl List.not_mem_nil
  · rw [hb.toState]
    exact keeps_cut h.ok.trail 0

theorem Propagated.running {s₁ : Solver} (hp : Propagated F s none s₁) (h : Ready F s) :
    Running F s₁ := by
  refine ⟨hp.valid h.toValid, (congrArg Control.ok hp.control).trans h.okay, ?_⟩
  rw [hp.same.assumptions]
  exact hp.grown.assumeOk h.assume hp.ok h.lims

/-- A turn that restarts. -/
theorem Propagated.restart {s₁ : Solver} (hp : Propagated F s none s₁) (h : Ready F s)
    (o : Options) (hvalid : s₁.lbdQueue.isvalid = true) :
    TurnOk F o s (.returns .l_Undef
      (Solver.cancelUntil o { s₁ with lbdQueue := s₁.lbdQueue.fastclear } 0)) := by
  have hrunning := hp.running h
  obtain ⟨n, xs, hn, hq⟩ := hrunning.control.lbd
  have hcleared : Running F { s₁ with lbdQueue := s₁.lbdQueue.fastclear } :=
    ⟨hrunning.setControl ⟨⟨n, [], hn, hq.fastclear⟩, hrunning.control.reduce⟩, hrunning.okay,
      hrunning.assume⟩
  have hb := cancelUntil_spec o { s₁ with lbdQueue := s₁.lbdQueue.fastclear } 0
  generalize Solver.cancelUntil o { s₁ with lbdQueue := s₁.lbdQueue.fastclear } 0 = s' at hb ⊢
  obtain ⟨hready, hsame, hkeeps⟩ := hcleared.restart hb
  have hcontrol : s'.toControl = { s.toControl with lbdQueue := s₁.lbdQueue.fastclear } := by
    rw [hb.control, ← hp.control]
  have hlbd : s₁.lbdQueue = s.lbdQueue := congrArg Control.lbdQueue hp.control
  have hqueue := congrArg Control.lbdQueue hcontrol
  have hconflict := congrArg Control.conflict hcontrol
  have hconflicts := congrArg Control.conflicts hcontrol
  have hcur := congrArg Control.curRestart hcontrol
  have hnb := congrArg Control.nbclausesbeforereduce hcontrol
  have hclear : Same s₁ { s₁ with lbdQueue := s₁.lbdQueue.fastclear } :=
    ⟨rfl, rfl, rfl, rfl, rfl, rfl⟩
  refine .returns (.restart hready (hp.same.trans (hclear.trans hsame)) hconflict) fun _ =>
    .restart ⟨hp.grown.keeps.trans hkeeps, hcur, hnb⟩ hconflicts (hlbd ▸ hvalid) ?_
  rw [BQueue.isvalid, show s'.lbdQueue = s₁.lbdQueue.fastclear from hqueue, hq.fastclear.maxsize]
  exact beq_false_of_ne (Nat.ne_of_lt hn)

/-- **A turn without a conflict** restarts, or sets the next literal. -/
theorem onPropagated_spec {s₁ : Solver} (h : Ready F s) (hp : Propagated F s none s₁)
    (choice : Choice) :
    s₁.onPropagated o choice = .error (.raised (.assertion "learnts.size()>0")) ∨
      ∃ out, s₁.onPropagated o choice = .ok out ∧ TurnOk F o s out := by
  have hconflict : s₁.conflict = s.conflict := congrArg Control.conflict hp.control
  have hlbd : s₁.lbdQueue = s.lbdQueue := congrArg Control.lbdQueue hp.control
  have hconflicts : s₁.conflicts = s.conflicts := congrArg Control.conflicts hp.control
  have hcur : s₁.curRestart = s.curRestart := congrArg Control.curRestart hp.control
  have hnb : s₁.nbclausesbeforereduce = s.nbclausesbeforereduce :=
    congrArg Control.nbclausesbeforereduce hp.control
  have hrunning := hp.running h
  unfold Solver.onPropagated
  split
  · rename_i hrestart
    exact Or.inr ⟨_, rfl, hp.restart h o (Bool.and_eq_true_iff.mp hrestart).1⟩
  · obtain ⟨b, s₂, hprep, hsame, hconf, hunsat, hprepared⟩ :=
      prepare_spec hrunning (hp.done rfl).1 o
    have hsame := hp.same.trans hsame
    have hconf := hconf.trans hconflict
    rw [hprep]
    simp only [ok_bind]
    cases b with
    | false =>
      exact Or.inr ⟨_, rfl, .returns (.unsat hsame hconf (hunsat rfl))
        fun hno => absurd hno (by simp)⟩
    | true =>
      have hp₂ := hprepared rfl
      have hkeeps := hp.grown.keeps.trans hp₂.keeps
      have hlength := hp.grown.trail.length_le.trans hp₂.trail
      have hconflicts₂ := hp₂.conflicts.trans hconflicts
      have hcur₂ := hp₂.curRestart.trans hcur
      have hnb₂ := hp₂.nbclausesbeforereduce.trans hnb
      simp only [Bool.not_true, Bool.false_eq_true, if_false]
      rcases reduceIfDue_spec hp₂.running o choice with hrun | hrun | ⟨s₃, hrun, hrunning₃, hr⟩
      · exact Or.inl (by rw [hrun]; rfl)
      · rw [hrun]
        refine Or.inr (decide_spec hp₂.running hp₂.queue hsame hconf choice fun s' hd => ?_)
        refine .decision ⟨hkeeps.trans hd.keeps, ?_, ?_⟩ ?_ ?_ (Nat.lt_of_le_of_lt hlength hd.trail)
        · exact (congrArg Control.curRestart hd.control).trans hcur₂
        · exact (congrArg Control.nbclausesbeforereduce hd.control).trans hnb₂
        · exact (congrArg Control.conflicts hd.control).trans hconflicts₂
        · exact (congrArg Control.lbdQueue hd.control).trans (hp₂.lbdQueue.trans hlbd)
      · rw [hrun]
        refine Or.inr (decide_spec hrunning₃ ?_ (hsame.trans hr.same) (hr.conflict.trans hconf)
          choice fun s' hd => ?_)
        · rw [hr.qhead, hr.trail]
          exact hp₂.queue
        · refine .reduction ?_ ?_ ?_ ?_
          · rw [← hcur₂, ← hnb₂, ← hconflicts₂]
            exact hr.due
          · exact (congrArg Control.conflicts hd.control).trans (hr.conflicts.trans hconflicts₂)
          · rw [← hnb₂, ← hconflicts₂]
            exact (congrArg Control.curRestart hd.control).trans hr.curRestart
          · rw [← hnb₂]
            exact hr.nbclausesbeforereduce.trans
              (congrArg Control.nbclausesbeforereduce hd.control).ge

/-- **A turn of the search** goes on, or returns a right answer, or fails in one of two ways. -/
theorem turn_spec (h : Ready F s) (o : Options) (choice : Choice) :
    (∃ e, Fails s.assumptions e ∧ s.turn o choice = .error e) ∨
      ∃ out, s.turn o choice = .ok out ∧ TurnOk F o s out := by
  obtain ⟨confl, s₁, hrun, hp⟩ := propagate_spec h.ok h.queue
  unfold Solver.turn
  rw [hrun]
  cases confl with
  | none => exact (onPropagated_spec h hp choice).imp_left fun hno => ⟨_, .learnts, hno⟩
  | some cr =>
    refine (onConflict_spec h hp choice).imp_left fun hdeep => ⟨_, .levels fun hnodup => ?_,
      hdeep.error⟩
    exact Nat.not_lt.mpr hdeep.le (hp.decisionLevel_lt h hnodup)

end SymBreak.Glucose
