import SymBreak.Glucose.Analyze

/-!
# Removing clauses

Model of the reductions of the clause database (`core/Solver.cc`): `removeSatisfied` removes the
clauses that are true at level 0, and `reduceDB` removes about half of the learnt clauses, those
that come first in the order `reduceDB_lt`.

A clause is removed when it is no reason above level 0, and is learnt or true at level 0
(`removeClause_spec`). So the database still says what the formula says, and no literal loses its
reason (`removeSatisfied_spec`, `reduceLoop_spec`).
-/

namespace SymBreak.Glucose

open Cnf

namespace State

/-- `removeSatisfied` (`Solver.cc:958-972`), where `kept` is what was copied so far. -/
def removeSatisfied : List CRef → List CRef → State → Result (List CRef × State)
  | [], kept, s => .ok (kept, s)
  | cr :: cs, kept, s =>
    if s.satisfied (s.ca cr) then do
      let s ← s.removeClause cr
      removeSatisfied cs kept s
    else removeSatisfied cs (kept ++ [cr]) s

/-- The loop of `reduceDB` (`Solver.cc:938-950`), where `kept` is what was copied so far. -/
def reduceLoop : List CRef → Nat → Nat → List CRef → State → Result (List CRef × State)
  | [], _, _, kept, s => .ok (kept, s)
  | cr :: crs, i, limit, kept, s =>
    let c := s.ca cr
    if c.lbd > 2 ∧ c.size > 2 ∧ c.canBeDel ∧ ¬ s.locked cr ∧ i < limit then do
      let s ← s.removeClause cr
      reduceLoop crs (i + 1) limit kept s
    else
      let limit := if c.canBeDel then limit else limit + 1
      reduceLoop crs (i + 1) limit (kept ++ [cr]) (s.setClause cr { c with canBeDel := true })

end State

/-- `reduceDB_lt` (`Solver.cc:895-917`) -/
def reduceDBLt (db : ClauseDb) (activity : CRef → Nat) (x y : CRef) : Prop :=
  if (db.ca x).size > 2 ∧ (db.ca y).size = 2 then True
  else if (db.ca y).size > 2 ∧ (db.ca x).size = 2 then False
  else if (db.ca x).size = 2 ∧ (db.ca y).size = 2 then False
  else if (db.ca x).lbd > (db.ca y).lbd then True
  else if (db.ca x).lbd < (db.ca y).lbd then False
  else activity x < activity y

instance (db : ClauseDb) (activity : CRef → Nat) : DecidableRel (reduceDBLt db activity) := by
  intro x y
  unfold reduceDBLt
  infer_instance

/-- `reduceDB` (`Solver.cc:923-955`) -/
def Solver.reduceDB (o : Options) (s : Solver) (choice : Choice) : Result Solver := do
  let learnts ← Mtl.sort (reduceDBLt s.toClauseDb choice.clauseActivity) s.learnts
  match learnts[learnts.length / 2]?, learnts.getLast? with
  | some mid, some last =>
    let nb := s.nbclausesbeforereduce
    let nb := if (s.ca mid).lbd ≤ 3 then nb + o.specialIncReduceDB else nb
    let nb := if (s.ca last).lbd ≤ 5 then nb + o.specialIncReduceDB else nb
    let (learnts, t) ← State.reduceLoop learnts 0 (learnts.length / 2) [] s.toState
    .ok { s with toState := { t with learnts := learnts }, nbclausesbeforereduce := nb }
  | _, _ => .error (.raised .outOfRange)

variable {F : Formula} {s s' : State} {p q : Lit} {cr : CRef} {gone : CRef → Prop} {k : Nat}

/-! ## One clause -/

theorem TrailOk.setVardata {t : Trail} (h : TrailOk t) {vardata : Var → VarData}
    (hlevel : ∀ x, (vardata x).level = t.level x) : TrailOk { t with vardata := vardata } :=
  ⟨h.nodup, h.below, h.value, h.sorted, h.lim_le, fun i p hi => (hlevel _).trans (h.level i p hi)⟩

/-- Clauses were removed, only such that `gone` is true of. -/
structure Removed (gone : CRef → Prop) (s s' : State) : Prop where
  nVars : s'.nVars = s.nVars
  assigns : s'.assigns = s.assigns
  trail : s'.trail = s.trail
  trailLim : s'.trailLim = s.trailLim
  level : ∀ x, s'.level x = s.level x
  vardata : 0 < s.decisionLevel → s'.vardata = s.vardata
  next : s'.next = s.next
  lists : s'.clauses = s.clauses ∧ s'.learnts = s.learnts
  lits : ∀ cr, (s'.ca cr).lits = (s.ca cr).lits
  learnt : ∀ cr, (s'.ca cr).learnt = (s.ca cr).learnt
  live : ∀ cr, s'.Live cr → s.Live cr
  gone : ∀ cr, s.Live cr → s'.Live cr ∨ gone cr

theorem Removed.refl (gone : CRef → Prop) (s : State) : Removed gone s s :=
  ⟨rfl, rfl, rfl, rfl, fun _ => rfl, fun _ => rfl, rfl, ⟨rfl, rfl⟩, fun _ => rfl, fun _ => rfl,
    fun _ => id, fun _ => Or.inl⟩

theorem Removed.trans {s'' : State} (h : Removed gone s s') (h' : Removed gone s' s'') :
    Removed gone s s'' where
  nVars := h'.nVars.trans h.nVars
  assigns := h'.assigns.trans h.assigns
  trail := h'.trail.trans h.trail
  trailLim := h'.trailLim.trans h.trailLim
  level x := (h'.level x).trans (h.level x)
  vardata hpos := by
    have hlevel : s'.decisionLevel = s.decisionLevel := congrArg List.length h.trailLim
    exact (h'.vardata (hlevel ▸ hpos)).trans (h.vardata hpos)
  next := h'.next.trans h.next
  lists := ⟨h'.lists.1.trans h.lists.1, h'.lists.2.trans h.lists.2⟩
  lits cr := (h'.lits cr).trans (h.lits cr)
  learnt cr := (h'.learnt cr).trans (h.learnt cr)
  live cr hcr := h.live cr (h'.live cr hcr)
  gone cr hcr := (h.gone cr hcr).elim (h'.gone cr) Or.inr

theorem Removed.watched (h : Removed gone s s') (hw : Watched s k) : Watched s' k := by
  intro cr hcr q hq hfalse
  rw [h.lits] at hq
  rw [h.trail] at hfalse
  obtain ⟨r, hr, hrt, hrl⟩ := hw cr (h.live cr hcr) q hq hfalse
  refine ⟨r, by rwa [h.lits], by rwa [h.trail], ?_⟩
  rwa [h.level, h.level]

/-- The clause is no reason above level 0. -/
theorem StateOk.not_reason (h : StateOk F s) (hlocked : s.locked cr = false)
    (hsize : 2 < (s.ca cr).size) (hp : p ∈ s.trail) (hpos : 0 < s.level p.var) :
    s.reason p.var ≠ some cr := by
  intro hr
  obtain ⟨i, hi⟩ := List.mem_iff_getElem?.mp hp
  obtain ⟨_, hreason⟩ := (h.reasons i p hi hpos).2 cr hr
  have hget := hreason.first (Nat.ne_of_gt hsize)
  unfold State.locked at hlocked
  simp only [if_pos hsize, hget, (h.trail.value p).mpr hp, hr] at hlocked
  simp at hlocked

/-- The reasons are still there, if none of them is removed. -/
theorem Removed.reasons (h : Removed gone s s') (hok : StateOk F s)
    (hsafe : s.decisionLevel = 0 ∨ ∀ cr, gone cr → s.locked cr = false ∧ 2 < (s.ca cr).size) :
    ReasonsOk s' := by
  intro i p hi hpos
  rw [h.trail] at hi
  rw [h.level] at hpos ⊢
  have hp := List.mem_of_getElem? hi
  have hlevel : 0 < s.decisionLevel := Nat.lt_of_lt_of_le hpos (hok.trail.level_le hp)
  have hsafe := hsafe.resolve_left (Nat.ne_of_gt hlevel)
  have hreason : s'.reason p.var = s.reason p.var := by
    unfold Trail.reason
    rw [h.vardata hlevel]
  have hlim : s'.lim (s.level p.var - 1) = s.lim (s.level p.var - 1) := by
    unfold Trail.lim
    rw [h.trailLim, h.trail]
  obtain ⟨hn, hs⟩ := hok.reasons i p hi hpos
  rw [hreason, hlim]
  refine ⟨hn, fun cr hr => ?_⟩
  obtain ⟨hl, hmem, hfirst, hbefore⟩ := hs cr hr
  refine ⟨(h.gone cr hl).resolve_right fun hg => ?_, (h.lits cr).symm ▸ hmem, fun hsize => ?_,
    fun q hq hne => ?_⟩
  · obtain ⟨hlocked, hsize⟩ := hsafe cr hg
    exact hok.not_reason hlocked hsize hp hpos hr
  · unfold Clause.size Clause.get at *
    rw [h.lits] at hsize ⊢
    exact hfirst hsize
  · rw [h.trail]
    exact hbefore q (h.lits cr ▸ hq) hne

/-- The clauses that are left say the same, if those that are removed are not needed. -/
theorem Removed.equivalent (h : Removed gone s s') (hok : Equivalent F s)
    (hneed : ∀ cr, gone cr → (s.ca cr).learnt = true ∨
      ∃ p ∈ (s.ca cr).lits, p ∈ s.trail ∧ s.level p.var = 0) : Equivalent F s' := by
  refine ⟨fun cr hcr => ?_, fun p hp hzero => ?_, fun σ hσ hfixed => ?_⟩
  · rw [h.lits]
    exact hok.entails cr (h.next ▸ hcr)
  · rw [h.trail] at hp
    exact hok.fixed p hp ((h.level p.var).symm.trans hzero)
  · rw [h.trail] at hfixed
    simp only [h.level] at hfixed
    refine hok.complete σ (fun cr hl hlr => ?_) hfixed
    rcases h.gone cr hl with hl' | hg
    · exact h.lits cr ▸ hσ cr hl' ((h.learnt cr).trans hlr)
    · rcases hneed cr hg with hneed | ⟨p, hp, hpt, hzero⟩
      · exact absurd hneed (by rw [hlr]; exact Bool.false_ne_true)
      · exact ⟨p, hp, hfixed p hpt hzero⟩

/-- **`removeClause`**, of a clause that is no reason and is not needed. -/
theorem removeClause_spec (hok : StateOk F s) (hcr : cr < s.next)
    (hsafe : s.decisionLevel = 0 ∨ s.locked cr = false ∧ 2 < (s.ca cr).size)
    (hneed : (s.ca cr).learnt = true ∨ ∃ p ∈ (s.ca cr).lits, p ∈ s.trail ∧ s.level p.var = 0) :
    ∃ s', s.removeClause cr = .ok s' ∧ StateOk F s' ∧ Removed (· = cr) s s' := by
  obtain ⟨db', hrun, hdb, hca, hnext, hclauses, hlearnts⟩ := hok.db.remove hcr
  have hlive : ∀ cr', (db'.setMark cr).Live cr' ↔ s.Live cr' ∧ cr' ≠ cr := by
    intro cr'
    rw [live_setMark]
    unfold ClauseDb.Live
    rw [hca, hnext]
  unfold State.removeClause
  rw [hrun]
  simp only [ok_bind]
  generalize hvd : (if s.locked cr then Function.update s.vardata ((s.ca cr).get 0).var
      { s.vardata ((s.ca cr).get 0).var with reason := none } else s.vardata) = vardata
  have hlevel : ∀ x, (vardata x).level = s.level x := by
    intro x
    rw [← hvd]
    split
    · rw [Function.update_apply]
      split
      · rename_i hx
        rw [hx]
        rfl
      · rfl
    · rfl
  have hremoved : Removed (· = cr) s { s with
      toTrail := { s.toTrail with vardata := vardata }, toClauseDb := db'.setMark cr } := by
    refine ⟨rfl, rfl, rfl, rfl, hlevel, fun hpos => ?_, hnext, ⟨hclauses, hlearnts⟩,
      fun cr' => (setMark_ca db' cr cr').1.trans (by rw [hca]),
      fun cr' => (setMark_ca db' cr cr').2.trans (by rw [hca]),
      fun cr' h => ((hlive cr').mp h).1, fun cr' h => ?_⟩
    · show vardata = s.vardata
      rw [← hvd, (hsafe.resolve_left (Nat.ne_of_gt hpos)).1]
      rfl
    · by_cases heq : cr' = cr
      · exact Or.inr heq
      · exact Or.inl ((hlive cr').mpr ⟨h, heq⟩)
  exact ⟨_, rfl, ⟨hok.trail.setVardata hlevel, hdb,
    hremoved.reasons hok (hsafe.imp_right fun h _ heq => heq ▸ h),
    hremoved.equivalent hok.equiv fun _ heq => heq ▸ hneed⟩, hremoved⟩

/-! ## Removing satisfied clauses -/

theorem satisfied_iff (h : TrailOk s.toTrail) {c : Clause} :
    s.satisfied c = true ↔ ∃ p ∈ c.lits, p ∈ s.trail := by
  simp [State.satisfied, h.value]

theorem Removed.mono {gone' : CRef → Prop} (h : Removed gone s s')
    (hgone : ∀ cr, gone cr → gone' cr) : Removed gone' s s' :=
  ⟨h.nVars, h.assigns, h.trail, h.trailLim, h.level, h.vardata, h.next, h.lists, h.lits, h.learnt,
    h.live, fun cr hcr => (h.gone cr hcr).imp_right (hgone cr)⟩

/-- A literal of the clause is true at level 0. -/
def FixedTrue (s : State) (cr : CRef) : Prop :=
  ∃ p ∈ (s.ca cr).lits, p ∈ s.trail ∧ s.level p.var = 0

theorem Removed.fixedTrue (h : Removed gone s s') : FixedTrue s' cr ↔ FixedTrue s cr := by
  unfold FixedTrue
  rw [h.lits, h.trail]
  simp only [h.level]

/-- **`removeSatisfied`**, at level 0. -/
theorem removeSatisfied_spec : ∀ (cs kept : List CRef) (s : State), StateOk F s →
    s.decisionLevel = 0 → (∀ cr ∈ cs, cr < s.next) →
    ∃ kept' s', State.removeSatisfied cs kept s = .ok (kept ++ kept', s') ∧ kept'.Sublist cs ∧
      StateOk F s' ∧ Removed (FixedTrue s) s s'
  | [], kept, s, hok, _, _ =>
    ⟨[], s, by rw [List.append_nil]; rfl, List.Sublist.refl _, hok, Removed.refl _ s⟩
  | cr :: cs, kept, s, hok, hzero, hcs => by
    obtain ⟨hcr, hcs⟩ := List.forall_mem_cons.mp hcs
    unfold State.removeSatisfied
    split
    · rename_i hsat
      have hfixed : FixedTrue s cr := by
        obtain ⟨p, hp, hpt⟩ := (satisfied_iff hok.trail).mp hsat
        exact ⟨p, hp, hpt, Nat.le_zero.mp (hzero ▸ hok.trail.level_le hpt)⟩
      obtain ⟨s₁, hrun, hok₁, hr₁⟩ := removeClause_spec hok hcr (Or.inl hzero) (Or.inr hfixed)
      obtain ⟨kept', s', hrest, hsub, hok', hr'⟩ := removeSatisfied_spec cs kept s₁ hok₁
        ((congrArg List.length hr₁.trailLim).trans hzero) fun cr' hcr' =>
          Nat.lt_of_lt_of_eq (hcs cr' hcr') hr₁.next.symm
      refine ⟨kept', s', ?_, hsub.cons cr, hok', ?_⟩
      · rw [hrun]
        exact hrest
      · exact (hr₁.mono fun _ h => h ▸ hfixed).trans (hr'.mono fun _ => hr₁.fixedTrue.mp)
    · obtain ⟨kept', s', hrest, hsub, hok', hr'⟩ :=
        removeSatisfied_spec cs (kept ++ [cr]) s hok hzero hcs
      refine ⟨cr :: kept', s', ?_, hsub.cons_cons cr, hok', hr'⟩
      rw [hrest, List.append_assoc]
      rfl

/-! ## Reducing the learnt clauses -/

theorem InPlace.removed {db : ClauseDb} (h : InPlace s db)
    (hlits : ∀ cr, (db.ca cr).lits = (s.ca cr).lits) (gone : CRef → Prop) :
    Removed gone s { s with toClauseDb := db } :=
  ⟨rfl, rfl, rfl, rfl, fun _ => rfl, fun _ => rfl, h.next, h.lists, hlits, h.learnt,
    fun _ => h.live.mp, fun _ hcr => Or.inl (h.live.mpr hcr)⟩

/-- `setCanBeDel(true)` -/
theorem setCanBeDel_spec (hok : StateOk F s) (cr : CRef) (gone : CRef → Prop) :
    StateOk F (s.setClause cr { s.ca cr with canBeDel := true }) ∧
      Removed gone s (s.setClause cr { s.ca cr with canBeDel := true }) := by
  have hplace : InPlace s (s.setClause cr { s.ca cr with canBeDel := true }).toClauseDb :=
    InPlace.meta rfl rfl rfl
  refine ⟨hok.inPlace hplace, hplace.removed (fun cr' => ?_) gone⟩
  simp only [State.setClause, Function.update_apply]
  split
  · rename_i heq
    rw [heq]
  · rfl

/-- **The loop of `reduceDB`** removes clauses that are no reasons. -/
theorem reduceLoop_spec : ∀ (crs : List CRef) (i limit : Nat) (kept : List CRef) (s : State),
    StateOk F s → (∀ cr ∈ crs, cr < s.next ∧ (s.ca cr).learnt = true) →
    ∃ kept' s', State.reduceLoop crs i limit kept s = .ok (kept ++ kept', s') ∧
      kept'.Sublist crs ∧ StateOk F s' ∧ Removed (fun _ => True) s s'
  | [], _, _, kept, s, hok, _ =>
    ⟨[], s, by rw [List.append_nil]; rfl, List.Sublist.refl _, hok, Removed.refl _ s⟩
  | cr :: crs, i, limit, kept, s, hok, hcrs => by
    obtain ⟨⟨hcr, hlearnt⟩, hcrs⟩ := List.forall_mem_cons.mp hcrs
    have hstep : ∀ {s₁ : State}, Removed (fun _ => True) s s₁ →
        ∀ cr ∈ crs, cr < s₁.next ∧ (s₁.ca cr).learnt = true := by
      intro s₁ hr cr' hcr'
      rw [hr.next, hr.learnt]
      exact hcrs cr' hcr'
    unfold State.reduceLoop
    simp only []
    split
    · rename_i hcond
      obtain ⟨_, hsize, _, hlocked, _⟩ := hcond
      obtain ⟨s₁, hrun, hok₁, hr₁⟩ := removeClause_spec hok hcr
        (Or.inr ⟨eq_false_of_ne_true hlocked, hsize⟩) (Or.inl hlearnt)
      have hr₁ := hr₁.mono fun _ _ => True.intro
      obtain ⟨kept', s', hrest, hsub, hok', hr'⟩ :=
        reduceLoop_spec crs (i + 1) limit kept s₁ hok₁ (hstep hr₁)
      refine ⟨kept', s', ?_, hsub.cons cr, hok', hr₁.trans hr'⟩
      rw [hrun]
      exact hrest
    · obtain ⟨hok₁, hr₁⟩ := setCanBeDel_spec hok cr fun _ => True
      obtain ⟨kept', s', hrest, hsub, hok', hr'⟩ :=
        reduceLoop_spec crs (i + 1) (if (s.ca cr).canBeDel then limit else limit + 1)
          (kept ++ [cr]) _ hok₁ (hstep hr₁)
      refine ⟨cr :: kept', s', ?_, hsub.cons_cons cr, hok', hr₁.trans hr'⟩
      rw [hrest, List.append_assoc]
      rfl

/-- The order in which learnt clauses are removed is a strict weak order: longer clauses come
before binary ones, and among the longer ones those of greater lbd. -/
theorem reduceDBLt_iff {db : ClauseDb} {activity : CRef → Nat} {x y : CRef}
    (hx : 2 ≤ (db.ca x).size) (hy : 2 ≤ (db.ca y).size) :
    reduceDBLt db activity x y ↔ 2 < (db.ca x).size ∧ ((db.ca y).size = 2 ∨
      (db.ca y).lbd < (db.ca x).lbd ∨ (db.ca x).lbd = (db.ca y).lbd ∧ activity x < activity y) := by
  unfold reduceDBLt
  rcases Nat.lt_or_eq_of_le hx with hx | hx
  · rcases Nat.lt_or_eq_of_le hy with hy | hy
    · rcases Nat.lt_trichotomy (db.ca x).lbd (db.ca y).lbd with h | h | h
      · simp [hx, hy.ne', hx.ne', h, h.ne, Nat.not_lt.mpr h.le]
      · simp [hx, hy.ne', hx.ne', h]
      · simp [hx, hy.ne', hx.ne', h]
    · simp [hx, ← hy]
  · rcases Nat.lt_or_eq_of_le hy with hy | hy
    · simp [hy, ← hx]
    · simp [← hy, ← hx]

/-- **`reduceDB`**, of a database with learnt clauses. -/
theorem reduceDB_spec {s : Solver} (o : Options) (choice : Choice) (hok : StateOk F s.toState)
    (hlearnts : ∀ cr ∈ s.learnts, cr < s.next ∧ (s.ca cr).learnt = true)
    (hne : s.learnts ≠ []) :
    ∃ learnts t nb, s.reduceDB o choice = .ok { s with
        toState := { t with learnts := learnts }, nbclausesbeforereduce := nb } ∧
      StateOk F t ∧ Removed (fun _ => True) s.toState t ∧ (∀ cr ∈ learnts, cr ∈ s.learnts) ∧
      s.nbclausesbeforereduce ≤ nb := by
  have hasymm : Std.Asymm fun x y : { cr // 2 ≤ (s.ca cr).size } =>
      reduceDBLt s.toClauseDb choice.clauseActivity x y := ⟨fun x y h h' => by
    rw [reduceDBLt_iff x.2 y.2] at h
    rw [reduceDBLt_iff y.2 x.2] at h'
    omega⟩
  have hconn : IsOrderConnected { cr // 2 ≤ (s.ca cr).size } fun x y =>
      reduceDBLt s.toClauseDb choice.clauseActivity x y := ⟨fun x y z h => by
    rw [reduceDBLt_iff x.2 z.2] at h
    rw [reduceDBLt_iff x.2 y.2, reduceDBLt_iff y.2 z.2]
    have := x.2
    have := y.2
    omega⟩
  obtain ⟨learnts, hsort, hperm, _⟩ :
      ∃ ys, Mtl.sort (reduceDBLt s.toClauseDb choice.clauseActivity) s.learnts = .ok ys ∧
        ys.Perm s.learnts ∧ ys.Pairwise fun x y =>
          ¬ reduceDBLt s.toClauseDb choice.clauseActivity y x :=
    Mtl.sort_subtype (fun cr => 2 ≤ (s.ca cr).size) fun cr hcr => hok.db.size cr (hlearnts cr hcr).1
  have hpos : 0 < learnts.length := by
    rw [hperm.length_eq]
    exact List.length_pos_of_ne_nil hne
  obtain ⟨kept, t, hrun, hsub, hok', hr⟩ := reduceLoop_spec learnts 0 (learnts.length / 2) []
    s.toState hok fun cr hcr => hlearnts cr (hperm.subset hcr)
  unfold Solver.reduceDB
  rw [hsort]
  simp only [ok_bind]
  rw [List.getElem?_eq_getElem (Nat.div_lt_self hpos (Nat.lt_succ_self 1)),
    List.getLast?_eq_some_getLast (List.ne_nil_of_length_pos hpos)]
  simp only [hrun, ok_bind, List.nil_append]
  refine ⟨kept, t, _, rfl, hok', hr, fun cr hcr => hperm.subset (hsub.subset hcr), ?_⟩
  split
  all_goals
    split
  all_goals omega

end SymBreak.Glucose
