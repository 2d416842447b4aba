import SymBreak.Glucose.Runs

/-!
# Inside the search

`Searches o F s` says that `s` stands at the start of a turn of `search`, in a call of `solve_` that
follows a run of calls. Such a solver is `Ready` (`Searches.ready`), whatever the choices were, so
at every turn:
* the clauses and the literals of level 0 say what the added clauses say
  (`database_equivalent`), and every clause is watched by its first two literals
  (`clauses_watched`);
* every literal of the trail follows from the decisions up to its level (`trail_implied`);
* `propagate` leaves no unit clause and no false clause, or finds a false one
  (`propagate_complete`);
* under assumptions on different variables, `analyze` learns an entailed clause, which is new and
  becomes unit on the way back (`analyze_learns`).
-/

namespace SymBreak.Glucose

open Cnf

/-- The solver at the start of a turn, which is counted. -/
inductive Searches (o : Options) : Formula → Solver → Prop where
  | start {F : Formula} {s : Solver} {as : List Lit} (h : Reaches o F s) (hok : s.ok = true)
      (has : ∀ p ∈ as, p.var < s.nVars) :
      Searches o F { s with assumptions := as, model := [], conflict := [], turns := s.turns + 1 }
  | continues {F : Formula} {s s' : Solver} (h : Searches o F s) (choice : Choice)
      (hrun : s.turn o choice = .ok (.continues s')) :
      Searches o F { s' with turns := s'.turns + 1 }
  | restarts {F : Formula} {s s' : Solver} (h : Searches o F s) (choice : Choice)
      (hrun : s.turn o choice = .ok (.returns .l_Undef s')) :
      Searches o F { s' with turns := s'.turns + 1 }

variable {F : Formula} {o : Options} {s s' : Solver} {p q : Lit} {cr : CRef} {l : Nat}

/-- **Every turn starts from a solver that is ready**, by induction on the turns before. -/
theorem Searches.ready (ho : OptionsOk o) (h : Searches o F s) : Ready F s := by
  induction h with
  | @start s as h hok has => exact ((((h.inv ho).assume as).ready hok) has).countTurn
  | continues h choice hrun ih =>
    rcases turn_spec ih o choice with ⟨_, _, hno⟩ | ⟨out, hout, hturn⟩
    · rw [hno] at hrun
      exact absurd hrun (by simp)
    · rw [hout] at hrun
      obtain rfl := Except.ok.inj hrun
      cases hturn with
      | continues ready same conflict advance => exact ready.countTurn
  | restarts h choice hrun ih =>
    rcases turn_spec ih o choice with ⟨_, _, hno⟩ | ⟨out, hout, hturn⟩
    · rw [hno] at hrun
      exact absurd hrun (by simp)
    · rw [hout] at hrun
      obtain rfl := Except.ok.inj hrun
      cases hturn with
      | returns answered advance =>
        cases answered with
        | restart ready same conflict => exact ready.countTurn

/-! ## A search -/

/-- The solver with which a turn goes on. -/
def Solver.Outcome.solver : Solver.Outcome → Solver
  | .continues s => s
  | .returns _ s => s

/-- The solver at the start of the next turn, in a search without restarts. -/
def nextTurn (s : Solver) : Solver :=
  match s.turn Options.default .plain with
  | .ok out => { out.solver with turns := out.solver.turns + 1 }
  | .error _ => s

def firstTurn : Solver :=
  { twoClauses with assumptions := [], model := [], conflict := [], turns := twoClauses.turns + 1 }

def secondTurn : Solver := nextTurn firstTurn

def thirdTurn : Solver := nextTurn secondTurn

theorem searches_firstTurn : Searches Options.default [[x₀, x₁], [x₀, x₁.neg]] firstTurn :=
  .start reaches_twoClauses rfl fun _ hp => absurd hp List.not_mem_nil

/-- The first turn decides that `x₀` is false. -/
theorem searches_secondTurn : Searches Options.default [[x₀, x₁], [x₀, x₁.neg]] secondTurn :=
  .continues searches_firstTurn .plain
    (show firstTurn.turn _ _ = .ok (.continues { secondTurn with turns := 1 }) from rfl)

/-- The second turn learns that `x₀` is true. -/
theorem searches_thirdTurn : Searches Options.default [[x₀, x₁], [x₀, x₁.neg]] thirdTurn :=
  .continues searches_secondTurn .plain
    (show secondTurn.turn _ _ = .ok (.continues { thirdTurn with turns := 2 }) from rfl)

/-! ## The trail -/

/-- The literals up to level `l` are closed over the decisions of these levels. -/
theorem StateOk.closed {s : State} (h : StateOk F s) (l : Nat) :
    Closed F s.trail (fun q => s.reason q.var = none ∧ 0 < s.level q.var ∧ s.level q.var ≤ l)
      fun q => s.level q.var ≤ l := by
  intro i p hi hp
  have hmem := List.mem_of_getElem? hi
  rcases Nat.eq_zero_or_pos (s.level p.var) with hzero | hpos
  · refine Or.inr ⟨[p], h.equiv.fixed p hmem hzero, fun q hq hne => ?_⟩
    exact absurd (List.mem_singleton.mp hq) hne
  · obtain ⟨_, hsome⟩ := h.reasons i p hi hpos
    cases hr : s.reason p.var with
    | none => exact Or.inl ⟨hr, hpos, hp⟩
    | some cr =>
      obtain ⟨hlive, hreason⟩ := hsome cr hr
      refine Or.inr ⟨_, h.equiv.entails cr hlive.1, fun q hq hne => Or.inr ⟨?_, ?_⟩⟩
      · obtain ⟨j, hj, hjq⟩ := mem_take_iff.mp (hreason.false_before q hq hne)
        exact (h.trail.level_mono hjq hi hj.le).trans hp
      · exact hreason.false_before q hq hne

/-- **Every literal of the trail follows from the decisions** of its level and the levels below, and
from the clauses that were added. -/
theorem trail_implied (ho : OptionsOk o) (h : Searches o F s) (hp : p ∈ s.trail) {σ : Assignment}
    (hσ : Sat σ F) (hdecisions : ∀ q ∈ s.trail, s.reason q.var = none → 0 < s.level q.var →
      s.level q.var ≤ s.level p.var → q.eval σ = true) : p.eval σ = true := by
  have hok := (h.ready ho).ok
  exact (hok.closed (s.level p.var)).implied hσ
    (fun q hq hK => hdecisions q hq hK.1 hK.2.1 hK.2.2) hp (Nat.le_refl _)

theorem trail_implied_thirdTurn : x₀.eval (fun _ => true) = true :=
  trail_implied optionsOk_default searches_thirdTurn (show x₀ ∈ thirdTurn.trail by decide)
    (by decide) (by decide)

/-! ## The database -/

/-- **The database says what the added clauses say**: every clause in it is entailed, learnt or not,
and the original ones and the literals of level 0 have no other models. -/
theorem database_equivalent (ho : OptionsOk o) (h : Searches o F s) :
    (∀ cr, s.Live cr → Entails F (s.ca cr).lits) ∧
      ∀ σ, Sat σ F ↔ (∀ cr, s.Live cr → (s.ca cr).learnt = false → ClauseHolds σ (s.ca cr).lits) ∧
        ∀ p ∈ s.trail, s.level p.var = 0 → p.eval σ = true := by
  have hequiv := (h.ready ho).ok.equiv
  refine ⟨fun cr hcr => hequiv.entails cr hcr.1, fun σ => ⟨fun hσ => ⟨fun cr hcr _ =>
    hequiv.entails cr hcr.1 σ hσ, fun p hp hzero => ?_⟩, fun hσ => hequiv.complete σ hσ.1 hσ.2⟩⟩
  obtain ⟨q, hq, hqσ⟩ := hequiv.fixed p hp hzero σ hσ
  rwa [List.mem_singleton.mp hq] at hqσ

theorem database_equivalent_thirdTurn :
    (∀ cr, thirdTurn.Live cr → Entails [[x₀, x₁], [x₀, x₁.neg]] (thirdTurn.ca cr).lits) ∧
      ∀ σ, Sat σ [[x₀, x₁], [x₀, x₁.neg]] ↔
        (∀ cr, thirdTurn.Live cr → (thirdTurn.ca cr).learnt = false →
          ClauseHolds σ (thirdTurn.ca cr).lits) ∧
        ∀ p ∈ thirdTurn.trail, thirdTurn.level p.var = 0 → p.eval σ = true :=
  database_equivalent optionsOk_default searches_thirdTurn

/-- A clause stands once in the lists of its first two literals, and in no other. -/
theorem Watching.count {db : ClauseDb} {long : Clause → Prop} {ws : OccLists}
    (h : Watching db long ws) (hcr : db.Live cr) (hlong : long (db.ca cr)) (p : Lit) :
    ((ws.occs p).map Watcher.cref).count cr = if p.neg ∈ (db.ca cr).lits.take 2 then 1 else 0 := by
  split
  · rename_i hp
    have hmem := h.watched cr hcr hlong p.neg hp
    rw [neg_neg] at hmem
    exact List.count_eq_one_of_mem (h.nodup p) hmem
  · rename_i hp
    refine List.count_eq_zero_of_not_mem fun hmem => hp ?_
    obtain ⟨w, hw, rfl⟩ := List.mem_map.mp hmem
    exact h.mem p w hw

theorem Watching.count_other {db : ClauseDb} {long : Clause → Prop} {ws : OccLists}
    (h : Watching db long ws) (hlong : ¬ long (db.ca cr)) (p : Lit) :
    ((ws.occs p).map Watcher.cref).count cr = 0 := by
  refine List.count_eq_zero_of_not_mem fun hmem => hlong ?_
  obtain ⟨w, hw, rfl⟩ := List.mem_map.mp hmem
  exact h.long p w hw

/-- **Every clause is watched by its first two literals**, once by each, in the lists of the binary
clauses or in those of the longer ones, and by no other literal. -/
theorem clauses_watched (ho : OptionsOk o) (h : Searches o F s) (hcr : s.Live cr) (p : Lit) :
    ((s.watches.occs p).map Watcher.cref).count cr =
        (if (s.ca cr).size ≠ 2 ∧ p.neg ∈ (s.ca cr).lits.take 2 then 1 else 0) ∧
      ((s.watchesBin.occs p).map Watcher.cref).count cr =
        (if (s.ca cr).size = 2 ∧ p.neg ∈ (s.ca cr).lits.take 2 then 1 else 0) := by
  have hdb := (h.ready ho).ok.db
  by_cases hsize : (s.ca cr).size = 2
  · simp only [ne_eq, hsize, not_true, false_and, if_false, true_and]
    exact ⟨hdb.watches.count_other (not_not.mpr hsize) p, hdb.watchesBin.count hcr hsize p⟩
  · simp only [ne_eq, hsize, not_false_eq_true, true_and, false_and, if_false]
    exact ⟨hdb.watches.count hcr hsize p, hdb.watchesBin.count_other hsize p⟩

theorem clauses_watched_firstTurn :
    ((firstTurn.watches.occs x₁.neg).map Watcher.cref).count 0 = 0 ∧
      ((firstTurn.watchesBin.occs x₁.neg).map Watcher.cref).count 0 = 1 :=
  clauses_watched optionsOk_default searches_firstTurn
    (show firstTurn.Live 0 from ⟨by decide, rfl⟩) x₁.neg

/-! ## Propagation -/

/-- A clause that propagation is done with: a literal is true, or two have no value. -/
def Settled (s : State) (cr : CRef) : Prop :=
  (∃ q ∈ (s.ca cr).lits, s.value q = .l_True) ∨
    ∃ q ∈ (s.ca cr).lits, ∃ r ∈ (s.ca cr).lits,
      s.value q = .l_Undef ∧ s.value r = .l_Undef ∧ q ≠ r

/-- The watched literals of a clause that is not satisfied have no values. -/
theorem Watched.settled {s : State} (h : Watched s s.trail.length) (hok : StateOk F s)
    (hcr : s.Live cr) : Settled s cr := by
  unfold Settled
  refine or_iff_not_imp_left.mpr fun hno => ?_
  have hundef : ∀ q ∈ (s.ca cr).lits.take 2, s.value q = .l_Undef := by
    intro q hq
    rw [hok.trail.value_eq_undef]
    refine ⟨fun htrue => hno ⟨q, List.mem_of_mem_take hq, (hok.trail.value q).mpr htrue⟩,
      fun hfalse => hno ?_⟩
    obtain ⟨r, hr, hrt, _⟩ := h cr hcr q hq (by rwa [List.take_length])
    exact ⟨r, hr, (hok.trail.value r).mpr hrt⟩
  have hsize := hok.db.size cr hcr.1
  have htake := Clause.take_two hsize
  have h0 : (s.ca cr).get 0 ∈ (s.ca cr).lits.take 2 := by simp [htake]
  have h1 : (s.ca cr).get 1 ∈ (s.ca cr).lits.take 2 := by simp [htake]
  exact ⟨_, List.mem_of_mem_take h0, _, List.mem_of_mem_take h1, hundef _ h0, hundef _ h1,
    Clause.get_ne hsize (hok.db.nodup cr hcr.1)⟩

/-- **Propagation is complete**: it ends, no assertion fails, and it keeps what was set. Without a
conflict no clause is false or unit; with one, it returns a clause that is false. -/
theorem propagate_complete (ho : OptionsOk o) (h : Searches o F s) :
    ∃ confl s', s.propagate = .ok (confl, s') ∧ s.trail <+: s'.trail ∧
      s'.decisionLevel = s.decisionLevel ∧
      match confl with
      | none => ∀ cr, s'.Live cr → Settled s'.toState cr
      | some cr => s'.Live cr ∧ ∀ q ∈ (s'.ca cr).lits, s'.value q = .l_False := by
  have hready := h.ready ho
  obtain ⟨confl, s', hrun, hp⟩ := propagate_spec hready.ok hready.queue
  refine ⟨confl, s', hrun, hp.grown.trail, hp.grown.decisionLevel, ?_⟩
  cases confl with
  | none =>
    obtain ⟨hqhead, hwatched⟩ := hp.done rfl
    rw [hqhead] at hwatched
    exact fun cr hcr => hwatched.settled hp.ok hcr
  | some cr =>
    obtain ⟨hlive, hfalse, _⟩ := hp.conflict cr rfl
    exact ⟨hlive, fun q hq => hp.ok.trail.value_eq_false.mpr (hfalse q hq)⟩

theorem propagate_complete_secondTurn :
    ∃ confl s', secondTurn.propagate = .ok (confl, s') ∧ secondTurn.trail <+: s'.trail ∧
      s'.decisionLevel = secondTurn.decisionLevel ∧
      match confl with
      | none => ∀ cr, s'.Live cr → Settled s'.toState cr
      | some cr => s'.Live cr ∧ ∀ q ∈ (s'.ca cr).lits, s'.value q = .l_False :=
  propagate_complete optionsOk_default searches_secondTurn

/-! ## Conflict analysis -/

/-- **A conflict teaches something new**, under assumptions on different variables: the clause that
`analyze` learns is entailed, false, and neither in the database nor true at level 0. Back at the
level that it names, its first literal has no value, and the others are false, the second of them
only since that level. -/
theorem analyze_learns (ho : OptionsOk o) (h : Searches o F s)
    (has : (s.assumptions.map Lit.var).Nodup)
    (hconfl : s.propagate = .ok (some cr, s')) (hpos : 0 < s'.decisionLevel) :
    ∃ p qs btlevel lbd t, s'.analyze o cr = .ok (⟨p :: qs, btlevel, lbd⟩, t) ∧
      btlevel < s'.decisionLevel ∧
      Entails F (p :: qs) ∧
      (∀ q ∈ p :: qs, s'.value q = .l_False) ∧
      ¬ Known s'.toState (p :: qs).toFinset ∧
      (t.cancelUntil o btlevel).decisionLevel = btlevel ∧
      (t.cancelUntil o btlevel).value p = .l_Undef ∧
      (∀ q ∈ qs, (t.cancelUntil o btlevel).value q = .l_False) ∧
      ∀ q, qs.head? = some q → (t.cancelUntil o btlevel).level q.var = btlevel := by
  have hready := h.ready ho
  obtain ⟨confl, s₁, hrun, hp⟩ := propagate_spec hready.ok hready.queue
  obtain ⟨rfl, rfl⟩ := Prod.mk.inj (Except.ok.inj (hconfl.symm.trans hrun))
  have hs := hp.sound hready.toSound
  obtain ⟨hlive, hfalse, hcur⟩ := hp.conflict cr rfl
  rcases analyze_spec (o := o) hp.ok hs.seen hpos hlive hfalse hcur with
    hdeep | ⟨p, qs, btlevel, lbd, db, hanalyze, hplace, hlearns⟩
  · exact absurd (hp.decisionLevel_lt hready has) (Nat.not_lt.mpr hdeep.le)
  refine ⟨p.neg, qs, btlevel, lbd, _, hanalyze, hlearns.btlevel_lt, hlearns.entails, fun q hq => ?_,
    hlearns.unknown hp.ok hp.watched fun m hm => hready.queue.lims m (hp.grown.trailLim ▸ hm), ?_⟩
  · refine hp.ok.trail.value_eq_false.mpr ?_
    rcases List.mem_cons.mp hq with rfl | hq
    · rw [neg_neg]
      exact hlearns.mem
    · exact (hlearns.false_below q hq).1
  · have hb := cancelUntil_spec o { s' with toClauseDb := db, seen := fun _ => false } btlevel
    have hlearns' : Learns F { s' with toClauseDb := db, seen := fun _ => false }.toState p qs
        btlevel :=
      ⟨hlearns.mem, hlearns.level, hlearns.false_below, hlearns.btlevel_lt, hlearns.btlevel_eq,
        hlearns.unit, hlearns.nodup, hlearns.entails⟩
    have hasserting := hlearns'.asserting (hp.ok.inPlace hplace) hb
    have hlevel : (Solver.cancelUntil o { s' with toClauseDb := db, seen := fun _ => false }
        btlevel).decisionLevel = btlevel := by
      rw [hb.toTrail]
      exact TrailOk.cut_decisionLevel hlearns.btlevel_lt.le
    refine ⟨hlevel, hasserting.undef, fun q hq => ?_, fun q hq => ?_⟩
    · have hok : TrailOk (Solver.cancelUntil o { s' with toClauseDb := db, seen := fun _ => false }
          btlevel).toTrail := by
        rw [hb.toTrail]
        exact hp.ok.trail.cut hlearns.btlevel_lt.le
      exact hok.value_eq_false.mpr (hasserting.false_of_mem q hq)
    · exact (hasserting.level q hq).trans hlevel

/-- The second turn, after propagation. -/
def conflicting : Solver := solverOf secondTurn.propagate secondTurn

theorem analyze_learns_conflicting :
    ∃ p qs btlevel lbd t, conflicting.analyze Options.default 1 = .ok (⟨p :: qs, btlevel, lbd⟩, t) ∧
      btlevel < conflicting.decisionLevel ∧
      Entails [[x₀, x₁], [x₀, x₁.neg]] (p :: qs) ∧
      (∀ q ∈ p :: qs, conflicting.value q = .l_False) ∧
      ¬ Known conflicting.toState (p :: qs).toFinset ∧
      (t.cancelUntil Options.default btlevel).decisionLevel = btlevel ∧
      (t.cancelUntil Options.default btlevel).value p = .l_Undef ∧
      (∀ q ∈ qs, (t.cancelUntil Options.default btlevel).value q = .l_False) ∧
      ∀ q, qs.head? = some q → (t.cancelUntil Options.default btlevel).level q.var = btlevel :=
  analyze_learns optionsOk_default searches_secondTurn List.nodup_nil
    (show secondTurn.propagate = .ok (some 1, conflicting) from rfl) (by decide)

end SymBreak.Glucose
