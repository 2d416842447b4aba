import SymBreak.Glucose.SearchTurn
import Mathlib.Data.Finset.Powerset
import Mathlib.Data.Finset.Prod
import Mathlib.Order.RelClasses

/-!
# The search ends

Every turn of the search brings down one of four numbers, and none that stands before it
(`Advance.decreases`):
* the reductions of the database that are still possible;
* the clauses over the variables that are not known;
* whether the queue of the restarts is full;
* the variables without a value.

The first is finite because between two reductions all conflicts are new clauses, of which there
are finitely many, and the number of conflicts up to the next reduction grows with `curRestart`. It
rests on `incReduceDB` being positive. So `search` and the loop of `solve_` return, from some fuel
on (`searchLoop_converges`, `solveLoop_converges`).
-/

namespace SymBreak.Glucose

open Cnf

/-! ## The measure -/

/-- The literals of the first `n` variables. -/
def literals (n : Nat) : Finset Lit :=
  (Finset.range n ×ˢ Finset.univ).image fun x => ⟨x.1, x.2⟩

theorem mem_literals {n : Nat} {q : Lit} (h : q.var < n) : q ∈ literals n := by
  refine Finset.mem_image.mpr ⟨(q.var, q.sign), ?_, rfl⟩
  exact Finset.mem_product.mpr ⟨Finset.mem_range.mpr h, Finset.mem_univ _⟩

open Classical in
/-- The number of clauses that are not known. -/
noncomputable def unknown (s : Solver) : Nat :=
  ((literals s.nVars).powerset.filter fun c => ¬ Known s.toState c).card

/-- The number of clauses. -/
def allClauses (n : Nat) : Nat := (literals n).powerset.card

/-- The reductions of the database that are still possible. -/
noncomputable def reductions (s : Solver) : Nat :=
  if s.conflicts + unknown s < s.curRestart * s.nbclausesbeforereduce then 0
  else 1 + (allClauses s.nVars - s.curRestart)

/-- What every turn brings down. -/
noncomputable def remaining (s : Solver) : Nat × Nat × Nat × Nat :=
  (reductions s, unknown s, (if s.lbdQueue.isvalid then 1 else 0), s.nVars - s.trail.length)

/-- The lexicographic order. -/
abbrev Before : Nat × Nat × Nat × Nat → Nat × Nat × Nat × Nat → Prop :=
  Prod.Lex (· < ·) (Prod.Lex (· < ·) (Prod.Lex (· < ·) (· < ·)))

theorem before_wf : WellFounded Before :=
  Nat.lt_wfRel.wf.prod_lex (Nat.lt_wfRel.wf.prod_lex (Nat.lt_wfRel.wf.prod_lex Nat.lt_wfRel.wf))

theorem lex_of_le {β : Type} {r : β → β → Prop} {a a' : Nat} {b b' : β} (ha : a' ≤ a)
    (hb : r b' b) : Prod.Lex (· < ·) r (a', b') (a, b) := by
  rcases Nat.lt_or_eq_of_le ha with h | rfl
  · exact .left _ _ h
  · exact .right _ hb

variable {F : Formula} {o : Options} {s s' : Solver}

theorem unknown_le (h : Keeps s.toState s'.toState) (hn : s'.nVars = s.nVars) :
    unknown s' ≤ unknown s := by
  classical
  unfold unknown
  rw [hn]
  refine Finset.card_le_card fun c hc => ?_
  obtain ⟨hmem, hno⟩ := Finset.mem_filter.mp hc
  exact Finset.mem_filter.mpr ⟨hmem, fun hk => hno (h c hk)⟩

theorem unknown_lt {c : Finset Lit} (h : Keeps s.toState s'.toState) (hn : s'.nVars = s.nVars)
    (hbelow : ∀ q ∈ c, q.var < s.nVars) (hnew : ¬ Known s.toState c)
    (hknown : Known s'.toState c) : unknown s' < unknown s := by
  classical
  unfold unknown
  rw [hn]
  refine Finset.card_lt_card ((Finset.ssubset_iff_of_subset fun d hd => ?_).mpr ⟨c, ?_, ?_⟩)
  · obtain ⟨hmem, hno⟩ := Finset.mem_filter.mp hd
    exact Finset.mem_filter.mpr ⟨hmem, fun hk => hno (h d hk)⟩
  · refine Finset.mem_filter.mpr ⟨Finset.mem_powerset.mpr fun q hq => ?_, hnew⟩
    exact mem_literals (hbelow q hq)
  · exact fun hc => (Finset.mem_filter.mp hc).2 hknown

theorem unknown_le_all (s : Solver) : unknown s ≤ allClauses s.nVars := by
  classical
  unfold unknown allClauses
  exact Finset.card_filter_le _ _

/-- Without a reduction, no more reductions become possible. -/
theorem reductions_le (h : SameEpoch s s') (hn : s'.nVars = s.nVars)
    (hle : s'.conflicts + unknown s' ≤ s.conflicts + unknown s) : reductions s' ≤ reductions s := by
  unfold reductions
  rw [hn, h.curRestart, h.nbclausesbeforereduce]
  split
  · exact Nat.zero_le _
  · rename_i hno
    rw [if_neg fun hlt => hno (Nat.lt_of_le_of_lt hle hlt)]

/-- **A reduction** leaves fewer of them, as the next one is due only after more conflicts. -/
theorem reductions_lt (hn : s'.nVars = s.nVars) (hnb : 0 < s.nbclausesbeforereduce)
    (hinc : 0 < o.incReduceDB) (hdue : s.curRestart * s.nbclausesbeforereduce ≤ s.conflicts)
    (hconflicts : s'.conflicts = s.conflicts)
    (hcur : s'.curRestart = s.conflicts / s.nbclausesbeforereduce + 1)
    (hnb' : s.nbclausesbeforereduce + o.incReduceDB ≤ s'.nbclausesbeforereduce) :
    reductions s' < reductions s := by
  have hlt : s.curRestart < s'.curRestart := by
    rw [hcur]
    exact Nat.lt_succ_of_le ((Nat.le_div_iff_mul_le hnb).mpr hdue)
  have hthreshold : s.conflicts + s'.curRestart < s'.curRestart * s'.nbclausesbeforereduce := by
    calc s.conflicts + s'.curRestart
        < s'.curRestart * s.nbclausesbeforereduce + s'.curRestart := by
          refine Nat.add_lt_add_right ?_ _
          rw [hcur]
          exact (Nat.div_lt_iff_lt_mul hnb).mp (Nat.lt_succ_self _)
      _ ≤ s'.curRestart * s.nbclausesbeforereduce + s'.curRestart * o.incReduceDB :=
          Nat.add_le_add_left (Nat.le_mul_of_pos_right _ hinc) _
      _ = s'.curRestart * (s.nbclausesbeforereduce + o.incReduceDB) := (Nat.mul_add _ _ _).symm
      _ ≤ s'.curRestart * s'.nbclausesbeforereduce := Nat.mul_le_mul_left _ hnb'
  have hall := unknown_le_all s'
  unfold reductions
  rw [if_neg (show ¬ s.conflicts + unknown s < s.curRestart * s.nbclausesbeforereduce by omega)]
  rw [hn] at hall ⊢
  split
  · omega
  · omega

/-- **Every turn brings the search on.** -/
theorem Advance.decreases (h : Advance o s s') (hn : s'.nVars = s.nVars)
    (hnb : 0 < s.nbclausesbeforereduce) (hinc : 0 < o.incReduceDB)
    (htrail : s'.trail.length ≤ s'.nVars) : Before (remaining s') (remaining s) := by
  cases h with
  | conflict epoch conflicts c below new known =>
    have hlt := unknown_lt epoch.keeps hn below new known
    exact lex_of_le (reductions_le epoch hn (by omega)) (.left _ _ hlt)
  | decision epoch conflicts lbdQueue trail =>
    have hle := unknown_le epoch.keeps hn
    refine lex_of_le (reductions_le epoch hn (by omega)) (lex_of_le hle ?_)
    rw [lbdQueue]
    exact .right _ (by omega)
  | reduction due conflicts curRestart nbclausesbeforereduce =>
    exact .left _ _ (reductions_lt hn hnb hinc due conflicts curRestart nbclausesbeforereduce)
  | restart epoch conflicts valid cleared =>
    have hle := unknown_le epoch.keeps hn
    refine lex_of_le (reductions_le epoch hn (by omega)) (lex_of_le hle (.left _ _ ?_))
    rw [valid, cleared]
    exact Nat.one_pos

/-! ## The loops -/

theorem Answered.trans {s'' : Solver} {status : LBool} (hsame : Same s s')
    (hconflict : s'.conflict = s.conflict) (h : Answered F s' status s'') :
    Answered F s status s'' := by
  cases h with
  | restart ready same conflict =>
    exact .restart ready (hsame.trans same) (conflict.trans hconflict)
  | model running same assigned queue assumed =>
    exact .model running (hsame.trans same) assigned queue assumed
  | unsat same conflict unsat => exact .unsat (hsame.trans same) (conflict.trans hconflict) unsat
  | falsified running same conflict entails neg =>
    exact .falsified running (hsame.trans same) conflict entails neg

/-- Counting the turn. -/
theorem Ready.countTurn (h : Ready F s) : Ready F { s with turns := s.turns + 1 } :=
  ⟨⟨h.setControl ⟨h.control.lbd, h.control.reduce⟩, h.okay, h.assume⟩, h.lims⟩

/-- What a call of `search` or `solve_` can end with, under the assumptions `as`. -/
def Ends (as : List Lit) (P : LBool → Solver → Prop) (r : Result (LBool × Solver)) : Prop :=
  (∃ e, Fails as e ∧ r = .error e) ∨ ∃ status s', r = .ok (status, s') ∧ P status s'

theorem Ends.mono {as : List Lit} {P Q : LBool → Solver → Prop} {r : Result (LBool × Solver)}
    (h : Ends as P r) (hPQ : ∀ status s', P status s' → Q status s') : Ends as Q r := by
  rcases h with h | ⟨status, s', h, hP⟩
  · exact Or.inl h
  · exact Or.inr ⟨status, s', h, hPQ status s' hP⟩

/-- **`search` ends**, by induction on what is left to do. -/
theorem searchLoop_converges (choices : Nat → Choice) (hinc : 0 < o.incReduceDB) (h : Ready F s) :
    ∃ r, Converges (fun fuel => Solver.searchLoop o choices fuel s) r ∧
      Ends s.assumptions (fun status s' => Answered F s status s' ∧
        (status = .l_Undef → Before (remaining s') (remaining s))) r := by
  generalize hm : remaining s = m
  induction m using before_wf.induction generalizing s with
  | _ m ih =>
    subst hm
    have hturn : Same s { s with turns := s.turns + 1 } := ⟨rfl, rfl, rfl, rfl, rfl, rfl⟩
    have hdecr : ∀ {s' : Solver}, Ready F s' → Same { s with turns := s.turns + 1 } s' →
        Advance o { s with turns := s.turns + 1 } s' → Before (remaining s') (remaining s) :=
      fun hready hsame hadv => hadv.decreases hsame.nVars h.control.reduce hinc
        hready.ok.trail.length_le
    rcases turn_spec h.countTurn o (choices s.turns) with ⟨e, he, hrun⟩ | ⟨out, hrun, hout⟩
    · refine ⟨.error e, Converges.succ (Converges.of_eq fun fuel => ?_), Or.inl ⟨e, he, rfl⟩⟩
      unfold Solver.searchLoop
      rw [hrun]
      rfl
    · cases hout with
      | @continues s' ready same conflict advance =>
        have hlt := hdecr ready same advance
        obtain ⟨r, hr, hends⟩ := ih (remaining s') hlt ready rfl
        rw [(hturn.trans same).assumptions] at hends
        refine ⟨r, Converges.succ (Converges.congr (fun fuel => ?_) hr),
          hends.mono fun status t ht => ⟨Answered.trans (hturn.trans same) conflict ht.1, fun hst =>
            trans_of Before (ht.2 hst) hlt⟩⟩
        conv_rhs => unfold Solver.searchLoop
        rw [hrun]
        rfl
      | @returns status s' answered advance =>
        refine ⟨.ok (status, s'), Converges.succ (Converges.of_eq fun fuel => ?_),
          Or.inr ⟨status, s', rfl, ?_, fun hst => ?_⟩⟩
        · unfold Solver.searchLoop
          rw [hrun]
          rfl
        · exact Answered.trans hturn rfl answered
        · have hadv := advance hst
          subst hst
          cases answered with
          | restart ready same conflict => exact hdecr ready same hadv

/-- **The loop of `solve_` ends**: it stops without an answer only when the budget is used up. -/
theorem solveLoop_converges (choices : Nat → Choice) (hinc : 0 < o.incReduceDB) (h : Ready F s) :
    ∃ r, (∃ N, ∀ fuel n, N ≤ fuel → N ≤ n → Solver.solveLoop o choices fuel n s = r) ∧
      Ends s.assumptions (fun status s' => Answered F s status s' ∧
        (status = .l_Undef → s'.withinBudget = false)) r := by
  generalize hm : remaining s = m
  induction m using before_wf.induction generalizing s with
  | _ m ih =>
    subst hm
    obtain ⟨r, ⟨N, hN⟩, hends⟩ := searchLoop_converges choices hinc h
    have hstep : ∀ fuel n, N ≤ fuel → Solver.solveLoop o choices fuel (n + 1) s =
        r >>= fun x => if !x.2.withinBudget then .ok x
          else if x.1 = .l_Undef then Solver.solveLoop o choices fuel n x.2
          else .ok x := by
      intro fuel n hfuel
      conv_lhs => unfold Solver.solveLoop Solver.search
      rw [h.okay, ← hN fuel hfuel]
      rfl
    -- from some fuel on, the loop has the result of its next turns
    have hconverges : ∀ r', (∃ M, ∀ fuel n, M ≤ fuel → M ≤ n →
          (r >>= fun x => if !x.2.withinBudget then .ok x
            else if x.1 = .l_Undef then Solver.solveLoop o choices fuel n x.2
            else .ok x) = r') →
        ∃ N, ∀ fuel n, N ≤ fuel → N ≤ n → Solver.solveLoop o choices fuel n s = r' := by
      rintro r' ⟨M, hM⟩
      refine ⟨max N M + 1, fun fuel n hfuel hn => ?_⟩
      cases n with
      | zero => exact absurd hn (Nat.not_succ_le_zero _)
      | succ n =>
        rw [hstep fuel n (by omega)]
        exact hM fuel n (by omega) (by omega)
    rcases hends with ⟨e, he, rfl⟩ | ⟨status, s', rfl, hans, hdecr⟩
    · exact ⟨_, hconverges _ ⟨0, fun _ _ _ _ => rfl⟩, Or.inl ⟨e, he, rfl⟩⟩
    · simp only [ok_bind] at hconverges
      by_cases hbudget : s'.withinBudget = false
      · refine ⟨.ok (status, s'), hconverges _ ⟨0, fun _ _ _ _ => ?_⟩,
          Or.inr ⟨status, s', rfl, hans, fun _ => hbudget⟩⟩
        simp [hbudget]
      · by_cases hst : status = .l_Undef
        · obtain ⟨hready, hsame⟩ : Ready F s' ∧ Same s s' := by
            subst hst
            cases hans with
            | restart ready same conflict => exact ⟨ready, same⟩
          obtain ⟨r', ⟨M, hM⟩, hends'⟩ := ih (remaining s') (hdecr hst) hready rfl
          rw [hsame.assumptions] at hends'
          refine ⟨r', hconverges _ ⟨M, fun fuel n hfuel hn => ?_⟩, hends'.mono fun status' t ht =>
            ⟨?_, ht.2⟩⟩
          · simp only [hbudget, Bool.not_eq_true', hst, if_true]
            exact hM fuel n hfuel hn
          · subst hst
            cases hans with
            | restart ready same conflict => exact Answered.trans same conflict ht.1
        · refine ⟨.ok (status, s'), hconverges _ ⟨0, fun _ _ _ _ => ?_⟩,
            Or.inr ⟨status, s', rfl, hans, fun h => absurd h hst⟩⟩
          simp [hbudget, hst]

end SymBreak.Glucose
