import SymBreak.Glucose.UnitPropagation

/-!
# Conflict analysis

Model of the loop of `analyze` (`core/Solver.cc`): from the clause in conflict back along the trail,
each literal of the current level that was seen is replaced by the other literals of its reason,
until one is left, the first unique implication point. The turn of the loop is rotated: it starts
where the source looks for the next literal that was seen.

**`analyzeLoop_spec`**: no assertion fails, the clause that is left is entailed by the clauses that
were added, and its literals are false, all but the asserting one at lower levels. The one way in
which it can fail is `TooDeep`: a level is marked in `permDiff` that it has no entry for.
-/

namespace SymBreak.Glucose

open Cnf

/-- The variables of `analyze`: `outLearnt` is `out_learnt` from position 1 on. -/
structure Analysis extends State where
  seen : Var → Bool
  outLearnt : List Lit
  pathC : Nat

namespace State

/-- The clause with its first two literals exchanged. -/
def swapClause (s : State) (cr : CRef) : State := s.setClause cr (s.ca cr).swap

/-- The first literal of a binary reason has to be true (`Solver.cc:523-528`). -/
def orient (s : State) (cr : CRef) : Result State :=
  let c := s.ca cr
  if c.size = 2 ∧ s.value (c.get 0) = .l_False then
    if s.value (c.get 1) ≠ .l_True then .error (.raised (.assertion "value(c[1])==l_True"))
    else .ok (s.swapClause cr)
  else .ok s

/-- The LBD of a learnt clause is improved (`Solver.cc:535-544`). -/
def updateLBD (o : Options) (s : State) (cr : CRef) : Result State :=
  let c := s.ca cr
  if c.learnt = true ∧ 2 < c.lbd then do
    let nblevels ← s.computeLBD c.lits
    .ok (if nblevels + 1 < c.lbd then
        s.setClause cr { c with
          canBeDel := if c.lbd ≤ o.lbLBDFrozenClause then false else c.canBeDel
          lbd := nblevels }
      else s)
  else .ok s

end State

namespace Analysis

variable (o : Options)

/-- A turn of the loop over the literals of a clause (`Solver.cc:548-571`). -/
def visitLit (a : Analysis) (q : Lit) : Analysis :=
  if a.seen q.var = false ∧ 0 < a.level q.var then
    let a := { a with seen := Function.update a.seen q.var true }
    if a.decisionLevel ≤ a.level q.var then { a with pathC := a.pathC + 1 }
    else { a with outLearnt := a.outLearnt ++ [q] }
  else a

/-- The literals of the clause in conflict, or those that imply `p` (`Solver.cc:518-571`). -/
def resolve (a : Analysis) (confl : Option CRef) (p : Option Lit) : Result Analysis :=
  match confl with
  | none => .error (.raised (.assertion "confl != CRef_Undef"))
  | some cr => do
    let s ← if p.isSome then a.toState.orient cr else .ok a.toState
    let s ← s.updateLBD o cr
    let j := if p.isSome then 1 else 0
    .ok (((s.ca cr).lits.drop j).foldl visitLit { a with toState := s })

/-- The loop of `analyze` (`Solver.cc:573-580`, then `518-571`) from position `index` down. -/
def analyzeLoop : Nat → Analysis → Result (Lit × Analysis)
  | 0, _ => .error (.raised .outOfRange)
  | index + 1, a =>
    match a.trail[index]? with
    | none => .error (.raised .outOfRange)
    | some p =>
      if a.seen p.var = true then
        let a := { a with seen := Function.update a.seen p.var false, pathC := a.pathC - 1 }
        if a.pathC = 0 then .ok (p, a)
        else do
          let a ← a.resolve o (a.reason p.var) (some p)
          analyzeLoop index a
      else analyzeLoop index a

end Analysis

/-! ## Levels -/

/-- A computation failed at a level that `permDiff` has no entry for, and there are such levels. -/
structure TooDeep {α : Type} (t : Trail) (r : Result α) : Prop where
  le : t.nVars ≤ t.decisionLevel
  error : r = .error (.raised .outOfRange)

theorem TooDeep.bind {α β : Type} {t : Trail} {r : Result α} (h : TooDeep t r)
    {f : α → Result β} : TooDeep t (r >>= f) :=
  ⟨h.le, by rw [h.error]; rfl⟩

variable {F : Formula} {s : State} {a : Analysis} {p q : Lit} {cr : CRef} {n : Nat}

/-- **`computeLBD`** returns, unless it meets a level that is not smaller than the number of
variables. -/
theorem computeLBD_spec {lits : List Lit}
    (hlevel : ∀ q ∈ lits, s.level q.var ≤ s.decisionLevel) :
    TooDeep s.toTrail (s.computeLBD lits) ∨ ∃ nblevels, s.computeLBD lits = .ok nblevels := by
  have key : ∀ (lits : List Lit) (m : (Nat → Bool) × Nat),
      (∀ q ∈ lits, s.level q.var ≤ s.decisionLevel) →
      TooDeep s.toTrail (lits.foldlM s.markLevel m) ∨
        ∃ m', lits.foldlM s.markLevel m = .ok m' := by
    intro lits
    induction lits with
    | nil => exact fun m _ => Or.inr ⟨m, rfl⟩
    | cons q lits ih =>
      intro m hlevel
      obtain ⟨hq, hlits⟩ := List.forall_mem_cons.mp hlevel
      rw [List.foldlM_cons]
      unfold State.markLevel
      simp only []
      split
      · rename_i hle
        exact Or.inl ⟨hle.trans hq, rfl⟩
      · split
        · exact ih m hlits
        · exact ih _ hlits
  rcases key lits _ hlevel with hdeep | ⟨m, hrun⟩
  · exact Or.inl hdeep.bind
  · exact Or.inr ⟨m.2, by rw [State.computeLBD, hrun]; rfl⟩

/-! ## Reordering -/

theorem InPlace.trans {db db' : ClauseDb} (h : InPlace s db)
    (h' : InPlace { s with toClauseDb := db } db') : InPlace s db' where
  toReordered := h.toReordered.trans h'.toReordered
  watches := h'.watches.trans h.watches
  watchesBin := h'.watchesBin.trans h.watchesBin
  lists := ⟨h'.lists.1.trans h.lists.1, h'.lists.2.trans h.lists.2⟩
  first cr hsize hmem := by
    have hsize' : (db.ca cr).size ≠ 2 := h'.size cr ▸ hsize
    have heq := h.first cr hsize' hmem
    exact (h'.first cr hsize (by rw [heq]; exact hmem)).trans heq

theorem StateOk.inPlace (h : StateOk F s) {db : ClauseDb} (hdb : InPlace s db) :
    StateOk F { s with toClauseDb := db } :=
  h.permute hdb.toPermuted (h.db.reorder hdb.toReordered hdb.watches hdb.watchesBin) hdb.first

theorem State.eq_of_toTrail {s s' : State} (h : s'.toTrail = s.toTrail) :
    s' = { s with toClauseDb := s'.toClauseDb } := by
  obtain ⟨t, db⟩ := s'
  obtain rfl : t = s.toTrail := h
  rfl

/-- Only what is not a literal of the clause changes. -/
theorem InPlace.meta {c : Clause} (hlits : c.lits = (s.ca cr).lits)
    (hmark : c.mark = (s.ca cr).mark) (hlearnt : c.learnt = (s.ca cr).learnt) :
    InPlace s (s.setClause cr c).toClauseDb :=
  InPlace.set (List.Perm.of_eq hlits) (List.Perm.of_eq (by rw [hlits])) hmark hlearnt
    fun _ _ => by rw [Clause.get, hlits, Clause.get]

theorem updateLBD_inPlace (o : Options) (hlevel : ∀ q ∈ (s.ca cr).lits,
    s.level q.var ≤ s.decisionLevel) :
    TooDeep s.toTrail (s.updateLBD o cr) ∨
      ∃ s', s.updateLBD o cr = .ok s' ∧ InPlace s s'.toClauseDb ∧ s'.toTrail = s.toTrail ∧
        (s'.ca cr).lits = (s.ca cr).lits := by
  unfold State.updateLBD
  simp only []
  split
  · rcases computeLBD_spec hlevel with hdeep | ⟨nblevels, hrun⟩
    · exact Or.inl hdeep.bind
    · rw [hrun, ok_bind]
      refine Or.inr ⟨_, rfl, ?_⟩
      split
      · refine ⟨InPlace.meta rfl rfl rfl, rfl, ?_⟩
        simp [State.setClause]
      · exact ⟨InPlace.refl s, rfl, rfl⟩
  · exact Or.inr ⟨s, rfl, InPlace.refl s, rfl, rfl⟩

theorem Clause.lits_cons {c : Clause} (h : 2 ≤ c.size) : c.lits = c.get 0 :: c.lits.drop 1 := by
  conv_rhs => rw [Clause.lits_eq h]
  exact Clause.lits_eq h

/-- A clause of two literals. -/
theorem lits_eq_pair {c : Clause} (h : c.size = 2) : c.lits = [c.get 0, c.get 1] := by
  have hdrop : c.lits.drop 2 = [] := List.drop_eq_nil_of_le h.le
  rw [← hdrop]
  exact Clause.lits_eq h.ge

theorem swap_lits {c : Clause} (h : c.size = 2) : c.swap.lits = [c.get 1, c.get 0] := by
  show (c.lits.set 0 (c.get 1)).set 1 (c.get 0) = _
  rw [lits_eq_pair h]
  rfl

/-- **The clause that implied `p`** has `p` in first place. -/
theorem orient_spec (hok : StateOk F s) (hlive : s.Live cr) (hp : p ∈ s.trail)
    {i : Nat} (hr : IsReason s.toTrail (s.ca cr) i p) :
    ∃ s', s.orient cr = .ok s' ∧ InPlace s s'.toClauseDb ∧ s'.toTrail = s.toTrail ∧
      (s'.ca cr).get 0 = p := by
  have hsize := hok.db.size cr hlive.1
  have hfalse : ∀ q ∈ (s.ca cr).lits, q ≠ p → s.value q = .l_False := fun q hq hne =>
    hok.trail.value_eq_false.mpr (List.mem_of_mem_take (hr.false_before q hq hne))
  have htrue : s.value p = .l_True := (hok.trail.value p).mpr hp
  unfold State.orient
  simp only []
  by_cases htwo : (s.ca cr).size = 2
  · have hne := Clause.get_ne hsize (hok.db.nodup cr hlive.1)
    have hmem := hr.mem
    have hlits := lits_eq_pair htwo
    rw [hlits] at hmem
    rcases List.mem_cons.mp hmem with hp0 | hp1
    · -- the true literal is the first one
      rw [if_neg (fun h => by rw [← hp0, htrue] at h; exact absurd h.2 (by simp))]
      exact ⟨s, rfl, InPlace.refl s, rfl, hp0.symm⟩
    · rw [List.mem_singleton] at hp1
      have h0 : s.value ((s.ca cr).get 0) = .l_False :=
        hfalse _ (by rw [hlits]; exact List.mem_cons_self) (by rw [hp1]; exact hne)
      rw [if_pos ⟨htwo, h0⟩, if_neg (not_not.mpr (by rw [← hp1]; exact htrue))]
      have hswap : (s.ca cr).swap.lits.Perm (s.ca cr).lits := by
        rw [swap_lits htwo, hlits]
        exact List.Perm.swap _ _ _
      refine ⟨_, rfl, InPlace.set hswap ?_ rfl rfl fun hno => ?_, rfl, ?_⟩
      · rw [swap_lits htwo, hlits]
        exact List.Perm.swap _ _ _
      · exact absurd (hswap.length_eq.trans htwo) hno
      · simp only [State.swapClause, State.setClause, Function.update_self]
        rw [Clause.get, swap_lits htwo, hp1]
        rfl
  · rw [if_neg (fun h => htwo h.1)]
    exact ⟨s, rfl, InPlace.refl s, rfl, hr.first htwo⟩

/-! ## Counting -/

theorem update_mono (seen : Var → Bool) (x y : Var) (hy : seen y = true) :
    Function.update seen x true y = true := by
  rw [Function.update_apply]
  split
  · rfl
  · exact hy

/-- One more variable is marked. -/
theorem countP_mark {l : List Lit} {seen : Var → Bool} {P : Lit → Bool}
    (hnodup : (l.map Lit.var).Nodup) (hq : q ∈ l) (hseen : seen q.var = false) (hP : P q = true) :
    l.countP (fun r => Function.update seen q.var true r.var && P r) =
      l.countP (fun r => seen r.var && P r) + 1 := by
  induction l with
  | nil => exact absurd hq List.not_mem_nil
  | cons r l ih =>
    rw [List.map_cons, List.nodup_cons] at hnodup
    have hrest : ∀ x ∈ l, x.var = r.var → False := fun x hx hxr =>
      hnodup.1 (hxr ▸ List.mem_map_of_mem hx)
    rw [List.countP_cons, List.countP_cons]
    rcases List.mem_cons.mp hq with rfl | hq
    · have heq : l.countP (fun r => Function.update seen q.var true r.var && P r) =
          l.countP (fun r => seen r.var && P r) := by
        refine List.countP_congr fun x hx => ?_
        rw [Function.update_of_ne (fun h => hrest x hx h)]
      rw [heq]
      simp [hseen, hP]
    · have hne : r.var ≠ q.var := fun h => hrest q hq h.symm
      rw [ih hnodup.2 hq, Function.update_of_ne hne]
      omega

/-- Marking a variable that is not counted. -/
theorem countP_mark_of_not {l : List Lit} {seen : Var → Bool} {P : Lit → Bool} {x : Var} {b : Bool}
    (h : ∀ r ∈ l, r.var = x → P r = false) :
    l.countP (fun r => Function.update seen x b r.var && P r) =
      l.countP (fun r => seen r.var && P r) := by
  refine List.countP_congr fun r hr => ?_
  by_cases hx : r.var = x
  · simp [h r hr hx]
  · rw [Function.update_of_ne hx]

/-! ## The invariant of the loop -/

/-- `q` is false at level 0, or by a literal that was resolved (`R`) or is marked. -/
def Covered (a : Analysis) (R : Lit → Prop) (q : Lit) : Prop :=
  q.neg ∈ a.trail ∧ (a.level q.var = 0 ∨ R q.neg ∨ a.seen q.var = true)

/-- What holds when the positions from `n` on have been looked at. The literals of `R` were taken
off, and those of `T` replaced by the other literals of an entailed clause. -/
structure Analyzing (F : Formula) (a : Analysis) (n : Nat) (R T : Lit → Prop) : Prop where
  ok : StateOk F a.toState
  le : n ≤ a.trail.length
  seen : ∀ x, a.seen x = true → ∃ i q, a.trail[i]? = some q ∧ q.var = x ∧ 0 < a.level x ∧
    (a.level x = a.decisionLevel → i < n)
  learnt : ∀ q, q ∈ a.outLearnt ↔
    q.neg ∈ a.trail ∧ a.seen q.var = true ∧ a.level q.var < a.decisionLevel
  nodup : (a.outLearnt.map Lit.var).Nodup
  pathC : a.pathC = (a.trail.take n).countP fun q =>
    a.seen q.var && decide (a.level q.var = a.decisionLevel)
  closed : ∀ p, T p → ∃ c, Entails F c ∧ ∀ q ∈ c, q ≠ p →
    Covered a R q ∧ ∀ i, a.trail[i]? = some p → q.neg ∈ a.trail.take i

variable {R T : Lit → Prop} {o : Options}

theorem Covered.mono {b : Analysis} (h : Covered a R q) (htrail : b.toTrail = a.toTrail)
    (hseen : ∀ x, a.seen x = true → b.seen x = true) : Covered b R q := by
  unfold Covered
  rw [htrail]
  exact ⟨h.1, h.2.imp_right (Or.imp_right (hseen q.var))⟩

/-- Only the order of the clauses changes. -/
theorem Analyzing.inPlace (h : Analyzing F a n R T) {s : State}
    (hs : InPlace a.toState s.toClauseDb) (htrail : s.toTrail = a.toTrail) :
    Analyzing F { a with toState := s } n R T := by
  obtain ⟨t, db⟩ := s
  obtain rfl : t = a.toTrail := htrail
  exact ⟨h.ok.inPlace hs, h.le, h.seen, h.learnt, h.nodup, h.pathC, h.closed⟩

/-- The marks with one more. -/
theorem Analyzing.mark_seen (h : Analyzing F a n R T) (hq : q.neg ∈ a.trail)
    (hn : a.level q.var = a.decisionLevel → q.neg ∈ a.trail.take n) (hpos : 0 < a.level q.var)
    {x : Var} (hx : Function.update a.seen q.var true x = true) :
    ∃ i r, a.trail[i]? = some r ∧ r.var = x ∧ 0 < a.level x ∧
      (a.level x = a.decisionLevel → i < n) := by
  rw [Function.update_apply] at hx
  split at hx
  · rename_i heq
    subst heq
    obtain ⟨i, hi⟩ := List.mem_iff_getElem?.mp hq
    exact ⟨i, q.neg, hi, rfl, hpos, fun hl => (h.ok.trail.mem_take_iff_lt hi).mp (hn hl)⟩
  · exact h.seen x hx

theorem Analyzing.mark_closed (h : Analyzing F a n R T) (x : Var) (p : Lit) (hp : T p) :
    ∃ c, Entails F c ∧ ∀ r ∈ c, r ≠ p →
      (r.neg ∈ a.trail ∧ (a.level r.var = 0 ∨ R r.neg ∨
        Function.update a.seen x true r.var = true)) ∧
      ∀ i, a.trail[i]? = some p → r.neg ∈ a.trail.take i := by
  obtain ⟨c, hc, hcov⟩ := h.closed p hp
  refine ⟨c, hc, fun r hr hne => ?_⟩
  obtain ⟨⟨hmem, hcase⟩, htake⟩ := hcov r hr hne
  exact ⟨⟨hmem, hcase.imp_right (Or.imp_right (update_mono a.seen x r.var))⟩, htake⟩

/-- One more literal of the current level to resolve. -/
theorem Analyzing.count (h : Analyzing F a n R T) (hn : q.neg ∈ a.trail.take n)
    (hseen : a.seen q.var = false) (hpos : 0 < a.level q.var)
    (hl : a.level q.var = a.decisionLevel) :
    Analyzing F { a with
      seen := Function.update a.seen q.var true, pathC := a.pathC + 1 } n R T := by
  refine ⟨h.ok, h.le, fun x => h.mark_seen (List.mem_of_mem_take hn) (fun _ => hn) hpos,
    fun r => ?_, h.nodup, ?_, h.mark_closed q.var⟩
  · rw [h.learnt]
    refine and_congr_right fun hr => ?_
    by_cases hrq : r.var = q.var
    · simp only [hrq]
      exact ⟨fun hlt => absurd hl (Nat.ne_of_lt hlt.2),
        fun hlt => absurd hl (Nat.ne_of_lt hlt.2)⟩
    · simp only [Function.update_of_ne hrq]
  · have hnd : ((a.trail.take n).map Lit.var).Nodup :=
      h.ok.trail.nodup.sublist ((List.take_sublist _ _).map _)
    have := countP_mark (q := q.neg) (P := fun r => decide (a.level r.var = a.decisionLevel))
      hnd hn hseen (decide_eq_true hl)
    simp only [h.pathC]
    exact this.symm

/-- One more literal of the learnt clause, of a lower level. -/
theorem Analyzing.learn (h : Analyzing F a n R T) (hq : q.neg ∈ a.trail)
    (hseen : a.seen q.var = false) (hpos : 0 < a.level q.var)
    (hl : a.level q.var < a.decisionLevel) :
    Analyzing F { a with
      seen := Function.update a.seen q.var true, outLearnt := a.outLearnt ++ [q] } n R T := by
  refine ⟨h.ok, h.le, fun x => h.mark_seen hq (fun heq => absurd heq (Nat.ne_of_lt hl)) hpos,
    fun r => ?_, ?_, ?_, h.mark_closed q.var⟩
  · rw [List.mem_append, List.mem_singleton, h.learnt]
    by_cases hrq : r.var = q.var
    · simp only [hrq, hseen, Bool.false_eq_true, false_and, and_false, false_or,
        Function.update_self, true_and]
      refine ⟨fun heq => ⟨by rw [heq]; exact hq, hl⟩, fun ⟨hr, _⟩ => ?_⟩
      exact neg_inj.mp (h.ok.trail.eq_of_var_eq hr hq hrq)
    · simp only [Function.update_of_ne hrq]
      exact ⟨fun hr => hr.resolve_right fun heq => hrq (heq ▸ rfl), Or.inl⟩
  · rw [List.map_append]
    refine h.nodup.append (List.nodup_singleton _) (List.disjoint_singleton.mpr fun hmem => ?_)
    obtain ⟨r, hr, hrq⟩ := List.mem_map.mp hmem
    have := ((h.learnt r).mp hr).2.1
    rw [hrq, hseen] at this
    exact absurd this Bool.false_ne_true
  · simp only [h.pathC]
    refine (countP_mark_of_not fun r _ hr => ?_).symm
    simp only [hr, decide_eq_false_iff_not]
    exact Nat.ne_of_lt hl

/-- **A literal is visited** that is false, before position `n` if it is of the current level. -/
theorem Analyzing.visitLit (h : Analyzing F a n R T) (hq : q.neg ∈ a.trail)
    (hn : a.level q.var = a.decisionLevel → q.neg ∈ a.trail.take n) :
    Analyzing F (a.visitLit q) n R T ∧ Covered (a.visitLit q) R q ∧
      (a.visitLit q).toState = a.toState ∧
      ∀ x, a.seen x = true → (a.visitLit q).seen x = true := by
  unfold Analysis.visitLit
  by_cases hnew : a.seen q.var = false ∧ 0 < a.level q.var
  · have hle : a.level q.neg.var ≤ a.decisionLevel := h.ok.trail.level_le hq
    rw [if_pos hnew]
    simp only []
    by_cases hcur : a.decisionLevel ≤ a.level q.var
    · have hl : a.level q.var = a.decisionLevel := Nat.le_antisymm hle hcur
      rw [if_pos hcur]
      exact ⟨h.count (hn hl) hnew.1 hnew.2 hl, ⟨hq, Or.inr (Or.inr (Function.update_self ..))⟩,
        rfl, update_mono a.seen q.var⟩
    · rw [if_neg hcur]
      exact ⟨h.learn hq hnew.1 hnew.2 (Nat.lt_of_not_le hcur),
        ⟨hq, Or.inr (Or.inr (Function.update_self ..))⟩, rfl, update_mono a.seen q.var⟩
  · rw [if_neg hnew]
    refine ⟨h, ⟨hq, ?_⟩, rfl, fun _ hx => hx⟩
    by_cases hseen : a.seen q.var = true
    · exact Or.inr (Or.inr hseen)
    · exact Or.inl (Nat.le_zero.mp (Nat.le_of_not_lt fun hpos =>
        hnew ⟨eq_false_of_ne_true hseen, hpos⟩))

/-- The literals of a clause are visited. -/
theorem Analyzing.visitLits : ∀ (qs : List Lit) {a : Analysis}, Analyzing F a n R T →
    (∀ q ∈ qs, q.neg ∈ a.trail ∧ (a.level q.var = a.decisionLevel → q.neg ∈ a.trail.take n)) →
    Analyzing F (qs.foldl Analysis.visitLit a) n R T ∧
      (∀ q ∈ qs, Covered (qs.foldl Analysis.visitLit a) R q) ∧
      (qs.foldl Analysis.visitLit a).toState = a.toState ∧
      ∀ x, a.seen x = true → (qs.foldl Analysis.visitLit a).seen x = true := by
  intro qs
  induction qs with
  | nil => exact fun h _ => ⟨h, fun q hq => absurd hq List.not_mem_nil, rfl, fun _ hx => hx⟩
  | cons q qs ih =>
    intro a h hfalse
    obtain ⟨⟨hq, hn⟩, hqs⟩ := List.forall_mem_cons.mp hfalse
    obtain ⟨h', hcov, hstate, hmono⟩ := h.visitLit hq hn
    obtain ⟨h'', hcov', hstate', hmono'⟩ := ih h' (by rw [hstate]; exact hqs)
    refine ⟨h'', List.forall_mem_cons.mpr ⟨?_, hcov'⟩, hstate'.trans hstate,
      fun x hx => hmono' x (hmono x hx)⟩
    exact hcov.mono (congrArg State.toTrail hstate') hmono'

/-! ## The loop -/

/-- What the loop of `analyze` returns on a conflict in `s`: the clause of `p.neg` and `outLearnt`
is entailed, `p` is the last literal of the current level in the way, and the others are false at
lower levels. -/
structure Analyzed (F : Formula) (s : State) (p : Lit) (a : Analysis) : Prop where
  inPlace : InPlace s a.toClauseDb
  trail : a.toTrail = s.toTrail
  ok : StateOk F a.toState
  mem : p ∈ s.trail
  level : s.level p.var = s.decisionLevel
  learnt : ∀ q ∈ a.outLearnt,
    q.neg ∈ s.trail ∧ 0 < s.level q.var ∧ s.level q.var < s.decisionLevel
  nodup : (a.outLearnt.map Lit.var).Nodup
  seen : ∀ x, a.seen x = true ↔ x ∈ a.outLearnt.map Lit.var
  entails : Entails F (p.neg :: a.outLearnt)

/-- A literal of the current level that was seen lies before `n`. -/
theorem Analyzing.exists_seen (h : Analyzing F a n R T) (hpos : 0 < a.pathC) :
    ∃ i q, i < n ∧ a.trail[i]? = some q ∧ a.seen q.var = true ∧
      a.level q.var = a.decisionLevel := by
  rw [h.pathC, List.countP_pos_iff] at hpos
  obtain ⟨q, hq, hP⟩ := hpos
  obtain ⟨i, hi, hiq⟩ := mem_take_iff.mp hq
  simp only [Bool.and_eq_true, decide_eq_true_eq] at hP
  exact ⟨i, q, hi, hiq, hP.1, hP.2⟩

/-- A position with a literal that was not seen is passed over. -/
theorem Analyzing.skip (h : Analyzing F a (n + 1) R T) (hp : a.trail[n]? = some p)
    (hseen : a.seen p.var ≠ true) : Analyzing F a n R T := by
  refine ⟨h.ok, (Nat.le_succ n).trans h.le, fun x hx => ?_, h.learnt, h.nodup, ?_, h.closed⟩
  · obtain ⟨i, q, hi, hqx, hpos, hcur⟩ := h.seen x hx
    refine ⟨i, q, hi, hqx, hpos, fun hl => ?_⟩
    rcases Nat.lt_succ_iff_lt_or_eq.mp (hcur hl) with hlt | rfl
    · exact hlt
    · obtain rfl := Option.some.inj (hi.symm.trans hp)
      exact absurd (hqx ▸ hx) hseen
  · rw [h.pathC, List.take_add_one, hp, List.countP_append]
    simp [hseen]

/-- A literal that is covered stays so when one is taken off. -/
theorem Covered.takeOff (h : Covered a R q) (hok : TrailOk a.toTrail) (hp : p ∈ a.trail) :
    Covered { a with seen := Function.update a.seen p.var false, pathC := a.pathC - 1 }
      (fun r => R r ∨ r = p) q := by
  obtain ⟨hq, hcase⟩ := h
  refine ⟨hq, ?_⟩
  by_cases hqp : q.var = p.var
  · exact Or.inr (Or.inl (Or.inr (hok.eq_of_var_eq hq hp hqp)))
  · simp only [Function.update_of_ne hqp]
    exact hcase.imp_right (Or.imp_left Or.inl)

/-- **A literal is taken off**: its mark is cleared. -/
theorem Analyzing.takeOff (h : Analyzing F a (n + 1) R R) (hp : a.trail[n]? = some p)
    (hseen : a.seen p.var = true) (hlevel : a.level p.var = a.decisionLevel) :
    Analyzing F { a with seen := Function.update a.seen p.var false, pathC := a.pathC - 1 } n
      (fun r => R r ∨ r = p) R := by
  have hmem := List.mem_of_getElem? hp
  have hseen' : ∀ x, Function.update a.seen p.var false x = true →
      x ≠ p.var ∧ a.seen x = true := by
    intro x hx
    rw [Function.update_apply] at hx
    split at hx
    · exact absurd hx Bool.false_ne_true
    · exact ⟨‹_›, hx⟩
  refine ⟨h.ok, (Nat.le_succ n).trans h.le, fun x hx => ?_, fun q => ?_, h.nodup, ?_,
    fun r hr => ?_⟩
  · obtain ⟨hxp, hx⟩ := hseen' x hx
    obtain ⟨i, q, hi, hqx, hpos, hcur⟩ := h.seen x hx
    refine ⟨i, q, hi, hqx, hpos, fun hl => ?_⟩
    rcases Nat.lt_succ_iff_lt_or_eq.mp (hcur hl) with hlt | rfl
    · exact hlt
    · obtain rfl := Option.some.inj (hi.symm.trans hp)
      exact absurd hqx.symm hxp
  · rw [h.learnt]
    refine and_congr_right fun _ => ?_
    by_cases hqp : q.var = p.var
    · simp only [hqp]
      exact ⟨fun hlt => absurd hlevel (Nat.ne_of_lt hlt.2),
        fun hlt => absurd hlevel (Nat.ne_of_lt hlt.2)⟩
    · simp only [Function.update_of_ne hqp]
  · show a.pathC - 1 = _
    rw [h.pathC, List.take_add_one, hp, List.countP_append]
    simp only [Option.toList_some, List.countP_singleton, hseen, hlevel, decide_true,
      Bool.and_self, if_true, Nat.add_sub_cancel]
    refine (countP_mark_of_not fun r hr hrp => ?_).symm
    have hn : p ∉ a.trail.take n := fun hmem =>
      absurd ((h.ok.trail.mem_take_iff_lt hp).mp hmem) (Nat.lt_irrefl n)
    exact absurd (h.ok.trail.eq_of_var_eq (List.mem_of_mem_take hr) hmem hrp ▸ hr) hn
  · obtain ⟨c, hc, hcov⟩ := h.closed r hr
    exact ⟨c, hc, fun q hq hne => ⟨(hcov q hq hne).1.takeOff h.ok.trail hmem, (hcov q hq hne).2⟩⟩

/-- A literal of the current level that is not the last one seen has a reason. -/
theorem Analyzing.reason (h : Analyzing F a n R T) (hp : a.trail[n]? = some p)
    (hlevel : a.level p.var = a.decisionLevel) (hpos : 0 < a.decisionLevel) (hC : 0 < a.pathC) :
    ∃ cr, a.reason p.var = some cr ∧ a.Live cr ∧ IsReason a.toTrail (a.ca cr) n p := by
  obtain ⟨hnone, hsome⟩ := h.ok.reasons n p hp (hlevel ▸ hpos)
  cases hr : a.reason p.var with
  | some cr => exact ⟨cr, rfl, hsome cr hr⟩
  | none =>
    -- `p` is the decision, and everything before it is of a lower level
    obtain ⟨i, q, hi, hq, _, hql⟩ := h.exists_seen hC
    have hn := hnone hr
    have hlt : a.decisionLevel - 1 < a.decisionLevel := Nat.sub_lt hpos Nat.one_pos
    have hlevelq : a.level q.var = a.levelAt i := h.ok.trail.level i q hq
    have := (h.ok.trail.levelAt_le_iff hlt (i := i)).mpr (by
      rw [hlevel] at hn
      exact hn ▸ hi)
    omega

/-- The literals of a clause in conflict, or of a reason, are assigned. -/
theorem Analyzing.level_le (h : Analyzing F a n R T) (hp : p ∈ a.trail)
    (hr : IsReason a.toTrail (a.ca cr) n p) (hq : q ∈ (a.ca cr).lits) :
    a.level q.var ≤ a.decisionLevel := by
  by_cases hqp : q = p
  · exact hqp ▸ h.ok.trail.level_le hp
  · exact h.ok.trail.level_le (p := q.neg) (List.mem_of_mem_take (hr.false_before q hq hqp))

/-- **The reason of the literal that was taken off** is visited. -/
theorem Analyzing.resolve (h : Analyzing F a n R T) (hp : a.trail[n]? = some p)
    (hreason : a.reason p.var = some cr) (hlive : a.Live cr)
    (hr : IsReason a.toTrail (a.ca cr) n p) :
    TooDeep a.toTrail (a.resolve o (a.reason p.var) (some p)) ∨
      ∃ b, a.resolve o (a.reason p.var) (some p) = .ok b ∧
        Analyzing F b n R (fun r => T r ∨ r = p) ∧ InPlace a.toState b.toClauseDb ∧
        b.toTrail = a.toTrail ∧ ∀ x, a.seen x = true → b.seen x = true := by
  have hmem := List.mem_of_getElem? hp
  obtain ⟨s, horient, hplace, htrail, hfirst⟩ := orient_spec h.ok hlive hmem hr
  simp only [Analysis.resolve, hreason, Option.isSome_some, if_true, horient, ok_bind]
  have hlevels : ∀ q ∈ (s.ca cr).lits, s.level q.var ≤ s.decisionLevel := by
    intro q hq
    rw [htrail]
    exact h.level_le hmem hr ((hplace.perm cr).subset hq)
  rcases updateLBD_inPlace o hlevels with hdeep | ⟨s₁, hrun, hlbd, hlbdtrail, hlbdlits⟩
  · exact Or.inl (htrail ▸ hdeep.bind)
  rw [hrun, ok_bind]
  refine Or.inr ?_
  have hplace' : InPlace a.toState s₁.toClauseDb := by
    obtain ⟨t, db⟩ := s
    obtain rfl : t = a.toTrail := htrail
    exact hplace.trans hlbd
  have htrail' := hlbdtrail.trans htrail
  have hperm := hplace'.perm cr
  have hsize : 2 ≤ (s₁.ca cr).size :=
    (h.ok.db.size cr hlive.1).trans_eq hperm.length_eq.symm
  have hnodup : ((s₁.ca cr).lits.map Lit.var).Nodup :=
    (hperm.map _).nodup_iff.mpr (h.ok.db.nodup cr hlive.1)
  -- the first literal is `p`, the others are false before
  have hlits : (s₁.ca cr).lits = p :: (s₁.ca cr).lits.drop 1 := by
    have hget : (s₁.ca cr).get 0 = p := by
      rw [Clause.get, hlbdlits, ← hfirst, Clause.get]
    rw [← hget]
    exact Clause.lits_cons hsize
  have hrest : ∀ q ∈ (s₁.ca cr).lits.drop 1,
      q ∈ (a.ca cr).lits ∧ q ≠ p := by
    intro q hq
    refine ⟨hperm.subset (List.mem_of_mem_drop hq), fun heq => ?_⟩
    rw [hlits, List.map_cons, List.nodup_cons] at hnodup
    exact hnodup.1 (heq ▸ List.mem_map_of_mem hq)
  have hstart := h.inPlace hplace' htrail'
  have hfalse : ∀ q ∈ (s₁.ca cr).lits.drop 1, q.neg ∈ a.trail.take n :=
    fun q hq => hr.false_before q (hrest q hq).1 (hrest q hq).2
  obtain ⟨hend, hcov, hstate, hmono⟩ := hstart.visitLits ((s₁.ca cr).lits.drop 1)
    (fun q hq => by
      simp only [htrail']
      exact ⟨List.mem_of_mem_take (hfalse q hq), fun _ => hfalse q hq⟩)
  have hendtrail := (congrArg State.toTrail hstate).trans htrail'
  refine ⟨_, rfl, ⟨hend.ok, hend.le, hend.seen, hend.learnt, hend.nodup, hend.pathC, ?_⟩,
    ?_, hendtrail, hmono⟩
  · intro r hr'
    rcases hr' with hr' | rfl
    · exact hend.closed r hr'
    · refine ⟨(a.ca cr).lits, h.ok.equiv.entails cr hlive.1, fun q hq hne => ⟨hcov q ?_, ?_⟩⟩
      · have := hperm.symm.subset hq
        rw [hlits] at this
        exact (List.mem_cons.mp this).resolve_left hne
      · intro i hi
        rw [show _ = a.toTrail from hendtrail] at hi ⊢
        rw [h.ok.trail.index_unique hi hp rfl]
        exact hr.false_before q hq hne
  · rw [congrArg State.toClauseDb hstate]
    exact hplace'

/-- **The clause that is left** when no literal of the current level is marked any more. -/
theorem Analyzing.finish (h : Analyzing F a n (fun r => R r ∨ r = p) R) (hp : a.trail[n]? = some p)
    (hC : a.pathC = 0) {c : Clause} (hc : Entails F c.lits)
    (hcov : ∀ q ∈ c.lits, Covered a (fun r => R r ∨ r = p) q) :
    Entails F (p.neg :: a.outLearnt) := by
  have hmem := List.mem_of_getElem? hp
  have hfalse : ∀ q, Covered a (fun r => R r ∨ r = p) q → ∀ i, q.neg ∈ a.trail.take i →
      FalseBefore F a.trail (fun r => (R r ∨ r = p) ∨ a.seen r.var = true) i q := by
    rintro q ⟨hq, hlevel | hcase⟩ i hi
    · exact Or.inl (h.ok.equiv.neg_fixed hq hlevel)
    · exact Or.inr ⟨hcase, hi⟩
  have hclosed : Closed F a.trail
      (fun r => r = p ∨ a.seen r.var = true ∧ a.level r.var < a.decisionLevel)
      (fun r => (R r ∨ r = p) ∨ a.seen r.var = true) := by
    intro i r hi hr
    rcases hr with (hr | rfl) | hr
    · obtain ⟨d, hd, hcov'⟩ := h.closed r hr
      refine Or.inr ⟨d, hd, fun q hq hne => ?_⟩
      exact hfalse q (hcov' q hq hne).1 i ((hcov' q hq hne).2 i hi)
    · exact Or.inl (Or.inl rfl)
    · refine Or.inl (Or.inr ⟨hr, ?_⟩)
      have hle : a.level r.var ≤ a.decisionLevel := h.ok.trail.level_le (List.mem_of_getElem? hi)
      refine Nat.lt_of_le_of_ne hle fun hl => ?_
      obtain ⟨j, q, hj, hqr, _, hcur⟩ := h.seen r.var hr
      have hji : j = i := h.ok.trail.index_unique hj hi hqr
      have hpos : 0 < a.pathC := by
        rw [h.pathC, List.countP_pos_iff]
        refine ⟨r, mem_take_iff.mpr ⟨i, hji ▸ hcur hl, hi⟩, ?_⟩
        simp only [hr, hl, decide_true, Bool.and_self]
      omega
  refine hclosed.learn hc (fun q hq => hfalse q (hcov q hq) _ ?_) fun r hr hK => ?_
  · rw [List.take_length]
    exact (hcov q hq).1
  · rcases hK with rfl | ⟨hseen, hl⟩
    · exact List.mem_cons_self
    · refine List.mem_cons_of_mem _ ((h.learnt r.neg).mpr ?_)
      rw [neg_neg]
      exact ⟨hr, hseen, hl⟩

theorem Analyzed.of_inPlace {s s' : State} {b : Analysis} (h : Analyzed F s' p b)
    (hs : InPlace s s'.toClauseDb) (htrail : s'.toTrail = s.toTrail) : Analyzed F s p b := by
  obtain ⟨t, db⟩ := s'
  obtain rfl : t = s.toTrail := htrail
  exact ⟨hs.trans h.inPlace, h.trail, h.ok, h.mem, h.level, h.learnt, h.nodup, h.seen, h.entails⟩

/-- No literal of the current level is marked any more: what is marked is in the learnt clause. -/
theorem Analyzing.seen_iff (h : Analyzing F a n R T) (hC : a.pathC = 0) (x : Var) :
    a.seen x = true ↔ x ∈ a.outLearnt.map Lit.var := by
  constructor
  · intro hx
    obtain ⟨i, q, hi, rfl, _, hcur⟩ := h.seen x hx
    have hqmem := List.mem_of_getElem? hi
    have hql : a.level q.var < a.decisionLevel := by
      refine Nat.lt_of_le_of_ne (h.ok.trail.level_le hqmem) fun heq => ?_
      have hcount := List.countP_eq_zero.mp (h.pathC.symm.trans hC) q
        (mem_take_iff.mpr ⟨i, hcur heq, hi⟩)
      simp only [Bool.and_eq_true, decide_eq_true_eq] at hcount
      exact hcount ⟨hx, heq⟩
    refine List.mem_map.mpr ⟨q.neg, (h.learnt q.neg).mpr ?_, rfl⟩
    rw [neg_neg]
    exact ⟨hqmem, hx, hql⟩
  · intro hx
    obtain ⟨q, hq, rfl⟩ := List.mem_map.mp hx
    exact ((h.learnt q).mp hq).2.1

/-- The literals of the current level are the last ones on the trail. -/
theorem Analyzing.level_eq (h : Analyzing F a (n + 1) R T) (hp : a.trail[n]? = some p)
    (hC : 0 < a.pathC) : a.level p.var = a.decisionLevel := by
  obtain ⟨i, q, hi, hq, _, hql⟩ := h.exists_seen hC
  have hle : a.level q.var ≤ a.level p.var := h.ok.trail.level_mono hq hp (Nat.le_of_lt_succ hi)
  exact Nat.le_antisymm (h.ok.trail.level_le (List.mem_of_getElem? hp)) (hql ▸ hle)

/-- What was marked still is, so there is a literal to resolve. -/
theorem Analyzing.pathC_pos {b : Analysis} {T' : Lit → Prop} (h : Analyzing F a n R T)
    (hb : Analyzing F b n R T') (htrail : b.toTrail = a.toTrail)
    (hmono : ∀ x, a.seen x = true → b.seen x = true) (hC : 0 < a.pathC) : 0 < b.pathC := by
  obtain ⟨i, q, hi, hq, hqseen, hql⟩ := h.exists_seen hC
  rw [hb.pathC, List.countP_pos_iff, htrail]
  refine ⟨q, mem_take_iff.mpr ⟨i, hi, hq⟩, ?_⟩
  rw [hmono _ hqseen, decide_eq_true hql]
  rfl

/-- **The loop of `analyze`** ends at a literal of the current level, and fails no assertion. -/
theorem analyzeLoop_spec {c : Clause} (hc : Entails F c.lits) : ∀ (n : Nat) (a : Analysis)
    (R : Lit → Prop), Analyzing F a n R R → 0 < a.decisionLevel → 0 < a.pathC →
    (∀ q ∈ c.lits, Covered a R q) →
    TooDeep a.toTrail (Analysis.analyzeLoop o n a) ∨
      ∃ p b, Analysis.analyzeLoop o n a = .ok (p, b) ∧ Analyzed F a.toState p b := by
  intro n
  induction n with
  | zero =>
    intro a R h _ hC _
    obtain ⟨i, _, hi, _⟩ := h.exists_seen hC
    exact absurd hi (Nat.not_lt_zero i)
  | succ n ih =>
    intro a R h hpos hC hcov
    obtain ⟨p, hp⟩ : ∃ p, a.trail[n]? = some p := ⟨_, List.getElem?_eq_getElem h.le⟩
    have hmem := List.mem_of_getElem? hp
    unfold Analysis.analyzeLoop
    simp only [hp]
    by_cases hseen : a.seen p.var = true
    · rw [if_pos hseen]
      have hlevel := h.level_eq hp hC
      have hoff := h.takeOff hp hseen hlevel
      have hcov' : ∀ q ∈ c.lits, Covered _ (fun r => R r ∨ r = p) q := fun q hq =>
        (hcov q hq).takeOff h.ok.trail hmem
      by_cases hzero : a.pathC - 1 = 0
      · rw [if_pos hzero]
        refine Or.inr ⟨p, _, rfl, InPlace.refl _, rfl, h.ok, hmem, hlevel, fun q hq => ?_, h.nodup,
          hoff.seen_iff hzero, hoff.finish hp hzero hc hcov'⟩
        obtain ⟨hqmem, hqseen, hql⟩ := (h.learnt q).mp hq
        obtain ⟨_, _, _, _, hqpos, _⟩ := h.seen q.var hqseen
        exact ⟨hqmem, hqpos, hql⟩
      · rw [if_neg hzero]
        obtain ⟨cr, hreason, hlive, hr⟩ :=
          hoff.reason hp hlevel hpos (Nat.pos_of_ne_zero hzero)
        rcases hoff.resolve (o := o) hp hreason hlive hr with
          hdeep | ⟨b, hrun, hb, hplace, htrail, hmono⟩
        · exact Or.inl hdeep.bind
        · rw [hrun, ok_bind]
          have hC' : 0 < b.pathC := hoff.pathC_pos hb htrail hmono (Nat.pos_of_ne_zero hzero)
          have hb' := ih b _ hb (htrail ▸ hpos) hC' fun q hq => (hcov' q hq).mono htrail hmono
          rw [htrail] at hb'
          exact hb'.imp_right fun ⟨p', b', hrun', hb'⟩ =>
            ⟨p', b', hrun', hb'.of_inPlace hplace htrail⟩
    · rw [if_neg hseen]
      exact ih a R (h.skip hp hseen) hpos hC hcov

/-- **The first unique implication point** of a conflict above level 0. -/
theorem analyze_uip (hok : StateOk F s) (hpos : 0 < s.decisionLevel) (hlive : s.Live cr)
    (hfalse : ∀ q ∈ (s.ca cr).lits, q.neg ∈ s.trail)
    (hcur : ∃ q ∈ (s.ca cr).lits, s.level q.var = s.decisionLevel) :
    TooDeep s.toTrail (Analysis.resolve o ⟨s, fun _ => false, [], 0⟩ (some cr) none >>=
        Analysis.analyzeLoop o s.trail.length) ∨
      ∃ b p b', Analysis.resolve o ⟨s, fun _ => false, [], 0⟩ (some cr) none = .ok b ∧
        Analysis.analyzeLoop o s.trail.length b = .ok (p, b') ∧ Analyzed F s p b' := by
  simp only [Analysis.resolve, Option.isSome_none, Bool.false_eq_true, if_false, ok_bind,
    List.drop_zero]
  rcases updateLBD_inPlace o (fun q hq => hok.trail.level_le (p := q.neg) (hfalse q hq)) with
    hdeep | ⟨s₁, hrun₁, hplace, htrail, hlits⟩
  · exact Or.inl hdeep.bind.bind
  rw [hrun₁, ok_bind]
  have hstart : Analyzing F ⟨s₁, fun _ => false, [], 0⟩ s.trail.length
      (fun _ => False) (fun _ => False) := by
    refine Analyzing.inPlace (a := ⟨s, fun _ => false, [], 0⟩) ⟨hok, Nat.le_refl _,
      fun x hx => absurd hx Bool.false_ne_true, fun q => ?_, List.nodup_nil, ?_,
      fun p hp => hp.elim⟩ hplace htrail
    · simp
    · exact (List.countP_eq_zero.mpr fun q _ => by simp).symm
  obtain ⟨hb, hcov, hstate, _⟩ := hstart.visitLits (s₁.ca cr).lits
    (fun q hq => by
      rw [hlits] at hq
      simp only [htrail, List.take_length]
      exact ⟨hfalse q hq, fun _ => hfalse q hq⟩)
  have hbtrail := (congrArg State.toTrail hstate).trans htrail
  rw [hlits] at hb hcov hstate hbtrail
  -- the literal of the current level is marked
  have hC : 0 < ((s.ca cr).lits.foldl Analysis.visitLit
      ⟨s₁, fun _ => false, [], 0⟩).pathC := by
    obtain ⟨q, hq, hql⟩ := hcur
    obtain ⟨hqmem, hcase⟩ := hcov q hq
    rw [hb.pathC, List.countP_pos_iff]
    rw [show _ = s.toTrail from hbtrail] at hqmem hcase ⊢
    rw [List.take_length]
    refine ⟨q.neg, hqmem, ?_⟩
    rcases hcase with h | h | h
    · exact absurd (hql.symm.trans h) (Nat.ne_of_gt hpos)
    · exact h.elim
    · rw [var_neg, h, decide_eq_true hql]
      rfl
  rw [hlits]
  have hloop := analyzeLoop_spec (o := o) (hok.equiv.entails cr hlive.1) s.trail.length _ _ hb
    (hbtrail ▸ hpos) hC hcov
  rw [show _ = s.toTrail from hbtrail] at hloop
  refine hloop.imp_right fun ⟨p, b', hrun, hanalyzed⟩ => ⟨_, p, b', rfl, hrun, ?_⟩
  refine hanalyzed.of_inPlace ?_ hbtrail
  rw [congrArg State.toClauseDb hstate]
  exact hplace

end SymBreak.Glucose
