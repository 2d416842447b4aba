import SymBreak.Glucose.Solver

/-!
# The invariant of the solver

`StateOk F s`, for the clauses `F` that were added so far:
* the trail and the database agree with themselves (`TrailOk`, `DbOk`), and every literal above
  level 0 has a reason, or is the first of its level (`ReasonsOk`);
* `F` entails every clause and every literal of level 0, and these entail `F` again
  (`Equivalent`).

It is kept by setting a literal that a clause implies (`StateOk.push_clause`), that starts a level
(`StateOk.push_decision`) or that `F` entails (`StateOk.push_unit`), and by giving levels up
(`StateOk.cut`). `Watched s k`, for the literals of the trail that were propagated, says that a
clause with a watched literal among these false ones is satisfied, and no later.
-/

namespace SymBreak.Glucose

open Cnf

/-- The clause implied `p`, which stands at position `i`. -/
structure IsReason (t : Trail) (c : Clause) (i : Nat) (p : Lit) : Prop where
  mem : p ∈ c.lits
  first : c.size ≠ 2 → c.get 0 = p
  false_before : ∀ q ∈ c.lits, q ≠ p → q.neg ∈ t.trail.take i

/-- Above level 0, a literal starts its level or was implied by its reason. -/
def ReasonsOk (s : State) : Prop :=
  ∀ i p, s.trail[i]? = some p → 0 < s.level p.var →
    (s.reason p.var = none → i = s.lim (s.level p.var - 1)) ∧
    ∀ cr, s.reason p.var = some cr → s.Live cr ∧ IsReason s.toTrail (s.ca cr) i p

/-- The clauses and the literals of level 0 are what `F` says. -/
structure Equivalent (F : Formula) (s : State) : Prop where
  entails : ∀ cr, cr < s.next → Entails F (s.ca cr).lits
  fixed : ∀ p ∈ s.trail, s.level p.var = 0 → Entails F [p]
  complete : ∀ σ, (∀ cr, s.Live cr → (s.ca cr).learnt = false → ClauseHolds σ (s.ca cr).lits) →
    (∀ p ∈ s.trail, s.level p.var = 0 → p.eval σ = true) → Sat σ F

structure StateOk (F : Formula) (s : State) : Prop where
  trail : TrailOk s.toTrail
  db : DbOk s.toClauseDb s.nVars
  reasons : ReasonsOk s
  equiv : Equivalent F s

/-- A literal of the clause is true at level `l` or before. -/
def SatisfiedBy (s : State) (cr : CRef) (l : Nat) : Prop :=
  ∃ r ∈ (s.ca cr).lits, r ∈ s.trail ∧ s.level r.var ≤ l

/-- The first `k` literals of the trail were propagated. -/
def Watched (s : State) (k : Nat) : Prop :=
  ∀ cr, s.Live cr → ∀ q ∈ (s.ca cr).lits.take 2, q.neg ∈ s.trail.take k →
    SatisfiedBy s cr (s.level q.var)

variable {F : Formula} {s : State} {p q : Lit} {cr : CRef} {i k l : Nat}

theorem StateOk.lit_below (h : StateOk F s) (hcr : cr < s.next) (hq : q ∈ (s.ca cr).lits) :
    q.var < s.nVars :=
  h.db.below cr hcr q hq

/-- A literal that is false at level 0 is false in every model. -/
theorem Equivalent.neg_fixed (h : Equivalent F s) (hq : q.neg ∈ s.trail)
    (hlevel : s.level q.var = 0) : Entails F [q.neg] :=
  h.fixed q.neg hq hlevel

/-! ## Setting a literal -/

theorem take_push {source : Option CRef} (h : k ≤ s.trail.length) :
    (s.toTrail.push p source).trail.take k = s.trail.take k :=
  List.take_append_of_le_length h

theorem Watched.push (h : Watched s k) (hok : TrailOk s.toTrail) (hp : s.value p = .l_Undef)
    (hk : k ≤ s.trail.length) {source : Option CRef} :
    Watched { s with toTrail := s.toTrail.push p source } k := by
  intro cr hcr q hq hfalse
  simp only [take_push hk] at hfalse
  obtain ⟨r, hr, hrt, hlevel⟩ := h cr hcr q hq hfalse
  refine ⟨r, hr, TrailOk.mem_push.mpr (Or.inl hrt), ?_⟩
  have hq : q.neg.var ≠ p.var := hok.var_ne hp (List.mem_of_mem_take hfalse)
  show (s.toTrail.push p source).level r.var ≤ (s.toTrail.push p source).level q.var
  rw [var_neg] at hq
  rwa [TrailOk.push_level (hok.var_ne hp hrt), TrailOk.push_level hq]

theorem IsReason.push {c : Clause} {t : Trail} (h : IsReason t c i q) (hi : i ≤ t.trail.length)
    {source : Option CRef} : IsReason (t.push p source) c i q :=
  ⟨h.mem, h.first, fun r hr hne => by
    have := h.false_before r hr hne
    rwa [Trail.push, List.take_append_of_le_length hi]⟩

theorem push_lim {t : Trail} {source : Option CRef} (hl : l < t.decisionLevel) :
    (t.push p source).lim l = t.lim l := by
  rw [TrailOk.lim_eq hl]
  exact TrailOk.lim_eq (t := t.push p source) hl

/-- The reasons of a trail with one more literal. -/
theorem ReasonsOk.push (h : ReasonsOk s) (hok : TrailOk s.toTrail) (hp : s.value p = .l_Undef)
    {source : Option CRef}
    (hnone : source = none → 0 < s.decisionLevel →
      s.trail.length = s.lim (s.decisionLevel - 1))
    (hsome : ∀ cr, source = some cr → s.Live cr ∧
      IsReason s.toTrail (s.ca cr) s.trail.length p) :
    ReasonsOk { s with toTrail := s.toTrail.push p source } := by
  intro i q hi hpos
  change (s.toTrail.push p source).trail[i]? = some q at hi
  change 0 < (s.toTrail.push p source).level q.var at hpos
  change ((s.toTrail.push p source).reason q.var = none → i =
      (s.toTrail.push p source).lim ((s.toTrail.push p source).level q.var - 1)) ∧
    ∀ cr, (s.toTrail.push p source).reason q.var = some cr → s.Live cr ∧
      IsReason (s.toTrail.push p source) (s.ca cr) i q
  rw [TrailOk.push_getElem?] at hi
  split at hi
  · rename_i heq
    obtain rfl := Option.some.inj hi
    rw [TrailOk.push_level_self] at hpos ⊢
    rw [TrailOk.push_reason_self, push_lim (by omega)]
    refine ⟨fun hs => heq.trans (hnone hs hpos), fun cr hs => ?_⟩
    obtain ⟨hlive, hreason⟩ := hsome cr hs
    exact ⟨hlive, heq ▸ hreason.push (Nat.le_refl _)⟩
  · have hne := hok.var_ne hp (List.mem_of_getElem? hi)
    have hlt := (List.getElem?_eq_some_iff.mp hi).1
    rw [TrailOk.push_level hne] at hpos ⊢
    rw [TrailOk.push_reason hne]
    obtain ⟨hn, hs⟩ := h i q hi hpos
    refine ⟨fun hr => ?_, fun cr hr => ?_⟩
    · have hle := hok.level_le (List.mem_of_getElem? hi)
      rw [push_lim (by omega)]
      exact hn hr
    · obtain ⟨hlive, hreason⟩ := hs cr hr
      exact ⟨hlive, hreason.push hlt.le⟩

theorem Equivalent.push (h : Equivalent F s) (hok : TrailOk s.toTrail)
    (hp : s.value p = .l_Undef) {source : Option CRef}
    (hfixed : s.decisionLevel = 0 → Entails F [p]) :
    Equivalent F { s with toTrail := s.toTrail.push p source } where
  entails := h.entails
  fixed q hq hlevel := by
    rcases TrailOk.mem_push.mp hq with hq | rfl
    · exact h.fixed q hq ((TrailOk.push_level (hok.var_ne hp hq)).symm.trans hlevel)
    · exact hfixed ((TrailOk.push_level_self s.toTrail q source).symm.trans hlevel)
  complete σ hclauses hlits := by
    refine h.complete σ hclauses fun q hq hlevel => hlits q (TrailOk.mem_push.mpr (Or.inl hq)) ?_
    exact (TrailOk.push_level (hok.var_ne hp hq)).trans hlevel

/-- **A literal that a clause implies.** -/
theorem StateOk.push_clause (h : StateOk F s) (hcr : s.Live cr) (hp : s.value p = .l_Undef)
    (hreason : IsReason s.toTrail (s.ca cr) s.trail.length p) :
    StateOk F { s with toTrail := s.toTrail.push p (some cr) } where
  trail := h.trail.push hp (h.lit_below hcr.1 hreason.mem) _
  db := h.db
  reasons := h.reasons.push h.trail hp (fun hno => absurd hno (by simp)) fun cr' hcr' =>
    Option.some.inj hcr' ▸ ⟨hcr, hreason⟩
  equiv := by
    refine h.equiv.push h.trail hp fun hzero σ hσ => ?_
    -- at level 0 the other literals of the clause are false in every model
    obtain ⟨q, hq, hqσ⟩ := h.equiv.entails cr hcr.1 σ hσ
    by_cases hqp : q = p
    · exact ⟨q, by simp [hqp], hqσ⟩
    · have hmem := List.mem_of_mem_take (hreason.false_before q hq hqp)
      have hlevel : s.level q.var = 0 := by
        have := h.trail.level_le hmem
        rw [hzero] at this
        exact Nat.le_zero.mp this
      have := (h.equiv.neg_fixed hmem hlevel).neg_false hσ
      rw [hqσ] at this
      exact absurd this (by simp)

/-- **A literal that starts a level.** -/
theorem StateOk.push_decision (h : StateOk F s) (hp : s.value p = .l_Undef)
    (hlt : p.var < s.nVars) (hpos : 0 < s.decisionLevel)
    (hlim : s.trail.length = s.lim (s.decisionLevel - 1)) :
    StateOk F { s with toTrail := s.toTrail.push p none } where
  trail := h.trail.push hp hlt _
  db := h.db
  reasons := h.reasons.push h.trail hp (fun _ _ => hlim) fun cr hcr => absurd hcr (by simp)
  equiv := h.equiv.push h.trail hp fun hzero => absurd hzero (Nat.ne_of_gt hpos)

/-- **A literal that the formula entails**, at level 0. -/
theorem StateOk.push_unit (h : StateOk F s) (hp : s.value p = .l_Undef) (hlt : p.var < s.nVars)
    (hzero : s.decisionLevel = 0) (hent : Entails F [p]) :
    StateOk F { s with toTrail := s.toTrail.push p none } where
  trail := h.trail.push hp hlt _
  db := h.db
  reasons := h.reasons.push h.trail hp (fun _ hpos => absurd hzero (Nat.ne_of_gt hpos))
    fun cr hcr => absurd hcr (by simp)
  equiv := h.equiv.push h.trail hp fun _ => hent

/-! ## A new level -/

theorem newDecisionLevel_lim {t : Trail} (hl : l < t.decisionLevel) :
    t.newDecisionLevel.lim l = t.lim l := by
  rw [TrailOk.lim_eq hl, TrailOk.lim_eq (t := t.newDecisionLevel)]
  · exact List.getElem_append_left hl
  · show l < (t.trailLim ++ [t.trail.length]).length
    rw [List.length_append]
    exact Nat.lt_add_right 1 hl

theorem newDecisionLevel_lim_self (t : Trail) :
    t.newDecisionLevel.lim t.decisionLevel = t.trail.length := by
  rw [TrailOk.lim_eq (t := t.newDecisionLevel)]
  · exact List.getElem_concat_length rfl _
  · show t.trailLim.length < (t.trailLim ++ [t.trail.length]).length
    rw [List.length_append]
    exact Nat.lt_succ_self _

theorem newDecisionLevel_decisionLevel (t : Trail) :
    t.newDecisionLevel.decisionLevel = t.decisionLevel + 1 := by
  show (t.trailLim ++ [t.trail.length]).length = _
  rw [List.length_append]
  rfl

theorem StateOk.newDecisionLevel (h : StateOk F s) :
    StateOk F { s with toTrail := s.newDecisionLevel } where
  trail := h.trail.newDecisionLevel
  db := h.db
  reasons i p hi hpos := by
    obtain ⟨hn, hs⟩ := h.reasons i p hi hpos
    have hle := h.trail.level_le (List.mem_of_getElem? hi)
    refine ⟨fun hr => (hn hr).trans (newDecisionLevel_lim ?_).symm, fun cr hr => ?_⟩
    · exact Nat.lt_of_lt_of_le (Nat.sub_lt hpos Nat.one_pos) hle
    · obtain ⟨hlive, hreason⟩ := hs cr hr
      exact ⟨hlive, hreason.mem, hreason.first, hreason.false_before⟩
  equiv := ⟨h.equiv.entails, h.equiv.fixed, h.equiv.complete⟩

/-! ## Giving levels up -/

theorem cut_lim {t : Trail} {m : Nat} (hl : l ≤ t.decisionLevel) (hm : m < l) :
    (t.cut l).lim m = t.lim m := by
  rw [TrailOk.lim_eq (t := t.cut l), TrailOk.lim_eq (Nat.lt_of_lt_of_le hm hl)]
  · exact List.getElem_take
  · rw [TrailOk.cut_decisionLevel hl]
    exact hm

theorem StateOk.cut (h : StateOk F s) (hl : l ≤ s.decisionLevel) :
    StateOk F { s with toTrail := s.toTrail.cut l } where
  trail := h.trail.cut hl
  db := h.db
  reasons i p hi hpos := by
    change (s.toTrail.cut l).trail[i]? = some p at hi
    have hmem := List.mem_of_getElem? hi
    have hle := (h.trail.mem_cut.mp hmem).2
    rw [TrailOk.cut_getElem?] at hi
    split at hi
    · rename_i hlt
      obtain ⟨hn, hs⟩ := h.reasons i p hi hpos
      refine ⟨fun hr => (hn hr).trans (cut_lim hl ?_).symm, fun cr hr => ?_⟩
      · exact Nat.lt_of_lt_of_le (Nat.sub_lt hpos Nat.one_pos) hle
      · obtain ⟨hlive, hreason⟩ := hs cr hr
        refine ⟨hlive, hreason.mem, hreason.first, fun q hq hne => ?_⟩
        have := hreason.false_before q hq hne
        show q.neg ∈ (s.trail.take (s.lim l)).take i
        rwa [List.take_take, Nat.min_eq_left hlt.le]
    · exact absurd hi (by simp)
  equiv := by
    refine ⟨h.equiv.entails, fun p hp => h.equiv.fixed p (List.mem_of_mem_take hp),
      fun σ hclauses hlits => ?_⟩
    refine h.equiv.complete σ hclauses fun p hp hlevel => hlits p ?_ hlevel
    exact h.trail.mem_cut.mpr ⟨hp, hlevel ▸ Nat.zero_le l⟩

/-- **Backtracking keeps what was propagated**, up to the level that is kept. -/
theorem Watched.cut (h : Watched s k) (hok : TrailOk s.toTrail) (hk : s.lim l ≤ k) :
    Watched { s with toTrail := s.toTrail.cut l } (s.lim l) := by
  intro cr hcr q hq hfalse
  have hfalse : q.neg ∈ s.trail.take (s.lim l) := by
    change q.neg ∈ (s.trail.take (s.lim l)).take (s.lim l) at hfalse
    rwa [List.take_take, Nat.min_self] at hfalse
  have hlevel := (hok.mem_take_iff_level.mp hfalse).2
  have hk' : q.neg ∈ s.trail.take k :=
    (List.take_prefix_take_left hk).subset hfalse
  obtain ⟨r, hr, hrt, hrl⟩ := h cr hcr q hq hk'
  exact ⟨r, hr, hok.mem_cut.mpr ⟨hrt, hrl.trans hlevel⟩, hrl⟩

/-! ## A reordered database -/

/-- **Other literals may be watched**, as long as the true first literal of a long clause stays. -/
theorem StateOk.permute {db : ClauseDb} (h : StateOk F s) (hp : Permuted s.toClauseDb db)
    (hdb : DbOk db s.nVars)
    (hfirst : ∀ cr, (db.ca cr).size ≠ 2 → (s.ca cr).get 0 ∈ s.trail →
      (db.ca cr).get 0 = (s.ca cr).get 0) :
    StateOk F { s with toClauseDb := db } where
  trail := h.trail
  db := hdb
  reasons i p hi hpos := by
    obtain ⟨hn, hs⟩ := h.reasons i p hi hpos
    refine ⟨hn, fun cr hcr => ?_⟩
    obtain ⟨hlive, hreason⟩ := hs cr hcr
    refine ⟨hp.live.mpr hlive, (hp.perm cr).symm.subset hreason.mem, fun hsize => ?_,
      fun q hq => hreason.false_before q ((hp.perm cr).subset hq)⟩
    have hget := hreason.first (hp.size cr ▸ hsize)
    exact (hfirst cr hsize (hget ▸ List.mem_of_getElem? hi)).trans hget
  equiv := by
    refine ⟨fun cr hcr σ hσ =>
      (hp.clauseHolds σ cr).mpr (h.equiv.entails cr (hp.next ▸ hcr) σ hσ),
      h.equiv.fixed, fun σ hclauses hlits => h.equiv.complete σ (fun cr hcr hl => ?_) hlits⟩
    exact (hp.clauseHolds σ cr).mp (hclauses cr (hp.live.mpr hcr) ((hp.learnt cr).trans hl))

theorem Watched.reorder {db : ClauseDb} (h : Watched s k) (hr : Reordered s.toClauseDb db) :
    Watched { s with toClauseDb := db } k := by
  intro cr hcr q hq hfalse
  obtain ⟨r, hrc, hrt⟩ := h cr (hr.live.mp hcr) q ((hr.take_two cr).subset hq) hfalse
  exact ⟨r, (hr.perm cr).symm.subset hrc, hrt⟩

end SymBreak.Glucose
