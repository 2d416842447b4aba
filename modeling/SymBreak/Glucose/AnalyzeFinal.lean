import SymBreak.Glucose.Analyze

/-!
# The final conflict

Model of `analyzeFinal` (`core/Solver.cc`): when an assumption is false, the trail is read from its
end down to level 1, and the decisions that led to the complement of the assumption are collected.
The clause of their complements and of that literal is entailed (`analyzeFinal_spec`), and the
marks in `seen` are all taken off.
-/

namespace SymBreak.Glucose

open Cnf

/-- Mark the literals above level 0. -/
def State.markFinal (s : State) (lits : List Lit) (seen : Var → Bool) : Var → Bool :=
  lits.foldl (fun seen q => if 0 < s.level q.var then Function.update seen q.var true else seen)
    seen

/-- The loop of `analyzeFinal` (`Solver.cc:737-755`) over the literals from the end of the trail. -/
def State.finalLoop (s : State) : List Lit → (Var → Bool) → List Lit →
    Result (List Lit × (Var → Bool))
  | [], seen, outConflict => .ok (outConflict, seen)
  | q :: qs, seen, outConflict =>
    let x := q.var
    if seen x then
      match s.reason x with
      | none =>
        if s.level x = 0 then .error (.raised (.assertion "level(x) > 0"))
        else finalLoop s qs (Function.update seen x false) (outConflict ++ [q.neg])
      | some cr =>
        let c := s.ca cr
        let seen := s.markFinal (if c.size = 2 then c.lits else c.lits.drop 1) seen
        finalLoop s qs (Function.update seen x false) outConflict
    else finalLoop s qs seen outConflict

/-- `analyzeFinal` (`Solver.cc:727-758`) -/
def Solver.analyzeFinal (s : Solver) (p : Lit) : Result (List Lit × Solver) :=
  if s.decisionLevel = 0 then .ok ([p], s)
  else do
    let (outConflict, seen) ← s.finalLoop (s.trail.drop (s.lim 0)).reverse
      (Function.update s.seen p.var true) [p]
    .ok (outConflict, { s with seen := Function.update seen p.var false })

variable {F : Formula} {s : State} {p q : Lit}

theorem markFinal_eq_true (s : State) (x : Var) : ∀ (lits : List Lit) (seen : Var → Bool),
    s.markFinal lits seen x = true ↔
      seen x = true ∨ x ∈ lits.map Lit.var ∧ 0 < s.level x
  | [], seen => by simp [State.markFinal]
  | q :: lits, seen => by
    have ih := markFinal_eq_true s x lits
      (if 0 < s.level q.var then Function.update seen q.var true else seen)
    unfold State.markFinal at ih ⊢
    rw [List.foldl_cons, ih, List.map_cons, List.mem_cons]
    by_cases hx : x = q.var
    · subst hx
      by_cases hl : 0 < s.level q.var
      · simp [hl]
      · simp [hl]
    · by_cases hl : 0 < s.level q.var
      · simp [hl, hx]
      · simp [hl, hx]

/-- The literals of a reason that are marked, other than the one it implied. -/
theorem IsReason.mem_marked {t : Trail} {c : Clause} {i : Nat} (h : IsReason t c i p)
    (hsize : 2 ≤ c.size) (hq : q ∈ c.lits) (hne : q ≠ p) :
    q ∈ if c.size = 2 then c.lits else c.lits.drop 1 := by
  split
  · exact hq
  · rename_i htwo
    rw [Clause.lits_cons hsize, h.first htwo] at hq
    exact (List.mem_cons.mp hq).resolve_left hne

/-! ## The part of the trail that is still to be read -/

/-- The literals `qs` are still to be read, between level 0 and `rest`. -/
structure ToRead (s : State) (qs : List Lit) (low rest : List Lit) : Prop where
  trail : s.trail = low ++ qs.reverse ++ rest
  low : ∀ r, r ∈ low ↔ r ∈ s.trail ∧ s.level r.var ≤ 0

theorem toRead_start (hok : TrailOk s.toTrail) :
    ToRead s (s.trail.drop (s.lim 0)).reverse (s.trail.take (s.lim 0)) [] where
  trail := by rw [List.reverse_reverse, List.append_nil, List.take_append_drop]
  low _ := hok.mem_take_iff_level

namespace ToRead

variable {low rest qs : List Lit}

theorem next (h : ToRead s (q :: qs) low rest) : ToRead s qs low (q :: rest) :=
  ⟨by rw [h.trail, List.reverse_cons, ← List.append_assoc, List.append_assoc _ [q]]; rfl, h.low⟩

theorem mem (h : ToRead s qs low rest) (hq : q ∈ qs) : q ∈ s.trail := by
  rw [h.trail]
  exact List.mem_append_left _ (List.mem_append_right _ (List.mem_reverse.mpr hq))

/-- The position of the literal that is read. -/
theorem getElem? (h : ToRead s (q :: qs) low rest) :
    s.trail[(low ++ qs.reverse).length]? = some q := by
  rw [h.next.trail, List.getElem?_append_right (Nat.le_refl _), Nat.sub_self]
  rfl

theorem take (h : ToRead s qs low rest) :
    s.trail.take (low ++ qs.reverse).length = low ++ qs.reverse := by
  rw [h.trail, List.take_left]

/-- The literals to be read are above level 0. -/
theorem level_pos (h : ToRead s qs low rest) (hok : TrailOk s.toTrail) (hq : q ∈ qs) :
    0 < s.level q.var := by
  refine Nat.pos_of_ne_zero fun hzero => ?_
  have hnodup := hok.nodup
  rw [h.trail, List.map_append, List.map_append] at hnodup
  exact (List.nodup_append.mp (List.nodup_append.mp hnodup).1).2.2 _
    (List.mem_map_of_mem ((h.low q).mpr ⟨h.mem hq, hzero.le⟩)) _
    (List.mem_map_of_mem (List.mem_reverse.mpr hq)) rfl

theorem var_ne (h : ToRead s (q :: qs) low rest) (hok : TrailOk s.toTrail) {r : Lit}
    (hr : r ∈ qs) : r.var ≠ q.var := by
  have hnodup := hok.nodup
  rw [h.next.trail, List.map_append] at hnodup
  exact (List.nodup_append.mp hnodup).2.2 _
    (List.mem_map_of_mem (List.mem_append_right _ (List.mem_reverse.mpr hr))) _
    (List.mem_map_of_mem List.mem_cons_self)

/-- A literal of the reason of `q` that is marked is `q`, or its complement is to be read. -/
theorem marked (h : ToRead s (q :: qs) low rest) (hok : StateOk F s) {cr : CRef}
    (hr : s.reason q.var = some cr) {l : Lit} (hl : l ∈ (s.ca cr).lits)
    (hpos : 0 < s.level l.var) : l = q ∨ l.neg ∈ qs := by
  refine Classical.or_iff_not_imp_left.mpr fun hlq => ?_
  obtain ⟨_, hreason⟩ := hok.reasons _ _ h.getElem? (h.level_pos hok.trail List.mem_cons_self)
  have hmem := (hreason cr hr).2.false_before l hl hlq
  rw [h.next.take] at hmem
  rcases List.mem_append.mp hmem with hlow | hqs
  · have hzero := ((h.low _).mp hlow).2
    rw [var_neg] at hzero
    exact absurd hpos (Nat.not_lt.mpr hzero)
  · exact List.mem_reverse.mp hqs

end ToRead

/-! ## The loop -/

/-- Only literals that are still to be read are marked, and `y`. -/
def MarkedIn (seen : Var → Bool) (qs : List Lit) (y : Var) : Prop :=
  ∀ x, seen x = true → x ∈ qs.map Lit.var ∨ x = y

theorem MarkedIn.unmark {seen : Var → Bool} {qs : List Lit} {y : Var}
    (h : MarkedIn seen (q :: qs) y) : MarkedIn (Function.update seen q.var false) qs y := by
  intro x hx
  rw [Function.update_apply] at hx
  split at hx
  · exact absurd hx Bool.false_ne_true
  · rename_i hxq
    exact (h x hx).imp_left fun hx => (List.mem_cons.mp hx).resolve_left hxq

/-- The literals of a reason that are marked are still to be read. -/
theorem ToRead.markedIn {qs low rest : List Lit} {y : Var} {seen : Var → Bool} {cr : CRef}
    (h : ToRead s (q :: qs) low rest) (hok : StateOk F s) (hr : s.reason q.var = some cr)
    (hmarked : MarkedIn seen (q :: qs) y) :
    MarkedIn (s.markFinal (if (s.ca cr).size = 2 then (s.ca cr).lits
      else (s.ca cr).lits.drop 1) seen) (q :: qs) y := by
  intro x hx
  rcases (markFinal_eq_true s x _ seen).mp hx with hx | ⟨hx, hxpos⟩
  · exact hmarked x hx
  · obtain ⟨l, hl, rfl⟩ := List.mem_map.mp hx
    have hl : l ∈ (s.ca cr).lits := by
      split at hl
      · exact hl
      · exact List.mem_of_mem_drop hl
    rcases h.marked hok hr hl hxpos with rfl | hqs
    · exact Or.inl List.mem_cons_self
    · exact Or.inl (List.mem_cons_of_mem _ (List.mem_map.mpr ⟨l.neg, hqs, rfl⟩))

/-- What the loop does, from the marks `seen`: if the decisions `ds` that it collects hold, then so
do the marked literals of `qs`. -/
structure Collected (F : Formula) (s : State) (qs : List Lit) (y : Var) (seen : Var → Bool)
    (ds : List Lit) (seen' : Var → Bool) : Prop where
  clear : ∀ x, seen' x = true → x = y
  decision : ∀ d ∈ ds, d.neg ∈ s.trail ∧ s.reason d.var = none ∧ 0 < s.level d.var
  implied : ∀ σ, Sat σ F → (∀ d ∈ ds, d.eval σ = false) →
    ∀ q ∈ qs, seen q.var = true → q.eval σ = true

variable {qs low rest : List Lit} {y : Var} {seen : Var → Bool}

theorem Collected.nil (hmarked : MarkedIn seen [] y) : Collected F s [] y seen [] seen :=
  ⟨fun x hx => (hmarked x hx).resolve_left List.not_mem_nil,
    fun _ hd => absurd hd List.not_mem_nil, fun _ _ _ _ hq => absurd hq List.not_mem_nil⟩

/-- The literal is not marked. -/
theorem Collected.skip {ds : List Lit} {seen' : Var → Bool} (h : Collected F s qs y seen ds seen')
    (hseen : seen q.var ≠ true) : Collected F s (q :: qs) y seen ds seen' := by
  refine ⟨h.clear, h.decision, fun σ hσ hfalse r hr hrs => ?_⟩
  rcases List.mem_cons.mp hr with rfl | hr
  · exact absurd hrs hseen
  · exact h.implied σ hσ hfalse r hr hrs

/-- The literal is a decision. -/
theorem Collected.decided {ds : List Lit} {seen' : Var → Bool} (hread : ToRead s (q :: qs) low rest)
    (hok : StateOk F s) (hr : s.reason q.var = none)
    (h : Collected F s qs y (Function.update seen q.var false) ds seen') :
    Collected F s (q :: qs) y seen (q.neg :: ds) seen' := by
  refine ⟨h.clear, fun d hd => ?_, fun σ hσ hfalse r hr' hrs => ?_⟩
  · rcases List.mem_cons.mp hd with rfl | hd
    · rw [neg_neg]
      have hpos : 0 < s.level q.var := hread.level_pos hok.trail List.mem_cons_self
      exact ⟨hread.mem List.mem_cons_self, hr, hpos⟩
    · exact h.decision d hd
  · rcases List.mem_cons.mp hr' with rfl | hr'
    · have := hfalse _ List.mem_cons_self
      rwa [Lit.eval_neg, Bool.not_eq_false'] at this
    · refine h.implied σ hσ (fun d hd => hfalse d (List.mem_cons_of_mem _ hd)) r hr' ?_
      rw [Function.update_of_ne (hread.var_ne hok.trail hr')]
      exact hrs

/-- The literal was implied by a clause, whose other literals are marked. -/
theorem Collected.reason {ds : List Lit} {seen' : Var → Bool} {cr : CRef}
    (hread : ToRead s (q :: qs) low rest) (hok : StateOk F s) (hr : s.reason q.var = some cr)
    (h : Collected F s qs y (Function.update (s.markFinal (if (s.ca cr).size = 2 then (s.ca cr).lits
      else (s.ca cr).lits.drop 1) seen) q.var false) ds seen') :
    Collected F s (q :: qs) y seen ds seen' := by
  obtain ⟨_, hreason⟩ := hok.reasons _ _ hread.getElem?
    (hread.level_pos hok.trail List.mem_cons_self)
  obtain ⟨hlive, hreason⟩ := hreason cr hr
  have himplied : ∀ σ, Sat σ F → (∀ d ∈ ds, d.eval σ = false) → ∀ r ∈ qs,
      seen r.var = true ∨ r.var ∈ (if (s.ca cr).size = 2 then (s.ca cr).lits
        else (s.ca cr).lits.drop 1).map Lit.var → r.eval σ = true := by
    intro σ hσ hfalse r hr' hrs
    refine h.implied σ hσ hfalse r hr' ?_
    rw [Function.update_of_ne (hread.var_ne hok.trail hr'), markFinal_eq_true]
    exact hrs.imp_right fun hrl =>
      ⟨hrl, hread.next.level_pos hok.trail hr'⟩
  refine ⟨h.clear, h.decision, fun σ hσ hfalse r hr' hrs => ?_⟩
  rcases List.mem_cons.mp hr' with rfl | hr'
  · obtain ⟨l, hl, hlσ⟩ := hok.equiv.entails cr hlive.1 σ hσ
    by_cases hlr : l = r
    · exact hlr ▸ hlσ
    · -- another literal of the clause would be false
      have hlfalse : l.neg.eval σ = true := by
        rcases Nat.eq_zero_or_pos (s.level l.var) with hzero | hpos
        · have hmem := List.mem_of_mem_take (hreason.false_before l hl hlr)
          obtain ⟨_, hl', hlσ'⟩ := hok.equiv.neg_fixed hmem hzero σ hσ
          rwa [List.mem_singleton.mp hl'] at hlσ'
        · refine himplied σ hσ hfalse l.neg ((hread.marked hok hr hl hpos).resolve_left hlr) ?_
          refine Or.inr (List.mem_map.mpr ⟨l, ?_, rfl⟩)
          exact hreason.mem_marked (hok.db.size cr hlive.1) hl hlr
      rw [Lit.eval_neg, hlσ] at hlfalse
      exact absurd hlfalse (by simp)
  · exact himplied σ hσ hfalse r hr' (Or.inl hrs)

/-- **The loop**, by induction on the literals that are still to be read. -/
theorem finalLoop_spec (hok : StateOk F s) (low : List Lit) (y : Var) :
    ∀ (qs rest : List Lit) (seen : Var → Bool) (out : List Lit), ToRead s qs low rest →
      MarkedIn seen qs y → ∃ ds seen', s.finalLoop qs seen out = .ok (out ++ ds, seen') ∧
        Collected F s qs y seen ds seen' := by
  intro qs
  induction qs with
  | nil =>
    intro rest seen out _ hmarked
    exact ⟨[], seen, by rw [List.append_nil]; rfl, Collected.nil hmarked⟩
  | cons q qs ih =>
    intro rest seen out hread hmarked
    have hpos := hread.level_pos hok.trail List.mem_cons_self
    unfold State.finalLoop
    by_cases hseen : seen q.var = true
    · simp only [hseen, if_true]
      cases hr : s.reason q.var with
      | none =>
        simp only [Nat.ne_of_gt hpos, if_false]
        obtain ⟨ds, seen', hrun, hc⟩ := ih (q :: rest) (Function.update seen q.var false)
          (out ++ [q.neg]) hread.next hmarked.unmark
        exact ⟨q.neg :: ds, seen', by rw [hrun, List.append_assoc]; rfl, hc.decided hread hok hr⟩
      | some cr =>
        simp only []
        obtain ⟨ds, seen', hrun, hc⟩ := ih (q :: rest) _ out hread.next
          (hread.markedIn hok hr hmarked).unmark
        exact ⟨ds, seen', hrun, hc.reason hread hok hr⟩
    · simp only [hseen, Bool.false_eq_true, if_false]
      obtain ⟨ds, seen', hrun, hc⟩ := ih (q :: rest) seen out hread.next fun x hx => by
        refine (hmarked x hx).imp_left fun hx' => ?_
        rcases List.mem_cons.mp hx' with rfl | hx'
        · exact absurd hx hseen
        · exact hx'
      exact ⟨ds, seen', hrun, hc.skip hseen⟩

/-- **`analyzeFinal`**, called on a literal of the trail, returns an entailed clause: the literal,
and complements of decisions. -/
theorem analyzeFinal_spec {s : Solver} (hok : StateOk F s.toState) (hseen : ∀ x, s.seen x = false)
    (hp : p ∈ s.trail) :
    ∃ ds, s.analyzeFinal p = .ok (p :: ds, s) ∧ Entails F (p :: ds) ∧
      ∀ d ∈ ds, d.neg ∈ s.trail ∧ s.reason d.var = none ∧ 0 < s.level d.var := by
  unfold Solver.analyzeFinal
  by_cases hlevel : s.decisionLevel = 0
  · rw [if_pos hlevel]
    have := hok.trail.level_le hp
    exact ⟨[], rfl, hok.equiv.fixed p hp (by omega), fun d hd => absurd hd List.not_mem_nil⟩
  · rw [if_neg hlevel]
    have hread := toRead_start hok.trail
    obtain ⟨ds, seen', hrun, hc⟩ := finalLoop_spec hok _ p.var _ _
      (Function.update s.seen p.var true) [p] hread fun x hx => by
        rw [Function.update_apply] at hx
        split at hx
        · exact Or.inr ‹_›
        · exact absurd hx (by simp [hseen])
    have hclear : Function.update seen' p.var false = s.seen := by
      funext x
      rw [Function.update_apply, hseen]
      split
      · rfl
      · rename_i hx
        exact eq_false_of_ne_true fun h => hx (hc.clear x h)
    refine ⟨ds, ?_, fun σ hσ => ?_, hc.decision⟩
    · rw [hrun]
      simp only [ok_bind, hclear]
      rfl
    · by_cases hds : ∃ d ∈ ds, d.eval σ = true
      · obtain ⟨d, hd, hdσ⟩ := hds
        exact ⟨d, List.mem_cons_of_mem _ hd, hdσ⟩
      · refine ⟨p, List.mem_cons_self, ?_⟩
        have hds : ∀ d ∈ ds, d.eval σ = false := fun d hd =>
          eq_false_of_ne_true fun h => hds ⟨d, hd, h⟩
        rcases Nat.eq_zero_or_pos (s.level p.var) with hzero | hpos
        · obtain ⟨_, hl, hlσ⟩ := hok.equiv.fixed p hp hzero σ hσ
          exact List.mem_singleton.mp hl ▸ hlσ
        · refine hc.implied σ hσ hds p ?_ (Function.update_self ..)
          rw [List.mem_reverse]
          have := hp
          rw [← List.take_append_drop (s.lim 0) s.trail] at this
          refine (List.mem_append.mp this).resolve_left fun hlow => ?_
          exact absurd (hok.trail.mem_take_iff_level.mp hlow).2 (Nat.not_le.mpr hpos)

end SymBreak.Glucose
