import SymBreak.Glucose.Minimise

/-!
# The learnt clause

Model of the end of `analyze` (`core/Solver.cc`): binary clauses of the asserting literal shorten
the learnt clause, and the literal of the greatest level comes to position 1. As in the other parts
of `analyze`, lists of literals are those of `out_learnt` from position 1 on.

**`analyze_spec`** states the two post-conditions of the source's comment, that the clause is
entailed by the clauses that were added, and that the marks are cleared, when `analyze` is not
`TooDeep`.
-/

namespace SymBreak.Glucose

open Cnf

/-- Mark the variables of `qs` in `permDiff` (`Solver.cc:416-418`). -/
def markLits (qs : List Lit) : Var → Bool :=
  qs.foldl (fun permDiff q => Function.update permDiff q.var true) fun _ => false

/-- Take the marks off the variables that `p` implies (`Solver.cc:421-428`). -/
def unmarkImplied (s : State) (ws : List Watcher) (permDiff : Var → Bool) : (Var → Bool) × Nat :=
  ws.foldl (fun (permDiff, nb) w =>
    if permDiff w.blocker.var = true ∧ s.value w.blocker = .l_True then
      (Function.update permDiff w.blocker.var false, nb + 1)
    else (permDiff, nb)) (permDiff, 0)

/-- Swap the literals without a mark behind position `bound` (`Solver.cc:432-438`). -/
def partitionMarked (permDiff : Var → Bool) (bound : Nat) :
    Nat → List Lit → Nat → Nat → List Lit
  | 0, qs, _, _ => qs
  | fuel + 1, qs, i, l =>
    if i < bound then
      if permDiff (qs.getD i default).var = true then
        partitionMarked permDiff bound fuel qs (i + 1) l
      else partitionMarked permDiff bound fuel (Mtl.swap qs l i) i (l - 1)
    else qs

/-- `minimisationWithBinaryResolution` (`Solver.cc:407-445`), where `p` is the complement of the
asserting literal. -/
def minimisationWithBinaryResolution (o : Options) (s : State) (p : Lit) (qs : List Lit) :
    Result (List Lit) := do
  let lbd ← s.computeLBD (p.neg :: qs)
  if lbd ≤ o.lbLBDMinimizingClause then
    let (permDiff, nb) := unmarkImplied s (s.watchesBin.occs p) (markLits qs)
    .ok (if 0 < nb then
        (partitionMarked permDiff (qs.length - nb) qs.length qs 0 (qs.length - 1)).take
          (qs.length - nb)
      else qs)
  else .ok qs

/-- Bring a literal of the greatest level to the front (`Solver.cc:634-647`). -/
def backtrackLevel (s : State) (qs : List Lit) : List Lit × Nat :=
  match qs with
  | [] => ([], 0)
  | _ :: _ =>
    let maxI := Mtl.bestIndex (fun p q => s.level q.var < s.level p.var) qs 0
    (Mtl.swap qs maxI 0, s.level (qs.getD maxI default).var)

/-- What `analyze` returns. -/
structure LearntClause where
  clause : List Lit
  btlevel : Nat
  lbd : Nat

/-- `analyze` (`Solver.cc:507-679`) -/
def Solver.analyze (o : Options) (s : Solver) (confl : CRef) : Result (LearntClause × Solver) := do
  let a ← Analysis.resolve o ⟨s.toState, s.seen, [], 0⟩ (some confl) none
  let (p, a) ← Analysis.analyzeLoop o s.trail.length a
  let levels := a.outLearnt.foldl
    (fun levels q => levels ||| Redundancy.abstractLevel a.toState q.var) 0
  let (qs, r) ← Redundancy.keepLoop o levels a.outLearnt []
    ⟨a.toState, a.seen, p.neg :: a.outLearnt, []⟩
  let qs ← (if qs.length + 1 ≤ o.lbSizeMinimizingClause then
      minimisationWithBinaryResolution o r.toState p qs
    else .ok qs)
  let (qs, btlevel) := backtrackLevel r.toState qs
  let lbd ← r.computeLBD (p.neg :: qs)
  .ok (⟨p.neg :: qs, btlevel, lbd⟩,
    { s with
      toState := r.toState
      seen := r.toclear.foldl (fun seen p => Function.update seen p.var false) r.seen })

/-! ## Binary resolution -/

variable {F : Formula} {s : State} {p q : Lit} {qs : List Lit} {permDiff : Var → Bool} {nb n : Nat}

theorem markLits_eq (qs : List Lit) (x : Var) : markLits qs x = decide (x ∈ qs.map Lit.var) := by
  have key : ∀ (qs : List Lit) (seen : Var → Bool),
      qs.foldl (fun permDiff q => Function.update permDiff q.var true) seen x =
        (seen x || decide (x ∈ qs.map Lit.var)) := by
    intro qs
    induction qs with
    | nil => simp
    | cons q qs ih =>
      intro seen
      rw [List.foldl_cons, ih, Function.update_apply]
      by_cases hx : x = q.var
      · simp [hx]
      · simp [hx]
  exact (key qs _).trans (Bool.false_or _)

/-- The marks that were taken off are those of literals that a binary clause of `ws` makes
redundant, and `nb` is their number. -/
structure Unmarked (s : State) (ws : List Watcher) (qs : List Lit) (permDiff : Var → Bool)
    (nb : Nat) : Prop where
  count : qs.countP (fun q => !permDiff q.var && true) = nb
  mem : ∀ x, permDiff x = true → x ∈ qs.map Lit.var
  implied : ∀ q ∈ qs, permDiff q.var = false →
    ∃ w ∈ ws, w.blocker.var = q.var ∧ s.value w.blocker = .l_True

theorem unmarked_start (s : State) (ws : List Watcher) (qs : List Lit) :
    Unmarked s ws qs (markLits qs) 0 := by
  have hall : ∀ q ∈ qs, markLits qs q.var = true := fun q hq => by
    rw [markLits_eq]
    exact decide_eq_true (List.mem_map_of_mem hq)
  refine ⟨?_, fun x hx => ?_, fun q hq hno => ?_⟩
  · rw [List.countP_eq_zero]
    intro q hq
    simp [hall q hq]
  · rw [markLits_eq] at hx
    exact of_decide_eq_true hx
  · rw [hall q hq] at hno
    exact absurd hno (by simp)

/-- One mark is taken off. -/
theorem Unmarked.step {ws : List Watcher} {w : Watcher} (h : Unmarked s ws qs permDiff nb)
    (hnodup : (qs.map Lit.var).Nodup) (hw : w ∈ ws) (hmark : permDiff w.blocker.var = true)
    (hvalue : s.value w.blocker = .l_True) :
    Unmarked s ws qs (Function.update permDiff w.blocker.var false) (nb + 1) := by
  obtain ⟨q, hq, hqw⟩ := List.mem_map.mp (h.mem _ hmark)
  refine ⟨?_, fun x hx => ?_, fun r hr hno => ?_⟩
  · rw [← h.count]
    have hone : qs.countP (fun r => Function.update (fun x => !permDiff x) q.var true r.var && true)
        = qs.countP (fun r => !permDiff r.var && true) + 1 :=
      countP_mark hnodup hq (by rw [hqw, hmark]; rfl) rfl
    rw [← hone]
    refine List.countP_congr fun r _ => ?_
    rw [Function.update_apply, Function.update_apply, hqw]
    split
    · simp
    · exact Iff.rfl
  · rw [Function.update_apply] at hx
    split at hx
    · exact absurd hx Bool.false_ne_true
    · exact h.mem x hx
  · by_cases hrw : r.var = w.blocker.var
    · exact ⟨w, hw, hrw.symm, hvalue⟩
    · rw [Function.update_of_ne hrw] at hno
      exact h.implied r hr hno

/-- **The marks that are taken off**, over all binary clauses of the literal. -/
theorem unmarkImplied_spec (s : State) (ws : List Watcher) (hnodup : (qs.map Lit.var).Nodup) :
    Unmarked s ws qs (unmarkImplied s ws (markLits qs)).1
      (unmarkImplied s ws (markLits qs)).2 := by
  have key : ∀ (vs : List Watcher) (m : (Var → Bool) × Nat), (∀ w ∈ vs, w ∈ ws) →
      Unmarked s ws qs m.1 m.2 →
      Unmarked s ws qs (vs.foldl (fun (permDiff, nb) w =>
        if permDiff w.blocker.var = true ∧ s.value w.blocker = .l_True then
          (Function.update permDiff w.blocker.var false, nb + 1)
        else (permDiff, nb)) m).1 (vs.foldl (fun (permDiff, nb) w =>
        if permDiff w.blocker.var = true ∧ s.value w.blocker = .l_True then
          (Function.update permDiff w.blocker.var false, nb + 1)
        else (permDiff, nb)) m).2 := by
    intro vs
    induction vs with
    | nil => exact fun _ _ h => h
    | cons w vs ih =>
      intro m hvs h
      obtain ⟨hw, hvs⟩ := List.forall_mem_cons.mp hvs
      rw [List.foldl_cons]
      refine ih _ hvs ?_
      by_cases hc : m.1 w.blocker.var = true ∧ s.value w.blocker = .l_True
      · simp only [if_pos hc]
        exact h.step hnodup hw hc.1 hc.2
      · simp only [if_neg hc]
        exact h
  exact key ws _ (fun _ hw => hw) (unmarked_start s ws qs)

/-! ## The partition -/

/-- The positions before `i` hold literals with a mark, those behind `l` literals without. -/
structure Partitioning (permDiff : Var → Bool) (nb : Nat) (qs : List Lit) (i l : Nat) : Prop where
  count : qs.countP (fun q => !permDiff q.var) = nb
  low : ∀ k x, k < i → qs[k]? = some x → permDiff x.var = true
  high : ∀ k x, l ≤ k → qs[k]? = some x → permDiff x.var = false
  le : i ≤ qs.length - nb
  bound : qs.length - nb ≤ l
  lt : l ≤ qs.length

/-- The literals without a mark are all behind the bound when the scan has reached it. -/
theorem Partitioning.done {l : Nat} (h : Partitioning permDiff nb qs (qs.length - nb) l) :
    ∀ x ∈ qs.drop (qs.length - nb), permDiff x.var = false := by
  have hle : nb ≤ qs.length := h.count ▸ List.countP_le_length
  have hzero : (qs.take (qs.length - nb)).countP (fun q => !permDiff q.var) = 0 := by
    rw [List.countP_eq_zero]
    intro x hx
    obtain ⟨k, hk, hkx⟩ := mem_take_iff.mp hx
    simp [h.low k x hk hkx]
  have hcount := h.count
  rw [← List.take_append_drop (qs.length - nb) qs, List.countP_append, hzero, Nat.zero_add]
    at hcount
  have hall : (qs.drop (qs.length - nb)).countP (fun q => !permDiff q.var) =
      (qs.drop (qs.length - nb)).length := by
    rw [hcount, List.length_drop]
    omega
  intro x hx
  have := List.countP_eq_length.mp hall x hx
  simpa using this

/-- A literal without a mark before the bound makes one more than those behind `l`. -/
theorem Partitioning.bound_lt {i l : Nat} (h : Partitioning permDiff nb qs i l) {q : Lit}
    (hi : i < qs.length - nb) (hget : qs[i]? = some q) (hmark : permDiff q.var = false) :
    qs.length - nb < l := by
  refine Nat.lt_of_le_of_ne h.bound fun heq => ?_
  have hcount := h.count
  have hall : (qs.drop (qs.length - nb)).countP (fun q => !permDiff q.var) = nb := by
    rw [List.countP_eq_length.mpr, List.length_drop]
    · have : nb ≤ qs.length := h.count ▸ List.countP_le_length
      omega
    · intro x hx
      obtain ⟨k, hkx⟩ := List.mem_iff_getElem?.mp hx
      rw [List.getElem?_drop] at hkx
      simp [h.high _ x (by omega) hkx]
  have hone : 0 < (qs.take (qs.length - nb)).countP (fun q => !permDiff q.var) := by
    rw [List.countP_pos_iff]
    exact ⟨q, mem_take_iff.mpr ⟨i, hi, hget⟩, by simpa using hmark⟩
  rw [← List.take_append_drop (qs.length - nb) qs, List.countP_append, hall] at hcount
  omega

/-- It changes places with the last one before `l`. -/
theorem Partitioning.swap {i l : Nat} (h : Partitioning permDiff nb qs i l) {q : Lit}
    (hi : i < qs.length - nb) (hget : qs[i]? = some q) (hmark : permDiff q.var = false) :
    Partitioning permDiff nb (Mtl.swap qs (l - 1) i) i (l - 1) := by
  have hl := h.bound_lt hi hget hmark
  have hlt := h.lt
  have hswap := Mtl.getElem?_swap (show l - 1 < qs.length by omega) (show i < qs.length by omega)
  refine ⟨((Mtl.swap_perm qs (l - 1) i).countP_eq _).trans h.count, fun k x hk hx => ?_,
    fun k x hk hx => ?_, ?_, ?_, ?_⟩
  · rw [hswap, if_neg (by omega), if_neg (by omega)] at hx
    exact h.low k x hk hx
  · rw [hswap, if_neg (by omega)] at hx
    split at hx
    · rw [hget] at hx
      exact Option.some.inj hx ▸ hmark
    · exact h.high k x (by omega) hx
  · rw [Mtl.length_swap]
    exact h.le
  · rw [Mtl.length_swap]
    omega
  · rw [Mtl.length_swap]
    omega

/-- **The partition** is a permutation, with the literals without a mark behind the bound. -/
theorem partitionMarked_spec : ∀ (fuel : Nat) (qs : List Lit) (i l : Nat),
    l ≤ i + fuel → Partitioning permDiff nb qs i l →
    ∃ rs, partitionMarked permDiff (qs.length - nb) fuel qs i (l - 1) = rs ∧ rs.Perm qs ∧
      ∀ x ∈ rs.drop (qs.length - nb), permDiff x.var = false := by
  intro fuel
  induction fuel with
  | zero =>
    intro qs i l hfuel h
    obtain rfl : i = qs.length - nb := by have := h.le; have := h.bound; omega
    exact ⟨qs, rfl, List.Perm.refl _, h.done⟩
  | succ fuel ih =>
    intro qs i l hfuel h
    unfold partitionMarked
    by_cases hi : i < qs.length - nb
    · rw [if_pos hi]
      have hilt : i < qs.length := by omega
      have hget : qs[i]? = some (qs.getD i default) := by
        rw [List.getD_eq_getElem?_getD, List.getElem?_eq_getElem hilt, Option.getD_some]
      by_cases hmark : permDiff (qs.getD i default).var = true
      · rw [if_pos hmark]
        refine ih qs (i + 1) l (by omega) ⟨h.count, fun k x hk hx => ?_, h.high, hi, h.bound, h.lt⟩
        rcases Nat.lt_succ_iff_lt_or_eq.mp hk with hk | rfl
        · exact h.low k x hk hx
        · exact Option.some.inj (hget.symm.trans hx) ▸ hmark
      · rw [if_neg hmark]
        have hmark := eq_false_of_ne_true hmark
        have hl := h.bound_lt hi hget hmark
        obtain ⟨rs, hrun, hrs, hunmarked⟩ := ih _ i (l - 1) (by omega) (h.swap hi hget hmark)
        rw [Mtl.length_swap] at hrun hunmarked
        exact ⟨rs, hrun, hrs.trans (Mtl.swap_perm qs (l - 1) i), hunmarked⟩
    · obtain rfl : i = qs.length - nb := by have := h.le; omega
      rw [if_neg hi]
      exact ⟨qs, rfl, List.Perm.refl _, h.done⟩

/-- The literals of a clause whose complements are on the trail. -/
theorem TrailOk.clause_level_le {t : Trail} (h : TrailOk t) (hp : p ∈ t.trail)
    (hfalse : ∀ q ∈ qs, q.neg ∈ t.trail) :
    ∀ q ∈ p.neg :: qs, t.level q.var ≤ t.decisionLevel := by
  intro q hq
  rcases List.mem_cons.mp hq with rfl | hq
  · exact h.level_le (p := p) hp
  · exact h.level_le (p := q.neg) (hfalse q hq)

/-- **Binary resolution**: literals are dropped whose complement is implied by `p`. -/
theorem minimisation_spec {o : Options} (hok : StateOk F s) (hp : p ∈ s.trail)
    (hfalse : ∀ q ∈ qs, q.neg ∈ s.trail) (hnodup : (qs.map Lit.var).Nodup)
    (hent : Entails F (p.neg :: qs)) :
    TooDeep s.toTrail (minimisationWithBinaryResolution o s p qs) ∨
      ∃ rs, minimisationWithBinaryResolution o s p qs = .ok rs ∧ (∀ q ∈ rs, q ∈ qs) ∧
        (rs.map Lit.var).Nodup ∧ Entails F (p.neg :: rs) := by
  unfold minimisationWithBinaryResolution
  rcases computeLBD_spec (hok.trail.clause_level_le hp hfalse) with hdeep | ⟨lbd, hlbd⟩
  · exact Or.inl hdeep.bind
  rw [hlbd, ok_bind]
  refine Or.inr ?_
  split
  · simp only []
    obtain ⟨hcount, _, himplied⟩ := unmarkImplied_spec s (s.watchesBin.occs p) hnodup
    generalize (unmarkImplied s (s.watchesBin.occs p) (markLits qs)).1 = permDiff
      at hcount himplied ⊢
    generalize (unmarkImplied s (s.watchesBin.occs p) (markLits qs)).2 = nb at hcount ⊢
    simp only [Bool.and_true] at hcount
    refine ⟨_, rfl, ?_⟩
    split
    · have hP : Partitioning permDiff nb qs 0 qs.length :=
        ⟨hcount, fun k _ hk => absurd hk (Nat.not_lt_zero k), fun k x hk hx => by
          rw [List.getElem?_eq_none hk] at hx
          exact absurd hx (by simp), Nat.zero_le _, Nat.sub_le _ _, Nat.le_refl _⟩
      obtain ⟨rs, hrun, hperm, hunmarked⟩ := partitionMarked_spec qs.length qs 0 qs.length
        (by omega) hP
      rw [hrun]
      refine ⟨fun q hq => hperm.subset (List.mem_of_mem_take hq),
        ((hperm.map _).nodup_iff.mpr hnodup).sublist ((List.take_sublist _ _).map _), ?_⟩
      intro σ hσ
      obtain ⟨q, hq, hqσ⟩ := hent σ hσ
      rcases List.mem_cons.mp hq with rfl | hq
      · exact ⟨_, List.mem_cons_self, hqσ⟩
      · have hqrs := hperm.symm.subset hq
        rw [← List.take_append_drop (qs.length - nb) rs] at hqrs
        rcases List.mem_append.mp hqrs with hqt | hqd
        · exact ⟨q, List.mem_cons_of_mem _ hqt, hqσ⟩
        · -- a literal that was dropped: the binary clause makes `p` false instead
          obtain ⟨w, hw, hwq, hval⟩ := himplied q hq (hunmarked q hqd)
          have hlt := hok.db.watchesBin.lt p w hw
          obtain ⟨x, hx, hxσ⟩ := hok.equiv.entails w.cref hlt σ hσ
          have hblocker : w.blocker = q.neg :=
            hok.trail.eq_of_var_eq ((hok.trail.value _).mp hval) (hfalse q hq) hwq
          rcases mem_bin hok.db hw hx with rfl | rfl
          · exact ⟨_, List.mem_cons_self, hxσ⟩
          · rw [hblocker, Lit.eval_neg, hqσ] at hxσ
            exact absurd hxσ (by simp)
    · exact ⟨fun _ hq => hq, hnodup, hent⟩
  · exact ⟨qs, rfl, fun _ hq => hq, hnodup, hent⟩

/-! ## The backtrack level -/

/-- The literal in front is of the greatest level. -/
theorem backtrackLevel_spec (s : State) (qs : List Lit) :
    (backtrackLevel s qs).1.Perm qs ∧
      (qs = [] → (backtrackLevel s qs).2 = 0) ∧
      (∀ q ∈ qs, s.level q.var ≤ (backtrackLevel s qs).2) ∧
      ∀ q, (backtrackLevel s qs).1.head? = some q → s.level q.var = (backtrackLevel s qs).2 := by
  cases qs with
  | nil =>
    exact ⟨List.Perm.refl _, fun _ => rfl, fun q hq => absurd hq List.not_mem_nil,
      fun q hq => absurd hq (by simp [backtrackLevel])⟩
  | cons q qs =>
    have : Std.Asymm fun p q : Lit => s.level q.var < s.level p.var :=
      ⟨fun _ _ h h' => Nat.lt_asymm h h'⟩
    have : IsOrderConnected Lit fun p q : Lit => s.level q.var < s.level p.var :=
      ⟨fun _ b _ h => (Nat.lt_or_ge (s.level b.var) _).imp_right fun hb => Nat.lt_of_lt_of_le h hb⟩
    have hpos : 0 < (q :: qs).length := Nat.succ_pos _
    obtain ⟨_, hlt, hmin⟩ : Mtl.LeastFrom (fun p q : Lit => s.level q.var < s.level p.var)
      (q :: qs) 0 (q :: qs).length
      (Mtl.bestIndex (fun p q : Lit => s.level q.var < s.level p.var) (q :: qs) 0) :=
      Mtl.bestIndex_spec hpos
    unfold backtrackLevel
    simp only []
    generalize Mtl.bestIndex (fun p q : Lit => s.level q.var < s.level p.var) (q :: qs) 0 = best
      at hlt hmin
    have hbest : (q :: qs)[best]? = some ((q :: qs).getD best default) := by
      rw [List.getD_eq_getElem?_getD, List.getElem?_eq_getElem hlt, Option.getD_some]
    refine ⟨Mtl.swap_perm _ _ _, fun h => absurd h (List.cons_ne_nil _ _), fun x hx => ?_,
      fun x hx => ?_⟩
    · obtain ⟨k, hk⟩ := List.mem_iff_getElem?.mp hx
      exact Nat.le_of_not_lt (hmin k x _ (Nat.zero_le k) (List.getElem?_eq_some_iff.mp hk).1 hk
        hbest)
    · rw [List.head?_eq_getElem?, Mtl.getElem?_swap hlt hpos, if_pos rfl, hbest] at hx
      rw [Option.some.inj hx]

/-! ## `analyze` -/

/-- What `analyze` learns from a conflict in `s`: the clause `p.neg :: qs` is entailed, its first
literal is the only one of the current level, the second one of the level to go back to. -/
structure Learns (F : Formula) (s : State) (p : Lit) (qs : List Lit) (btlevel : Nat) : Prop where
  mem : p ∈ s.trail
  level : s.level p.var = s.decisionLevel
  false_below : ∀ q ∈ qs, q.neg ∈ s.trail ∧ 0 < s.level q.var ∧ s.level q.var ≤ btlevel
  btlevel_lt : btlevel < s.decisionLevel
  btlevel_eq : ∀ q, qs.head? = some q → s.level q.var = btlevel
  unit : qs = [] → btlevel = 0
  nodup : ((p.neg :: qs).map Lit.var).Nodup
  entails : Entails F (p.neg :: qs)

variable {a : Analysis} {o : Options}

/-- **The clause of the implication point, minimised**, is still entailed. -/
theorem Analyzed.minimise (h : Analyzed F s p a) (levels : Nat) :
    ∃ qs r, Redundancy.keepLoop o levels a.outLearnt []
        ⟨a.toState, a.seen, p.neg :: a.outLearnt, []⟩ = .ok (qs, r) ∧
      r.toTrail = s.toTrail ∧ StateOk F r.toState ∧ InPlace s r.toClauseDb ∧
      qs.Sublist a.outLearnt ∧ Entails F (p.neg :: qs) ∧
      ∀ x, r.seen x = true → x ∈ r.toclear.map Lit.var := by
  have hstart : Minimising F s.toTrail p (fun x => x = p ∨ x.neg ∈ [] ++ a.outLearnt)
      ⟨a.toState, a.seen, p.neg :: a.outLearnt, []⟩ := by
    refine ⟨h.ok, h.trail, fun i x hi hx => Or.inl (hx.imp_right fun hseen => ?_), fun x hx => ?_⟩
    · obtain ⟨q, hq, hqx⟩ := List.mem_map.mp ((h.seen _).mp hseen)
      have hqmem := (h.learnt q hq).1
      have htrail : TrailOk s.toTrail := h.trail ▸ h.ok.trail
      have : q.neg = x := htrail.eq_of_var_eq hqmem (List.mem_of_getElem? hi) hqx
      rw [List.nil_append, ← this, neg_neg]
      exact hq
    · rw [List.map_cons]
      exact List.mem_cons_of_mem _ ((h.seen x).mp hx)
  obtain ⟨qs, r, hrun, hr, hsub, hmono, hplace⟩ := keepLoop_spec (o := o) levels a.outLearnt [] _
    hstart fun q hq => ⟨(h.learnt q hq).1, (h.learnt q hq).2.1⟩
  refine ⟨qs, r, hrun, hr.trail, hr.ok, ?_, hsub, ?_, hr.toclear⟩
  · have heq : a.toState = { s with toClauseDb := a.toClauseDb } := State.eq_of_toTrail h.trail
    rw [heq] at hplace
    exact h.inPlace.trans hplace
  · refine hr.closed.learn h.entails (fun q hq => ?_) fun x _ hx => ?_
    · rw [FalseBefore, List.take_length]
      rcases List.mem_cons.mp hq with rfl | hq
      · rw [neg_neg]
        exact Or.inr ⟨Or.inl rfl, h.mem⟩
      · refine Or.inr ⟨Or.inr (hmono _ ((h.seen _).mpr ?_)), (h.learnt q hq).1⟩
        exact List.mem_map.mpr ⟨q, hq, rfl⟩
    · rcases hx with rfl | hx
      · exact List.mem_cons_self
      · exact List.mem_cons_of_mem _ hx

/-- The level to go back to is the greatest one of the other literals, or 0. -/
theorem Learns.backtrackLevel {t : State} {rs : List Lit} (htrail : t.toTrail = s.toTrail)
    (hmem : p ∈ s.trail) (hlevel : s.level p.var = s.decisionLevel) (hpos : 0 < s.decisionLevel)
    (hrs : ∀ q ∈ rs, q.neg ∈ s.trail ∧ 0 < s.level q.var ∧ s.level q.var < s.decisionLevel)
    (hnodup : (rs.map Lit.var).Nodup) (hent : Entails F (p.neg :: rs)) :
    Learns F s p (backtrackLevel t rs).1 (backtrackLevel t rs).2 := by
  obtain ⟨hperm, hunit, hmax, hhead⟩ := backtrackLevel_spec t rs
  have hnil : (Glucose.backtrackLevel t rs).1 = [] → rs = [] := fun h =>
    List.eq_nil_of_length_eq_zero (by rw [← hperm.length_eq, h, List.length_nil])
  refine ⟨hmem, hlevel, fun q hq => ?_, ?_, fun q hq => ?_, fun h => hunit (hnil h), ?_, ?_⟩
  · obtain ⟨hqmem, hqpos, _⟩ := hrs q (hperm.subset hq)
    have hq := hmax q (hperm.subset hq)
    rw [htrail] at hq
    exact ⟨hqmem, hqpos, hq⟩
  · cases hh : (Glucose.backtrackLevel t rs).1.head? with
    | none =>
      rw [hunit (hnil (List.head?_eq_none_iff.mp hh))]
      exact hpos
    | some q =>
      rw [← hhead q hh, htrail]
      exact (hrs q (hperm.subset (List.mem_of_mem_head? hh))).2.2
  · have := hhead q hq
    rwa [htrail] at this
  · rw [List.map_cons, List.nodup_cons]
    refine ⟨fun hp => ?_, (hperm.map _).nodup_iff.mpr hnodup⟩
    obtain ⟨q, hq, hqp⟩ := List.mem_map.mp hp
    have hlt := (hrs q (hperm.subset hq)).2.2
    rw [hqp, var_neg, hlevel] at hlt
    exact Nat.lt_irrefl _ hlt
  · intro σ hσ
    obtain ⟨q, hq, hqσ⟩ := hent σ hσ
    refine ⟨q, ?_, hqσ⟩
    rcases List.mem_cons.mp hq with rfl | hq
    · exact List.mem_cons_self
    · exact List.mem_cons_of_mem _ (hperm.symm.subset hq)

/-- **`analyze`**, called on a false clause with a literal of the current level, above level 0. -/
theorem analyze_spec {s : Solver} {cr : CRef} (hok : StateOk F s.toState)
    (hseen : ∀ x, s.seen x = false) (hpos : 0 < s.decisionLevel) (hlive : s.Live cr)
    (hfalse : ∀ q ∈ (s.ca cr).lits, q.neg ∈ s.trail)
    (hcur : ∃ q ∈ (s.ca cr).lits, s.level q.var = s.decisionLevel) :
    TooDeep s.toTrail (s.analyze o cr) ∨
      ∃ p qs btlevel lbd db, s.analyze o cr =
          .ok (⟨p.neg :: qs, btlevel, lbd⟩, { s with toClauseDb := db, seen := fun _ => false }) ∧
        InPlace s.toState db ∧ Learns F s.toState p qs btlevel := by
  have hs : s.seen = fun _ => false := funext hseen
  unfold Solver.analyze
  rw [hs]
  rcases analyze_uip (o := o) hok hpos hlive hfalse hcur with hdeep | ⟨b, p, a, hres, hloop, ha⟩
  · rw [← bind_assoc]
    exact Or.inl hdeep.bind
  obtain ⟨qs, r, hkeep, htrail, hrok, hplace, hsub, hent, hclear⟩ := ha.minimise (o := o)
    (a.outLearnt.foldl (fun levels q => levels ||| Redundancy.abstractLevel a.toState q.var) 0)
  simp only [hres, ok_bind, hloop, hkeep]
  have hlearnt : ∀ q ∈ qs, q.neg ∈ s.trail ∧ 0 < s.level q.var ∧ s.level q.var < s.decisionLevel :=
    fun q hq => ha.learnt q (hsub.subset hq)
  have hnodup : (qs.map Lit.var).Nodup := ha.nodup.sublist (hsub.map _)
  have hp : p ∈ r.trail := by
    rw [htrail]
    exact ha.mem
  -- binary resolution drops more literals
  have hmin : TooDeep s.toTrail (if qs.length + 1 ≤ o.lbSizeMinimizingClause then
        minimisationWithBinaryResolution o r.toState p qs else .ok qs) ∨
      ∃ rs, (if qs.length + 1 ≤ o.lbSizeMinimizingClause then
        minimisationWithBinaryResolution o r.toState p qs else .ok qs) = .ok rs ∧
        (∀ q ∈ rs, q ∈ qs) ∧ (rs.map Lit.var).Nodup ∧ Entails F (p.neg :: rs) := by
    split
    · rw [← htrail]
      exact minimisation_spec hrok hp (fun q hq => by rw [htrail]; exact (hlearnt q hq).1) hnodup
        hent
    · exact Or.inr ⟨qs, rfl, fun _ hq => hq, hnodup, hent⟩
  rcases hmin with hdeep | ⟨rs, hrs, hmem, hrsnodup, hrsent⟩
  · exact Or.inl hdeep.bind
  rw [hrs, ok_bind]
  have hlearns : Learns F s.toState p (backtrackLevel r.toState rs).1
      (backtrackLevel r.toState rs).2 :=
    .backtrackLevel htrail ha.mem ha.level hpos (fun q hq => hlearnt q (hmem q hq)) hrsnodup hrsent
  have hlevels := hrok.trail.clause_level_le hp fun q hq => by
    rw [htrail]
    exact (hlearns.false_below q hq).1
  rcases computeLBD_spec hlevels with hdeep | ⟨lbd, hlbd⟩
  · exact Or.inl (htrail ▸ hdeep.bind)
  rw [hlbd, ok_bind]
  refine Or.inr ⟨p, _, _, lbd, r.toClauseDb, ?_, hplace, hlearns⟩
  have hstate : ({ s with toState := r.toState, seen := fun _ => false } : Solver) =
      { s with toClauseDb := r.toClauseDb, seen := fun _ => false } := by
    rw [State.eq_of_toTrail htrail]
  have hfalse' : r.toclear.foldl (fun seen p => Function.update seen p.var false) r.seen =
      fun _ => false := by
    funext x
    rw [clear_seen]
    split
    · rfl
    · rename_i hx
      exact eq_false_of_ne_true fun h => hx (hclear x h)
  rw [hfalse', hstate]

end SymBreak.Glucose
