import SymBreak.Glucose.Invariant

/-!
# Backtracking and decisions

`cancelUntil` and `pickBranchLit` (`core/Solver.cc`). The heap of the variables to pick from is
lazy: a variable may be in it while it has a value, but one that has none and may be picked must be
in it (`HeapOk`). `cancelUntil` puts back what it unassigns, and `pickBranchLit` takes out the
variables that may not be picked, so when it returns none then every decision variable has a value
(`pickBranchLit_spec`).
-/

namespace SymBreak.Glucose

open Cnf

variable {o : Options} {s s' : Solver} {x y : Var} {l : Nat}

/-- The heap holds the variables that may be picked. -/
structure HeapOk (s : Solver) : Prop where
  mem : ∀ x, x < s.nVars → s.decision x = true → s.assigns x = .l_Undef → x ∈ s.orderHeap
  lt : ∀ x ∈ s.orderHeap, x < s.nVars

theorem insertVarOrder_eq (s : Solver) (x : Var) :
    s.insertVarOrder x = { s with orderHeap := (s.insertVarOrder x).orderHeap } := by
  unfold Solver.insertVarOrder
  split
  · rfl
  · rfl

theorem mem_insertVarOrder :
    y ∈ (s.insertVarOrder x).orderHeap ↔ y ∈ s.orderHeap ∨ y = x ∧ s.decision x = true := by
  unfold Solver.insertVarOrder
  split
  · rename_i h
    simp [h.2]
  · rename_i h
    constructor
    · exact Or.inl
    · rintro (hy | ⟨rfl, hdec⟩)
      · exact hy
      · exact not_not.mp fun hno => h ⟨hno, hdec⟩

/-! ## `cancelUntil` -/

/-- The variables `xs` lost their values. -/
structure Canceled (s : Solver) (xs : List Var) (s' : Solver) : Prop where
  eq : s' = { s with
    assigns := fun x => if x ∈ xs then .l_Undef else s.assigns x
    polarity := s'.polarity
    orderHeap := s'.orderHeap }
  heap : ∀ x, x ∈ s'.orderHeap ↔ x ∈ s.orderHeap ∨ x ∈ xs ∧ s.decision x = true

theorem cancelTurn_spec (o : Options) (s : Solver) (pc : Lit × Nat) :
    Canceled s [pc.1.var] (s.cancelTurn o pc) := by
  unfold Solver.cancelTurn
  simp only []
  refine ⟨?_, fun x => ?_⟩
  · conv_lhs => rw [insertVarOrder_eq]
    have : (fun x => if x ∈ [pc.1.var] then LBool.l_Undef else s.assigns x) =
        Function.update s.assigns pc.1.var .l_Undef := by
      funext x
      simp only [List.mem_singleton, Function.update_apply]
    rw [this, insertVarOrder_eq]
  · rw [mem_insertVarOrder, List.mem_singleton]
    exact or_congr_right ⟨fun h => ⟨h.1, h.1 ▸ h.2⟩, fun h => ⟨h.1, h.1 ▸ h.2⟩⟩

theorem Canceled.trans {s'' : Solver} {xs ys : List Var} (h : Canceled s xs s')
    (h' : Canceled s' ys s'') : Canceled s (xs ++ ys) s'' := by
  have hdec : s'.decision = s.decision := by rw [h.eq]
  have hassigns : s'.assigns = fun x => if x ∈ xs then .l_Undef else s.assigns x := by rw [h.eq]
  refine ⟨?_, fun x => ?_⟩
  · have hfun : (fun x => if x ∈ xs ++ ys then LBool.l_Undef else s.assigns x) =
        fun x => if x ∈ ys then .l_Undef else s'.assigns x := by
      funext x
      rw [hassigns]
      by_cases hy : x ∈ ys
      · simp [hy]
      · simp [hy]
    rw [hfun, hassigns]
    conv_lhs => rw [h'.eq, h.eq]
  · rw [h'.heap, h.heap, hdec, List.mem_append, or_assoc, or_and_right]

theorem cancelTurns_spec (o : Options) : ∀ (pcs : List (Lit × Nat)) (s : Solver),
    Canceled s (pcs.map fun pc => pc.1.var) (pcs.foldl (Solver.cancelTurn o) s)
  | [], s => ⟨by simp, fun x => by simp⟩
  | pc :: pcs, s => (cancelTurn_spec o s pc).trans (cancelTurns_spec o pcs _)

/-- What `cancelUntil` does: the levels above `l` are given up. -/
structure Backtracked (s : Solver) (l : Nat) (s' : Solver) : Prop where
  toTrail : s'.toTrail = s.toTrail.cut l
  toClauseDb : s'.toClauseDb = s.toClauseDb
  control : s'.toControl = s.toControl
  decision : s'.decision = s.decision
  seen : s'.seen = s.seen
  propagations : s'.propagations = s.propagations
  qhead : s'.qhead = if l < s.decisionLevel then s.lim l else s.qhead
  heap : ∀ x, x ∈ s'.orderHeap ↔
    x ∈ s.orderHeap ∨ x ∈ (s.trail.drop (s.lim l)).map Lit.var ∧ s.decision x = true

theorem cut_of_le {t : Trail} (hl : t.decisionLevel ≤ l) : t.cut l = t := by
  have hlim := TrailOk.lim_eq_length hl
  unfold Trail.cut
  rw [hlim, List.take_length, List.drop_length, List.take_of_length_le hl]
  simp

theorem cancelUntil_spec (o : Options) (s : Solver) (l : Nat) :
    Backtracked s l (s.cancelUntil o l) := by
  unfold Solver.cancelUntil
  split
  · rename_i hl
    have hc := cancelTurns_spec o (s.trail.zipIdx.drop (s.lim l)).reverse s
    generalize (s.trail.zipIdx.drop (s.lim l)).reverse.foldl (Solver.cancelTurn o) s = t at hc
    have hmem : ∀ x, x ∈ (s.trail.zipIdx.drop (s.lim l)).reverse.map (fun pc => pc.1.var) ↔
        x ∈ (s.trail.drop (s.lim l)).map Lit.var := by
      intro x
      rw [List.map_reverse, List.mem_reverse, List.map_drop, List.map_drop]
      have : s.trail.zipIdx.map (fun pc => pc.1.var) = s.trail.map Lit.var := by
        conv_rhs => rw [← List.zipIdx_map_fst 0 s.trail, List.map_map]
        rfl
      rw [this]
    refine ⟨?_, ?_, ?_, ?_, ?_, ?_, (if_pos hl).symm, fun x => ?_⟩
    · rw [hc.eq]
      unfold Trail.cut
      simp only [hmem]
    · rw [hc.eq]
    · rw [hc.eq]
    · rw [hc.eq]
    · rw [hc.eq]
    · rw [hc.eq]
    · exact (hc.heap x).trans (or_congr_right (and_congr_left' (hmem x)))
  · rename_i hl
    have hcut := cut_of_le (Nat.le_of_not_lt hl)
    refine ⟨hcut.symm, rfl, rfl, rfl, rfl, rfl, (if_neg hl).symm, fun x => ?_⟩
    rw [TrailOk.lim_eq_length (Nat.le_of_not_lt hl), List.drop_length]
    simp

theorem Backtracked.heapOk (h : Backtracked s l s') (hok : TrailOk s.toTrail) (hheap : HeapOk s) :
    HeapOk s' where
  mem x hx hdec hundef := by
    rw [h.toTrail] at hx hundef
    rw [h.decision] at hdec
    rw [h.heap]
    by_cases hmem : x ∈ (s.trail.drop (s.lim l)).map Lit.var
    · exact Or.inr ⟨hmem, hdec⟩
    · simp only [Trail.cut, if_neg hmem] at hundef
      exact Or.inl (hheap.mem x hx hdec hundef)
  lt x hx := by
    rw [h.toTrail]
    rcases (h.heap x).mp hx with hx | ⟨hx, _⟩
    · exact hheap.lt x hx
    · obtain ⟨p, hp, rfl⟩ := List.mem_map.mp hx
      exact hok.below p (List.mem_of_mem_drop hp)

/-! ## `pickBranchLit` -/

theorem removeMin_spec (activity : Var → Nat) (heap : List Var) (x : Var) :
    (Solver.removeMin activity heap x).1 ∈ x :: heap ∧
      (Solver.removeMin activity heap x).2 =
        (x :: heap).erase (Solver.removeMin activity heap x).1 := by
  refine ⟨?_, rfl⟩
  have key : ∀ (heap : List Var) (x : Var),
      heap.foldl (fun b w => if activity b < activity w then w else b) x ∈ x :: heap := by
    intro heap
    induction heap with
    | nil => exact fun x => List.mem_cons_self
    | cons w heap ih =>
      intro x
      rw [List.foldl_cons]
      split
      · exact List.mem_cons_of_mem _ (ih w)
      · rcases List.mem_cons.mp (ih x) with h | h
        · rw [h]
          exact List.mem_cons_self
        · exact List.mem_cons_of_mem _ (List.mem_cons_of_mem _ h)
  exact key heap x

theorem pickable_iff : s.pickable (some x) = true ↔
    s.assigns x = .l_Undef ∧ s.decision x = true := by
  simp [Solver.pickable]

theorem pickLoop_spec (activity : Var → Nat) : ∀ (n : Nat) (s : Solver) (next : Option Var),
    s.orderHeap.length ≤ n → ∃ next' s', Solver.pickLoop activity n s next = (next', s') ∧
      s' = { s with orderHeap := s'.orderHeap } ∧
      (∀ x ∈ s'.orderHeap, x ∈ s.orderHeap) ∧
      (∀ x, x ∈ s.orderHeap ∨ next = some x → s.pickable (some x) = true →
        x ∈ s'.orderHeap ∨ next' = some x) ∧
      (∀ x, next' = some x → s.pickable (some x) = true ∧ (x ∈ s.orderHeap ∨ next = some x)) ∧
      (next' = none → s'.orderHeap = []) := by
  intro n
  induction n with
  | zero =>
    intro s next hlen
    have hnil := List.eq_nil_of_length_eq_zero (Nat.le_zero.mp hlen)
    unfold Solver.pickLoop
    split
    · rename_i hpick
      exact ⟨next, s, rfl, rfl, fun _ hx => hx, fun x hx _ => hx,
        fun x hx => ⟨hx ▸ hpick, Or.inr hx⟩, fun _ => hnil⟩
    · rename_i hpick
      refine ⟨none, s, rfl, rfl, fun _ hx => hx, fun x hx hp => ?_,
        fun x hx => absurd hx (by simp), fun _ => hnil⟩
      rcases hx with hx | hx
      · exact Or.inl hx
      · exact absurd (hx ▸ hp) hpick
  | succ n ih =>
    intro s next hlen
    unfold Solver.pickLoop
    split
    · rename_i hpick
      exact ⟨next, s, rfl, rfl, fun _ hx => hx, fun x hx _ => hx,
        fun x hx => ⟨hx ▸ hpick, Or.inr hx⟩,
        fun hno => absurd hpick (by simp [hno, Solver.pickable])⟩
    · rename_i hpick
      split
      · rename_i hheap
        refine ⟨none, s, rfl, rfl, fun _ hx => hx, fun x hx hp => ?_,
          fun x hx => absurd hx (by simp), fun _ => hheap⟩
        rcases hx with hx | hx
        · exact Or.inl hx
        · exact absurd (hx ▸ hp) hpick
      · rename_i x heap hheap
        obtain ⟨hbest, herase⟩ := removeMin_spec activity heap x
        generalize Solver.removeMin activity heap x = r at hbest herase
        obtain ⟨best, heap'⟩ := r
        simp only [] at hbest herase ⊢
        rw [← hheap] at hbest herase
        obtain ⟨next', s', hrun, heq, hsub, hrest, hnext, hnone⟩ :=
          ih { s with orderHeap := heap' } (some best) (by
            show heap'.length ≤ n
            rw [herase, List.length_erase_of_mem hbest]
            exact Nat.sub_le_of_le_add hlen)
        have hmem : ∀ y ∈ heap', y ∈ s.orderHeap := fun y hy =>
          List.mem_of_mem_erase (herase ▸ hy)
        refine ⟨next', s', hrun, heq, fun y hy => hmem y (hsub y hy), fun y hy hp => ?_,
          fun y hy => ?_, hnone⟩
        · rcases hy with hy | hy
          · refine hrest y ?_ hp
            by_cases hyb : y = best
            · exact Or.inr (congrArg some hyb.symm)
            · exact Or.inl (herase ▸ (List.mem_erase_of_ne hyb).mpr hy)
          · exact absurd (hy ▸ hp) hpick
        · obtain ⟨hp, hy⟩ := hnext y hy
          refine ⟨hp, Or.inl ?_⟩
          rcases hy with hy | hy
          · exact hmem y hy
          · exact Option.some.inj hy ▸ hbest

/-- The random variable that the loop starts from is in the heap. -/
theorem Solver.pickBranchLit_eq (s : Solver) (choice : Choice) :
    ∃ start, (∀ x, start = some x → x ∈ s.orderHeap) ∧ s.pickBranchLit choice =
      let (next, s') := Solver.pickLoop choice.activity s.orderHeap.length s start
      (next.map fun x => ⟨x, s'.polarity x⟩, s') := by
  unfold Solver.pickBranchLit
  cases choice.random with
  | none => exact ⟨none, fun x hx => absurd hx (by simp), rfl⟩
  | some r => exact ⟨s.orderHeap[r % s.orderHeap.length]?, fun x => List.mem_of_getElem?, rfl⟩

/-- **`pickBranchLit`** returns a literal of a decision variable without a value; without such a
variable, it returns none. -/
theorem pickBranchLit_spec (hheap : HeapOk s) (choice : Choice) :
    ∃ next s', s.pickBranchLit choice = (next, s') ∧
      s' = { s with orderHeap := s'.orderHeap } ∧
      (∀ p, next = some p → p.var < s.nVars ∧ s.value p = .l_Undef ∧
        (∀ x, x < s.nVars → s.decision x = true → s.assigns x = .l_Undef → x ≠ p.var →
          x ∈ s'.orderHeap)) ∧
      (∀ x ∈ s'.orderHeap, x < s.nVars) ∧
      (next = none → ∀ x, x < s.nVars → s.decision x = true → s.assigns x ≠ .l_Undef) := by
  obtain ⟨start, hstart, hpick⟩ := s.pickBranchLit_eq choice
  obtain ⟨next, s', hrun, heq, hsub, hrest, hnext, hnone⟩ :=
    pickLoop_spec choice.activity s.orderHeap.length s start (Nat.le_refl _)
  rw [hrun] at hpick
  refine ⟨_, s', hpick, heq, fun p hp => ?_, fun x hx => hheap.lt x (hsub x hx), fun hno x hx hdec
    hundef => ?_⟩
  · obtain ⟨x, hx, rfl⟩ := Option.map_eq_some_iff.mp hp
    obtain ⟨hpick, hmem⟩ := hnext x hx
    have hmem : x ∈ s.orderHeap := hmem.elim id (hstart x)
    refine ⟨hheap.lt x hmem, TrailOk.value_eq_undef_iff.mpr (pickable_iff.mp hpick).1,
      fun y hy hdec hundef hne => ?_⟩
    rcases hrest y (Or.inl (hheap.mem y hy hdec hundef)) (pickable_iff.mpr ⟨hundef, hdec⟩)
      with hy | hy
    · exact hy
    · exact absurd (Option.some.inj (hy.symm.trans hx)) hne
  · have hnil := Option.map_eq_none_iff.mp hno
    rcases hrest x (Or.inl (hheap.mem x hx hdec hundef)) (pickable_iff.mpr ⟨hundef, hdec⟩)
      with hy | hy
    · rw [hnone hnil] at hy
      exact absurd hy List.not_mem_nil
    · exact absurd (hnil.symm.trans hy) (by simp)

end SymBreak.Glucose
