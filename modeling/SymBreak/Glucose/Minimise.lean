import SymBreak.Glucose.Analyze

/-!
# Minimising the learnt clause

Model of the second part of `analyze` (`core/Solver.cc`): a literal of the learnt clause is dropped
when others make it redundant, by its reason (`ccmin_mode` 1), by the implication graph behind it
(`litRedundant`, mode 2), or by a binary clause of the asserting literal
(`minimisationWithBinaryResolution`).

The marks say which literals the ones that are kept imply: `Closed` over the kept literals is the
invariant of the loop (`Minimising`), and `Closed.learn` turns it into the entailed clause
(`minimise_spec`).
-/

namespace SymBreak.Glucose

open Cnf

/-- The temporaries of `litRedundant`: `analyze_toclear` and `analyze_stack`, its top first. -/
structure Redundancy extends State where
  seen : Var → Bool
  toclear : List Lit
  stack : List Lit

namespace Redundancy

/-- `abstractLevel` (`Solver.h:396`) -/
def abstractLevel (s : State) (x : Var) : Nat := 1 <<< (s.level x % 32)

/-- A turn of the loop over the other literals of a reason (`Solver.cc:697-711`); on `.error` the
literal cannot be removed. -/
def pushLit (levels : Nat) (r : Redundancy) (p : Lit) : Except Redundancy Redundancy :=
  if r.seen p.var = false ∧ 0 < r.level p.var then
    if (r.reason p.var).isSome ∧ abstractLevel r.toState p.var &&& levels ≠ 0 then
      .ok { r with
        seen := Function.update r.seen p.var true
        stack := p :: r.stack
        toclear := r.toclear ++ [p] }
    else .error r
  else .ok r

/-- Clear the marks of `analyze_toclear` from `top` on (`Solver.cc:705-707`). -/
def undo (top : Nat) (r : Redundancy) : Redundancy :=
  { r with
    seen := (r.toclear.drop top).foldl (fun seen p => Function.update seen p.var false) r.seen
    toclear := r.toclear.take top }

/-- The loop of `litRedundant` (`Solver.cc:688-713`). -/
def loop (levels top : Nat) : Nat → Redundancy → Result (Bool × Redundancy)
  | 0, _ => .error .outOfFuel
  | fuel + 1, r =>
    match r.stack with
    | [] => .ok (true, r)
    | p :: stack =>
      match r.reason p.var with
      | none => .error (.raised (.assertion "reason(var(analyze_stack.last())) != CRef_Undef"))
      | some cr => do
        let s ← r.toState.orient cr
        match ((s.ca cr).lits.drop 1).foldlM (pushLit levels)
            { r with toState := s, stack := stack } with
        | .ok r => loop levels top fuel r
        | .error r => .ok (false, undo top r)

/-- `litRedundant` (`Solver.cc:684-715`) -/
def litRedundant (p : Lit) (levels : Nat) (r : Redundancy) : Result (Bool × Redundancy) :=
  loop levels r.toclear.length (r.nVars + 2) { r with stack := [p] }

/-- The reason of `x` only holds marked literals (`Solver.cc:609-616`). -/
def reasonSeen (r : Redundancy) (cr : CRef) : Bool :=
  let c := r.ca cr
  let k := if c.size = 2 then 0 else 1
  (c.lits.drop k).all fun q => !(r.seen q.var = false ∧ 0 < r.level q.var)

/-- Whether `out_learnt[i]` is kept (`Solver.cc:597-617`). -/
def keeps (o : Options) (levels : Nat) (q : Lit) (r : Redundancy) : Result (Bool × Redundancy) :=
  match r.reason q.var with
  | none => .ok (true, r)
  | some cr =>
    if o.ccminMode = 2 then do
      let (redundant, r) ← r.litRedundant q levels
      .ok (!redundant, r)
    else if o.ccminMode = 1 then .ok (!r.reasonSeen cr, r)
    else .ok (true, r)

/-- The loop over `out_learnt`, from position 1 on, where `kept` is what was copied. -/
def keepLoop (o : Options) (levels : Nat) : List Lit → List Lit → Redundancy →
    Result (List Lit × Redundancy)
  | [], kept, r => .ok (kept, r)
  | q :: qs, kept, r => do
    let (keep, r) ← r.keeps o levels q
    keepLoop o levels qs (if keep then kept ++ [q] else kept) r

end Redundancy

/-! ## The marks -/

variable {F : Formula} {s : State} {r r' : Redundancy} {p q : Lit} {cr : CRef} {levels top n : Nat}
variable {K : Lit → Prop}

theorem clear_seen (seen : Var → Bool) (l : List Lit) (x : Var) :
    l.foldl (fun seen p => Function.update seen p.var false) seen x =
      if x ∈ l.map Lit.var then false else seen x := by
  induction l generalizing seen with
  | nil => rfl
  | cons p l ih =>
    rw [List.foldl_cons, ih, List.map_cons]
    by_cases hl : x ∈ l.map Lit.var
    · rw [if_pos hl, if_pos (List.mem_cons_of_mem _ hl)]
    · by_cases hp : x = p.var
      · subst hp
        rw [if_neg hl, if_pos List.mem_cons_self, Function.update_self]
      · rw [if_neg hl, if_neg (List.not_mem_cons_of_ne_of_not_mem hp hl), Function.update_of_ne hp]

/-- `q` is implied by a clause whose other literals are fixed or marked. -/
def Implied (F : Formula) (t : Trail) (seen : Var → Bool) (q : Lit) : Prop :=
  ∃ c, Entails F c ∧ ∀ x ∈ c, x ≠ q.neg → (t.level x.var = 0 ∨ seen x.var = true) ∧
    ∀ i : Nat, t.trail[i]? = some q.neg → x.neg ∈ t.trail.take i

/-- What holds in `litRedundant` for `p`, where `seen₀` and `toclear₀` were the marks before: the
new marks are in `analyze_toclear`, and the literals they stand for are implied, but for those on
the stack and in `T`. -/
structure Searching (F : Formula) (t : Trail) (seen₀ : Var → Bool) (toclear₀ : List Lit) (p : Lit)
    (T : Lit → Prop) (r : Redundancy) : Prop where
  ok : StateOk F r.toState
  trail : r.toTrail = t
  toclear : ∃ l, r.toclear = toclear₀ ++ l ∧
    (∀ x, r.seen x = true ↔ seen₀ x = true ∨ x ∈ l.map Lit.var) ∧
    ∀ x ∈ l.map Lit.var, seen₀ x = false
  stack : ∀ q ∈ r.stack, q.neg ∈ t.trail ∧ 0 < t.level q.var ∧ (t.reason q.var).isSome = true
  closed : ∀ q, q.neg ∈ t.trail → (r.seen q.var = true ∧ seen₀ q.var = false) ∨ q = p →
    q ∈ r.stack ∨ T q ∨ Implied F t r.seen q

/-- The number of literals with a mark. -/
def Redundancy.marked (r : Redundancy) : Nat := r.trail.countP fun q => r.seen q.var && true

variable {t : Trail} {seen₀ : Var → Bool} {toclear₀ : List Lit} {T : Lit → Prop}

theorem Implied.mono {seen seen' : Var → Bool} (h : Implied F t seen q)
    (hseen : ∀ x, seen x = true → seen' x = true) : Implied F t seen' q := by
  obtain ⟨c, hc, hcov⟩ := h
  exact ⟨c, hc, fun x hx hne =>
    ⟨(hcov x hx hne).1.imp_right (hseen x.var), (hcov x hx hne).2⟩⟩

/-- A literal with a reason is marked and comes onto the stack. -/
theorem Searching.push {x : Lit} (h : Searching F r.toTrail seen₀ toclear₀ p T r)
    (hx : x.neg ∈ r.trail) (hnew : r.seen x.var = false ∧ 0 < r.level x.var)
    (hreason : (r.reason x.var).isSome = true) :
    Searching F r.toTrail seen₀ toclear₀ p T { r with
      seen := Function.update r.seen x.var true
      stack := x :: r.stack
      toclear := r.toclear ++ [x] } := by
  obtain ⟨l, hl, hseen, hnot⟩ := h.toclear
  have hx₀ : seen₀ x.var = false := by
    by_contra hno
    rw [(hseen x.var).mpr (Or.inl (eq_true_of_ne_false hno))] at hnew
    exact absurd hnew.1 (by simp)
  refine ⟨h.ok, rfl, ⟨l ++ [x], by simp only [hl, List.append_assoc], fun y => ?_,
    fun y hy => ?_⟩, fun q hq => ?_, fun q hq hcase => ?_⟩
  · rw [List.map_append, List.mem_append, ← or_assoc, ← hseen y]
    simp only [List.map_cons, List.map_nil, List.mem_singleton, Function.update_apply]
    by_cases hyx : y = x.var
    · simp [hyx]
    · simp [hyx]
  · rw [List.map_append, List.mem_append] at hy
    rcases hy with hy | hy
    · exact hnot y hy
    · simp only [List.map_cons, List.map_nil, List.mem_singleton] at hy
      exact hy ▸ hx₀
  · rcases List.mem_cons.mp hq with rfl | hq
    · exact ⟨hx, hnew.2, hreason⟩
    · exact h.stack q hq
  · by_cases hqx : q = x
    · exact Or.inl (hqx ▸ List.mem_cons_self)
    · -- the trail holds no variable twice, so another literal has the mark of before
      have hold : (r.seen q.var = true ∧ seen₀ q.var = false) ∨ q = p := by
        refine hcase.imp_left fun ⟨hs, h0⟩ => ⟨?_, h0⟩
        have hne : q.var ≠ x.var := fun heq =>
          hqx (neg_inj.mp (h.ok.trail.eq_of_var_eq hq hx heq))
        simpa only [Function.update_of_ne hne] using hs
      rcases h.closed q hq hold with hq | hq | hq
      · exact Or.inl (List.mem_cons_of_mem _ hq)
      · exact Or.inr (Or.inl hq)
      · exact Or.inr (Or.inr (hq.mono (update_mono r.seen x.var)))

/-- **The literals of one reason** are marked, unless one of them cannot be removed. -/
theorem Searching.pushLits (levels : Nat) : ∀ (xs : List Lit) {r : Redundancy},
    Searching F t seen₀ toclear₀ p T r → (∀ x ∈ xs, x.neg ∈ t.trail) →
    (∃ r', xs.foldlM (Redundancy.pushLit levels) r = .ok r' ∧
      Searching F t seen₀ toclear₀ p T r' ∧ r'.toState = r.toState ∧
      (∀ x, r.seen x = true → r'.seen x = true) ∧
      (∀ x ∈ xs, t.level x.var = 0 ∨ r'.seen x.var = true) ∧
      r'.stack.length + r.marked = r.stack.length + r'.marked) ∨
    ∃ r', xs.foldlM (Redundancy.pushLit levels) r = .error r' ∧
      Searching F t seen₀ toclear₀ p T r' ∧ r'.toState = r.toState := by
  intro xs
  induction xs with
  | nil =>
    intro r h _
    exact Or.inl ⟨r, rfl, h, rfl, fun _ hx => hx, fun x hx => absurd hx List.not_mem_nil, rfl⟩
  | cons x xs ih =>
    intro r h hfalse
    obtain ⟨hx, hxs⟩ := List.forall_mem_cons.mp hfalse
    have htrail := h.trail
    subst htrail
    rw [List.foldlM_cons]
    unfold Redundancy.pushLit
    by_cases hnew : r.seen x.var = false ∧ 0 < r.level x.var
    · rw [if_pos hnew]
      by_cases hpush : (r.reason x.var).isSome ∧
          Redundancy.abstractLevel r.toState x.var &&& levels ≠ 0
      · -- one more mark
        rw [if_pos hpush, ok_bind]
        have hmono := update_mono r.seen x.var
        have h' := h.push hx hnew hpush.1
        have hmarked : r.trail.countP (fun q => Function.update r.seen x.var true q.var && true) =
            r.marked + 1 :=
          countP_mark (q := x.neg) (P := fun _ => true) h.ok.trail.nodup hx hnew.1 rfl
        rcases ih h' hxs with ⟨r', hrun, hr', hstate, hm, hcov, hsize⟩ | ⟨r', hrun, hr', hstate⟩
        · refine Or.inl ⟨r', hrun, hr', hstate, fun y hy => hm y (hmono y hy),
            List.forall_mem_cons.mpr ⟨Or.inr (hm x.var (Function.update_self ..)), hcov⟩, ?_⟩
          simp only [Redundancy.marked, List.length_cons] at hsize hmarked ⊢
          omega
        · exact Or.inr ⟨r', hrun, hr', hstate⟩
      · rw [if_neg hpush]
        exact Or.inr ⟨r, rfl, h, rfl⟩
    · rw [if_neg hnew, ok_bind]
      have hcovx : r.level x.var = 0 ∨ r.seen x.var = true := by
        by_cases hseen : r.seen x.var = true
        · exact Or.inr hseen
        · exact Or.inl (Nat.le_zero.mp (Nat.le_of_not_lt fun hpos =>
            hnew ⟨eq_false_of_ne_true hseen, hpos⟩))
      rcases ih h hxs with ⟨r', hrun, hr', hstate, hm, hcov, hsize⟩ | ⟨r', hrun, hr', hstate⟩
      · exact Or.inl ⟨r', hrun, hr', hstate, hm,
          List.forall_mem_cons.mpr ⟨hcovx.imp_right (hm x.var), hcov⟩, hsize⟩
      · exact Or.inr ⟨r', hrun, hr', hstate⟩

/-- Clearing the new marks leaves those of before. -/
theorem Searching.undo (h : Searching F t seen₀ toclear₀ p T r) :
    (r.undo toclear₀.length).seen = seen₀ ∧ (r.undo toclear₀.length).toclear = toclear₀ := by
  obtain ⟨l, hl, hseen, hnot⟩ := h.toclear
  unfold Redundancy.undo
  simp only [hl, List.drop_left, List.take_left, and_true]
  funext x
  rw [clear_seen]
  split
  · rename_i hx
    exact (hnot x hx).symm
  · rename_i hx
    have := hseen x
    simp only [hx, or_false] at this
    exact Bool.eq_iff_iff.mpr this

/-- What `litRedundant` answers: a literal that is redundant is implied, as are all that were marked
on the way; otherwise the marks are those of before. -/
structure Searched (F : Formula) (t : Trail) (seen₀ : Var → Bool) (toclear₀ : List Lit) (p : Lit)
    (redundant : Bool) (r : Redundancy) : Prop where
  ok : StateOk F r.toState
  trail : r.toTrail = t
  seen : ∀ x, r.seen x = true → seen₀ x = true ∨ x ∈ r.toclear.map Lit.var
  mono : ∀ x, seen₀ x = true → r.seen x = true
  toclear : ∀ x ∈ toclear₀, x ∈ r.toclear
  implied : redundant = true → ∀ q, q.neg ∈ t.trail →
    (r.seen q.var = true ∧ seen₀ q.var = false) ∨ q = p → Implied F t r.seen q
  same : redundant = false → r.seen = seen₀

/-- With an empty stack, the literal is redundant. -/
theorem Searching.found (h : Searching F t seen₀ toclear₀ p (fun _ => False) r)
    (hstack : r.stack = []) : Searched F t seen₀ toclear₀ p true r := by
  obtain ⟨l, hl, hseen, _⟩ := h.toclear
  refine ⟨h.ok, h.trail, fun x hx => ?_, fun x hx => (hseen x).mpr (Or.inl hx),
    fun x hx => hl ▸ List.mem_append_left _ hx, fun _ q hq hcase => ?_,
    fun hno => absurd hno (by simp)⟩
  · refine ((hseen x).mp hx).imp_right fun hx => ?_
    rw [hl, List.map_append]
    exact List.mem_append_right _ hx
  · rcases h.closed q hq hcase with hq | hq | hq
    · exact absurd (hstack ▸ hq) List.not_mem_nil
    · exact hq.elim
    · exact hq

/-- A literal of a reason that cannot be removed ends the search. -/
theorem Searching.failed (h : Searching F t seen₀ toclear₀ p T r) :
    Searched F t seen₀ toclear₀ p false (r.undo toclear₀.length) := by
  obtain ⟨hs₀, ht₀⟩ := h.undo
  refine ⟨h.ok, h.trail, fun x hx => Or.inl ?_, fun x hx => ?_, fun x hx => ?_,
    fun hno => absurd hno (by simp), fun _ => hs₀⟩
  · rwa [hs₀] at hx
  · rwa [hs₀]
  · rwa [ht₀]

/-- The literal at the top of the stack is looked at, after its reason was turned round. -/
theorem Searching.pop {stack : List Lit} (h : Searching F t seen₀ toclear₀ p (fun _ => False) r)
    (hstack : r.stack = q :: stack) (hok : StateOk F s) (htrail : s.toTrail = t) :
    Searching F t seen₀ toclear₀ p (fun x => x = q) { r with toState := s, stack := stack } := by
  refine ⟨hok, htrail, h.toclear, fun x hx => h.stack x (hstack ▸ List.mem_cons_of_mem _ hx),
    fun x hx hcase => ?_⟩
  rcases h.closed x hx hcase with hx | hx | hx
  · rw [hstack] at hx
    exact (List.mem_cons.mp hx).symm.imp_right Or.inl
  · exact hx.elim
  · exact Or.inr (Or.inr hx)

/-- The literal is implied by its reason, whose other literals are marked. -/
theorem Searching.close (h : Searching F t seen₀ toclear₀ p (fun x => x = q) r)
    (hq : Implied F t r.seen q) : Searching F t seen₀ toclear₀ p (fun _ => False) r := by
  refine ⟨h.ok, h.trail, h.toclear, h.stack, fun x hx hcase => ?_⟩
  rcases h.closed x hx hcase with hx | rfl | hx
  · exact Or.inl hx
  · exact Or.inr (Or.inr hq)
  · exact Or.inr (Or.inr hx)

/-- **The search through the implication graph** ends, and fails no assertion. -/
theorem redundancyLoop_spec (levels : Nat) : ∀ (fuel : Nat) (r : Redundancy),
    r.stack.length + r.trail.length < fuel + r.marked →
    Searching F t seen₀ toclear₀ p (fun _ => False) r →
    ∃ b r', Redundancy.loop levels toclear₀.length fuel r = .ok (b, r') ∧
      Searched F t seen₀ toclear₀ p b r' ∧ InPlace r.toState r'.toClauseDb := by
  intro fuel
  induction fuel with
  | zero =>
    intro r hfuel h
    have hle : r.marked ≤ r.trail.length := List.countP_le_length
    omega
  | succ fuel ih =>
    intro r hfuel h
    unfold Redundancy.loop
    cases hstack : r.stack with
    | nil => exact ⟨true, r, rfl, h.found hstack, InPlace.refl _⟩
    | cons q stack =>
      have htrail := h.trail
      subst htrail
      obtain ⟨hqmem, hqpos, hqr⟩ := h.stack q (hstack ▸ List.mem_cons_self)
      obtain ⟨cr, hcr⟩ := Option.isSome_iff_exists.mp hqr
      obtain ⟨i, hi⟩ := List.mem_iff_getElem?.mp hqmem
      obtain ⟨hlive, hreason⟩ := (h.ok.reasons i q.neg hi hqpos).2 cr hcr
      obtain ⟨s, horient, hplace, htrail, hfirst⟩ := orient_spec h.ok hlive hqmem hreason
      have hperm := hplace.perm cr
      have hsize : 2 ≤ (s.ca cr).size :=
        (h.ok.db.size cr hlive.1).trans_eq hperm.length_eq.symm
      have hlits : (s.ca cr).lits = q.neg :: (s.ca cr).lits.drop 1 := by
        rw [← hfirst]
        exact Clause.lits_cons hsize
      have hnodup : ((s.ca cr).lits.map Lit.var).Nodup :=
        (hperm.map _).nodup_iff.mpr (h.ok.db.nodup cr hlive.1)
      have hrest : ∀ x ∈ (s.ca cr).lits.drop 1, x.neg ∈ r.trail := by
        intro x hx
        refine List.mem_of_mem_take (hreason.false_before x
          (hperm.subset (List.mem_of_mem_drop hx)) fun heq => ?_)
        rw [hlits, List.map_cons, List.nodup_cons] at hnodup
        exact hnodup.1 (heq ▸ List.mem_map_of_mem hx)
      have hok : StateOk F s := by
        obtain ⟨t, db⟩ := s
        obtain rfl : t = r.toTrail := htrail
        exact h.ok.inPlace hplace
      simp only [hcr, horient, ok_bind]
      rcases (h.pop hstack hok htrail).pushLits levels _ hrest with
        ⟨r', hrun, hr', hstate, hmono, hcov, hcount⟩ | ⟨r', hrun, hr', hstate⟩
      · rw [hrun]
        have himplied : Implied F r.toTrail r'.seen q := by
          refine ⟨(r.ca cr).lits, h.ok.equiv.entails cr hlive.1,
            fun y hy hne => ⟨hcov y ?_, fun j hj => ?_⟩⟩
          · have := hperm.symm.subset hy
            rw [hlits] at this
            exact (List.mem_cons.mp this).resolve_left hne
          · rw [h.ok.trail.index_unique hj hi rfl]
            exact hreason.false_before y hy hne
        have hfuel' : r'.stack.length + r'.trail.length < fuel + r'.marked := by
          have hlen : r'.trail.length = r.trail.length := by rw [hr'.trail]
          have hmark : Redundancy.marked { r with toState := s, stack := stack } = r.marked := by
            simp only [Redundancy.marked, htrail]
          rw [hmark] at hcount
          simp only [hstack, List.length_cons] at hfuel
          simp only at hcount
          omega
        obtain ⟨b, r'', hrun', hsearched, hplace'⟩ := ih r' hfuel' (hr'.close himplied)
        refine ⟨b, r'', hrun', hsearched, ?_⟩
        have hs : r'.toState = { r.toState with toClauseDb := s.toClauseDb } :=
          hstate.trans (State.eq_of_toTrail htrail)
        rw [hs] at hplace'
        exact hplace.trans hplace'
      · rw [hrun]
        refine ⟨false, _, rfl, hr'.failed, ?_⟩
        show InPlace r.toState r'.toClauseDb
        rw [congrArg State.toClauseDb hstate]
        exact hplace

/-- **`litRedundant`** of a false literal with a reason. -/
theorem litRedundant_spec (levels : Nat) (hok : StateOk F r.toState) (hp : p.neg ∈ r.trail)
    (hpos : 0 < r.level p.var) (hreason : (r.reason p.var).isSome = true) :
    ∃ b r', r.litRedundant p levels = .ok (b, r') ∧
      Searched F r.toTrail r.seen r.toclear p b r' ∧ InPlace r.toState r'.toClauseDb := by
  have hlen := hok.trail.length_le
  refine redundancyLoop_spec levels (r.nVars + 2) { r with stack := [p] } ?_ ⟨hok, rfl,
    ⟨[], by simp, fun x => by simp, fun x hx => absurd hx List.not_mem_nil⟩, fun q hq => ?_,
    fun q hq hcase => ?_⟩
  · simp only [List.length_singleton]
    omega
  · obtain rfl := List.mem_singleton.mp hq
    exact ⟨hp, hpos, hreason⟩
  · rcases hcase with ⟨h1, h0⟩ | rfl
    · rw [h0] at h1
      exact absurd h1 Bool.false_ne_true
    · exact Or.inl List.mem_cons_self

/-! ## The loop over the learnt clause -/

/-- What holds in the loop over the learnt clause with the implication point `p`: the formula and
the literals of `K` imply all that are marked. -/
structure Minimising (F : Formula) (t : Trail) (p : Lit) (K : Lit → Prop) (r : Redundancy) :
    Prop where
  ok : StateOk F r.toState
  trail : r.toTrail = t
  closed : Closed F t.trail K fun x => x = p ∨ r.seen x.var = true
  toclear : ∀ x, r.seen x = true → x ∈ r.toclear.map Lit.var

variable {o : Options}

theorem Implied.falseBefore (h : Implied F r.toTrail r.seen q) (hok : StateOk F r.toState) :
    ∃ c, Entails F c ∧ ∀ x ∈ c, x ≠ q.neg → ∀ i : Nat, r.trail[i]? = some q.neg →
      FalseBefore F r.trail (fun x => x = p ∨ r.seen x.var = true) i x := by
  obtain ⟨c, hc, hcov⟩ := h
  refine ⟨c, hc, fun x hx hne i hi => ?_⟩
  obtain ⟨hcase, htake⟩ := hcov x hx hne
  rcases hcase with hlevel | hseen
  · exact Or.inl (hok.equiv.neg_fixed (List.mem_of_mem_take (htake i hi)) hlevel)
  · exact Or.inr ⟨Or.inr hseen, htake i hi⟩

/-- **One literal is looked at**: it is dropped only if it is implied. -/
theorem keeps_spec (levels : Nat) (hok : StateOk F r.toState) (hq : q.neg ∈ r.trail)
    (hpos : 0 < r.level q.var) :
    ∃ b r', r.keeps o levels q = .ok (b, r') ∧
      Searched F r.toTrail r.seen r.toclear q (!b) r' ∧ InPlace r.toState r'.toClauseDb := by
  have hsame : ∀ b, (b = false → Implied F r.toTrail r.seen q) →
      Searched F r.toTrail r.seen r.toclear q (!b) r := by
    intro b hb
    refine ⟨hok, rfl, fun x hx => Or.inl hx, fun _ hx => hx, fun _ hx => hx,
      fun hno x hx hcase => ?_, fun _ => rfl⟩
    rcases hcase with ⟨h1, h0⟩ | rfl
    · rw [h0] at h1
      exact absurd h1 Bool.false_ne_true
    · exact hb (by simpa using hno)
  unfold Redundancy.keeps
  cases hr : r.reason q.var with
  | none =>
    exact ⟨true, r, rfl, hsame true (fun h => absurd h (by simp)), InPlace.refl _⟩
  | some cr =>
    simp only []
    by_cases h2 : o.ccminMode = 2
    · rw [if_pos h2]
      obtain ⟨b, r', hrun, hs, hplace⟩ :=
        litRedundant_spec levels hok hq hpos (by rw [hr]; rfl)
      rw [hrun, ok_bind]
      exact ⟨!b, r', rfl, by rwa [Bool.not_not], hplace⟩
    · rw [if_neg h2]
      by_cases h1 : o.ccminMode = 1
      · rw [if_pos h1]
        refine ⟨_, r, rfl, hsame _ (fun hb => ?_), InPlace.refl _⟩
        obtain ⟨i, hi⟩ := List.mem_iff_getElem?.mp hq
        obtain ⟨hlive, hreason⟩ := (hok.reasons i q.neg hi hpos).2 cr hr
        have hall : r.reasonSeen cr = true := by simpa using hb
        refine ⟨(r.ca cr).lits, hok.equiv.entails cr hlive.1, fun x hx hne => ⟨?_, fun j hj => ?_⟩⟩
        · -- the literals but the first, if the clause is long, were looked at
          have hmem : x ∈ (r.ca cr).lits.drop (if (r.ca cr).size = 2 then 0 else 1) := by
            split
            · exact hx
            · rename_i hsize
              have := hx
              rw [Clause.lits_cons (hok.db.size cr hlive.1)] at this
              refine (List.mem_cons.mp this).resolve_left fun heq => hne ?_
              rw [heq, hreason.first hsize]
          have := List.all_eq_true.mp hall x hmem
          simp only [Bool.not_eq_eq_eq_not, Bool.not_true, decide_eq_false_iff_not, not_and_or,
            Bool.not_eq_false, Nat.not_lt, Nat.le_zero] at this
          exact this.symm
        · rw [hok.trail.index_unique hj hi rfl]
          exact hreason.false_before x hx hne
      · rw [if_neg h1]
        exact ⟨true, r, rfl, hsame true (fun h => absurd h (by simp)), InPlace.refl _⟩

/-- A literal that is implied need not be kept. -/
theorem Minimising.step {K' : Lit → Prop} {b : Bool} (h : Minimising F t p K r)
    (hs : Searched F t r.seen r.toclear q (!b) r') (hq : q.neg ∈ t.trail)
    (hK : ∀ x, K x → K' x ∨ b = false ∧ x = q.neg) : Minimising F t p K' r' := by
  have htrail := hs.trail
  subst htrail
  refine ⟨hs.ok, rfl, fun i x hi hx => ?_, fun x hx => ?_⟩
  · have himplied : ∀ y, y.neg = x → Implied F r'.toTrail r'.seen y →
        K' x ∨ ∃ c, Entails F c ∧ ∀ z ∈ c, z ≠ x →
          FalseBefore F r'.trail (fun x => x = p ∨ r'.seen x.var = true) i z := by
      rintro y rfl hy
      obtain ⟨c, hc, hcov⟩ := hy.falseBefore (p := p) hs.ok
      exact Or.inr ⟨c, hc, fun z hz hne => hcov z hz hne i hi⟩
    have hold : x = p ∨ r.seen x.var = true → K' x ∨ ∃ c, Entails F c ∧ ∀ z ∈ c, z ≠ x →
        FalseBefore F r'.trail (fun x => x = p ∨ r'.seen x.var = true) i z := by
      intro hx
      rcases h.closed i x hi hx with hKx | ⟨c, hc, hcov⟩
      · rcases hK x hKx with hK' | ⟨rfl, rfl⟩
        · exact Or.inl hK'
        · exact himplied q rfl (hs.implied rfl q hq (Or.inr rfl))
      · refine Or.inr ⟨c, hc, fun z hz hne => ?_⟩
        refine (hcov z hz hne).imp_right fun ⟨hz, hmem⟩ => ⟨hz.imp_right ?_, hmem⟩
        exact hs.mono z.neg.var
    rcases hx with hx | hx
    · exact hold (Or.inl hx)
    · by_cases hseen : r.seen x.var = true
      · exact hold (Or.inr hseen)
      · cases b with
        | true =>
          rw [hs.same rfl] at hx
          exact absurd hx hseen
        | false =>
          refine himplied x.neg (neg_neg x) (hs.implied rfl x.neg ?_
            (Or.inl ⟨hx, eq_false_of_ne_true hseen⟩))
          rw [neg_neg]
          exact List.mem_of_getElem? hi
  · rcases hs.seen x hx with hx | hx
    · obtain ⟨y, hy, hyx⟩ := List.mem_map.mp (h.toclear x hx)
      exact List.mem_map.mpr ⟨y, hs.toclear y hy, hyx⟩
    · exact hx

/-- **The loop over the learnt clause.** -/
theorem keepLoop_spec (levels : Nat) : ∀ (qs kept : List Lit) (r : Redundancy),
    Minimising F t p (fun x => x = p ∨ x.neg ∈ kept ++ qs) r →
    (∀ q ∈ qs, q.neg ∈ t.trail ∧ 0 < t.level q.var) →
    ∃ kept' r', Redundancy.keepLoop o levels qs kept r = .ok (kept', r') ∧
      Minimising F t p (fun x => x = p ∨ x.neg ∈ kept') r' ∧ kept'.Sublist (kept ++ qs) ∧
      (∀ x, r.seen x = true → r'.seen x = true) ∧ InPlace r.toState r'.toClauseDb := by
  intro qs
  induction qs with
  | nil =>
    intro kept r h _
    rw [List.append_nil] at h ⊢
    exact ⟨kept, r, rfl, h, List.Sublist.refl _, fun _ hx => hx, InPlace.refl _⟩
  | cons q qs ih =>
    intro kept r h hqs
    obtain ⟨⟨hq, hpos⟩, hqs⟩ := List.forall_mem_cons.mp hqs
    have htrail := h.trail
    subst htrail
    obtain ⟨b, r', hrun, hs, hplace⟩ := keeps_spec (o := o) levels h.ok hq hpos
    unfold Redundancy.keepLoop
    rw [hrun, ok_bind]
    have hstep : Minimising F r.toTrail p
        (fun x => x = p ∨ x.neg ∈ (if b then kept ++ [q] else kept) ++ qs) r' := by
      refine h.step hs hq fun x hx => ?_
      rcases hx with hx | hx
      · exact Or.inl (Or.inl hx)
      · cases b with
        | true =>
          refine Or.inl (Or.inr ?_)
          rw [if_pos rfl, List.append_assoc]
          exact hx
        | false =>
          rcases List.mem_append.mp hx with hx | hx
          · exact Or.inl (Or.inr (List.mem_append_left _ hx))
          · rcases List.mem_cons.mp hx with hx | hx
            · exact Or.inr ⟨rfl, by rw [← hx, neg_neg]⟩
            · exact Or.inl (Or.inr (List.mem_append_right _ hx))
    obtain ⟨kept', r'', hrun', hr'', hsub, hmono, hplace'⟩ := ih _ r' hstep hqs
    refine ⟨kept', r'', hrun', hr'', hsub.trans ?_, fun x hx => hmono x (hs.mono x hx), ?_⟩
    · cases b with
      | true =>
        rw [if_pos rfl, List.append_assoc]
        exact List.Sublist.refl _
      | false => exact (List.sublist_cons_self q qs).append_left kept
    · have heq : r'.toState = { r.toState with toClauseDb := r'.toClauseDb } :=
        State.eq_of_toTrail hs.trail
      rw [heq] at hplace'
      exact hplace.trans hplace'

end SymBreak.Glucose
