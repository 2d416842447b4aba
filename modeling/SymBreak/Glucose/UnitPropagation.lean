import SymBreak.Glucose.Propagate

/-!
# Propagation is complete

What the loops of `propagate` do to the solver, from one turn on (`visit_spec`) to the whole queue
(**`propagate_spec`**): only literals that a clause implies are set, no assertion fails, and
* without a conflict the queue is empty and every clause with a false watched literal is
  satisfied;
* a conflict is a clause all of whose literals are false, one of them at the current level.
-/

namespace SymBreak.Glucose

open Cnf

/-- The clauses of `db` are those of `s`, reordered behind the same watchers. -/
structure InPlace (s : State) (db : ClauseDb) : Prop extends Reordered s.toClauseDb db where
  watches : db.watches = s.watches
  watchesBin : db.watchesBin = s.watchesBin
  lists : db.clauses = s.clauses ∧ db.learnts = s.learnts
  first : ∀ cr, (db.ca cr).size ≠ 2 → (s.ca cr).get 0 ∈ s.trail →
    (db.ca cr).get 0 = (s.ca cr).get 0

variable {F : Formula} {s s' : State} {p q : Lit} {w : Watcher} {cr : CRef} {k : Nat}

theorem InPlace.refl (s : State) : InPlace s s.toClauseDb :=
  ⟨Reordered.refl _, rfl, rfl, ⟨rfl, rfl⟩, fun _ _ _ => rfl⟩

theorem InPlace.set {c : Clause} (hperm : c.lits.Perm (s.ca cr).lits)
    (htwo : (c.lits.take 2).Perm ((s.ca cr).lits.take 2)) (hmark : c.mark = (s.ca cr).mark)
    (hlearnt : c.learnt = (s.ca cr).learnt)
    (hfirst : c.size ≠ 2 → (s.ca cr).get 0 ∈ s.trail → c.get 0 = (s.ca cr).get 0) :
    InPlace s (s.setClause cr c).toClauseDb where
  toReordered := Reordered.set hperm htwo hmark hlearnt
  watches := rfl
  watchesBin := rfl
  lists := ⟨rfl, rfl⟩
  first cr' := by
    by_cases h : cr' = cr
    · subst h
      simpa only [State.setClause, Function.update_self] using hfirst
    · simp only [State.setClause, Function.update_of_ne h, implies_true]

/-! ## One turn -/

/-- What a turn of the loop over the watchers of `p` can do with `w`. -/
inductive Visited (s : State) (p : Lit) (w : Watcher) : State.Turn → Prop
  /-- a literal of the clause is true -/
  | satisfied {w' : Watcher} {db : ClauseDb} {r : Lit} (hdb : InPlace s db)
      (hcref : w'.cref = w.cref) (hblocker : w'.blocker ∈ (s.ca w.cref).lits)
      (hne : w'.blocker ≠ p.neg) (hr : r ∈ (s.ca w.cref).lits) (htrue : r ∈ s.trail) :
      Visited s p w (.stays w' { s with toClauseDb := db })
  /-- the first literal is implied -/
  | implied {w' : Watcher} {db : ClauseDb} {first : Lit} (hdb : InPlace s db)
      (hcref : w'.cref = w.cref) (hblocker : w'.blocker ∈ (s.ca w.cref).lits)
      (hne : w'.blocker ≠ p.neg) (hfirst : (db.ca w.cref).get 0 = first)
      (hmem : first ∈ (s.ca w.cref).lits) (hundef : s.value first = .l_Undef)
      (hfalse : ∀ q ∈ (s.ca w.cref).lits, q ≠ first → q.neg ∈ s.trail) :
      Visited s p w (.stays w'
        { s with toClauseDb := db, toTrail := s.toTrail.push first (some w.cref) })
  /-- all literals are false -/
  | conflict {w' : Watcher} {db : ClauseDb} (hdb : InPlace s db)
      (hcref : w'.cref = w.cref) (hblocker : w'.blocker ∈ (s.ca w.cref).lits)
      (hne : w'.blocker ≠ p.neg) (hfalse : ∀ q ∈ (s.ca w.cref).lits, q.neg ∈ s.trail) :
      Visited s p w (.conflict w' { s with toClauseDb := db })
  /-- another literal is watched -/
  | moved {c : Clause} {q first : Lit} (hperm : c.lits.Perm (s.ca w.cref).lits)
      (hmark : c.mark = (s.ca w.cref).mark) (hlearnt : c.learnt = (s.ca w.cref).learnt)
      (htwo : c.lits.take 2 = [first, q])
      (hold : ∀ x ∈ (s.ca w.cref).lits.take 2, x = first ∨ x = p.neg) (hne : first ≠ p.neg)
      (hfirst : first ∈ (s.ca w.cref).lits.take 2) (hq : q ∉ (s.ca w.cref).lits.take 2)
      (hvalue : q.neg ∉ s.trail)
      (hget : (s.ca w.cref).get 0 ∈ s.trail → c.get 0 = (s.ca w.cref).get 0) :
      Visited s p w (.moves { s with toClauseDb := s.toClauseDb.moveWatcher w c q first })

theorem newWatch_none {c : Clause} (h : State.newWatch s c = none) {k : Nat} (hk : 2 ≤ k)
    (hlt : k < c.size) : s.value (c.get k) = .l_False := by
  have := List.find?_eq_none.mp h k (List.mem_range'_1.mpr ⟨hk, by omega⟩)
  simpa using this

theorem newWatch_some {c : Clause} {k : Nat} (h : State.newWatch s c = some k) :
    2 ≤ k ∧ k < c.size ∧ s.value (c.get k) ≠ .l_False := by
  have hmem := List.mem_range'_1.mp (List.mem_of_find?_eq_some h)
  have hk := List.find?_some h
  exact ⟨hmem.1, by omega, by simpa using hk⟩

/-- A literal of a clause is one of the first two or stands behind them. -/
theorem mem_lits_cases {c : Clause} (hq : q ∈ c.lits) :
    q = c.get 0 ∨ q = c.get 1 ∨ ∃ k, 2 ≤ k ∧ k < c.size ∧ q = c.get k := by
  obtain ⟨k, hk⟩ := List.mem_iff_getElem?.mp hq
  have hget : q = c.get k := by
    rw [Clause.get, List.getD_eq_getElem?_getD, hk, Option.getD_some]
  have hlt : k < c.size := (List.getElem?_eq_some_iff.mp hk).1
  rcases k with _ | _ | k
  · exact Or.inl hget
  · exact Or.inr (Or.inl hget)
  · exact Or.inr (Or.inr ⟨k + 2, Nat.le_add_left _ _, hlt, hget⟩)

/-- A clause holds each literal once. -/
theorem get_notMem_take {c : Clause} (hnodup : (c.lits.map Lit.var).Nodup) {k : Nat} (hk : 2 ≤ k)
    (hlt : k < c.size) : c.get k ∉ c.lits.take 2 := by
  intro hmem
  obtain ⟨i, hi, hget⟩ := mem_take_iff.mp hmem
  change k < c.lits.length at hlt
  have hck : c.lits[k]? = some (c.get k) := by
    rw [Clause.get, List.getD_eq_getElem?_getD, List.getElem?_eq_getElem hlt, Option.getD_some]
  have hlen : i < (c.lits.map Lit.var).length := by
    rw [List.length_map]
    omega
  have hik : (c.lits.map Lit.var)[i]? = (c.lits.map Lit.var)[k]? := by
    rw [List.getElem?_map, List.getElem?_map, hget, hck]
  have := (List.getElem?_inj hlen hnodup).mp hik
  omega

/-- The literal at `k` is watched instead of the false one in second place. -/
theorem Moving.rewatch {db : ClauseDb} {c : Clause} {k : Nat} (hsize : 2 ≤ c.size)
    (hnodup : (c.lits.map Lit.var).Nodup) (hk : 2 ≤ k) (hlt : k < c.size)
    (hsecond : c.get 1 = p.neg) (hfirst : c.get 0 ∈ (db.ca w.cref).lits.take 2)
    (hne : c.get 0 ≠ p.neg) (hperm : c.lits.Perm (db.ca w.cref).lits)
    (htwo : (c.lits.take 2).Perm ((db.ca w.cref).lits.take 2))
    (hmark : c.mark = (db.ca w.cref).mark) (hlearnt : c.learnt = (db.ca w.cref).learnt) :
    Moving db p w (State.rewatch c k p.neg) ((State.rewatch c k p.neg).get 1) (c.get 0) := by
  obtain ⟨hget0, hget1, hperm', hmark', hlearnt'⟩ := rewatch_spec hk hlt hsecond
  refine ⟨hperm'.trans hperm, hmark'.trans hmark, hlearnt'.trans hlearnt, ?_, fun x hx => ?_, hne,
    hfirst, ?_⟩
  · rw [Clause.take_two (hsize.trans_eq hperm'.length_eq.symm), hget0]
  · have hx' := htwo.symm.subset hx
    rw [Clause.take_two hsize] at hx'
    rcases List.mem_cons.mp hx' with h | h
    · exact Or.inl h
    · exact Or.inr ((List.mem_singleton.mp h).trans hsecond)
  · rw [hget1]
    exact fun hmem => get_notMem_take hnodup hk hlt (htwo.symm.subset hmem)

/-- If there is no other literal to watch, all but the first are false. -/
theorem newWatch_none_false {c : Clause} (hok : TrailOk s.toTrail) (hp : p ∈ s.trail)
    (hsecond : c.get 1 = p.neg) (h : State.newWatch s c = none) (hq : q ∈ c.lits)
    (hne : q ≠ c.get 0) : q.neg ∈ s.trail := by
  rcases mem_lits_cases hq with rfl | rfl | ⟨k, hk, hlt, rfl⟩
  · exact absurd rfl hne
  · rw [hsecond, neg_neg]
    exact hp
  · exact hok.value_eq_false.mp (newWatch_none h hk hlt)

/-- **One turn** does not fail. -/
theorem visit_spec (hok : TrailOk s.toTrail) (hp : p ∈ s.trail) (hsize : 2 ≤ (s.ca w.cref).size)
    (hnodup : ((s.ca w.cref).lits.map Lit.var).Nodup)
    (hmem : p.neg ∈ (s.ca w.cref).lits.take 2)
    (hblocker : w.blocker ∈ (s.ca w.cref).lits ∧ w.blocker ≠ p.neg) :
    ∃ t, State.visit p w s = .ok t ∧ Visited s p w t := by
  unfold State.visit
  by_cases hb : s.value w.blocker = .l_True
  · rw [if_pos hb]
    exact ⟨_, rfl, .satisfied (InPlace.refl s) rfl hblocker.1 hblocker.2 hblocker.1
      ((hok.value _).mp hb)⟩
  · rw [if_neg hb]
    simp only []
    have hsink := sink_spec hsize hnodup hmem
    -- from here on the clause has the false literal in second place
    generalize State.sink (s.ca w.cref) p.neg = c at hsink ⊢
    obtain ⟨hsecond, hfirst, hne, hperm, htwo, hmark, hlearnt, hsame⟩ := hsink
    have hsize' : 2 ≤ c.size := hsize.trans_eq hperm.length_eq.symm
    have hfirst' := List.mem_of_mem_take hfirst
    have hpfalse : (s.ca w.cref).get 0 ∈ s.trail → c.get 0 = (s.ca w.cref).get 0 := by
      intro h0
      have : (s.ca w.cref).get 0 ≠ p.neg := fun heq => hok.neg_notMem hp (heq ▸ h0)
      rw [hsame this]
    have hdb : InPlace s (s.setClause w.cref c).toClauseDb :=
      InPlace.set hperm htwo hmark hlearnt fun _ => hpfalse
    rw [if_neg (not_not.mpr hsecond)]
    have hval : ∀ x, (s.setClause w.cref c).value x = s.value x := fun _ => rfl
    by_cases htrue : c.get 0 ≠ w.blocker ∧ (s.setClause w.cref c).value (c.get 0) = .l_True
    · rw [if_pos htrue]
      exact ⟨_, rfl, .satisfied hdb rfl hfirst' hne hfirst' ((hok.value _).mp htrue.2)⟩
    · rw [if_neg htrue]
      have hnottrue : s.value (c.get 0) ≠ .l_True := by
        intro h
        exact htrue ⟨fun heq => hb (heq ▸ h), h⟩
      cases hnew : State.newWatch (s.setClause w.cref c) c with
      | some k =>
        obtain ⟨hk, hlt, hvalue⟩ := newWatch_some hnew
        obtain ⟨hget0, hget1, _⟩ := rewatch_spec hk hlt hsecond
        have hm : Moving s.toClauseDb p w _ _ _ := .rewatch hsize'
          ((hperm.map _).nodup_iff.mpr hnodup) hk hlt hsecond hfirst hne hperm htwo hmark hlearnt
        refine ⟨_, rfl, ?_⟩
        simp only [State.setClause, Function.update_idem]
        refine .moved hm.perm hm.mark hm.learnt hm.two hm.old hm.ne hm.mem hm.fresh ?_ fun h0 => ?_
        · rw [hget1, ← hok.value_eq_false]
          exact hvalue
        · rw [hget0]
          exact hpfalse h0
      | none =>
        have hrest : ∀ x ∈ (s.ca w.cref).lits, x ≠ c.get 0 → x.neg ∈ s.trail := fun x hx hne' =>
          newWatch_none_false (s := s.setClause w.cref c) hok hp hsecond hnew
            (hperm.symm.subset hx) hne'
        by_cases hfalse : (s.setClause w.cref c).value (c.get 0) = .l_False
        · rw [if_pos hfalse]
          refine ⟨_, rfl, .conflict hdb rfl hfirst' hne fun x hx => ?_⟩
          by_cases hx0 : x = c.get 0
          · rw [hx0]
            exact hok.value_eq_false.mp hfalse
          · exact hrest x hx hx0
        · rw [if_neg hfalse]
          have hundef : s.value (c.get 0) = .l_Undef := by
            rw [hval] at hfalse
            cases hv : s.value (c.get 0) with
            | l_True => exact absurd hv hnottrue
            | l_False => exact absurd hv hfalse
            | l_Undef => rfl
          rw [State.uncheckedEnqueue, if_neg (not_not.mpr ((hval _).trans hundef)), ok_bind]
          exact ⟨_, rfl, .implied hdb rfl hfirst' hne (by simp [State.setClause]) hfirst' hundef
            hrest⟩

/-! ## Growing -/

/-- Literals are set at the current level, and clauses reordered. -/
structure Grown (s s' : State) : Prop extends Permuted s.toClauseDb s'.toClauseDb where
  nVars : s'.nVars = s.nVars
  trail : s.trail <+: s'.trail
  trailLim : s'.trailLim = s.trailLim
  vardata : ∀ p ∈ s.trail, s'.vardata p.var = s.vardata p.var
  lists : s'.clauses = s.clauses ∧ s'.learnts = s.learnts

namespace Grown

theorem refl (s : State) : Grown s s :=
  ⟨Permuted.refl _, rfl, List.prefix_refl _, rfl, fun _ _ => rfl, ⟨rfl, rfl⟩⟩

theorem trans {s'' : State} (h : Grown s s') (h' : Grown s' s'') : Grown s s'' :=
  ⟨h.toPermuted.trans h'.toPermuted, h'.nVars.trans h.nVars, h.trail.trans h'.trail,
    h'.trailLim.trans h.trailLim,
    fun p hp => (h'.vardata p (h.trail.subset hp)).trans (h.vardata p hp),
    ⟨h'.lists.1.trans h.lists.1, h'.lists.2.trans h.lists.2⟩⟩

theorem push (hok : TrailOk s.toTrail) (hp : s.value p = .l_Undef) (source : Option CRef) :
    Grown s { s with toTrail := s.toTrail.push p source } :=
  ⟨Permuted.refl _, rfl, List.prefix_append _ _, rfl,
    fun _ hq => Function.update_of_ne (hok.var_ne hp hq) .., ⟨rfl, rfl⟩⟩

theorem level (h : Grown s s') (hp : p ∈ s.trail) : s'.level p.var = s.level p.var :=
  congrArg VarData.level (h.vardata p hp)

theorem decisionLevel (h : Grown s s') : s'.decisionLevel = s.decisionLevel :=
  congrArg List.length h.trailLim

end Grown

theorem InPlace.grown {db : ClauseDb} (h : InPlace s db) :
    Grown s { s with toClauseDb := db } :=
  ⟨h.toPermuted, rfl, List.prefix_refl _, rfl, fun _ _ => rfl, h.lists⟩

/-! ## The watchers of one literal -/

/-- The clause has a true literal, if it watches the complement of `p`. -/
def Handled (s : State) (p : Lit) (cr : CRef) : Prop :=
  p.neg ∈ (s.ca cr).lits.take 2 → ∃ r ∈ (s.ca cr).lits, r ∈ s.trail

/-- What holds while the watchers of `p` are visited, which are `ws` by now; `pending` are the
clauses still to come. -/
structure Visiting (F : Formula) (s : State) (p : Lit) (k : Nat) (ws : List Watcher)
    (pending : List CRef) : Prop where
  ok : StateOk F (s.setWatches p ws)
  clean : (s.setWatches p ws).Clean
  mem : p ∈ s.trail
  le : k ≤ s.trail.length
  watched : Watched s k
  handled : ∀ cr, s.Live cr → cr ∉ pending → Handled s p cr

variable {kept ws : List Watcher} {pending : List CRef} {w' : Watcher}

theorem Visiting.trailOk (h : Visiting F s p k ws pending) : TrailOk s.toTrail := h.ok.trail

/-- A watcher in the list. -/
theorem Visiting.watcher (h : Visiting F s p k ws pending) (hw : w ∈ ws) :
    s.Live w.cref ∧ p.neg ∈ (s.ca w.cref).lits.take 2 ∧
      w.blocker ∈ (s.ca w.cref).lits ∧ w.blocker ≠ p.neg := by
  have hw : w ∈ (s.setWatches p ws).watches.occs p := by
    show w ∈ (s.toClauseDb.setWatches p ws).watches.occs p
    rwa [setWatches_occs]
  exact ⟨⟨h.ok.db.watches.lt p w hw, h.clean p w (Or.inl hw)⟩, h.ok.db.watches.mem p w hw,
    h.ok.db.watches.blocker p w hw⟩

/-- A watcher gets a new blocker and its clause is reordered. -/
theorem Visiting.replace (h : Visiting F s p k (kept ++ w :: ws) pending) {db : ClauseDb}
    (hdb : InPlace s db) (hcref : w'.cref = w.cref) (hblocker : w'.blocker ∈ (s.ca w.cref).lits)
    (hne : w'.blocker ≠ p.neg) :
    Visiting F { s with toClauseDb := db } p k (kept ++ w' :: ws) pending := by
  have hmap : (kept ++ w' :: ws).map Watcher.cref = (kept ++ w :: ws).map Watcher.cref := by
    simp only [List.map_append, List.map_cons, hcref]
  have hmem : ∀ v ∈ kept ++ w' :: ws, v = w' ∨ v ∈ kept ++ w :: ws := by
    intro v hv
    rcases List.mem_append.mp hv with hv | hv
    · exact Or.inr (List.mem_append_left _ hv)
    · rcases List.mem_cons.mp hv with rfl | hv
      · exact Or.inl rfl
      · exact Or.inr (List.mem_append_right _ (List.mem_cons_of_mem _ hv))
  have hre : Reordered (s.toClauseDb.setWatches p (kept ++ w :: ws))
      (db.setWatches p (kept ++ w :: ws)) :=
    ⟨⟨hdb.next, hdb.perm, hdb.mark, hdb.learnt⟩, hdb.take_two⟩
  have hdbok : DbOk (db.setWatches p (kept ++ w :: ws)) s.nVars :=
    h.ok.db.reorder hre (by simp only [ClauseDb.setWatches, hdb.watches]; rfl) hdb.watchesBin
  have hdbok' : DbOk (db.setWatches p (kept ++ w' :: ws)) s.nVars := by
    refine hdbok.setWatches hmap fun v hv => ?_
    rcases hmem v hv with rfl | hv
    · rw [hcref]
      exact ⟨(hdb.perm _).symm.subset hblocker, hne⟩
    · obtain ⟨_, _, hb, hbne⟩ := h.watcher hv
      exact ⟨(hdb.perm _).symm.subset hb, hbne⟩
  have hperm : Permuted (s.toClauseDb.setWatches p (kept ++ w :: ws))
      (db.setWatches p (kept ++ w' :: ws)) := ⟨hdb.next, hdb.perm, hdb.mark, hdb.learnt⟩
  refine ⟨h.ok.permute hperm hdbok' hdb.first, ?_, h.mem, h.le,
    h.watched.reorder hdb.toReordered, fun cr hcr hpend hp => ?_⟩
  · -- the marks and the watched clauses are the same
    intro q v hv
    show (db.ca v.cref).mark = false
    rw [hdb.mark]
    rcases hv with hv | hv
    · by_cases hq : q = p
      · subst hq
        change v ∈ (db.setWatches q (kept ++ w' :: ws)).watches.occs q at hv
        rw [setWatches_occs] at hv
        rcases hmem v hv with rfl | hv
        · rw [hcref]
          exact (h.watcher (List.mem_append_right _ List.mem_cons_self)).1.2
        · exact (h.watcher hv).1.2
      · change v ∈ (db.setWatches p (kept ++ w' :: ws)).watches.occs q at hv
        rw [setWatches_occs_ne hq, hdb.watches] at hv
        refine h.clean q v (Or.inl ?_)
        show v ∈ (s.toClauseDb.setWatches p (kept ++ w :: ws)).watches.occs q
        rwa [setWatches_occs_ne hq]
    · change v ∈ db.watchesBin.occs q at hv
      rw [hdb.watchesBin] at hv
      exact h.clean q v (Or.inr hv)
  · obtain ⟨r, hr, hrt⟩ := h.handled cr (hdb.live.mp hcr) hpend ((hdb.take_two cr).subset hp)
    exact ⟨r, (hdb.perm cr).symm.subset hr, hrt⟩

/-- One more clause is satisfied. -/
theorem Visiting.settle (h : Visiting F s p k ws (cr :: pending))
    (hr : ∃ r ∈ (s.ca cr).lits, r ∈ s.trail) : Visiting F s p k ws pending where
  ok := h.ok
  clean := h.clean
  mem := h.mem
  le := h.le
  watched := h.watched
  handled cr' hcr' hpend := by
    by_cases heq : cr' = cr
    · exact fun _ => heq ▸ hr
    · exact h.handled cr' hcr' (List.not_mem_cons_of_ne_of_not_mem heq hpend)

/-- A literal is set that a clause implies. -/
theorem Visiting.push (h : Visiting F s p k ws pending) (hcr : s.Live cr)
    (hq : s.value q = .l_Undef)
    (hreason : IsReason s.toTrail (s.ca cr) s.trail.length q) :
    Visiting F { s with toTrail := s.toTrail.push q (some cr) } p k ws pending where
  ok := h.ok.push_clause hcr hq hreason
  clean := h.clean
  mem := TrailOk.mem_push.mpr (Or.inl h.mem)
  le := h.le.trans (Grown.push h.trailOk hq _).trail.length_le
  watched := h.watched.push h.trailOk hq h.le
  handled cr' hcr' hpend hp := by
    obtain ⟨r, hr, hrt⟩ := h.handled cr' hcr' hpend hp
    exact ⟨r, hr, TrailOk.mem_push.mpr (Or.inl hrt)⟩

/-- A watcher moves to another literal that is not false. -/
theorem Visiting.move {c : Clause} {first : Lit}
    (h : Visiting F s p k (kept ++ w :: ws) (w.cref :: pending))
    (hm : Moving s.toClauseDb p w c q first) (hvalue : q.neg ∉ s.trail)
    (hget : (s.ca w.cref).get 0 ∈ s.trail → c.get 0 = (s.ca w.cref).get 0) :
    Visiting F { s with toClauseDb := s.toClauseDb.moveWatcher w c q first } p k (kept ++ ws)
      pending := by
  obtain ⟨hlive, hpmem, _⟩ := h.watcher (List.mem_append_right _ List.mem_cons_self)
  have hpm := hm.permuted
  have hperm : Permuted (s.toClauseDb.setWatches p (kept ++ w :: ws))
      ((s.toClauseDb.moveWatcher w c q first).setWatches p (kept ++ ws)) :=
    ⟨hpm.next, hpm.perm, hpm.mark, hpm.learnt⟩
  have hwatches : Watching s.toClauseDb (fun c => c.size ≠ 2)
      (s.toClauseDb.setWatches p (kept ++ w :: ws)).watches := h.ok.db.watches.congr rfl rfl
  refine ⟨h.ok.permute hperm (h.ok.db.move hm hlive) fun cr _ h0 => ?_, fun x v hv => ?_, h.mem,
    h.le, fun cr hcr x hx hfalse => ?_, fun cr hcr hpend hp => ?_⟩
  · change (s.ca cr).get 0 ∈ s.trail at h0
    change ((s.toClauseDb.moveWatcher w c q first).ca cr).get 0 = (s.ca cr).get 0
    by_cases hcw : cr = w.cref
    · subst hcw
      rw [moveWatcher_ca_self]
      exact hget h0
    · rw [moveWatcher_ca hcw]
  · show ((s.toClauseDb.moveWatcher w c q first).ca v.cref).mark = false
    rw [hpm.mark]
    rcases hv with hv | hv
    · rcases Moving.mem_occs hwatches hv with ⟨hv, _⟩ | ⟨_, rfl⟩
      · exact h.clean x v (Or.inl hv)
      · exact hlive.2
    · exact h.clean x v (Or.inr hv)
  · -- the clause watches a literal less, and one that is not false
    rcases hm.mem_take_two hx with hx | rfl
    · obtain ⟨r, hr, hrt⟩ := h.watched cr (hpm.live.mp hcr) x hx hfalse
      exact ⟨r, (hpm.perm cr).symm.subset hr, hrt⟩
    · exact absurd (List.mem_of_mem_take hfalse) hvalue
  · have hcw : cr ≠ w.cref := by
      rintro rfl
      change p.neg ∈ ((s.toClauseDb.moveWatcher w c q first).ca w.cref).lits.take 2 at hp
      rw [moveWatcher_ca_self] at hp
      rcases hm.mem_two.mp hp with heq | heq
      · exact hm.ne heq.symm
      · exact hm.fresh (heq ▸ hpmem)
    have hp' : p.neg ∈ (s.ca cr).lits.take 2 := by
      rw [← moveWatcher_ca hcw]
      exact hp
    obtain ⟨r, hr, hrt⟩ :=
      h.handled cr (hpm.live.mp hcr) (List.not_mem_cons_of_ne_of_not_mem hcw hpend) hp'
    exact ⟨r, (hpm.perm cr).symm.subset hr, hrt⟩

/-! ## The loops -/

/-- What the loop over the watchers of `p` leaves. -/
structure Processed (F : Formula) (s : State) (p : Lit) (k : Nat) (confl : Option CRef)
    (s' : State) : Prop where
  grown : Grown s s'
  ok : StateOk F s'
  clean : s'.Clean
  watched : Watched s' k
  handled : confl = none → ∀ cr, s'.Live cr → Handled s' p cr
  conflict : ∀ cr, confl = some cr → s'.Live cr ∧ p.neg ∈ (s'.ca cr).lits ∧
    ∀ q ∈ (s'.ca cr).lits, q.neg ∈ s'.trail

theorem grown_setWatches (s : State) (p : Lit) (ws : List Watcher) :
    Grown s (s.setWatches p ws) :=
  ⟨⟨rfl, fun _ => List.Perm.refl _, fun _ => rfl, fun _ => rfl⟩, rfl, List.prefix_refl _, rfl,
    fun _ _ => rfl, ⟨rfl, rfl⟩⟩

theorem Moving.grown {c : Clause} {first : Lit} (hm : Moving s.toClauseDb p w c q first) :
    Grown s { s with toClauseDb := s.toClauseDb.moveWatcher w c q first } :=
  ⟨hm.permuted, rfl, List.prefix_refl _, rfl, fun _ _ => rfl, ⟨rfl, rfl⟩⟩

/-- **The watchers of one literal.** -/
theorem visitAll_spec : ∀ (ws kept : List Watcher) (s : State),
    Visiting F s p k (kept ++ ws) (ws.map Watcher.cref) →
    ∃ confl s', State.visitAll p ws kept s = .ok (confl, s') ∧
      Processed F s p k confl s' := by
  intro ws
  induction ws with
  | nil =>
    intro kept s h
    rw [List.append_nil] at h
    exact ⟨none, _, rfl, grown_setWatches s p kept, h.ok, h.clean, h.watched,
      fun _ cr hcr => h.handled cr hcr List.not_mem_nil, fun cr hcr => absurd hcr (by simp)⟩
  | cons w ws ih =>
    intro kept s h
    have hw : w ∈ kept ++ w :: ws := List.mem_append_right _ List.mem_cons_self
    obtain ⟨hlive, hpmem, hb⟩ := h.watcher hw
    obtain ⟨t, hrun, hvisit⟩ := visit_spec h.trailOk h.mem (h.ok.db.size w.cref hlive.1)
      (h.ok.db.nodup w.cref hlive.1) hpmem hb
    unfold State.visitAll
    rw [hrun, ok_bind]
    cases hvisit with
    | satisfied hdb hcref hblocker hne hr htrue =>
      have hstep := h.replace hdb hcref hblocker hne
      have hsettled := hstep.settle ⟨_, (hdb.perm _).symm.subset hr, htrue⟩
      rw [List.append_cons] at hsettled
      obtain ⟨confl, s', hrun', hp⟩ := ih _ _ hsettled
      exact ⟨confl, s', hrun', hdb.grown.trans hp.grown, hp.ok, hp.clean, hp.watched, hp.handled,
        hp.conflict⟩
    | implied hdb hcref hblocker hne hfirst hmem hundef hfalse =>
      have hstep := h.replace hdb hcref hblocker hne
      have hlive' := hdb.live.mpr hlive
      have hmem' := (hdb.perm w.cref).symm.subset hmem
      have hpush := hstep.push (q := _) hlive' hundef ⟨hmem', fun _ => hfirst, fun x hx hne' => by
        show x.neg ∈ s.trail.take s.trail.length
        rw [List.take_length]
        exact hfalse x ((hdb.perm w.cref).subset hx) hne'⟩
      have hsettled := hpush.settle ⟨_, hmem', TrailOk.mem_push.mpr (Or.inr rfl)⟩
      rw [List.append_cons] at hsettled
      obtain ⟨confl, s', hrun', hp⟩ := ih _ _ hsettled
      exact ⟨confl, s', hrun',
        (hdb.grown.trans (Grown.push hstep.trailOk hundef _)).trans hp.grown, hp.ok, hp.clean,
        hp.watched, hp.handled, hp.conflict⟩
    | conflict hdb hcref hblocker hne hfalse =>
      have hstep := h.replace hdb hcref hblocker hne
      refine ⟨_, _, rfl, hdb.grown.trans (grown_setWatches _ _ _), hstep.ok, hstep.clean,
        hstep.watched, fun hno => absurd hno (by simp), fun cr hcr => ?_⟩
      obtain rfl := Option.some.inj hcr
      rw [hcref]
      exact ⟨hdb.live.mpr hlive, (hdb.perm _).symm.subset (List.mem_of_mem_take hpmem),
        fun x hx => hfalse x ((hdb.perm _).subset hx)⟩
    | moved hperm hmark hlearnt htwo hold hne hfirst hq hvalue hget =>
      have hm : Moving s.toClauseDb p w _ _ _ :=
        ⟨hperm, hmark, hlearnt, htwo, hold, hne, hfirst, hq⟩
      have hstep := h.move hm hvalue hget
      obtain ⟨confl, s', hrun', hp⟩ := ih _ _ hstep
      exact ⟨confl, s', hrun', hm.grown.trans hp.grown, hp.ok, hp.clean,
        hp.watched, hp.handled, hp.conflict⟩

theorem setWatches_occs_self (s : State) (p : Lit) : s.setWatches p (s.watches.occs p) = s := by
  unfold State.setWatches
  rw [setWatches_self]

/-- The two literals of a binary clause are the one that is watched and the blocker. -/
theorem mem_bin {n : Nat} (hdb : DbOk s.toClauseDb n) (hw : w ∈ s.watchesBin.occs p)
    (hq : q ∈ (s.ca w.cref).lits) : q = p.neg ∨ q = w.blocker := by
  have hsize := hdb.watchesBin.long p w hw
  obtain ⟨hb, hne⟩ := hdb.watchesBin.blocker p w hw
  have hlits := Clause.lits_eq hsize.ge
  have hdrop : (s.ca w.cref).lits.drop 2 = [] := List.drop_eq_nil_of_le hsize.le
  have hp := List.mem_of_mem_take (hdb.watchesBin.mem p w hw)
  rw [hlits, hdrop] at hq hb hp
  simp only [List.mem_cons, List.not_mem_nil, or_false] at hq hb hp
  rcases hq with rfl | rfl
  · rcases hp with hp | hp
    · exact Or.inl hp.symm
    · exact Or.inr (hb.resolve_right fun h => hne (h.trans hp.symm)).symm
  · rcases hp with hp | hp
    · exact Or.inr (hb.resolve_left fun h => hne (h.trans hp.symm)).symm
    · exact Or.inl hp.symm

/-- **The binary clauses of one literal.** -/
theorem propagateBin_spec : ∀ (ws : List Watcher) (s : State),
    (∀ w ∈ ws, w ∈ s.watchesBin.occs p) →
    Visiting F s p k (s.watches.occs p) (ws.map Watcher.cref ++ pending) →
    ∃ confl s', State.propagateBin ws s = .ok (confl, s') ∧
      s'.toClauseDb = s.toClauseDb ∧ Grown s s' ∧
      (confl = none → Visiting F s' p k (s'.watches.occs p) pending) ∧
      ∀ cr, confl = some cr → Processed F s p k confl s' := by
  intro ws
  induction ws with
  | nil =>
    intro s _ h
    exact ⟨none, s, rfl, rfl, Grown.refl s, fun _ => h, fun cr hcr => absurd hcr (by simp)⟩
  | cons w ws ih =>
    intro s hbin h
    obtain ⟨hw, hws⟩ := List.forall_mem_cons.mp hbin
    have hok : StateOk F s := by simpa only [setWatches_occs_self] using h.ok
    have hclean : s.Clean := by
      have := h.clean
      rwa [setWatches_occs_self] at this
    have hlive : s.Live w.cref := ⟨hok.db.watchesBin.lt p w hw, hclean p w (Or.inr hw)⟩
    have hblocker := (hok.db.watchesBin.blocker p w hw).1
    unfold State.propagateBin
    cases hv : s.value w.blocker with
    | l_False =>
      rw [if_pos rfl]
      refine ⟨_, s, rfl, rfl, Grown.refl s, fun hno => absurd hno (by simp), fun cr hcr => ?_⟩
      refine ⟨Grown.refl s, hok, hclean, h.watched, fun hno => absurd hno (by simp),
        fun cr' hcr' => ?_⟩
      obtain rfl := Option.some.inj hcr'
      refine ⟨hlive, List.mem_of_mem_take (hok.db.watchesBin.mem p w hw), fun q hq => ?_⟩
      rcases mem_bin hok.db hw hq with rfl | rfl
      · rw [neg_neg]
        exact h.mem
      · exact hok.trail.value_eq_false.mp hv
    | l_True =>
      rw [if_neg (by simp), if_neg (by simp)]
      obtain ⟨confl, s', hrun, hdb, hgrown, hnone, hsome⟩ := ih s hws
        (h.settle ⟨w.blocker, hblocker, (hok.trail.value _).mp hv⟩)
      exact ⟨confl, s', hrun, hdb, hgrown, hnone, hsome⟩
    | l_Undef =>
      rw [if_neg (by simp), if_pos rfl, State.uncheckedEnqueue, if_neg (not_not.mpr hv), ok_bind]
      have hpush := h.push hlive hv ⟨hblocker,
        fun hlong => absurd (hok.db.watchesBin.long p w hw) hlong, fun q hq hne => by
          rw [List.take_length]
          rcases mem_bin hok.db hw hq with rfl | rfl
          · rw [neg_neg]
            exact h.mem
          · exact absurd rfl hne⟩
      have hsettled := hpush.settle ⟨w.blocker, hblocker, TrailOk.mem_push.mpr (Or.inr rfl)⟩
      obtain ⟨confl, s', hrun, hdb, hgrown, hnone, hsome⟩ :=
        ih { s with toTrail := s.toTrail.push w.blocker (some w.cref) } hws hsettled
      have hgrow := Grown.push hok.trail hv (some w.cref)
      refine ⟨confl, s', hrun, hdb, hgrow.trans hgrown, hnone, fun cr hcr => ?_⟩
      have hp := hsome cr hcr
      exact ⟨hgrow.trans hp.grown, hp.ok, hp.clean, hp.watched, hp.handled, hp.conflict⟩

/-! ## The queue -/

/-- The literals before `qhead` were propagated, among them all of the levels below. -/
structure QueueOk (s : Solver) : Prop where
  lims : ∀ l ∈ s.trailLim, l ≤ s.qhead
  qhead_le : s.qhead ≤ s.trail.length
  watched : Watched s.toState s.qhead

/-- What `propagate` does: on `none` the queue is empty, on `some cr` the clause `cr` is false. -/
structure Propagated (F : Formula) (s : Solver) (confl : Option CRef) (s' : Solver) : Prop where
  grown : Grown s.toState s'.toState
  ok : StateOk F s'.toState
  clean : s'.Clean
  order : s'.toOrder = s.toOrder
  control : s'.toControl = s.toControl
  seen : s'.seen = s.seen
  watched : Watched s'.toState s.qhead
  done : confl = none → s'.qhead = s'.trail.length ∧ Watched s'.toState s'.qhead
  conflict : ∀ cr, confl = some cr → s'.Live cr ∧ (∀ q ∈ (s'.ca cr).lits, q.neg ∈ s'.trail) ∧
    ∃ q ∈ (s'.ca cr).lits, s'.level q.var = s'.decisionLevel

/-- The first literal of the queue has its watchers visited. -/
theorem visiting_start (hok : StateOk F s) (hclean : s.Clean) (hw : Watched s k)
    (hp : s.trail[k]? = some p) :
    Visiting F s p k (s.watches.occs p)
      ((s.watchesBin.occs p).map Watcher.cref ++ (s.watches.occs p).map Watcher.cref) where
  ok := by rwa [setWatches_occs_self]
  clean := by
    show (s.setWatches p (s.watches.occs p)).Clean
    rwa [setWatches_occs_self]
  mem := List.mem_of_getElem? hp
  le := (List.getElem?_eq_some_iff.mp hp).1.le
  watched := hw
  handled cr hcr hpend hmem := by
    refine absurd ?_ hpend
    by_cases hsize : (s.ca cr).size = 2
    · have := hok.db.watchesBin.watched cr hcr hsize p.neg hmem
      rw [neg_neg] at this
      exact List.mem_append_left _ this
    · have := hok.db.watches.watched cr hcr hsize p.neg hmem
      rw [neg_neg] at this
      exact List.mem_append_right _ this

/-- **One literal of the queue** is propagated. -/
theorem Processed.watched_succ (h : Processed F s p k none s') (hp : s.trail[k]? = some p)
    (hlims : ∀ l ∈ s.trailLim, l ≤ k) : Watched s' (k + 1) := by
  intro cr hcr q hq hfalse
  obtain ⟨i, hi, hqi⟩ := mem_take_iff.mp hfalse
  rcases Nat.lt_succ_iff_lt_or_eq.mp hi with hi | rfl
  · exact h.watched cr hcr q hq (mem_take_iff.mpr ⟨i, hi, hqi⟩)
  · have hpi : s'.trail[i]? = some p := by
      obtain ⟨hlt, heq⟩ := List.getElem?_eq_some_iff.mp hp
      obtain ⟨rest, hrest⟩ := h.grown.trail
      rw [← hrest, List.getElem?_append_left hlt, hp]
    have hqp : q.neg = p := Option.some.inj (hqi.symm.trans hpi)
    obtain ⟨r, hr, hrt⟩ := h.handled rfl cr hcr (by rw [← hqp, neg_neg]; exact hq)
    refine ⟨r, hr, hrt, (h.ok.trail.level_le hrt).trans ?_⟩
    have hlevel : s'.level q.neg.var = s'.levelAt i := h.ok.trail.level i q.neg hqi
    rw [var_neg] at hlevel
    rw [hlevel, TrailOk.levelAt_eq]
    rw [h.grown.trailLim]
    exact hlims

theorem propagateLoop_spec : ∀ (fuel : Nat) (s : Solver) (numProps : Nat),
    s.nVars < fuel + s.qhead → StateOk F s.toState → s.Clean → QueueOk s →
    ∃ confl s', s.propagateLoop fuel numProps = .ok (confl, s') ∧ Propagated F s confl s' := by
  intro fuel
  induction fuel with
  | zero =>
    intro s _ hfuel hok _ hq
    have := hok.trail.length_le
    have := hq.qhead_le
    omega
  | succ fuel ih =>
    intro s numProps hfuel hok hclean hq
    unfold Solver.propagateLoop
    cases hp : s.trail[s.qhead]? with
    | none =>
      have hlen : s.qhead = s.trail.length :=
        Nat.le_antisymm hq.qhead_le (List.getElem?_eq_none_iff.mp hp)
      exact ⟨none, _, rfl, Grown.refl _, hok, hclean, rfl, rfl, rfl, hq.watched,
        fun _ => ⟨hlen, hq.watched⟩, fun cr hcr => absurd hcr (by simp)⟩
    | some p =>
      have hlt := (List.getElem?_eq_some_iff.mp hp).1
      have hplevel : s.level p.var = s.decisionLevel := by
        have : s.level p.var = s.levelAt s.qhead := hok.trail.level _ p hp
        rw [this, TrailOk.levelAt_eq hq.lims]
      -- a false clause that watches the complement of `p` has a literal of the current level
      have hcurrent : ∀ (t : State) (confl : Option CRef), Processed F s.toState p s.qhead confl t →
          ∀ cr, confl = some cr → t.Live cr ∧ (∀ q ∈ (t.ca cr).lits, q.neg ∈ t.trail) ∧
            ∃ q ∈ (t.ca cr).lits, t.level q.var = t.decisionLevel := by
        intro t confl ht cr hcr
        obtain ⟨hlive, hpmem, hfalse⟩ := ht.conflict cr hcr
        refine ⟨hlive, hfalse, p.neg, hpmem, ?_⟩
        rw [ht.grown.decisionLevel]
        exact (ht.grown.level (List.mem_of_getElem? hp)).trans hplevel
      obtain ⟨confl, t, hrun, hdb, hgrown, hnone, hsome⟩ :=
        propagateBin_spec (s.watchesBin.occs p) s.toState (fun _ hw => hw)
          (visiting_start hok hclean hq.watched hp)
      simp only [hrun, ok_bind]
      cases confl with
      | some cr =>
        have ht := hsome cr rfl
        exact ⟨some cr, _, rfl, hgrown, ht.ok, ht.clean, rfl, rfl, rfl, ht.watched,
          fun hno => absurd hno (by simp), hcurrent t _ ht⟩
      | none =>
        have hvisit := hnone rfl
        have hpend : (s.watches.occs p).map Watcher.cref =
            (t.watches.occs p).map Watcher.cref := by rw [hdb]
        rw [hpend] at hvisit
        obtain ⟨confl, t', hrun', ht'⟩ := visitAll_spec (t.watches.occs p) [] t hvisit
        have ht : Processed F s.toState p s.qhead confl t' :=
          ⟨hgrown.trans ht'.grown, ht'.ok, ht'.clean, ht'.watched, ht'.handled, ht'.conflict⟩
        simp only [hrun', ok_bind]
        cases confl with
        | some cr =>
          exact ⟨some cr, _, rfl, ht.grown, ht.ok, ht.clean, rfl, rfl, rfl, ht.watched,
            fun hno => absurd hno (by simp), hcurrent t' _ ht⟩
        | none =>
          have hwatched := ht.watched_succ hp hq.lims
          have hlen : s.qhead + 1 ≤ t'.trail.length :=
            Nat.le_trans hlt ht.grown.trail.length_le
          have hq' : QueueOk { s with toState := t', qhead := s.qhead + 1 } :=
            ⟨fun l hl => (hq.lims l (ht.grown.trailLim ▸ hl)).trans (Nat.le_succ _), hlen,
              hwatched⟩
          obtain ⟨confl, s', hrun'', hs'⟩ := ih { s with toState := t', qhead := s.qhead + 1 }
            (numProps + 1) (by
              have : t'.nVars = s.nVars := ht.grown.nVars
              simp only [this]
              omega) ht.ok ht.clean hq'
          refine ⟨confl, s', hrun'', ht.grown.trans hs'.grown, hs'.ok, hs'.clean, hs'.order,
            hs'.control, hs'.seen, fun cr hcr q hqm hfalse => ?_, hs'.done, hs'.conflict⟩
          refine hs'.watched cr hcr q hqm ?_
          exact (List.take_prefix_take_left (Nat.le_succ _)).subset hfalse

/-- **`propagate`** fails no assertion, and returns a clause that is false, or `none` when the
queue is empty and every clause with a false watched literal is satisfied. -/
theorem propagate_spec {s : Solver} (hok : StateOk F s.toState) (hq : QueueOk s) :
    ∃ confl s', s.propagate = .ok (confl, s') ∧ Propagated F s confl s' := by
  obtain ⟨hdb, hclean⟩ := hok.db.cleanAll
  have hok' : StateOk F { s.toState with toClauseDb := s.cleanAll } :=
    ⟨hok.trail, hdb, hok.reasons, ⟨hok.equiv.entails, hok.equiv.fixed, hok.equiv.complete⟩⟩
  obtain ⟨confl, s', hrun, h⟩ := propagateLoop_spec (s.nVars + 1)
    { s with toClauseDb := s.cleanAll } 0 (by simp only []; omega) hok' hclean
    ⟨hq.lims, hq.qhead_le, hq.watched⟩
  refine ⟨confl, s', hrun, ?_, h.ok, h.clean, h.order, h.control, h.seen, h.watched, h.done,
    h.conflict⟩
  exact ⟨⟨h.grown.next, h.grown.perm, h.grown.mark, h.grown.learnt⟩, h.grown.nVars,
    h.grown.trail, h.grown.trailLim, h.grown.vardata, h.grown.lists⟩

end SymBreak.Glucose
