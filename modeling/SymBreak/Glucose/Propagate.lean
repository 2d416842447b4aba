import SymBreak.Glucose.Invariant

/-!
# Propagation

Model of `propagate` (`core/Solver.cc`): for each literal that became true, the binary clauses that
watch its complement, then the longer ones. A watcher of a long clause stays in its list, with the
clause's first literal as the new blocker, or moves to the list of another literal of the clause
that is not false; a clause without one implies its first literal, or is in conflict. The list is
rewritten while it is read: here the watchers that stay are collected and stored at the end.
-/

namespace SymBreak.Glucose

open Cnf

/-- Store the list of the watchers at `p`. -/
def ClauseDb.setWatches (db : ClauseDb) (p : Lit) (ws : List Watcher) : ClauseDb :=
  { db with watches := { db.watches with occs := Function.update db.watches.occs p ws } }

namespace State

/-- Store the list of the watchers at `p`. -/
def setWatches (s : State) (p : Lit) (ws : List Watcher) : State :=
  { s with toClauseDb := s.toClauseDb.setWatches p ws }

/-- Store the clause `cr`. -/
def setClause (s : State) (cr : CRef) (c : Clause) : State :=
  { s with ca := Function.update s.ca cr c }

/-- The loop over the binary clauses (`Solver.cc:797-808`). -/
def propagateBin : List Watcher → State → Result (Option CRef × State)
  | [], s => .ok (none, s)
  | w :: ws, s =>
    if s.value w.blocker = .l_False then .ok (some w.cref, s)
    else if s.value w.blocker = .l_Undef then do
      let s ← s.uncheckedEnqueue w.blocker (some w.cref)
      propagateBin ws s
    else propagateBin ws s

/-- What a turn of the loop over the watchers does with the watcher. -/
inductive Turn where
  | stays (w : Watcher) (s : State)
  | moves (s : State)
  | conflict (w : Watcher) (s : State)

/-- Make sure the false literal is `data[1]` (`Solver.cc:822-823`). -/
def sink (c : Clause) (falseLit : Lit) : Clause :=
  if c.get 0 = falseLit then
    { c with lits := (c.lits.set 0 (c.get 1)).set 1 falseLit }
  else c

/-- The position of a literal to watch instead (`Solver.cc:858-863`). -/
def newWatch (s : State) (c : Clause) : Option Nat :=
  (List.range' 2 (c.size - 2)).find? fun k => s.value (c.get k) != .l_False

/-- `c[1] = c[k]; c[k] = false_lit;` -/
def rewatch (c : Clause) (k : Nat) (falseLit : Lit) : Clause :=
  { c with lits := (c.lits.set 1 (c.get k)).set k falseLit }

/-- A turn of the loop over the watchers of `p` (`Solver.cc:812-881`). -/
def visit (p : Lit) (w : Watcher) (s : State) : Result Turn :=
  if s.value w.blocker = .l_True then .ok (.stays w s)
  else
    let falseLit := p.neg
    let c := sink (s.ca w.cref) falseLit
    if c.get 1 ≠ falseLit then .error (.raised (.assertion "c[1] == false_lit"))
    else
      let s := s.setClause w.cref c
      let first := c.get 0
      let w' : Watcher := ⟨w.cref, first⟩
      if first ≠ w.blocker ∧ s.value first = .l_True then .ok (.stays w' s)
      else match newWatch s c with
        | some k =>
          let c := rewatch c k falseLit
          let s := s.setClause w.cref c
          .ok (.moves { s with watches := s.watches.push (c.get 1).neg w' })
        | none =>
          if s.value first = .l_False then .ok (.conflict w' s)
          else do
            let s ← s.uncheckedEnqueue first (some w.cref)
            .ok (.stays w' s)

/-- The loop over the watchers of `p`, where `kept` is what was copied so far. -/
def visitAll (p : Lit) : List Watcher → List Watcher → State → Result (Option CRef × State)
  | [], kept, s => .ok (none, s.setWatches p kept)
  | w :: ws, kept, s => do
    match ← visit p w s with
    | .stays w s => visitAll p ws (kept ++ [w]) s
    | .moves s => visitAll p ws kept s
    | .conflict w s => .ok (some w.cref, s.setWatches p (kept ++ w :: ws))

end State

namespace Solver

/-- `propagations += num_props; simpDB_props -= num_props;` -/
def countProps (s : Solver) (numProps : Nat) : Solver :=
  { s with
    propagations := s.propagations + numProps
    simpDBProps := s.simpDBProps - numProps }

/-- `while (qhead < trail.size())` (`Solver.cc:787-884`) -/
def propagateLoop : Nat → Solver → Nat → Result (Option CRef × Solver)
  | 0, _, _ => .error .outOfFuel
  | fuel + 1, s, numProps =>
    match s.trail[s.qhead]? with
    | none => .ok (none, s.countProps numProps)
    | some p => do
      let (confl, t) ← State.propagateBin (s.watchesBin.occs p) s.toState
      let s := { s with toState := t, qhead := s.qhead + 1 }
      match confl with
      | some cr => .ok (some cr, s)
      | none => do
        let (confl, t) ← State.visitAll p (s.watches.occs p) [] s.toState
        let s := { s with toState := t }
        match confl with
        | some cr => .ok (some cr, countProps { s with qhead := s.trail.length } (numProps + 1))
        | none => propagateLoop fuel s (numProps + 1)

/-- `propagate` (`Solver.cc:781-888`) -/
def propagate (s : Solver) : Result (Option CRef × Solver) :=
  propagateLoop (s.nVars + 1) { s with toClauseDb := s.cleanAll } 0

end Solver

/-! ## Swapping literals -/

theorem sink_spec {c : Clause} {f : Lit} (hsize : 2 ≤ c.size)
    (hnodup : (c.lits.map Lit.var).Nodup) (hf : f ∈ c.lits.take 2) :
    (State.sink c f).get 1 = f ∧ (State.sink c f).get 0 ∈ c.lits.take 2 ∧
      (State.sink c f).get 0 ≠ f ∧ (State.sink c f).lits.Perm c.lits ∧
      ((State.sink c f).lits.take 2).Perm (c.lits.take 2) ∧
      (State.sink c f).mark = c.mark ∧ (State.sink c f).learnt = c.learnt ∧
      (c.get 0 ≠ f → State.sink c f = c) := by
  have hne := Clause.get_ne hsize hnodup
  obtain ⟨lits, learnt, mark, lbd, canBeDel⟩ := c
  match lits, hsize with
  | a :: b :: rest, _ =>
    change a ≠ b at hne
    unfold State.sink
    by_cases haf : a = f
    · subst haf
      rw [if_pos (show Clause.get ⟨a :: b :: rest, _, _, _, _⟩ 0 = a from rfl)]
      exact ⟨rfl, List.mem_cons_of_mem _ List.mem_cons_self, hne.symm, List.Perm.swap _ _ _,
        List.Perm.swap _ _ _, rfl, rfl, fun h => absurd rfl h⟩
    · rw [if_neg (show Clause.get ⟨a :: b :: rest, _, _, _, _⟩ 0 ≠ f from haf)]
      have hb : b = f := by
        rcases List.mem_cons.mp hf with h | h
        · exact absurd h.symm haf
        · exact (List.mem_singleton.mp h).symm
      exact ⟨hb, List.mem_cons_self, haf, List.Perm.refl _, List.Perm.refl _, rfl, rfl,
        fun _ => rfl⟩

theorem rewatch_spec {c : Clause} {f : Lit} {k : Nat} (hk : 2 ≤ k) (hlt : k < c.size)
    (hf : c.get 1 = f) :
    (State.rewatch c k f).get 0 = c.get 0 ∧ (State.rewatch c k f).get 1 = c.get k ∧
      (State.rewatch c k f).lits.Perm c.lits ∧ (State.rewatch c k f).mark = c.mark ∧
      (State.rewatch c k f).learnt = c.learnt := by
  obtain ⟨lits, learnt, mark, lbd, canBeDel⟩ := c
  change k < lits.length at hlt
  have h1 : 1 < lits.length := by omega
  have hget1 : f = lits[1] := by
    rw [← hf, Clause.get, List.getD_eq_getElem?_getD, List.getElem?_eq_getElem h1,
      Option.getD_some]
  have hgetk : Clause.get ⟨lits, learnt, mark, lbd, canBeDel⟩ k = lits[k] := by
    rw [Clause.get, List.getD_eq_getElem?_getD, List.getElem?_eq_getElem hlt, Option.getD_some]
  refine ⟨?_, ?_, ?_, rfl, rfl⟩
  · simp only [Clause.get, State.rewatch, List.getD_eq_getElem?_getD, List.getElem?_set]
    rw [if_neg (by omega), if_neg (by omega)]
  · rw [hgetk]
    simp only [Clause.get, State.rewatch, List.getD_eq_getElem?_getD, List.getElem?_set]
    rw [if_neg (by omega), if_pos trivial, if_pos h1, List.getElem?_eq_getElem hlt]
    rfl
  · show ((lits.set 1 (Clause.get ⟨lits, learnt, mark, lbd, canBeDel⟩ k)).set k f).Perm lits
    rw [hgetk, hget1]
    exact List.set_set_perm h1 hlt

/-! ## The lists -/

variable {db : ClauseDb} {p q : Lit} {ws ws' : List Watcher} {w : Watcher} {cr : CRef}

theorem setWatches_self (db : ClauseDb) (p : Lit) : db.setWatches p (db.watches.occs p) = db := by
  simp only [ClauseDb.setWatches, Function.update_eq_self]

theorem setWatches_occs (db : ClauseDb) (p : Lit) (ws : List Watcher) :
    (db.setWatches p ws).watches.occs p = ws := Function.update_self ..

theorem setWatches_occs_ne (h : q ≠ p) :
    (db.setWatches p ws).watches.occs q = db.watches.occs q := Function.update_of_ne h ..

/-- The watchers at `p` may get other blockers. -/
theorem Watching.setWatches {long : Clause → Prop}
    (h : Watching db long (db.setWatches p ws).watches)
    (hcref : ws'.map Watcher.cref = ws.map Watcher.cref)
    (hblocker : ∀ w ∈ ws', w.blocker ∈ (db.ca w.cref).lits ∧ w.blocker ≠ p.neg) :
    Watching db long (db.setWatches p ws').watches := by
  -- a watcher of the new list stands for one of the old list
  have hold : ∀ q, ∀ w ∈ (db.setWatches p ws').watches.occs q,
      ∃ v ∈ (db.setWatches p ws).watches.occs q, v.cref = w.cref := by
    intro q w hw
    by_cases hq : q = p
    · subst hq
      rw [setWatches_occs] at hw ⊢
      exact List.mem_map.mp (hcref ▸ List.mem_map_of_mem hw)
    · rw [setWatches_occs_ne hq] at hw ⊢
      exact ⟨w, hw, rfl⟩
  have hmap : ∀ q, ((db.setWatches p ws').watches.occs q).map Watcher.cref =
      ((db.setWatches p ws).watches.occs q).map Watcher.cref := by
    intro q
    by_cases hq : q = p
    · subst hq
      rw [setWatches_occs, setWatches_occs, hcref]
    · rw [setWatches_occs_ne hq, setWatches_occs_ne hq]
  refine ⟨fun cr hcr hl q hq => ?_, fun q w hw => ?_, fun q w hw => ?_, fun q w hw => ?_,
    fun q w hw => ?_, fun q w hw hmark => ?_, fun q => ?_⟩
  · rw [hmap]
    exact h.watched cr hcr hl q hq
  · obtain ⟨v, hv, hcr⟩ := hold q w hw
    exact hcr ▸ h.lt q v hv
  · obtain ⟨v, hv, hcr⟩ := hold q w hw
    exact hcr ▸ h.long q v hv
  · obtain ⟨v, hv, hcr⟩ := hold q w hw
    exact hcr ▸ h.mem q v hv
  · by_cases hq : q = p
    · subst hq
      rw [setWatches_occs] at hw
      exact hblocker w hw
    · rw [setWatches_occs_ne hq] at hw
      exact h.blocker q w (by rwa [setWatches_occs_ne hq])
  · obtain ⟨v, hv, hcr⟩ := hold q w hw
    exact h.dirty q v hv (by rwa [hcr])
  · rw [hmap]
    exact h.nodup q

/-- The watcher `w` moves to `q.neg`, where `c` is its clause with `first` and `q` in front. -/
def ClauseDb.moveWatcher (db : ClauseDb) (w : Watcher) (c : Clause) (q first : Lit) : ClauseDb :=
  { db with
    ca := Function.update db.ca w.cref c
    watches := db.watches.push q.neg ⟨w.cref, first⟩ }

theorem moveWatcher_ca_self (db : ClauseDb) (w : Watcher) (c : Clause) (q first : Lit) :
    (db.moveWatcher w c q first).ca w.cref = c := Function.update_self ..

theorem moveWatcher_ca {c : Clause} {first : Lit} (hcr : cr ≠ w.cref) :
    (db.moveWatcher w c q first).ca cr = db.ca cr := Function.update_of_ne hcr ..

/-- In `c`, the clause of `w`, the literal `q` takes the place of the watched `p.neg`. The other
watched literal is `first`. -/
structure Moving (db : ClauseDb) (p : Lit) (w : Watcher) (c : Clause) (q first : Lit) : Prop where
  perm : c.lits.Perm (db.ca w.cref).lits
  mark : c.mark = (db.ca w.cref).mark
  learnt : c.learnt = (db.ca w.cref).learnt
  two : c.lits.take 2 = [first, q]
  old : ∀ x ∈ (db.ca w.cref).lits.take 2, x = first ∨ x = p.neg
  ne : first ≠ p.neg
  mem : first ∈ (db.ca w.cref).lits.take 2
  fresh : q ∉ (db.ca w.cref).lits.take 2

namespace Moving

variable {long : Clause → Prop} {kept : List Watcher} {c : Clause} {first : Lit}

theorem permuted (hm : Moving db p w c q first) : Permuted db (db.moveWatcher w c q first) :=
  have := Permuted.set hm.perm hm.mark hm.learnt
  ⟨rfl, this.perm, this.mark, this.learnt⟩

theorem mem_two (hm : Moving db p w c q first) {x : Lit} :
    x ∈ c.lits.take 2 ↔ x = first ∨ x = q := by
  rw [hm.two, List.mem_cons, List.mem_singleton]

theorem mem_old (h : Watching db long (db.setWatches p (kept ++ w :: ws)).watches) :
    p.neg ∈ (db.ca w.cref).lits.take 2 := by
  refine h.mem p w ?_
  rw [setWatches_occs]
  exact List.mem_append_right _ List.mem_cons_self

/-- The new list is not the one that is visited. -/
theorem neg_ne (hm : Moving db p w c q first)
    (h : Watching db long (db.setWatches p (kept ++ w :: ws)).watches) : q.neg ≠ p := by
  rintro rfl
  have := mem_old h
  rw [neg_neg] at this
  exact hm.fresh this

/-- The watchers of the clause that moves are all gone from the list that is visited. -/
theorem notMem (h : Watching db long (db.setWatches p (kept ++ w :: ws)).watches) :
    w.cref ∉ (kept ++ ws).map Watcher.cref ∧ ((kept ++ ws).map Watcher.cref).Nodup := by
  have hnodup := h.nodup p
  rw [setWatches_occs, List.map_append, List.map_cons, List.nodup_middle, ← List.map_append]
    at hnodup
  exact ⟨hnodup.notMem, hnodup.of_cons⟩

theorem occs (db : ClauseDb) (c : Clause) (q first : Lit) {x : Lit} (hx : x ≠ p) :
    ((db.moveWatcher w c q first).setWatches p (kept ++ ws)).watches.occs x =
      if x = q.neg then
        (db.setWatches p (kept ++ w :: ws)).watches.occs x ++ [⟨w.cref, first⟩]
      else (db.setWatches p (kept ++ w :: ws)).watches.occs x := by
  rw [setWatches_occs_ne hx, setWatches_occs_ne hx]
  by_cases hxq : x = q.neg
  · subst hxq
    simp [ClauseDb.moveWatcher, OccLists.push]
  · simp [ClauseDb.moveWatcher, OccLists.push, hxq]

/-- A watcher stays in the lists other than the one that is visited. -/
theorem mem_occs_of_mem {x : Lit} (hx : x ≠ p) {n : CRef}
    (hn : n ∈ ((db.setWatches p (kept ++ w :: ws)).watches.occs x).map Watcher.cref) :
    n ∈ (((db.moveWatcher w c q first).setWatches p (kept ++ ws)).watches.occs x).map
      Watcher.cref := by
  rw [occs db c q first hx]
  split
  · rw [List.map_append]
    exact List.mem_append_left _ hn
  · exact hn

/-- The members of the new lists. -/
theorem mem_occs (h : Watching db long (db.setWatches p (kept ++ w :: ws)).watches) {x : Lit}
    {v : Watcher}
    (hv : v ∈ ((db.moveWatcher w c q first).setWatches p (kept ++ ws)).watches.occs x) :
    v ∈ (db.setWatches p (kept ++ w :: ws)).watches.occs x ∧ (v.cref = w.cref → x ≠ p) ∨
      x = q.neg ∧ v = ⟨w.cref, first⟩ := by
  by_cases hx : x = p
  · subst hx
    rw [setWatches_occs] at hv ⊢
    refine Or.inl ⟨?_, fun hcr => absurd (hcr ▸ List.mem_map_of_mem hv) (notMem h).1⟩
    exact (List.sublist_append_right [w] ws |>.append_left kept).subset hv
  · rw [occs db c q first hx] at hv
    split at hv
    · rcases List.mem_append.mp hv with hv | hv
      · exact Or.inl ⟨hv, fun _ => hx⟩
      · exact Or.inr ⟨‹_›, List.mem_singleton.mp hv⟩
    · exact Or.inl ⟨hv, fun _ => hx⟩

/-- The clauses are still watched. -/
theorem watched (hm : Moving db p w c q first)
    (h : Watching db long (db.setWatches p (kept ++ w :: ws)).watches)
    (hcr : (db.moveWatcher w c q first).Live cr)
    (hl : long ((db.moveWatcher w c q first).ca cr)) {x : Lit}
    (hx : x ∈ ((db.moveWatcher w c q first).ca cr).lits.take 2) :
    cr ∈ (((db.moveWatcher w c q first).setWatches p (kept ++ ws)).watches.occs x.neg).map
      Watcher.cref := by
  have hlive := hm.permuted.live.mp hcr
  by_cases hcw : cr = w.cref
  · subst hcw
    rw [moveWatcher_ca_self] at hx
    rcases hm.mem_two.mp hx with rfl | rfl
    · have hlong : long (db.ca w.cref) := by
        refine h.long p w ?_
        rw [setWatches_occs]
        exact List.mem_append_right _ List.mem_cons_self
      exact mem_occs_of_mem (fun heq => hm.ne (by rw [← heq, neg_neg]))
        (h.watched w.cref hlive hlong x hm.mem)
    · rw [occs db c x first (hm.neg_ne h), if_pos rfl, List.map_append]
      exact List.mem_append_right _ List.mem_cons_self
  · rw [moveWatcher_ca hcw] at hl hx
    have hw := h.watched cr hlive hl x hx
    by_cases hxp : x.neg = p
    · rw [hxp, setWatches_occs] at hw ⊢
      rw [List.map_append, List.map_cons] at hw
      rw [List.map_append]
      rcases List.mem_append.mp hw with hw | hw
      · exact List.mem_append_left _ hw
      · exact List.mem_append_right _ ((List.mem_cons.mp hw).resolve_left hcw)
    · exact mem_occs_of_mem hxp hw

/-- Only `q` is a new watched literal. -/
theorem mem_take_two (hm : Moving db p w c q first) {x : Lit}
    (hx : x ∈ ((db.moveWatcher w c q first).ca cr).lits.take 2) :
    x ∈ (db.ca cr).lits.take 2 ∨ x = q := by
  by_cases hcw : cr = w.cref
  · subst hcw
    rw [moveWatcher_ca_self] at hx
    rcases hm.mem_two.mp hx with rfl | rfl
    · exact Or.inl hm.mem
    · exact Or.inr rfl
  · rw [moveWatcher_ca hcw] at hx
    exact Or.inl hx

/-- No list gets a second watcher of the clause that moves. -/
theorem nodup (hm : Moving db p w c q first)
    (h : Watching db long (db.setWatches p (kept ++ w :: ws)).watches) (x : Lit) :
    ((((db.moveWatcher w c q first).setWatches p (kept ++ ws)).watches.occs x).map
      Watcher.cref).Nodup := by
  by_cases hx : x = p
  · subst hx
    rw [setWatches_occs]
    exact (notMem h).2
  · rw [occs db c q first hx]
    split
    · rename_i hxq
      rw [List.map_append]
      refine (h.nodup x).append (List.nodup_singleton _) (List.disjoint_singleton.mpr ?_)
      intro hmem
      obtain ⟨v, hv, hvw⟩ := List.mem_map.mp hmem
      have := h.mem x v hv
      rw [hxq, neg_neg, hvw] at this
      exact hm.fresh this
    · exact h.nodup x

end Moving

/-- The lists after a watcher has moved. -/
theorem Watching.move {long : Clause → Prop} {kept : List Watcher} {c : Clause} {first : Lit}
    (h : Watching db long (db.setWatches p (kept ++ w :: ws)).watches)
    (hm : Moving db p w c q first) (hlong : long c) (hlive : db.Live w.cref) :
    Watching (db.moveWatcher w c q first) long
      ((db.moveWatcher w c q first).setWatches p (kept ++ ws)).watches := by
  have hmark : c.mark = false := hm.mark.trans hlive.2
  refine ⟨fun cr hcr hl x hx => hm.watched h hcr hl hx, fun x v hv => ?_, fun x v hv => ?_,
    fun x v hv => ?_, fun x v hv => ?_, fun x v hv hdirty => ?_, hm.nodup h⟩
  · rcases Moving.mem_occs h hv with ⟨hv, _⟩ | ⟨_, rfl⟩
    · exact h.lt x v hv
    · exact hlive.1
  · by_cases hvw : v.cref = w.cref
    · rw [hvw, moveWatcher_ca_self]
      exact hlong
    · rw [moveWatcher_ca hvw]
      rcases Moving.mem_occs h hv with ⟨hv, _⟩ | ⟨_, rfl⟩
      · exact h.long x v hv
      · exact absurd rfl hvw
  · rcases Moving.mem_occs h hv with ⟨hv, hxp⟩ | ⟨rfl, rfl⟩
    · have hmem := h.mem x v hv
      by_cases hvw : v.cref = w.cref
      · rw [hvw] at hmem
        rw [hvw, moveWatcher_ca_self]
        exact hm.mem_two.mpr
          ((hm.old _ hmem).imp id fun heq => absurd (neg_inj.mp heq) (hxp hvw))
      · rw [moveWatcher_ca hvw]
        exact hmem
    · rw [moveWatcher_ca_self, neg_neg]
      exact hm.mem_two.mpr (Or.inr rfl)
  · rcases Moving.mem_occs h hv with ⟨hv, _⟩ | ⟨rfl, rfl⟩
    · obtain ⟨hmem, hne⟩ := h.blocker x v hv
      exact ⟨(hm.permuted.perm v.cref).symm.subset hmem, hne⟩
    · rw [moveWatcher_ca_self, neg_neg]
      exact ⟨hm.perm.symm.subset (List.mem_of_mem_take hm.mem),
        fun heq => hm.fresh (heq ▸ hm.mem)⟩
  · by_cases hvw : v.cref = w.cref
    · rw [hvw, moveWatcher_ca_self, hmark] at hdirty
      exact absurd hdirty Bool.false_ne_true
    · rw [moveWatcher_ca hvw] at hdirty
      rcases Moving.mem_occs h hv with ⟨hv, _⟩ | ⟨_, rfl⟩
      · exact h.dirty x v hv hdirty
      · exact absurd rfl hvw

theorem DbOk.move {n : Nat} {kept : List Watcher} {c : Clause} {first : Lit}
    (h : DbOk (db.setWatches p (kept ++ w :: ws)) n) (hm : Moving db p w c q first)
    (hlive : db.Live w.cref) :
    DbOk ((db.moveWatcher w c q first).setWatches p (kept ++ ws)) n := by
  have hpm := hm.permuted
  have hwatches : Watching db (fun c => c.size ≠ 2)
      (db.setWatches p (kept ++ w :: ws)).watches := h.watches.congr rfl rfl
  have hlong : c.size ≠ 2 := by
    have := h.watches.long p w (by
      rw [setWatches_occs]
      exact List.mem_append_right _ List.mem_cons_self)
    rwa [Clause.size, hm.perm.length_eq]
  refine ⟨fun cr hcr => ?_, fun cr hcr => ?_, fun cr hcr => ?_,
    (hwatches.move hm hlong hlive).congr rfl rfl, ?_⟩
  · exact (h.size cr hcr).trans_eq (hpm.size cr).symm
  · exact ((hpm.perm cr).map Lit.var).nodup_iff.mpr (h.nodup cr hcr)
  · exact fun l hl => h.below cr hcr l ((hpm.perm cr).subset hl)
  · -- the clause is long, so no binary list holds it
    have hca : ∀ cr, cr ≠ w.cref → (db.moveWatcher w c q first).ca cr = db.ca cr :=
      fun cr hcr => moveWatcher_ca hcr
    refine h.watchesBin.congr_long (fun cr hl => hca cr ?_) (fun cr hl => hca cr ?_) rfl
    · rintro rfl
      exact hlong (hm.perm.length_eq.trans hl)
    · rintro rfl
      change ((db.moveWatcher w c q first).ca w.cref).size = 2 at hl
      rw [moveWatcher_ca_self] at hl
      exact hlong hl

theorem DbOk.setWatches {n : Nat} (h : DbOk (db.setWatches p ws) n)
    (hcref : ws'.map Watcher.cref = ws.map Watcher.cref)
    (hblocker : ∀ w ∈ ws', w.blocker ∈ (db.ca w.cref).lits ∧ w.blocker ≠ p.neg) :
    DbOk (db.setWatches p ws') n :=
  ⟨h.size, h.nodup, h.below,
    ((h.watches.congr rfl rfl : Watching db _ _).setWatches hcref hblocker).congr rfl rfl,
    h.watchesBin.congr rfl rfl⟩

end SymBreak.Glucose
