import SymBreak.Glucose.BoundedQueue
import SymBreak.Glucose.SolverTypes
import Mathlib.Data.List.Nodup

/-!
# The clause database

Model of the clauses of `core/Solver.h` and of the lists that watch them. A clause of two literals
is watched in `watchesBin`, a longer one in `watches`, both at the complements of its first two
literals. Removing a clause only marks it and the two lists (`detachClause` with `strict` false);
`cleanAll` drops the watchers of marked clauses later. Memory is not reclaimed:
`garbageCollect` moves the clauses and renames the references.

`DbOk` is what every operation keeps: new clauses (`DbOk.add`), removal (`DbOk.remove`), cleaning
(`DbOk.cleanAll`), and whatever only reorders the literals behind the watched ones
(`DbOk.reorder`).
-/

namespace SymBreak.Glucose

open Cnf

/-- The clauses of a `Solver`. -/
structure ClauseDb where
  ca : CRef → Clause
  next : CRef
  clauses : List CRef
  learnts : List CRef
  watches : OccLists
  watchesBin : OccLists
  clausesLiterals : Int
  learntsLiterals : Int

namespace ClauseDb

variable (db : ClauseDb)

/-- `ca.alloc(ps, learnt)` -/
def alloc (ps : List Lit) (learnt : Bool) : ClauseDb :=
  { db with
    ca := Function.update db.ca db.next (Clause.new ps learnt)
    next := db.next + 1 }

/-- Count the literals of a clause that is attached or detached. -/
def count (learnt : Bool) (n : Int) : ClauseDb :=
  if learnt then { db with learntsLiterals := db.learntsLiterals + n }
  else { db with clausesLiterals := db.clausesLiterals + n }

/-- Watch the clause `cr` in both lists. -/
def watch (ws : OccLists) (cr : CRef) (c : Clause) : OccLists :=
  (ws.push (c.get 0).neg ⟨cr, c.get 1⟩).push (c.get 1).neg ⟨cr, c.get 0⟩

/-- `attachClause` (`Solver.cc:267-279`) -/
def attachClause (cr : CRef) : Result ClauseDb :=
  let c := db.ca cr
  if c.size ≤ 1 then .error (.raised (.assertion "c.size() > 1"))
  else if c.size = 2 then
    .ok ({ db with watchesBin := watch db.watchesBin cr c }.count c.learnt c.size)
  else .ok ({ db with watches := watch db.watches cr c }.count c.learnt c.size)

/-- Mark both lists that watch the clause. -/
def smudge (ws : OccLists) (c : Clause) : OccLists :=
  (ws.smudge (c.get 0).neg).smudge (c.get 1).neg

/-- `detachClause` (`Solver.cc:284-308`), where `strict` is false. -/
def detachClause (cr : CRef) : Result ClauseDb :=
  let c := db.ca cr
  if c.size ≤ 1 then .error (.raised (.assertion "c.size() > 1"))
  else if c.size = 2 then
    .ok ({ db with watchesBin := smudge db.watchesBin c }.count c.learnt (-c.size))
  else .ok ({ db with watches := smudge db.watches c }.count c.learnt (-c.size))

/-- `c.mark(1)` -/
def setMark (cr : CRef) : ClauseDb :=
  { db with ca := Function.update db.ca cr { db.ca cr with mark := true } }

/-- `watches.cleanAll(); watchesBin.cleanAll();` -/
def cleanAll : ClauseDb :=
  let deleted w := (db.ca w.cref).mark
  { db with watches := db.watches.cleanAll deleted, watchesBin := db.watchesBin.cleanAll deleted }

/-- The clause was not removed. -/
def Live (cr : CRef) : Prop := cr < db.next ∧ (db.ca cr).mark = false

end ClauseDb

/-- The lists `ws` watch the clauses of which `long` is true at their first two literals. -/
structure Watching (db : ClauseDb) (long : Clause → Prop) (ws : OccLists) : Prop where
  watched : ∀ cr, db.Live cr → long (db.ca cr) → ∀ q ∈ (db.ca cr).lits.take 2,
    cr ∈ (ws.occs q.neg).map Watcher.cref
  lt : ∀ p, ∀ w ∈ ws.occs p, w.cref < db.next
  long : ∀ p, ∀ w ∈ ws.occs p, long (db.ca w.cref)
  mem : ∀ p, ∀ w ∈ ws.occs p, p.neg ∈ (db.ca w.cref).lits.take 2
  blocker : ∀ p, ∀ w ∈ ws.occs p, w.blocker ∈ (db.ca w.cref).lits ∧ w.blocker ≠ p.neg
  dirty : ∀ p, ∀ w ∈ ws.occs p, (db.ca w.cref).mark = true → ws.dirty p = true
  nodup : ∀ p, ((ws.occs p).map Watcher.cref).Nodup

/-- The clauses over the first `n` variables and their watchers. -/
structure DbOk (db : ClauseDb) (n : Nat) : Prop where
  size : ∀ cr, cr < db.next → 2 ≤ (db.ca cr).size
  nodup : ∀ cr, cr < db.next → ((db.ca cr).lits.map Lit.var).Nodup
  below : ∀ cr, cr < db.next → ClauseBelow n (db.ca cr).lits
  watches : Watching db (fun c => c.size ≠ 2) db.watches
  watchesBin : Watching db (fun c => c.size = 2) db.watchesBin

variable {db db' : ClauseDb} {long : Clause → Prop} {ws : OccLists} {n : Nat} {cr : CRef}

/-! ## Clauses -/

theorem Clause.lits_eq {c : Clause} (h : 2 ≤ c.size) :
    c.lits = c.get 0 :: c.get 1 :: c.lits.drop 2 := by
  obtain ⟨lits, _, _, _, _⟩ := c
  match lits, h with
  | a :: b :: rest, _ => rfl

theorem Clause.take_two {c : Clause} (h : 2 ≤ c.size) : c.lits.take 2 = [c.get 0, c.get 1] := by
  conv_lhs => rw [Clause.lits_eq h]
  rfl

theorem Clause.get_var_ne {c : Clause} (h : 2 ≤ c.size) (hnodup : (c.lits.map Lit.var).Nodup) :
    (c.get 0).var ≠ (c.get 1).var := by
  rw [Clause.lits_eq h] at hnodup
  intro heq
  simp [heq] at hnodup

theorem Clause.get_ne {c : Clause} (h : 2 ≤ c.size) (hnodup : (c.lits.map Lit.var).Nodup) :
    c.get 0 ≠ c.get 1 := fun heq => Clause.get_var_ne h hnodup (congrArg Lit.var heq)

/-! ## Watching -/

/-- The lists only depend on the clauses of their kind. -/
theorem Watching.congr_long (h : Watching db long ws)
    (hca : ∀ cr, long (db.ca cr) → db'.ca cr = db.ca cr)
    (hca' : ∀ cr, long (db'.ca cr) → db'.ca cr = db.ca cr) (hnext : db'.next = db.next) :
    Watching db' long ws where
  watched cr hcr hl := by
    have heq := hca' cr hl
    rw [ClauseDb.Live, heq, hnext] at hcr
    rw [heq] at hl ⊢
    exact h.watched cr hcr hl
  lt p w hw := by
    rw [hnext]
    exact h.lt p w hw
  long p w hw := by
    rw [hca _ (h.long p w hw)]
    exact h.long p w hw
  mem p w hw := by
    rw [hca _ (h.long p w hw)]
    exact h.mem p w hw
  blocker p w hw := by
    rw [hca _ (h.long p w hw)]
    exact h.blocker p w hw
  dirty p w hw := by
    rw [hca _ (h.long p w hw)]
    exact h.dirty p w hw
  nodup := h.nodup

theorem Watching.congr (h : Watching db long ws) (hca : db'.ca = db.ca)
    (hnext : db'.next = db.next) : Watching db' long ws :=
  h.congr_long (fun cr _ => congrFun hca cr) (fun cr _ => congrFun hca cr) hnext

theorem mem_push {p q : Lit} {w v : Watcher} :
    w ∈ (ws.push q v).occs p ↔ w ∈ ws.occs p ∨ p = q ∧ w = v := by
  unfold OccLists.push
  by_cases hpq : p = q
  · subst hpq
    simp
  · simp [hpq]

theorem mem_watch {c : Clause} {p : Lit} {w : Watcher} :
    w ∈ (ClauseDb.watch ws cr c).occs p ↔ w ∈ ws.occs p ∨
      (p = (c.get 0).neg ∧ w = ⟨cr, c.get 1⟩) ∨ (p = (c.get 1).neg ∧ w = ⟨cr, c.get 0⟩) := by
  rw [ClauseDb.watch, mem_push, mem_push, or_assoc]

theorem watch_dirty {c : Clause} : (ClauseDb.watch ws cr c).dirty = ws.dirty := rfl

/-! ## A new clause -/

theorem alloc_ca {ps : List Lit} {learnt : Bool} (hcr : cr < db.next) :
    (db.alloc ps learnt).ca cr = db.ca cr := by
  simp [ClauseDb.alloc, Nat.ne_of_lt hcr]

theorem alloc_ca_next (db : ClauseDb) (ps : List Lit) (learnt : Bool) :
    (db.alloc ps learnt).ca db.next = Clause.new ps learnt := by
  simp [ClauseDb.alloc]

theorem live_alloc {ps : List Lit} {learnt : Bool} :
    (db.alloc ps learnt).Live cr ↔ db.Live cr ∨ cr = db.next := by
  unfold ClauseDb.Live
  rcases Nat.lt_trichotomy cr db.next with hlt | rfl | hgt
  · rw [alloc_ca hlt]
    simp only [ClauseDb.alloc, Nat.lt_succ_of_lt hlt, hlt, true_and, Nat.ne_of_lt hlt, or_false]
  · rw [alloc_ca_next]
    simp [ClauseDb.alloc, Clause.new]
  · simp only [ClauseDb.alloc, Nat.not_lt.mpr (Nat.succ_le_of_lt hgt), Nat.not_lt.mpr hgt.le,
      false_and, Nat.ne_of_gt hgt, or_self]

/-- A list without watchers of the new clause. -/
theorem Watching.alloc (h : Watching db long ws) {ps : List Lit} {learnt : Bool}
    (hlong : ¬ long (Clause.new ps learnt)) : Watching (db.alloc ps learnt) long ws where
  watched cr hcr hl := by
    rcases live_alloc.mp hcr with hcr | rfl
    · rw [alloc_ca hcr.1] at hl ⊢
      exact h.watched cr hcr hl
    · rw [alloc_ca_next] at hl
      exact absurd hl hlong
  lt p w hw := Nat.lt_succ_of_lt (h.lt p w hw)
  long p w hw := by
    rw [alloc_ca (h.lt p w hw)]
    exact h.long p w hw
  mem p w hw := by
    rw [alloc_ca (h.lt p w hw)]
    exact h.mem p w hw
  blocker p w hw := by
    rw [alloc_ca (h.lt p w hw)]
    exact h.blocker p w hw
  dirty p w hw := by
    rw [alloc_ca (h.lt p w hw)]
    exact h.dirty p w hw
  nodup := h.nodup

/-- The watchers of the new lists. -/
theorem Watching.mem_watch_next (h : Watching db long ws) {c : Clause} (hsize : 2 ≤ c.size)
    (hne : c.get 0 ≠ c.get 1) {p : Lit} {w : Watcher}
    (hw : w ∈ (ClauseDb.watch ws db.next c).occs p) :
    w ∈ ws.occs p ∧ w.cref < db.next ∨
      w.cref = db.next ∧ p.neg ∈ c.lits.take 2 ∧ w.blocker ∈ c.lits ∧ w.blocker ≠ p.neg := by
  have hmem0 : c.get 0 ∈ c.lits.take 2 := by
    rw [Clause.take_two hsize]
    exact List.mem_cons_self
  have hmem1 : c.get 1 ∈ c.lits.take 2 := by
    rw [Clause.take_two hsize]
    exact List.mem_cons_of_mem _ List.mem_cons_self
  rcases mem_watch.mp hw with hw | ⟨rfl, rfl⟩ | ⟨rfl, rfl⟩
  · exact Or.inl ⟨hw, h.lt p w hw⟩
  · rw [neg_neg]
    exact Or.inr ⟨rfl, hmem0, List.mem_of_mem_take hmem1, hne.symm⟩
  · rw [neg_neg]
    exact Or.inr ⟨rfl, hmem1, List.mem_of_mem_take hmem0, hne⟩

/-- The new clause was in no list, and its two literals differ. -/
theorem Watching.nodup_watch (h : Watching db long ws) {c : Clause} (hne : c.get 0 ≠ c.get 1)
    (p : Lit) : (((ClauseDb.watch ws db.next c).occs p).map Watcher.cref).Nodup := by
  have hnew : ∀ p, db.next ∉ (ws.occs p).map Watcher.cref := by
    intro p hp
    obtain ⟨w, hw, hwcr⟩ := List.mem_map.mp hp
    exact absurd (h.lt p w hw) (by rw [hwcr]; exact Nat.lt_irrefl _)
  have hnegne : (c.get 1).neg ≠ (c.get 0).neg := fun heq => hne (neg_inj.mp heq).symm
  unfold ClauseDb.watch OccLists.push
  by_cases h1 : p = (c.get 1).neg
  · subst h1
    simp only [Function.update_self, Function.update_of_ne hnegne, List.map_append,
      List.map_cons, List.map_nil]
    exact (h.nodup _).append (List.nodup_singleton _) (List.disjoint_singleton.mpr (hnew _))
  · simp only [Function.update_of_ne h1]
    by_cases h0 : p = (c.get 0).neg
    · subst h0
      simp only [Function.update_self, List.map_append, List.map_cons, List.map_nil]
      exact (h.nodup _).append (List.nodup_singleton _) (List.disjoint_singleton.mpr (hnew _))
    · simp only [Function.update_of_ne h0]
      exact h.nodup p

/-- **A list with the watchers** of the new clause. -/
theorem Watching.watch (h : Watching db long ws) {ps : List Lit} {learnt : Bool}
    (hsize : 2 ≤ ps.length) (hnodup : (ps.map Lit.var).Nodup)
    (hlong : long (Clause.new ps learnt)) :
    Watching (db.alloc ps learnt) long (ClauseDb.watch ws db.next (Clause.new ps learnt)) := by
  have hne := Clause.get_ne (c := Clause.new ps learnt) hsize hnodup
  have htwo := Clause.take_two (c := Clause.new ps learnt) hsize
  have hcases := fun p w => h.mem_watch_next (c := Clause.new ps learnt) hsize hne (p := p) (w := w)
  refine ⟨fun cr hcr hl q hq => ?_, fun p w hw => ?_, fun p w hw => ?_, fun p w hw => ?_,
    fun p w hw => ?_, fun p w hw hmark => ?_, h.nodup_watch hne⟩
  · rcases live_alloc.mp hcr with hcr | rfl
    · rw [alloc_ca hcr.1] at hl hq
      obtain ⟨w, hw, hwcr⟩ := List.mem_map.mp (h.watched cr hcr hl q hq)
      exact List.mem_map.mpr ⟨w, mem_watch.mpr (Or.inl hw), hwcr⟩
    · rw [alloc_ca_next, htwo] at hq
      rcases List.mem_cons.mp hq with rfl | hq
      · exact List.mem_map.mpr ⟨_, mem_watch.mpr (Or.inr (Or.inl ⟨rfl, rfl⟩)), rfl⟩
      · rw [List.mem_singleton] at hq
        subst hq
        exact List.mem_map.mpr ⟨_, mem_watch.mpr (Or.inr (Or.inr ⟨rfl, rfl⟩)), rfl⟩
  · rcases hcases p w hw with ⟨_, hlt⟩ | ⟨heq, _⟩
    · exact Nat.lt_succ_of_lt hlt
    · exact heq ▸ Nat.lt_succ_self _
  · rcases hcases p w hw with ⟨hw, hlt⟩ | ⟨heq, _⟩
    · rw [alloc_ca hlt]
      exact h.long p w hw
    · rw [heq, alloc_ca_next]
      exact hlong
  · rcases hcases p w hw with ⟨hw, hlt⟩ | ⟨heq, hmem, _⟩
    · rw [alloc_ca hlt]
      exact h.mem p w hw
    · rw [heq, alloc_ca_next]
      exact hmem
  · rcases hcases p w hw with ⟨hw, hlt⟩ | ⟨heq, _, hb⟩
    · rw [alloc_ca hlt]
      exact h.blocker p w hw
    · rw [heq, alloc_ca_next]
      exact hb
  · rw [watch_dirty]
    rcases hcases p w hw with ⟨hw, hlt⟩ | ⟨heq, _⟩
    · rw [alloc_ca hlt] at hmark
      exact h.dirty p w hw hmark
    · rw [heq, alloc_ca_next] at hmark
      exact absurd hmark (by simp [Clause.new])

/-- `db'` differs from `db` in the counters and the lists of references only. -/
def ClauseDb.SameClauses (db db' : ClauseDb) : Prop :=
  db'.ca = db.ca ∧ db'.next = db.next ∧ db'.clauses = db.clauses ∧ db'.learnts = db.learnts

/-- **A clause that is added** is watched. -/
theorem DbOk.add (h : DbOk db n) {ps : List Lit} (learnt : Bool) (hsize : 2 ≤ ps.length)
    (hnodup : (ps.map Lit.var).Nodup) (hbelow : ClauseBelow n ps) :
    ∃ db', (db.alloc ps learnt).attachClause db.next = .ok db' ∧ DbOk db' n ∧
      (db.alloc ps learnt).SameClauses db' := by
  have hclause : ∀ P : Clause → Prop, (∀ cr, cr < db.next → P (db.ca cr)) →
      P (Clause.new ps learnt) → ∀ cr, cr < db.next + 1 → P ((db.alloc ps learnt).ca cr) := by
    intro P hold hnew cr hcr
    rcases Nat.lt_succ_iff_lt_or_eq.mp hcr with hcr | rfl
    · rw [alloc_ca hcr]
      exact hold cr hcr
    · rw [alloc_ca_next]
      exact hnew
  have hsizes := hclause (fun c => 2 ≤ c.size) h.size hsize
  have hnodups := hclause (fun c => (c.lits.map Lit.var).Nodup) h.nodup hnodup
  have hbelows := hclause (fun c => ClauseBelow n c.lits) h.below hbelow
  unfold ClauseDb.attachClause
  simp only [alloc_ca_next]
  rw [if_neg (show ¬ (Clause.new ps learnt).size ≤ 1 from Nat.not_le.mpr hsize)]
  by_cases htwo : (Clause.new ps learnt).size = 2
  · rw [if_pos htwo]
    have hwatches : Watching (db.alloc ps learnt) (fun c => c.size ≠ 2) db.watches :=
      h.watches.alloc (not_not.mpr htwo)
    have hbin := h.watchesBin.watch hsize hnodup htwo
    refine ⟨_, rfl, ?_, ?_⟩
    all_goals
      unfold ClauseDb.count
      split
    · exact ⟨hsizes, hnodups, hbelows, hwatches.congr rfl rfl, hbin.congr rfl rfl⟩
    · exact ⟨hsizes, hnodups, hbelows, hwatches.congr rfl rfl, hbin.congr rfl rfl⟩
    · exact ⟨rfl, rfl, rfl, rfl⟩
    · exact ⟨rfl, rfl, rfl, rfl⟩
  · rw [if_neg htwo]
    have hwatches := h.watches.watch hsize hnodup htwo
    have hbin : Watching (db.alloc ps learnt) (fun c => c.size = 2) db.watchesBin :=
      h.watchesBin.alloc htwo
    refine ⟨_, rfl, ?_, ?_⟩
    all_goals
      unfold ClauseDb.count
      split
    · exact ⟨hsizes, hnodups, hbelows, hwatches.congr rfl rfl, hbin.congr rfl rfl⟩
    · exact ⟨hsizes, hnodups, hbelows, hwatches.congr rfl rfl, hbin.congr rfl rfl⟩
    · exact ⟨rfl, rfl, rfl, rfl⟩
    · exact ⟨rfl, rfl, rfl, rfl⟩

/-! ## Removing a clause -/

theorem smudge_dirty {c : Clause} {p : Lit} :
    (ClauseDb.smudge ws c).dirty p = true ↔
      p = (c.get 0).neg ∨ p = (c.get 1).neg ∨ ws.dirty p = true := by
  unfold ClauseDb.smudge OccLists.smudge
  by_cases h1 : p = (c.get 1).neg
  · simp [h1]
  · by_cases h0 : p = (c.get 0).neg
    · simp [h0, Function.update_apply]
    · simp [h0, h1]

theorem setMark_ca (db : ClauseDb) (cr cr' : CRef) : ((db.setMark cr).ca cr').lits =
    (db.ca cr').lits ∧ ((db.setMark cr).ca cr').learnt = (db.ca cr').learnt := by
  by_cases h : cr' = cr
  · subst h
    simp [ClauseDb.setMark]
  · simp [ClauseDb.setMark, h]

theorem live_setMark {cr' : CRef} : (db.setMark cr).Live cr' ↔ db.Live cr' ∧ cr' ≠ cr := by
  unfold ClauseDb.Live
  by_cases h : cr' = cr
  · subst h
    simp [ClauseDb.setMark]
  · simp [ClauseDb.setMark, h]

/-- The lists of a kind that is told by the literals, when a clause is marked. -/
theorem Watching.setMark (h : Watching db long ws)
    (hlong : ∀ c c' : Clause, c.lits = c'.lits → (long c ↔ long c'))
    (hdirty : ∀ p, ∀ w ∈ ws.occs p, w.cref = cr → ws.dirty p = true) :
    Watching (db.setMark cr) long ws where
  watched cr' hcr' hl := by
    obtain ⟨hlive, -⟩ := live_setMark.mp hcr'
    rw [(setMark_ca db cr cr').1]
    exact h.watched cr' hlive ((hlong _ _ (setMark_ca db cr cr').1).mp hl)
  lt := h.lt
  long p w hw := (hlong _ _ (setMark_ca db cr w.cref).1).mpr (h.long p w hw)
  mem p w hw := by
    rw [(setMark_ca db cr w.cref).1]
    exact h.mem p w hw
  blocker p w hw := by
    rw [(setMark_ca db cr w.cref).1]
    exact h.blocker p w hw
  dirty p w hw hmark := by
    by_cases heq : w.cref = cr
    · exact hdirty p w hw heq
    · simp only [ClauseDb.setMark, Function.update_of_ne heq] at hmark
      exact h.dirty p w hw hmark
  nodup := h.nodup

/-- More lists may be dirty. -/
theorem Watching.smudge (h : Watching db long ws) (c : Clause) :
    Watching db long (ClauseDb.smudge ws c) :=
  ⟨h.watched, h.lt, h.long, h.mem, h.blocker,
    fun p w hw hmark => smudge_dirty.mpr (Or.inr (Or.inr (h.dirty p w hw hmark))), h.nodup⟩

/-- The lists that watch a clause are dirty once it is detached. -/
theorem Watching.smudge_dirty (h : Watching db long ws) (hsize : 2 ≤ (db.ca cr).size) (p : Lit)
    (w : Watcher) (hw : w ∈ ws.occs p) (hcr : w.cref = cr) :
    (ClauseDb.smudge ws (db.ca cr)).dirty p = true := by
  have hmem := h.mem p w hw
  rw [hcr, Clause.take_two hsize] at hmem
  rw [Glucose.smudge_dirty]
  rcases List.mem_cons.mp hmem with hp | hp
  · exact Or.inl (by rw [← hp, neg_neg])
  · rw [List.mem_singleton] at hp
    exact Or.inr (Or.inl (by rw [← hp, neg_neg]))

/-- **A clause that is removed** leaves the others as they are. -/
theorem DbOk.remove (h : DbOk db n) (hcr : cr < db.next) :
    ∃ db', db.detachClause cr = .ok db' ∧ DbOk (db'.setMark cr) n ∧ db.SameClauses db' := by
  have hsize := h.size cr hcr
  have hlits : ∀ P : List Lit → Prop, (∀ cr', cr' < db.next → P (db.ca cr').lits) →
      ∀ cr', cr' < db.next → P ((db.setMark cr).ca cr').lits := by
    intro P hP cr' hcr'
    rw [(setMark_ca db cr cr').1]
    exact hP cr' hcr'
  have hsizes := hlits (fun l => 2 ≤ l.length) h.size
  have hnodups := hlits (fun l => (l.map Lit.var).Nodup) h.nodup
  have hbelows := hlits (ClauseBelow n) h.below
  have hne : ∀ c c' : Clause, c.lits = c'.lits → (c.size ≠ 2 ↔ c'.size ≠ 2) := by
    intro c c' heq
    rw [Clause.size, Clause.size, heq]
  have heq : ∀ c c' : Clause, c.lits = c'.lits → (c.size = 2 ↔ c'.size = 2) :=
    fun c c' hcc => not_iff_not.mp (hne c c' hcc)
  unfold ClauseDb.detachClause
  simp only []
  rw [if_neg (Nat.not_le.mpr hsize)]
  by_cases htwo : (db.ca cr).size = 2
  · rw [if_pos htwo]
    have hwatches := h.watches.setMark hne fun p w hw (hcr' : w.cref = cr) =>
      absurd htwo (by rw [← hcr']; exact h.watches.long p w hw)
    have hbin := (h.watchesBin.smudge (db.ca cr)).setMark heq
      (h.watchesBin.smudge_dirty hsize)
    refine ⟨_, rfl, ?_, ?_⟩
    all_goals
      unfold ClauseDb.count
      split
    · exact ⟨hsizes, hnodups, hbelows, hwatches.congr rfl rfl, hbin.congr rfl rfl⟩
    · exact ⟨hsizes, hnodups, hbelows, hwatches.congr rfl rfl, hbin.congr rfl rfl⟩
    · exact ⟨rfl, rfl, rfl, rfl⟩
    · exact ⟨rfl, rfl, rfl, rfl⟩
  · rw [if_neg htwo]
    have hwatches := (h.watches.smudge (db.ca cr)).setMark hne
      (h.watches.smudge_dirty hsize)
    have hbin := h.watchesBin.setMark heq fun p w hw (hcr' : w.cref = cr) =>
      absurd (by rw [← hcr']; exact h.watchesBin.long p w hw) htwo
    refine ⟨_, rfl, ?_, ?_⟩
    all_goals
      unfold ClauseDb.count
      split
    · exact ⟨hsizes, hnodups, hbelows, hwatches.congr rfl rfl, hbin.congr rfl rfl⟩
    · exact ⟨hsizes, hnodups, hbelows, hwatches.congr rfl rfl, hbin.congr rfl rfl⟩
    · exact ⟨rfl, rfl, rfl, rfl⟩
    · exact ⟨rfl, rfl, rfl, rfl⟩

/-! ## Cleaning -/

theorem mem_cleanAll {deleted : Watcher → Bool} {p : Lit} {w : Watcher} :
    w ∈ (ws.cleanAll deleted).occs p ↔
      w ∈ ws.occs p ∧ (ws.dirty p = true → deleted w = false) := by
  unfold OccLists.cleanAll
  by_cases hd : ws.dirty p
  · simp [hd]
  · simp [hd]

theorem cleanAll_sublist (deleted : Watcher → Bool) (p : Lit) :
    ((ws.cleanAll deleted).occs p).Sublist (ws.occs p) := by
  unfold OccLists.cleanAll
  by_cases hd : ws.dirty p
  · simp only [hd, if_true]
    exact List.filter_sublist
  · simp only [hd, Bool.false_eq_true, if_false]
    exact List.Sublist.refl _

theorem Watching.cleanAll (h : Watching db long ws) :
    Watching db long (ws.cleanAll fun w => (db.ca w.cref).mark) where
  watched cr hcr hl q hq := by
    obtain ⟨w, hw, rfl⟩ := List.mem_map.mp (h.watched cr hcr hl q hq)
    exact List.mem_map.mpr ⟨w, mem_cleanAll.mpr ⟨hw, fun _ => hcr.2⟩, rfl⟩
  lt p w hw := h.lt p w (mem_cleanAll.mp hw).1
  long p w hw := h.long p w (mem_cleanAll.mp hw).1
  mem p w hw := h.mem p w (mem_cleanAll.mp hw).1
  blocker p w hw := h.blocker p w (mem_cleanAll.mp hw).1
  dirty p w hw hmark := by
    obtain ⟨hw, hclean⟩ := mem_cleanAll.mp hw
    rw [hclean (h.dirty p w hw hmark)] at hmark
    exact absurd hmark Bool.false_ne_true
  nodup p := (h.nodup p).sublist ((cleanAll_sublist _ p).map _)

/-- No list holds a watcher of a removed clause. -/
def ClauseDb.Clean (db : ClauseDb) : Prop :=
  ∀ p w, w ∈ db.watches.occs p ∨ w ∈ db.watchesBin.occs p → (db.ca w.cref).mark = false

/-- **Cleaning** drops the watchers of removed clauses, and no others. -/
theorem DbOk.cleanAll (h : DbOk db n) : DbOk db.cleanAll n ∧ db.cleanAll.Clean := by
  refine ⟨⟨h.size, h.nodup, h.below, h.watches.cleanAll.congr rfl rfl,
    h.watchesBin.cleanAll.congr rfl rfl⟩, ?_⟩
  rintro p w (hw | hw)
  · obtain ⟨hw, hclean⟩ := mem_cleanAll.mp hw
    by_contra hmark
    exact hmark (hclean (h.watches.dirty p w hw (eq_true_of_ne_false hmark)))
  · obtain ⟨hw, hclean⟩ := mem_cleanAll.mp hw
    by_contra hmark
    exact hmark (hclean (h.watchesBin.dirty p w hw (eq_true_of_ne_false hmark)))

/-! ## Reordering a clause -/

/-- The clauses of `db'` are those of `db` with the literals in another order. -/
structure Permuted (db db' : ClauseDb) : Prop where
  next : db'.next = db.next
  perm : ∀ cr, (db'.ca cr).lits.Perm (db.ca cr).lits
  mark : ∀ cr, (db'.ca cr).mark = (db.ca cr).mark
  learnt : ∀ cr, (db'.ca cr).learnt = (db.ca cr).learnt

namespace Permuted

theorem refl (db : ClauseDb) : Permuted db db :=
  ⟨rfl, fun _ => List.Perm.refl _, fun _ => rfl, fun _ => rfl⟩

theorem trans {db'' : ClauseDb} (h : Permuted db db') (h' : Permuted db' db'') :
    Permuted db db'' :=
  ⟨h'.next.trans h.next, fun cr => (h'.perm cr).trans (h.perm cr),
    fun cr => (h'.mark cr).trans (h.mark cr), fun cr => (h'.learnt cr).trans (h.learnt cr)⟩

theorem size (h : Permuted db db') (cr : CRef) : (db'.ca cr).size = (db.ca cr).size :=
  (h.perm cr).length_eq

theorem live (h : Permuted db db') : db'.Live cr ↔ db.Live cr := by
  unfold ClauseDb.Live
  rw [h.next, h.mark]

theorem clauseHolds (h : Permuted db db') (σ : Assignment) (cr : CRef) :
    ClauseHolds σ (db'.ca cr).lits ↔ ClauseHolds σ (db.ca cr).lits :=
  exists_congr fun _ => and_congr_left fun _ => (h.perm cr).mem_iff

/-- One clause is given its literals in another order. -/
theorem set {c : Clause} (hperm : c.lits.Perm (db.ca cr).lits) (hmark : c.mark = (db.ca cr).mark)
    (hlearnt : c.learnt = (db.ca cr).learnt) :
    Permuted db { db with ca := Function.update db.ca cr c } := by
  have key : ∀ cr', Function.update db.ca cr c cr' = if cr' = cr then c else db.ca cr' :=
    fun cr' => Function.update_apply _ _ _ _
  refine ⟨rfl, fun cr' => ?_, fun cr' => ?_, fun cr' => ?_⟩
  all_goals
    simp only [key]
    split
  · rename_i heq
    rwa [heq]
  · exact List.Perm.refl _
  · rename_i heq
    rwa [heq]
  · rfl
  · rename_i heq
    rwa [heq]
  · rfl

end Permuted

/-- The two watched literals are the same, too. -/
structure Reordered (db db' : ClauseDb) : Prop extends Permuted db db' where
  take_two : ∀ cr, ((db'.ca cr).lits.take 2).Perm ((db.ca cr).lits.take 2)

theorem Reordered.refl (db : ClauseDb) : Reordered db db :=
  ⟨Permuted.refl db, fun _ => List.Perm.refl _⟩

theorem Reordered.trans {db'' : ClauseDb} (h : Reordered db db') (h' : Reordered db' db'') :
    Reordered db db'' :=
  ⟨h.toPermuted.trans h'.toPermuted, fun cr => (h'.take_two cr).trans (h.take_two cr)⟩

theorem Reordered.set {c : Clause} (hperm : c.lits.Perm (db.ca cr).lits)
    (htwo : (c.lits.take 2).Perm ((db.ca cr).lits.take 2)) (hmark : c.mark = (db.ca cr).mark)
    (hlearnt : c.learnt = (db.ca cr).learnt) :
    Reordered db { db with ca := Function.update db.ca cr c } := by
  refine ⟨Permuted.set hperm hmark hlearnt, fun cr' => ?_⟩
  by_cases h : cr' = cr
  · subst h
    simpa only [Function.update_self] using htwo
  · simp only [Function.update_of_ne h]
    exact List.Perm.refl _

theorem Watching.reorder (h : Watching db long ws) (hr : Reordered db db')
    (hlong : ∀ cr, long (db'.ca cr) ↔ long (db.ca cr)) : Watching db' long ws where
  watched cr hcr hl q hq :=
    h.watched cr (hr.live.mp hcr) ((hlong cr).mp hl) q ((hr.take_two cr).subset hq)
  lt p w hw := by
    rw [hr.next]
    exact h.lt p w hw
  long p w hw := (hlong _).mpr (h.long p w hw)
  mem p w hw := (hr.take_two _).symm.subset (h.mem p w hw)
  blocker p w hw := by
    obtain ⟨hmem, hne⟩ := h.blocker p w hw
    exact ⟨(hr.perm _).symm.subset hmem, hne⟩
  dirty p w hw hmark := h.dirty p w hw (by rwa [hr.mark] at hmark)
  nodup := h.nodup

/-- **Reordering** clauses this way keeps the lists right. -/
theorem DbOk.reorder (h : DbOk db n) (hr : Reordered db db') (hw : db'.watches = db.watches)
    (hb : db'.watchesBin = db.watchesBin) : DbOk db' n where
  size cr hcr := by
    rw [hr.size]
    exact h.size cr (hr.next ▸ hcr)
  nodup cr hcr := ((hr.perm cr).map Lit.var).nodup_iff.mpr (h.nodup cr (hr.next ▸ hcr))
  below cr hcr l hl := h.below cr (hr.next ▸ hcr) l ((hr.perm cr).subset hl)
  watches := by
    rw [hw]
    exact h.watches.reorder hr fun cr => by rw [hr.size]
  watchesBin := by
    rw [hb]
    exact h.watchesBin.reorder hr fun cr => by rw [hr.size]

end SymBreak.Glucose
