import SymBreak.LexPosting

/-!
# Runs of the constraint solver

The states of a `ConstraintSolver` that its public operations reach (`Reachable`): variables,
integers, permutations and matrices are made, clauses posted, `boolIffReif` goes through its cache,
lex implications are posted, and `newModel` starts again. What an operation other than `newModel`
does to the invariants is one notion, `Grows`: variables and clauses are only added, and cache
entries come with the clauses that define them.

Results:
* `grows_run`: every operation but `newModel` grows the solver;
* `Reachable.inv`: in every state reached, the clauses speak about the variables that exist and
  every cache entry is defined;
* **`reachable_lexImplication`**: in every state reached, a lex implication posted has exactly its
  own models.
-/

namespace SymBreak.ConstraintSolver

open Cnf

variable {s s' s₁ s₂ : ConstraintSolver} {N : Nat} {σ : Assignment}

/-! ## Operations -/

/-- A call that changes the solver. The other posting functions are sequences of these. -/
inductive Op where
  | newBoolVar
  | newIntVar (lb ub : Int)
  | newPermutation (n : Nat)
  | newAdjMatrix (n : Nat)
  | setBoolVar (b : BoolVarRef) (val : Bool)
  | boolOr (b1 b2 : BoolVarRef)
  | boolOr3 (b1 b2 b3 : BoolVarRef)
  | boolArrayOr (bools : List BoolVarRef)
  | exactlyOne (bools : List BoolVarRef)
  | boolIffReif (b1 b2 : BoolVarRef)
  | boolArraysLexImplication (arr1 arr2 : List BoolVarRef) (length : Nat)
  | newModel

/-- The references handed over are those of variables that exist, and the length is a position of
the arrays. Arrays of different lengths are let through: the call throws. -/
def Op.Legal (s : ConstraintSolver) : Op → Prop
  | .newBoolVar | .newIntVar _ _ | .newPermutation _ | .newAdjMatrix _ | .newModel => True
  | .setBoolVar b _ => RefBelow s.nVars b
  | .boolOr b1 b2 => RefBelow s.nVars b1 ∧ RefBelow s.nVars b2
  | .boolOr3 b1 b2 b3 => RefBelow s.nVars b1 ∧ RefBelow s.nVars b2 ∧ RefBelow s.nVars b3
  | .boolArrayOr bools | .exactlyOne bools => ∀ b ∈ bools, RefBelow s.nVars b
  | .boolIffReif b1 b2 => RefBelow s.nVars b1 ∧ RefBelow s.nVars b2
  | .boolArraysLexImplication arr1 arr2 length =>
    arr1.length = arr2.length → (∀ b ∈ arr1, RefBelow s.nVars b) ∧
      (∀ b ∈ arr2, RefBelow s.nVars b) ∧ 1 ≤ length ∧ length ≤ arr1.length

/-- The state after the call. -/
def Op.run (s : ConstraintSolver) : Op → Except (Halt Exn) ConstraintSolver
  | .newBoolVar => .ok s.newBoolVar.2
  | .newIntVar lb ub => .ok (s.newIntVar lb ub).2
  | .newPermutation n => .ok (s.newPermutation n).2
  | .newAdjMatrix n => .ok (s.newAdjMatrix n).2
  | .setBoolVar b val => .ok (s.setBoolVar b val)
  | .boolOr b1 b2 => .ok (s.boolOr b1 b2)
  | .boolOr3 b1 b2 b3 => .ok (s.boolOr3 b1 b2 b3)
  | .boolArrayOr bools => .ok (s.boolArrayOr bools)
  | .exactlyOne bools => .ok (s.exactlyOne bools)
  | .boolIffReif b1 b2 => .ok (s.boolIffReifCached b1 b2).2
  | .boolArraysLexImplication arr1 arr2 length => s.boolArraysLexImplication arr1 arr2 length
  | .newModel => .ok ConstraintSolver.newModel

/-- The states reached from the constructor. A call that throws leaves the solver as it was. -/
inductive Reachable : ConstraintSolver → Prop
  | construct : Reachable ConstraintSolver.newModel
  | call {s s' : ConstraintSolver} (op : Op) (h : Reachable s) (hop : op.Legal s)
      (hs : op.run s = .ok s') : Reachable s'

/-! ## The cache -/

/-- Every cache entry is about variables that exist, and its four defining clauses are posted. -/
def CacheDefined (s : ConstraintSolver) : Prop :=
  ∀ b1 b2 t, ((b1, b2), t) ∈ s.iffReifCache →
    RefBelow s.nVars b1 ∧ RefBelow s.nVars b2 ∧ RefBelow s.nVars t ∧
      ∀ c ∈ iffReif b1 b2 t, c.map toLit ∈ s.clauses

theorem CacheDefined.cacheOk (h : s.CacheDefined) : s.CacheOk := by
  intro b1 b2 t ht
  obtain ⟨h1, h2, h3, hc⟩ := h b1 b2 t ht
  refine ⟨h3, fun σ hσ => (means_iffReif h1.1 h2.1 h3.1).mp (sat_map_toLit.mp fun c hcm => ?_)⟩
  obtain ⟨d, hd, rfl⟩ := List.mem_map.mp hcm
  exact hσ _ (hc d hd)

/-- Entries stay defined when variables and clauses are added. -/
theorem CacheDefined.mono (h : s.CacheDefined) (hle : s.nVars ≤ s'.nVars)
    (hmono : ∀ c ∈ s.clauses, c ∈ s'.clauses) (hcache : s'.iffReifCache = s.iffReifCache) :
    s'.CacheDefined := by
  intro b1 b2 t ht
  rw [hcache] at ht
  obtain ⟨h1, h2, h3, hc⟩ := h b1 b2 t ht
  exact ⟨h1.mono hle, h2.mono hle, h3.mono hle, fun c hcm => hmono _ (hc c hcm)⟩

/-- The invariant of a solver. -/
structure Inv (s : ConstraintSolver) : Prop where
  ok : s.Ok
  cache : s.CacheDefined

/-- Going from `s` to `s'` adds variables and clauses, and keeps the invariant. -/
structure Grows (s s' : ConstraintSolver) : Prop where
  le : s.nVars ≤ s'.nVars
  mono : ∀ c ∈ s.clauses, c ∈ s'.clauses
  inv : s.Inv → s'.Inv

theorem grows_refl (s : ConstraintSolver) : Grows s s := ⟨le_rfl, fun _ h => h, id⟩

theorem Grows.trans (h : Grows s s₁) (h' : Grows s₁ s₂) : Grows s s₂ where
  le := h.le.trans h'.le
  mono := fun c hc => h'.mono c (h.mono c hc)
  inv := fun hs => h'.inv (h.inv hs)

/-- The cache is left alone. -/
theorem grows_of_cache (hle : s.nVars ≤ s'.nVars) (hmono : ∀ c ∈ s.clauses, c ∈ s'.clauses)
    (hok : s.Ok → s'.Ok) (hcache : s'.iffReifCache = s.iffReifCache) : Grows s s' :=
  ⟨hle, hmono, fun hs => ⟨hok hs.ok, hs.cache.mono hle hmono hcache⟩⟩

theorem grows_advance (k : Nat) : Grows s (s.advance k) :=
  grows_of_cache (Nat.le_add_right _ _) (fun _ h => h)
    (fun hs => hs.below.mono (Nat.le_add_right _ _)) rfl

theorem grows_post {D : List (List BoolVarRef)} (hD : RefsBelow s.nVars D) : Grows s (s.post D) :=
  grows_of_cache le_rfl (fun _ h => List.mem_append_left _ h)
    (fun hs => below_append hs.below hD.below) rfl

theorem grows_clause {c : List BoolVarRef} (hc : ∀ b ∈ c, RefBelow s.nVars b) :
    Grows s (s.post [c]) :=
  grows_post (List.forall_mem_singleton.mpr hc)

theorem grows_pushInt (v : IntVar) : Grows s (s.pushInt v) :=
  grows_of_cache le_rfl (fun _ h => h) id rfl

/-! ## Every operation -/

theorem grows_newIntVar (lb ub : Int) : Grows s (s.newIntVar lb ub).2 := by
  rw [newIntVar_eq]
  refine ((grows_advance _).trans (grows_post (refsBelow_exactlyOne fun b hb => ?_))).trans
    (grows_pushInt _)
  obtain ⟨c, hc, rfl⟩ := List.mem_map.mp hb
  rw [List.mem_range] at hc
  rw [nVars_advance, s.nextBoolID_eq]
  exact refBelow_natCast (by omega) (by omega)

theorem grows_newPermutation (n : Nat) : Grows s (s.newPermutation n).2 := by
  have h := newPermutation_spec (s := s) n
  exact grows_of_cache (by rw [h.nVars]; omega) h.mono h.ok h.cache

/-- A cached reference, or a fresh one with its entry. -/
theorem grows_iffReifCached {b1 b2 : BoolVarRef} (h1 : RefBelow s.nVars b1)
    (h2 : RefBelow s.nVars b2) : Grows s (s.boolIffReifCached b1 b2).2 := by
  simp only [boolIffReifCached]
  split
  · exact grows_refl s
  · split
    · exact grows_refl s
    · rw [boolIffReif_eq]
      have h1' := h1.mono (Nat.le_succ _)
      have h2' := h2.mono (Nat.le_succ _)
      have hg : Grows s (s.newBoolVar.2.post (iffReif b1 b2 s.newBoolVar.1)) :=
        (grows_advance 1).trans (grows_post (refsBelow_iffReif h1' h2' refBelow_newBoolVar))
      refine ⟨hg.le, hg.mono, fun hs => ⟨(hg.inv hs).ok, fun c1 c2 t ht => ?_⟩⟩
      rcases List.mem_cons.mp ht with he | ht
      · obtain ⟨⟨rfl, rfl⟩, rfl⟩ := Prod.mk.injEq _ _ _ _ ▸ he
        exact ⟨h1', h2', refBelow_newBoolVar, fun c hc =>
          List.mem_append_right _ (List.mem_map_of_mem hc)⟩
      · exact (hg.inv hs).cache c1 c2 t ht

/-- The loop of `boolArraysLexImplication`. -/
theorem grows_lexTerms {arr1 arr2 : List BoolVarRef} (h1 : ∀ b ∈ arr1, RefBelow s.nVars b)
    (h2 : ∀ b ∈ arr2, RefBelow s.nVars b) (l : List Nat)
    (hl : ∀ i ∈ l, i < arr1.length ∧ i < arr2.length) :
    Grows s (collect (lexTerm arr1 arr2) s l).2 := by
  induction l using List.reverseRecOn with
  | nil => exact grows_refl s
  | append_singleton l i ih =>
    have hg := ih fun j hj => hl j (List.mem_append_left _ hj)
    obtain ⟨hi1, hi2⟩ := hl i (by simp)
    rw [collect_concat]
    exact hg.trans (grows_iffReifCached ((refBelow_getD h1 hi1).mono hg.le)
      ((refBelow_getD h2 hi2).mono hg.le))

theorem grows_lexImplication {arr1 arr2 : List BoolVarRef} {length : Nat} (hs : s.Inv)
    (hop : Op.Legal s (.boolArraysLexImplication arr1 arr2 length))
    (h : s.boolArraysLexImplication arr1 arr2 length = .ok s') : Grows s s' := by
  by_cases hlen : arr1.length = arr2.length
  · obtain ⟨h1, h2, hpos, hle⟩ := hop hlen
    obtain ⟨s₁, hs₁, hp⟩ := posts_lexImplication hs.ok hs.cache.cacheOk hlen h1 h2 hpos hle
    obtain rfl : s₁ = s' := Except.ok.inj (hs₁.symm.trans h)
    refine ⟨hp.le, hp.ext.mono, fun hs => ⟨hp.ok, ?_⟩⟩
    have hloop := grows_lexTerms h1 h2 (List.range (length - 1)) fun i hi => by
      rw [List.mem_range] at hi
      omega
    rw [boolArraysLexImplication, if_neg (by simpa using hlen)] at h
    rw [← Except.ok.inj h]
    exact (hloop.inv hs).cache.mono le_rfl (fun _ hc => List.mem_append_left _ hc) rfl
  · rw [boolArraysLexImplication, if_pos hlen] at h
    exact absurd h (by simp)

/-- **Every operation but `newModel` grows the solver.** -/
theorem grows_run (hs : s.Inv) {op : Op} (hop : op.Legal s) (h : op.run s = .ok s')
    (hne : op ≠ .newModel) : Grows s s' := by
  cases op with
  | newBoolVar =>
    obtain rfl := Except.ok.inj h
    exact grows_advance 1
  | newIntVar lb ub =>
    obtain rfl := Except.ok.inj h
    exact grows_newIntVar lb ub
  | newPermutation n =>
    obtain rfl := Except.ok.inj h
    exact grows_newPermutation n
  | newAdjMatrix n =>
    obtain rfl := Except.ok.inj h
    rw [(newAdjMatrix_spec n).2]
    exact grows_advance _
  | setBoolVar b val =>
    obtain rfl := Except.ok.inj h
    rw [setBoolVar_eq hop.1]
    refine grows_clause (List.forall_mem_singleton.mpr ?_)
    cases val
    · exact refBelow_neg.mpr hop
    · exact hop
  | boolOr b1 b2 =>
    obtain rfl := Except.ok.inj h
    exact grows_clause (c := [b1, b2]) (by simpa [Op.Legal] using hop)
  | boolOr3 b1 b2 b3 =>
    obtain rfl := Except.ok.inj h
    exact grows_clause (c := [b1, b2, b3]) (by simpa [Op.Legal] using hop)
  | boolArrayOr bools =>
    obtain rfl := Except.ok.inj h
    exact grows_clause hop
  | exactlyOne bools =>
    obtain rfl := Except.ok.inj h
    rw [exactlyOne_eq]
    exact grows_post (refsBelow_exactlyOne hop)
  | boolIffReif b1 b2 =>
    obtain rfl := Except.ok.inj h
    exact grows_iffReifCached hop.1 hop.2
  | boolArraysLexImplication arr1 arr2 length => exact grows_lexImplication hs hop h
  | newModel => exact absurd rfl hne

/-! ## Every state reached -/

theorem inv_newModel : newModel.Inv where
  ok := ok_newModel
  cache := fun _ _ _ h => absurd h List.not_mem_nil

/-- One call keeps the invariant: it grows the solver, or starts again. -/
theorem Inv.step (hs : s.Inv) {op : Op} (hop : op.Legal s) (h : op.run s = .ok s') : s'.Inv := by
  by_cases hne : op = .newModel
  · subst hne
    rw [← Except.ok.inj h]
    exact inv_newModel
  · exact (grows_run hs hop h hne).inv hs

/-- ... and so does every run. -/
theorem Reachable.inv (h : Reachable s) : s.Inv := by
  induction h with
  | construct => exact inv_newModel
  | call op _ hop hs ih => exact ih.step hop hs

/-- **In every state reached**, the next reference is the number of variables plus one, every cache
entry `(b1, b2)` is about variables of the current instance, with the four clauses that define it as
`b1 = b2`, and a lex implication posted has exactly its own models: those of the clauses before, on
the variables before, in which it holds. -/
theorem reachable_lexImplication (h : Reachable s) :
    s.nextBoolID - 1 = s.nVars ∧ s.CacheDefined ∧
    ∀ (arr1 arr2 : List BoolVarRef) (length : Nat), (∀ b ∈ arr1, RefBelow s.nVars b) →
      (∀ b ∈ arr2, RefBelow s.nVars b) → 1 ≤ length → length ≤ arr1.length →
      arr1.length = arr2.length → ∃ s', s.boolArraysLexImplication arr1 arr2 length = .ok s' ∧
        ∀ σ, (∃ τ, AgreeBelow s.nVars σ τ ∧ Sat τ s'.clauses) ↔ Sat σ s.clauses ∧
          ((∀ i < length - 1, getBoolAssignment σ (arr1.getD i 0) =
              getBoolAssignment σ (arr2.getD i 0)) →
            getBoolAssignment σ (arr1.getD (length - 1) 0) = true →
              getBoolAssignment σ (arr2.getD (length - 1) 0) = true) := by
  obtain ⟨hok, hcache⟩ := h.inv
  refine ⟨by rw [s.nextBoolID_eq, Nat.add_sub_cancel], hcache,
    fun arr1 arr2 length h1 h2 hpos hle hlen => ?_⟩
  obtain ⟨s', hs', hp⟩ := posts_lexImplication hok hcache.cacheOk hlen h1 h2 hpos hle
  refine ⟨s', hs', fun σ => ?_⟩
  rw [hp.ext.projects hok.below fun σ τ hag hσ => by
    rwa [← values_congr hag h1, ← values_congr hag h2]]
  refine and_congr_right fun _ => ?_
  rw [Lex.Implication, take_values_eq_iff hlen (show length - 1 ≤ arr1.length by omega),
    getD_values (by omega), getD_values (by omega)]
  exact Iff.rfl

/-- Two variables compared with each other, in both orders. -/
theorem reachable_lexImplication_two : ∃ s',
    newModel.newBoolVar.2.newBoolVar.2.boolArraysLexImplication [2, 3] [3, 2] 2 = .ok s' ∧
      ∀ σ, (∃ τ, AgreeBelow 3 σ τ ∧ Sat τ s'.clauses) ↔
        Sat σ newModel.newBoolVar.2.newBoolVar.2.clauses ∧
          ((∀ i < 1, getBoolAssignment σ ([2, 3].getD i 0) =
              getBoolAssignment σ ([3, 2].getD i 0)) →
            getBoolAssignment σ 3 = true → getBoolAssignment σ 2 = true) := by
  have two : ∀ b ∈ ([2, 3] : List Int), RefBelow 3 b := by simp [RefBelow]
  have two' : ∀ b ∈ ([3, 2] : List Int), RefBelow 3 b := by simp [RefBelow]
  exact (reachable_lexImplication (.call .newBoolVar (.call .newBoolVar .construct trivial rfl)
    trivial rfl)).2.2 [2, 3] [3, 2] 2 two two' (by decide) (by decide) rfl

end SymBreak.ConstraintSolver
