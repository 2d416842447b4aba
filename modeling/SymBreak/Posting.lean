import SymBreak.ConstraintSolver

/-!
# What the constraint solver posts

The specification language for `ConstraintSolver`: `Posts s s' P` says that going from `s` to `s'`
posts the constraint `P` on the variables of `s`, with every fresh variable determined by them, and
leaves the integers and the meaning of the cache alone. Clauses are written as lists of references
(`Means`); every posting function of the solver is `post` of some clauses, after fresh variables.

Results:
* `posts_post`: clauses over the references that exist post their own meaning;
* `posts_define`: a fresh variable with its defining clauses;
* `posts_foldl`, `posts_collect`: a loop that posts a constraint, or collects a reference, at every
  turn;
* **`posts_iffReifCached`**: `boolIffReif(b1, b2)`, cached in either order, returns a reference
  whose value is `b1 = b2`.
-/

namespace SymBreak.ConstraintSolver

open Cnf

/-! ## References and their values -/

/-- A reference to one of the first `N` variables or its complement. -/
def RefBelow (N : Nat) (b : Int) : Prop := b ≠ 0 ∧ b.natAbs ≤ N

variable {s s' s₁ s₂ : ConstraintSolver} {N : Nat} {σ τ : Assignment} {b b1 b2 b3 t : Int}

theorem RefBelow.mono {M : Nat} (h : RefBelow N b) (hle : N ≤ M) : RefBelow M b :=
  ⟨h.1, h.2.trans hle⟩

theorem refBelow_neg : RefBelow N (neg b) ↔ RefBelow N b := by
  simp [RefBelow, neg]

theorem RefBelow.toLit_lt (h : RefBelow N b) : (toLit b).var < N := by
  have := h.1
  have := h.2
  simp only [toLit]
  omega

theorem refBelow_natCast {k : Nat} (h0 : 0 < k) (h : k ≤ N) : RefBelow N k := by
  constructor
  · omega
  · simpa using h

theorem refBelow_getD {arr : List BoolVarRef} {i : Nat} (h : ∀ b ∈ arr, RefBelow N b)
    (hi : i < arr.length) : RefBelow N (arr.getD i 0) := by
  rw [List.getD_eq_getElem _ _ hi]
  exact h _ (List.getElem_mem _)

theorem getBoolAssignment_neg (h : b ≠ 0) :
    getBoolAssignment σ (neg b) = !getBoolAssignment σ b := by
  have hpos : (0 < -b) ↔ ¬ 0 < b := by omega
  simp only [getBoolAssignment, Lit.eval, toLit, neg, Int.natAbs_neg, hpos, decide_not]
  cases decide (0 < b) <;> simp

/-- A positive reference reads its variable. -/
theorem getBoolAssignment_natCast {k : Nat} (h : 0 < k) :
    getBoolAssignment σ k = σ (k - 1) := by
  simp [getBoolAssignment, Lit.eval, toLit, h]

theorem getBoolAssignment_congr (h : AgreeBelow N σ τ) (hb : RefBelow N b) :
    getBoolAssignment σ b = getBoolAssignment τ b :=
  h.eval hb.toLit_lt

/-! ## Clauses of references -/

/-- Every clause has a member that is true. -/
def Means (σ : Assignment) (D : List (List BoolVarRef)) : Prop :=
  ∀ c ∈ D, ∃ b ∈ c, getBoolAssignment σ b = true

@[simp] theorem means_nil : Means σ [] := by simp [Means]

@[simp] theorem means_cons {c : List BoolVarRef} {D : List (List BoolVarRef)} :
    Means σ (c :: D) ↔ (∃ b ∈ c, getBoolAssignment σ b = true) ∧ Means σ D := by
  simp [Means]

@[simp] theorem means_append {D E : List (List BoolVarRef)} :
    Means σ (D ++ E) ↔ Means σ D ∧ Means σ E := by
  simp only [Means, List.mem_append, or_imp, forall_and]

theorem means_flatMap {ι : Type*} {l : List ι} {F : ι → List (List BoolVarRef)} :
    Means σ (l.flatMap F) ↔ ∀ i ∈ l, Means σ (F i) := by
  simp only [Means, List.mem_flatMap, forall_exists_index, and_imp]
  exact ⟨fun h i hi c hc => h c i hi hc, fun h c i hi hc => h i hi c hc⟩

theorem sat_map_toLit {D : List (List BoolVarRef)} :
    Sat σ (D.map (List.map toLit)) ↔ Means σ D := by
  simp [Sat, ClauseHolds, Means, getBoolAssignment]

/-- Every reference is one of the first `N` variables. -/
def RefsBelow (N : Nat) (D : List (List BoolVarRef)) : Prop := ∀ c ∈ D, ∀ b ∈ c, RefBelow N b

theorem refsBelow_flatMap {ι : Type*} {l : List ι} {F : ι → List (List BoolVarRef)}
    (h : ∀ i ∈ l, RefsBelow N (F i)) : RefsBelow N (l.flatMap F) := by
  intro c hc
  obtain ⟨i, hi, hc⟩ := List.mem_flatMap.mp hc
  exact h i hi c hc

theorem RefsBelow.below {D : List (List BoolVarRef)} (h : RefsBelow N D) :
    Below N (D.map (List.map toLit)) := by
  intro c hc l hl
  obtain ⟨d, hd, rfl⟩ := List.mem_map.mp hc
  obtain ⟨b, hb, rfl⟩ := List.mem_map.mp hl
  exact (h d hd b hb).toLit_lt

theorem Means.congr (h : AgreeBelow N σ τ) {D : List (List BoolVarRef)} (hD : RefsBelow N D) :
    Means σ D ↔ Means τ D := by
  rw [← sat_map_toLit, h.sat hD.below, sat_map_toLit]

theorem local_means {D : List (List BoolVarRef)} (hD : RefsBelow N D) :
    Local N fun σ => Means σ D :=
  fun _ _ h => (Means.congr h hD).mp

/-- Post the clauses. -/
def post (s : ConstraintSolver) (D : List (List BoolVarRef)) : ConstraintSolver :=
  { s with clauses := s.clauses ++ D.map (List.map toLit) }

section Post

variable {D E : List (List BoolVarRef)}

@[simp] theorem nVars_post : (s.post D).nVars = s.nVars := rfl

@[simp] theorem ints_post : (s.post D).ints = s.ints := rfl

@[simp] theorem nextBoolID_post : (s.post D).nextBoolID = s.nextBoolID := rfl

@[simp] theorem nextIntID_post : (s.post D).nextIntID = s.nextIntID := rfl

@[simp] theorem clauses_post : (s.post D).clauses = s.clauses ++ D.map (List.map toLit) := rfl

@[simp] theorem post_post : (s.post D).post E = s.post (D ++ E) := by
  simp [post, List.append_assoc]

@[simp] theorem post_nil : s.post [] = s := by
  simp [post]

end Post

theorem toLit_neg (h : b ≠ 0) : (toLit b).neg = toLit (neg b) := by
  have hpos : (0 < -b) ↔ ¬ 0 < b := by omega
  simp only [Lit.neg, toLit, neg, Int.natAbs_neg, hpos, decide_not]

theorem setBoolVar_eq (h : b ≠ 0) (val : Bool) :
    s.setBoolVar b val = s.post [[if val then b else neg b]] := by
  cases val
  · rw [setBoolVar, if_neg (by simp), toLit_neg h]
    rfl
  · rfl

theorem boolOr_eq : s.boolOr b1 b2 = s.post [[b1, b2]] := rfl

theorem boolOr3_eq : s.boolOr3 b1 b2 b3 = s.post [[b1, b2, b3]] := rfl

theorem boolArrayOr_eq (c : List BoolVarRef) : s.boolArrayOr c = s.post [c] := rfl

/-! ## Posting -/

/-- The clauses speak about the variables that exist. -/
def Ok (s : ConstraintSolver) : Prop := Below s.nVars s.clauses

theorem Ok.below (h : s.Ok) : Below s.nVars s.clauses := h

/-- Every cached reference stands for the equality of its pair. -/
def CacheOk (s : ConstraintSolver) : Prop :=
  ∀ b1 b2 t, ((b1, b2), t) ∈ s.iffReifCache → RefBelow s.nVars t ∧
    ∀ σ, Sat σ s.clauses →
      getBoolAssignment σ t = (getBoolAssignment σ b1 == getBoolAssignment σ b2)

/-- `s'` is `s` with `P` posted. -/
structure Posts (s s' : ConstraintSolver) (P : Assignment → Prop) : Prop where
  ext : Extends s.nVars s.clauses s'.nVars s'.clauses P
  ints : s'.ints = s.ints
  cache : s.CacheOk → s'.CacheOk

section Posts

variable {P Q R : Assignment → Prop}

theorem Posts.ok (h : Posts s s' P) : s'.Ok := h.ext.below

theorem Posts.le (h : Posts s s' P) : s.nVars ≤ s'.nVars := h.ext.le

theorem posts_refl (hs : s.Ok) : Posts s s fun _ => True := ⟨Extends.refl hs.below, rfl, id⟩

theorem Posts.congr (h : Posts s s' P) (hPQ : ∀ σ, Sat σ s.clauses → (P σ ↔ Q σ)) :
    Posts s s' Q :=
  ⟨h.ext.congr hPQ, h.ints, h.cache⟩

theorem Posts.trans (h : Posts s s₁ P) (h' : Posts s₁ s₂ Q)
    (hQR : ∀ σ, Sat σ s₁.clauses → (Q σ ↔ R σ)) (hR : Local s.nVars R) :
    Posts s s₂ fun σ => P σ ∧ R σ :=
  ⟨h.ext.trans h'.ext hQR hR, h'.ints.trans h.ints, fun hc => h'.cache (h.cache hc)⟩

theorem Posts.trans_true (h : Posts s s₁ fun _ => True) (h' : Posts s₁ s₂ Q)
    (hQR : ∀ σ, Sat σ s₁.clauses → (Q σ ↔ R σ)) (hR : Local s.nVars R) : Posts s s₂ R :=
  (h.trans h' hQR hR).congr fun _ _ => by rw [true_and]

theorem Posts.and (h : Posts s s₁ P) (h' : Posts s₁ s₂ Q) (hQ : Local s.nVars Q) :
    Posts s s₂ fun σ => P σ ∧ Q σ :=
  h.trans h' (fun _ _ => Iff.rfl) hQ

/-- A definition, then another. -/
theorem Posts.true_true (h : Posts s s₁ fun _ => True) (h' : Posts s₁ s₂ fun _ => True) :
    Posts s s₂ fun _ => True :=
  h.trans_true h' (fun _ _ => Iff.rfl) fun _ _ _ h => h

theorem CacheOk.post {D : List (List BoolVarRef)} (h : s.CacheOk) : (s.post D).CacheOk :=
  fun b1 b2 t ht => ⟨(h b1 b2 t ht).1, fun σ hσ => (h b1 b2 t ht).2 σ (sat_append.mp hσ).1⟩

/-- **Clauses over the references that exist.** -/
theorem posts_post (hs : s.Ok) {D : List (List BoolVarRef)} (hD : RefsBelow s.nVars D) :
    Posts s (s.post D) fun σ => Means σ D where
  ext := (extends_clauses hs.below hD.below).congr fun _ _ => sat_map_toLit
  ints := rfl
  cache := fun h => h.post

/-- **A fresh variable with clauses that define it.** -/
theorem posts_define (hs : s.Ok) {D : List (List BoolVarRef)} (hD : RefsBelow (s.nVars + 1) D)
    {f : Assignment → Bool}
    (hdef : ∀ σ, Sat σ s.clauses → (Means σ D ↔ getBoolAssignment σ s.newBoolVar.1 = f σ))
    (hf : ∀ σ τ, AgreeBelow s.nVars σ τ → f σ = f τ) :
    Posts s (s.newBoolVar.2.post D) fun _ => True where
  ext := by
    refine extends_define hs.below hD.below (f := f) (fun σ hσ => ?_) hf
    rw [sat_map_toLit, hdef σ hσ]
    have : getBoolAssignment σ s.newBoolVar.1 = σ s.nVars := by
      show getBoolAssignment σ (s.nextBoolID : Nat) = _
      rw [getBoolAssignment_natCast (by rw [s.nextBoolID_eq]; omega), s.nextBoolID_eq,
        Nat.add_sub_cancel]
    rw [this]
  ints := rfl
  cache := fun h b1 b2 t ht =>
    ⟨(h b1 b2 t ht).1.mono (Nat.le_succ _), fun σ hσ => (h b1 b2 t ht).2 σ (sat_append.mp hσ).1⟩

theorem refBelow_newBoolVar : RefBelow (s.nVars + 1) s.newBoolVar.1 := by
  refine refBelow_natCast ?_ ?_ <;> rw [s.nextBoolID_eq]
  omega

/-- A loop that posts one constraint a turn, each on variables that existed before the loop. -/
theorem posts_foldl {ι : Type*} {f : ConstraintSolver → ι → ConstraintSolver}
    {P : ι → Assignment → Prop} (hs : s.Ok) : ∀ (l : List ι),
    (∀ i ∈ l, ∀ s' Q, Posts s s' Q → Posts s' (f s' i) (P i)) →
    (∀ i ∈ l, Local s.nVars (P i)) →
    Posts s (l.foldl f s) fun σ => ∀ i ∈ l, P i σ := by
  intro l
  induction l using List.reverseRecOn with
  | nil => exact fun _ _ => (posts_refl hs).congr fun _ _ => by simp
  | append_singleton l i ih =>
    intro h hloc
    have hl := ih (fun j hj => h j (List.mem_append_left _ hj))
      fun j hj => hloc j (List.mem_append_left _ hj)
    have hi : i ∈ l ++ [i] := by simp
    rw [List.foldl_append, List.foldl_cons, List.foldl_nil]
    refine (hl.and (h i hi _ _ hl) (hloc i hi)).congr fun σ _ => ?_
    simp [or_imp, forall_and]

/-- A disjunction is determined by the values of its members. -/
theorem any_congr_mem {α : Type*} {l : List α} {f g : α → Bool} (h : ∀ x ∈ l, f x = g x) :
    l.any f = l.any g := by
  simpa [List.any_map] using congrArg (fun l => l.any id) (List.map_congr_left h)

section Collect

variable {ι : Type*} {g : ConstraintSolver → ι → BoolVarRef × ConstraintSolver}

/-- A turn of a loop that collects references: `g` makes the next reference. -/
def collectTurn (g : ConstraintSolver → ι → BoolVarRef × ConstraintSolver)
    (r : List BoolVarRef × ConstraintSolver) (i : ι) : List BoolVarRef × ConstraintSolver :=
  (r.1 ++ [(g r.2 i).1], (g r.2 i).2)

/-- A loop that collects one reference a turn. -/
def collect (g : ConstraintSolver → ι → BoolVarRef × ConstraintSolver) (s : ConstraintSolver)
    (l : List ι) : List BoolVarRef × ConstraintSolver :=
  l.foldl (collectTurn g) ([], s)

theorem collect_concat (l : List ι) (i : ι) :
    collect g s (l ++ [i]) = collectTurn g (collect g s l) i := by
  simp [collect]

/-- The references that a loop collects, each determined by the old variables; `v i` is what the
reference of turn `i` stands for. -/
theorem posts_collect {v : ι → Assignment → Bool} (hs : s.Ok) : ∀ (l : List ι),
    (∀ i ∈ l, ∀ s', Posts s s' (fun _ => True) →
      Posts s' (g s' i).2 (fun _ => True) ∧ RefBelow (g s' i).2.nVars (g s' i).1 ∧
        ∀ σ, Sat σ (g s' i).2.clauses → getBoolAssignment σ (g s' i).1 = v i σ) →
    let r := collect g s l
    Posts s r.2 (fun _ => True) ∧ r.1.length = l.length ∧ (∀ t ∈ r.1, RefBelow r.2.nVars t) ∧
      ∀ σ, Sat σ r.2.clauses → r.1.map (getBoolAssignment σ) = l.map (v · σ) := by
  intro l
  induction l using List.reverseRecOn with
  | nil => exact fun _ => ⟨posts_refl hs, rfl, List.forall_mem_nil _, fun _ _ => rfl⟩
  | append_singleton l i ih =>
    intro h r
    obtain ⟨hp, hlen, hb, hv⟩ := ih fun j hj => h j (List.mem_append_left _ hj)
    obtain ⟨hp', hb', hv'⟩ := h i (by simp) _ hp
    simp only [r, collect_concat, collectTurn]
    refine ⟨hp.true_true hp', by simp [hlen], fun t ht => ?_, fun σ hσ => ?_⟩
    · rcases List.mem_append.mp ht with ht | ht
      · exact (hb t ht).mono hp'.le
      · rw [List.mem_singleton.mp ht]
        exact hb'
    · rw [List.map_append, List.map_append, hv σ (hp'.ext.sat_old hσ), List.map_singleton,
        List.map_singleton, hv' σ hσ]

end Collect

end Posts

/-! ## Reifications -/

/-- The clauses of `boolIffReif(b1, b2, t)`. -/
def iffReif (b1 b2 t : BoolVarRef) : List (List BoolVarRef) :=
  [[b1, b2, t], [neg b1, neg b2, t], [b1, neg b2, neg t], [neg b1, b2, neg t]]

theorem boolIffReif_eq : s.boolIffReif b1 b2 t = s.post (iffReif b1 b2 t) := by
  simp only [boolIffReif, boolOr3_eq, post_post]
  rfl

theorem means_iffReif (h1 : b1 ≠ 0) (h2 : b2 ≠ 0) (ht : t ≠ 0) :
    Means σ (iffReif b1 b2 t) ↔
      getBoolAssignment σ t = (getBoolAssignment σ b1 == getBoolAssignment σ b2) := by
  simp only [iffReif, means_cons, means_nil, List.mem_cons, List.not_mem_nil, or_false,
    exists_eq_or_imp, exists_eq_left, getBoolAssignment_neg h1, getBoolAssignment_neg h2,
    getBoolAssignment_neg ht]
  cases getBoolAssignment σ b1 <;> cases getBoolAssignment σ b2 <;>
    cases getBoolAssignment σ t <;> simp

theorem refsBelow_iffReif (h1 : RefBelow N b1) (h2 : RefBelow N b2) (ht : RefBelow N t) :
    RefsBelow N (iffReif b1 b2 t) := by
  simp only [RefsBelow, iffReif, List.forall_mem_cons, List.not_mem_nil, false_implies,
    implies_true, and_true, refBelow_neg]
  exact ⟨⟨h1, h2, ht⟩, ⟨h1, h2, ht⟩, ⟨h1, h2, ht⟩, ⟨h1, h2, ht⟩⟩

/-- A fresh variable that stands for `b1 = b2`. -/
theorem posts_iffReif (hs : s.Ok) (h1 : RefBelow s.nVars b1) (h2 : RefBelow s.nVars b2) :
    Posts s (s.newBoolVar.2.boolIffReif b1 b2 s.newBoolVar.1) fun _ => True := by
  rw [boolIffReif_eq]
  refine posts_define hs
    (refsBelow_iffReif (h1.mono (Nat.le_succ _)) (h2.mono (Nat.le_succ _)) refBelow_newBoolVar)
    (f := fun σ => getBoolAssignment σ b1 == getBoolAssignment σ b2)
    (fun σ _ => means_iffReif h1.1 h2.1 refBelow_newBoolVar.1) fun σ τ hag => ?_
  rw [getBoolAssignment_congr hag h1, getBoolAssignment_congr hag h2]

/-- ... and its value. -/
theorem value_iffReif (h1 : b1 ≠ 0) (h2 : b2 ≠ 0)
    (hσ : Sat σ (s.newBoolVar.2.boolIffReif b1 b2 s.newBoolVar.1).clauses) :
    getBoolAssignment σ s.newBoolVar.1 =
      (getBoolAssignment σ b1 == getBoolAssignment σ b2) := by
  rw [boolIffReif_eq, clauses_post, sat_append, sat_map_toLit] at hσ
  exact (means_iffReif h1 h2 refBelow_newBoolVar.1).mp hσ.2

theorem mem_of_lookup {c : IffReifCache} (h : c.lookup (b1, b2) = some t) :
    ((b1, b2), t) ∈ c := by
  obtain ⟨l₁, l₂, rfl, -⟩ := List.lookup_eq_some_iff.mp h
  simp

/-- **`boolIffReif(b1, b2)`** returns a reference whose value is `b1 = b2`, fresh or from the cache.
-/
theorem posts_iffReifCached (hs : s.Ok) (hc : s.CacheOk) (h1 : RefBelow s.nVars b1)
    (h2 : RefBelow s.nVars b2) :
    let r := s.boolIffReifCached b1 b2
    Posts s r.2 (fun _ => True) ∧ RefBelow r.2.nVars r.1 ∧ ∀ σ, Sat σ r.2.clauses →
      getBoolAssignment σ r.1 = (getBoolAssignment σ b1 == getBoolAssignment σ b2) := by
  simp only [boolIffReifCached]
  split
  · rename_i t ht
    obtain ⟨hb, hv⟩ := hc _ _ _ (mem_of_lookup ht)
    exact ⟨posts_refl hs, hb, hv⟩
  · split
    · rename_i t ht
      obtain ⟨hb, hv⟩ := hc _ _ _ (mem_of_lookup ht)
      exact ⟨posts_refl hs, hb, fun σ hσ => by rw [hv σ hσ, Bool.beq_comm]⟩
    · have hp := posts_iffReif hs h1 h2
      have hv := fun σ => value_iffReif (s := s) (σ := σ) h1.1 h2.1
      refine ⟨⟨hp.ext, hp.ints, fun hc => ?_⟩, refBelow_newBoolVar, hv⟩
      intro c1 c2 t ht
      rcases List.mem_cons.mp ht with he | ht
      · obtain ⟨⟨rfl, rfl⟩, rfl⟩ := Prod.mk.injEq _ _ _ _ ▸ he
        exact ⟨refBelow_newBoolVar, hv⟩
      · exact hp.cache hc c1 c2 t ht

end SymBreak.ConstraintSolver
