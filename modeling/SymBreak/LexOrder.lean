import SymBreak.LexPosting

/-!
# The lexicographic orders

What `boolArraysLex` and `boolArraysLexLt` (`ConstraintSolver.cc:114-135, 198-223`) post: the
non-strict and the strict lexicographic order of the values of two arrays of one length. Both start
with a fresh reference for "the arrays agree here" at every position but the last.

Results:
* **`posts_arraysLex`**: one lex implication for each position, together `values arr1 ≤ values
  arr2`;
* **`posts_arraysLexLt`**: `ts[i]` is true iff position `i` is the first difference, in the right
  direction; one of them is, iff `values arr1 < values arr2`.
-/

namespace SymBreak.ConstraintSolver

open Cnf

variable {s s' : ConstraintSolver} {σ τ : Assignment} {arr1 arr2 : List BoolVarRef}

/-- Variables declared first, each defined later as `f i`. -/
theorem posts_declare {k : Nat} {f : Nat → Assignment → Bool} {P R : Assignment → Prop} (hs : s.Ok)
    (h : Posts (s.advance k) s' fun σ => (∀ i < k, σ (s.nVars + i) = f i σ) ∧ P σ)
    (hf : ∀ i < k, ∀ σ τ, AgreeBelow s.nVars σ τ → f i σ = f i τ)
    (hPR : ∀ σ, (∀ i < k, σ (s.nVars + i) = f i σ) → (P σ ↔ R σ)) (hR : Local s.nVars R) :
    Posts s s' R where
  ext := h.ext.declare hs.below hf hPR hR
  ints := h.ints
  cache := fun hc => h.cache fun b1 b2 t ht =>
    ⟨(hc b1 b2 t ht).1.mono (Nat.le_add_right _ _), (hc b1 b2 t ht).2⟩

/-! ## Agreement of the arrays -/

/-- The turn at position `i`: a fresh reference for the agreement of the arrays there. -/
def eqTerm (arr1 arr2 : List BoolVarRef) (s : ConstraintSolver) (i : Nat) :
    BoolVarRef × ConstraintSolver :=
  (s.newBoolVar.1, s.newBoolVar.2.boolIffReif (arr1.getD i 0) (arr2.getD i 0) s.newBoolVar.1)

/-- The Horn clause at position `i`, on references `eqs` for the agreement of the arrays. -/
def hornTurn (arr1 arr2 eqs : List BoolVarRef) (s : ConstraintSolver) (i : Nat) :
    ConstraintSolver :=
  s.boolArrayOr (((List.range i).map fun j => neg (eqs.getD j 0)) ++
    [neg (arr1.getD i 0), arr2.getD i 0])

theorem boolArraysLex_eq (hlen : arr1.length = arr2.length) : s.boolArraysLex arr1 arr2 =
    .ok ((fun r : List BoolVarRef × ConstraintSolver =>
      (List.range arr1.length).foldl (hornTurn arr1 arr2 r.1) r.2)
      (collect (eqTerm arr1 arr2) s (List.range (arr1.length - 1)))) := by
  rw [boolArraysLex, if_neg (by simpa using hlen)]
  rfl

/-- The reification at position `i`, on references `eqs` for the agreement of the arrays and `ts`
for the first differences. -/
def diffTurn (arr1 arr2 eqs ts : List BoolVarRef) (s : ConstraintSolver) (i : Nat) :
    ConstraintSolver :=
  s.boolArrayAndReif (((List.range i).map fun j => eqs.getD j 0) ++
    [neg (arr1.getD i 0), arr2.getD i 0]) (ts.getD i 0)

theorem boolArraysLexLt_eq (hlen : arr1.length = arr2.length) : s.boolArraysLexLt arr1 arr2 =
    .ok ((fun r : List BoolVarRef × ConstraintSolver =>
      (fun ts : List BoolVarRef × ConstraintSolver =>
        ((List.range arr1.length).foldl (diffTurn arr1 arr2 r.1 ts.1) ts.2).boolArrayOr ts.1)
      (collect (fun s _ => s.newBoolVar) r.2 (List.range arr1.length)))
      (collect (eqTerm arr1 arr2) s (List.range (arr1.length - 1)))) := by
  rw [boolArraysLexLt, if_neg (by simpa using hlen)]
  rfl

section Orders

variable (hs : s.Ok) (hlen : arr1.length = arr2.length) (h1 : ∀ b ∈ arr1, RefBelow s.nVars b)
  (h2 : ∀ b ∈ arr2, RefBelow s.nVars b)
include hs hlen h1 h2

/-- The agreement of the arrays on the first `k` positions. -/
theorem posts_eqTerms {k : Nat} (hk : k ≤ arr1.length) :
    let r := collect (eqTerm arr1 arr2) s (List.range k)
    Posts s r.2 (fun _ => True) ∧ r.1.length = k ∧ (∀ t ∈ r.1, RefBelow r.2.nVars t) ∧
      ∀ σ, Sat σ r.2.clauses → ∀ i < k, getBoolAssignment σ (r.1.getD i 0) =
        (getBoolAssignment σ (arr1.getD i 0) == getBoolAssignment σ (arr2.getD i 0)) := by
  obtain ⟨hp, hl, hb, hv⟩ := posts_collect (g := eqTerm arr1 arr2)
    (v := fun i σ => getBoolAssignment σ (arr1.getD i 0) == getBoolAssignment σ (arr2.getD i 0))
    hs (List.range k) fun i hi s' hs' => by
      rw [List.mem_range] at hi
      have b1 := (refBelow_getD h1 (hi.trans_le hk)).mono hs'.le
      have b2 := (refBelow_getD h2 (hi.trans_le (hlen ▸ hk))).mono hs'.le
      exact ⟨posts_iffReif hs'.ok b1 b2, by rw [eqTerm, boolIffReif_eq]; exact refBelow_newBoolVar,
        fun σ hσ => value_iffReif b1.1 b2.1 hσ⟩
  rw [List.length_range] at hl
  refine ⟨hp, hl, hb, fun σ hσ i hi => ?_⟩
  have e := congrArg (fun l => l[i]?) (hv σ hσ)
  simp only [List.getElem?_map, List.getElem?_range hi, Option.map_some] at e
  obtain ⟨t, ht, he⟩ := Option.map_eq_some_iff.mp e
  rw [List.getD_eq_getElem?_getD, ht, Option.getD_some, he]

/-! ## The non-strict order -/

/-- **`boolArraysLex`** does not throw on arrays of one length, and posts that the values of the
first are at most those of the second. -/
theorem posts_arraysLex : ∃ s', s.boolArraysLex arr1 arr2 = .ok s' ∧
    Posts s s' fun σ => values σ arr1 ≤ values σ arr2 := by
  obtain ⟨hr, hl, hb, hv⟩ := posts_eqTerms hs hlen h1 h2 (Nat.sub_le arr1.length 1)
  refine ⟨_, boolArraysLex_eq hlen, ?_⟩
  generalize collect (eqTerm arr1 arr2) s (List.range (arr1.length - 1)) = r at *
  have hloc : ∀ i σ τ, AgreeBelow s.nVars σ τ →
      Lex.Implication (i + 1) (values σ arr1) (values σ arr2) →
      Lex.Implication (i + 1) (values τ arr1) (values τ arr2) :=
    fun i σ τ hag h => by rwa [← values_congr hag h1, ← values_congr hag h2]
  have hloop := posts_foldl hr.ok (List.range arr1.length)
    (f := fun s i => s.boolArrayOr (((List.range i).map fun j => neg (r.1.getD j 0)) ++
      [neg (arr1.getD i 0), arr2.getD i 0]))
    (P := fun i σ => Lex.Implication (i + 1) (values σ arr1) (values σ arr2))
    (fun i hi s' Q hs' => ?_) fun i _ => fun σ τ hag => hloc i σ τ (hag.mono hr.le)
  · refine (hr.trans_true hloop (fun _ _ => Iff.rfl) ?_).congr fun σ _ => ?_
    · exact fun σ τ hag h i hi => hloc i σ τ hag (h i hi)
    · rw [Lex.le_iff_implications (by simpa using hlen), length_values]
      constructor
      · intro h ℓ hpos hle
        have := h (ℓ - 1) (List.mem_range.mpr (by omega))
        rwa [Nat.sub_add_cancel hpos] at this
      · exact fun h i hi => h (i + 1) (by omega) (List.mem_range.mp hi)
  · rw [List.mem_range] at hi
    have b1 := refBelow_getD h1 hi
    have b2 := refBelow_getD h2 (hlen ▸ hi)
    have hle := hr.le.trans hs'.le
    rw [boolArrayOr_eq]
    refine (posts_post hs'.ok (List.forall_mem_singleton.mpr ?_)).congr fun σ hσ => ?_
    · simp only [List.forall_mem_append, List.forall_mem_map, List.forall_mem_cons,
        List.mem_range, refBelow_neg]
      exact ⟨fun j hj => (refBelow_getD hb (by omega)).mono hs'.le, b1.mono hle, b2.mono hle,
        List.forall_mem_nil _⟩
    · rw [means_cons, and_iff_left means_nil]
      have hσ' := hs'.ext.sat_old hσ
      refine clause_iff hlen (Nat.le_add_left 1 i) hi b1.1 ?_
      rw [List.map_map, Nat.add_sub_cancel]
      refine List.map_congr_left fun j hj => ?_
      rw [List.mem_range] at hj
      rw [Function.comp_apply, getBoolAssignment_neg (refBelow_getD hb (by omega)).1,
        hv σ hσ' j (by omega)]

/-! ## The strict order -/

/-- Position `i` is where the arrays first differ, in the right direction. -/
def firstDiff (arr1 arr2 : List BoolVarRef) (i : Nat) (σ : Assignment) : Bool :=
  ((List.range i).all fun j =>
    getBoolAssignment σ (arr1.getD j 0) == getBoolAssignment σ (arr2.getD j 0)) &&
  (!getBoolAssignment σ (arr1.getD i 0) && getBoolAssignment σ (arr2.getD i 0))

omit hs in
theorem firstDiff_congr {i : Nat} (hi : i < arr1.length) (hag : AgreeBelow s.nVars σ τ) :
    firstDiff arr1 arr2 i σ = firstDiff arr1 arr2 i τ := by
  have e1 : ∀ j < arr1.length, getBoolAssignment σ (arr1.getD j 0) =
      getBoolAssignment τ (arr1.getD j 0) := fun j hj =>
    getBoolAssignment_congr hag (refBelow_getD h1 hj)
  have e2 : ∀ j < arr1.length, getBoolAssignment σ (arr2.getD j 0) =
      getBoolAssignment τ (arr2.getD j 0) := fun j hj =>
    getBoolAssignment_congr hag (refBelow_getD h2 (hlen ▸ hj))
  rw [firstDiff, firstDiff, e1 i hi, e2 i hi]
  congr 1
  rw [Bool.eq_iff_iff, List.all_eq_true, List.all_eq_true]
  refine forall₂_congr fun j hj => ?_
  rw [List.mem_range] at hj
  rw [e1 j (hj.trans hi), e2 j (hj.trans hi)]

omit hs h1 h2 in
/-- The first differences are the ways to be smaller. -/
theorem exists_firstDiff : (∃ i < arr1.length, firstDiff arr1 arr2 i σ = true) ↔
    values σ arr1 < values σ arr2 := by
  have hlt : ∀ a b : Bool, a < b ↔ (!a && b) = true := by decide
  rw [Lex.lt_iff_first_diff (by simpa using hlen), length_values]
  refine exists_congr fun i => and_congr_right fun hi => ?_
  rw [firstDiff, Bool.and_eq_true, List.all_eq_true, take_values_eq_iff hlen hi.le,
    getD_values hi, getD_values (hlen ▸ hi), hlt]
  simp only [List.mem_range, beq_iff_eq]

/-- The references declared for the positions. -/
def diffRefs (s : ConstraintSolver) (n : Nat) : List BoolVarRef :=
  (List.range n).map fun c : Nat => ((s.nextBoolID + c : Nat) : Int)

omit hs hlen h1 h2 in
theorem value_diffRef (c : Nat) :
    getBoolAssignment σ ((s.nextBoolID + c : Nat) : Int) = σ (s.nVars + c) := by
  rw [s.nextBoolID_eq, getBoolAssignment_natCast (by omega)]
  congr 1
  omega

omit hs hlen h1 h2 in
theorem getD_diffRefs {n i : Nat} (hi : i < n) :
    (diffRefs s n).getD i 0 = ((s.nextBoolID + i : Nat) : Int) := by
  rw [diffRefs, List.getD_eq_getElem _ _ (by simpa using hi), List.getElem_map, List.getElem_range]

omit hs hlen h1 h2 in
theorem refBelow_diffRefs {n : Nat} : ∀ t ∈ diffRefs s n, RefBelow (s.nVars + n) t := by
  intro t ht
  obtain ⟨c, hc, rfl⟩ := List.mem_map.mp ht
  rw [List.mem_range] at hc
  rw [s.nextBoolID_eq]
  exact refBelow_natCast (by omega) (by omega)

omit hs hlen h1 h2 in
/-- The turn of `boolArraysLexLt` at position `i`, on references `eqs` for the agreement of the
arrays: it posts that `t` says whether `i` is the first difference. -/
theorem posts_firstDiff {i : Nat} {eqs : List BoolVarRef} {t : BoolVarRef} (hs : s.Ok)
    (b1 : RefBelow s.nVars (arr1.getD i 0)) (b2 : RefBelow s.nVars (arr2.getD i 0))
    (he : ∀ j < i, RefBelow s.nVars (eqs.getD j 0))
    (hv : ∀ σ, Sat σ s.clauses → ∀ j < i, getBoolAssignment σ (eqs.getD j 0) =
      (getBoolAssignment σ (arr1.getD j 0) == getBoolAssignment σ (arr2.getD j 0)))
    (ht : RefBelow s.nVars t) :
    Posts s (s.boolArrayAndReif (((List.range i).map fun j => eqs.getD j 0) ++
      [neg (arr1.getD i 0), arr2.getD i 0]) t) fun σ =>
        getBoolAssignment σ t = firstDiff arr1 arr2 i σ := by
  refine (posts_arrayAndReif hs (by simp) ?_ ht).congr fun σ hσ => ?_
  · simp only [List.forall_mem_append, List.forall_mem_map, List.forall_mem_cons, List.mem_range,
      refBelow_neg]
    exact ⟨he, b1, b2, List.forall_mem_nil _⟩
  · rw [List.all_append, List.all_cons, List.all_cons, List.all_nil, Bool.and_true,
      getBoolAssignment_neg b1.1, firstDiff]
    suffices h : ((List.range i).map fun j => eqs.getD j 0).all (getBoolAssignment σ) =
        (List.range i).all fun j =>
          getBoolAssignment σ (arr1.getD j 0) == getBoolAssignment σ (arr2.getD j 0) by rw [h]
    rw [Bool.eq_iff_iff, List.all_map, List.all_eq_true, List.all_eq_true]
    refine forall₂_congr fun j hj => ?_
    rw [Function.comp_apply, hv σ hσ j (List.mem_range.mp hj)]

/-- `boolArraysLexLt` from the references `eqs` for the agreement of the arrays on. -/
theorem posts_firstDiffs {eqs : List BoolVarRef}
    (he : ∀ j < arr1.length - 1, RefBelow s.nVars (eqs.getD j 0))
    (hv : ∀ σ, Sat σ s.clauses → ∀ j < arr1.length - 1, getBoolAssignment σ (eqs.getD j 0) =
      (getBoolAssignment σ (arr1.getD j 0) == getBoolAssignment σ (arr2.getD j 0))) :
    Posts s (((List.range arr1.length).foldl (fun s' i =>
        s'.boolArrayAndReif (((List.range i).map fun j => eqs.getD j 0) ++
          [neg (arr1.getD i 0), arr2.getD i 0]) ((diffRefs s arr1.length).getD i 0))
          (s.advance arr1.length)).boolArrayOr (diffRefs s arr1.length))
      fun σ => values σ arr1 < values σ arr2 := by
  have b1 := fun i (hi : i ∈ List.range arr1.length) => refBelow_getD h1 (List.mem_range.mp hi)
  have b2 := fun i (hi : i ∈ List.range arr1.length) =>
    refBelow_getD h2 (hlen ▸ List.mem_range.mp hi)
  have bt := fun i (hi : i ∈ List.range arr1.length) => refBelow_getD (refBelow_diffRefs (s := s))
    (show i < (diffRefs s arr1.length).length by simpa [diffRefs] using hi)
  have hloop := posts_foldl (s := s.advance arr1.length) (hs.advance _) (List.range arr1.length)
    (f := fun s' i => s'.boolArrayAndReif (((List.range i).map fun j => eqs.getD j 0) ++
      [neg (arr1.getD i 0), arr2.getD i 0]) ((diffRefs s arr1.length).getD i 0))
    (P := fun i σ => getBoolAssignment σ ((diffRefs s arr1.length).getD i 0) =
      firstDiff arr1 arr2 i σ)
    (fun i hi s' Q hs' => by
      have hle : s.nVars ≤ s'.nVars := (Nat.le_add_right _ _).trans hs'.le
      have hj : ∀ j < i, j < arr1.length - 1 := fun j hj => by
        rw [List.mem_range] at hi
        omega
      exact posts_firstDiff hs'.ok ((b1 i hi).mono hle) ((b2 i hi).mono hle)
        (fun j hji => (he j (hj j hji)).mono hle)
        (fun σ hσ j hji => hv σ (hs'.ext.sat_old hσ) j (hj j hji)) ((bt i hi).mono hs'.le))
    fun i hi σ τ hag h => by
      change getBoolAssignment τ _ = _
      rw [← getBoolAssignment_congr hag (bt i hi), h]
      exact firstDiff_congr hlen h1 h2 (List.mem_range.mp hi)
        (hag.mono (Nat.le_add_right _ _))
  have hor := hloop.and (posts_post hloop.ok (D := [diffRefs s arr1.length])
    (List.forall_mem_singleton.mpr fun t ht => (refBelow_diffRefs t ht).mono hloop.le))
    (local_means (List.forall_mem_singleton.mpr refBelow_diffRefs))
  refine posts_declare hs (f := firstDiff arr1 arr2) (hor.congr fun σ _ => ?_)
    (fun i hi σ τ => firstDiff_congr hlen h1 h2 hi)
    (P := fun σ => Means σ [diffRefs s arr1.length]) (fun σ hdef => ?_) ?_
  · simp only [List.mem_range]
    refine and_congr_left fun _ => forall₂_congr fun i hi => ?_
    rw [getD_diffRefs hi, value_diffRef]
  · rw [← exists_firstDiff hlen, means_cons, and_iff_left means_nil]
    simp only [diffRefs, List.mem_map, List.mem_range, exists_exists_and_eq_and]
    refine exists_congr fun i => and_congr_right fun hi => ?_
    rw [value_diffRef, hdef i hi]
  · intro σ τ hag h
    rwa [← values_congr hag h1, ← values_congr hag h2]

/-- **`boolArraysLexLt`** does not throw on arrays of one length, and posts that the values of the
first are smaller than those of the second. -/
theorem posts_arraysLexLt : ∃ s', s.boolArraysLexLt arr1 arr2 = .ok s' ∧
    Posts s s' fun σ => values σ arr1 < values σ arr2 := by
  obtain ⟨hr, hl, hb, hv⟩ := posts_eqTerms hs hlen h1 h2 (Nat.sub_le arr1.length 1)
  refine ⟨_, boolArraysLexLt_eq hlen, ?_⟩
  generalize collect (eqTerm arr1 arr2) s (List.range (arr1.length - 1)) = r at *
  have hts : collect (fun s _ => s.newBoolVar) r.2 (List.range arr1.length) =
      (diffRefs r.2 arr1.length, r.2.advance arr1.length) :=
    (newBools_eq (List.range arr1.length)).trans (by rw [List.length_range]; rfl)
  simp only [hts]
  refine hr.trans_true (posts_firstDiffs hr.ok hlen (fun b hb' => (h1 b hb').mono hr.le)
    (fun b hb' => (h2 b hb').mono hr.le) (fun j hj => refBelow_getD hb (hl ▸ hj)) hv)
    (fun _ _ => Iff.rfl) fun σ τ hag h => ?_
  rwa [← values_congr hag h1, ← values_congr hag h2]

end Orders

end SymBreak.ConstraintSolver
