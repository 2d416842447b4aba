import SymBreak.IsoModel

/-!
# The lexicographic constraints

What `boolArraysLexImplication` and `boolArraysLexLtImplication` (`ConstraintSolver.cc:136-166`)
post on the strings of two graphs, and the constraint that embeds a subgraph
(`CanonizingLexImplicationsAlg.cc:203-207`).

`Posted n s R` says that the solver `s` holds the model of two graphs `A`, `B` and a permutation `p`
with the relation `R A B p` posted.

Results:
* **`posts_lexImplication`**: the lex implication of the values of the two arrays;
* **`posts_lexLt`**: the opposite of the lex implication the other way round;
* `Posted.postStrings`: a constraint on two strings of the graphs, in which both are posted;
* `Posted.exists_model`, `Posted.model`: related graphs and permutations are the models of the
  clauses, and a model decodes to such.
-/

namespace SymBreak

open Cnf Matrix ConstraintSolver

variable {s s' : ConstraintSolver} {σ τ : Assignment} {arr1 arr2 : List BoolVarRef} {length : Nat}

namespace ConstraintSolver

/-- The values of an array. -/
def values (σ : Assignment) (arr : List BoolVarRef) : List Bool := arr.map (getBoolAssignment σ)

@[simp] theorem length_values (arr : List BoolVarRef) : (values σ arr).length = arr.length := by
  simp [values]

theorem getD_values {i : Nat} (h : i < arr1.length) :
    (values σ arr1).getD i default = getBoolAssignment σ (arr1.getD i 0) := by
  rw [List.getD_eq_getElem _ _ (by simpa using h), List.getD_eq_getElem _ _ h]
  simp [values]

/-- The values agree up to a position iff those of the references do. -/
theorem take_values_eq_iff {k : Nat} (hlen : arr1.length = arr2.length) (hk : k ≤ arr1.length) :
    (values σ arr1).take k = (values σ arr2).take k ↔
      ∀ i < k, getBoolAssignment σ (arr1.getD i 0) = getBoolAssignment σ (arr2.getD i 0) := by
  rw [Lex.take_eq_take_iff (by simpa using hlen)]
  refine forall₂_congr fun i hi => ?_
  rw [getD_values (by omega), getD_values (by omega)]

theorem values_congr {N : Nat} (hag : AgreeBelow N σ τ) (h : ∀ b ∈ arr1, RefBelow N b) :
    values σ arr1 = values τ arr1 :=
  List.map_congr_left fun b hb => getBoolAssignment_congr hag (h b hb)

/-- The turn of `boolArraysLexImplication` at position `i`. -/
def lexTerm (arr1 arr2 : List BoolVarRef) (s : ConstraintSolver) (i : Nat) :
    BoolVarRef × ConstraintSolver :=
  (neg (s.boolIffReifCached (arr1.getD i 0) (arr2.getD i 0)).1,
    (s.boolIffReifCached (arr1.getD i 0) (arr2.getD i 0)).2)

theorem posts_lexTerm (hs : s.Ok) (hc : s.CacheOk) {b1 b2 : BoolVarRef} {i : Nat}
    (h1 : RefBelow s.nVars b1) (h2 : RefBelow s.nVars b2) (e1 : arr1.getD i 0 = b1)
    (e2 : arr2.getD i 0 = b2) :
    let r := lexTerm arr1 arr2 s i
    Posts s r.2 (fun _ => True) ∧ RefBelow r.2.nVars r.1 ∧ ∀ σ, Sat σ r.2.clauses →
      getBoolAssignment σ r.1 = !(getBoolAssignment σ b1 == getBoolAssignment σ b2) := by
  subst e1 e2
  obtain ⟨hp, hb, hv⟩ := posts_iffReifCached hs hc h1 h2
  refine ⟨hp, refBelow_neg.mpr hb, fun σ hσ => ?_⟩
  simp only [lexTerm]
  rw [getBoolAssignment_neg hb.1, hv σ hσ]

/-- The clause of a lex implication: one of the collected references is true, which says that the
arrays differ at that position, or the two last literals are in order. -/
theorem clause_iff (hlen : arr1.length = arr2.length) (hpos : 1 ≤ length)
    (hle : length ≤ arr1.length) (h0 : arr1.getD (length - 1) 0 ≠ 0) {c : List BoolVarRef}
    (hc : c.map (getBoolAssignment σ) = (List.range (length - 1)).map fun i =>
      !(getBoolAssignment σ (arr1.getD i 0) == getBoolAssignment σ (arr2.getD i 0))) :
    (∃ b ∈ c ++ [neg (arr1.getD (length - 1) 0), arr2.getD (length - 1) 0],
      getBoolAssignment σ b = true) ↔
      Lex.Implication length (values σ arr1) (values σ arr2) := by
  have hex : (∃ b ∈ c, getBoolAssignment σ b = true) ↔ ¬ ∀ i < length - 1,
      getBoolAssignment σ (arr1.getD i 0) = getBoolAssignment σ (arr2.getD i 0) := by
    have hm : (∃ b ∈ c, getBoolAssignment σ b = true) ↔
        true ∈ c.map (getBoolAssignment σ) := by simp
    rw [hm, hc]
    simp
  have hle' : ∀ a b : Bool, a ≤ b ↔ (!a) = true ∨ b = true := by decide
  rw [Lex.Implication, take_values_eq_iff hlen (show length - 1 ≤ arr1.length by omega),
    getD_values (by omega), getD_values (by omega), hle',
    ← getBoolAssignment_neg h0, imp_iff_not_or, ← hex]
  simp only [List.mem_append, or_and_right, exists_or, List.mem_cons, List.not_mem_nil, or_false,
    exists_eq_left]

/-- **`boolArraysLexImplication`** does not throw on arrays of one length, and posts the lex
implication of their values. -/
theorem posts_lexImplication (hs : s.Ok) (hc : s.CacheOk) (hlen : arr1.length = arr2.length)
    (h1 : ∀ b ∈ arr1, RefBelow s.nVars b) (h2 : ∀ b ∈ arr2, RefBelow s.nVars b)
    (hpos : 1 ≤ length) (hle : length ≤ arr1.length) :
    ∃ s', s.boolArraysLexImplication arr1 arr2 length = .ok s' ∧
      Posts s s' fun σ => Lex.Implication length (values σ arr1) (values σ arr2) := by
  obtain ⟨hr, -, hb, hv⟩ := posts_collect (g := lexTerm arr1 arr2)
    (v := fun i σ => !(getBoolAssignment σ (arr1.getD i 0) == getBoolAssignment σ (arr2.getD i 0)))
    hs (List.range (length - 1)) fun i hi s' hs' => by
      rw [List.mem_range] at hi
      exact posts_lexTerm hs'.ok (hs'.cache hc)
        ((refBelow_getD h1 (show i < arr1.length by omega)).mono hs'.le)
        ((refBelow_getD h2 (show i < arr2.length by omega)).mono hs'.le) rfl rfl
  have e : s.boolArraysLexImplication arr1 arr2 length =
      .ok ((fun r : List BoolVarRef × ConstraintSolver => r.2.boolArrayOr
        (r.1 ++ [neg (arr1.getD (length - 1) 0), arr2.getD (length - 1) 0]))
        (collect (lexTerm arr1 arr2) s (List.range (length - 1)))) := by
    rw [boolArraysLexImplication, if_neg (by simpa using hlen)]
    rfl
  refine ⟨_, e, ?_⟩
  generalize collect (lexTerm arr1 arr2) s (List.range (length - 1)) = r at *
  have b1 := refBelow_getD h1 (show length - 1 < arr1.length by omega)
  have b2 := refBelow_getD h2 (show length - 1 < arr2.length by omega)
  simp only [boolArrayOr_eq]
  refine hr.trans_true (posts_post hr.ok ?_) (fun σ hσ => ?_) fun σ τ hag h => ?_
  · intro c hc b hbm
    rw [List.mem_singleton.mp hc] at hbm
    rcases List.mem_append.mp hbm with hbm | hbm
    · exact hb b hbm
    · simp only [List.mem_cons, List.not_mem_nil, or_false] at hbm
      rcases hbm with rfl | rfl
      · exact refBelow_neg.mpr (b1.mono hr.le)
      · exact b2.mono hr.le
  · rw [means_cons, and_iff_left means_nil]
    exact clause_iff hlen hpos hle b1.1 (hv σ hσ)
  · rwa [← values_congr hag h1, ← values_congr hag h2]

/-- The turn of `boolArraysLexLtImplication` at position `i` posts that the arrays agree there. -/
theorem posts_agree (hs : s.Ok) {b1 b2 : BoolVarRef} (h1 : RefBelow s.nVars b1)
    (h2 : RefBelow s.nVars b2) :
    Posts s ((s.newBoolVar.2.boolIffReif b1 b2 s.newBoolVar.1).setBoolVar s.newBoolVar.1 true)
      fun σ => getBoolAssignment σ b1 = getBoolAssignment σ b2 := by
  have hp := posts_iffReif hs h1 h2
  rw [setBoolVar_eq refBelow_newBoolVar.1, if_pos rfl]
  refine hp.trans_true (posts_post hp.ok ?_) (fun σ hσ => ?_) fun σ τ hag h => ?_
  · intro c hc b hb
    rw [List.mem_singleton.mp hc, List.mem_singleton] at hb
    rw [hb, boolIffReif_eq]
    exact refBelow_newBoolVar
  · simp [value_iffReif h1.1 h2.1 hσ]
  · rwa [← getBoolAssignment_congr hag h1, ← getBoolAssignment_congr hag h2]

/-- The loop of `boolArraysLexLtImplication` posts that the arrays agree on the first `k` positions.
-/
theorem posts_agreeLoop (hs : s.Ok) (h1 : ∀ b ∈ arr1, RefBelow s.nVars b)
    (h2 : ∀ b ∈ arr2, RefBelow s.nVars b) {k : Nat} (hk1 : k ≤ arr1.length)
    (hk2 : k ≤ arr2.length) :
    Posts s ((List.range k).foldl (fun s i =>
      (s.newBoolVar.2.boolIffReif (arr1.getD i 0) (arr2.getD i 0) s.newBoolVar.1).setBoolVar
        s.newBoolVar.1 true) s) fun σ => ∀ i ∈ List.range k,
      getBoolAssignment σ (arr1.getD i 0) = getBoolAssignment σ (arr2.getD i 0) := by
  have b1 := fun i (hi : i ∈ List.range k) =>
    refBelow_getD h1 ((List.mem_range.mp hi).trans_le hk1)
  have b2 := fun i (hi : i ∈ List.range k) =>
    refBelow_getD h2 ((List.mem_range.mp hi).trans_le hk2)
  refine posts_foldl hs (List.range k) (fun i hi s' Q hs' =>
    posts_agree hs'.ok ((b1 i hi).mono hs'.le) ((b2 i hi).mono hs'.le)) fun i hi σ τ hag h => ?_
  rwa [← getBoolAssignment_congr hag (b1 i hi), ← getBoolAssignment_congr hag (b2 i hi)]

/-- **`boolArraysLexLtImplication`** does not throw on arrays of one length, and posts that the lex
implication the other way round fails. -/
theorem posts_lexLt (hs : s.Ok) (hlen : arr1.length = arr2.length)
    (h1 : ∀ b ∈ arr1, RefBelow s.nVars b) (h2 : ∀ b ∈ arr2, RefBelow s.nVars b)
    (hpos : 1 ≤ length) (hle : length ≤ arr1.length) :
    ∃ s', s.boolArraysLexLtImplication arr1 arr2 length = .ok s' ∧
      Posts s s' fun σ => ¬ Lex.Implication length (values σ arr2) (values σ arr1) := by
  have hk : length - 1 < arr1.length := by omega
  have hr := posts_agreeLoop hs h1 h2 hk.le (hlen ▸ hk.le)
  have b1 := refBelow_getD h1 hk
  have b2 := refBelow_getD h2 (hlen ▸ hk)
  refine ⟨_, by rw [boolArraysLexLtImplication, if_neg (by simpa using hlen)], ?_⟩
  rw [setBoolVar_eq b1.1, setBoolVar_eq b2.1, post_post]
  refine (hr.and (posts_post hr.ok ?_) ?_).congr fun σ _ => ?_
  · simp only [RefsBelow, List.forall_mem_append, List.forall_mem_singleton]
    exact ⟨refBelow_neg.mpr (b1.mono hr.le), b2.mono hr.le⟩
  · refine local_means ?_
    simp only [RefsBelow, List.forall_mem_append, List.forall_mem_singleton]
    exact ⟨refBelow_neg.mpr b1, b2⟩
  · have hlt : ∀ a b : Bool, ¬ b ≤ a ↔ (!a) = true ∧ b = true := by decide
    have htake : (values σ arr2).take (length - 1) = (values σ arr1).take (length - 1) ↔ _ :=
      eq_comm.trans (take_values_eq_iff hlen hk.le)
    rw [Lex.Implication, htake, getD_values (by omega), getD_values hk, Classical.not_imp, hlt,
      ← getBoolAssignment_neg b1.1]
    simp [List.mem_range]

end ConstraintSolver

/-! ## Constraints on the encoded graphs -/

section Posted

variable {n : Nat} {idx : CanonicalIndexing}

/-- The strings of the encoded graphs. -/
theorem values_indexing {g : Matrix BoolVarRef} {A : Graph n} (hr : g.nRows = n)
    (hc : g.nCols = n) (h : ReadsEdges σ g A) : values σ (indexing idx g) = A.string idx := by
  rw [values, indexing_eq hr hc, List.map_map, Graph.string_eq]
  refine List.map_congr_left fun ij hij => ?_
  obtain ⟨hi, hj, hne⟩ := pair_lt hij
  exact h _ hi _ hj hne

theorem values_indexing_permute {g : Matrix BoolVarRef} {A : Graph n} (hr : g.nRows = n)
    (hc : g.nCols = n) (h : ReadsEdges σ g A) {m : Nat} {perm : List Nat}
    (hp : perm.Perm (List.range m)) (hmn : m ≤ n) :
    values σ (indexing idx (g.permute perm)) = indexing idx (A.matrix.permute perm) := by
  rw [values, indexing_permute hr hc, List.map_map, indexing_permute rfl rfl]
  refine List.map_congr_left fun ij hij => ?_
  obtain ⟨hi, hj, hne⟩ := pair_lt hij
  have hi' := image_lt hp hmn hi
  have hj' := image_lt hp hmn hj
  rw [Function.comp_apply, h _ hi' _ hj' ((image_injective hp).ne hne), A.get_matrix hi' hj']

/-- The references in the strings. -/
theorem refBelow_indexing (idx : CanonicalIndexing) {N : Nat} {g : Matrix BoolVarRef}
    (hr : g.nRows = n) (hc : g.nCols = n) (h : EdgeRefs N n g) :
    ∀ b ∈ indexing idx g, RefBelow N b := by
  intro b hb
  rw [indexing_eq hr hc] at hb
  obtain ⟨ij, hij, rfl⟩ := List.mem_map.mp hb
  obtain ⟨hi, hj, hne⟩ := pair_lt hij
  exact h _ hi _ hj hne

theorem refBelow_indexing_permute (idx : CanonicalIndexing) {N : Nat} {g : Matrix BoolVarRef}
    (hr : g.nRows = n) (hc : g.nCols = n) (h : EdgeRefs N n g) {m : Nat} {perm : List Nat}
    (hp : perm.Perm (List.range m)) (hmn : m ≤ n) :
    ∀ b ∈ indexing idx (g.permute perm), RefBelow N b := by
  intro b hb
  rw [indexing_permute hr hc] at hb
  obtain ⟨ij, hij, rfl⟩ := List.mem_map.mp hb
  obtain ⟨hi, hj, hne⟩ := pair_lt hij
  exact h _ (image_lt hp hmn hi) _ (image_lt hp hmn hj) ((image_injective hp).ne hne)

/-- The solver `s` holds the model of two graphs and a permutation, with the relation `R` posted. -/
def Posted (n : Nat) (s : ConstraintSolver) (R : Graph n → Graph n → List Nat → Prop) : Prop :=
  ∃ Q, Posts (declare n).solver s Q ∧ ∀ σ A B p, Encodes (declare n) σ A B p →
    p.Perm (List.range n) → (Q σ ↔ R A B p)

variable {R R' : Graph n → Graph n → List Nat → Prop}

theorem posted_declare (n : Nat) : Posted n (declare n).solver fun _ _ _ => True :=
  ⟨_, posts_refl (declared n).ok, fun _ _ _ _ _ _ => Iff.rfl⟩

theorem posted_iso (n : Nat) : Posted n (isoModel n).solver (IsImage (n := n)) := posts_iso n

theorem Posted.ok (h : Posted n s R) : s.Ok := by
  obtain ⟨Q, hQ, -⟩ := h
  exact hQ.ok

theorem Posted.cache (h : Posted n s R) : s.CacheOk := by
  obtain ⟨Q, hQ, -⟩ := h
  exact hQ.cache (declared n).cache

theorem Posted.le (h : Posted n s R) : (declare n).solver.nVars ≤ s.nVars := by
  obtain ⟨Q, hQ, -⟩ := h
  exact hQ.le

theorem Posted.congr (h : Posted n s R) (hR : ∀ A B p, p.Perm (List.range n) →
    (R A B p ↔ R' A B p)) : Posted n s R' := by
  obtain ⟨Q, hQ, hiff⟩ := h
  exact ⟨Q, hQ, fun σ A B p he hp => (hiff σ A B p he hp).trans (hR A B p hp)⟩

/-- One more constraint on the variables declared. -/
theorem Posted.post {P : Assignment → Prop} (h : Posted n s R) (hP : Posts s s' P)
    (hloc : Local (declare n).solver.nVars P)
    (hiff : ∀ σ A B p, Encodes (declare n) σ A B p → p.Perm (List.range n) → (P σ ↔ R' A B p)) :
    Posted n s' fun A B p => R A B p ∧ R' A B p := by
  obtain ⟨Q, hQ, hQR⟩ := h
  exact ⟨_, hQ.and hP hloc, fun σ A B p he hp =>
    and_congr (hQR σ A B p he hp) (hiff σ A B p he hp)⟩

/-- **A model decodes to related graphs** and a permutation. -/
theorem Posted.model (h : Posted n s R) (hσ : Sat σ s.clauses) :
    (s.decodeIntArray σ (declare n).perm).Perm (List.range n) ∧
      R (graphOf n σ (declare n).g1) (graphOf n σ (declare n).g2)
        (s.decodeIntArray σ (declare n).perm) := by
  obtain ⟨Q, hQ, hQR⟩ := h
  obtain ⟨he, hp⟩ := encodes_decode (declared n) hQ.ints (hQ.ext.sat_old hσ)
  exact ⟨hp, (hQR σ _ _ _ he hp).mp (hQ.ext.sound σ hσ)⟩

/-- **Related graphs have a model.** -/
theorem Posted.exists_model (h : Posted n s R) {A B : Graph n} {p : List Nat}
    (hp : p.Perm (List.range n)) (hR : R A B p) :
    ∃ τ, Sat τ s.clauses ∧ Encodes (declare n) τ A B p := by
  obtain ⟨Q, hQ, hQR⟩ := h
  have he := encodes_encoding (declared n) A B p
  obtain ⟨τ, hag, hτ⟩ := hQ.ext.complete _ (he.sat (declared n) hp) ((hQR _ A B p he hp).mpr hR)
  exact ⟨τ, hτ, he.congr (declared n) hag⟩

/-- The references `arr` are declared, and their values are the string `str A B` of the encoded
graphs. -/
structure StringRefs (n : Nat) (arr : List BoolVarRef) (str : Graph n → Graph n → List Bool) :
    Prop where
  below : ∀ b ∈ arr, RefBelow (declare n).solver.nVars b
  length : arr.length = n * (n - 1) / 2
  read : ∀ σ A B p, Encodes (declare n) σ A B p → values σ arr = str A B

theorem stringRefs_g1 (n : Nat) (idx : CanonicalIndexing) :
    StringRefs n (indexing idx (declare n).g1) fun A _ => A.string idx := by
  have hm := declared n
  exact ⟨refBelow_indexing idx hm.g1.nRows hm.g1.nCols hm.edgeRefs_g1,
    length_indexing hm.g1.nRows hm.g1.nCols idx,
    fun σ A B p he => values_indexing hm.g1.nRows hm.g1.nCols he.g1.edges⟩

theorem stringRefs_g2 (n : Nat) (idx : CanonicalIndexing) :
    StringRefs n (indexing idx (declare n).g2) fun _ B => B.string idx := by
  have hm := declared n
  exact ⟨refBelow_indexing idx hm.g2.nRows hm.g2.nCols hm.edgeRefs_g2,
    length_indexing hm.g2.nRows hm.g2.nCols idx,
    fun σ A B p he => values_indexing hm.g2.nRows hm.g2.nCols he.g2.edges⟩

theorem stringRefs_permute (idx : CanonicalIndexing) {m : Nat} {q : List Nat}
    (hq : q.Perm (List.range m)) (hmn : m ≤ n) :
    StringRefs n (indexing idx ((declare n).g1.permute q)) fun A _ =>
      indexing idx (A.matrix.permute q) := by
  have hm := declared n
  exact ⟨refBelow_indexing_permute idx hm.g1.nRows hm.g1.nCols hm.edgeRefs_g1 hq hmn,
    length_indexing ((nRows_permute q).trans hm.g1.nRows) ((nCols_permute q).trans hm.g1.nCols) idx,
    fun σ A B p he => values_indexing_permute hm.g1.nRows hm.g1.nCols he.g1.edges hq hmn⟩

/-- **A constraint `C` on two strings of the graphs.** -/
theorem Posted.postStrings {str1 str2 : Graph n → Graph n → List Bool}
    {C : List Bool → List Bool → Prop} {r : Except (Halt Exn) ConstraintSolver}
    (h : Posted n s R) (r1 : StringRefs n arr1 str1) (r2 : StringRefs n arr2 str2)
    (hpost : arr1.length = arr2.length → (∀ b ∈ arr1, RefBelow s.nVars b) →
      (∀ b ∈ arr2, RefBelow s.nVars b) →
      ∃ s', r = .ok s' ∧ Posts s s' fun σ => C (values σ arr1) (values σ arr2)) :
    ∃ s', r = .ok s' ∧ Posted n s' fun A B p => R A B p ∧ C (str1 A B) (str2 A B) := by
  obtain ⟨s', hs', hP⟩ := hpost (r1.length.trans r2.length.symm)
    (fun b hb => (r1.below b hb).mono h.le) fun b hb => (r2.below b hb).mono h.le
  refine ⟨s', hs', h.post hP (fun σ τ hag hσ => ?_) fun σ A B p he _ => ?_⟩
  · rwa [← values_congr hag r1.below, ← values_congr hag r2.below]
  · rw [r1.read σ A B p he, r2.read σ A B p he]

/-- **A lex implication on `g1`.** -/
theorem Posted.lexImplication (h : Posted n s R) (idx : CanonicalIndexing) {imp : LexImplication}
    (hv : Graph.Valid n imp) :
    ∃ s', s.boolArraysLexImplication (indexing idx (declare n).g1)
        (indexing idx ((declare n).g1.permute imp.perm)) imp.length = .ok s' ∧
      Posted n s' fun A B p => R A B p ∧ Graph.SatisfiesImp idx imp A := by
  obtain ⟨⟨m, hmn, hp⟩, hpos, hle⟩ := hv
  have r1 := stringRefs_g1 n idx
  exact h.postStrings r1 (stringRefs_permute idx hp hmn) fun hlen b1 b2 =>
    posts_lexImplication h.ok h.cache hlen b1 b2 hpos (by rw [r1.length]; exact hle)

/-- **The string of `g2` is smaller at length `length`.** -/
theorem Posted.lexLt (h : Posted n s R) (idx : CanonicalIndexing) {length : Nat}
    (hpos : 1 ≤ length) (hle : length ≤ n * (n - 1) / 2) :
    ∃ s', s.boolArraysLexLtImplication (indexing idx (declare n).g2)
        (indexing idx (declare n).g1) length = .ok s' ∧
      Posted n s' fun A B p =>
        R A B p ∧ ¬ Lex.Implication length (A.string idx) (B.string idx) := by
  have r2 := stringRefs_g2 n idx
  exact h.postStrings (C := fun l1 l2 => ¬ Lex.Implication length l2 l1) r2 (stringRefs_g1 n idx)
    fun hlen b2 b1 => posts_lexLt h.ok hlen b2 b1 hpos (by rw [r2.length]; exact hle)

/-- Embed a subgraph, given by the rows of its adjacency matrix, on the first vertices of `g1`
(`CanonizingLexImplicationsAlg.cc:193, 203-207`). -/
def embedSubgraph (g1 : Matrix BoolVarRef) (subgraphStr : List Char) (s : ConstraintSolver) :
    ConstraintSolver :=
  let k := Nat.sqrt subgraphStr.length
  (List.range subgraphStr.length).foldl (fun s j =>
    let val := if subgraphStr.getD j '0' = '0' then false else true
    s.setBoolVar (g1.get (j / k) (j % k)) val) s

theorem refBelow_entry {i j : Nat} (hi : i < n) (hj : j < n) :
    RefBelow (declare n).solver.nVars ((declare n).g1.get i j) := by
  have hm := declared n
  by_cases hij : i = j
  · subst hij
    rw [hm.g1.diag i hi, hm.nVars]
    exact refBelow_neg.mpr (refBelow_natCast (k := 1) (by omega) (by omega))
  · exact hm.edgeRefs_g1 i hi j hj hij

/-- **The first vertices induce the subgraph.** -/
theorem Posted.embedSubgraph (h : Posted n s R) {k : Nat} (H : Graph k) (hk : k ≤ n) :
    Posted n (embedSubgraph (declare n).g1 H.subgraphString s) fun A B p =>
      R A B p ∧ A.induce k = H := by
  have hlt : ∀ t < k * k, t / k < n ∧ t % k < n := fun t ht => by
    have := div_mod_lt ht
    omega
  have hloop := posts_foldl (f := fun s j => s.setBoolVar ((declare n).g1.get (j / k) (j % k))
      (if H.subgraphString.getD j '0' = '0' then false else true))
    (P := fun j σ => getBoolAssignment σ ((declare n).g1.get (j / k) (j % k)) =
      H.adj (j / k) (j % k))
    h.ok (List.range (k * k)) (fun t ht s' Q hs' => by
      obtain ⟨h1, h2⟩ := hlt t (List.mem_range.mp ht)
      have hb := refBelow_entry h1 h2
      have hd := H.getD_subgraphString (List.mem_range.mp ht)
      rw [setBoolVar_eq hb.1]
      refine (posts_post hs'.ok ?_).congr fun σ _ => ?_
      · intro c hc b hbc
        rw [List.mem_singleton.mp hc, List.mem_singleton] at hbc
        have hb' := (hb.mono h.le).mono hs'.le
        rw [hbc]
        split <;> simpa [refBelow_neg] using hb'
      · simp only [hd, means_cons, means_nil, and_true, List.mem_singleton, exists_eq_left]
        cases H.adj (t / k) (t % k) <;> simp [getBoolAssignment_neg hb.1])
    fun t ht σ τ hag hσ => by
      obtain ⟨h1, h2⟩ := hlt t (List.mem_range.mp ht)
      rwa [← getBoolAssignment_congr (hag.mono h.le) (refBelow_entry h1 h2)]
  have e : SymBreak.embedSubgraph (declare n).g1 H.subgraphString s =
      (List.range (k * k)).foldl (fun s j => s.setBoolVar ((declare n).g1.get (j / k) (j % k))
        (if H.subgraphString.getD j '0' = '0' then false else true)) s := by
    rw [SymBreak.embedSubgraph, Graph.sqrt_length_subgraphString, Graph.length_subgraphString]
  rw [e]
  refine h.post hloop (fun σ τ hag hσ t ht => ?_) fun σ A B p he _ => ?_
  · obtain ⟨h1, h2⟩ := hlt t (List.mem_range.mp ht)
    rw [← getBoolAssignment_congr hag (refBelow_entry h1 h2)]
    exact hσ t ht
  · rw [Graph.induce_eq_iff]
    simp only [List.mem_range]
    refine forall₂_congr fun t ht => ?_
    rw [he.g1 _ (hlt t ht).1 _ (hlt t ht).2]

end Posted

end SymBreak
