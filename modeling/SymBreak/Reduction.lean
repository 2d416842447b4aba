import SymBreak.Reducer
import Mathlib.Data.List.Forall2
import Mathlib.Data.List.TakeWhile

/-!
# Reducing lex implications

The files of `LexImplicationsReducer` say what the constraint solver posts. The reducer's state,
with the definitions written so far, is seen as a constraint solver over the edge variables
(`view`): a turn of `writeTseitenCnfFile` is then a call of the cached `boolIffReif`
(`view_tseitinTurn`), and its results carry over.
-/

namespace SymBreak

open Cnf Matrix ConstraintSolver

namespace LexImplicationsReducer

variable {n : Nat} {idx : CanonicalIndexing} {r r' : LexImplicationsReducer} {σ τ : Assignment}
  {arr1 arr2 : List Int}

/-! ## Lines and clauses -/

theorem lineClause_append {c : List Int} (h : ∀ b ∈ c, b ≠ 0) :
    lineClause (c ++ [0]) = c.map toLit := by
  rw [lineClause, List.takeWhile_append_of_pos (by simpa using h)]
  simp

theorem fileFormula_append (l l' : List Line) :
    fileFormula (l ++ l') = fileFormula l ++ fileFormula l' :=
  List.map_append

theorem sat_fileFormula {lines : List Line} :
    Sat σ (fileFormula lines) ↔ ∀ l ∈ lines, ClauseHolds σ (lineClause l) := by
  simp [Sat, fileFormula]

theorem fileFormula_tseitinLines {b1 b2 t : Int} (h1 : b1 ≠ 0) (h2 : b2 ≠ 0) (ht : t ≠ 0) :
    fileFormula (tseitinLines b1 b2 t) = (iffReif b1 b2 t).map (List.map toLit) := by
  simp [fileFormula, tseitinLines, iffReif, lineClause, neg, h1, h2, ht]

/-- The definitions in the order of the cache. -/
def defLines (cache : IffReifCache) : List Line :=
  cache.reverse.flatMap fun e => tseitinLines e.1.1 e.1.2 e.2

theorem defLines_cons (e : (Int × Int) × Int) (cache : IffReifCache) :
    defLines (e :: cache) = defLines cache ++ tseitinLines e.1.1 e.1.2 e.2 := by
  simp [defLines]

/-! ## The reducer as a constraint solver -/

/-- The definitions written so far, as the clauses of a constraint solver. -/
def view (r : LexImplicationsReducer) : ConstraintSolver where
  nVars := r.nextBoolID - 1
  clauses := fileFormula (defLines r.iffReifCache)
  nextBoolID := r.nextBoolID - 1 + 1
  ints := []
  nextIntID := 0
  iffReifCache := r.iffReifCache
  nextBoolID_eq := rfl
  nextIntID_eq := nextIntID_nil

/-- A pair is cached in one of the two orders. -/
def Cached (r : LexImplicationsReducer) (b1 b2 : Int) : Prop :=
  ¬ (r.iffReifCache.lookup (b1, b2) = none ∧ r.iffReifCache.lookup (b2, b1) = none)

/-- What the writers keep: the edge variables come first, every other variable is defined by them.
-/
structure Inv (n : Nat) (r₀ r : LexImplicationsReducer) : Prop where
  adj : r.adjMatrix = r₀.adjMatrix
  idx : r.idx = r₀.idx
  sub : r.subgraphStr = r₀.subgraphStr
  pos : 1 ≤ r.nextBoolID
  posts : Posts (view r₀) (view r) fun _ => True
  cacheOk : (view r).CacheOk

/-- The references of the two arrays at a position are edge variables of the fresh reducer `r₀`. -/
def RefsAt (r₀ : LexImplicationsReducer) (arr1 arr2 : List Int) (length : Nat) : Prop :=
  ∀ j < length, RefBelow (view r₀).nVars (arr1.getD j 0) ∧ RefBelow (view r₀).nVars (arr2.getD j 0)

/-- **A turn of `writeTseitenCnfFile` is a call of `boolIffReif(b1, b2)`.** -/
theorem view_tseitinTurn (hpos : 1 ≤ r.nextBoolID) (tsFile : List Line) {j : Nat}
    (h1 : arr1.getD j 0 ≠ 0) (h2 : arr2.getD j 0 ≠ 0) :
    view (tseitinTurn arr1 arr2 (r, tsFile) j).1 =
      ((view r).boolIffReifCached (arr1.getD j 0) (arr2.getD j 0)).2 := by
  have ht : ((r.nextBoolID : Nat) : Int) ≠ 0 := by omega
  simp only [tseitinTurn, boolIffReifCached]
  by_cases hno : r.iffReifCache.lookup (arr1.getD j 0, arr2.getD j 0) = none ∧
      r.iffReifCache.lookup (arr2.getD j 0, arr1.getD j 0) = none
  · rw [if_pos hno]
    simp only [view, hno.1, hno.2, newBoolVar, boolIffReif_eq, post, Nat.sub_add_cancel hpos]
    refine ConstraintSolver.ext ?_ ?_ ?_ rfl rfl rfl
    · simp only
      omega
    · simp only [defLines_cons, fileFormula_append]
      rw [fileFormula_tseitinLines h1 h2 ht]
    · simp only
      omega
  · rw [if_neg hno]
    simp only [view]
    split
    · rfl
    · rename_i hn
      split
      · rfl
      · rename_i hn'
        exact absurd ⟨hn, hn'⟩ hno

/-- The file grows by definitions, and the cache with it. -/
structure Grows (rf rf' : LexImplicationsReducer × List Line) : Prop where
  lines : ∃ new, rf'.2 = rf.2 ++ new ∧
    defLines rf'.1.iffReifCache = defLines rf.1.iffReifCache ++ new
  cached : ∀ b1 b2, Cached rf.1 b1 b2 → Cached rf'.1 b1 b2

variable {rf rf' rf'' : LexImplicationsReducer × List Line} {r₀ : LexImplicationsReducer}

theorem Grows.refl (rf : LexImplicationsReducer × List Line) : Grows rf rf :=
  ⟨⟨[], by simp⟩, fun _ _ h => h⟩

theorem Grows.trans (h : Grows rf rf') (h' : Grows rf' rf'') : Grows rf rf'' := by
  obtain ⟨⟨l, h1, h2⟩, hc⟩ := h
  obtain ⟨⟨l', h1', h2'⟩, hc'⟩ := h'
  exact ⟨⟨l ++ l', by rw [h1', h1, List.append_assoc], by rw [h2', h2, List.append_assoc]⟩,
    fun b1 b2 hb => hc' b1 b2 (hc b1 b2 hb)⟩

/-- **The turn at one pair** writes its definition, unless it is cached. -/
theorem tseitinTurn_spec (h : Inv n r₀ rf.1) {j : Nat}
    (h1 : RefBelow (view r₀).nVars (arr1.getD j 0))
    (h2 : RefBelow (view r₀).nVars (arr2.getD j 0)) :
    Inv n r₀ (tseitinTurn arr1 arr2 rf j).1 ∧ Grows rf (tseitinTurn arr1 arr2 rf j) ∧
      Cached (tseitinTurn arr1 arr2 rf j).1 (arr1.getD j 0) (arr2.getD j 0) := by
  obtain ⟨r, tsFile⟩ := rf
  have hview := view_tseitinTurn h.pos tsFile h1.1 h2.1
  obtain ⟨hp, -, -⟩ := posts_iffReifCached h.posts.ok h.cacheOk (h1.mono h.posts.le)
    (h2.mono h.posts.le)
  rw [← hview] at hp
  have hcons : ∀ {c : IffReifCache} {p q : Int × Int} {t : Int},
      c.lookup p ≠ none → (((q, t) :: c : IffReifCache)).lookup p ≠ none := by
    intro c p q t hc
    rw [List.lookup_cons]
    split
    · simp
    · exact hc
  simp only at h
  refine ⟨⟨?_, ?_, ?_, ?_, h.posts.true_true hp, hp.cache h.cacheOk⟩, ⟨?_, ?_⟩, ?_⟩
  all_goals simp only [tseitinTurn]; split
  · exact h.adj
  · exact h.adj
  · exact h.idx
  · exact h.idx
  · exact h.sub
  · exact h.sub
  · exact Nat.succ_pos _
  · exact h.pos
  · exact ⟨_, rfl, defLines_cons _ _⟩
  · exact ⟨[], by simp⟩
  · rintro b1 b2 hb ⟨hn1, hn2⟩
    refine hb ⟨?_, ?_⟩
    · by_contra hc
      exact hcons hc hn1
    · by_contra hc
      exact hcons hc hn2
  · exact fun _ _ hb => hb
  · simp [Cached]
  · rename_i hno
    exact hno

/-- **The inner loop** writes the definition of every pair before the last position. -/
theorem tseitins_spec (h : Inv n r₀ rf.1) {length : Nat}
    (href : RefsAt r₀ arr1 arr2 (length - 1)) :
    Inv n r₀ (tseitins arr1 arr2 length rf).1 ∧ Grows rf (tseitins arr1 arr2 length rf) ∧
      ∀ j < length - 1,
        Cached (tseitins arr1 arr2 length rf).1 (arr1.getD j 0) (arr2.getD j 0) := by
  unfold tseitins
  generalize length - 1 = m at href
  induction m with
  | zero => exact ⟨h, Grows.refl rf, fun j hj => by omega⟩
  | succ m ih =>
    obtain ⟨hi, hg, hc⟩ := ih fun j hj => href j (by omega)
    obtain ⟨hi', hg', hc'⟩ := tseitinTurn_spec hi (href m (by omega)).1 (href m (by omega)).2
    rw [List.range_succ, List.foldl_append, List.foldl_cons, List.foldl_nil]
    refine ⟨hi', hg.trans hg', fun j hj => ?_⟩
    rcases Nat.lt_or_ge j m with hlt | hge
    · exact hg'.cached _ _ (hc j hlt)
    · obtain rfl : j = m := by omega
      exact hc'

/-- The turn of `boolArraysLexImplication` at a pair that is cached. -/
theorem lookup_of_cached (h : Inv n r₀ r) {b1 b2 : Int} (hc : Cached r b1 b2) :
    ∃ t, (r.iffReifCache.lookup (b1, b2) = some t ∨ (r.iffReifCache.lookup (b1, b2) = none ∧
        r.iffReifCache.lookup (b2, b1) = some t)) ∧ RefBelow (view r).nVars t ∧
      ∀ σ, Sat σ (view r).clauses →
        getBoolAssignment σ t = (getBoolAssignment σ b1 == getBoolAssignment σ b2) := by
  cases h1 : r.iffReifCache.lookup (b1, b2) with
  | some t =>
    obtain ⟨hb, hv⟩ := h.cacheOk b1 b2 t (mem_of_lookup h1)
    exact ⟨t, Or.inl rfl, hb, hv⟩
  | none =>
    cases h2 : r.iffReifCache.lookup (b2, b1) with
    | some t =>
      obtain ⟨hb, hv⟩ := h.cacheOk b2 b1 t (mem_of_lookup h2)
      exact ⟨t, Or.inr ⟨rfl, rfl⟩, hb, fun σ hσ => by rw [hv σ hσ, Bool.beq_comm]⟩
    | none => exact absurd ⟨h1, h2⟩ hc

/-- **`boolArraysLexImplication`**, once its pairs are cached: the reducer is unchanged, and the
clause says the lex implication of the values of the arrays. -/
theorem lexImplication_spec (h : Inv n r₀ r) {length : Nat} (hlen : arr1.length = arr2.length)
    (hpos : 1 ≤ length) (hle : length ≤ arr1.length) (href : RefsAt r₀ arr1 arr2 length)
    (hc : ∀ j < length - 1, Cached r (arr1.getD j 0) (arr2.getD j 0)) :
    (r.boolArraysLexImplication arr1 arr2 length).2 = r ∧
      (∀ b ∈ (r.boolArraysLexImplication arr1 arr2 length).1, RefBelow (view r).nVars b) ∧
      ∀ σ, Sat σ (view r).clauses →
        ((∃ b ∈ (r.boolArraysLexImplication arr1 arr2 length).1, getBoolAssignment σ b = true) ↔
          Lex.Implication length (values σ arr1) (values σ arr2)) := by
  have loop : ∀ m, m ≤ length - 1 → ∃ c : List Int,
      (List.range m).foldl (lexTurn arr1 arr2) ([], r) =
        (c, r) ∧ (∀ b ∈ c, RefBelow (view r).nVars b) ∧ ∀ σ, Sat σ (view r).clauses →
        c.map (getBoolAssignment σ) = (List.range m).map fun i =>
          !(getBoolAssignment σ (arr1.getD i 0) == getBoolAssignment σ (arr2.getD i 0)) := by
    intro m
    induction m with
    | zero => exact fun _ => ⟨[], rfl, by simp, fun _ _ => rfl⟩
    | succ m ih =>
      intro hm
      obtain ⟨c, hfold, hb, hv⟩ := ih (by omega)
      obtain ⟨t, hlook, ht, htv⟩ := lookup_of_cached h (hc m (by omega))
      refine ⟨c ++ [-t], ?_, ?_, fun σ hσ => ?_⟩
      · rw [List.range_succ, List.foldl_append, hfold, List.foldl_cons, List.foldl_nil]
        rcases hlook with hl | ⟨hl, hl'⟩
        · simp only [lexTurn, hl]
        · simp only [lexTurn, hl, hl']
      · rw [List.forall_mem_append, List.forall_mem_singleton]
        exact ⟨hb, refBelow_neg.mpr ht⟩
      · have hneg := getBoolAssignment_neg (σ := σ) ht.1
        rw [neg, htv σ hσ] at hneg
        rw [List.map_append, List.range_succ, List.map_append, hv σ hσ, List.map_singleton,
          List.map_singleton, hneg]
  obtain ⟨c, hfold, hb, hv⟩ := loop (length - 1) le_rfl
  have he : r.boolArraysLexImplication arr1 arr2 length =
      (c ++ [-(arr1.getD (length - 1) 0), arr2.getD (length - 1) 0], r) := by
    rw [boolArraysLexImplication, hfold]
  obtain ⟨b1, b2⟩ := href (length - 1) (by omega)
  rw [he]
  refine ⟨rfl, ?_, fun σ hσ => clause_iff hlen hpos hle b1.1 (hv σ hσ)⟩
  rw [List.forall_mem_append]
  refine ⟨hb, ?_⟩
  simp only [List.forall_mem_cons, List.not_mem_nil, false_implies, implies_true, and_true]
  exact ⟨refBelow_neg.mpr (b1.mono h.posts.le), b2.mono h.posts.le⟩

/-! ## A fresh reducer -/

theorem new_spec (n : Nat) (idx : CanonicalIndexing) :
    Numbered 1 0 n (new n idx).adjMatrix ∧ (new n idx).nextBoolID = 1 + n * (n - 1) / 2 := by
  have hiter : ∀ k m : Nat, (fun s => s + 1)^[k] m = m + k := by
    intro k
    induction k with
    | zero => exact fun m => rfl
    | succ k ih =>
      intro m
      rw [Function.iterate_succ_apply', ih]
      rfl
  have h := numberPairs_spec (fun m : Nat => m) (fun m => m + 1) (fun g _ => g) (n := n) (d := 0)
    (fun _ => rfl) 1 fun g i hr hc hi h0 => ⟨hr, hc, fun a b _ _ => by
      by_cases hab : a = i ∧ b = i
      · rw [if_pos hab, hab.1, hab.2, h0]
      · rw [if_neg hab]⟩
  rw [hiter] at h
  exact h

/-- The string of the edge variables. -/
def edges (r : LexImplicationsReducer) : List Int := indexing r.idx r.adjMatrix

/-- The string of the edge variables of the permuted graph. -/
def edgesAt (r : LexImplicationsReducer) (imp : LexImplication) : List Int :=
  indexing r.idx (r.adjMatrix.permute imp.perm)

theorem Inv.edges (h : Inv n r₀ r) : r.edges = r₀.edges := by
  rw [LexImplicationsReducer.edges, LexImplicationsReducer.edges, h.adj, h.idx]

theorem Inv.edgesAt (h : Inv n r₀ r) (imp : LexImplication) : r.edgesAt imp = r₀.edgesAt imp := by
  rw [LexImplicationsReducer.edgesAt, LexImplicationsReducer.edgesAt, h.adj, h.idx]

/-- The reducer has only numbered the pairs of `n` vertices. -/
structure Fresh (n : Nat) (r : LexImplicationsReducer) : Prop where
  adj : Numbered 1 0 n r.adjMatrix
  nextBoolID : r.nextBoolID = 1 + n * (n - 1) / 2
  cache : r.iffReifCache = []

theorem fresh_new (n : Nat) (idx : CanonicalIndexing) (subgraphStr : List Char) :
    Fresh n (newSubgraph n idx subgraphStr) :=
  ⟨(new_spec n idx).1, (new_spec n idx).2, rfl⟩

section Fresh

variable (h₀ : Fresh n r₀)
include h₀

theorem Fresh.nVars : (view r₀).nVars = n * (n - 1) / 2 := by
  show r₀.nextBoolID - 1 = _
  rw [h₀.nextBoolID]
  omega

theorem Fresh.clauses : (view r₀).clauses = [] := by
  rw [view, h₀.cache]
  rfl

theorem Fresh.edgeRefs : EdgeRefs (view r₀).nVars n r₀.adjMatrix :=
  h₀.adj.edgeRefs (by omega) (by rw [h₀.nVars]; omega)

theorem Fresh.inv : Inv n r₀ r₀ where
  adj := rfl
  idx := rfl
  sub := rfl
  pos := by rw [h₀.nextBoolID]; omega
  posts := posts_refl (by rw [Ok, h₀.clauses]; exact below_nil _)
  cacheOk := by
    intro b1 b2 t ht
    simp [view, h₀.cache] at ht

theorem Fresh.length_edges : r₀.edges.length = n * (n - 1) / 2 :=
  length_indexing h₀.adj.nRows h₀.adj.nCols _

theorem Fresh.length_edgesAt (imp : LexImplication) :
    (r₀.edgesAt imp).length = n * (n - 1) / 2 :=
  length_indexing ((nRows_permute _).trans h₀.adj.nRows) ((nCols_permute _).trans h₀.adj.nCols) _

theorem Fresh.refsAt {imp : LexImplication} (hv : Graph.Valid n imp) :
    RefsAt r₀ r₀.edges (r₀.edgesAt imp) imp.length := by
  obtain ⟨⟨m, hm, hp⟩, -, hle⟩ := hv
  intro j hj
  exact ⟨refBelow_getD (refBelow_indexing _ h₀.adj.nRows h₀.adj.nCols h₀.edgeRefs)
      (by show j < r₀.edges.length; rw [h₀.length_edges]; omega),
    refBelow_getD (refBelow_indexing_permute _ h₀.adj.nRows h₀.adj.nCols h₀.edgeRefs hp hm)
      (by show j < (r₀.edgesAt imp).length; rw [h₀.length_edgesAt]; omega)⟩

/-- The lex implication of the edge variables is that of the graph. -/
theorem Fresh.implication_iff {G : Graph n} (hG : ReadsEdges σ r₀.adjMatrix G)
    {imp : LexImplication} (hv : Graph.Valid n imp) :
    Lex.Implication imp.length (values σ r₀.edges) (values σ (r₀.edgesAt imp)) ↔
      Graph.SatisfiesImp r₀.idx imp G := by
  obtain ⟨⟨m, hm, hp⟩, -, -⟩ := hv
  rw [LexImplicationsReducer.edges, LexImplicationsReducer.edgesAt,
    values_indexing h₀.adj.nRows h₀.adj.nCols hG,
    values_indexing_permute h₀.adj.nRows h₀.adj.nCols hG hp hm]
  rfl

/-! ## The writers -/

/-- The pairs of an implication are cached. -/
def CachedImp (r₀ r : LexImplicationsReducer) (imp : LexImplication) : Prop :=
  ∀ j < imp.length - 1, Cached r (r₀.edges.getD j 0) ((r₀.edgesAt imp).getD j 0)

omit h₀ in
theorem Grows.cachedImp (h : Grows rf rf') {imp : LexImplication} (hc : CachedImp r₀ rf.1 imp) :
    CachedImp r₀ rf'.1 imp :=
  fun j hj => h.cached _ _ (hc j hj)

/-- The definitions for one implication. -/
theorem tseitinsAt_spec (h : Inv n r₀ rf.1) {imp : LexImplication} (hv : Graph.Valid n imp) :
    Inv n r₀ (tseitins r₀.edges (rf.1.edgesAt imp) imp.length rf).1 ∧
      Grows rf (tseitins r₀.edges (rf.1.edgesAt imp) imp.length rf) ∧
      CachedImp r₀ (tseitins r₀.edges (rf.1.edgesAt imp) imp.length rf).1 imp := by
  rw [h.edgesAt imp]
  exact tseitins_spec h fun j hj => h₀.refsAt hv j (by omega)

/-- **The definitions for a list of implications.** -/
theorem tseitinLoop_spec (imps : List LexImplication) (rf : LexImplicationsReducer × List Line)
    (h : Inv n r₀ rf.1) (hv : ∀ imp ∈ imps, Graph.Valid n imp) :
    let rf' := imps.foldl (fun rf imp => tseitins r₀.edges (rf.1.edgesAt imp) imp.length rf) rf
    Inv n r₀ rf'.1 ∧ Grows rf rf' ∧ ∀ imp ∈ imps, CachedImp r₀ rf'.1 imp := by
  induction imps generalizing rf with
  | nil => exact ⟨h, Grows.refl rf, by simp⟩
  | cons imp imps ih =>
    rw [List.forall_mem_cons] at hv
    obtain ⟨hi, hg, hc⟩ := tseitinsAt_spec h₀ h hv.1
    obtain ⟨hi', hg', hc'⟩ := ih _ hi hv.2
    rw [List.foldl_cons]
    refine ⟨hi', hg.trans hg', ?_⟩
    rw [List.forall_mem_cons]
    exact ⟨hg'.cachedImp hc, hc'⟩

/-- The clause of an implication whose pairs are cached. -/
theorem clauseAt_spec (h : Inv n r₀ r) {imp : LexImplication} (hv : Graph.Valid n imp)
    (hc : CachedImp r₀ r imp) :
    (r.boolArraysLexImplication r₀.edges (r.edgesAt imp) imp.length).2 = r ∧
      ∀ σ, Sat σ (view r).clauses → (ClauseHolds σ (lineClause
          ((r.boolArraysLexImplication r₀.edges (r.edgesAt imp) imp.length).1 ++ [0])) ↔
        Lex.Implication imp.length (values σ r₀.edges) (values σ (r₀.edgesAt imp))) := by
  rw [h.edgesAt imp]
  obtain ⟨he, hb, hv'⟩ := lexImplication_spec h (h₀.length_edges.trans (h₀.length_edgesAt imp).symm)
    hv.pos (by rw [h₀.length_edges]; exact hv.le) (h₀.refsAt hv) hc
  refine ⟨he, fun σ hσ => ?_⟩
  rw [lineClause_append fun b hb' => (hb b hb').1, ← hv' σ hσ]
  simp [ClauseHolds, getBoolAssignment]

/-- The lines of the implications file, once the pairs are cached. -/
theorem impLines_eq (h : Inv n r₀ r) {imps : List LexImplication}
    (hv : ∀ imp ∈ imps, Graph.Valid n imp) (hc : ∀ imp ∈ imps, CachedImp r₀ r imp) :
    r.impLines imps = (r, imps.map fun imp =>
      (r.boolArraysLexImplication r₀.edges (r.edgesAt imp) imp.length).1 ++ [0]) := by
  have loop : ∀ (imps : List LexImplication) (lines : List Line),
      (∀ imp ∈ imps, Graph.Valid n imp) → (∀ imp ∈ imps, CachedImp r₀ r imp) →
      imps.foldl (fun (rl : LexImplicationsReducer × List Line) imp =>
        ((rl.1.boolArraysLexImplication r₀.edges (rl.1.edgesAt imp) imp.length).2,
          rl.2 ++
            [(rl.1.boolArraysLexImplication r₀.edges (rl.1.edgesAt imp) imp.length).1 ++ [0]]))
        (r, lines) = (r, lines ++ imps.map fun imp =>
          (r.boolArraysLexImplication r₀.edges (r.edgesAt imp) imp.length).1 ++ [0]) := by
    intro imps
    induction imps with
    | nil => exact fun lines _ _ => by simp
    | cons imp imps ih =>
      intro lines hv hc
      rw [List.forall_mem_cons] at hv hc
      rw [List.foldl_cons]
      simp only [(clauseAt_spec h₀ h hv.1 hc.1).1]
      rw [ih _ hv.2 hc.2, List.append_assoc, List.singleton_append, List.map_cons]
  have hfold := loop imps [] hv hc
  rw [List.nil_append] at hfold
  rw [← hfold, ← h.edges]
  rfl

/-- **The implications file**: line `i` says the `i`-th implication. -/
theorem impLines_spec (h : Inv n r₀ r) {imps : List LexImplication}
    (hv : ∀ imp ∈ imps, Graph.Valid n imp) (hc : ∀ imp ∈ imps, CachedImp r₀ r imp) :
    ∃ lines, r.impLines imps = (r, lines) ∧ List.Forall₂ (fun imp line =>
      ∀ σ, Sat σ (view r).clauses → (ClauseHolds σ (lineClause line) ↔
        Lex.Implication imp.length (values σ r₀.edges) (values σ (r₀.edgesAt imp))))
        imps lines := by
  refine ⟨_, impLines_eq h₀ h hv hc, ?_⟩
  rw [List.forall₂_map_right_iff]
  exact List.forall₂_same.mpr fun imp himp => (clauseAt_spec h₀ h (hv imp himp) (hc imp himp)).2

/-- What a Tseitin file says: the definitions in the cache, and `P`. -/
structure FileSays (rf : LexImplicationsReducer × List Line) (P : Assignment → Prop) : Prop where
  defs : ∀ l ∈ defLines rf.1.iffReifCache, l ∈ rf.2
  sat : ∀ σ, Sat σ (fileFormula rf.2) ↔ Sat σ (view rf.1).clauses ∧ P σ

omit h₀ in
theorem FileSays.grows {P : Assignment → Prop} (h : FileSays rf P) (hg : Grows rf rf') :
    FileSays rf' P := by
  obtain ⟨new, h1, h2⟩ := hg.lines
  refine ⟨fun l hl => ?_, fun σ => ?_⟩
  · rw [h2] at hl
    rw [h1]
    rcases List.mem_append.mp hl with hl | hl
    · exact List.mem_append_left _ (h.defs l hl)
    · exact List.mem_append_right _ hl
  · have hσ := h.sat σ
    simp only [view] at hσ ⊢
    rw [h1, h2, fileFormula_append, fileFormula_append, sat_append, sat_append, hσ]
    tauto

omit h₀ in
theorem FileSays.append {P Q : Assignment → Prop} (h : FileSays rf P) (lines : List Line)
    (hl : ∀ σ, Sat σ (view rf.1).clauses → (Sat σ (fileFormula lines) ↔ Q σ)) :
    FileSays (rf.1, rf.2 ++ lines) fun σ => P σ ∧ Q σ := by
  refine ⟨fun l hl => List.mem_append_left _ (h.defs l hl), fun σ => ?_⟩
  rw [fileFormula_append, sat_append, h.sat σ]
  have := hl σ
  tauto

/-- The same reducer, with lines before those of its file. -/
def addLines (lines : List Line) (rf : LexImplicationsReducer × List Line) :
    LexImplicationsReducer × List Line :=
  (rf.1, lines ++ rf.2)

omit h₀ in
theorem addLines_tseitinTurn (lines : List Line) (rf : LexImplicationsReducer × List Line)
    (j : Nat) :
    tseitinTurn arr1 arr2 (addLines lines rf) j = addLines lines (tseitinTurn arr1 arr2 rf j) := by
  obtain ⟨r, tsFile⟩ := rf
  change tseitinTurn arr1 arr2 (r, lines ++ tsFile) j = _
  simp only [tseitinTurn]
  by_cases hno : r.iffReifCache.lookup (arr1.getD j 0, arr2.getD j 0) = none ∧
      r.iffReifCache.lookup (arr2.getD j 0, arr1.getD j 0) = none
  · rw [if_pos hno, if_pos hno, List.append_assoc]
    rfl
  · rw [if_neg hno, if_neg hno]
    rfl

omit h₀ in
theorem addLines_tseitins (lines : List Line) (arr1 arr2 : List Int) (length : Nat)
    (rf : LexImplicationsReducer × List Line) :
    tseitins arr1 arr2 length (addLines lines rf) = addLines lines (tseitins arr1 arr2 length rf) :=
  List.foldl_hom (addLines lines) (addLines_tseitinTurn lines)

omit h₀ in
theorem addLines_tseitinLoop (lines : List Line) (imps : List LexImplication)
    (rf : LexImplicationsReducer × List Line) :
    imps.foldl (fun rf imp => tseitins arr1 (rf.1.edgesAt imp) imp.length rf) (addLines lines rf) =
      addLines lines
        (imps.foldl (fun rf imp => tseitins arr1 (rf.1.edgesAt imp) imp.length rf) rf) :=
  List.foldl_hom (addLines lines) fun _ imp => addLines_tseitins lines arr1 _ imp.length _

omit h₀ in
/-- A file begun with the definitions in the cache says them and no more. -/
theorem fileSays_defLines (r : LexImplicationsReducer) :
    FileSays (addLines (defLines r.iffReifCache) (r, [])) fun _ => True := by
  refine ⟨fun l hl => ?_, fun σ => ?_⟩
  · exact List.mem_append_left _ hl
  · rw [and_true, addLines, List.append_nil]
    rfl

omit h₀ in
/-- The lines of a reducer in use hold wherever the definitions of its cache, those written to
earlier files among them, and `P` do. -/
theorem FileSays.sound {P : Assignment → Prop} {lines : List Line}
    (h : FileSays (addLines lines rf) P) (hσ : Sat σ (view rf.1).clauses) (hP : P σ) :
    Sat σ (fileFormula rf.2) := by
  have hall := (h.sat σ).mpr ⟨hσ, hP⟩
  rw [addLines, fileFormula_append, sat_append] at hall
  exact hall.2

/-- A fresh reducer has no definitions to add. -/
theorem Fresh.addLines (rf : LexImplicationsReducer × List Line) :
    LexImplicationsReducer.addLines (defLines r₀.iffReifCache) rf = rf := by
  rw [h₀.cache]
  rfl

omit h₀ in
theorem writeTseiten_eq (h : Inv n r₀ r) (imps : List LexImplication) :
    r.writeTseitenCnfFile imps =
      imps.foldl (fun rf imp => tseitins r₀.edges (rf.1.edgesAt imp) imp.length rf) (r, []) := by
  rw [← h.edges]
  rfl

omit h₀ in
theorem writeTseitenDelta_eq (h : Inv n r₀ r) (imps delta : List LexImplication) :
    r.writeTseitenCnfFileDelta imps delta =
      (fun rf : LexImplicationsReducer × List Line => (rf.1, rf.2 ++ rf.1.subgraphUnits))
        (delta.foldl (fun rf imp => tseitins r₀.edges (rf.1.edgesAt imp) imp.length rf)
          (imps.foldl (givenTurn r₀.edges) (r, []))) := by
  rw [← h.edges]
  rfl

/-- **The Tseitin file of `reduce`** holds, with the definitions of earlier calls, the definitions
and nothing else. -/
theorem writeTseiten_spec (h : Inv n r₀ r) {imps : List LexImplication}
    (hv : ∀ imp ∈ imps, Graph.Valid n imp) :
    let rf := r.writeTseitenCnfFile imps
    Inv n r₀ rf.1 ∧ FileSays (addLines (defLines r.iffReifCache) rf) (fun _ => True) ∧
      ∀ imp ∈ imps, CachedImp r₀ rf.1 imp := by
  obtain ⟨hi, hg, hc⟩ := tseitinLoop_spec h₀ imps (addLines (defLines r.iffReifCache) (r, [])) h hv
  rw [addLines_tseitinLoop, ← writeTseiten_eq h] at hi hg hc
  exact ⟨hi, (fileSays_defLines r).grows hg, hc⟩

/-- The implications of the list hold of the edge variables. -/
def HoldAll (r₀ : LexImplicationsReducer) (imps : List LexImplication) (σ : Assignment) : Prop :=
  ∀ imp ∈ imps, Lex.Implication imp.length (values σ r₀.edges) (values σ (r₀.edgesAt imp))

/-- The turn, on a reducer in use. -/
theorem givenTurn_eq (h : Inv n r₀ rf.1) {imp : LexImplication} (hv : Graph.Valid n imp) :
    let rf' := tseitins r₀.edges (rf.1.edgesAt imp) imp.length rf
    givenTurn r₀.edges rf imp = (rf'.1,
      rf'.2 ++ [(rf'.1.boolArraysLexImplication r₀.edges (rf'.1.edgesAt imp) imp.length).1 ++
        [0]]) := by
  intro rf'
  obtain ⟨hi, -, hc⟩ := tseitinsAt_spec h₀ h hv
  obtain ⟨he, -⟩ := clauseAt_spec h₀ hi hv hc
  refine Prod.ext ?_ ?_
  · rw [hi.edgesAt imp, ← h.edgesAt imp] at he
    exact he
  · simp only [rf']
    rw [hi.edgesAt imp, ← h.edgesAt imp]
    rfl

theorem givenTurn_spec {P : Assignment → Prop} (h : Inv n r₀ rf.1) (hf : FileSays rf P)
    {imp : LexImplication} (hv : Graph.Valid n imp) :
    Inv n r₀ (givenTurn r₀.edges rf imp).1 ∧ FileSays (givenTurn r₀.edges rf imp) fun σ =>
      P σ ∧ Lex.Implication imp.length (values σ r₀.edges) (values σ (r₀.edgesAt imp)) := by
  obtain ⟨hi, hg, hc⟩ := tseitinsAt_spec h₀ h hv
  obtain ⟨-, hcl⟩ := clauseAt_spec h₀ hi hv hc
  rw [givenTurn_eq h₀ h hv]
  refine ⟨hi, (hf.grows hg).append _ fun σ hσ => ?_⟩
  rw [← hcl σ hσ]
  simp [fileFormula]

omit h₀ in
theorem addLines_givenTurn (lines : List Line) (rf : LexImplicationsReducer × List Line)
    (imp : LexImplication) :
    givenTurn arr1 (addLines lines rf) imp = addLines lines (givenTurn arr1 rf imp) := by
  have e := addLines_tseitins lines arr1 (rf.1.edgesAt imp) imp.length rf
  simp only [edgesAt, addLines] at e
  simp only [givenTurn, addLines, e, List.append_assoc]

/-- The definitions and the clauses of the implications given. -/
theorem givenLoop_spec (imps : List LexImplication) (rf : LexImplicationsReducer × List Line)
    (P : Assignment → Prop) (h : Inv n r₀ rf.1) (hf : FileSays rf P)
    (hv : ∀ imp ∈ imps, Graph.Valid n imp) :
    Inv n r₀ (imps.foldl (givenTurn r₀.edges) rf).1 ∧
      FileSays (imps.foldl (givenTurn r₀.edges) rf) fun σ => P σ ∧ HoldAll r₀ imps σ := by
  induction imps generalizing rf P with
  | nil => exact ⟨h, by simpa [HoldAll] using hf⟩
  | cons imp imps ih =>
    rw [List.forall_mem_cons] at hv
    obtain ⟨hi, hf₁⟩ := givenTurn_spec h₀ h hf hv.1
    obtain ⟨hi', hf'⟩ := ih _ _ hi hf₁ hv.2
    rw [List.foldl_cons]
    refine ⟨hi', ⟨hf'.defs, fun σ => ?_⟩⟩
    rw [hf'.sat σ]
    simp only [HoldAll, List.forall_mem_cons, and_assoc]

/-- The units of a subgraph. -/
theorem sat_subgraphUnits (h : Inv n r₀ r) {k : Nat} {H : Graph k} (hk : k ≤ n)
    (hs : r₀.subgraphStr = H.subgraphString) {G : Graph n} (hG : ReadsEdges σ r₀.adjMatrix G) :
    Sat σ (fileFormula r.subgraphUnits) ↔ G.induce k = H := by
  have hunit : ∀ t < k * k, (∀ l ∈ (if r.adjMatrix.get (t / k) (t % k) ≠ 0 then
      [[(if H.subgraphString.getD t '0' = '0' then -1 else 1) *
        r.adjMatrix.get (t / k) (t % k), 0]] else [] : List Line), ClauseHolds σ (lineClause l)) ↔
      G.adj (t / k) (t % k) = H.adj (t / k) (t % k) := by
    intro t ht
    obtain ⟨h1, h2⟩ := div_mod_lt ht
    rw [h.adj]
    by_cases hne : t / k = t % k
    · rw [hne, h₀.adj.diag _ (by omega), if_neg (by simp), G.irrefl, H.irrefl]
      simp
    · have hb := h₀.edgeRefs _ (show t / k < n by omega) _ (show t % k < n by omega) hne
      have hval := hG _ (show t / k < n by omega) _ (show t % k < n by omega) hne
      have hline : ∀ x : Int, x ≠ 0 → lineClause [x, 0] = [toLit x] := fun x hx => by
        simp [lineClause, hx]
      have hneg := getBoolAssignment_neg (σ := σ) hb.1
      rw [neg] at hneg
      rw [if_pos hb.1, ← hval]
      simp only [List.mem_singleton, forall_eq, H.getD_subgraphString ht]
      cases H.adj (t / k) (t % k)
      · rw [if_pos rfl, neg_one_mul, hline _ (by simpa using hb.1)]
        simpa [ClauseHolds, getBoolAssignment] using hneg
      · rw [if_neg (by simp), one_mul, hline _ hb.1]
        simp [ClauseHolds, getBoolAssignment]
  rw [Graph.induce_eq_iff, subgraphUnits, h.sub, hs, Graph.sqrt_length_subgraphString,
    Graph.length_subgraphString]
  rw [sat_fileFormula]
  simp only [List.mem_flatMap, List.mem_range, forall_exists_index, and_imp]
  exact ⟨fun hall t ht => (hunit t ht).mp fun l hl => hall l t ht hl,
    fun hall l t ht hl => (hunit t ht).mpr (hall t ht) l hl⟩

/-- **The Tseitin file of `reduceDelta`** holds, with the definitions of earlier calls, the
definitions, the implications given and the units of the subgraph. -/
theorem writeTseitenDelta_spec (h : Inv n r₀ r) {imps delta : List LexImplication}
    (hv : ∀ imp ∈ imps, Graph.Valid n imp) (hd : ∀ imp ∈ delta, Graph.Valid n imp) :
    let rf := r.writeTseitenCnfFileDelta imps delta
    Inv n r₀ rf.1 ∧ FileSays (addLines (defLines r.iffReifCache) rf) (fun σ => HoldAll r₀ imps σ ∧
      Sat σ (fileFormula rf.1.subgraphUnits)) ∧ ∀ imp ∈ delta, CachedImp r₀ rf.1 imp := by
  obtain ⟨hi, hf⟩ := givenLoop_spec h₀ imps (addLines (defLines r.iffReifCache) (r, [])) _ h
    (fileSays_defLines r) hv
  obtain ⟨hi', hg, hc⟩ := tseitinLoop_spec h₀ delta _ hi hd
  have hgiven : imps.foldl (givenTurn r₀.edges) (addLines (defLines r.iffReifCache) (r, [])) =
      addLines (defLines r.iffReifCache) (imps.foldl (givenTurn r₀.edges) (r, [])) :=
    List.foldl_hom _ (addLines_givenTurn _)
  rw [hgiven] at hi' hf hg hc
  rw [addLines_tseitinLoop] at hi' hg hc
  rw [writeTseitenDelta_eq h]
  generalize delta.foldl (fun rf imp => tseitins r₀.edges (rf.1.edgesAt imp) imp.length rf)
    (imps.foldl (givenTurn r₀.edges) (r, [])) = rf at *
  have hfile := (hf.grows hg).append rf.1.subgraphUnits fun _ _ => Iff.rfl
  rw [addLines, List.append_assoc] at hfile
  exact ⟨hi', ⟨hfile.defs, fun σ => by rw [addLines, hfile.sat σ, true_and]⟩, hc⟩

end Fresh

/-! ## The output -/

theorem atoi_toDigits (k : Nat) : atoi (Nat.toDigits 10 k) = k := by
  have hdig : ∀ c ∈ Nat.toDigits 10 k, c.isDigit = true :=
    fun c hc => Nat.isDigit_of_mem_toDigits (by omega) (by omega) hc
  have hval : Nat.ofDigitChars 10 ((Nat.toDigits 10 k).takeWhile Char.isDigit) 0 = k := by
    have htake : (Nat.toDigits 10 k).takeWhile Char.isDigit = Nat.toDigits 10 k := by
      rw [List.takeWhile_eq_self_iff]
      exact hdig
    rw [htake, Nat.ofDigitChars_toDigits (by omega) (by omega)]
  obtain ⟨c, cs, he⟩ := List.exists_cons_of_ne_nil (Nat.toDigits_ne_nil (n := k) (b := 10))
  have hc : c.isDigit = true := hdig c (by simp [he])
  have hspace : c.isWhitespace = false := by
    by_contra hw
    rw [Bool.not_eq_false] at hw
    simp only [Char.isWhitespace, Bool.or_eq_true, decide_eq_true_eq] at hw
    rcases hw with ((rfl | rfl) | rfl) | rfl <;> exact absurd hc (by decide)
  have hdrop : (Nat.toDigits 10 k).dropWhile Char.isWhitespace = c :: cs := by
    rw [he, List.dropWhile_cons_of_neg (by simp [hspace])]
  rw [he] at hval
  rw [atoi, hdrop]
  split
  · rename_i heq
    obtain ⟨rfl, -⟩ := List.cons.inj heq
    exact absurd hc (by decide)
  · rename_i heq
    obtain ⟨rfl, -⟩ := List.cons.inj heq
    exact absurd hc (by decide)
  · simp only [hval]

theorem forall₂_getElem? {α β : Type} {R : α → β → Prop} {l : List α} {l' : List β}
    (h : List.Forall₂ R l l') : ∀ {i : Nat} {a : α}, l[i]? = some a →
      ∃ b, l'[i]? = some b ∧ R a b := by
  induction h with
  | nil => exact fun h => absurd h (by simp)
  | cons hab _ ih =>
    intro i a ha
    cases i with
    | zero =>
      rw [List.getElem?_cons_zero] at ha
      cases ha
      exact ⟨_, List.getElem?_cons_zero, hab⟩
    | succ i =>
      rw [List.getElem?_cons_succ] at ha
      obtain ⟨b, hb, hR⟩ := ih ha
      exact ⟨b, by rw [List.getElem?_cons_succ, hb], hR⟩

/-- The numbers read back from lines that hold `1`-based numbers. -/
theorem map_atoi {kept : List Nat} {lines : List (List Char)}
    (h : List.Forall₂ (fun i line => ∃ c, line = Nat.toDigits 10 (i + 1) ++ [c]) kept lines) :
    (lines.map fun line => atoi line.dropLast - 1) = kept.map fun i : Nat => (i : Int) := by
  induction h with
  | nil => rfl
  | cons hab _ ih =>
    obtain ⟨c, rfl⟩ := hab
    rw [List.map_cons, List.map_cons, ih, List.dropLast_concat, atoi_toDigits]
    congr 1
    omega

theorem mapM_nth {imps : List LexImplication} (kept : List Nat) (h : ∀ i ∈ kept, i < imps.length) :
    (kept.map fun i : Nat => (i : Int)).mapM (nth imps) = .ok (kept.map (imps.getD · default)) := by
  induction kept with
  | nil => rfl
  | cons i kept ih =>
    rw [List.forall_mem_cons] at h
    have hi : nth imps (i : Int) = .ok (imps.getD i default) := by
      show nth imps (Int.ofNat i) = _
      simp only [nth, List.getElem?_eq_getElem h.1, List.getD_eq_getElem _ _ h.1]
    rw [List.map_cons, List.mapM_cons, hi, ih h.2]
    rfl

section Reduce

variable (h₀ : Fresh n r₀) (h : Inv n r₀ r) {glucoseReducer : GlucoseReducer}
  (hred : glucoseReducer.Correct)
include h₀ h hred

omit h₀ h in
/-- **Running the reducer** returns some of the implications, and these entail the others wherever
the Tseitin file holds. -/
theorem runReducer_spec {P : Assignment → Prop}
    (hf : ∀ σ, Sat σ (view rf.1).clauses → P σ → Sat σ (fileFormula rf.2))
    {imps : List LexImplication} {impFile : ImpFile} (hl : List.Forall₂ (fun imp line =>
      ∀ σ, Sat σ (view rf.1).clauses → (ClauseHolds σ (lineClause line) ↔
        Lex.Implication imp.length (values σ r₀.edges) (values σ (r₀.edgesAt imp))))
      imps impFile.lines) :
    ∃ reduced, (runReducer glucoseReducer rf.2 impFile).mapM (nth imps) = .ok reduced ∧
      (∀ imp ∈ reduced, imp ∈ imps) ∧ ∀ σ, Sat σ (view rf.1).clauses → P σ →
        HoldAll r₀ reduced σ → HoldAll r₀ imps σ := by
  obtain ⟨kept, hk, hlt, hent⟩ := hred rf.2 impFile
  rw [← hl.length_eq] at hlt
  refine ⟨kept.map (imps.getD · default), ?_, ?_, ?_⟩
  · rw [runReducer, map_atoi hk]
    exact mapM_nth kept hlt
  · intro imp himp
    obtain ⟨i, hi, rfl⟩ := List.mem_map.mp himp
    rw [List.getD_eq_getElem _ _ (hlt i hi)]
    exact List.getElem_mem _
  · intro σ hσ hP hall
    have hfile := hent σ (hf σ hσ hP) fun i hi l hline => by
      obtain ⟨l', hl', hiff⟩ := forall₂_getElem? hl (List.getElem?_eq_getElem (hlt i hi))
      obtain rfl : l = l' := Option.some.inj (hline.symm.trans hl')
      rw [hiff σ hσ]
      refine hall _ (List.mem_map.mpr ⟨i, hi, ?_⟩)
      rw [List.getD_eq_getElem _ _ (hlt i hi)]
    rw [sat_fileFormula] at hfile
    intro imp himp
    obtain ⟨i, hi, rfl⟩ := List.getElem_of_mem himp
    obtain ⟨l, hline, hiff⟩ := forall₂_getElem? hl (List.getElem?_eq_getElem hi)
    exact (hiff σ hσ).mp (hfile l (List.mem_of_getElem? hline))

omit hred in
/-- Every graph is read off some assignment in which the definitions hold. -/
theorem exists_reads (G : Graph n) :
    ∃ σ, ReadsEdges σ r₀.adjMatrix G ∧ Sat σ (view r).clauses := by
  let α : Assignment := fun v =>
    G.adj ((upperPairs n).getD v (0, 0)).1 ((upperPairs n).getD v (0, 0)).2
  have hα : ReadsEdges α r₀.adjMatrix G := by
    refine h₀.adj.readsEdges_of (by omega) fun k i j hk => ?_
    have hd : (upperPairs n).getD (1 - 1 + k) (0, 0) = (i, j) := by
      rw [show 1 - 1 + k = k by omega, List.getD_eq_getElem?_getD, hk, Option.getD_some]
    simp only [α, hd]
  obtain ⟨σ, hag, hσ⟩ := h.posts.ext.complete α (by rw [h₀.clauses]; exact sat_nil α) trivial
  exact ⟨σ, h₀.adj.readsEdges_congr (by omega) (by rw [h₀.nVars]; omega) hα hag, hσ⟩

omit h hred in
theorem holdAll_iff {G : Graph n} (hG : ReadsEdges σ r₀.adjMatrix G) {imps : List LexImplication}
    (hv : ∀ imp ∈ imps, Graph.Valid n imp) :
    HoldAll r₀ imps σ ↔ Graph.Satisfies r₀.idx imps G :=
  forall₂_congr fun imp himp => h₀.implication_iff hG (hv imp himp)

/-- **`reduce`** returns implications of the list that are equivalent to it on every graph. -/
theorem reduce_spec {imps : List LexImplication} (hv : ∀ imp ∈ imps, Graph.Valid n imp) :
    ∃ reduced, r.reduce glucoseReducer imps = .ok reduced ∧ (∀ imp ∈ reduced, imp ∈ imps) ∧
      ∀ G : Graph n, Graph.Satisfies r₀.idx reduced G → Graph.Satisfies r₀.idx imps G := by
  obtain ⟨hi, hf, hc⟩ := writeTseiten_spec h₀ h hv
  obtain ⟨lines, hlines, hl⟩ := impLines_spec h₀ hi hv hc
  have hfile : ((r.writeTseitenCnfFile imps).1.writeImplicationsCnfFile imps).2.lines = lines := by
    rw [writeImplicationsCnfFile, hlines]
  rw [← hfile] at hl
  obtain ⟨reduced, he, hsub, hent⟩ := runReducer_spec hred (fun _ => hf.sound) hl
  refine ⟨reduced, he, hsub, fun G hG => ?_⟩
  obtain ⟨σ, hread, hσ⟩ := exists_reads h₀ hi G
  rw [← holdAll_iff h₀ hread hv]
  exact hent σ hσ trivial ((holdAll_iff h₀ hread fun imp himp => hv imp (hsub imp himp)).mpr hG)

/-- **`reduceDelta`** returns implications of the delta that are equivalent to it on every graph
that satisfies the implications given and contains the subgraph. -/
theorem reduceDelta_spec {imps delta : List LexImplication}
    (hv : ∀ imp ∈ imps, Graph.Valid n imp) (hd : ∀ imp ∈ delta, Graph.Valid n imp) {k : Nat}
    {H : Graph k} (hk : k ≤ n) (hs : r₀.subgraphStr = H.subgraphString) :
    ∃ reduced, r.reduceDelta glucoseReducer imps delta = .ok reduced ∧
      (∀ imp ∈ reduced, imp ∈ delta) ∧ ∀ G : Graph n, Graph.Satisfies r₀.idx imps G →
        G.induce k = H → Graph.Satisfies r₀.idx reduced G → Graph.Satisfies r₀.idx delta G := by
  obtain ⟨hi, hf, hc⟩ := writeTseitenDelta_spec h₀ h hv hd
  obtain ⟨lines, hlines, hl⟩ := impLines_spec h₀ hi hd hc
  have hfile : ((r.writeTseitenCnfFileDelta imps delta).1.writeImplicationsCnfFileDelta
      imps delta).2.lines = lines := by
    rw [writeImplicationsCnfFileDelta, hlines]
  rw [← hfile] at hl
  obtain ⟨reduced, he, hsub, hent⟩ := runReducer_spec hred (fun _ => hf.sound) hl
  refine ⟨reduced, he, hsub, fun G himps hH hG => ?_⟩
  obtain ⟨σ, hread, hσ⟩ := exists_reads h₀ hi G
  rw [← holdAll_iff h₀ hread hd]
  exact hent σ hσ ⟨(holdAll_iff h₀ hread hv).mpr himps,
    (sat_subgraphUnits h₀ hi hk hs hread).mpr hH⟩
    ((holdAll_iff h₀ hread fun imp himp => hd imp (hsub imp himp)).mpr hG)

end Reduce

/-! ## The files are exact -/

/-- The constructor, with a subgraph or without. -/
def construct (n : Nat) (idx : CanonicalIndexing) {k : Nat} : Option (Graph k) →
    LexImplicationsReducer
  | none => new n idx
  | some H => newSubgraph n idx H.subgraphString

/-- `boolArraysLexImplication` of the constraint solver, on the model of `n` vertices, can be
satisfied with `g1 = G`. -/
def PostedHolds (idx : CanonicalIndexing) (imp : LexImplication) (G : Graph n) : Prop :=
  ∃ s, (declare n).solver.boolArraysLexImplication (indexing idx (declare n).g1)
      (indexing idx ((declare n).g1.permute imp.perm)) imp.length = .ok s ∧
    ∃ τ, Sat τ s.clauses ∧ Reads τ (declare n).g1 G

/-- The constraint solver posts the lex implication. -/
theorem postedHolds_iff {imp : LexImplication} (hv : Graph.Valid n imp) {G : Graph n} :
    PostedHolds idx imp G ↔ Graph.SatisfiesImp idx imp G := by
  obtain ⟨s, hs, hp⟩ := (posted_declare n).lexImplication idx hv
  constructor
  · rintro ⟨s', hs', τ, hτ, hread⟩
    obtain rfl : s = s' := Except.ok.inj (hs.symm.trans hs')
    obtain ⟨-, -, himp⟩ := hp.model hτ
    have h0 : τ 0 = true := (((declared n).sat τ).mp (hp.choose_spec.1.ext.sat_old hτ)).1
    have hg : graphOf n τ (declare n).g1 = G := reads_unique
      (((declared n).g1.readsEdges_graphOf (by omega) τ).reads (declared n).g1 h0) hread
    rwa [hg] at himp
  · intro himp
    obtain ⟨τ, hτ, he⟩ := hp.exists_model (A := G) (B := G) (List.Perm.refl _) ⟨trivial, himp⟩
    exact ⟨s, hs, τ, hτ, he.g1⟩

/-- The assignment `α` of the edge variables extends in one way, to `σ`, to the variables that
`defs` defines, and under `σ` each clause of `lines` says the lex implication of `imps` in its
place, which is also what the constraint solver posts for it. -/
structure Exact (n : Nat) (idx : CanonicalIndexing) (defs : List Line) (vars : Nat)
    (imps : List LexImplication) (lines : List Line) (α : Assignment) (G : Graph n)
    (σ : Assignment) : Prop where
  edges : AgreeBelow (n * (n - 1) / 2) α σ
  holds : Sat σ (fileFormula defs)
  unique : ∀ τ, AgreeBelow (n * (n - 1) / 2) α τ → Sat τ (fileFormula defs) → AgreeBelow vars σ τ
  clauses : List.Forall₂ (fun imp line =>
    (ClauseHolds σ (lineClause line) ↔ Graph.SatisfiesImp idx imp G) ∧
      (ClauseHolds σ (lineClause line) ↔ PostedHolds idx imp G)) imps lines

theorem exact_of_inv (h₀ : Fresh n r₀) (h : Inv n r₀ r) {imps : List LexImplication}
    (hv : ∀ imp ∈ imps, Graph.Valid n imp) {lines : List Line} (hl : List.Forall₂ (fun imp line =>
      ∀ σ, Sat σ (view r).clauses → (ClauseHolds σ (lineClause line) ↔
        Lex.Implication imp.length (values σ r₀.edges) (values σ (r₀.edgesAt imp)))) imps lines)
    (α : Assignment) : ∃ σ, ReadsEdges σ r₀.adjMatrix (graphOf n α r₀.adjMatrix) ∧
      Exact n r₀.idx (defLines r.iffReifCache) (r.nextBoolID - 1) imps lines α
        (graphOf n α r₀.adjMatrix) σ := by
  obtain ⟨σ, hag, hσ⟩ := h.posts.ext.complete α (by rw [h₀.clauses]; exact sat_nil α) trivial
  have hread := h₀.adj.readsEdges_congr (by omega) (by rw [h₀.nVars]; omega)
    (h₀.adj.readsEdges_graphOf (by omega) α) hag
  rw [h₀.nVars] at hag
  refine ⟨σ, hread, hag, hσ, fun τ hατ hτ => ?_, ?_⟩
  · refine h.posts.ext.unique σ τ hσ hτ ?_
    rw [h₀.nVars]
    exact hag.symm.trans hατ
  · rw [List.forall₂_iff_get] at hl ⊢
    refine ⟨hl.1, fun i hi hi' => ?_⟩
    have himp := hv _ (List.get_mem imps ⟨i, hi⟩)
    have hiff := (hl.2 i hi hi' σ hσ).trans (h₀.implication_iff hread himp)
    exact ⟨hiff, hiff.trans (postedHolds_iff himp).symm⟩

theorem fresh_construct (n : Nat) (idx : CanonicalIndexing) {k : Nat} (sub : Option (Graph k)) :
    Fresh n (construct n idx sub) := by
  cases sub with
  | none => exact fresh_new n idx []
  | some H => exact fresh_new n idx H.subgraphString

theorem idx_construct (n : Nat) (idx : CanonicalIndexing) {k : Nat} (sub : Option (Graph k)) :
    (construct n idx sub).idx = idx := by
  cases sub <;> rfl

/-- **`reduce`** on a reducer in use. -/
theorem reduce_construct {k : Nat} {sub : Option (Graph k)} (h : Inv n (construct n idx sub) r)
    {glucoseReducer : GlucoseReducer} (hred : glucoseReducer.Correct) {imps : List LexImplication}
    (hv : ∀ imp ∈ imps, Graph.Valid n imp) :
    ∃ reduced, r.reduce glucoseReducer imps = .ok reduced ∧ (∀ imp ∈ reduced, imp ∈ imps) ∧
      ∀ G : Graph n, Graph.Satisfies idx reduced G → Graph.Satisfies idx imps G := by
  have hr := reduce_spec (fresh_construct n idx sub) h hred hv
  rwa [idx_construct] at hr

/-- **`reduceDelta`** on a reducer in use. -/
theorem reduceDelta_construct {k : Nat} (hk : k ≤ n) {sub : Option (Graph k)}
    (h : Inv n (construct n idx sub) r) {glucoseReducer : GlucoseReducer}
    (hred : glucoseReducer.Correct) {imps delta : List LexImplication}
    (hv : ∀ imp ∈ imps, Graph.Valid n imp) (hd : ∀ imp ∈ delta, Graph.Valid n imp) :
    ∃ reduced, r.reduceDelta glucoseReducer imps delta = .ok reduced ∧
      (∀ imp ∈ reduced, imp ∈ delta) ∧ ∀ G : Graph n, Graph.Satisfies idx imps G →
        (∀ H ∈ sub, G.induce k = H) → Graph.Satisfies idx reduced G →
          Graph.Satisfies idx delta G := by
  cases sub with
  | none =>
    -- no subgraph is the subgraph without vertices
    obtain ⟨reduced, he, hsub, heq⟩ := reduceDelta_spec (fresh_new n idx []) h hred hv hd
      (H := Graph.empty 0) (Nat.zero_le n) (List.eq_nil_of_length_eq_zero (by simp)).symm
    exact ⟨reduced, he, hsub, fun G himps _ =>
      heq G himps (Graph.ext_of_lt fun i j hi _ => absurd hi (Nat.not_lt_zero i))⟩
  | some H =>
    obtain ⟨reduced, he, hsub, heq⟩ := reduceDelta_spec (fresh_new n idx H.subgraphString) h hred
      hv hd hk rfl
    exact ⟨reduced, he, hsub, fun G himps hH => heq G himps (hH H rfl)⟩

/-- **The files of `reduce` are exact.** -/
theorem reduceFiles_exact (h₀ : Fresh n r₀) {leximps : List LexImplication}
    (hl : ∀ imp ∈ leximps, Graph.Valid n imp) (α : Assignment) :
    let rf := r₀.writeTseitenCnfFile leximps
    let impFile := (rf.1.writeImplicationsCnfFile leximps).2
    ∃ σ, Exact n r₀.idx rf.2 impFile.vars leximps impFile.lines α
      (graphOf n α r₀.adjMatrix) σ := by
  obtain ⟨hi, hf, hc⟩ := writeTseiten_spec h₀ h₀.inv hl
  rw [h₀.addLines] at hf
  obtain ⟨lines, hlines, hall⟩ := impLines_spec h₀ hi hl hc
  obtain ⟨σ, -, hex⟩ := exact_of_inv h₀ hi hl hall α
  have hsat : ∀ τ, Sat τ (fileFormula (r₀.writeTseitenCnfFile leximps).2) ↔
      Sat τ (view (r₀.writeTseitenCnfFile leximps).1).clauses := fun τ => by
    have := hf.sat τ
    rwa [and_true] at this
  refine ⟨σ, hex.edges, (hsat σ).mpr hex.holds,
    fun τ hατ hτ => hex.unique τ hατ ((hsat τ).mp hτ), ?_⟩
  have hfile : ((r₀.writeTseitenCnfFile leximps).1.writeImplicationsCnfFile leximps).2.lines =
      lines := by
    change _ = (_, _) at hlines
    rw [writeImplicationsCnfFile]
    erw [hlines]
  simp only [hfile]
  exact hex.clauses

theorem deltaFiles_of_fresh (h₀ : Fresh n r₀) {leximps delta : List LexImplication}
    (hl : ∀ imp ∈ leximps, Graph.Valid n imp) (hd : ∀ imp ∈ delta, Graph.Valid n imp) {k : Nat}
    (hk : k ≤ n) {H : Graph k} (hs : r₀.subgraphStr = H.subgraphString) (α : Assignment) :
    let rf := r₀.writeTseitenCnfFileDelta leximps delta
    let impFile := (rf.1.writeImplicationsCnfFileDelta leximps delta).2
    let G := graphOf n α r₀.adjMatrix
    (∀ l ∈ defLines rf.1.iffReifCache, l ∈ rf.2) ∧
      (∃ σ, Exact n r₀.idx (defLines rf.1.iffReifCache) impFile.vars delta impFile.lines α G σ) ∧
      ((∃ τ, AgreeBelow (n * (n - 1) / 2) α τ ∧ Sat τ (fileFormula rf.2)) ↔
        Graph.Satisfies r₀.idx leximps G ∧ G.induce k = H) := by
  obtain ⟨hi, hf, hc⟩ := writeTseitenDelta_spec h₀ h₀.inv hl hd
  rw [h₀.addLines] at hf
  obtain ⟨lines, hlines, hall⟩ := impLines_spec h₀ hi hd hc
  obtain ⟨σ, hread, hex⟩ := exact_of_inv h₀ hi hd hall α
  have hfile : ((r₀.writeTseitenCnfFileDelta leximps delta).1.writeImplicationsCnfFileDelta
      leximps delta).2.lines = lines := by
    rw [writeImplicationsCnfFileDelta, hlines]
  -- what the file says besides the definitions, in any assignment that gives the graph
  have hrest : ∀ τ, ReadsEdges τ r₀.adjMatrix (graphOf n α r₀.adjMatrix) →
      ((HoldAll r₀ leximps τ ∧ Sat τ (fileFormula (subgraphUnits
        (r₀.writeTseitenCnfFileDelta leximps delta).1))) ↔
        Graph.Satisfies r₀.idx leximps (graphOf n α r₀.adjMatrix) ∧
          (graphOf n α r₀.adjMatrix).induce k = H) :=
    fun τ hτ => and_congr (holdAll_iff h₀ hτ hl) (sat_subgraphUnits h₀ hi hk hs hτ)
  refine ⟨hf.defs, ⟨σ, hex.edges, hex.holds, hex.unique, ?_⟩, ?_, fun h => ?_⟩
  · simp only [hfile]
    exact hex.clauses
  · rintro ⟨τ, hag, hτ⟩
    have hτread := h₀.adj.readsEdges_congr (by omega) (by omega)
      (h₀.adj.readsEdges_graphOf (by omega) α) hag
    exact (hrest τ hτread).mp ((hf.sat τ).mp hτ).2
  · exact ⟨σ, hex.edges, (hf.sat σ).mpr ⟨hex.holds, (hrest σ hread).mpr h⟩⟩

/-- **The files of `reduceDelta` are exact**: moreover the Tseitin file can be satisfied over an
assignment of the edge variables iff the graph satisfies every implication given and contains the
subgraph. -/
theorem reduceDeltaFiles_exact (n : Nat) (idx : CanonicalIndexing)
    {leximps delta : List LexImplication} (hl : ∀ imp ∈ leximps, Graph.Valid n imp)
    (hd : ∀ imp ∈ delta, Graph.Valid n imp) {k : Nat} (hk : k ≤ n) (sub : Option (Graph k))
    (α : Assignment) :
    let r₀ := construct n idx sub
    let rf := r₀.writeTseitenCnfFileDelta leximps delta
    let impFile := (rf.1.writeImplicationsCnfFileDelta leximps delta).2
    let G := graphOf n α r₀.adjMatrix
    (∀ l ∈ defLines rf.1.iffReifCache, l ∈ rf.2) ∧
      (∃ σ, Exact n idx (defLines rf.1.iffReifCache) impFile.vars delta impFile.lines α G σ) ∧
      ((∃ τ, AgreeBelow (n * (n - 1) / 2) α τ ∧ Sat τ (fileFormula rf.2)) ↔
        Graph.Satisfies idx leximps G ∧ ∀ H ∈ sub, G.induce k = H) := by
  cases sub with
  | none =>
    -- no subgraph is the subgraph without vertices
    let H : Graph 0 := (graphOf n α (new n idx).adjMatrix).induce 0
    have hs : (new n idx).subgraphStr = H.subgraphString :=
      (List.eq_nil_of_length_eq_zero (by simp)).symm
    obtain ⟨h1, h2, h3⟩ := deltaFiles_of_fresh (fresh_new n idx []) hl hd (Nat.zero_le n) hs α
    refine ⟨h1, h2, h3.trans (and_congr_right fun _ => ?_)⟩
    simp [H]
    rfl
  | some H =>
    obtain ⟨h1, h2, h3⟩ := deltaFiles_of_fresh (fresh_new n idx H.subgraphString) hl hd hk rfl α
    refine ⟨h1, h2, h3.trans (and_congr_right fun _ => ?_)⟩
    simp [construct]

/-- **The reducer decides redundancy for the relation that the constraint solver posts.** For lists
of implications of permutations of at most `n` vertices and a fresh reducer: every assignment of the
edge variables extends in one way to the variables that the Tseitin file defines, and then clause
`i` of the implications file is true iff the graph satisfies the `i`-th lex implication, of
`leximps` in `reduce` and of `delta` in `reduceDelta`; in `reduceDelta` the Tseitin file is
satisfiable over an assignment of the edge variables iff the graph satisfies every implication of
`leximps` and, when a subgraph was given, its first `k` vertices induce it. -/
theorem reducer_exact (n : Nat) (idx : CanonicalIndexing) (leximps delta : List LexImplication)
    (hl : ∀ imp ∈ leximps, Graph.Valid n imp) (hd : ∀ imp ∈ delta, Graph.Valid n imp) {k : Nat}
    (hk : k ≤ n) (sub : Option (Graph k)) (α : Assignment) :
    (let rf := (construct n idx sub).writeTseitenCnfFile leximps
      let impFile := (rf.1.writeImplicationsCnfFile leximps).2
      ∃ σ, Exact n idx rf.2 impFile.vars leximps impFile.lines α
        (graphOf n α (construct n idx sub).adjMatrix) σ) ∧
    (let rf := (construct n idx sub).writeTseitenCnfFileDelta leximps delta
      let impFile := (rf.1.writeImplicationsCnfFileDelta leximps delta).2
      let G := graphOf n α (construct n idx sub).adjMatrix
      (∀ l ∈ defLines rf.1.iffReifCache, l ∈ rf.2) ∧
        (∃ σ, Exact n idx (defLines rf.1.iffReifCache) impFile.vars delta impFile.lines α G σ) ∧
        ((∃ τ, AgreeBelow (n * (n - 1) / 2) α τ ∧ Sat τ (fileFormula rf.2)) ↔
          Graph.Satisfies idx leximps G ∧ ∀ H ∈ sub, G.induce k = H)) := by
  have hreduce := reduceFiles_exact (fresh_construct n idx sub) hl α
  rw [idx_construct] at hreduce
  exact ⟨hreduce, reduceDeltaFiles_exact n idx hl hd hk sub α⟩

/-- Two swaps of three vertices to reduce, a rotation in the delta, two vertices without an edge. -/
theorem reducer_exact_three :
    let imps : List LexImplication := [⟨[1, 0], 2⟩, ⟨[0, 2, 1], 3⟩]
    let r₀ := construct 3 .upperTriangleRows (some (Graph.empty 2))
    let rf := r₀.writeTseitenCnfFile imps
    let impFile := (rf.1.writeImplicationsCnfFile imps).2
    ∃ σ, Exact 3 .upperTriangleRows rf.2 impFile.vars imps impFile.lines (fun _ => false)
      (graphOf 3 (fun _ => false) r₀.adjMatrix) σ :=
  (reducer_exact 3 .upperTriangleRows [⟨[1, 0], 2⟩, ⟨[0, 2, 1], 3⟩] [⟨[1, 2, 0], 1⟩]
    (by
      simp only [List.forall_mem_cons, List.not_mem_nil, false_implies, implies_true, and_true]
      exact ⟨⟨⟨2, by decide, by decide⟩, by decide, by decide⟩, ⟨3, le_rfl, by decide⟩, by decide,
        by decide⟩)
    (by
      simp only [List.forall_mem_cons, List.not_mem_nil, false_implies, implies_true, and_true]
      exact ⟨⟨3, le_rfl, by decide⟩, by decide, by decide⟩)
    (k := 2) (by decide) (some (Graph.empty 2)) (fun _ => false)).1

end LexImplicationsReducer

end SymBreak
