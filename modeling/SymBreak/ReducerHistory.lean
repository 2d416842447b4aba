import SymBreak.ReducerFiles

/-!
# Reducing again on the same object

The cache and the counter of `LexImplicationsReducer` live as long as the object, its files are
begun anew by every call, and a definition is written only when its pair enters the cache
(`core/LexImplicationsReducer.cc:78-164`). So a call misses the definitions of the pairs that an
earlier call needed.

Results:
* `defined_iff`: the file defines the variables of some lines iff their pairs were not cached
  before the call;
* `WriteSpec.means`: where it defines them all, the files say the implications and nothing else;
* `FilesMean.sameFiles`: and then they say what those of a fresh object do;
* **`writes_complete_iff`**: in every run of calls, which of them miss a definition.
-/

namespace SymBreak.LexImplicationsReducer

open Cnf Matrix ConstraintSolver

variable {n : Nat} {r₀ r r' : LexImplicationsReducer} {rf : LexImplicationsReducer × List Line}
  {cache new : IffReifCache} {imp : LexImplication} {given imps : List LexImplication}
  {σ τ : Assignment}

/-! ## Definitions that are in the file -/

/-- Every variable in the lines that is not an edge is cached for a pair, and the four lines that
define it are in the file. -/
def Defined (E : Nat) (cache : IffReifCache) (tsFile lines : List Line) : Prop :=
  ∀ l ∈ lines, ∀ b ∈ l, E < b.natAbs → ∃ b1 b2, ((b1, b2), (b.natAbs : Int)) ∈ cache ∧
    ∀ d ∈ tseitinLines b1 b2 b.natAbs, d ∈ tsFile

/-- No pair before the last position of one of the implications is cached. -/
def Uncached (r : LexImplicationsReducer) (imps : List LexImplication) : Prop :=
  ∀ imp ∈ imps, ∀ j < imp.length - 1,
    ¬ Cached r (r.edges.getD j 0) ((r.edgesAt imp).getD j 0)

theorem Inv.uncached_iff (h : Inv n r₀ r) : Uncached r imps ↔ ∀ imp ∈ imps, ∀ j < imp.length - 1,
    ¬ Cached r (r₀.edges.getD j 0) ((r₀.edgesAt imp).getD j 0) := by
  unfold Uncached
  rw [h.edges]
  simp only [h.edgesAt]

/-- A number in the line of an implication: a literal of an edge, or the variable of a pair. -/
theorem ClauseLine.mem (h₀ : Fresh n r₀) (hv : Graph.Valid n imp) {l : Line}
    (h : ClauseLine r₀ cache imp l) {b : Int} (hb : b ∈ l) : b.natAbs ≤ (view r₀).nVars ∨
      ∃ j < imp.length - 1, Entry cache (r₀.edges.getD j 0) ((r₀.edgesAt imp).getD j 0) (-b) := by
  obtain ⟨ts, hlen, rfl, hts⟩ := h
  have hpos := hv.pos
  obtain ⟨h1, h2⟩ := h₀.refsAt hv (imp.length - 1) (by omega)
  rcases List.mem_append.mp hb with hb | hb
  · rcases List.mem_append.mp hb with hb | hb
    · obtain ⟨t, ht, rfl⟩ := List.mem_map.mp hb
      obtain ⟨j, hj, rfl⟩ := List.getElem_of_mem ht
      have hentry := hts j (by omega)
      rw [List.getD_eq_getElem _ _ hj] at hentry
      exact Or.inr ⟨j, by omega, by rwa [neg_neg]⟩
    · rcases List.mem_pair.mp hb with rfl | rfl
      · rw [Int.natAbs_neg]
        exact Or.inl h1.2
      · exact Or.inl h2.2
  · rw [List.mem_singleton.mp hb]
    exact Or.inl (Nat.zero_le _)

theorem ClauseLine.exists_mem {l : Line} (h : ClauseLine r₀ cache imp l) {j : Nat}
    (hj : j < imp.length - 1) :
    ∃ t, -t ∈ l ∧ Entry cache (r₀.edges.getD j 0) ((r₀.edgesAt imp).getD j 0) t := by
  obtain ⟨ts, hlen, rfl, hts⟩ := h
  refine ⟨_, List.mem_append_left _ (List.mem_append_left _ (List.mem_map.mpr
    ⟨ts.getD j 0, ?_, rfl⟩)), hts j hj⟩
  rw [List.getD_eq_getElem _ _ (by omega)]
  exact List.getElem_mem _

theorem CacheRefs.entry_bounds {E : Nat} (h : CacheRefs E r) {b1 b2 t : Int}
    (he : Entry r.iffReifCache b1 b2 t) :
    (E : Int) < t ∧ t < (r.nextBoolID : Int) := by
  rcases he with he | he
  · exact (h.entry _ he).2.2
  · exact (h.entry _ he).2.2

/-- The entry of a pair that was not cached is a new one. -/
theorem Wrote.mem_new (h : Wrote r₀ r new given rf) {b1 b2 t : Int} (hun : ¬ Cached r b1 b2)
    (he : Entry rf.1.iffReifCache b1 b2 t) : Entry new b1 b2 t := by
  unfold Entry at he
  rw [h.cache, List.mem_append, List.mem_append] at he
  rcases he with (he | he) | (he | he)
  · exact Or.inl he
  · exact absurd (cached_iff.mpr ⟨t, Or.inl he⟩) hun
  · exact Or.inr he
  · exact absurd (cached_iff.mpr ⟨t, Or.inr he⟩) hun

/-- The entry of a pair that was cached is an old one. -/
theorem Wrote.mem_old (h : Wrote r₀ r new given rf) {b1 b2 t : Int} (hc : Cached r b1 b2)
    (he : Entry rf.1.iffReifCache b1 b2 t) : Entry r.iffReifCache b1 b2 t := by
  have hc' : Cached r b2 b1 := by
    obtain ⟨t, ht⟩ := cached_iff.mp hc
    exact cached_iff.mpr ⟨t, ht.symm⟩
  unfold Entry at he
  rw [h.cache, List.mem_append, List.mem_append] at he
  rcases he with (he | he) | (he | he)
  · exact absurd hc (h.uncached _ he)
  · exact Or.inl he
  · exact absurd hc' (h.uncached _ he)
  · exact Or.inr he

/-- The lines that a new entry defines are in the file. -/
theorem WriteSpec.mem_tsFile {request : Request} {lines : List Line}
    (h : WriteSpec n r₀ r request new lines) {e : (Int × Int) × Int} (he : e ∈ new) :
    ∀ d ∈ tseitinLines e.1.1 e.1.2 e.2, d ∈ (request.write r).2.1 := by
  intro d hd
  rw [h.tsFile]
  exact List.mem_append_left _ (h.wrote.defs d (mem_defLines.mpr ⟨e, he, hd⟩))

/-- **A variable from before the call is not defined in the file.** -/
theorem WriteSpec.not_defined {request : Request} {lines : List Line} (h₀ : Fresh n r₀) {k : Nat}
    (hs : SubgraphStr n k r₀.subgraphStr) (hv : request.Valid n)
    (h : WriteSpec n r₀ r request new lines) {b1 b2 t : Int} (hE : ((view r₀).nVars : Int) < t)
    (hold : t < r.nextBoolID) (hd : ∀ d ∈ tseitinLines b1 b2 t, d ∈ (request.write r).2.1) :
    False := by
  have hline : [b1, b2, t, 0] ∈ (request.write r).2.1 := hd _ List.mem_cons_self
  rw [h.tsFile] at hline
  rcases List.mem_append.mp hline with hline | hline
  · rcases h.wrote.only _ hline with hdef | ⟨imp, himp, ts, hlen, hcl, -⟩
    · -- the definitions are of newer variables
      obtain ⟨e, he, hl⟩ := mem_defLines.mp hdef
      have hnew := h.wrote.fresh e he
      have ht : t = e.2 ∨ t = -e.2 := by
        simp only [tseitinLines, List.mem_cons, List.cons.injEq, List.not_mem_nil, or_false] at hl
        rcases hl with hl | hl | hl | hl
        · exact Or.inl hl.2.2.1
        · exact Or.inl hl.2.2.1
        · exact Or.inr hl.2.2.1
        · exact Or.inr hl.2.2.1
      generalize e.2 = u at hnew ht
      have hnew' : (r.nextBoolID : Int) ≤ u := hnew
      omega
    · -- the third number of a clause of four is an edge
      have hpos := (hv.1 imp himp).pos
      obtain ⟨-, h2⟩ := h₀.refsAt (hv.1 imp himp) (imp.length - 1) (by omega)
      have hone : ts.length = 1 := by
        have := congrArg List.length hcl
        simp only [List.length_cons, List.length_nil, List.length_append, List.length_map] at this
        omega
      obtain ⟨u, rfl⟩ := List.length_eq_one_iff.mp hone
      simp only [List.map_cons, List.map_nil, List.cons_append, List.nil_append,
        List.cons.injEq] at hcl
      have hle := h2.2
      rw [← hcl.2.2.1] at hle
      omega
  · cases request with
    | reduce leximps => exact absurd hline List.not_mem_nil
    | reduceDelta leximps delta =>
      obtain ⟨x, -, hx⟩ := mem_subgraphUnits h₀ h.inv hs hline
      simp at hx

/-- The variable of a new entry is defined in the file. -/
theorem WriteSpec.defined_new {request : Request} {lines : List Line}
    (h : WriteSpec n r₀ r request new lines) {b1 b2 t : Int} (hnew : Entry new b1 b2 t) :
    ∃ b1 b2, ((b1, b2), t) ∈ (request.write r).1.iffReifCache ∧
      ∀ d ∈ tseitinLines b1 b2 t, d ∈ (request.write r).2.1 := by
  have hsub : ∀ e ∈ new, e ∈ (request.write r).1.iffReifCache := fun e he => by
    rw [show (request.write r).1.iffReifCache = new ++ r.iffReifCache from h.wrote.cache]
    exact List.mem_append_left _ he
  rcases hnew with hnew | hnew
  · exact ⟨_, _, hsub _ hnew, h.mem_tsFile hnew⟩
  · exact ⟨_, _, hsub _ hnew, h.mem_tsFile hnew⟩

/-- A number in the definition of an entry: a literal of an edge, or the variable. -/
theorem CacheRefs.mem_tseitinLines {E : Nat} (h : CacheRefs E r) {e : (Int × Int) × Int}
    (he : e ∈ r.iffReifCache) {d : Line} (hd : d ∈ tseitinLines e.1.1 e.1.2 e.2) {b : Int}
    (hb : b ∈ d) : b.natAbs ≤ E ∨ ((b.natAbs : Nat) : Int) = e.2 := by
  obtain ⟨⟨-, h1⟩, ⟨-, h2⟩, h3, -⟩ := h.entry e he
  have h3' : (E : Int) < (e.2 : Int) := h3
  generalize e.1.1 = b1 at hd h1
  generalize e.1.2 = b2 at hd h2
  generalize e.2 = t at hd h3'
  simp only [tseitinLines, List.mem_cons, List.not_mem_nil, or_false] at hd
  rcases hd with rfl | rfl | rfl | rfl <;>
    simp only [List.mem_cons, List.not_mem_nil, or_false] at hb <;> omega

/-- **The file defines the variables of the lines of some implications iff no pair of them was
cached before the call.** -/
theorem WriteSpec.defined_iff {request : Request} {lines : List Line} (h₀ : Fresh n r₀) {k : Nat}
    (hs : SubgraphStr n k r₀.subgraphStr) (hi : Inv n r₀ r) (hrefs : CacheRefs (view r₀).nVars r)
    (hv : request.Valid n) (h : WriteSpec n r₀ r request new lines) {imps : List LexImplication}
    (himps : ∀ imp ∈ imps, Graph.Valid n imp) {L : List Line}
    (hall : ∀ l ∈ L, l ∈ defLines new ∨
      (∃ imp ∈ imps, ClauseLine r₀ (request.write r).1.iffReifCache imp l) ∨
        ∃ x, RefBelow (view r₀).nVars x ∧ l = [x, 0])
    (hex : ∀ imp ∈ imps, ∃ l ∈ L, ClauseLine r₀ (request.write r).1.iffReifCache imp l) :
    Defined (view r₀).nVars (request.write r).1.iffReifCache (request.write r).2.1 L ↔
      Uncached r imps := by
  rw [hi.uncached_iff]
  have hw := h.wrote
  constructor
  · intro hdef imp himp j hj hcached
    -- the clause names the old variable
    obtain ⟨l, hl, hline⟩ := hex imp himp
    obtain ⟨t, ht, hentry⟩ := hline.exists_mem hj
    have hold := hrefs.entry_bounds (hw.mem_old hcached hentry)
    have habs : (((-t).natAbs : Nat) : Int) = t := by
      rw [Int.natAbs_neg]
      omega
    obtain ⟨b1, b2, -, hlines⟩ := hdef l hl (-t) ht (by omega)
    rw [habs] at hlines
    exact h.not_defined h₀ hs hv hold.1 hold.2 hlines
  · intro hun l hl b hb hlt
    rcases hall l hl with hdef | ⟨imp, himp, hline⟩ | ⟨x, hx, rfl⟩
    · obtain ⟨e, he, hd⟩ := mem_defLines.mp hdef
      have hmem : e ∈ (request.write r).1.iffReifCache := by
        rw [show (request.write r).1.iffReifCache = new ++ r.iffReifCache from hw.cache]
        exact List.mem_append_left _ he
      rw [(hw.refs.mem_tseitinLines hmem hd hb).resolve_left (by omega)]
      exact h.defined_new (Or.inl he)
    · rcases hline.mem h₀ (himps imp himp) hb with hle | ⟨j, hj, hentry⟩
      · omega
      · have hpos := (hw.refs.entry_bounds hentry).1
        rw [show ((b.natAbs : Nat) : Int) = -b by omega]
        exact h.defined_new (hw.mem_new (hun imp himp j hj) hentry)
    · have hle := hx.2
      rcases List.mem_pair.mp hb with rfl | rfl
      · omega
      · simp at hlt

section Call

variable {request : Request} {lines : List Line} (h₀ : Fresh n r₀) {k : Nat}
  (hs : SubgraphStr n k r₀.subgraphStr) (hi : Inv n r₀ r) (hrefs : CacheRefs (view r₀).nVars r)
  (hv : request.Valid n) (h : WriteSpec n r₀ r request new lines)
include h₀ hs hi hrefs hv h

/-- The lines of the implications file. -/
theorem WriteSpec.input_defined_iff :
    Defined (view r₀).nVars (request.write r).1.iffReifCache (request.write r).2.1
      (request.write r).2.2.lines ↔ Uncached r request.input := by
  have hline := fun imp himp => clauseLine_of_cached h.inv (h.cached imp himp)
  refine h.defined_iff h₀ hs hi hrefs hv hv.2 (fun l hl => ?_) fun imp himp => ?_
  · rw [h.impFile] at hl
    obtain ⟨imp, himp, rfl⟩ := List.mem_map.mp hl
    exact Or.inr (Or.inl ⟨imp, himp, hline imp himp⟩)
  · rw [h.impFile]
    exact ⟨_, List.mem_map.mpr ⟨imp, himp, rfl⟩, hline imp himp⟩

/-- The lines of both files. -/
theorem WriteSpec.all_defined_iff :
    Defined (view r₀).nVars (request.write r).1.iffReifCache (request.write r).2.1
      ((request.write r).2.1 ++ (request.write r).2.2.lines) ↔
        Uncached r (request.given ++ request.input) := by
  have hline := fun imp himp => clauseLine_of_cached h.inv (h.cached imp himp)
  refine h.defined_iff h₀ hs hi hrefs hv (List.forall_mem_append.mpr hv) (fun l hl => ?_)
    fun imp himp => ?_
  · rcases List.mem_append.mp hl with hl | hl
    · rw [h.tsFile] at hl
      rcases List.mem_append.mp hl with hl | hl
      · rcases h.wrote.only l hl with hdef | ⟨imp, himp, hcl⟩
        · exact Or.inl hdef
        · exact Or.inr (Or.inl ⟨imp, List.mem_append_left _ himp, hcl⟩)
      · cases request with
        | reduce leximps => exact absurd hl List.not_mem_nil
        | reduceDelta leximps delta =>
          exact Or.inr (Or.inr (mem_subgraphUnits h₀ h.inv hs hl))
    · rw [h.impFile] at hl
      obtain ⟨imp, himp, rfl⟩ := List.mem_map.mp hl
      exact Or.inr (Or.inl ⟨imp, List.mem_append_right _ himp, hline imp himp⟩)
  · rcases List.mem_append.mp himp with himp | himp
    · obtain ⟨l, hl, hcl⟩ := h.wrote.clauses imp himp
      refine ⟨l, List.mem_append_left _ ?_, hcl⟩
      rw [h.tsFile]
      exact List.mem_append_left _ hl
    · refine ⟨_, List.mem_append_right _ ?_, hline imp himp⟩
      rw [h.impFile]
      exact List.mem_map.mpr ⟨imp, himp, rfl⟩

end Call

/-! ## What the files say -/

/-- The value of a literal that the file defines, where the definitions of the cache hold. -/
theorem value_of_defined (hi : Inv n r₀ r) (hrefs : CacheRefs (view r₀).nVars r)
    {tsFile lines : List Line} (hdef : Defined (view r₀).nVars r.iffReifCache tsFile lines)
    (hag : AgreeBelow (view r₀).nVars σ τ) (hσ : Sat σ (fileFormula tsFile))
    (hτ : Sat τ (view r).clauses) {l : Line} (hl : l ∈ lines) {b : Int} (hb : b ∈ l)
    (hb0 : b ≠ 0) : getBoolAssignment σ b = getBoolAssignment τ b := by
  by_cases hlt : (view r₀).nVars < b.natAbs
  · obtain ⟨b1, b2, hentry, hlines⟩ := hdef l hl b hb hlt
    obtain ⟨h1, h2, -⟩ := hrefs.entry _ hentry
    have ht : ((b.natAbs : Nat) : Int) ≠ 0 := by omega
    have hmeans : Means σ (iffReif b1 b2 b.natAbs) := by
      rw [← sat_map_toLit, ← fileFormula_tseitinLines h1.1 h2.1 ht, sat_fileFormula]
      exact fun d hd => sat_fileFormula.mp hσ d (hlines d hd)
    have habs : getBoolAssignment σ (b.natAbs : Int) = getBoolAssignment τ (b.natAbs : Int) := by
      rw [(means_iffReif h1.1 h2.1 ht).mp hmeans, (hi.cacheOk _ _ _ hentry).2 τ hτ,
        getBoolAssignment_congr hag h1, getBoolAssignment_congr hag h2]
    rcases Int.natAbs_eq b with he | he
    · rwa [← he] at habs
    · have hneg : b = neg (b.natAbs : Int) := he
      rw [hneg, getBoolAssignment_neg ht, getBoolAssignment_neg ht, habs]
  · exact getBoolAssignment_congr hag ⟨hb0, by omega⟩

theorem clauseHolds_of_defined (hi : Inv n r₀ r) (hrefs : CacheRefs (view r₀).nVars r)
    {tsFile lines : List Line} (hdef : Defined (view r₀).nVars r.iffReifCache tsFile lines)
    (hag : AgreeBelow (view r₀).nVars σ τ) (hσ : Sat σ (fileFormula tsFile))
    (hτ : Sat τ (view r).clauses) {l : Line} (hl : l ∈ lines) :
    ClauseHolds σ (lineClause l) ↔ ClauseHolds τ (lineClause l) := by
  have hiff : ∀ b ∈ l.takeWhile (· ≠ 0), (toLit b).eval σ = (toLit b).eval τ := fun b hb =>
    value_of_defined hi hrefs hdef hag hσ hτ hl (List.takeWhile_subset _ hb)
      (by simpa using List.mem_takeWhile_imp hb)
  unfold ClauseHolds lineClause
  simp only [List.mem_map, exists_exists_and_eq_and]
  exact exists_congr fun b => and_congr_right fun hb => by rw [hiff b hb]

/-- What a call asks of the edges besides its implications. -/
def Request.Ground (r₀ : LexImplicationsReducer) (request : Request) (σ : Assignment) : Prop :=
  HoldAll r₀ request.given σ ∧ Sat σ (fileFormula (request.units r₀))

/-- **The two files say their implications**: the Tseitin file can be satisfied with the edges that
the call admits, and then a line of the implications file says its implication. -/
structure FilesMean (r₀ : LexImplicationsReducer) (request : Request)
    (tsFile lines : List Line) : Prop where
  complete : ∀ α, request.Ground r₀ α →
    ∃ σ, AgreeBelow (view r₀).nVars α σ ∧ Sat σ (fileFormula tsFile)
  sound : ∀ σ, Sat σ (fileFormula tsFile) → request.Ground r₀ σ
  lines : List.Forall₂ (fun imp line => ∀ σ, Sat σ (fileFormula tsFile) →
    (ClauseHolds σ (lineClause line) ↔
      Lex.Implication imp.length (values σ r₀.edges) (values σ (r₀.edgesAt imp))))
    request.input lines

section Fresh

variable (h₀ : Fresh n r₀)
include h₀

theorem Fresh.implication_congr (hag : AgreeBelow (view r₀).nVars σ τ)
    (hv : Graph.Valid n imp) :
    Lex.Implication imp.length (values σ r₀.edges) (values σ (r₀.edgesAt imp)) ↔
      Lex.Implication imp.length (values τ r₀.edges) (values τ (r₀.edgesAt imp)) := by
  obtain ⟨⟨m, hm, hp⟩, -, -⟩ := hv
  rw [LexImplicationsReducer.edges, LexImplicationsReducer.edgesAt,
    values_congr hag (refBelow_indexing _ h₀.adj.nRows h₀.adj.nCols h₀.edgeRefs),
    values_congr hag (refBelow_indexing_permute _ h₀.adj.nRows h₀.adj.nCols h₀.edgeRefs hp hm)]

theorem Fresh.holdAll_congr (hag : AgreeBelow (view r₀).nVars σ τ)
    (hv : ∀ imp ∈ imps, Graph.Valid n imp) : HoldAll r₀ imps σ ↔ HoldAll r₀ imps τ :=
  forall₂_congr fun imp himp => h₀.implication_congr hag (hv imp himp)

theorem Fresh.ground_congr {k : Nat} (hs : SubgraphStr n k r₀.subgraphStr) {request : Request}
    (hv : request.Valid n) (hag : AgreeBelow (view r₀).nVars σ τ) :
    request.Ground r₀ σ ↔ request.Ground r₀ τ := by
  refine and_congr (h₀.holdAll_congr hag hv.1) (hag.sat ?_)
  intro c hc
  obtain ⟨l, hl, rfl⟩ := List.mem_map.mp hc
  cases request with
  | reduce leximps => exact absurd hl List.not_mem_nil
  | reduceDelta leximps delta =>
    obtain ⟨x, hx, rfl⟩ := mem_subgraphUnits h₀ h₀.inv hs hl
    have hline : lineClause [x, 0] = [toLit x] := by simp [lineClause, hx.1]
    rw [hline]
    intro lit hlit
    rw [List.mem_singleton.mp hlit]
    exact hx.toLit_lt

end Fresh

theorem Inv.units (hi : Inv n r₀ r) (request : Request) : request.units r = request.units r₀ := by
  cases request with
  | reduce leximps => rfl
  | reduceDelta leximps delta =>
    simp only [Request.units, subgraphUnits, hi.sub, hi.adj]

/-- **Where the Tseitin file defines every variable of the two files, they say the implications.**
-/
theorem WriteSpec.means {request : Request} {lines : List Line} (h₀ : Fresh n r₀) {k : Nat}
    (hs : SubgraphStr n k r₀.subgraphStr) (hv : request.Valid n)
    (h : WriteSpec n r₀ r request new lines)
    (hdef : Defined (view r₀).nVars (request.write r).1.iffReifCache (request.write r).2.1
      ((request.write r).2.1 ++ (request.write r).2.2.lines)) :
    FilesMean r₀ request (request.write r).2.1 (request.write r).2.2.lines := by
  have hi := h.inv
  have hholds := h.holds
  rw [hi.units] at hholds
  -- the edges extend to a model of all definitions, and the files cannot tell the difference
  have hmodel : ∀ α, ∃ τ, AgreeBelow (view r₀).nVars α τ ∧
      Sat τ (view (request.write r).1).clauses := fun α =>
    hi.posts.ext.complete α (by rw [h₀.clauses]; exact sat_nil α) trivial
  have hsame : ∀ σ τ, AgreeBelow (view r₀).nVars σ τ → Sat σ (fileFormula (request.write r).2.1) →
      Sat τ (view (request.write r).1).clauses →
      ∀ l ∈ (request.write r).2.1 ++ (request.write r).2.2.lines,
        (ClauseHolds σ (lineClause l) ↔ ClauseHolds τ (lineClause l)) :=
    fun σ τ hag hσ hτ l hl => clauseHolds_of_defined hi h.wrote.refs hdef hag hσ hτ hl
  refine ⟨fun α hα => ?_, fun σ hσ => ?_, ?_⟩
  · obtain ⟨τ, hag, hτ⟩ := hmodel α
    exact ⟨τ, hag, hholds.sound hτ ((h₀.ground_congr hs hv hag).mp hα)⟩
  · obtain ⟨τ, hag, hτ⟩ := hmodel σ
    refine (h₀.ground_congr hs hv hag).mpr ((hholds.sat τ).mp ?_).2
    have hfile : Sat τ (fileFormula (request.write r).2.1) := sat_fileFormula.mpr fun l hl =>
      (hsame σ τ hag hσ hτ l (List.mem_append_left _ hl)).mp (sat_fileFormula.mp hσ l hl)
    have hold : Sat τ (fileFormula (defLines r.iffReifCache)) := by
      refine sat_fileFormula.mpr fun l hl => sat_fileFormula.mp hτ l ?_
      obtain ⟨e, he, hl⟩ := mem_defLines.mp hl
      refine mem_defLines.mpr ⟨e, ?_, hl⟩
      rw [show (request.write r).1.iffReifCache = new ++ r.iffReifCache from h.wrote.cache]
      exact List.mem_append_right _ he
    rw [addLines, fileFormula_append, sat_append]
    exact ⟨hold, hfile⟩
  · rw [h.impFile, List.forall₂_map_right_iff]
    refine List.forall₂_same.mpr fun imp himp σ hσ => ?_
    obtain ⟨τ, hag, hτ⟩ := hmodel σ
    have hline := (clauseAt_spec h₀ hi (hv.2 imp himp) (h.cached imp himp)).2 τ hτ
    rw [hsame σ τ hag hσ hτ _ (List.mem_append_right _ ?_), hline,
      h₀.implication_congr hag (hv.2 imp himp)]
    rw [h.impFile]
    exact List.mem_map.mpr ⟨imp, himp, rfl⟩

/-! ## Two pairs of files -/

/-- Where the Tseitin file holds, the lines at the places in `kept` entail the one at `i`. -/
def Redundant (tsFile lines : List Line) (kept : List Nat) (i : Nat) : Prop :=
  ∀ σ, Sat σ (fileFormula tsFile) →
    (∀ j ∈ kept, ∀ l, lines[j]? = some l → ClauseHolds σ (lineClause l)) →
    ∀ l, lines[i]? = some l → ClauseHolds σ (lineClause l)

/-- The first `E` variables can be read off a model of the two files. -/
def Models (E : Nat) (tsFile lines : List Line) (α : Assignment) : Prop :=
  ∃ σ, AgreeBelow E α σ ∧ Sat σ (fileFormula (tsFile ++ lines))

/-- Two pairs of files have the same satisfying edge assignments and the same redundant clauses. -/
structure SameFiles (E : Nat) (tsFile lines tsFile' lines' : List Line) : Prop where
  length : lines.length = lines'.length
  models : ∀ α, Models E tsFile lines α ↔ Models E tsFile' lines' α
  redundant : ∀ kept i, Redundant tsFile lines kept i ↔ Redundant tsFile' lines' kept i

section Mean

variable (h₀ : Fresh n r₀) {k : Nat} (hs : SubgraphStr n k r₀.subgraphStr) {request : Request}
  (hv : request.Valid n) {tsFile lines tsFile' lines' : List Line}
include h₀ hs hv

/-- The edges of a model: those that the call admits and that satisfy its implications. -/
theorem FilesMean.models_iff (h : FilesMean r₀ request tsFile lines) {α : Assignment} :
    Models (view r₀).nVars tsFile lines α ↔
      request.Ground r₀ α ∧ HoldAll r₀ request.input α := by
  have hlines : ∀ σ, Sat σ (fileFormula tsFile) →
      (Sat σ (fileFormula lines) ↔ HoldAll r₀ request.input σ) := by
    intro σ hσ
    rw [sat_fileFormula]
    constructor
    · intro hsat imp himp
      obtain ⟨i, hi, rfl⟩ := List.getElem_of_mem himp
      obtain ⟨l, hl, hiff⟩ := forall₂_getElem? h.lines (List.getElem?_eq_getElem hi)
      exact (hiff σ hσ).mp (hsat l (List.mem_of_getElem? hl))
    · intro hall l hl
      obtain ⟨i, hi, rfl⟩ := List.getElem_of_mem hl
      obtain ⟨imp, himp, hiff⟩ := forall₂_getElem? h.lines.flip (List.getElem?_eq_getElem hi)
      exact (hiff σ hσ).mpr (hall imp (List.mem_of_getElem? himp))
  constructor
  · rintro ⟨σ, hag, hσ⟩
    rw [fileFormula_append, sat_append] at hσ
    exact ⟨(h₀.ground_congr hs hv hag).mpr (h.sound σ hσ.1),
      (h₀.holdAll_congr hag hv.2).mpr ((hlines σ hσ.1).mp hσ.2)⟩
  · rintro ⟨hα, hall⟩
    obtain ⟨σ, hag, hσ⟩ := h.complete α hα
    refine ⟨σ, hag, ?_⟩
    rw [fileFormula_append, sat_append]
    exact ⟨hσ, (hlines σ hσ).mpr ((h₀.holdAll_congr hag hv.2).mp hall)⟩

omit hs in
/-- A clause is redundant when its implication is, on the edges that the call admits. -/
theorem FilesMean.redundant_iff (h : FilesMean r₀ request tsFile lines) {kept : List Nat}
    {i : Nat} : Redundant tsFile lines kept i ↔ ∀ α, request.Ground r₀ α →
      (∀ j ∈ kept, ∀ imp, request.input[j]? = some imp →
        Lex.Implication imp.length (values α r₀.edges) (values α (r₀.edgesAt imp))) →
      ∀ imp, request.input[i]? = some imp →
        Lex.Implication imp.length (values α r₀.edges) (values α (r₀.edgesAt imp)) := by
  have hvalid : ∀ {j : Nat} {imp : LexImplication}, request.input[j]? = some imp →
      Graph.Valid n imp := fun himp => hv.2 _ (List.mem_of_getElem? himp)
  constructor
  · intro hred α hα hkept imp himp
    obtain ⟨σ, hag, hσ⟩ := h.complete α hα
    obtain ⟨l, hl, hiff⟩ := forall₂_getElem? h.lines himp
    refine (h₀.implication_congr hag (hvalid himp)).mpr ((hiff σ hσ).mp (hred σ hσ ?_ l hl))
    intro j hj l' hl'
    obtain ⟨imp', himp', hiff'⟩ := forall₂_getElem? h.lines.flip hl'
    exact (hiff' σ hσ).mpr
      ((h₀.implication_congr hag (hvalid himp')).mp (hkept j hj imp' himp'))
  · intro hent σ hσ hkept l hl
    obtain ⟨imp, himp, hiff⟩ := forall₂_getElem? h.lines.flip hl
    refine (hiff σ hσ).mpr (hent σ (h.sound σ hσ) (fun j hj imp' himp' => ?_) imp himp)
    obtain ⟨l', hl', hiff'⟩ := forall₂_getElem? h.lines himp'
    exact (hiff' σ hσ).mp (hkept j hj l' hl')

/-- **Files that say the implications of one call are the same files.** -/
theorem FilesMean.sameFiles (h : FilesMean r₀ request tsFile lines)
    (h' : FilesMean r₀ request tsFile' lines') :
    SameFiles (view r₀).nVars tsFile lines tsFile' lines' where
  length := h.lines.length_eq.symm.trans h'.lines.length_eq
  models := fun _ => (h.models_iff h₀ hs hv).trans (h'.models_iff h₀ hs hv).symm
  redundant := fun _ _ => (h.redundant_iff h₀ hv).trans (h'.redundant_iff h₀ hv).symm

end Mean

/-! ## A sequence of calls -/

/-- A call of a sequence: the object as it finds it, and its arguments. -/
structure Written where
  before : LexImplicationsReducer
  request : Request

namespace Written

/-- The object after the call, and the two files. -/
def files (turn : Written) : LexImplicationsReducer × List Line × ImpFile :=
  turn.request.write turn.before

/-- The variables of the implications file are defined in the Tseitin file. -/
def Defined (E : Nat) (turn : Written) : Prop :=
  LexImplicationsReducer.Defined E turn.files.1.iffReifCache turn.files.2.1 turn.files.2.2.lines

/-- So are those of the Tseitin file itself. -/
def Complete (E : Nat) (turn : Written) : Prop :=
  LexImplicationsReducer.Defined E turn.files.1.iffReifCache turn.files.2.1
    (turn.files.2.1 ++ turn.files.2.2.lines)

/-- The files are those that `fresh` would write, up to the names of the variables. -/
def LikeFresh (E : Nat) (fresh : LexImplicationsReducer) (turn : Written) : Prop :=
  SameFiles E turn.files.2.1 turn.files.2.2.lines
    (turn.request.write fresh).2.1 (turn.request.write fresh).2.2.lines

end Written

/-- The calls, one after the other on one object. -/
def writes (r : LexImplicationsReducer) : List Request → List Written
  | [] => []
  | request :: requests => ⟨r, request⟩ :: writes (request.write r).1 requests

/-- **What the calls keep**, they find. -/
theorem forall_writes {P : LexImplicationsReducer → Prop} {Q : Request → Prop}
    (step : ∀ r request, P r → Q request → P (request.write r).1) {requests : List Request}
    (hQ : ∀ request ∈ requests, Q request) (r : LexImplicationsReducer) (h : P r) :
    ∀ turn ∈ writes r requests, P turn.before ∧ Q turn.request := by
  induction requests generalizing r with
  | nil => exact List.forall_mem_nil _
  | cons request requests ih =>
    rw [List.forall_mem_cons] at hQ
    exact List.forall_mem_cons.mpr ⟨⟨h, hQ.1⟩, ih hQ.2 _ (step r request h hQ.1)⟩

/-- **A call misses no definition iff its pairs are new.** In every sequence of calls on one object,
a call defines the variables of its implications file iff no pair of these implications was cached
before it; it defines those of both files iff no pair of all its implications was; and then the
files have the models and the redundant clauses of those that a fresh object writes. -/
theorem writes_complete_iff (n : Nat) (idx : CanonicalIndexing) {k : Nat} {s : List Char}
    (hs : SubgraphStr n k s) {requests : List Request}
    (hv : ∀ request ∈ requests, request.Valid n) :
    ∀ turn ∈ writes (newSubgraph n idx s) requests,
      (turn.Defined (n * (n - 1) / 2) ↔ Uncached turn.before turn.request.input) ∧
      (turn.Complete (n * (n - 1) / 2) ↔
        Uncached turn.before (turn.request.given ++ turn.request.input)) ∧
      (turn.Complete (n * (n - 1) / 2) →
        turn.LikeFresh (n * (n - 1) / 2) (newSubgraph n idx s)) := by
  have h₀ := fresh_new n idx s
  have hs₀ : SubgraphStr n k (newSubgraph n idx s).subgraphStr := hs
  rw [← h₀.nVars]
  have hrefs₀ : CacheRefs (view (newSubgraph n idx s)).nVars (newSubgraph n idx s) :=
    ⟨by rw [h₀.nVars, h₀.nextBoolID]; omega, List.forall_mem_nil _⟩
  intro turn hturn
  -- the invariant of the run
  obtain ⟨⟨hi, hrefs⟩, hvalid⟩ := forall_writes
    (P := fun r => Inv n (newSubgraph n idx s) r ∧
      CacheRefs (view (newSubgraph n idx s)).nVars r)
    (fun r request hr hreq => by
      obtain ⟨new, lines, h⟩ := write_spec h₀ hr.1 hr.2 hreq
      exact ⟨h.inv, h.wrote.refs⟩) hv _ ⟨h₀.inv, hrefs₀⟩ turn hturn
  obtain ⟨new, lines, h⟩ := write_spec h₀ hi hrefs hvalid
  refine ⟨h.input_defined_iff h₀ hs₀ hi hrefs hvalid, h.all_defined_iff h₀ hs₀ hi hrefs hvalid,
    fun hcomplete => ?_⟩
  -- nothing is cached in a fresh object
  obtain ⟨new', lines', h'⟩ := write_spec h₀ h₀.inv hrefs₀ hvalid
  have huncached : Uncached (newSubgraph n idx s) (turn.request.given ++ turn.request.input) :=
    fun imp _ j _ hcached => hcached ⟨rfl, rfl⟩
  have hfresh := (h'.all_defined_iff h₀ hs₀ h₀.inv hrefs₀ hvalid).mpr huncached
  exact (h.means h₀ hs₀ hvalid hcomplete).sameFiles h₀ hs₀ hvalid (h'.means h₀ hs₀ hvalid hfresh)

/-- One implication, reduced twice. -/
def swapTwice : List Request := [.reduce [⟨[1, 0], 2⟩], .reduce [⟨[1, 0], 2⟩]]

/-- The second of these calls. -/
def secondSwap : Written where
  before := ((Request.reduce [⟨[1, 0], 2⟩]).write (newSubgraph 3 .upperTriangleRows [])).1
  request := .reduce [⟨[1, 0], 2⟩]

/-- No subgraph. -/
theorem subgraphStr_nil : SubgraphStr 3 0 [] :=
  ⟨rfl, by decide, by decide, by decide⟩

theorem valid_swapTwice : ∀ request ∈ swapTwice, request.Valid 3 := by
  have hswap : (Request.reduce [⟨[1, 0], 2⟩]).Valid 3 :=
    ⟨List.forall_mem_nil _, List.forall_mem_singleton.mpr valid_swap⟩
  exact List.forall_mem_cons.mpr ⟨hswap, List.forall_mem_singleton.mpr hswap⟩

theorem writes_complete_iff_swapTwice :
    (secondSwap.Defined (3 * (3 - 1) / 2) ↔
      Uncached secondSwap.before secondSwap.request.input) ∧
    (secondSwap.Complete (3 * (3 - 1) / 2) ↔
      Uncached secondSwap.before (secondSwap.request.given ++ secondSwap.request.input)) ∧
    (secondSwap.Complete (3 * (3 - 1) / 2) →
      secondSwap.LikeFresh (3 * (3 - 1) / 2) (newSubgraph 3 .upperTriangleRows [])) :=
  writes_complete_iff 3 .upperTriangleRows subgraphStr_nil valid_swapTwice secondSwap
    (List.mem_cons_of_mem _ List.mem_cons_self)

/-- The second call writes an empty Tseitin file. Its clause names variable 4, which it may set as
it likes: the edges 2 without 3 are a model, and not of the files of a fresh object. -/
theorem second_call_incomplete :
    (∀ request ∈ swapTwice, request.Valid 3) ∧
    secondSwap ∈ writes (newSubgraph 3 .upperTriangleRows []) swapTwice ∧
    secondSwap.files.2.1 = [] ∧ secondSwap.files.2.2.lines = [[-4, -2, 3, 0]] ∧
    ¬ secondSwap.Defined 3 ∧
    ¬ secondSwap.LikeFresh 3 (newSubgraph 3 .upperTriangleRows []) := by
  have hts : secondSwap.files.2.1 = [] := by decide +kernel
  have hlines : secondSwap.files.2.2.lines = [[-4, -2, 3, 0]] := by decide +kernel
  have hfresh : (secondSwap.request.write (newSubgraph 3 .upperTriangleRows [])).2.1 =
      [[1, 1, 4, 0], [-1, -1, 4, 0], [1, -1, -4, 0], [-1, 1, -4, 0]] := by decide +kernel
  have hfreshLines : (secondSwap.request.write
      (newSubgraph 3 .upperTriangleRows [])).2.2.lines = [[-4, -2, 3, 0]] := by decide +kernel
  refine ⟨valid_swapTwice, List.mem_cons_of_mem _ List.mem_cons_self, hts, hlines,
    fun hdef => ?_, fun hlike => ?_⟩
  · unfold Written.Defined LexImplicationsReducer.Defined at hdef
    rw [hts, hlines] at hdef
    obtain ⟨b1, b2, -, hd⟩ := hdef _ (List.mem_singleton_self _) (-4) List.mem_cons_self (by decide)
    exact List.not_mem_nil (hd _ List.mem_cons_self)
  · have hmodels := hlike.models fun v => v == 1
    rw [hts, hlines, hfresh, hfreshLines] at hmodels
    obtain ⟨σ, hag, hσ⟩ := hmodels.mp ⟨fun v => v == 1, AgreeBelow.refl _ _, by decide⟩
    have h1 : σ 0 = false := (hag 0 (by decide)).symm
    have h2 : σ 1 = true := (hag 1 (by decide)).symm
    have h3 : σ 2 = false := (hag 2 (by decide)).symm
    simp [fileFormula, lineClause, toLit, Lit.eval, h1, h2, h3] at hσ

end SymBreak.LexImplicationsReducer
