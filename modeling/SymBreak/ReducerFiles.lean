import SymBreak.ReducerProcess

/-!
# The two files of a call, line by line

What `writeTseitenCnfFile` and `writeImplicationsCnfFile` (`core/LexImplicationsReducer.cc:78-230`)
write, from any state of the object. A Tseitin file holds the definitions of the pairs that enter
the cache while it is written, and no others (`Wrote`); the line of an implication names the
variables of its pairs, whenever they entered (`ClauseLine`).

Results:
* `clauseLine_of_cached`: the line of an implication, once its pairs are cached;
* `writeTseiten_wrote`, `writeTseitenDelta_wrote`: the two Tseitin files;
* **`header_right_iff`**: on a fresh object the header counts the clauses of both files iff the
  subgraph has at most one vertex.
-/

namespace SymBreak.LexImplicationsReducer

open Cnf Matrix ConstraintSolver

variable {n : Nat} {r₀ r r' : LexImplicationsReducer} {rf rf' : LexImplicationsReducer × List Line}
  {cache new : IffReifCache} {imp : LexImplication} {given : List LexImplication}

/-! ## Lines -/

/-- The line is one clause, over the first `N` variables. -/
def LineBelow (N : Nat) (l : Line) : Prop := ∃ c : List Int, l = c ++ [0] ∧ ∀ b ∈ c, RefBelow N b

/-- `t` is cached for the pair, in one of the two orders. -/
def Entry (cache : IffReifCache) (b1 b2 t : Int) : Prop :=
  ((b1, b2), t) ∈ cache ∨ ((b2, b1), t) ∈ cache

theorem cached_iff {b1 b2 : Int} : Cached r b1 b2 ↔ ∃ t, Entry r.iffReifCache b1 b2 t := by
  constructor
  · intro h
    cases h1 : r.iffReifCache.lookup (b1, b2) with
    | some t => exact ⟨t, Or.inl (mem_of_lookup h1)⟩
    | none =>
      cases h2 : r.iffReifCache.lookup (b2, b1) with
      | some t => exact ⟨t, Or.inr (mem_of_lookup h2)⟩
      | none => exact absurd ⟨h1, h2⟩ h
  · rintro ⟨t, ht | ht⟩ ⟨h1, h2⟩
    · simpa using List.lookup_eq_none_iff.mp h1 _ ht
    · simpa using List.lookup_eq_none_iff.mp h2 _ ht

/-- The line of an implication: the variables of the pairs before its last position, negated, and
the two literals of that position. -/
def ClauseLine (r₀ : LexImplicationsReducer) (cache : IffReifCache) (imp : LexImplication)
    (l : Line) : Prop :=
  ∃ ts : List Int, ts.length = imp.length - 1 ∧
    l = ts.map (fun t => -t) ++ [-(r₀.edges.getD (imp.length - 1) 0),
      (r₀.edgesAt imp).getD (imp.length - 1) 0] ++ [0] ∧
    ∀ j < imp.length - 1,
      Entry cache (r₀.edges.getD j 0) ((r₀.edgesAt imp).getD j 0) (ts.getD j 0)

theorem ClauseLine.mono {cache' : IffReifCache} {l : Line} (h : ClauseLine r₀ cache imp l)
    (hsub : ∀ e ∈ cache, e ∈ cache') : ClauseLine r₀ cache' imp l := by
  obtain ⟨ts, hlen, rfl, hts⟩ := h
  exact ⟨ts, hlen, rfl, fun j hj => (hts j hj).imp (hsub _) (hsub _)⟩

/-- **The line of an implication**, once its pairs are cached. -/
theorem clauseLine_of_cached (h : Inv n r₀ r) (hc : CachedImp r₀ r imp) :
    ClauseLine r₀ r.iffReifCache imp
      ((r.boolArraysLexImplication r₀.edges (r.edgesAt imp) imp.length).1 ++ [0]) := by
  rw [h.edgesAt imp]
  have loop : ∀ m, m ≤ imp.length - 1 → ∃ ts : List Int, ts.length = m ∧
      (List.range m).foldl (lexTurn r₀.edges (r₀.edgesAt imp)) ([], r) =
        (ts.map fun t => -t, r) ∧
      ∀ j < m, Entry r.iffReifCache (r₀.edges.getD j 0) ((r₀.edgesAt imp).getD j 0)
        (ts.getD j 0) := by
    intro m
    induction m with
    | zero => exact fun _ => ⟨[], rfl, rfl, fun j hj => absurd hj (Nat.not_lt_zero j)⟩
    | succ m ih =>
      intro hm
      obtain ⟨ts, hlen, hfold, hts⟩ := ih (by omega)
      obtain ⟨t, hlook, -⟩ := lookup_of_cached h (hc m (by omega))
      refine ⟨ts ++ [t], by simp [hlen], ?_, fun j hj => ?_⟩
      · rw [List.range_succ, List.foldl_append, hfold, List.foldl_cons, List.foldl_nil,
          List.map_append]
        rcases hlook with hl | ⟨hl, hl'⟩
        · simp only [lexTurn, hl, List.map_cons, List.map_nil]
        · simp only [lexTurn, hl, hl', List.map_cons, List.map_nil]
      · rcases Nat.lt_succ_iff_lt_or_eq.mp hj with hj | rfl
        · rw [List.getD_append _ _ _ _ (by omega)]
          exact hts j hj
        · rw [List.getD_append_right _ _ _ _ (by omega), hlen, Nat.sub_self, List.getD_cons_zero]
          rcases hlook with hl | ⟨-, hl⟩
          · exact Or.inl (mem_of_lookup hl)
          · exact Or.inr (mem_of_lookup hl)
  obtain ⟨ts, hlen, hfold, hts⟩ := loop _ le_rfl
  refine ⟨ts, hlen, ?_, hts⟩
  rw [boolArraysLexImplication, hfold]

/-! ## The Tseitin file while it is written -/

/-- The cached pairs are of the first `E` variables, the edges, and their variables come after. -/
structure CacheRefs (E : Nat) (r : LexImplicationsReducer) : Prop where
  lt : E < r.nextBoolID
  entry : ∀ e ∈ r.iffReifCache,
    RefBelow E e.1.1 ∧ RefBelow E e.1.2 ∧ (E : Int) < e.2 ∧ e.2 < r.nextBoolID

/-- What a file begun by `r` holds: the definitions of the pairs cached since, `new`, and the
clauses of the implications given so far. -/
structure Wrote (r₀ r : LexImplicationsReducer) (new : IffReifCache) (given : List LexImplication)
    (rf : LexImplicationsReducer × List Line) : Prop where
  cache : rf.1.iffReifCache = new ++ r.iffReifCache
  uncached : ∀ e ∈ new, ¬ Cached r e.1.1 e.1.2
  fresh : ∀ e ∈ new, (r.nextBoolID : Int) ≤ e.2
  le : r.nextBoolID ≤ rf.1.nextBoolID
  refs : CacheRefs (view r₀).nVars rf.1
  defs : ∀ l ∈ defLines new, l ∈ rf.2
  clauses : ∀ imp ∈ given, ∃ l ∈ rf.2, ClauseLine r₀ rf.1.iffReifCache imp l
  only : ∀ l ∈ rf.2, l ∈ defLines new ∨ ∃ imp ∈ given, ClauseLine r₀ rf.1.iffReifCache imp l
  length : rf.2.length = 4 * new.length + given.length

theorem wrote_nil (h : CacheRefs (view r₀).nVars r) : Wrote r₀ r [] [] (r, []) where
  cache := rfl
  uncached := List.forall_mem_nil _
  fresh := List.forall_mem_nil _
  le := le_rfl
  refs := h
  defs := List.forall_mem_nil _
  clauses := List.forall_mem_nil _
  only := List.forall_mem_nil _
  length := rfl

/-- **A turn** caches a pair and writes its definition, or does nothing. -/
theorem Wrote.turn (h : Wrote r₀ r new given rf) {arr1 arr2 : List Int} {j : Nat}
    (h1 : RefBelow (view r₀).nVars (arr1.getD j 0))
    (h2 : RefBelow (view r₀).nVars (arr2.getD j 0)) :
    ∃ new', Wrote r₀ r new' given (tseitinTurn arr1 arr2 rf j) := by
  obtain ⟨q, tsFile⟩ := rf
  simp only [tseitinTurn]
  by_cases hno : q.iffReifCache.lookup (arr1.getD j 0, arr2.getD j 0) = none ∧
      q.iffReifCache.lookup (arr2.getD j 0, arr1.getD j 0) = none
  · rw [if_pos hno]
    have hmono : ∀ e ∈ q.iffReifCache,
        e ∈ ((arr1.getD j 0, arr2.getD j 0), (q.nextBoolID : Int)) :: q.iffReifCache :=
      fun e he => List.mem_cons_of_mem _ he
    have hle : (r.nextBoolID : Int) ≤ q.nextBoolID := by exact_mod_cast h.le
    have hlt : ((view r₀).nVars : Int) < q.nextBoolID := by exact_mod_cast h.refs.lt
    have hsucc : (q.nextBoolID : Int) < (q.nextBoolID + 1 : Nat) := by omega
    refine ⟨((arr1.getD j 0, arr2.getD j 0), (q.nextBoolID : Int)) :: new,
      { cache := ?_, uncached := ?_, fresh := ?_, le := ?_, refs := ⟨?_, ?_⟩, defs := ?_,
        clauses := ?_, only := ?_, length := ?_ }⟩
    · exact congrArg _ h.cache
    · refine List.forall_mem_cons.mpr ⟨fun hcached => ?_, h.uncached⟩
      obtain ⟨t, ht⟩ := cached_iff.mp hcached
      refine cached_iff.mpr ⟨t, ?_⟩ hno
      rw [show q.iffReifCache = new ++ r.iffReifCache from h.cache]
      exact ht.imp (List.mem_append_right _) (List.mem_append_right _)
    · exact List.forall_mem_cons.mpr ⟨hle, h.fresh⟩
    · exact Nat.le_succ_of_le h.le
    · exact Nat.lt_succ_of_lt h.refs.lt
    · refine List.forall_mem_cons.mpr ⟨⟨h1, h2, hlt, hsucc⟩, fun e he => ?_⟩
      obtain ⟨he1, he2, he3, he4⟩ := h.refs.entry e he
      exact ⟨he1, he2, he3, he4.trans hsucc⟩
    · intro l hl
      rw [defLines_cons, List.mem_append] at hl
      exact List.mem_append.mpr (hl.imp_left (h.defs l))
    · intro imp himp
      obtain ⟨l, hl, hline⟩ := h.clauses imp himp
      exact ⟨l, List.mem_append_left _ hl, hline.mono hmono⟩
    · intro l hl
      rw [defLines_cons, List.mem_append]
      rcases List.mem_append.mp hl with hl | hl
      · rcases h.only l hl with hdef | ⟨imp, himp, hline⟩
        · exact Or.inl (Or.inl hdef)
        · exact Or.inr ⟨imp, himp, hline.mono hmono⟩
      · exact Or.inl (Or.inr hl)
    · have hlen : tsFile.length = 4 * new.length + given.length := h.length
      rw [List.length_append, hlen, List.length_cons]
      change _ + 4 = _
      omega
  · rw [if_neg hno]
    exact ⟨new, h⟩

theorem Wrote.tseitins (h : Wrote r₀ r new given rf) {arr1 arr2 : List Int} {length : Nat}
    (href : RefsAt r₀ arr1 arr2 (length - 1)) :
    ∃ new', Wrote r₀ r new' given (tseitins arr1 arr2 length rf) := by
  unfold LexImplicationsReducer.tseitins
  generalize length - 1 = m at href
  induction m with
  | zero => exact ⟨new, h⟩
  | succ m ih =>
    obtain ⟨new', h'⟩ := ih fun j hj => href j (by omega)
    rw [List.range_succ, List.foldl_append, List.foldl_cons, List.foldl_nil]
    exact h'.turn (href m (by omega)).1 (href m (by omega)).2

section Fresh

variable (h₀ : Fresh n r₀)
include h₀

theorem Wrote.tseitinsAt (h : Wrote r₀ r new given rf) (hi : Inv n r₀ rf.1)
    (hv : Graph.Valid n imp) :
    ∃ new', Wrote r₀ r new' given
      (LexImplicationsReducer.tseitins r₀.edges (rf.1.edgesAt imp) imp.length rf) := by
  rw [hi.edgesAt imp]
  exact h.tseitins fun j hj => h₀.refsAt hv j (by omega)

theorem Wrote.tseitinLoop (imps : List LexImplication) (rf : LexImplicationsReducer × List Line)
    (new : IffReifCache) (h : Wrote r₀ r new given rf) (hi : Inv n r₀ rf.1)
    (hv : ∀ imp ∈ imps, Graph.Valid n imp) :
    ∃ new', Wrote r₀ r new' given (imps.foldl (fun rf imp =>
      LexImplicationsReducer.tseitins r₀.edges (rf.1.edgesAt imp) imp.length rf) rf) := by
  induction imps generalizing rf new with
  | nil => exact ⟨new, h⟩
  | cons imp imps ih =>
    rw [List.forall_mem_cons] at hv
    obtain ⟨new', h'⟩ := h.tseitinsAt h₀ hi hv.1
    rw [List.foldl_cons]
    exact ih _ _ h' (tseitinsAt_spec h₀ hi hv.1).1 hv.2

/-- **An implication given** adds its clause. -/
theorem Wrote.givenTurn (h : Wrote r₀ r new given rf) (hi : Inv n r₀ rf.1)
    (hv : Graph.Valid n imp) :
    ∃ new', Wrote r₀ r new' (given ++ [imp]) (givenTurn r₀.edges rf imp) := by
  obtain ⟨new', h'⟩ := h.tseitinsAt h₀ hi hv
  obtain ⟨hi', -, hc⟩ := tseitinsAt_spec h₀ hi hv
  have hline := clauseLine_of_cached hi' hc
  rw [givenTurn_eq h₀ hi hv]
  refine ⟨new', { h' with defs := ?_, clauses := ?_, only := ?_, length := ?_ }⟩
  · exact fun l hl => List.mem_append_left _ (h'.defs l hl)
  · rw [List.forall_mem_append]
    refine ⟨fun imp himp => ?_, ?_⟩
    · obtain ⟨l, hl, hcl⟩ := h'.clauses imp himp
      exact ⟨l, List.mem_append_left _ hl, hcl⟩
    · rw [List.forall_mem_singleton]
      exact ⟨_, List.mem_append_right _ (List.mem_singleton_self _), hline⟩
  · rw [List.forall_mem_append]
    refine ⟨fun l hl => ?_, ?_⟩
    · rcases h'.only l hl with hdef | ⟨imp, himp, hcl⟩
      · exact Or.inl hdef
      · exact Or.inr ⟨imp, List.mem_append_left _ himp, hcl⟩
    · rw [List.forall_mem_singleton]
      exact Or.inr ⟨imp, List.mem_append_right _ (List.mem_singleton_self _), hline⟩
  · rw [List.length_append, h'.length, List.length_append, Nat.add_assoc]
    rfl

theorem Wrote.givenLoop (imps : List LexImplication) (rf : LexImplicationsReducer × List Line)
    (new : IffReifCache) (given : List LexImplication) (h : Wrote r₀ r new given rf)
    (hi : Inv n r₀ rf.1) (hv : ∀ imp ∈ imps, Graph.Valid n imp) :
    (∃ new', Wrote r₀ r new' (given ++ imps)
      (imps.foldl (LexImplicationsReducer.givenTurn r₀.edges) rf)) ∧
      Inv n r₀ (imps.foldl (LexImplicationsReducer.givenTurn r₀.edges) rf).1 := by
  induction imps generalizing rf new given with
  | nil => exact ⟨⟨new, by rwa [List.append_nil]⟩, hi⟩
  | cons imp imps ih =>
    rw [List.forall_mem_cons] at hv
    obtain ⟨new', h'⟩ := h.givenTurn h₀ hi hv.1
    have hi' : Inv n r₀ (LexImplicationsReducer.givenTurn r₀.edges rf imp).1 := by
      rw [givenTurn_eq h₀ hi hv.1]
      exact (tseitinsAt_spec h₀ hi hv.1).1
    obtain ⟨⟨new'', h''⟩, hi''⟩ := ih _ _ _ h' hi' hv.2
    rw [List.append_assoc, List.singleton_append] at h''
    exact ⟨⟨new'', h''⟩, hi''⟩

variable (hi : Inv n r₀ r) (hrefs : CacheRefs (view r₀).nVars r)
  {leximps delta : List LexImplication}
  (hl : ∀ imp ∈ leximps, Graph.Valid n imp) (hd : ∀ imp ∈ delta, Graph.Valid n imp)
include hi hrefs hl

/-- **The Tseitin file of `reduce`.** -/
theorem writeTseiten_wrote : ∃ new, Wrote r₀ r new [] (r.writeTseitenCnfFile leximps) := by
  rw [writeTseiten_eq hi]
  exact Wrote.tseitinLoop h₀ leximps (r, []) [] (wrote_nil hrefs) hi hl

include hd

/-- **The Tseitin file of `reduceDelta`**: the units of the subgraph come last. -/
theorem writeTseitenDelta_wrote : ∃ new lines,
    Wrote r₀ r new leximps ((r.writeTseitenCnfFileDelta leximps delta).1, lines) ∧
      (r.writeTseitenCnfFileDelta leximps delta).2 =
        lines ++ (r.writeTseitenCnfFileDelta leximps delta).1.subgraphUnits := by
  obtain ⟨⟨new, h⟩, hi'⟩ := Wrote.givenLoop h₀ leximps (r, []) [] [] (wrote_nil hrefs) hi hl
  obtain ⟨new', h'⟩ := Wrote.tseitinLoop h₀ delta _ new h hi' hd
  rw [writeTseitenDelta_eq hi]
  exact ⟨new', _, h', rfl⟩

end Fresh

/-! ## The subgraph -/

/-- The adjacency matrix of a graph on the first `k` vertices, row by row; for `k = 0` there is no
subgraph. -/
structure SubgraphStr (n k : Nat) (s : List Char) : Prop where
  length : s.length = k * k
  le : k ≤ n
  symm : ∀ i < k, ∀ j < k, s.getD (i * k + j) '0' = s.getD (j * k + i) '0'
  diag : ∀ i < k, s.getD (i * k + i) '0' = '0'

/-- There are `k` positions on the diagonal. -/
theorem countP_diagonal (k : Nat) : (List.range (k * k)).countP (fun t => t / k = t % k) = k := by
  rw [List.countP_eq_length_filter]
  have hperm : ((List.range (k * k)).filter fun t => t / k = t % k).Perm
      ((List.range k).map fun i => i * k + i) := by
    rw [List.perm_ext_iff_of_nodup (List.nodup_range.filter _) (List.nodup_range.map_on ?_)]
    · intro t
      simp only [List.mem_filter, List.mem_range, decide_eq_true_iff, List.mem_map]
      constructor
      · rintro ⟨ht, heq⟩
        refine ⟨t / k, (div_mod_lt ht).1, ?_⟩
        conv_rhs => rw [← Nat.div_add_mod' t k, ← heq]
      · rintro ⟨i, hi, rfl⟩
        exact ⟨pos_lt hi hi, by rw [pos_div hi, pos_mod hi]⟩
    · intro i hi j hj h
      exact (pos_inj (List.mem_range.mp hi) (List.mem_range.mp hj) h).1
  rw [hperm.length_eq, List.length_map, List.length_range]

theorem flatMap_ite {α β : Type} (l : List α) (p : α → Prop) [DecidablePred p] (f : α → β) :
    (l.flatMap fun a => if p a then [f a] else []) = (l.filter p).map f := by
  induction l with
  | nil => rfl
  | cons a l ih =>
    rw [List.flatMap_cons, ih]
    by_cases h : p a <;> simp [h]

section Units

variable (h₀ : Fresh n r₀) (hi : Inv n r₀ r) {k : Nat} (hs : SubgraphStr n k r₀.subgraphStr)
include h₀ hi hs

/-- The entries off the diagonal are edges, those on it `0`. -/
theorem subgraph_entry {t : Nat} (ht : t < k * k) :
    r.adjMatrix.get (t / k) (t % k) ≠ 0 ↔ t / k ≠ t % k := by
  obtain ⟨h1, h2⟩ := div_mod_lt ht
  have hle := hs.le
  rw [hi.adj]
  refine ⟨fun h he => h ?_, fun h => (h₀.edgeRefs _ (by omega) _ (by omega) h).1⟩
  rw [he, h₀.adj.diag _ (by omega)]

omit h₀ in
/-- A unit for every entry that is not `0`. -/
theorem subgraphUnits_eq : r.subgraphUnits =
    ((List.range (k * k)).filter fun t => r.adjMatrix.get (t / k) (t % k) ≠ 0).map fun t =>
      [(if r₀.subgraphStr.getD t '0' = '0' then -1 else 1) *
        r.adjMatrix.get (t / k) (t % k), 0] := by
  rw [← flatMap_ite, subgraphUnits, hi.sub, hs.length, Nat.sqrt_eq]

/-- **The units**: one for every entry off the diagonal. -/
theorem length_subgraphUnits : r.subgraphUnits.length = k * k - k := by
  have hcount := List.length_eq_countP_add_countP (l := List.range (k * k)) fun t =>
    decide (t / k = t % k)
  rw [List.length_range, countP_diagonal] at hcount
  rw [subgraphUnits_eq hi hs, List.length_map, ← List.countP_eq_length_filter,
    List.countP_congr fun t ht => ?_, Nat.eq_sub_of_add_eq' hcount.symm]
  simpa using subgraph_entry h₀ hi hs (List.mem_range.mp ht)

theorem mem_subgraphUnits {l : Line} (hl : l ∈ r.subgraphUnits) :
    ∃ x, RefBelow (view r₀).nVars x ∧ l = [x, 0] := by
  rw [subgraphUnits_eq hi hs] at hl
  obtain ⟨t, ht, rfl⟩ := List.mem_map.mp hl
  obtain ⟨ht, hne⟩ := List.mem_filter.mp ht
  have ht := List.mem_range.mp ht
  have href : RefBelow (view r₀).nVars (r.adjMatrix.get (t / k) (t % k)) := by
    obtain ⟨h1, h2⟩ := div_mod_lt ht
    have hle := hs.le
    rw [hi.adj]
    refine h₀.edgeRefs _ (by omega) _ (by omega) ((subgraph_entry h₀ hi hs ht).mp ?_)
    exact of_decide_eq_true hne
  by_cases hc : r₀.subgraphStr.getD t '0' = '0'
  · rw [if_pos hc, neg_one_mul]
    exact ⟨_, refBelow_neg.mpr href, rfl⟩
  · rw [if_neg hc, one_mul]
    exact ⟨_, href, rfl⟩

end Units

/-! ## A call -/

/-- The two files that a call writes, and the object after it. -/
def Request.write (r : LexImplicationsReducer) :
    Request → LexImplicationsReducer × List Line × ImpFile
  | .reduce leximps =>
    let (r, tsFile) := r.writeTseitenCnfFile leximps
    let (r, impFile) := r.writeImplicationsCnfFile leximps
    (r, tsFile, impFile)
  | .reduceDelta leximps delta =>
    let (r, tsFile) := r.writeTseitenCnfFileDelta leximps delta
    let (r, impFile) := r.writeImplicationsCnfFileDelta leximps delta
    (r, tsFile, impFile)

/-- The implications are valid. -/
def Request.Valid (n : Nat) (request : Request) : Prop :=
  (∀ imp ∈ request.given, Graph.Valid n imp) ∧ ∀ imp ∈ request.input, Graph.Valid n imp

/-- The units that end the Tseitin file. -/
def Request.units (r : LexImplicationsReducer) : Request → List Line
  | .reduce _ => []
  | .reduceDelta _ _ => r.subgraphUnits

/-- The clauses of the subgraph that the header counts. -/
def Request.counted (r : LexImplicationsReducer) : Request → Nat
  | .reduce _ => r.subgraphStr.length - Nat.sqrt r.subgraphStr.length
  | .reduceDelta _ _ => 0

/-- The files of a call begun by `r`. -/
structure WriteSpec (n : Nat) (r₀ r : LexImplicationsReducer) (request : Request)
    (new : IffReifCache) (lines : List Line) : Prop where
  inv : Inv n r₀ (request.write r).1
  wrote : Wrote r₀ r new request.given ((request.write r).1, lines)
  tsFile : (request.write r).2.1 = lines ++ request.units (request.write r).1
  vars : (request.write r).2.2.vars = (request.write r).1.nextBoolID - 1
  clauses : (request.write r).2.2.clauses = (request.write r).1.iffReifCache.length * 4 +
    request.given.length + request.input.length + request.counted (request.write r).1
  cached : ∀ imp ∈ request.input, CachedImp r₀ (request.write r).1 imp
  impFile : (request.write r).2.2.lines = request.input.map fun imp =>
    ((request.write r).1.boolArraysLexImplication r₀.edges ((request.write r).1.edgesAt imp)
      imp.length).1 ++ [0]
  holds : FileSays (addLines (defLines r.iffReifCache) ((request.write r).1, (request.write r).2.1))
    fun σ => HoldAll r₀ request.given σ ∧ Sat σ (fileFormula (request.units (request.write r).1))

/-- The specification of the two overloads, on what they return. -/
theorem writeSpec_of_eq {request : Request} {after : LexImplicationsReducer}
    {tsFile lines : List Line} {impFile : ImpFile} (h₀ : Fresh n r₀)
    (hwrite : request.write r = ((after.impLines request.input).1, tsFile, impFile))
    (hv : ∀ imp ∈ request.input, Graph.Valid n imp)
    (hinv : Inv n r₀ after) (hwrote : Wrote r₀ r new request.given (after, lines))
    (htsFile : tsFile = lines ++ request.units after)
    (hvars : impFile.vars = after.nextBoolID - 1)
    (hclauses : impFile.clauses = after.iffReifCache.length * 4 + request.given.length +
      request.input.length + request.counted after)
    (hcached : ∀ imp ∈ request.input, CachedImp r₀ after imp)
    (himpFile : impFile.lines = (after.impLines request.input).2)
    (holds : FileSays (addLines (defLines r.iffReifCache) (after, tsFile))
      fun σ => HoldAll r₀ request.given σ ∧ Sat σ (fileFormula (request.units after))) :
    WriteSpec n r₀ r request new lines := by
  rw [impLines_eq h₀ hinv hv hcached] at hwrite himpFile
  constructor <;> rw [hwrite] <;> assumption

/-- **The files of a call**, from any state of the object. -/
theorem write_spec (h₀ : Fresh n r₀) (hi : Inv n r₀ r) (hrefs : CacheRefs (view r₀).nVars r)
    {request : Request} (hv : request.Valid n) :
    ∃ new lines, WriteSpec n r₀ r request new lines := by
  cases request with
  | reduce leximps =>
    have hinput : ∀ imp ∈ leximps, Graph.Valid n imp := hv.2
    obtain ⟨hi', hf, hc⟩ := writeTseiten_spec h₀ hi hinput
    obtain ⟨new, h⟩ := writeTseiten_wrote h₀ hi hrefs hinput
    refine ⟨new, _, writeSpec_of_eq h₀ rfl hinput hi' h (List.append_nil _).symm rfl rfl hc rfl ?_⟩
    refine ⟨hf.defs, fun σ => (hf.sat σ).trans (and_congr_right fun _ => ?_)⟩
    simp [HoldAll, Request.given, Request.units, fileFormula]
  | reduceDelta leximps delta =>
    have hgiven : ∀ imp ∈ leximps, Graph.Valid n imp := hv.1
    have hinput : ∀ imp ∈ delta, Graph.Valid n imp := hv.2
    obtain ⟨hi', hf, hc⟩ := writeTseitenDelta_spec h₀ hi hgiven hinput
    obtain ⟨new, lines, h, hts⟩ := writeTseitenDelta_wrote h₀ hi hrefs hgiven hinput
    exact ⟨new, lines, writeSpec_of_eq h₀ rfl hinput hi' h hts rfl rfl hc rfl hf⟩

/-! ## The header -/

theorem lineBelow_tseitinLines {N : Nat} {b1 b2 t : Int} (h1 : RefBelow N b1) (h2 : RefBelow N b2)
    (ht : RefBelow N t) : ∀ l ∈ tseitinLines b1 b2 t, LineBelow N l := by
  have hline : ∀ a b c : Int, RefBelow N a → RefBelow N b → RefBelow N c →
      LineBelow N [a, b, c, 0] := fun a b c ha hb hc => ⟨[a, b, c], rfl, by
    simp only [List.forall_mem_cons, List.not_mem_nil, false_implies, implies_true, and_true]
    exact ⟨ha, hb, hc⟩⟩
  have n1 := refBelow_neg.mpr h1
  have n2 := refBelow_neg.mpr h2
  have nt := refBelow_neg.mpr ht
  rw [neg] at n1 n2 nt
  simp only [tseitinLines, List.forall_mem_cons, List.not_mem_nil, false_implies, implies_true,
    and_true]
  exact ⟨hline _ _ _ h1 h2 ht, hline _ _ _ n1 n2 ht, hline _ _ _ h1 n2 nt, hline _ _ _ n1 h2 nt⟩

/-- The references of a cache entry. -/
theorem CacheRefs.below {E : Nat} (h : CacheRefs E r) {e : (Int × Int) × Int}
    (he : e ∈ r.iffReifCache) : RefBelow (r.nextBoolID - 1) e.1.1 ∧
      RefBelow (r.nextBoolID - 1) e.1.2 ∧ RefBelow (r.nextBoolID - 1) e.2 := by
  obtain ⟨h1, h2, h3, h4⟩ := h.entry e he
  have hlt := h.lt
  refine ⟨h1.mono (by omega), h2.mono (by omega), ?_⟩
  have hle : (e.2 : Int) < (r.nextBoolID : Int) := h4
  exact ⟨by omega, by omega⟩

theorem CacheRefs.entry_below {E : Nat} (h : CacheRefs E r) {b1 b2 t : Int}
    (he : Entry r.iffReifCache b1 b2 t) : RefBelow (r.nextBoolID - 1) t := by
  rcases he with he | he
  · exact (h.below he).2.2
  · exact (h.below he).2.2

theorem ClauseLine.below (h₀ : Fresh n r₀) (hv : Graph.Valid n imp)
    (hrefs : CacheRefs (view r₀).nVars r) {l : Line}
    (h : ClauseLine r₀ r.iffReifCache imp l) : LineBelow (r.nextBoolID - 1) l := by
  obtain ⟨ts, hlen, rfl, hts⟩ := h
  have hpos := hv.pos
  have hlt := hrefs.lt
  obtain ⟨h1, h2⟩ := h₀.refsAt hv (imp.length - 1) (by omega)
  refine ⟨_, rfl, ?_⟩
  rw [List.forall_mem_append]
  constructor
  · intro b hb
    obtain ⟨t, ht, rfl⟩ := List.mem_map.mp hb
    obtain ⟨j, hj, rfl⟩ := List.getElem_of_mem ht
    have hentry := hrefs.entry_below (hts j (by omega))
    rw [List.getD_eq_getElem _ _ hj] at hentry
    exact refBelow_neg.mpr hentry
  · simp only [List.forall_mem_cons, List.not_mem_nil, false_implies, implies_true, and_true]
    exact ⟨refBelow_neg.mpr (h1.mono (by omega)), h2.mono (by omega)⟩

/-- The lines that a member of the cache defines. -/
theorem mem_defLines {l : Line} :
    l ∈ defLines cache ↔ ∃ e ∈ cache, l ∈ tseitinLines e.1.1 e.1.2 e.2 := by
  unfold defLines
  simp only [List.mem_flatMap, List.mem_reverse]

/-- **Every literal is one of the header's variables.** -/
theorem WriteSpec.below {request : Request} {lines : List Line} (h₀ : Fresh n r₀) {k : Nat}
    (hs : SubgraphStr n k r₀.subgraphStr) (hv : request.Valid n)
    (h : WriteSpec n r₀ r request new lines) :
    ∀ l ∈ (request.write r).2.1 ++ (request.write r).2.2.lines,
      LineBelow (request.write r).2.2.vars l := by
  have hrefs := h.wrote.refs
  have hlt := hrefs.lt
  rw [h.vars, h.tsFile, h.impFile]
  intro l hl
  rcases List.mem_append.mp hl with hl | hl
  · rcases List.mem_append.mp hl with hl | hl
    · rcases h.wrote.only l hl with hdef | ⟨imp, himp, hline⟩
      · obtain ⟨e, he, hl⟩ := mem_defLines.mp hdef
        have hmem : e ∈ (request.write r).1.iffReifCache := by
          rw [show (request.write r).1.iffReifCache = new ++ r.iffReifCache from h.wrote.cache]
          exact List.mem_append_left _ he
        obtain ⟨h1, h2, ht⟩ := hrefs.below hmem
        exact lineBelow_tseitinLines h1 h2 ht l hl
      · exact hline.below h₀ (hv.1 imp himp) hrefs
    · cases request with
      | reduce leximps => exact absurd hl List.not_mem_nil
      | reduceDelta leximps delta =>
        obtain ⟨x, hx, rfl⟩ := mem_subgraphUnits h₀ h.inv hs hl
        refine ⟨[x], rfl, ?_⟩
        rw [List.forall_mem_singleton]
        exact hx.mono (Nat.le_sub_one_of_lt hlt)
  · obtain ⟨imp, himp, rfl⟩ := List.mem_map.mp hl
    exact (clauseLine_of_cached h.inv (h.cached imp himp)).below h₀ (hv.2 imp himp) hrefs

/-- The header of the implications file is right for the two files one after the other. -/
structure HeaderRight (tsFile : List Line) (impFile : ImpFile) : Prop where
  clauses : impFile.clauses = tsFile.length + impFile.lines.length
  literals : ∀ l ∈ tsFile ++ impFile.lines, LineBelow impFile.vars l

/-- **The header is right iff the subgraph has at most one vertex**, on a fresh object and for every
call: the units of the subgraph are written by `reduceDelta` and counted by `reduce`. -/
theorem header_right_iff (n : Nat) (idx : CanonicalIndexing) {k : Nat} {s : List Char}
    (hs : SubgraphStr n k s) {request : Request} (hv : request.Valid n) :
    HeaderRight (request.write (newSubgraph n idx s)).2.1
      (request.write (newSubgraph n idx s)).2.2 ↔ k ≤ 1 := by
  have h₀ := fresh_new n idx s
  have hrefs : CacheRefs (view (newSubgraph n idx s)).nVars (newSubgraph n idx s) :=
    ⟨by rw [h₀.nVars, h₀.nextBoolID]; omega, List.forall_mem_nil _⟩
  obtain ⟨new, lines, h⟩ := write_spec h₀ h₀.inv hrefs hv
  have hbelow := h.below h₀ hs hv
  have hcache : (request.write (newSubgraph n idx s)).1.iffReifCache.length = new.length :=
    congrArg List.length (h.wrote.cache.trans (List.append_nil new))
  have hsub : (request.write (newSubgraph n idx s)).1.subgraphStr.length = k * k := by
    rw [h.inv.sub]
    exact hs.length
  -- the header and the files differ in the units of the subgraph
  have hcount : (request.write (newSubgraph n idx s)).2.2.clauses =
      (request.write (newSubgraph n idx s)).2.1.length +
        (request.write (newSubgraph n idx s)).2.2.lines.length ↔ k * k - k = 0 := by
    rw [h.clauses, h.tsFile, h.impFile, List.length_append, h.wrote.length, List.length_map, hcache]
    cases request with
    | reduce leximps =>
      simp only [Request.counted, Request.units, hsub, Nat.sqrt_eq, List.length_nil]
      omega
    | reduceDelta leximps delta =>
      simp only [Request.counted, Request.units, length_subgraphUnits h₀ h.inv hs]
      omega
  have hk : k * k - k = 0 ↔ k ≤ 1 := by
    rcases k with _ | _ | k
    · simp
    · simp
    · have hmul : (k + 1 + 1) * (k + 1 + 1) = (k + 1 + 1) * (k + 1) + (k + 1 + 1) := by ring
      have hpos : 0 < (k + 1 + 1) * (k + 1) := Nat.mul_pos (by omega) (by omega)
      omega
  rw [← hk, ← hcount]
  exact ⟨fun h => h.clauses, fun h => ⟨h, hbelow⟩⟩

/-- A subgraph of two adjacent vertices. -/
theorem subgraphStr_two : SubgraphStr 3 2 ['0', '1', '1', '0'] :=
  ⟨rfl, by decide, by decide, by decide⟩

theorem valid_swap_request : (Request.reduceDelta [⟨[1, 0], 2⟩] [⟨[0, 2, 1], 1⟩]).Valid 3 := by
  simp only [Request.Valid, Request.given, Request.input, List.forall_mem_singleton]
  exact ⟨valid_swap, valid_last⟩

theorem header_right_iff_three :
    HeaderRight ((Request.reduceDelta [⟨[1, 0], 2⟩] [⟨[0, 2, 1], 1⟩]).write
        (newSubgraph 3 .upperTriangleRows ['0', '1', '1', '0'])).2.1
      ((Request.reduceDelta [⟨[1, 0], 2⟩] [⟨[0, 2, 1], 1⟩]).write
        (newSubgraph 3 .upperTriangleRows ['0', '1', '1', '0'])).2.2 ↔ 2 ≤ 1 :=
  header_right_iff 3 .upperTriangleRows subgraphStr_two valid_swap_request

/-- With that subgraph the header of `reduceDelta` counts two clauses too few, and that of `reduce`
two too many. -/
theorem header_wrong : SubgraphStr 3 2 ['0', '1', '1', '0'] ∧
    (let files := (Request.reduceDelta [⟨[1, 0], 2⟩] [⟨[0, 2, 1], 1⟩]).write
      (newSubgraph 3 .upperTriangleRows ['0', '1', '1', '0'])
     files.2.2.clauses + 2 = files.2.1.length + files.2.2.lines.length ∧
       ¬ HeaderRight files.2.1 files.2.2) ∧
    (let files := (Request.reduce [⟨[1, 0], 2⟩]).write
      (newSubgraph 3 .upperTriangleRows ['0', '1', '1', '0'])
     files.2.2.clauses = files.2.1.length + files.2.2.lines.length + 2 ∧
       ¬ HeaderRight files.2.1 files.2.2) :=
  ⟨subgraphStr_two, ⟨by decide +kernel, fun h => absurd h.clauses (by decide +kernel)⟩,
    by decide +kernel, fun h => absurd h.clauses (by decide +kernel)⟩

end SymBreak.LexImplicationsReducer
