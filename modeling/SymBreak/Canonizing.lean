import SymBreak.LengthStep

/-!
# The computed sets are canonizing

For a SAT solver that answers correctly and a reducer that keeps enough, both indexings and every
number of vertices.

Results:
* **`compute_canonizing`**: the direct computation ends with a set that is satisfied by the graphs
  of minimal string only, and by all of them;
* **`runIncremental_canonizing`**: so is the set accumulated up to any order, and `extend` completes
  any set of lex implications to such a one;
* **`runIncrementalSubgraph_canonizing`**: so is, for the graphs that contain the subgraph, the set
  accumulated with a subgraph;
* **`columns_hereditary`**: column-wise, the graphs that satisfy the accumulated set have induced
  subgraphs of minimal string.
-/

namespace SymBreak

open Cnf Matrix ConstraintSolver Graph CanonizingLexImplicationsAlg Main

variable {solver : SatSolver} {glucoseReducer : GlucoseReducer} {n : Nat} {idx : CanonicalIndexing}

namespace CanonizingLexImplicationsAlg

/-! ## The three computations -/

/-- The problem of `compute`. -/
def computeProblem (glucoseReducer : GlucoseReducer) (n : Nat) (idx : CanonicalIndexing) :
    Problem :=
  ⟨noSubgraph, [], reduceSet glucoseReducer n idx⟩

/-- The problem of `extend`. -/
def extendProblem (glucoseReducer : GlucoseReducer) (n : Nat) (idx : CanonicalIndexing)
    (impSet : List LexImplication) : Problem :=
  ⟨noSubgraph, impSet, reduceDelta glucoseReducer n idx impSet⟩

/-- The problem of `extend` with a subgraph. -/
def subgraphProblem (glucoseReducer : GlucoseReducer) (n : Nat) (idx : CanonicalIndexing)
    (impSet : List LexImplication) (subgraphStr : List Char) : Problem :=
  ⟨fun g1 s => embedSubgraph g1 subgraphStr s, impSet,
    reduceDeltaSubgraph glucoseReducer n idx subgraphStr impSet⟩

section About

variable (hred : glucoseReducer.Correct)
include hred

theorem about_compute (n : Nat) (idx : CanonicalIndexing) :
    (computeProblem glucoseReducer n idx).About idx fun _ : Graph n => True where
  embed h := h.congr fun A B p _ => by simp
  impSet := by simp [computeProblem]
  reduce delta hd := by
    obtain ⟨reduced, he, hsub, heq⟩ := LexImplicationsReducer.reduce_spec
      (LexImplicationsReducer.fresh_new n idx []) (LexImplicationsReducer.fresh_new n idx []).inv
      hred hd
    exact ⟨reduced, he, hsub, fun G _ _ => heq G⟩

theorem about_extend (idx : CanonicalIndexing) {impSet : List LexImplication}
    (hv : ∀ imp ∈ impSet, Valid n imp) :
    (extendProblem glucoseReducer n idx impSet).About idx fun _ : Graph n => True where
  embed h := h.congr fun A B p _ => by simp
  impSet := hv
  reduce delta hd := by
    obtain ⟨reduced, he, hsub, heq⟩ := LexImplicationsReducer.reduceDelta_construct
      (Nat.zero_le n) (LexImplicationsReducer.fresh_construct n idx (none : Option (Graph 0))).inv
      hred hv hd
    exact ⟨reduced, he, hsub, fun G himp _ => heq G himp (by simp)⟩

theorem about_subgraph (idx : CanonicalIndexing) {impSet : List LexImplication}
    (hv : ∀ imp ∈ impSet, Valid n imp) {k : Nat} (H : Graph k) (hk : k ≤ n) :
    (subgraphProblem glucoseReducer n idx impSet H.subgraphString).About idx
      fun G : Graph n => G.induce k = H where
  embed h := h.embedSubgraph H hk
  impSet := hv
  reduce _ hd := LexImplicationsReducer.reduceDelta_spec
    (LexImplicationsReducer.fresh_new n idx H.subgraphString)
    (LexImplicationsReducer.fresh_new n idx H.subgraphString).inv hred hv hd hk rfl

end About

end CanonizingLexImplicationsAlg

section Runs

variable (hsolver : solver.Correct) (hred : glucoseReducer.Correct)
include hsolver hred

/-- **The direct computation is canonizing.** It ends, without finding an implication twice within
one length, and a graph satisfies the set iff its string is the least in its isomorphism class. -/
theorem compute_canonizing (n : Nat) (idx : CanonicalIndexing) : ∃ canonizingSet,
    Converges (fun fuel => compute solver glucoseReducer n idx fuel) (.ok canonizingSet) ∧
      (computeProblem glucoseReducer n idx).FindsOnce solver n idx canonizingSet ∧
      ∀ G : Graph n, Satisfies idx canonizingSet G ↔ LexMin idx G := by
  obtain ⟨delta, hconv, honce, -, hiff⟩ := canonize_spec hsolver (about_compute hred n idx)
  exact ⟨delta, hconv, honce, fun G => hiff G trivial⟩

omit hsolver hred in
/-- The assumptions hold of the solver and the reducer that try every assignment. -/
theorem compute_canonizing_three : ∃ canonizingSet,
    Converges (fun fuel => compute bruteForceSolver bruteForceReducer 3 .upperTriangleRows fuel)
      (.ok canonizingSet) ∧
      (computeProblem bruteForceReducer 3 .upperTriangleRows).FindsOnce bruteForceSolver 3
        .upperTriangleRows canonizingSet ∧
      ∀ G : Graph 3, Satisfies .upperTriangleRows canonizingSet G ↔ LexMin .upperTriangleRows G :=
  compute_canonizing bruteForceSolver_correct bruteForceReducer_correct 3 .upperTriangleRows

/-- `extend` completes the implications given. -/
theorem extend_spec (idx : CanonicalIndexing) {impSet : List LexImplication}
    (hv : ∀ imp ∈ impSet, Valid n imp) :
    ∃ delta, Converges (fun fuel => extend solver glucoseReducer n idx impSet fuel) (.ok delta) ∧
      (∀ imp ∈ delta, Valid n imp) ∧ Canonizing n idx (impSet ++ delta) := by
  obtain ⟨delta, hconv, -, hd, hiff⟩ :=
    canonize_spec hsolver (about_extend hred idx hv)
  exact ⟨delta, hconv, hd, fun G => hiff G trivial⟩

theorem incrementalTurn_spec (idx : CanonicalIndexing) {i : Nat} {canset : List LexImplication}
    (hv : ∀ imp ∈ canset, Valid (i - 1) imp) :
    ∃ delta, Converges (fun fuel => extend solver glucoseReducer i idx canset fuel) (.ok delta) ∧
      Converges (fun fuel => incrementalTurn solver glucoseReducer idx fuel canset i)
        (.ok (canset ++ delta)) ∧
      (∀ imp ∈ canset ++ delta, Valid i imp) ∧ Canonizing i idx (canset ++ delta) := by
  have hv' : ∀ imp ∈ canset, Valid i imp := fun imp h => (hv imp h).mono (Nat.sub_le i 1)
  obtain ⟨delta, hconv, hd, hcan⟩ := extend_spec hsolver hred idx hv'
  exact ⟨delta, hconv, Converges.bind_ok hconv (Converges.const _),
    List.forall_mem_append.mpr ⟨hv', hd⟩, hcan⟩

/-- The sets accumulated by `runIncremental`, order by order. -/
theorem runIncremental_spec (n : Nat) (idx : CanonicalIndexing) :
    ∃ canset : Nat → List LexImplication, canset 2 = [] ∧
      (∀ i, 3 ≤ i → i ≤ n → (∃ delta, Converges (fun fuel =>
          extend solver glucoseReducer i idx (canset (i - 1)) fuel) (.ok delta) ∧
            canset i = canset (i - 1) ++ delta) ∧
        (∀ imp ∈ canset i, Valid i imp) ∧ Canonizing i idx (canset i)) ∧
      Converges (fun fuel => runIncremental solver glucoseReducer n idx fuel)
        (.ok (canset (max n 2))) := by
  obtain ⟨seq, hs, hturn, hinv, hfold⟩ := Converges.foldlM_range'
    (f := fun fuel => incrementalTurn solver glucoseReducer idx fuel)
    (P := fun i canset => ∀ imp ∈ canset, Valid (i - 1) imp) (n + 1 - 3) 3 [] (by simp)
    fun i canset _ _ hv => by
      obtain ⟨delta, -, hconv, hv', -⟩ := incrementalTurn_spec hsolver hred idx hv
      exact ⟨canset ++ delta, hconv, hv'⟩
  refine ⟨fun i => seq (i + 1), hs, fun i h3 hi => ?_, ?_⟩
  · obtain ⟨delta, hext, hconv, hv, hcan⟩ := incrementalTurn_spec hsolver hred idx
      (hinv i h3 (by omega))
    have hseq : seq (i + 1) = seq i ++ delta :=
      Except.ok.inj ((hturn i h3 (by omega)).unique hconv)
    simp only [Nat.sub_add_cancel (show 1 ≤ i by omega), hseq]
    exact ⟨⟨delta, hext, rfl⟩, hv, hcan⟩
  · rw [show 3 + (n + 1 - 3) = max n 2 + 1 by omega] at hfold
    exact hfold

/-- **The incremental computation is canonizing.** After the turn for order `i` the set accumulated,
with the permutations of fewer vertices extended by the identity, is satisfied by the graphs on `i`
vertices of minimal string and by no others; and `extend` does so for every set of lex implications
given. -/
theorem runIncremental_canonizing (n : Nat) (hn : 3 ≤ n) (idx : CanonicalIndexing) :
    (∃ canset : Nat → List LexImplication, canset 2 = [] ∧
      (∀ i, 3 ≤ i → i ≤ n → (∃ delta, Converges (fun fuel =>
          extend solver glucoseReducer i idx (canset (i - 1)) fuel) (.ok delta) ∧
            canset i = canset (i - 1) ++ delta) ∧
        ∀ G : Graph i, Satisfies idx (canset i) G ↔ LexMin idx G) ∧
      Converges (fun fuel => runIncremental solver glucoseReducer n idx fuel) (.ok (canset n))) ∧
    ∀ impSet : List LexImplication, (∀ imp ∈ impSet, Valid n imp) → ∃ delta,
      Converges (fun fuel => extend solver glucoseReducer n idx impSet fuel) (.ok delta) ∧
        ∀ G : Graph n, Satisfies idx (impSet ++ delta) G ↔ LexMin idx G := by
  obtain ⟨canset, h2, hturn, hconv⟩ := runIncremental_spec hsolver hred n idx
  rw [Nat.max_eq_left (by omega)] at hconv
  refine ⟨⟨canset, h2, fun i h3 hi => ?_, hconv⟩, fun impSet hv => ?_⟩
  · obtain ⟨hdelta, -, hcan⟩ := hturn i h3 hi
    exact ⟨hdelta, hcan⟩
  · obtain ⟨delta, hconv, -, hcan⟩ := extend_spec hsolver hred idx hv
    exact ⟨delta, hconv, hcan⟩

omit hsolver hred in
/-- A swap of two of three vertices, completed. -/
theorem runIncremental_canonizing_three : ∃ delta,
    Converges (fun fuel => extend bruteForceSolver bruteForceReducer 3 .upperTriangleRows
      [⟨[1, 0], 2⟩] fuel) (.ok delta) ∧
      ∀ G : Graph 3, Satisfies .upperTriangleRows ([⟨[1, 0], 2⟩] ++ delta) G ↔
        LexMin .upperTriangleRows G :=
  (runIncremental_canonizing bruteForceSolver_correct bruteForceReducer_correct 3 le_rfl
    .upperTriangleRows).2 [⟨[1, 0], 2⟩] (by
      simp only [List.forall_mem_cons, List.not_mem_nil, false_implies, implies_true, and_true]
      exact ⟨⟨2, by decide, by decide⟩, by decide, by decide⟩)

/-- **With a subgraph, the incremental computation is canonizing** for the graphs that contain it:
such a graph satisfies the set accumulated iff its string is the least among all isomorphic graphs,
those without the subgraph included. -/
theorem runIncrementalSubgraph_canonizing {k n : Nat} (hk : k < n) (H : Graph k)
    (idx : CanonicalIndexing) : ∃ canset : List LexImplication,
    Converges (fun fuel =>
      runIncrementalSubgraph solver glucoseReducer n idx H.subgraphString fuel) (.ok canset) ∧
      ∀ G : Graph n, G.induce k = H → (Satisfies idx canset G ↔ LexMin idx G) := by
  obtain ⟨seq, -, -, hinv, hfold⟩ := Converges.foldlM_range'
    (f := fun fuel => subgraphTurn solver glucoseReducer idx H.subgraphString fuel)
    (P := fun i canset => (∀ imp ∈ canset, Valid (i - 1) imp) ∧ (k + 1 < i →
      ∀ G : Graph (i - 1), G.induce k = H → (Satisfies idx canset G ↔ LexMin idx G)))
    (n + 1 - (k + 1)) (k + 1) [] ⟨by simp, fun h => absurd h (lt_irrefl _)⟩
    fun i canset hki _ ⟨hv, _⟩ => by
      have hv' : ∀ imp ∈ canset, Valid i imp := fun imp h => (hv imp h).mono (Nat.sub_le i 1)
      obtain ⟨delta, hconv, -, hd, hiff⟩ :=
        canonize_spec hsolver (about_subgraph hred idx hv' H (by omega))
      exact ⟨canset ++ delta, Converges.bind_ok hconv (Converges.const _),
        List.forall_mem_append.mpr ⟨hv', hd⟩, fun _ => hiff⟩
  obtain ⟨-, hiff⟩ := hinv (k + 1 + (n + 1 - (k + 1))) (by omega) le_rfl
  rw [show k + 1 + (n + 1 - (k + 1)) = n + 1 by omega] at hfold hiff
  refine ⟨seq (n + 1), ?_, hiff (by omega)⟩
  simpa only [runIncrementalSubgraph, sqrt_length_subgraphString] using hfold

omit hsolver hred in
/-- Two of three vertices without an edge. -/
theorem runIncrementalSubgraph_canonizing_three : ∃ canset : List LexImplication,
    Converges (fun fuel => runIncrementalSubgraph bruteForceSolver bruteForceReducer 3
      .upperTriangleCols (Graph.empty 2).subgraphString fuel) (.ok canset) ∧
      ∀ G : Graph 3, G.induce 2 = Graph.empty 2 →
        (Satisfies .upperTriangleCols canset G ↔ LexMin .upperTriangleCols G) :=
  runIncrementalSubgraph_canonizing bruteForceSolver_correct bruteForceReducer_correct (by decide)
    (Graph.empty 2) .upperTriangleCols

/-- **Column-wise, minimal strings are hereditary.** A lex implication of the first `m` vertices is
one of the subgraph that they induce; and the graphs that satisfy the set accumulated by
`runIncremental` have, for every `m`, a subgraph on the first `m` vertices of minimal string. -/
theorem columns_hereditary (n : Nat) :
    (∀ m < n, ∀ (imp : LexImplication) (G : Graph n), imp.perm.Perm (List.range m) →
      1 ≤ imp.length → imp.length ≤ m * (m - 1) / 2 →
      (SatisfiesImp .upperTriangleCols imp G ↔
        SatisfiesImp .upperTriangleCols imp (G.induce m))) ∧
    ∃ canset : List LexImplication, Converges (fun fuel =>
        runIncremental solver glucoseReducer n .upperTriangleCols fuel) (.ok canset) ∧
      ∀ G : Graph n, Satisfies .upperTriangleCols canset G →
        ∀ m ≤ n, LexMin .upperTriangleCols (G.induce m) := by
  refine ⟨fun m hm imp G hp h1 h2 => satisfiesImp_induce G le_rfl hm.le hp h1 h2, ?_⟩
  obtain ⟨canset, h2, hturn, hconv⟩ :=
    runIncremental_spec hsolver hred n CanonicalIndexing.upperTriangleCols
  refine ⟨canset (max n 2), hconv, fun G hG m hm => ?_⟩
  rcases Nat.lt_or_ge m 3 with hlt | h3
  · exact lexMin_of_le_two (by omega) _
  · obtain ⟨-, hv, hcan⟩ := hturn m h3 hm
    -- the set after order `m` is part of the whole
    have hsub : ∀ i, m ≤ i → i ≤ n → ∀ imp ∈ canset m, imp ∈ canset i := by
      intro i hmi
      induction i, hmi using Nat.le_induction with
      | base => exact fun _ _ h => h
      | succ i hmi ih =>
        intro hi imp himp
        obtain ⟨⟨delta, -, hd⟩, -⟩ := hturn (i + 1) (by omega) hi
        rw [hd]
        exact List.mem_append_left _ (ih (by omega) imp himp)
    rw [Nat.max_eq_left (by omega)] at hG
    refine (hcan _).mp fun imp himp => ?_
    obtain ⟨⟨j, hj, hp⟩, hpos, hle⟩ := hv imp himp
    exact (satisfiesImp_induce G hj hm hp hpos hle).mp (hG imp (hsub n hm le_rfl imp himp))

omit hsolver hred in
/-- Three vertices. -/
theorem columns_hereditary_three : ∃ canset : List LexImplication,
    Converges (fun fuel => runIncremental bruteForceSolver bruteForceReducer 3 .upperTriangleCols
      fuel) (.ok canset) ∧
      ∀ G : Graph 3, Satisfies .upperTriangleCols canset G →
        ∀ m ≤ 3, LexMin .upperTriangleCols (G.induce m) :=
  (columns_hereditary bruteForceSolver_correct bruteForceReducer_correct 3).2

end Runs

end SymBreak
