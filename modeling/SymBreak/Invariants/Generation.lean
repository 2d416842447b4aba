import SymBreak.Invariants.Lexstar

/-!
# Symmetry breaking with invariants

Model of how `test.pl` puts the invariants together (`test.pl:70-142`): an adjacency matrix, its
degrees, the matrices of a list of invariants (`compose`), and the constraints on their rows
(`sbProd`, `sbChain`). Both are modelled with `lexstar`, which `test.pl` uses, and with `lexplus`.

Results:
* `PairInvariant.call_spec`, `VertexInvariant.call_spec`: what an invariant makes of a graph;
* `standard_documented`: libraries of BEE that behave as relied on;
* **`call_unique`**: a pair invariant has exactly one solution, which goes along with permutations;
* **`class_kept`**: every graph has a labelling that satisfies what is posted.
-/

namespace SymBreak.Generation

open Declare Bee Invariants PairInvariants Lexstar Graph

/-! ## Model -/

/-- The pair invariants that `pair_invariants.pl` exports. -/
inductive PairInvariant
  | minDeg | maxDeg | common | minusCommon | antiCommon | adj | len3Paths | triangles | dist2
  | minusDist2 | sumDegreesCommonNeighbors

/-- The vertex invariants: the degree, and those that `vertex_invariants.pl` exports. -/
inductive VertexInvariant
  | deg | triangles | dist2

inductive Invariant
  | pair (p : PairInvariant)
  | vertex (u : VertexInvariant)

section Model

variable (aux : Auxs)

/-- `call(P, AdjMatrix, Ds, M)` for a pair invariant (`test.pl:108-127`). -/
def PairInvariant.call (adjMatrix : Rows) (ds : List Term) : PairInvariant → Post Constraint Rows
  | .minDeg => invMinDeg aux ds
  | .maxDeg => invMaxDeg aux ds
  | .common => invCommon aux adjMatrix
  | .minusCommon => invMinusCommon aux adjMatrix
  | .antiCommon => invAntiCommon aux adjMatrix
  | .adj => invAdj aux adjMatrix
  | .len3Paths => invLen3Paths aux adjMatrix
  | .triangles => invTriangles aux adjMatrix
  | .dist2 => invDist2 aux adjMatrix
  | .minusDist2 => invMinusDist2 aux adjMatrix
  | .sumDegreesCommonNeighbors => invSumDegreesCommonNeighbors aux adjMatrix ds

/-- The same for a vertex invariant: `inv_deg` (`test.pl:123-124`) counts the degrees anew. -/
def VertexInvariant.call (adjMatrix : Rows) : VertexInvariant → Post Constraint (List Term)
  | .deg => aux.degrees adjMatrix
  | .triangles => VertexInvariants.invTriangles aux adjMatrix
  | .dist2 => VertexInvariants.invDist2 aux adjMatrix

def Invariant.call (adjMatrix : Rows) (ds : List Term) : Invariant → Post Constraint InvMatrix
  | .pair p => return .matrix (← p.call aux adjMatrix ds)
  | .vertex u => return .vector (← u.call aux adjMatrix)

/-- `compose(Ps, AdjMatrix, Ds, Ms)` (`test.pl:139-142`) -/
def compose {P M : Type} (call : P → Post Constraint M) (ps : List P) : Post Constraint (List M) :=
  ps.mapM call

/-- `sb_prod(Invs, AdjMatrix, Ds)` (`test.pl:134-136`), where `lex` is `invMatricesLexstar`. -/
def sbProd (lex : List Rows → Post Constraint Unit) (invs : List PairInvariant) (adjMatrix : Rows)
    (ds : List Term) : Post Constraint Unit := do
  let ms ← compose (PairInvariant.call aux adjMatrix ds) invs
  lex ms

/-- The rows of the adjacency matrix. A vector has none. -/
def rows? : InvMatrix → Option Rows
  | .matrix m => some m
  | .vector _ => none

/-- `sb_chain(Invs, AdjMatrix, Ds)` (`test.pl:129-132`), where `lex` is `condInvMatricesLexstar`. -/
def sbChain (lex : List InvMatrix → Rows → Post Constraint Unit) (invs : List Invariant)
    (adjMatrix : Rows) (ds : List Term) : Post Constraint Unit := do
  let ms ← compose (Invariant.call aux adjMatrix ds) invs
  let last ← ms.getLast?
  let invAdjMatrix ← rows? last
  lex ms.dropLast invAdjMatrix

/-- The graphs that are asked for (`test.pl:70-99`, `pair_invariants.pl:39-57`): an adjacency
matrix, its degrees, and the constraints `sb`. -/
def generate (n : Nat) (sb : Rows → List Term → Post Constraint Unit) : Post Constraint Rows := do
  let adjMatrix ← aux.createAdjacencyMatrix n (.int (-1))
  let ds ← aux.degrees adjMatrix
  sb adjMatrix ds
  return adjMatrix

/-- What is posted has a solution in which the adjacency matrix is that of `H`. -/
def Admits {n : Nat} (sb : Rows → List Term → Post Constraint Unit) (H : Graph n) : Prop :=
  ∃ adjMatrix s σ, generate aux n sb ⟨0, []⟩ = some (adjMatrix, s) ∧ s.Sat bee σ ∧
    adjMatrix.map (·.map (Term.eval σ)) =
      (List.range n).map fun i => (List.range n).map fun j => truth (H.adj i j)

end Model

/-! ## Values -/

/-- The value of a pair invariant. -/
def PairInvariant.value (n : Nat) : PairInvariant → PairValue n
  | .minDeg => Invariants.minDeg n
  | .maxDeg => Invariants.maxDeg n
  | .common => Invariants.common n
  | .minusCommon => (Invariants.common n).neg
  | .antiCommon => Invariants.antiCommon n
  | .adj => adjacency n
  | .len3Paths => noLen3Paths n
  | .triangles => noTriangles n
  | .dist2 => Invariants.dist2 n
  | .minusDist2 => (Invariants.dist2 n).neg
  | .sumDegreesCommonNeighbors => sumDegrees n

/-- The value of a vertex invariant. -/
def VertexInvariant.value (n : Nat) : VertexInvariant → VertexValue n
  | .deg => degree n
  | .triangles => Invariants.triangles n
  | .dist2 => nearVertices n

/-- What is read of it. -/
def Invariant.part (n : Nat) : Invariant → Part n
  | .pair p => .pairs [p.value n]
  | .vertex u => .vertices (u.value n)

section Calls

variable {aux : Auxs} (haux : aux.Documented) {n : Nat} {w : World bee} {G : Graph n} {adj : Rows}
  {ds : List Term} (hadj : ReadsMatrix w adj n fun i j => truth (G.adj i j))
  (hds : ReadsAll w ds ((List.range n).map fun i => (G.degree i : Int)))
include haux hadj

include hds in
/-- **Every pair invariant** makes the matrix of its values. -/
theorem PairInvariant.call_spec (p : PairInvariant) : Makes (p.call aux adj ds) w fun m w' =>
    ReadsMatrix w' m n (entries (p.value n) G) := by
  cases p with
  | minDeg => exact invMinDeg_spec haux hds
  | maxDeg => exact invMaxDeg_spec haux hds
  | common => exact invCommon_spec haux hadj
  | minusCommon => exact invMinusCommon_spec haux hadj
  | antiCommon => exact invAntiCommon_spec haux hadj
  | adj => exact invAdj_spec haux hadj
  | len3Paths => exact invLen3Paths_spec haux hadj
  | triangles => exact invTriangles_spec haux hadj
  | dist2 => exact invDist2_spec haux hadj
  | minusDist2 => exact invMinusDist2_spec haux hadj
  | sumDegreesCommonNeighbors => exact invSumDegreesCommonNeighbors_spec haux hadj hds

/-- **Every vertex invariant** makes the vector of its values. -/
theorem VertexInvariant.call_spec (hfree : w.free) (u : VertexInvariant) :
    Makes (u.call aux adj) w fun ts w' =>
      ReadsAll w' ts ((List.range n).map ((u.value n).val G)) := by
  cases u with
  | deg => exact haux.degrees w hfree G adj hadj
  | triangles => exact VertexInvariants.invTriangles_spec haux hadj
  | dist2 => exact VertexInvariants.invDist2_spec haux hadj

include hds in
theorem Invariant.call_spec (hfree : w.free) (inv : Invariant) :
    Makes (inv.call aux adj ds) w fun m w' => ReadsPart w' G (inv.part n) m := by
  cases inv with
  | pair p =>
    exact (p.call_spec haux hadj hds).bind fun _ _ _ hm => makes_pure (.matrix hm)
  | vertex u => exact (u.call_spec haux hadj hfree).bind fun _ _ _ hts => makes_pure (.vector hts)

include hds in
theorem compose_pairs_spec (invs : List PairInvariant) :
    Makes (compose (PairInvariant.call aux adj ds) invs) w fun ms w' =>
      List.Forall₂ (fun v m => ReadsMatrix w' m n (entries v G)) (invs.map (·.value n)) ms :=
  (Makes.mapM (fun (p : PairInvariant) m w' => ReadsMatrix w' m n (entries (p.value n) G))
    (fun _ _ _ _ hle h => h.mono hle) fun p _ _ hle =>
      p.call_spec haux (hadj.mono hle) (hds.mono hle)).imp fun _ _ _ h =>
        List.forall₂_map_left_iff.mpr h

include hds in
theorem compose_spec (hfree : w.free) (invs : List Invariant) :
    Makes (compose (Invariant.call aux adj ds) invs) w fun ms w' =>
      List.Forall₂ (ReadsPart w' G) (invs.map (·.part n)) ms :=
  (Makes.mapM (fun (inv : Invariant) m w' => ReadsPart w' G (inv.part n) m)
    (fun _ _ _ _ hle h => h.mono hle) fun inv _ _ hle =>
      inv.call_spec haux (hadj.mono hle) (hds.mono hle) (hle.free.mpr hfree)).imp fun _ _ _ h =>
        List.forall₂_map_left_iff.mpr h

end Calls

/-! ## Solutions -/

section Solutions

variable {aux : Auxs} (haux : aux.Documented) {n : Nat} {H : Graph n}
include haux

/-- **A graph is admitted** when its constraints can be posted once its adjacency matrix and its
degrees are known. -/
theorem admits_of_makes {sb : Rows → List Term → Post Constraint Unit}
    (hsb : ∀ w adj ds, w.free → ReadsMatrix w adj n (fun i j => truth (H.adj i j)) →
      ReadsAll w ds ((List.range n).map fun i => (H.degree i : Int)) →
      Makes (sb adj ds) w fun _ _ => True) : Admits aux sb H := by
  obtain ⟨x, s, hm, hposted, -, hrange, hinj, -⟩ := haux.createAdjacencyMatrix n (.int (-1)) ⟨0, []⟩
  have hnone : ∀ c, c ∉ s.posted := fun c => by
    rw [hposted]
    exact List.not_mem_nil
  obtain ⟨τ, -, hτ⟩ := exists_values hinj (fun i j => truth (H.adj i j)) fun _ => 0
  -- the world in which the variables of the matrix are known
  let w₀ : World bee := ⟨s, τ, (· < s.next), True, fun c hc => absurd hc (hnone c),
    fun c hc => absurd hc (hnone c), fun _ h => h⟩
  have hadj : ReadsMatrix w₀ (symmetricMatrix n (.int (-1)) x) n fun i j => truth (H.adj i j) :=
    (reads_symmetricMatrix (fun i j => by rw [H.symm]) (fun i j hij hj => (hrange i j hij hj).2)
      hτ).congr fun i _ j _ => by
        split
        · next h => rw [h, H.irrefl]; rfl
        · rfl
  obtain ⟨_, w, hrun, -, -, rfl, hread⟩ :=
    (haux.degrees w₀ trivial H _ hadj).bind fun ds w hle hds =>
    (hsb w _ ds (hle.free.mpr trivial) (hadj.mono hle) hds).bind fun _ w' hle' _ =>
      makes_pure (Q := fun adj w' => adj = symmetricMatrix n (.int (-1)) x ∧
        ReadsMatrix w' adj n fun i j => truth (H.adj i j)) ⟨rfl, (hadj.mono hle).mono hle'⟩
  refine ⟨_, w.store, w.values, ?_, w.sat,
    hread.agrees fun _ _ => rfl⟩
  change (aux.createAdjacencyMatrix n (.int (-1)) ⟨0, []⟩).bind _ = _
  rw [hm]
  exact hrun

variable {G : Graph n}

omit haux in
/-- The first matrix of a list of matrices. -/
theorem exists_head {α β : Type} {R : α → β → Prop} {P : β → Prop} {as : List α} {bs : List β}
    (h : List.Forall₂ R as bs) (hR : ∀ a b, R a b → P b) (has : as ≠ []) :
    ∃ b, bs.head? = some b ∧ P b := by
  cases h with
  | nil => exact absurd rfl has
  | cons hab _ => exact ⟨_, rfl, hR _ _ hab⟩

/-- The product: its rows are in order. -/
theorem sbProd_spec {invs : List PairInvariant} (hinvs : invs ≠ [])
    (hle : ∀ i j, i < j → j < n → (Part.pairs (invs.map (·.value n))).row H i j i ≤
      (Part.pairs (invs.map (·.value n))).row H i j j) :
    Admits aux (sbProd aux invMatricesLexstar invs) H ∧
      Admits aux (sbProd aux invMatricesLexplus invs) H := by
  have hvs : invs.map (·.value n) ≠ [] := by simpa using hinvs
  constructor
  · refine admits_of_makes haux fun w adj ds hfree hadj hds =>
      (compose_pairs_spec haux hadj hds invs).bind fun ms w' _ hms => ?_
    obtain ⟨m, hm, hlen⟩ := exists_head hms (fun _ _ h => ReadsMatrix.length h) hvs
    refine makes_lift hm ?_
    rw [hlen]
    exact invMatrices_spec hms hvs (within_lexstarPairs n) hle
  · refine admits_of_makes haux fun w adj ds hfree hadj hds =>
      (compose_pairs_spec haux hadj hds invs).bind fun ms w' _ hms => ?_
    obtain ⟨m, hm, hlen⟩ := exists_head hms (fun _ _ h => ReadsMatrix.length h) hvs
    refine makes_lift hm ?_
    rw [hlen]
    exact invMatrices_spec hms hvs (within_lexplusPairs n) hle

/-- The chain: its rows are in order. -/
theorem sbChain_spec {invs : List Invariant} (hinvs : invs ≠ [])
    (hle : ∀ i j, i < j → j < n →
      (invs.map (Invariant.part n) ++ [Part.pairs [adjacency n]]).flatMap (Part.row H i j i) ≤
        (invs.map (Invariant.part n) ++ [Part.pairs [adjacency n]]).flatMap (Part.row H i j j)) :
    Admits aux (sbChain aux condInvMatricesLexstar (invs ++ [.pair .adj])) H ∧
      Admits aux (sbChain aux condInvMatricesLexplus (invs ++ [.pair .adj])) H := by
  have hlast : ∀ {w : World bee} {ms : List InvMatrix},
      List.Forall₂ (ReadsPart w H) ((invs ++ [Invariant.pair .adj]).map (·.part n)) ms →
      ∃ ms' m, ms = ms' ++ [.matrix m] ∧
        List.Forall₂ (ReadsPart w H) (invs.map (·.part n)) ms' ∧
        ReadsMatrix w m n (entries (adjacency n) H) := fun {w ms} h => by
    rw [List.map_append, ← List.forall₂_reverse_iff, List.reverse_append] at h
    obtain ⟨last, ms', h1, h2, he⟩ := List.forall₂_cons_left_iff.mp h
    cases h1 with
    | @matrix m _ hm =>
      refine ⟨ms'.reverse, m, by rw [← List.reverse_reverse ms, he, List.reverse_cons], ?_, hm⟩
      rwa [← List.forall₂_reverse_iff, List.reverse_reverse]
  constructor
  · refine admits_of_makes haux fun w adj ds hfree hadj hds =>
      (compose_spec haux hadj hds hfree _).bind fun ms w' _ hms => ?_
    obtain ⟨ms', m, rfl, hms', hm⟩ := hlast hms
    refine makes_lift List.getLast?_concat (makes_lift (o := rows? (.matrix m)) rfl ?_)
    rw [List.dropLast_concat]
    unfold condInvMatricesLexstar
    rw [hm.length]
    exact condInvMatrices_spec hms' hm (within_lexstarPairs n) hle
  · refine admits_of_makes haux fun w adj ds hfree hadj hds =>
      (compose_spec haux hadj hds hfree _).bind fun ms w' _ hms => ?_
    obtain ⟨ms', m, rfl, hms', hm⟩ := hlast hms
    refine makes_lift List.getLast?_concat (makes_lift (o := rows? (.matrix m)) rfl ?_)
    rw [List.dropLast_concat]
    obtain ⟨m', hm', hlen⟩ :=
      exists_head hms' (fun _ _ h => ReadsPart.length h) (by simpa using hinvs)
    refine makes_lift hm' ?_
    rw [hlen]
    exact condInvMatrices_spec hms' hm (within_lexplusPairs n) hle

end Solutions

/-! ## Libraries -/

/-- Libraries that behave as documented. -/
def standard : Auxs where
  createAdjacencyMatrix n d s :=
    some (symmetricMatrix n d fun i j => s.next + (Matrix.upperPairs n).idxOf (i, j),
      { s with next := s.next + (Matrix.upperPairs n).length })
  degrees := VertexInvariants.rowSums
  matrixGetCell m i j := (nth1 i m).bind (nth1 j)

theorem standard_documented : standard.Documented where
  matrixGetCell _ _ _ := rfl
  createAdjacencyMatrix n d s := by
    have hidx : ∀ {i j}, i < j → j < n →
        (Matrix.upperPairs n).idxOf (i, j) < (Matrix.upperPairs n).length := fun hij hj =>
      List.idxOf_lt_length_of_mem (Matrix.mem_upperPairs.mpr ⟨hij, hj⟩)
    refine ⟨_, _, rfl, rfl, Nat.le_add_right _ _, fun i j hij hj => ?_,
      fun i j k l hij hj hkl hl h => ?_, fun y hy hy' => ?_⟩
    · exact ⟨Nat.le_add_right _ _, Nat.add_lt_add_left (hidx hij hj) _⟩
    · have := (List.idxOf_inj (Matrix.mem_upperPairs.mpr ⟨hij, hj⟩)).mp (Nat.add_left_cancel h)
      exact Prod.mk.inj this
    · have hlt : y - s.next < (Matrix.upperPairs n).length := by
        change y < s.next + (Matrix.upperPairs n).length at hy'
        omega
      obtain ⟨hij, hj⟩ := Matrix.mem_upperPairs.mp
        (show ((Matrix.upperPairs n)[y - s.next].1, (Matrix.upperPairs n)[y - s.next].2) ∈ _ from
          List.getElem_mem hlt)
      refine ⟨_, _, hij, hj, ?_⟩
      change y = s.next + (Matrix.upperPairs n).idxOf (Matrix.upperPairs n)[y - s.next]
      have hnd : (Matrix.upperPairs n).Nodup := Matrix.nodup_pairs .upperTriangleRows n
      rw [hnd.idxOf_getElem]
      omega
  degrees _ _ _ _ _ hm := VertexInvariants.rowSums_spec hm

/-! ## One invariant -/

/-- **A pair invariant has exactly one solution.** Given the adjacency matrix of `G` and its
degrees, the constraints of the invariant can be satisfied, force every variable that they create,
and give its matrix the values of the invariant; these go along with permutations of the vertices.
-/
theorem call_unique {aux : Auxs} (haux : aux.Documented) (p : PairInvariant) {n : Nat}
    (G : Graph n) {adj : Rows} {ds : List Term} {k : Nat} {σ₀ : Nat → Int}
    (hadjVars : ∀ row ∈ adj, ∀ t ∈ row, ∀ x ∈ t.vars, x < k)
    (hdsVars : ∀ t ∈ ds, ∀ x ∈ t.vars, x < k)
    (hadj : adj.map (·.map (Term.eval σ₀)) =
      (List.range n).map fun i => (List.range n).map fun j => truth (G.adj i j))
    (hds : ds.map (Term.eval σ₀) = (List.range n).map fun i => (G.degree i : Int)) :
    (∃ m s σ, p.call aux adj ds ⟨k, []⟩ = some (m, s) ∧ (∀ x < k, σ x = σ₀ x) ∧ s.Sat bee σ ∧
      ∀ τ, (∀ x < k, τ x = σ₀ x) → s.Sat bee τ → (∀ x < s.next, τ x = σ x) ∧
        m.map (·.map (Term.eval τ)) =
          (List.range n).map fun i => (List.range n).map (entries (p.value n) G i)) ∧
    ∀ (H : Graph n) (π : List Nat), π.Perm (List.range n) →
      (∀ i j, i < n → j < n → H.adj (Matrix.image π i) (Matrix.image π j) = G.adj i j) →
      ∀ i j, i < n → j < n → i ≠ j →
        entries (p.value n) H (Matrix.image π i) (Matrix.image π j) =
          entries (p.value n) G i j := by
  constructor
  · let w : World bee := ⟨⟨k, []⟩, σ₀, (· < k), False, by simp, fun _ h => absurd h (by simp),
      fun _ h => h⟩
    obtain ⟨m, w', hrun, hle, hset, hm⟩ := p.call_spec haux (w := w)
      (readsMatrix_of_map hadjVars hadj) ⟨hdsVars, hds⟩
    refine ⟨m, w'.store, w'.values, hrun, fun x hx => hle.values x hx, w'.sat, fun τ hτ hsat => ?_⟩
    have hagrees := hle.forced τ hsat fun x hx => hτ x hx
    refine ⟨fun x hx => hagrees x ?_, hm.agrees hagrees⟩
    rcases Nat.lt_or_ge x k with h | h
    · exact hle.known x h
    · exact hset.resolve_left id x h hx
  · intro H π hπ hH i j hi hj hij
    obtain rfl : G = H.permute π := ext_of_lt fun a b ha hb => by
      rw [H.permute_adj π ha hb, hH a b ha hb]
    rw [entries, entries, if_neg hij, if_neg ((Matrix.image_injective hπ).ne hij),
      (p.value n).permute H hπ hi hj]

/-- The path `0, 1, 2, 3`. -/
def pathFour : Graph 4 where
  adj i j := decide ((i + 1 = j ∧ j < 4) ∨ (j + 1 = i ∧ i < 4))
  symm i j := decide_eq_decide.mpr (by omega)
  irrefl i := decide_eq_false (by omega)
  bound i j h := by
    have := of_decide_eq_true h
    omega

/-- The common neighbours on a path, and on the path with its first two vertices exchanged. -/
theorem call_unique_pathFour :
    (∃ m s σ, PairInvariant.common.call standard
        (symmetricMatrix 4 (.int (-1)) fun i j => 4 * i + j) [.int 1, .int 2, .int 2, .int 1]
        ⟨12, []⟩ = some (m, s) ∧
      (∀ x < 12, σ x = truth (pathFour.adj (x / 4) (x % 4))) ∧ s.Sat bee σ ∧
      ∀ τ, (∀ x < 12, τ x = truth (pathFour.adj (x / 4) (x % 4))) → s.Sat bee τ →
        (∀ x < s.next, τ x = σ x) ∧
        m.map (·.map (Term.eval τ)) = (List.range 4).map fun i => (List.range 4).map
          (entries (PairInvariant.common.value 4) pathFour i)) ∧
    entries (PairInvariant.common.value 4) (pathFour.permute [1, 0, 2, 3]) 1 2 =
      entries (PairInvariant.common.value 4) pathFour 0 2 := by
  have hadj : (symmetricMatrix 4 (.int (-1)) fun i j => 4 * i + j).map
      (·.map (Term.eval fun x => truth (pathFour.adj (x / 4) (x % 4)))) =
      (List.range 4).map fun i => (List.range 4).map fun j => truth (pathFour.adj i j) := by decide
  have hds : [Term.int 1, Term.int 2, Term.int 2, Term.int 1].map
      (Term.eval fun x => truth (pathFour.adj (x / 4) (x % 4))) =
      (List.range 4).map fun i => (pathFour.degree i : Int) := by decide
  have hswap : ∀ i < 4, ∀ j < 4, (pathFour.permute [1, 0, 2, 3]).adj (Matrix.image [1, 0, 2, 3] i)
      (Matrix.image [1, 0, 2, 3] j) = pathFour.adj i j := by decide
  have h := call_unique standard_documented .common pathFour (k := 12) (by decide) (by decide) hadj
    hds
  exact ⟨h.1, h.2 _ [1, 0, 2, 3] (by decide) (fun i j hi hj => hswap i hi j hj) 0 2 (by decide)
    (by decide) (by decide)⟩

/-! ## No class is lost -/

/-- **Every graph has a labelling that is kept.** For every list of pair invariants one labelling
satisfies what is posted for their interleaved rows, with `lexstar` and with `lexplus`; the same
holds for every chain of pair invariants and vertex invariants that ends with adjacency. -/
theorem class_kept {aux : Auxs} (haux : aux.Documented) {n : Nat} (G : Graph n) :
    (∀ invs : List PairInvariant, invs ≠ [] → ∃ H : Graph n, Isomorphic G H ∧
      Admits aux (sbProd aux invMatricesLexstar invs) H ∧
      Admits aux (sbProd aux invMatricesLexplus invs) H) ∧
    ∀ invs : List Invariant, invs ≠ [] → ∃ H : Graph n, Isomorphic G H ∧
      Admits aux (sbChain aux condInvMatricesLexstar (invs ++ [.pair .adj])) H ∧
      Admits aux (sbChain aux condInvMatricesLexplus (invs ++ [.pair .adj])) H := by
  constructor
  · intro invs hinvs
    obtain ⟨H, hiso, hle⟩ := exists_least [.pairs (invs.map (·.value n))] G
    refine ⟨H, hiso, sbProd_spec haux hinvs fun i j hij hj => ?_⟩
    simpa only [List.flatMap_singleton] using hle i j hij hj
  · intro invs hinvs
    obtain ⟨H, hiso, hle⟩ := exists_least (invs.map (·.part n) ++ [.pairs [adjacency n]]) G
    exact ⟨H, hiso, sbChain_spec haux hinvs hle⟩

theorem class_kept_complete :
    (∃ H : Graph 3, Isomorphic (Graph.complete 3) H ∧
      Admits standard (sbProd standard invMatricesLexstar [.common, .adj]) H ∧
      Admits standard (sbProd standard invMatricesLexplus [.common, .adj]) H) ∧
    ∃ H : Graph 3, Isomorphic (Graph.complete 3) H ∧
      Admits standard (sbChain standard condInvMatricesLexstar ([.vertex .deg] ++ [.pair .adj])) H ∧
      Admits standard (sbChain standard condInvMatricesLexplus ([.vertex .deg] ++ [.pair .adj]))
        H :=
  ⟨(class_kept standard_documented (Graph.complete 3)).1 [.common, .adj] (List.cons_ne_nil _ _),
    (class_kept standard_documented (Graph.complete 3)).2 [.vertex .deg] (List.cons_ne_nil _ _)⟩

end SymBreak.Generation
