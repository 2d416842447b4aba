import SymBreak.Lib.Lex
import SymBreak.Matrix
import Mathlib.Combinatorics.SimpleGraph.Maps

/-!
# Graphs, their strings and canonizing sets

A simple graph on the vertices `0, …, n - 1` (`Graph n`), as its symmetric adjacency matrix with a
zero diagonal, and the string `G.string idx` that the two indexings read off it. Graphs are
isomorphic when Mathlib's `SimpleGraph`s on `Fin n` are (`Isomorphic`); `isomorphic_iff` says that
this is being the other's image under a permutation of the vertices.

`Satisfies idx imps G` says that `G` satisfies every lex implication of the list, `LexMin idx G`
that its string is the least in its isomorphism class.

Results:
* **`lexMin_of_closed`**: a class of graphs closed up to length `n (n - 1) / 2 - 1` holds graphs of
  minimal string only;
* **`satisfies_of_lexMin`**: a graph of minimal string satisfies every lex implication of a
  permutation of at most `n` vertices.
-/

namespace SymBreak

/-- A simple graph on the vertices below `n`. -/
@[ext] structure Graph (n : Nat) where
  adj : Nat → Nat → Bool
  symm : ∀ i j, adj i j = adj j i
  irrefl : ∀ i, adj i i = false
  bound : ∀ i j, adj i j = true → i < n

namespace Graph

open Matrix

variable {n : Nat}

/-- The graph without edges. -/
def empty (n : Nat) : Graph n := ⟨fun _ _ => false, fun _ _ => rfl, fun _ => rfl, by simp⟩

/-- The graph with every edge. -/
def complete (n : Nat) : Graph n where
  adj i j := decide (i < n ∧ j < n ∧ i ≠ j)
  symm i j := decide_eq_decide.mpr (by omega)
  irrefl i := decide_eq_false (by omega)
  bound i j h := (of_decide_eq_true h).1

theorem lt_right (G : Graph n) {i j : Nat} (h : G.adj i j = true) : j < n :=
  G.bound j i (by rw [G.symm, h])

theorem ne_of_adj (G : Graph n) {i j : Nat} (h : G.adj i j = true) : i ≠ j := by
  rintro rfl
  rw [G.irrefl] at h
  exact absurd h (by simp)

/-- Graphs with the same edges among the vertices. -/
theorem ext_of_lt {G H : Graph n} (h : ∀ i j, i < n → j < n → G.adj i j = H.adj i j) : G = H := by
  refine Graph.ext (funext₂ fun i j => ?_)
  by_cases hij : i < n ∧ j < n
  · exact h i j hij.1 hij.2
  · have out : ∀ K : Graph n, K.adj i j = false := fun K => by
      by_contra hK
      rw [Bool.not_eq_false] at hK
      exact hij ⟨K.bound i j hK, K.lt_right hK⟩
    rw [out G, out H]

def toSimple (G : Graph n) : SimpleGraph (Fin n) where
  Adj i j := G.adj i j = true
  symm := ⟨fun i j h => by rw [G.symm, h]⟩
  loopless := ⟨fun i h => G.ne_of_adj h rfl⟩

/-- The two graphs are isomorphic. -/
def Isomorphic (G H : Graph n) : Prop := Nonempty (G.toSimple ≃g H.toSimple)

/-- The number of neighbours of a vertex. -/
def degree (G : Graph n) (v : Nat) : Nat := (List.range n).countP (G.adj v)

/-- The adjacency matrix. -/
def matrix (G : Graph n) : Matrix Bool where
  nRows := n
  nCols := n
  elements := (List.range (n * n)).map fun k => G.adj (k / n) (k % n)
  size_eq := by simp

/-- The string of the graph. -/
def string (idx : CanonicalIndexing) (G : Graph n) : List Bool := indexing idx G.matrix

/-- The graph of `G.matrix.permute perm`. -/
def permute (G : Graph n) (perm : List Nat) : Graph n where
  adj i j := decide (i < n) && decide (j < n) && G.adj (image perm i) (image perm j)
  symm i j := by rw [G.symm, Bool.and_comm (decide (i < n))]
  irrefl i := by simp [G.irrefl]
  bound i j h := by simp only [Bool.and_eq_true, decide_eq_true_eq] at h; exact h.1.1

/-- The subgraph induced on the first `m` vertices. -/
def induce (G : Graph n) (m : Nat) : Graph m where
  adj i j := decide (i < m) && decide (j < m) && G.adj i j
  symm i j := by rw [G.symm, Bool.and_comm (decide (i < m))]
  irrefl i := by simp [G.irrefl]
  bound i j h := by simp only [Bool.and_eq_true, decide_eq_true_eq] at h; exact h.1.1

@[simp] theorem nRows_matrix (G : Graph n) : G.matrix.nRows = n := rfl

@[simp] theorem nCols_matrix (G : Graph n) : G.matrix.nCols = n := rfl

theorem get_matrix (G : Graph n) {i j : Nat} (hi : i < n) (hj : j < n) :
    G.matrix.get i j = G.adj i j := by
  have hlt := Matrix.pos_lt hi hj
  simp [Matrix.get, matrix, List.getD_eq_getElem?_getD, hlt, pos_div hj, pos_mod hj]

theorem permute_adj (G : Graph n) (perm : List Nat) {i j : Nat} (hi : i < n) (hj : j < n) :
    (G.permute perm).adj i j = G.adj (image perm i) (image perm j) := by
  simp [permute, hi, hj]

theorem induce_adj (G : Graph n) {m i j : Nat} (hi : i < m) (hj : j < m) :
    (G.induce m).adj i j = G.adj i j := by
  simp [induce, hi, hj]

theorem string_eq (idx : CanonicalIndexing) (G : Graph n) :
    G.string idx = (pairs idx n).map fun ij => G.adj ij.1 ij.2 := by
  rw [string, indexing_eq rfl rfl]
  refine List.map_congr_left fun ij hij => ?_
  obtain ⟨hi, hj, -⟩ := pair_lt hij
  exact G.get_matrix hi hj

@[simp] theorem length_string (idx : CanonicalIndexing) (G : Graph n) :
    (G.string idx).length = n * (n - 1) / 2 := by
  rw [string_eq, List.length_map, length_pairs]

/-! ## Subgraphs -/

/-- The rows of the adjacency matrix one after another, as characters. -/
def subgraphString (G : Graph n) : List Char :=
  G.matrix.elements.map fun b => if b then '1' else '0'

@[simp] theorem length_subgraphString (G : Graph n) : G.subgraphString.length = n * n := by
  rw [subgraphString, List.length_map, G.matrix.size_eq, nRows_matrix, nCols_matrix]

/-- `(int)sqrt(subgraphStr.size())` -/
@[simp] theorem sqrt_length_subgraphString (G : Graph n) :
    Nat.sqrt G.subgraphString.length = n := by
  rw [length_subgraphString, Nat.sqrt_eq]

theorem getD_subgraphString (G : Graph n) {t : Nat} (ht : t < n * n) :
    G.subgraphString.getD t '0' = '0' ↔ G.adj (t / n) (t % n) = false := by
  rw [List.getD_eq_getElem _ _ (by rwa [length_subgraphString])]
  simp [subgraphString, matrix]

/-- Induced subgraphs are compared position by position of their strings. -/
theorem induce_eq_iff (G : Graph n) {k : Nat} (H : Graph k) :
    G.induce k = H ↔ ∀ t < k * k, G.adj (t / k) (t % k) = H.adj (t / k) (t % k) := by
  constructor
  · rintro rfl t ht
    obtain ⟨h1, h2⟩ := div_mod_lt ht
    rw [induce_adj G h1 h2]
  · intro h
    refine ext_of_lt fun i j hi hj => ?_
    have := h (i * k + j) (Matrix.pos_lt hi hj)
    rwa [pos_div hj, pos_mod hj, ← induce_adj G hi hj] at this

/-! ## Relabellings -/

/-- The permutations of at most `n` vertices. -/
def Relabelling (n : Nat) : Type := { p : List Nat // ∃ m ≤ n, p.Perm (List.range m) }

/-- **The string of the permuted matrix** is the string of the permuted graph. -/
theorem indexing_matrix_permute (idx : CanonicalIndexing) (G : Graph n) {m : Nat}
    {perm : List Nat} (hp : perm.Perm (List.range m)) (hmn : m ≤ n) :
    indexing idx (G.matrix.permute perm) = (G.permute perm).string idx := by
  rw [indexing_permute rfl rfl, string_eq]
  refine List.map_congr_left fun ij hij => ?_
  obtain ⟨hi, hj, -⟩ := pair_lt hij
  rw [permute_adj G perm hi hj, G.get_matrix (image_lt hp hmn hi) (image_lt hp hmn hj)]

theorem string_permute_perm (idx : CanonicalIndexing) (G : Graph n) {m : Nat} {perm : List Nat}
    (hp : perm.Perm (List.range m)) (hmn : m ≤ n) :
    (G.string idx).Perm ((G.permute perm).string idx) := by
  have h : (G.permute perm).string idx =
      (pairs idx n).map fun ij => G.adj (image perm ij.1) (image perm ij.2) := by
    rw [string_eq]
    refine List.map_congr_left fun ij hij => ?_
    obtain ⟨hi, hj, -⟩ := pair_lt hij
    exact permute_adj G perm hi hj
  rw [h, string_eq]
  exact (map_pairs_perm G.symm (fun i hi => image_lt hp hmn hi) (image_injective hp)
    (fun i hi => exists_image hp hmn hi) idx).symm

/-- A permutation of the vertices as a bijection. -/
theorem permute_isomorphic (G : Graph n) {m : Nat} {perm : List Nat}
    (hp : perm.Perm (List.range m)) (hmn : m ≤ n) : Isomorphic G (G.permute perm) := by
  let f : Fin n → Fin n := fun i => ⟨image perm i, image_lt hp hmn i.isLt⟩
  have hf : Function.Injective f := fun i j h =>
    Fin.ext (image_injective hp (Fin.mk.inj h))
  let e : Fin n ≃ Fin n := Equiv.ofBijective f (Finite.injective_iff_bijective.mp hf)
  refine ⟨RelIso.symm ⟨e, fun {i j} => ?_⟩⟩
  simp [toSimple, permute_adj, e, f]

/-- **Isomorphic graphs are images under a permutation.** -/
theorem isomorphic_iff {G H : Graph n} :
    Isomorphic G H ↔ ∃ p : List Nat, p.Perm (List.range n) ∧ H = G.permute p := by
  constructor
  · rintro ⟨e⟩
    let p : List Nat := (List.finRange n).map fun i => (e.symm i : Nat)
    have himage : ∀ {i : Nat} (hi : i < n), image p i = e.symm ⟨i, hi⟩ := fun {i} hi => by
      rw [image_of_lt (by simp [p, hi])]
      simp [p]
    refine ⟨p, ?_, ext_of_lt fun i j hi hj => ?_⟩
    · have hnd : p.Nodup := (List.nodup_finRange n).map fun i j h =>
        e.symm.injective (Fin.ext h)
      rw [List.perm_ext_iff_of_nodup hnd List.nodup_range]
      intro x
      simp only [p, List.mem_map, List.mem_finRange, true_and, List.mem_range]
      constructor
      · rintro ⟨i, rfl⟩
        exact (e.symm i).isLt
      · exact fun hx => ⟨e ⟨x, hx⟩, by simp⟩
    · rw [permute_adj G p hi hj, himage hi, himage hj, Bool.eq_iff_iff]
      exact (e.symm.map_adj_iff (v := ⟨i, hi⟩) (w := ⟨j, hj⟩)).symm
  · rintro ⟨p, hp, rfl⟩
    exact permute_isomorphic G hp le_rfl

theorem Isomorphic.symm {G H : Graph n} (h : Isomorphic G H) : Isomorphic H G :=
  h.map RelIso.symm

theorem Isomorphic.trans {G H K : Graph n} (h : Isomorphic G H) (h' : Isomorphic H K) :
    Isomorphic G K :=
  ⟨h.some.trans h'.some⟩

/-! ## Lex implications -/

/-- `G` satisfies the lex implication `(perm, length)`: if its string and that of its image agree on
the first `length - 1` positions, then its entry at the next one is at most that of the image. -/
def SatisfiesImp (idx : CanonicalIndexing) (imp : LexImplication) (G : Graph n) : Prop :=
  Lex.Implication imp.length (G.string idx) (indexing idx (G.matrix.permute imp.perm))

/-- `G` satisfies every lex implication of the list. -/
def Satisfies (idx : CanonicalIndexing) (imps : List LexImplication) (G : Graph n) : Prop :=
  ∀ imp ∈ imps, SatisfiesImp idx imp G

/-- The string of `G` is the least in its isomorphism class. -/
def LexMin (idx : CanonicalIndexing) (G : Graph n) : Prop :=
  ∀ H : Graph n, Isomorphic G H → G.string idx ≤ H.string idx

/-- The graphs of `n` vertices that satisfy the lex implications are those of minimal string. -/
def Canonizing (n : Nat) (idx : CanonicalIndexing) (imps : List LexImplication) : Prop :=
  ∀ G : Graph n, Satisfies idx imps G ↔ LexMin idx G

/-- The permutation is one of at most `n` vertices, the length one of the positions of a string. -/
structure Valid (n : Nat) (imp : LexImplication) : Prop where
  perm : ∃ m ≤ n, imp.perm.Perm (List.range m)
  pos : 1 ≤ imp.length
  le : imp.length ≤ n * (n - 1) / 2

variable {idx : CanonicalIndexing} {G : Graph n}

@[simp] theorem satisfies_nil : Satisfies idx [] G := by simp [Satisfies]

theorem satisfies_cons {imp : LexImplication} {imps : List LexImplication} :
    Satisfies idx (imp :: imps) G ↔ SatisfiesImp idx imp G ∧ Satisfies idx imps G :=
  List.forall_mem_cons

@[simp] theorem satisfies_append {imps imps' : List LexImplication} :
    Satisfies idx (imps ++ imps') G ↔ Satisfies idx imps G ∧ Satisfies idx imps' G := by
  simp only [Satisfies, List.mem_append, or_imp, forall_and]

/-- The number of pairs grows with the number of vertices. -/
theorem pairs_mono {m n : Nat} (h : m ≤ n) : m * (m - 1) / 2 ≤ n * (n - 1) / 2 :=
  Nat.div_le_div_right (Nat.mul_le_mul h (by omega))

theorem Valid.mono {m n : Nat} {imp : LexImplication} (h : Valid m imp) (hmn : m ≤ n) :
    Valid n imp := by
  obtain ⟨k, hk, hp⟩ := h.perm
  exact ⟨⟨k, hk.trans hmn, hp⟩, h.pos, h.le.trans (pairs_mono hmn)⟩

/-- The images of `G` under the permutations of at most `n` vertices are the isomorphic graphs. -/
theorem lexMin_iff : LexMin idx G ↔
    Lex.Minimal (string idx) (fun (p : Relabelling n) G => G.permute p.1) G := by
  constructor
  · rintro h ⟨p, m, hm, hp⟩
    exact h _ (permute_isomorphic G hp hm)
  · intro h H hH
    obtain ⟨p, hp, rfl⟩ := isomorphic_iff.mp hH
    exact h ⟨p, n, le_rfl, hp⟩

theorem satisfiesImp_iff {imp : LexImplication} (p : Relabelling n) (hp : p.1 = imp.perm) :
    SatisfiesImp idx imp G ↔
      Lex.Holds (string idx) (fun (p : Relabelling n) G => G.permute p.1) G (p, imp.length) := by
  obtain ⟨p, m, hm, hperm⟩ := p
  subst hp
  rw [SatisfiesImp, indexing_matrix_permute idx G hperm hm]
  rfl

/-- **A graph of minimal string satisfies every lex implication** of at most `n` vertices. -/
theorem satisfies_of_lexMin (h : LexMin idx G) {imps : List LexImplication}
    (hv : ∀ imp ∈ imps, Valid n imp) : Satisfies idx imps G := by
  intro imp himp
  obtain ⟨⟨m, hm, hp⟩, hpos, hle⟩ := hv imp himp
  rw [satisfiesImp_iff ⟨imp.perm, m, hm, hp⟩ rfl]
  exact Lex.holds_of_minimal (K := n * (n - 1) / 2) (length_string idx) (lexMin_iff.mp h) hpos hle

/-- The graphs of `C` satisfy the lex implications of length at most `ℓ` of every isomorphic
graph. -/
def ClosedUpTo (idx : CanonicalIndexing) (ℓ : Nat) (C : Graph n → Prop) : Prop :=
  Lex.ClosedUpTo (string idx) (fun (p : Relabelling n) G => G.permute p.1) ℓ C

/-- **Closed up to the last length but one**: the strings are minimal. -/
theorem lexMin_of_closed {C : Graph n → Prop}
    (h : ClosedUpTo idx (n * (n - 1) / 2 - 1) C) (hG : C G) : LexMin idx G := by
  rw [lexMin_iff]
  refine Lex.minimal_of_closed (K := n * (n - 1) / 2) (length_string idx) h ?_ hG
  rintro G ⟨p, m, hm, hp⟩ heq
  exact Lex.eq_of_perm_of_take (string_permute_perm idx G hp hm) (length_string idx G) heq

/-- Graphs of at most two vertices have minimal strings. -/
theorem lexMin_of_le_two (hn : n ≤ 2) (G : Graph n) : LexMin idx G := by
  have h : n * (n - 1) / 2 - 1 = 0 := by
    have : n * (n - 1) ≤ 2 * 1 := Nat.mul_le_mul hn (by omega)
    omega
  exact lexMin_of_closed (C := fun _ => True) (by rw [h]; exact Lex.closed_zero _) trivial

/-! ## Columns -/

/-- Column-wise, the string of an induced subgraph comes first. -/
theorem string_induce {m : Nat} (hmn : m ≤ n) (G : Graph n) :
    (G.induce m).string .upperTriangleCols =
      (G.string .upperTriangleCols).take (m * (m - 1) / 2) := by
  obtain ⟨rest, hrest⟩ := lowerPairs_prefix hmn
  rw [string_eq, string_eq, pairs, pairs, ← hrest, List.map_append, List.take_left'
    (by rw [List.length_map, length_lowerPairs])]
  refine List.map_congr_left fun ij hij => ?_
  have hij' : ij ∈ pairs .upperTriangleCols m := hij
  obtain ⟨hi, hj, -⟩ := pair_lt hij'
  exact G.induce_adj hi hj

theorem permute_induce (G : Graph n) {j m : Nat} {perm : List Nat} (hp : perm.Perm (List.range j))
    (hjm : j ≤ m) (hmn : m ≤ n) : (G.permute perm).induce m = (G.induce m).permute perm := by
  refine ext_of_lt fun x y hx hy => ?_
  rw [induce_adj _ hx hy, permute_adj G perm (by omega) (by omega), permute_adj _ perm hx hy,
    induce_adj _ (image_lt hp hjm hx) (image_lt hp hjm hy)]

/-- **Column-wise, a lex implication of the first vertices is one of the subgraph they induce.** -/
theorem satisfiesImp_induce (G : Graph n) {j m : Nat} (hjm : j ≤ m) (hmn : m ≤ n)
    {imp : LexImplication} (hp : imp.perm.Perm (List.range j)) (hpos : 1 ≤ imp.length)
    (hle : imp.length ≤ m * (m - 1) / 2) :
    SatisfiesImp .upperTriangleCols imp G ↔ SatisfiesImp .upperTriangleCols imp (G.induce m) := by
  rw [SatisfiesImp, SatisfiesImp, indexing_matrix_permute _ G hp (hjm.trans hmn),
    indexing_matrix_permute _ _ hp hjm, ← permute_induce G hp hjm hmn, string_induce hmn,
    string_induce hmn, Lex.implication_take hpos hle]

end Graph

end SymBreak
