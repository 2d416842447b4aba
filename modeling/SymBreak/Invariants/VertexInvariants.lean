import SymBreak.Invariants.Triangles

/-!
# The vertex invariants

Model of `vertex_invariants.pl`, whose invariants are integers for the vertices. What it shares with
`pair_invariants.pl`, word for word (`triangles_reif_map`, `map_get_values`, `dist2_matrix`,
`shorten`), is modelled there.

Results: `invTriangles_spec`, `invDist2_spec`, the solutions of the two, and `rowSums_spec`.
-/

namespace SymBreak.VertexInvariants

open Declare Bee Invariants PairInvariants

/-! ## Model -/

section Model

variable (aux : Auxs)

/-- `inv_triangles(AdjMatrix, Counts)` (`vertex_invariants.pl:8-22`) -/
def invTriangles (adjMatrix : Rows) : Post Constraint (List Term) := do
  let map ← trianglesReifMap aux adjMatrix
  (between 1 adjMatrix.length).mapM fun i => do
    let keys := (triples adjMatrix.length).flatMap (withMember i)
    let vars ← trianglesMapGetValues map keys
    countOf keys.length vars

/-- `row_sums(Rows, Sums)` (`vertex_invariants.pl:49-53`) -/
def rowSums (m : Rows) : Post Constraint (List Term) := m.mapM fun row => countOf row.length row

/-- `inv_dist2(AdjMatrix, Dist2Inv)` (`vertex_invariants.pl:55-57`) -/
def invDist2 (adjMatrix : Rows) : Post Constraint (List Term) := do
  rowSums (← dist2Matrix aux adjMatrix)

end Model

/-! ## Solutions -/

variable {n : Nat} {w : World bee} {G : Graph n} {aux : Auxs} (haux : aux.Documented) {adj : Rows}
  (hadj : ReadsMatrix w adj n fun i j => truth (G.adj i j))
include haux hadj

theorem invTriangles_spec : Makes (invTriangles aux adj) w fun ts w' =>
    ReadsAll w' ts ((List.range n).map ((triangles n).val G)) := by
  unfold invTriangles
  refine (trianglesReifMap_spec haux hadj).bind fun map w₁ _ hmap => ?_
  rw [hadj.length]
  refine (Makes.mapM (fun i t w' => Reads w' t ((triangles n).val G (i - 1)))
    (fun _ _ _ _ hle h => h.mono hle) fun i hi w' hle => ?_).imp fun ts w' _ h => ?_
  · obtain ⟨i, rfl⟩ : ∃ k, i = k + 1 := ⟨i - 1, by have := mem_between.mp hi; omega⟩
    obtain ⟨vars, hvars, hread⟩ := mapGetValues_spec (hmap.mono hle) fun t ht =>
      mem_withMember (i := i + 1) ht
    refine makes_lift hvars ((makes_countOf (by exact_mod_cast List.countP_le_length) hread).imp
      fun t w'' _ ht => ?_)
    have hcount := countP_keys G true i
    simp only [beq_true] at hcount
    rw [hcount] at ht
    exact ht
  · have hreads := readsAll_of_forall₂ h
    rw [between_one, List.map_map] at hreads
    exact hreads

omit haux hadj in
/-- The sums of the rows. -/
theorem rowSums_spec {m : Rows} {P : Nat → Nat → Bool}
    (hm : ReadsMatrix w m n fun i k => truth (P i k)) : Makes (rowSums m) w fun ts w' =>
      ReadsAll w' ts ((List.range n).map fun i => ((List.range n).countP (P i) : Int)) := by
  refine (Makes.mapM₂ hm.forall₂ (fun i t w' => Reads w' t ((List.range n).countP (P i)))
    (fun _ _ _ _ hle h => h.mono hle) fun i row hrow w' hle => ?_).imp fun ts w' _ h =>
      readsAll_of_forall₂ h
  have hlen : row.length = n := by simpa using congrArg List.length hrow.eval
  refine makes_countOf ?_ (hrow.mono hle)
  rw [hlen]
  exact_mod_cast List.countP_le_length.trans List.length_range.le

theorem invDist2_spec : Makes (invDist2 aux adj) w fun ts w' =>
    ReadsAll w' ts ((List.range n).map ((nearVertices n).val G)) := by
  unfold invDist2
  refine (dist2Matrix_spec haux hadj).bind fun m w₁ _ hm => (rowSums_spec hm).imp fun ts w₂ _ hts =>
    ⟨hts.known, hts.eval.trans (List.map_congr_left fun i _ => ?_)⟩
  change _ = (((others n i i).countP (near G i) : Nat) : Int)
  rw [others, List.countP_filter]
  exact congrArg Nat.cast (List.countP_congr fun k _ => by grind)

end SymBreak.VertexInvariants
