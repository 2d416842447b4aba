import SymBreak.Lib.Swap
import SymBreak.Invariants.Values
import Mathlib.Data.Finset.Max
import Mathlib.Data.List.Permutation
import Mathlib.Logic.Equiv.Basic

/-!
# Least labellings

A list of invariants reads a string off a graph, part by part (`Part.string`): the values of pair
invariants at every pair of vertices, those of a vertex invariant at every vertex. Among the
labellings of a graph one has the least string. Swapping two of its vertices `i < j` does not make
the string smaller, and what is moved first is the row of `i`, which the row of `j` replaces.

Results:
* **`leads_swap`**: the two rows decide between the strings;
* **`exists_least`**: some labelling has all its rows in order.
-/

namespace SymBreak.Invariants

open Graph Matrix Swap

variable {n : Nat}

/-! ## Strings and rows -/

/-- What is read together: pair invariants, cell by cell, or a vertex invariant. -/
inductive Part (n : Nat)
  | pairs (vs : List (PairValue n))
  | vertices (u : VertexValue n)

namespace Part

/-- The string that is read off the graph. -/
def string (G : Graph n) : Part n → List Int
  | .pairs vs => (upperPairs n).flatMap fun q => vs.map fun v => v.val G q.1 q.2
  | .vertices u => (List.range n).flatMap fun i => [u.val G i]

/-- The row of the vertex `k`, without the columns `i` and `j`. -/
def row (G : Graph n) (i j k : Nat) : Part n → List Int
  | .pairs vs => (others n i j).flatMap fun m => vs.map fun v => v.val G k m
  | .vertices u => [u.val G k]

end Part

/-! ## Swapping two vertices -/

/-- The permutation that swaps two vertices. -/
def swapped (n i j : Nat) : List Nat := (List.range n).map (Equiv.swap i j)

theorem swap_lt {i j : Nat} (hi : i < n) (hj : j < n) {k : Nat} (hk : k < n) :
    Equiv.swap i j k < n := by
  rw [Equiv.swap_apply_def]
  split_ifs
  · exact hj
  · exact hi
  · exact hk

theorem perm_swapped {i j : Nat} (hi : i < n) (hj : j < n) :
    (swapped n i j).Perm (List.range n) := by
  refine (List.perm_ext_iff_of_nodup (List.nodup_range.map (Equiv.swap i j).injective)
    List.nodup_range).mpr fun k => ?_
  rw [List.mem_map, List.mem_range]
  constructor
  · rintro ⟨m, hm, rfl⟩
    exact swap_lt hi hj (List.mem_range.mp hm)
  · exact fun hk => ⟨Equiv.swap i j k, List.mem_range.mpr (swap_lt hi hj hk),
      Equiv.swap_apply_self i j k⟩

theorem image_swapped {i j k : Nat} (hk : k < n) : image (swapped n i j) k = Equiv.swap i j k := by
  rw [image_of_lt (by simpa [swapped] using hk)]
  simp [swapped]

/-! ## Cells -/

/-- The cell of two vertices, above the diagonal. -/
def cell (i k : Nat) : Nat × Nat := (min i k, max i k)

theorem val_cell (v : PairValue n) (G : Graph n) (i k : Nat) :
    v.val G (cell i k).1 (cell i k).2 = v.val G i k := by
  rcases Nat.le_total i k with h | h
  · rw [cell, Nat.min_eq_left h, Nat.max_eq_right h]
  · rw [cell, Nat.min_eq_right h, Nat.max_eq_left h, v.symm]

/-- The order in which the cells are read, row by row. -/
def Before (q q' : Nat × Nat) : Prop := q.1 < q'.1 ∨ q.1 = q'.1 ∧ q.2 < q'.2

theorem before_asymm (q q' : Nat × Nat) (h : Before q q') : ¬ Before q' q := by
  unfold Before at *
  omega

theorem pairwise_upperPairs (n : Nat) : (upperPairs n).Pairwise Before := by
  rw [upperPairs, List.pairwise_flatMap]
  constructor
  · intro i _
    rw [List.pairwise_map]
    exact (List.pairwise_lt_range' 1 Nat.one_pos).imp fun h => Or.inr ⟨rfl, h⟩
  · refine List.pairwise_lt_range.imp fun {i i'} hlt q hq q' hq' => ?_
    obtain ⟨_, _, rfl⟩ := List.mem_map.mp hq
    obtain ⟨_, _, rfl⟩ := List.mem_map.mp hq'
    exact Or.inl hlt

section Swap

variable {i j : Nat}

/-- Where a cell is moved. -/
def swapCell (i j : Nat) (q : Nat × Nat) : Nat × Nat :=
  cell (Equiv.swap i j q.1) (Equiv.swap i j q.2)

/-- The cells of `i`, but for that of `i` and `j`. -/
def inRow (i j : Nat) (q : Nat × Nat) : Bool :=
  (q.1 = i ∨ q.2 = i) ∧ q.1 ≠ j ∧ q.2 ≠ j

theorem swapCell_mem (hi : i < n) (hj : j < n) {q : Nat × Nat} (hq : q ∈ upperPairs n) :
    swapCell i j q ∈ upperPairs n := by
  obtain ⟨a, b⟩ := q
  obtain ⟨hab, hb⟩ := mem_upperPairs.mp hq
  have hne := (Equiv.swap i j).injective.ne hab.ne
  have ha' := swap_lt hi hj (hab.trans hb)
  have hb' := swap_lt hi hj hb
  exact mem_upperPairs.mpr (by simp only; omega)

theorem swapCell_swapCell {q : Nat × Nat} (hq : q ∈ upperPairs n) :
    swapCell i j (swapCell i j q) = q := by
  obtain ⟨a, b⟩ := q
  have hab := (mem_upperPairs.mp hq).1
  rcases Nat.le_total (Equiv.swap i j a) (Equiv.swap i j b) with h | h
  · simp [swapCell, cell, Nat.min_eq_left h, Nat.max_eq_right h, hab.le]
  · simp [swapCell, cell, Nat.min_eq_right h, Nat.max_eq_left h, hab.le]

/-- A cell outside the row is not moved, or it is moved forward. -/
theorem swapCell_before (hij : i < j) {q : Nat × Nat} (hq : q ∈ upperPairs n) :
    inRow i j q = true ∨ swapCell i j q = q ∨ Before (swapCell i j q) q := by
  obtain ⟨a, b⟩ := q
  have hab := (mem_upperPairs.mp hq).1
  simp only [inRow, swapCell, cell, Before, Equiv.swap_apply_def, decide_eq_true_eq, Prod.mk.injEq]
  split_ifs <;> omega

/-- **The cells of a row**, in the order of the columns. -/
theorem filter_inRow (hij : i < j) (hj : j < n) :
    (upperPairs n).filter (inRow i j) = (others n i j).map (cell i) := by
  have hcell : ((others n i j).map (cell i)).Pairwise Before := by
    rw [List.pairwise_map]
    refine ((List.pairwise_lt_range (n := n)).filter _).imp fun {k k'} h => ?_
    simp only [Before, cell]
    omega
  have hirr : ∀ {l : List (Nat × Nat)}, l.Pairwise Before → l.Nodup := fun h =>
    h.imp fun {q _} hb he => by
      subst he
      exact before_asymm q q hb hb
  have hrow := (pairwise_upperPairs n).filter (inRow i j)
  refine List.Perm.eq_of_pairwise (fun q q' _ _ h h' => absurd h' (before_asymm q q' h)) hrow hcell
    ((List.perm_ext_iff_of_nodup (hirr hrow) (hirr hcell)).mpr fun q => ?_)
  obtain ⟨a, b⟩ := q
  simp only [List.mem_filter, mem_upperPairs, inRow, decide_eq_true_eq, List.mem_map, mem_others,
    cell, Prod.mk.injEq]
  constructor
  · rintro ⟨⟨hab, hb⟩, rfl | rfl, ha', hb'⟩
    · exact ⟨b, by omega, by omega, by omega⟩
    · exact ⟨a, by omega, by omega, by omega⟩
  · rintro ⟨k, ⟨hk, hki, hkj⟩, rfl, rfl⟩
    omega

theorem swapCell_cell {k : Nat} (hi : k ≠ i) (hj : k ≠ j) : swapCell i j (cell i k) = cell j k := by
  rcases Nat.le_total i k with h | h
  · simp [swapCell, cell, h, Equiv.swap_apply_of_ne_of_ne hi hj]
  · simp [swapCell, cell, h, Equiv.swap_apply_of_ne_of_ne hi hj, min_comm, max_comm]

theorem leads_pairs (hij : i < j) (hj : j < n) (G : Graph n) (vs : List (PairValue n)) :
    Leads ((Part.pairs vs).string G) ((Part.pairs vs).string (G.permute (swapped n i j)))
      ((Part.pairs vs).row G i j i) ((Part.pairs vs).row G i j j) := by
  have hi : i < n := hij.trans hj
  let f : Nat × Nat → List Int := fun q => vs.map fun v => v.val G q.1 q.2
  have hf : ∀ a b, f (cell a b) = vs.map fun v => v.val G a b := fun a b =>
    List.map_congr_left fun v _ => val_cell v G a b
  have hstring : (Part.pairs vs).string (G.permute (swapped n i j)) =
      (upperPairs n).flatMap (f ∘ swapCell i j) := by
    refine List.flatMap_congr fun q hq => ?_
    obtain ⟨h1, h2⟩ := mem_upperPairs.mp (show (q.1, q.2) ∈ upperPairs n from hq)
    refine Eq.trans (List.map_congr_left fun v _ => ?_) (hf _ _).symm
    rw [v.permute G (perm_swapped hi hj) (h1.trans h2) h2, image_swapped (h1.trans h2),
      image_swapped h2]
  have hrow : ∀ k, (Part.pairs vs).row G i j k = ((others n i j).map (cell k)).flatMap f :=
    fun k => by
      rw [List.flatMap_map]
      exact List.flatMap_congr fun m _ => (hf k m).symm
  have hswap : ((others n i j).map (cell j)).flatMap f =
      ((others n i j).map (cell i)).flatMap (f ∘ swapCell i j) := by
    rw [List.flatMap_map, List.flatMap_map]
    refine List.flatMap_congr fun k hk => ?_
    obtain ⟨-, hki, hkj⟩ := mem_others.mp hk
    rw [Function.comp_apply, swapCell_cell hki hkj]
  rw [hstring, hrow, hrow, hswap, ← filter_inRow hij hj]
  exact leads_filter (pairwise_upperPairs n) before_asymm (fun _ => swapCell_swapCell)
    (fun _ => swapCell_mem hi hj) (fun _ => by simp) (inRow i j) fun _ => swapCell_before hij

theorem leads_vertices (hij : i < j) (hj : j < n) (G : Graph n) (u : VertexValue n) :
    Leads ((Part.vertices u).string G) ((Part.vertices u).string (G.permute (swapped n i j)))
      ((Part.vertices u).row G i j i) ((Part.vertices u).row G i j j) := by
  have hi : i < n := hij.trans hj
  let f : Nat → List Int := fun k => [u.val G k]
  have hstring : (Part.vertices u).string (G.permute (swapped n i j)) =
      (List.range n).flatMap (f ∘ Equiv.swap i j) := by
    refine List.flatMap_congr fun k hk => ?_
    have hk := List.mem_range.mp hk
    rw [u.permute G (perm_swapped hi hj) hk, image_swapped hk]
    rfl
  have hfilter : (List.range n).filter (fun k => k = i) = [i] :=
    List.Perm.eq_of_pairwise (fun a b _ _ h h' => absurd h' (Nat.lt_asymm h))
      ((List.pairwise_lt_range (n := n)).filter _) (List.pairwise_singleton _ _)
      ((List.perm_ext_iff_of_nodup (List.nodup_range.filter _) (List.nodup_singleton i)).mpr
        fun k => by simp; omega)
  have hrow : (Part.vertices u).row G i j j = [i].flatMap (f ∘ Equiv.swap i j) := by
    simp [Part.row, f]
  rw [hstring, hrow, ← hfilter, show (Part.vertices u).row G i j i = [i].flatMap f from rfl,
    ← hfilter]
  refine leads_filter List.pairwise_lt_range (fun _ _ h => Nat.lt_asymm h)
    (fun k _ => Equiv.swap_apply_self i j k)
    (fun k hk => List.mem_range.mpr (swap_lt hi hj (List.mem_range.mp hk))) (fun _ => rfl) _
    fun k _ => ?_
  simp only [decide_eq_true_eq, Equiv.swap_apply_def]
  split_ifs <;> omega

/-- **The rows decide** between the string and that of the swapped labelling. -/
theorem leads_swap (hij : i < j) (hj : j < n) (G : Graph n) (part : Part n) :
    Leads (part.string G) (part.string (G.permute (swapped n i j))) (part.row G i j i)
      (part.row G i j j) := by
  cases part with
  | pairs vs => exact leads_pairs hij hj G vs
  | vertices u => exact leads_vertices hij hj G u

end Swap

/-! ## Least strings -/

/-- **A least labelling**: its rows are in order, all at once. -/
theorem exists_least (parts : List (Part n)) (G : Graph n) : ∃ H : Graph n, Isomorphic G H ∧
    ∀ i j, i < j → j < n → parts.flatMap (·.row H i j i) ≤ parts.flatMap (·.row H i j j) := by
  obtain ⟨p, hp, hmin⟩ := (List.range n).permutations.toFinset.exists_min_image
    (fun p => parts.flatMap (·.string (G.permute p))) ⟨List.range n, by simp⟩
  simp only [List.mem_toFinset, List.mem_permutations] at hp hmin
  refine ⟨G.permute p, permute_isomorphic G hp le_rfl, fun i j hij hj => ?_⟩
  obtain ⟨p', hp', he⟩ := isomorphic_iff.mp ((permute_isomorphic G hp le_rfl).trans
    (permute_isomorphic (G.permute p) (perm_swapped (hij.trans hj) hj) le_rfl))
  have hle := hmin p' hp'
  rw [← he] at hle
  exact (Leads.flatMap fun part _ => leads_swap hij hj (G.permute p) part).le hle

end SymBreak.Invariants
