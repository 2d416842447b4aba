import SymBreak.Matrix

/-!
# The permutations act on the matrices

The class is in the repository twice, under one include guard: `core/Matrix.h`, which is
`SymBreak.Matrix`, and `mtl/Matrix.h`, which is `SymBreak.Matrix.Mtl`. They differ in one bound,
that of the outer loop of `lowerTriangle` (`mtl/Matrix.h:100`).

Results:
* `permute_permute`: permuting twice is permuting by the composition;
* `get_permute_symm`, `diagonal_permute`: a symmetric matrix stays symmetric and keeps its diagonal;
* `triangle_permute`, `readsPairsOnce`: its triangles are reordered, and hold every pair once;
* `mtl_eq_core`: the copies agree on square matrices;
* **`permute_action`**: all of it, of both copies.
-/

namespace SymBreak.Matrix

variable {α : Type} [Inhabited α]

/-! ## The second copy -/

namespace Mtl

/-- `Matrix::get` (`mtl/Matrix.h:49-51`) -/
def get (M : Matrix α) (i j : Nat) : α := M.elements.getD (i * M.nCols + j) default

omit [Inhabited α] in
theorem length_set (M : Matrix α) (i j : Nat) (value : α) :
    (M.elements.set (i * M.nCols + j) value).length = M.nRows * M.nCols :=
  List.length_set.trans M.size_eq

omit [Inhabited α] in
/-- `Matrix::set` (`mtl/Matrix.h:54-56`) -/
def set (M : Matrix α) (i j : Nat) (value : α) : Matrix α :=
  { M with
    elements := M.elements.set (i * M.nCols + j) value
    size_eq := length_set M i j value }

/-- `Matrix::permute` (`mtl/Matrix.h:72-83`) -/
def permute (M : Matrix α) (perm : List Nat) : Matrix α :=
  (List.range M.nRows).foldl (fun permuted i =>
    (List.range M.nCols).foldl (fun permuted j =>
      let pi := image perm i
      let pj := image perm j
      set permuted i j (get M pi pj)) permuted) (new M.nRows M.nCols)

/-- `Matrix::upperTriangle` (`mtl/Matrix.h:86-95`) -/
def upperTriangle (M : Matrix α) : List α :=
  (List.range M.nRows).flatMap fun i =>
    (List.range' (i + 1) (M.nCols - (i + 1))).map fun j => get M i j

/-- `Matrix::lowerTriangle` (`mtl/Matrix.h:97-106`): the rows run to `ncols()`. -/
def lowerTriangle (M : Matrix α) : List α :=
  (List.range M.nCols).flatMap fun i => (List.range i).map fun j => get M i j

end Mtl

/-- The member functions of a copy of the class. -/
structure MatrixClass (α : Type) where
  get : Matrix α → Nat → Nat → α
  set : Matrix α → Nat → Nat → α → Matrix α
  permute : Matrix α → List Nat → Matrix α
  upperTriangle : Matrix α → List α
  lowerTriangle : Matrix α → List α

/-- `core/Matrix.h` -/
def core : MatrixClass α := ⟨Matrix.get, Matrix.set, Matrix.permute, Matrix.upperTriangle,
  Matrix.lowerTriangle⟩

/-- `mtl/Matrix.h` -/
def mtl : MatrixClass α := ⟨Mtl.get, Mtl.set, Mtl.permute, Mtl.upperTriangle, Mtl.lowerTriangle⟩

/-- The copies do the same on a matrix. -/
structure Agree (C D : MatrixClass α) (M : Matrix α) : Prop where
  get : C.get M = D.get M
  set : C.set M = D.set M
  permute : C.permute M = D.permute M
  upperTriangle : C.upperTriangle M = D.upperTriangle M
  lowerTriangle : C.lowerTriangle M = D.lowerTriangle M

/-- **The copies agree on square matrices.** -/
theorem mtl_eq_core {M : Matrix α} (h : M.nRows = M.nCols) : Agree mtl core M := by
  refine ⟨rfl, rfl, rfl, rfl, ?_⟩
  change Mtl.lowerTriangle M = M.lowerTriangle
  rw [Mtl.lowerTriangle, ← h]
  rfl

/-! ## The action -/

/-- Matrices with the same entries are equal. -/
theorem ext_get {M N : Matrix α} (hr : M.nRows = N.nRows) (hc : M.nCols = N.nCols)
    (h : ∀ i < M.nRows, ∀ j < M.nCols, M.get i j = N.get i j) : M = N := by
  have hlen : M.elements.length = N.elements.length := by rw [M.size_eq, N.size_eq, hr, hc]
  have helements : M.elements = N.elements := by
    refine List.ext_getElem hlen fun t h1 h2 => ?_
    have ht : t < M.nRows * M.nCols := M.size_eq ▸ h1
    have hcols : 0 < M.nCols := Nat.pos_of_mul_pos_left (Nat.zero_lt_of_lt ht)
    have hget := h (t / M.nCols) (Nat.div_lt_of_lt_mul (by rwa [Nat.mul_comm])) (t % M.nCols)
      (Nat.mod_lt _ hcols)
    rw [get, get, ← hc, Nat.mul_comm, Nat.div_add_mod] at hget
    rwa [List.getD_eq_getElem _ _ h1, List.getD_eq_getElem _ _ h2] at hget
  cases M
  cases N
  cases hr
  cases hc
  cases helements
  rfl

variable {n m k : Nat} {M : Matrix α} {p q : List Nat}

/-- **Permuting twice** is permuting by the composition. -/
theorem permute_permute (hr : M.nRows = n) (hc : M.nCols = n) (hq : q.Perm (List.range k))
    (hk : k ≤ n) : (M.permute p).permute q = M.permute (compose n p q) := by
  refine ext_get (by simp) (by simp) fun i hi j hj => ?_
  simp only [nRows_permute, nCols_permute, hr, hc] at hi hj
  have hqi := image_lt hq hk hi
  have hqj := image_lt hq hk hj
  rw [get_permute (by simpa [hr]) (by simpa [hc]), get_permute (by omega) (by omega),
    get_permute (by omega) (by omega), image_compose hi, image_compose hj]

/-- The entry of every unordered pair of different indices is in the list exactly once. -/
def ReadsPairsOnce (n : Nat) (get : Nat → Nat → α) (l : List α) : Prop :=
  ∃ ps : List (Nat × Nat), l = ps.map (fun e => get e.1 e.2) ∧
    (∀ e ∈ ps, e.1 < n ∧ e.2 < n ∧ e.1 ≠ e.2) ∧
    ∀ i < n, ∀ j < n, i ≠ j → (ps.map fun e => s(e.1, e.2)).count s(i, j) = 1

/-- **Every pair is read once.** -/
theorem readsPairsOnce (hr : M.nRows = n) (hc : M.nCols = n) (idx : CanonicalIndexing) :
    ReadsPairsOnce n M.get (indexing idx M) := by
  refine ⟨pairs idx n, indexing_eq hr hc idx, fun e he => pair_lt he, fun i hi j hj hij => ?_⟩
  refine List.count_eq_one_of_mem (nodup_map_sym2 Function.injective_id idx n) ?_
  rw [List.mem_map]
  rcases pair_mem idx hi hj hij with h | h
  · exact ⟨_, h, rfl⟩
  · exact ⟨_, h, Sym2.eq_swap⟩

section Permuted

variable (hr : M.nRows = n) (hc : M.nCols = n) (hp : p.Perm (List.range m)) (hm : m ≤ n)
include hr hc hp hm

theorem get_permute_symm (hsymm : ∀ i < n, ∀ j < n, M.get i j = M.get j i) {i j : Nat} (hi : i < n)
    (hj : j < n) : (M.permute p).get i j = (M.permute p).get j i := by
  rw [get_permute (by omega) (by omega), get_permute (by omega) (by omega)]
  exact hsymm _ (image_lt hp hm hi) _ (image_lt hp hm hj)

/-- **The diagonal** is reordered. -/
theorem diagonal_permute : ((List.range n).map fun i => (M.permute p).get i i).Perm
    ((List.range n).map fun i => M.get i i) := by
  have himage : ((List.range n).map (image p)).Perm (List.range n) := by
    refine (perm_range_iff (by simp)).mpr fun c hcn => ?_
    obtain ⟨a, ha, rfl⟩ := exists_image hp hm hcn
    exact ⟨a, ha, image_map_range ha⟩
  have hentries : ((List.range n).map fun i => (M.permute p).get i i) =
      ((List.range n).map (image p)).map fun i => M.get i i := by
    rw [List.map_map]
    refine List.map_congr_left fun i hi => ?_
    rw [List.mem_range] at hi
    exact get_permute (by omega) (by omega)
  rw [hentries]
  exact himage.map _

/-- **The triangles** of a symmetric matrix are reordered. -/
theorem triangle_permute (hsymm : ∀ i < n, ∀ j < n, M.get i j = M.get j i)
    (idx : CanonicalIndexing) : (indexing idx (M.permute p)).Perm (indexing idx M) := by
  -- outside the matrix the entries do not matter
  let g : Nat → Nat → α := fun i j => if i < n ∧ j < n then M.get i j else default
  have hg : ∀ i j, g i j = g j i := fun i j => by
    by_cases h : i < n ∧ j < n
    · simp only [g, if_pos h, if_pos h.symm, hsymm i h.1 j h.2]
    · have h' : ¬(j < n ∧ i < n) := fun h' => h h'.symm
      simp only [g, if_neg h, if_neg h']
  have hread : ∀ f : Nat → Nat, (∀ i < n, f i < n) →
      (pairs idx n).map (fun ij => M.get (f ij.1) (f ij.2)) =
        (pairs idx n).map fun ij => g (f ij.1) (f ij.2) := fun f hf => by
    refine List.map_congr_left fun ij hij => ?_
    obtain ⟨hi, hj, -⟩ := pair_lt hij
    exact (if_pos ⟨hf _ hi, hf _ hj⟩).symm
  have hid := hread id fun i hi => hi
  simp only [id] at hid
  rw [indexing_permute hr hc, indexing_eq hr hc, hread _ fun i hi => image_lt hp hm hi, hid]
  exact map_pairs_perm hg (fun i hi => image_lt hp hm hi) (image_injective hp)
    (fun i hi => exists_image hp hm hi) idx

end Permuted

/-! ## Both copies -/

/-- What two permutations do to a matrix, by the member functions of a copy of the class. -/
structure ActsOn (C : MatrixClass α) (n : Nat) (M : Matrix α) (p q : List Nat) : Prop where
  /-- permuting twice is permuting by the composition -/
  permute_permute : C.permute (C.permute M p) q = C.permute M (compose n p q)
  symm : ∀ i < n, ∀ j < n, C.get (C.permute M p) i j = C.get (C.permute M p) j i
  /-- the diagonal values stay on the diagonal -/
  diagonal : ((List.range n).map fun i => C.get (C.permute M p) i i).Perm
    ((List.range n).map fun i => C.get M i i)
  upper : (C.upperTriangle (C.permute M p)).Perm (C.upperTriangle M)
  lower : (C.lowerTriangle (C.permute M p)).Perm (C.lowerTriangle M)
  upper_once : ReadsPairsOnce n (C.get (C.permute M p)) (C.upperTriangle (C.permute M p))
  lower_once : ReadsPairsOnce n (C.get (C.permute M p)) (C.lowerTriangle (C.permute M p))

/-- **Both copies of the class**: the permutations act on the symmetric `n × n` matrices through
their identity extensions, and the triangles keep the entries of the pairs, each once. -/
theorem permute_action {n : Nat} {M : Matrix α} (hr : M.nRows = n) (hc : M.nCols = n)
    (hsymm : ∀ i < n, ∀ j < n, M.get i j = M.get j i) {m k : Nat} {p q : List Nat}
    (hp : p.Perm (List.range m)) (hm : m ≤ n) (hq : q.Perm (List.range k)) (hk : k ≤ n) :
    (∀ C : MatrixClass α, C = core ∨ C = mtl → ActsOn C n M p q) ∧
    ∀ N : Matrix α, N.nRows = N.nCols → Agree mtl core N := by
  have hr' : (M.permute p).nRows = n := (nRows_permute p).trans hr
  have hc' : (M.permute p).nCols = n := (nCols_permute p).trans hc
  have hcore : ActsOn core n M p q :=
    { permute_permute := permute_permute hr hc hq hk
      symm := fun i hi j hj => get_permute_symm hr hc hp hm hsymm hi hj
      diagonal := diagonal_permute hr hc hp hm
      upper := triangle_permute hr hc hp hm hsymm .upperTriangleRows
      lower := triangle_permute hr hc hp hm hsymm .upperTriangleCols
      upper_once := readsPairsOnce hr' hc' .upperTriangleRows
      lower_once := readsPairsOnce hr' hc' .upperTriangleCols }
  refine ⟨fun C hC => ?_, fun N hN => mtl_eq_core hN⟩
  rcases hC with rfl | rfl
  · exact hcore
  · have hlower : mtl.lowerTriangle M = core.lowerTriangle M :=
      (mtl_eq_core (hr.trans hc.symm)).lowerTriangle
    have hlower' : mtl.lowerTriangle (M.permute p) = core.lowerTriangle (M.permute p) :=
      (mtl_eq_core (hr'.trans hc'.symm)).lowerTriangle
    exact
      { permute_permute := hcore.permute_permute
        symm := hcore.symm
        diagonal := hcore.diagonal
        upper := hcore.upper
        lower := by
          rw [hlower]
          exact (List.Perm.of_eq hlower').trans hcore.lower
        upper_once := hcore.upper_once
        lower_once := by
          have honce : ReadsPairsOnce n (M.permute p).get (core.lowerTriangle (M.permute p)) :=
            hcore.lower_once
          rw [← hlower'] at honce
          exact honce }

/-- A `3 × 3` matrix, an exchange of two vertices and a rotation of three. -/
theorem permute_action_three :
    ActsOn mtl 3 (((new 3 3).set 0 1 5).set 1 0 5 : Matrix Nat) [1, 0] [1, 2, 0] :=
  (permute_action (n := 3) (M := ((new 3 3).set 0 1 5).set 1 0 5) (m := 2) (k := 3) rfl rfl
    (by decide) (by decide) (by decide) (by decide) (by decide)).1 mtl (Or.inr rfl)

end SymBreak.Matrix
