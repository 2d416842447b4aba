import Mathlib.Data.List.Basic
import Mathlib.Data.List.GetD
import Mathlib.Data.List.Nodup
import Mathlib.Data.List.Perm.Basic
import Mathlib.Data.List.Range
import Mathlib.Data.Sym.Sym2
import Mathlib.Order.Nat
import Mathlib.Tactic.Common
import Mathlib.Tactic.Ring

/-!
# The matrix and its two triangles

Model of `Matrix<T>` (`core/Matrix.h`), a row-major vector of entries: `get` and `set`
(`Matrix.h:49-56`), `permute` (`Matrix.h:72-83`), which extends a permutation of fewer vertices by
the identity, and the two ways to read a triangle off (`upperTriangle`, `lowerTriangle`,
`Matrix.h:87-106`). `indexing` picks one of them by the `CanonicalIndexing` of `core/defs.h`.

Results:
* `get_permute`: entry `(i, j)` of `M.permute perm` is entry `(perm i, perm j)` of `M`.
* `indexing_eq`, `indexing_permute`: both strings are read along the pairs `pairs idx n`.
* `lowerPairs_prefix`: column-wise, the pairs of `m` vertices come first among those of `n ≥ m`.
* **`map_pairs_perm`**: relabelling the vertices only reorders the entries of the string of a
  symmetric matrix.
-/

namespace SymBreak

/-- `CanonicalIndexing` (`defs.h:6-9`). -/
inductive CanonicalIndexing where
  | upperTriangleRows
  | upperTriangleCols
  deriving DecidableEq, Repr

/-- `LexImplication` (`defs.h:11-14`). -/
structure LexImplication where
  perm : List Nat
  length : Nat
  deriving DecidableEq, Repr, Inhabited

/-- `Matrix<T>`: the entries row by row. -/
structure Matrix (α : Type) where
  nRows : Nat
  nCols : Nat
  elements : List α
  size_eq : elements.length = nRows * nCols

namespace Matrix

variable {α β : Type}

section Ops

variable [Inhabited α]

/-- The constructor: `T()` everywhere. -/
def new (n m : Nat) : Matrix α where
  nRows := n
  nCols := m
  elements := List.replicate (n * m) default
  size_eq := by simp

def get (M : Matrix α) (i j : Nat) : α := M.elements.getD (i * M.nCols + j) default

omit [Inhabited α] in
def set (M : Matrix α) (i j : Nat) (value : α) : Matrix α :=
  { M with
    elements := M.elements.set (i * M.nCols + j) value
    size_eq := by simp [M.size_eq] }

/-- `i < perm.size() ? perm[i] : i` -/
def image (perm : List Nat) (i : Nat) : Nat := if h : i < perm.length then perm[i] else i

/-- `Matrix::permute` -/
def permute (M : Matrix α) (perm : List Nat) : Matrix α :=
  (List.range M.nRows).foldl (fun permuted i =>
    (List.range M.nCols).foldl (fun permuted j =>
      let pi := image perm i
      let pj := image perm j
      permuted.set i j (M.get pi pj)) permuted) (new M.nRows M.nCols)

def upperTriangle (M : Matrix α) : List α :=
  (List.range M.nRows).flatMap fun i =>
    (List.range' (i + 1) (M.nCols - (i + 1))).map fun j => M.get i j

def lowerTriangle (M : Matrix α) : List α :=
  (List.range M.nRows).flatMap fun i => (List.range i).map fun j => M.get i j

/-- `indexing` (`CanonizingLexImplicationsAlg.cc:35-40`, `LexImplicationsReducer.cc:42-47`). -/
def indexing (idx : CanonicalIndexing) (M : Matrix α) : List α :=
  match idx with
  | .upperTriangleRows => M.upperTriangle
  | .upperTriangleCols => M.lowerTriangle

end Ops

/-! ## Entries -/

section Entries

variable [Inhabited α] {M : Matrix α} {i j i' j' : Nat}

omit [Inhabited α] in
@[simp] theorem nRows_set (v : α) : (M.set i j v).nRows = M.nRows := rfl

omit [Inhabited α] in
@[simp] theorem nCols_set (v : α) : (M.set i j v).nCols = M.nCols := rfl

/-- The row of a row-major position. -/
theorem pos_div {c : Nat} (hj : j < c) : (i * c + j) / c = i := by
  rw [Nat.add_comm, Nat.add_mul_div_right _ _ (by omega), Nat.div_eq_of_lt hj, Nat.zero_add]

/-- The column of a row-major position. -/
theorem pos_mod {c : Nat} (hj : j < c) : (i * c + j) % c = j := by
  rw [Nat.mul_add_mod_self_right, Nat.mod_eq_of_lt hj]

/-- Row-major positions of different entries differ. -/
theorem pos_inj {c : Nat} (hj : j < c) (hj' : j' < c) (h : i * c + j = i' * c + j') :
    i = i' ∧ j = j' :=
  ⟨by rw [← pos_div (i := i) hj, h, pos_div hj'], by rw [← pos_mod (i := i) hj, h, pos_mod hj']⟩

theorem pos_lt {r c : Nat} (hi : i < r) (hj : j < c) : i * c + j < r * c := by
  have : (i + 1) * c ≤ r * c := Nat.mul_le_mul_right c hi
  rw [Nat.add_mul, Nat.one_mul] at this
  omega

/-- The row and the column of a position. -/
theorem div_mod_lt {t k : Nat} (h : t < k * k) : t / k < k ∧ t % k < k := by
  have hk : 0 < k := by
    rcases Nat.eq_zero_or_pos k with rfl | hk
    · simp at h
    · exact hk
  exact ⟨Nat.div_lt_of_lt_mul h, Nat.mod_lt _ hk⟩

@[simp] theorem get_new (n m : Nat) : (new n m : Matrix α).get i j = default := by
  rw [get, new, List.getD_eq_getElem?_getD, List.getElem?_replicate]
  split <;> rfl

theorem get_set (hi : i < M.nRows) (hj : j < M.nCols) (hj' : j' < M.nCols) (v : α) :
    (M.set i j v).get i' j' = if i' = i ∧ j' = j then v else M.get i' j' := by
  have hpos : i * M.nCols + j < M.elements.length := by
    rw [M.size_eq]
    exact pos_lt hi hj
  simp only [get, set, List.getD_eq_getElem?_getD, List.getElem?_set]
  split_ifs with h1 h2 h2
  · rfl
  · exact absurd (pos_inj hj' hj h1.symm) h2
  · obtain ⟨rfl, rfl⟩ := h2
    exact absurd rfl h1
  · rfl

/-- A row of a matrix filled entry by entry. -/
theorem fillRow_spec (f : Nat → α) (hi : i < M.nRows) : ∀ m, m ≤ M.nCols →
    let R := (List.range m).foldl (fun R j => R.set i j (f j)) M
    R.nRows = M.nRows ∧ R.nCols = M.nCols ∧ ∀ a b, b < M.nCols →
      R.get a b = if a = i ∧ b < m then f b else M.get a b := by
  intro m
  induction m with
  | zero => simp
  | succ m ih =>
    intro hm
    obtain ⟨hr, hc, hget⟩ := ih (by omega)
    simp only [List.range_succ, List.foldl_append, List.foldl_cons, List.foldl_nil]
    refine ⟨hr, hc, fun a b hb => ?_⟩
    rw [get_set (by omega) (by omega) (by omega), hget a b hb]
    split_ifs <;> first | rfl | omega | skip
    all_goals rename_i h1 h2; obtain ⟨-, rfl⟩ := h1; rfl

/-- A matrix filled row by row. -/
theorem fill_spec (f : Nat → Nat → α) : ∀ m, m ≤ M.nRows →
    let R := (List.range m).foldl (fun R i =>
      (List.range M.nCols).foldl (fun R j => R.set i j (f i j)) R) M
    R.nRows = M.nRows ∧ R.nCols = M.nCols ∧ ∀ a b, b < M.nCols →
      R.get a b = if a < m then f a b else M.get a b := by
  intro m
  induction m with
  | zero => simp
  | succ m ih =>
    intro hm
    obtain ⟨hr, hc, hget⟩ := ih (by omega)
    simp only [List.range_succ, List.foldl_append, List.foldl_cons, List.foldl_nil]
    set R := (List.range m).foldl (fun R i =>
      (List.range M.nCols).foldl (fun R j => R.set i j (f i j)) R) M
    obtain ⟨hr', hc', hget'⟩ := fillRow_spec (M := R) (f m) (i := m) (by omega) M.nCols (by omega)
    refine ⟨hr'.trans hr, hc'.trans hc, fun a b hb => ?_⟩
    rw [hget' a b (by omega), hget a b hb]
    split_ifs <;> first | rfl | omega | skip
    all_goals rename_i h1 h2; obtain ⟨rfl, -⟩ := h1; rfl

@[simp] theorem nRows_permute (perm : List Nat) : (M.permute perm).nRows = M.nRows :=
  (fill_spec (M := new M.nRows M.nCols) _ M.nRows le_rfl).1

@[simp] theorem nCols_permute (perm : List Nat) : (M.permute perm).nCols = M.nCols :=
  (fill_spec (M := new M.nRows M.nCols) _ M.nRows le_rfl).2.1

/-- **The entries of a permuted matrix.** -/
theorem get_permute {perm : List Nat} (hi : i < M.nRows) (hj : j < M.nCols) :
    (M.permute perm).get i j = M.get (image perm i) (image perm j) := by
  have h := (fill_spec (M := new M.nRows M.nCols)
    (fun i j => M.get (image perm i) (image perm j)) M.nRows le_rfl).2.2 i j hj
  rw [if_pos hi] at h
  exact h

end Entries

/-! ## Identity extension -/

theorem image_of_lt {perm : List Nat} {i : Nat} (h : i < perm.length) : image perm i = perm[i] := by
  rw [image, dif_pos h]

theorem image_of_ge {perm : List Nat} {i : Nat} (h : perm.length ≤ i) : image perm i = i := by
  rw [image, dif_neg (by omega)]

section Image

variable {m n : Nat} {perm : List Nat} (hp : perm.Perm (List.range m))
include hp

theorem length_of_perm_range : perm.length = m := by
  simpa using hp.length_eq

theorem image_lt_iff {i : Nat} : image perm i < m ↔ i < m := by
  have hlen := length_of_perm_range hp
  rcases Nat.lt_or_ge i m with h | h
  · have hi : i < perm.length := by omega
    have : perm[i] ∈ List.range m := hp.mem_iff.mp (List.getElem_mem _)
    rw [image_of_lt hi]
    simpa [h] using this
  · rw [image_of_ge (by omega)]

theorem image_lt (hmn : m ≤ n) {i : Nat} (hi : i < n) : image perm i < n := by
  rcases Nat.lt_or_ge i m with h | h
  · exact Nat.lt_of_lt_of_le ((image_lt_iff hp).mpr h) hmn
  · rwa [image_of_ge (by rwa [length_of_perm_range hp])]

theorem image_injective : Function.Injective (image perm) := by
  have hlen := length_of_perm_range hp
  have hnd : perm.Nodup := hp.nodup_iff.mpr List.nodup_range
  intro i j h
  have hij : i < m ↔ j < m := by rw [← image_lt_iff hp, h, image_lt_iff hp]
  rcases Nat.lt_or_ge i m with hi | hi
  · have hj := hij.mp hi
    rw [image_of_lt (by omega), image_of_lt (by omega)] at h
    exact (hnd.getElem_inj_iff).mp h
  · rwa [image_of_ge (by omega), image_of_ge (by omega)] at h

theorem exists_image (hmn : m ≤ n) {i : Nat} (hi : i < n) : ∃ j < n, image perm j = i := by
  have hlen := length_of_perm_range hp
  rcases Nat.lt_or_ge i m with h | h
  · obtain ⟨j, hj, rfl⟩ := List.getElem_of_mem (hp.mem_iff.mpr (List.mem_range.mpr h))
    exact ⟨j, by omega, image_of_lt hj⟩
  · exact ⟨i, hi, image_of_ge (by omega)⟩

end Image

/-- A list of `n` vertices is a permutation when it takes every value. -/
theorem perm_range_iff {p : List Nat} {n : Nat} (hlen : p.length = n) :
    p.Perm (List.range n) ↔ ∀ c < n, ∃ k < n, image p k = c := by
  constructor
  · exact fun h c hc => exists_image h le_rfl hc
  · intro h
    have hsub : List.range n ⊆ p := by
      intro c hc
      obtain ⟨k, hk, rfl⟩ := h c (List.mem_range.mp hc)
      rw [image_of_lt (hlen ▸ hk)]
      exact List.getElem_mem _
    exact ((List.subperm_of_subset List.nodup_range hsub).perm_of_length_le
      (by simp [hlen])).symm

/-- The composition `i ↦ p (q i)` of the identity extensions of two permutations. -/
def compose (n : Nat) (p q : List Nat) : List Nat :=
  (List.range n).map fun i => image p (image q i)

section Compose

variable {m k n : Nat} {p q : List Nat}

theorem image_map_range {f : Nat → Nat} {i : Nat} (hi : i < n) :
    image ((List.range n).map f) i = f i := by
  rw [image_of_lt (by simpa using hi), List.getElem_map, List.getElem_range]

theorem image_compose {i : Nat} (hi : i < n) : image (compose n p q) i = image p (image q i) :=
  image_map_range hi

theorem compose_perm (hp : p.Perm (List.range m)) (hm : m ≤ n) (hq : q.Perm (List.range k))
    (hk : k ≤ n) : (compose n p q).Perm (List.range n) := by
  refine (perm_range_iff (by simp [compose])).mpr fun c hc => ?_
  obtain ⟨a, ha, rfl⟩ := exists_image hp hm hc
  obtain ⟨b, hb, rfl⟩ := exists_image hq hk ha
  exact ⟨b, hb, image_compose hb⟩

end Compose

/-! ## The two enumerations of the pairs -/

/-- The entries of `upperTriangle`, in order. -/
def upperPairs (n : Nat) : List (Nat × Nat) :=
  (List.range n).flatMap fun i => (List.range' (i + 1) (n - (i + 1))).map fun j => (i, j)

/-- The entries of `lowerTriangle`, in order. -/
def lowerPairs (n : Nat) : List (Nat × Nat) :=
  (List.range n).flatMap fun i => (List.range i).map fun j => (i, j)

/-- The entries along which `indexing idx` reads an `n × n` matrix. -/
def pairs (idx : CanonicalIndexing) (n : Nat) : List (Nat × Nat) :=
  match idx with
  | .upperTriangleRows => upperPairs n
  | .upperTriangleCols => lowerPairs n

variable {idx : CanonicalIndexing} {n : Nat}

theorem mem_upperPairs {i j : Nat} : (i, j) ∈ upperPairs n ↔ i < j ∧ j < n := by
  simp only [upperPairs, List.mem_flatMap, List.mem_range, List.mem_map, List.mem_range'_1,
    Prod.mk.injEq]
  constructor
  · rintro ⟨a, ha, b, hb, rfl, rfl⟩
    omega
  · rintro ⟨h1, h2⟩
    exact ⟨i, by omega, j, by omega, rfl, rfl⟩

theorem mem_lowerPairs {i j : Nat} : (i, j) ∈ lowerPairs n ↔ j < i ∧ i < n := by
  simp only [lowerPairs, List.mem_flatMap, List.mem_range, List.mem_map, Prod.mk.injEq]
  constructor
  · rintro ⟨a, ha, b, hb, rfl, rfl⟩
    omega
  · rintro ⟨h1, h2⟩
    exact ⟨i, by omega, j, by omega, rfl, rfl⟩

theorem pair_lt {ij : Nat × Nat} (h : ij ∈ pairs idx n) : ij.1 < n ∧ ij.2 < n ∧ ij.1 ≠ ij.2 := by
  obtain ⟨i, j⟩ := ij
  cases idx
  · have := mem_upperPairs.mp h
    omega
  · have := mem_lowerPairs.mp h
    omega

/-- Every pair of different vertices is enumerated in one of the two orders. -/
theorem pair_mem (idx : CanonicalIndexing) {i j : Nat} (hi : i < n) (hj : j < n) (h : i ≠ j) :
    (i, j) ∈ pairs idx n ∨ (j, i) ∈ pairs idx n := by
  cases idx
  · simp only [pairs, mem_upperPairs]
    omega
  · simp only [pairs, mem_lowerPairs]
    omega

/-- ... and in one only. -/
theorem pair_asymm {i j : Nat} (h : (i, j) ∈ pairs idx n) : (j, i) ∉ pairs idx n := by
  cases idx
  · simp only [pairs, mem_upperPairs] at h ⊢
    omega
  · simp only [pairs, mem_lowerPairs] at h ⊢
    omega

theorem nodup_rows {l : List Nat} {row : Nat → List Nat} (hl : l.Nodup) (hr : ∀ i, (row i).Nodup) :
    (l.flatMap fun i => (row i).map fun j => (i, j)).Nodup := by
  rw [List.nodup_flatMap]
  refine ⟨fun i _ => (hr i).map fun a b h => (Prod.mk.inj h).2, hl.imp fun {a b} hab => ?_⟩
  intro x ha hb
  simp only [List.mem_map] at ha hb
  obtain ⟨_, _, rfl⟩ := ha
  obtain ⟨_, _, h⟩ := hb
  exact hab (Prod.mk.inj h).1.symm

theorem nodup_pairs (idx : CanonicalIndexing) (n : Nat) : (pairs idx n).Nodup := by
  cases idx
  · exact nodup_rows List.nodup_range fun _ => List.nodup_range'
  · exact nodup_rows List.nodup_range fun _ => List.nodup_range

theorem lowerPairs_succ (n : Nat) :
    lowerPairs (n + 1) = lowerPairs n ++ (List.range n).map fun j => (n, j) := by
  simp [lowerPairs, List.range_succ]

/-- **Column-wise, the pairs of fewer vertices come first.** -/
theorem lowerPairs_prefix {m n : Nat} (h : m ≤ n) : lowerPairs m <+: lowerPairs n := by
  induction n, h using Nat.le_induction with
  | base => exact List.prefix_refl _
  | succ n _ ih =>
    rw [lowerPairs_succ]
    exact ih.trans (List.prefix_append _ _)

/-- As unordered pairs they stay different, after any relabelling as well. -/
theorem nodup_map_sym2 {g : Nat → Nat} (hg : Function.Injective g) (idx : CanonicalIndexing)
    (n : Nat) : ((pairs idx n).map fun ij => s(g ij.1, g ij.2)).Nodup := by
  refine (nodup_pairs idx n).map_on fun a ha b hb h => ?_
  rcases Sym2.eq_iff.mp h with ⟨h1, h2⟩ | ⟨h1, h2⟩
  · exact Prod.ext (hg h1) (hg h2)
  · obtain ⟨b₁, b₂⟩ := b
    obtain rfl : a = (b₂, b₁) := Prod.ext (hg h1) (hg h2)
    exact absurd ha (pair_asymm hb)

/-- The unordered pairs are those of the vertices, each once, in either enumeration and after any
relabelling. -/
theorem map_sym2_perm (idx idx' : CanonicalIndexing) {f : Nat → Nat} (hlt : ∀ i < n, f i < n)
    (hinj : Function.Injective f) (hsurj : ∀ i < n, ∃ j < n, f j = i) :
    ((pairs idx n).map fun ij => s(f ij.1, f ij.2)).Perm
      ((pairs idx' n).map fun ij => s(ij.1, ij.2)) := by
  have hid : ((pairs idx' n).map fun ij => s(ij.1, ij.2)).Nodup :=
    nodup_map_sym2 (fun _ _ h => h) idx' n
  rw [List.perm_ext_iff_of_nodup (nodup_map_sym2 hinj idx n) hid]
  intro e
  simp only [List.mem_map]
  constructor
  · rintro ⟨⟨i, j⟩, hij, rfl⟩
    obtain ⟨hi, hj, hne⟩ := pair_lt hij
    rcases pair_mem idx' (hlt i hi) (hlt j hj) (hinj.ne hne) with h | h
    · exact ⟨_, h, rfl⟩
    · exact ⟨_, h, Sym2.eq_swap⟩
  · rintro ⟨⟨i, j⟩, hij, rfl⟩
    obtain ⟨hi, hj, hne⟩ := pair_lt hij
    obtain ⟨a, ha, rfl⟩ := hsurj i hi
    obtain ⟨b, hb, rfl⟩ := hsurj j hj
    rcases pair_mem idx ha hb (fun h => hne (by rw [h])) with h | h
    · exact ⟨_, h, rfl⟩
    · exact ⟨_, h, Sym2.eq_swap⟩

/-- **Relabelling only reorders the string** of a symmetric matrix. -/
theorem map_pairs_perm {g : Nat → Nat → α} (hg : ∀ i j, g i j = g j i) {f : Nat → Nat}
    (hlt : ∀ i < n, f i < n) (hinj : Function.Injective f)
    (hsurj : ∀ i < n, ∃ j < n, f j = i) (idx' : CanonicalIndexing) :
    ((pairs idx n).map fun ij => g (f ij.1) (f ij.2)).Perm
      ((pairs idx' n).map fun ij => g ij.1 ij.2) := by
  have h := (map_sym2_perm idx idx' hlt hinj hsurj).map (Sym2.lift ⟨g, hg⟩)
  simpa only [List.map_map, Function.comp_def, Sym2.lift_mk] using h

theorem length_lowerPairs (n : Nat) : (lowerPairs n).length = n * (n - 1) / 2 := by
  induction n with
  | zero => rfl
  | succ n ih =>
    rw [lowerPairs_succ, List.length_append, ih, List.length_map, List.length_range,
      Nat.add_sub_cancel]
    have h : (n + 1) * n = n * (n - 1) + n * 2 := by
      cases n with
      | zero => rfl
      | succ n => rw [Nat.add_sub_cancel]; ring
    rw [h, Nat.add_mul_div_right _ _ (by omega)]

@[simp] theorem length_pairs (idx : CanonicalIndexing) (n : Nat) :
    (pairs idx n).length = n * (n - 1) / 2 := by
  rw [← length_lowerPairs]
  have h := (map_sym2_perm idx .upperTriangleCols (n := n) (f := id) (fun _ h => h)
    Function.injective_id fun i hi => ⟨i, hi, rfl⟩).length_eq
  simpa [pairs] using h

/-! ## The string of a matrix -/

section Strings

variable [Inhabited α] {M : Matrix α}

theorem indexing_eq (hr : M.nRows = n) (hc : M.nCols = n) (idx : CanonicalIndexing) :
    indexing idx M = (pairs idx n).map fun ij => M.get ij.1 ij.2 := by
  cases idx
  · simp only [indexing, pairs, upperTriangle, upperPairs, hr, hc, List.map_flatMap, List.map_map,
      Function.comp_def]
  · simp only [indexing, pairs, lowerTriangle, lowerPairs, hr, List.map_flatMap, List.map_map,
      Function.comp_def]

theorem indexing_permute (hr : M.nRows = n) (hc : M.nCols = n) (idx : CanonicalIndexing)
    (perm : List Nat) : indexing idx (M.permute perm) =
      (pairs idx n).map fun ij => M.get (image perm ij.1) (image perm ij.2) := by
  rw [indexing_eq (n := n) (by rw [nRows_permute, hr]) (by rw [nCols_permute, hc])]
  refine List.map_congr_left fun ij hij => ?_
  obtain ⟨hi, hj, -⟩ := pair_lt hij
  exact get_permute (by omega) (by omega)

theorem length_indexing (hr : M.nRows = n) (hc : M.nCols = n) (idx : CanonicalIndexing) :
    (indexing idx M).length = n * (n - 1) / 2 := by
  rw [indexing_eq hr hc, List.length_map, length_pairs]

end Strings

/-! ## Symmetric matrices of consecutive numbers

Both classes number the pairs of vertices row by row: `newAdjMatrix` with fresh variables, the
constructor of the reducer with a counter. `next` reads the next number off the state and `bump`
moves on; `diag` is what happens to entry `(i, i)` at the head of row `i`. -/

section Numbering

variable {S : Type} (next : S → Nat) (bump : S → S) (diag : Matrix Int → Nat → Matrix Int)

/-- Number the entries `(i, j)` and `(j, i)` for `j` in the list. -/
def numberRow (i : Nat) (l : List Nat) (gs : Matrix Int × S) : Matrix Int × S :=
  l.foldl (fun (g, s) j => ((g.set i j (next s)).set j i (next s), bump s)) gs

/-- Number the pairs of `n` vertices row by row. -/
def numberPairs (n : Nat) (gs : Matrix Int × S) : Matrix Int × S :=
  (List.range n).foldl (fun (g, s) i =>
    numberRow next bump i (List.range' (i + 1) (n - (i + 1))) (diag g i, s)) gs

/-- How many pairs there are in the first `m` rows of the upper triangle. -/
def rowStart (n : Nat) : Nat → Nat
  | 0 => 0
  | m + 1 => rowStart n m + (n - (m + 1))

/-- `g` is a symmetric matrix with `d` on the diagonal whose upper triangle, row by row, reads
`base, base + 1, …` -/
structure Numbered (base : Nat) (d : Int) (n : Nat) (g : Matrix Int) : Prop where
  nRows : g.nRows = n
  nCols : g.nCols = n
  diag : ∀ i < n, g.get i i = d
  symm : ∀ i j, i < n → j < n → g.get i j = g.get j i
  upper : (upperPairs n).map (fun ij => g.get ij.1 ij.2) =
    (List.range' base (n * (n - 1) / 2)).map fun k : Nat => (k : Int)

variable {next bump diag} {n : Nat}

theorem numberRow_spec (hnext : ∀ s, next (bump s) = next s + 1) {g : Matrix Int} (s : S)
    (hr : g.nRows = n) (hc : g.nCols = n) {i : Nat} : ∀ t, i + t < n →
    let gs := numberRow next bump i (List.range' (i + 1) t) (g, s)
    gs.1.nRows = n ∧ gs.1.nCols = n ∧ gs.2 = bump^[t] s ∧ next gs.2 = next s + t ∧
      ∀ a b, a < n → b < n → gs.1.get a b =
        if min a b = i ∧ i < max a b ∧ max a b ≤ i + t then
          ((next s + (max a b - i - 1) : Nat) : Int) else g.get a b := by
  intro t
  induction t with
  | zero =>
    refine fun _ => ⟨hr, hc, rfl, rfl, fun a b _ _ => ?_⟩
    rw [if_neg (by omega)]
    rfl
  | succ t ih =>
    intro ht
    obtain ⟨hr', hc', hs, hn, hget⟩ := ih (by omega)
    have e : numberRow next bump i (List.range' (i + 1) (t + 1)) (g, s) =
        numberRow next bump i [i + 1 + t]
          (numberRow next bump i (List.range' (i + 1) t) (g, s)) := by
      rw [numberRow, List.range'_1_concat, List.foldl_append]
      rfl
    rw [e]
    generalize numberRow next bump i (List.range' (i + 1) t) (g, s) = gs at *
    refine ⟨hr', hc', ?_, ?_, fun a b ha hb => ?_⟩
    · simp only [numberRow, List.foldl_cons, List.foldl_nil, hs, Function.iterate_succ_apply']
    · simp only [numberRow, List.foldl_cons, List.foldl_nil, hnext, hn]
      omega
    · simp only [numberRow, List.foldl_cons, List.foldl_nil]
      rw [get_set (by simp only [nRows_set]; omega) (by simp only [nCols_set]; omega)
          (by simp only [nCols_set]; omega),
        get_set (by omega) (by omega) (by omega), hget a b ha hb, hn]
      split_ifs <;> first | rfl | omega

theorem numberPairs_get (hnext : ∀ s, next (bump s) = next s + 1) {d : Int} {g : Matrix Int}
    (s : S) (hr : g.nRows = n) (hc : g.nCols = n) (h0 : ∀ i < n, g.get i i = 0)
    (hdiag : ∀ (g : Matrix Int) i, g.nRows = n → g.nCols = n → i < n → g.get i i = 0 →
      (diag g i).nRows = n ∧ (diag g i).nCols = n ∧ ∀ a b, a < n → b < n →
        (diag g i).get a b = if a = i ∧ b = i then d else g.get a b) : ∀ m, m ≤ n →
    let gs := (List.range m).foldl (fun (g, s) i =>
      numberRow next bump i (List.range' (i + 1) (n - (i + 1))) (diag g i, s)) (g, s)
    gs.1.nRows = n ∧ gs.1.nCols = n ∧ gs.2 = bump^[rowStart n m] s ∧
      next gs.2 = next s + rowStart n m ∧ ∀ a b, a < n → b < n → gs.1.get a b =
        if min a b < m then
          if a = b then d
          else ((next s + rowStart n (min a b) + (max a b - min a b - 1) : Nat) : Int)
        else g.get a b := by
  intro m
  induction m with
  | zero =>
    refine fun _ => ⟨hr, hc, rfl, rfl, fun a b _ _ => ?_⟩
    rw [if_neg (by omega)]
    rfl
  | succ m ih =>
    intro hm
    obtain ⟨hr', hc', hs, hn, hget⟩ := ih (by omega)
    simp only [List.range_succ, List.foldl_append, List.foldl_cons, List.foldl_nil]
    generalize (List.range m).foldl (fun (g, s) i =>
      numberRow next bump i (List.range' (i + 1) (n - (i + 1))) (diag g i, s)) (g, s) = gs at *
    have hm0 : gs.1.get m m = 0 := by
      rw [hget m m (by omega) (by omega), if_neg (by omega), h0 m (by omega)]
    obtain ⟨hr₁, hc₁, hget₁⟩ := hdiag gs.1 m hr' hc' (by omega) hm0
    obtain ⟨hr₂, hc₂, hs₂, hn₂, hget₂⟩ :=
      numberRow_spec hnext (g := diag gs.1 m) gs.2 hr₁ hc₁ (i := m) (n - (m + 1)) (by omega)
    refine ⟨hr₂, hc₂, ?_, ?_, fun a b ha hb => ?_⟩
    · rw [hs₂, hs, ← Function.iterate_add_apply, rowStart, Nat.add_comm]
    · rw [hn₂, hn, rowStart, Nat.add_assoc]
    · rw [hget₂ a b ha hb, hget₁ a b ha hb, hget a b ha hb, hn]
      by_cases hab : a = b
      · subst hab
        simp only [Nat.min_self, Nat.max_self]
        split_ifs <;> first | rfl | omega
      · by_cases hmin : min a b = m
        · rw [if_pos (by omega), if_pos (by omega), if_neg hab, hmin]
        · rw [if_neg (by omega), if_neg (by omega)]
          split_ifs <;> first | rfl | omega

theorem rowStart_range' (base m : Nat) :
    (List.range m).flatMap (fun i => (List.range' (i + 1) (n - (i + 1))).map fun j =>
      base + rowStart n i + (j - i - 1)) = List.range' base (rowStart n m) := by
  induction m with
  | zero => rfl
  | succ m ih =>
    have hrow : (List.range' (m + 1) (n - (m + 1))).map
          (fun j => base + rowStart n m + (j - m - 1)) =
        List.range' (base + rowStart n m) (n - (m + 1)) := by
      refine List.ext_getElem (by simp) fun k h _ => ?_
      simp only [List.getElem_map, List.getElem_range']
      omega
    rw [List.range_succ, List.flatMap_append, ih, List.flatMap_cons,
      List.flatMap_nil, List.append_nil, hrow, rowStart, List.range'_append_1]

theorem rowStart_eq (n : Nat) : rowStart n n = n * (n - 1) / 2 := by
  have h := congrArg List.length (rowStart_range' (n := n) 0 n)
  rw [List.length_range'] at h
  rw [← h, ← length_pairs .upperTriangleRows n, pairs, upperPairs, List.length_flatMap,
    List.length_flatMap]
  simp

variable (next bump diag) in
/-- **The numbering of the pairs**, and the number of times the state moved on. -/
theorem numberPairs_spec (hnext : ∀ s, next (bump s) = next s + 1) {d : Int} (s : S)
    (hdiag : ∀ (g : Matrix Int) i, g.nRows = n → g.nCols = n → i < n → g.get i i = 0 →
      (diag g i).nRows = n ∧ (diag g i).nCols = n ∧ ∀ a b, a < n → b < n →
        (diag g i).get a b = if a = i ∧ b = i then d else g.get a b) :
    let gs := numberPairs next bump diag n (new n n, s)
    Numbered (next s) d n gs.1 ∧ gs.2 = bump^[n * (n - 1) / 2] s := by
  intro gs
  obtain ⟨hr, hc, hs, -, hget⟩ := numberPairs_get (n := n) (g := new n n) hnext s rfl rfl
    (fun i _ => get_new n n) hdiag n le_rfl
  change gs.1.nRows = n at hr
  change gs.1.nCols = n at hc
  change gs.2 = _ at hs
  change ∀ a b, a < n → b < n → gs.1.get a b = _ at hget
  rw [rowStart_eq] at hs
  refine ⟨⟨hr, hc, fun i hi => ?_, fun i j hi hj => ?_, ?_⟩, hs⟩
  · rw [hget i i hi hi, if_pos (by omega), if_pos rfl]
  · rw [hget i j hi hj, hget j i hj hi, Nat.min_comm, Nat.max_comm]
    simp only [eq_comm, get_new]
  · rw [← rowStart_eq, ← rowStart_range' (next s), upperPairs, List.map_flatMap, List.map_flatMap]
    refine List.flatMap_congr fun i hi => ?_
    rw [List.map_map, List.map_map]
    refine List.map_congr_left fun j hj => ?_
    rw [List.mem_range] at hi
    rw [List.mem_range'_1] at hj
    simp only [Function.comp_apply]
    rw [hget i j hi (by omega), if_pos (by omega), if_neg (by omega),
      Nat.min_eq_left (by omega), Nat.max_eq_right (by omega)]

end Numbering

end Matrix

end SymBreak
