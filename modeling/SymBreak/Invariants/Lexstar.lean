import SymBreak.Invariants.LeastLabelling
import SymBreak.Invariants.VertexInvariants

/-!
# The constraints on the rows of invariants

Model of `inv_matrices_lexstar`, `inv_matrices_lexplus` and the two of `cond_inv_matrices_`
(`pair_invariants.pl:611-724`): for pairs `I < J` of vertices the row of `I`, without the columns
`I` and `J`, is lexicographically at most that of `J`. The rows of several matrices are interleaved,
or put one after another, where a vector counts as a matrix of one column.

Results:
* `interleaveLists_spec`: the interleaved row, cell by cell;
* **`invMatrices_spec`**, **`condInvMatrices_spec`**: when the rows are in order, the constraints
  can be posted.
-/

namespace SymBreak.Lexstar

open Declare Bee Invariants PairInvariants

/-! ## Model -/

/-- The pairs of `lexstar` (`pair_invariants.pl:621`, `:651`). Their test `J - I \= 2` compares the
term `J - I` with `2`, so it leaves out none. -/
def lexstarPairs (n : Nat) : List (Nat × Nat) := pairs n

/-- The pairs of `lexplus` (`pair_invariants.pl:615`, `:668`) -/
def lexplusPairs (n : Nat) : List (Nat × Nat) := (between 1 (n - 1)).map fun i => (i, i + 1)

/-- `remove_first(Xs, Rest)` (`pair_invariants.pl:724`) -/
def removeFirst {α : Type} : List α → Option (List α)
  | [] => none
  | _ :: xs => some xs

/-- The loop of `interleave_lists`, as long as the first list has elements. -/
def interleave {α : Type} : List α → List (List α) → Option (List (List α))
  | [], _ => some []
  | x :: xs, lists => do
    let firsts ← lists.mapM (nth1 1)
    let lists1 ← lists.mapM removeFirst
    return (x :: firsts) :: (← interleave xs lists1)

/-- `interleave_lists(Lists, Vec)` (`pair_invariants.pl:711-718`) -/
def interleaveLists {α : Type} : List (List α) → Option (List (List α))
  | [] => some []
  | l :: lists => interleave l lists

/-- `Vec1a` of `inv_matrices_lexstar`, or `Vec2a`: the interleaved rows of the vertex `k`. -/
def interleavedRow (matrixList : List Rows) (i j k : Nat) : Option (List Term) := do
  let rows ← matrixList.mapM (nth1 k)
  let rowsCut ← rows.mapM (shorten i j)
  let vec ← interleaveLists rowsCut
  return vec.flatten

/-- `inv_matrices_lexstar(Pairs, MatrixList)` (`pair_invariants.pl:625-638`) -/
def invMatrices (ps : List (Nat × Nat)) (matrixList : List Rows) : Post Constraint Unit :=
  ps.forM fun p => do
    let vec1a ← interleavedRow matrixList p.1 p.2 p.1
    let vec2a ← interleavedRow matrixList p.1 p.2 p.2
    post (.intArraysLex vec1a vec2a)

/-- `inv_matrices_lexstar(MatrixList)` (`pair_invariants.pl:618-622`) -/
def invMatricesLexstar (matrixList : List Rows) : Post Constraint Unit := do
  let m ← matrixList.head?
  invMatrices (lexstarPairs m.length) matrixList

/-- `inv_matrices_lexplus(MatrixList)` (`pair_invariants.pl:611-616`) -/
def invMatricesLexplus (matrixList : List Rows) : Post Constraint Unit := do
  let m ← matrixList.head?
  invMatrices (lexplusPairs m.length) matrixList

/-- The matrix of a pair invariant, or the vector of a vertex invariant. -/
inductive InvMatrix
  | matrix (m : Rows)
  | vector (ts : List Term)

/-- `length(M, N)` -/
def InvMatrix.length : InvMatrix → Nat
  | .matrix m => m.length
  | .vector ts => ts.length

/-- `to_matrix(M, M0)` (`pair_invariants.pl:655-662`) -/
def toMatrix : InvMatrix → Rows
  | .matrix m => m
  | .vector ts => ts.map fun x => [x]

/-- `Vec1` of `cond_inv_matrices_lexstar`, or `Vec2`: the rows of the vertex `k`, and at last that
of the adjacency matrix. -/
def chainedRow (matrixList : List Rows) (adjMatrix : Rows) (i j k : Nat) : Option (List Term) := do
  let rows0 ← matrixList.mapM (nth1 k)
  let rows ← rows0.mapM (shorten i j)
  let adjRow ← nth1 k adjMatrix
  let vecb ← shorten i j adjRow
  return rows.flatten ++ vecb

/-- `cond_inv_matrices_lexstar(Pairs, MatrixList, AdjMatrix)` (`pair_invariants.pl:673-688`) -/
def condInvMatrices (ps : List (Nat × Nat)) (matrixList : List Rows) (adjMatrix : Rows) :
    Post Constraint Unit :=
  ps.forM fun p => do
    let vec1 ← chainedRow matrixList adjMatrix p.1 p.2 p.1
    let vec2 ← chainedRow matrixList adjMatrix p.1 p.2 p.2
    post (.intArraysLex vec1 vec2)

/-- `cond_inv_matrices_lexstar(MatrixList, AdjMatrix)` (`pair_invariants.pl:648-653`) -/
def condInvMatricesLexstar (matrixList : List InvMatrix) (adjMatrix : Rows) :
    Post Constraint Unit :=
  condInvMatrices (lexstarPairs adjMatrix.length) (matrixList.map toMatrix) adjMatrix

/-- `cond_inv_matrices_lexplus(MatrixList, AdjMatrix)` (`pair_invariants.pl:664-670`) -/
def condInvMatricesLexplus (matrixList : List InvMatrix) (adjMatrix : Rows) :
    Post Constraint Unit := do
  let m ← matrixList.head?
  condInvMatrices (lexplusPairs m.length) (matrixList.map toMatrix) adjMatrix

/-! ## Rows -/

/-- What may fail on every element, and does not. -/
theorem mapM_forall₂ {α β γ : Type} {R : α → β → Prop} {S : α → γ → Prop} {f : β → Option γ}
    (h : ∀ a b, R a b → ∃ c, f b = some c ∧ S a c) {as : List α} {bs : List β}
    (hl : List.Forall₂ R as bs) : ∃ cs, bs.mapM f = some cs ∧ List.Forall₂ S as cs := by
  induction hl with
  | nil => exact ⟨[], rfl, List.Forall₂.nil⟩
  | cons hab _ ih =>
    obtain ⟨c, hc, hs⟩ := h _ _ hab
    obtain ⟨cs, hcs, hl⟩ := ih
    exact ⟨c :: cs, by simp [List.mapM_cons, hc, hcs], List.Forall₂.cons hs hl⟩

variable {n : Nat} {w : World bee}

theorem ReadsAll.append {ts ts' : List Term} {vs vs' : List Int} (h : ReadsAll w ts vs)
    (h' : ReadsAll w ts' vs') : ReadsAll w (ts ++ ts') (vs ++ vs') :=
  ⟨List.forall_mem_append.mpr ⟨h.known, h'.known⟩, by rw [List.map_append, h.eval, h'.eval]⟩

/-- Rows put one after another. -/
theorem ReadsAll.flatten {α : Type} {f : α → List Int} {as : List α} {rows : List (List Term)}
    (h : List.Forall₂ (fun a row => ReadsAll w row (f a)) as rows) :
    ReadsAll w rows.flatten (as.flatMap f) := by
  induction h with
  | nil => exact ⟨by simp, rfl⟩
  | cons h _ ih =>
    rw [List.flatten_cons, List.flatMap_cons]
    exact ReadsAll.append h ih

theorem interleave_spec {α : Type} {v : α → Int} {vs : List (α → Int)} {l : List α} :
    ∀ {row : List Term} {lists : List (List Term)}, ReadsAll w row (l.map v) →
      List.Forall₂ (fun u row => ReadsAll w row (l.map u)) vs lists →
      ∃ vec, interleave row lists = some vec ∧
        ReadsAll w vec.flatten (l.flatMap fun a => (v :: vs).map fun u => u a) := by
  induction l with
  | nil =>
    intro row lists hrow _
    obtain rfl := List.map_eq_nil_iff.mp hrow.eval
    exact ⟨[], rfl, by simp, rfl⟩
  | cons a l ih =>
    intro row lists hrow hlists
    obtain ⟨t, row, rfl, ht, hrow⟩ := hrow.cons_inv
    obtain ⟨firsts, hfirsts, hread⟩ := mapM_forall₂ (f := nth1 1)
      (S := fun u t => Reads w t (u a)) (fun u row h => by
        obtain ⟨t, row, rfl, ht, -⟩ := h.cons_inv
        exact ⟨t, rfl, ht⟩) hlists
    obtain ⟨rests, hrests, hlists⟩ := mapM_forall₂ (f := removeFirst)
      (S := fun u row => ReadsAll w row (l.map u)) (fun u row h => by
        obtain ⟨t, row, rfl, -, hrow⟩ := h.cons_inv
        exact ⟨row, rfl, hrow⟩) hlists
    obtain ⟨vec, hvec, hvread⟩ := ih hrow hlists
    refine ⟨(t :: firsts) :: vec, by simp [interleave, hfirsts, hrests, hvec], ?_⟩
    rw [List.flatten_cons, List.flatMap_cons, List.map_cons]
    exact ReadsAll.append (ht.cons (readsAll_of_forall₂ (f := fun u : α → Int => u a) hread)) hvread

/-- **The interleaved lists**, position by position. -/
theorem interleaveLists_spec {α : Type} {vs : List (α → Int)} {l : List α}
    {lists : List (List Term)}
    (h : List.Forall₂ (fun u row => ReadsAll w row (l.map u)) vs lists) (hvs : vs ≠ []) :
    ∃ vec, interleaveLists lists = some vec ∧
      ReadsAll w vec.flatten (l.flatMap fun a => vs.map fun u => u a) := by
  cases h with
  | nil => exact absurd rfl hvs
  | cons hrow hlists => exact interleave_spec hrow hlists

variable {G : Graph n} {i j k : Nat}

/-- The row of one of the two vertices, without their columns. -/
theorem cutRow_spec {m : Rows} {v : PairValue n} (hm : ReadsMatrix w m n (entries v G))
    (hij : i < j) (hj : j < n) (hk : k = i ∨ k = j) : ∃ row vec, nth1 (k + 1) m = some row ∧
      shorten (i + 1) (j + 1) row = some vec ∧ ReadsAll w vec ((others n i j).map (v.val G k)) := by
  obtain ⟨row, hrow, hread⟩ := nth1_of_reads hm (i := k) (by omega)
  obtain ⟨vec, hvec, hread⟩ := shorten_of_reads hread hij hj
  refine ⟨row, vec, hrow, hvec, hread.known, hread.eval.trans (List.map_congr_left fun c hc => ?_)⟩
  obtain ⟨-, hci, hcj⟩ := mem_others.mp hc
  exact if_neg (by omega)

theorem interleavedRow_spec {vs : List (PairValue n)} {ms : List Rows}
    (hms : List.Forall₂ (fun v m => ReadsMatrix w m n (entries v G)) vs ms) (hvs : vs ≠ [])
    (hij : i < j) (hj : j < n) (hk : k = i ∨ k = j) :
    ∃ vec, interleavedRow ms (i + 1) (j + 1) (k + 1) = some vec ∧
      ReadsAll w vec ((Part.pairs vs).row G i j k) := by
  obtain ⟨rows, hrows, hcut⟩ := mapM_forall₂ (f := nth1 (k + 1))
    (S := fun (v : PairValue n) row => ∃ vec, shorten (i + 1) (j + 1) row = some vec ∧
      ReadsAll w vec ((others n i j).map (v.val G k))) (fun v m hm => by
        obtain ⟨row, vec, hrow, hvec⟩ := cutRow_spec hm hij hj hk
        exact ⟨row, hrow, vec, hvec⟩) hms
  obtain ⟨rowsCut, hrowsCut, hread⟩ := mapM_forall₂ (f := shorten (i + 1) (j + 1))
    (S := fun (v : PairValue n) vec => ReadsAll w vec ((others n i j).map (v.val G k)))
    (fun _ _ h => h) hcut
  have hvs' : (vs.map fun v => v.val G k) ≠ [] := by simpa using hvs
  obtain ⟨vec, hvec, hread⟩ := interleaveLists_spec (List.forall₂_map_left_iff.mpr hread) hvs'
  refine ⟨vec.flatten, by simp [interleavedRow, hrows, hrowsCut, hvec], ?_⟩
  simp only [List.map_map] at hread
  exact hread

/-- A matrix or a vector that is known. -/
inductive ReadsPart (w : World bee) (G : Graph n) : Part n → InvMatrix → Prop
  | matrix {m : Rows} {v : PairValue n} : ReadsMatrix w m n (entries v G) →
      ReadsPart w G (.pairs [v]) (.matrix m)
  | vector {ts : List Term} {u : VertexValue n} : ReadsAll w ts ((List.range n).map (u.val G)) →
      ReadsPart w G (.vertices u) (.vector ts)

theorem ReadsPart.mono {w' : World bee} {part : Part n} {m : InvMatrix} (h : ReadsPart w G part m)
    (hle : w.Le w') : ReadsPart w' G part m := by
  cases h with
  | matrix hm => exact .matrix (hm.mono hle)
  | vector hts => exact .vector (hts.mono hle)

theorem ReadsPart.length {part : Part n} {m : InvMatrix} (h : ReadsPart w G part m) :
    m.length = n := by
  cases h with
  | matrix hm => exact hm.length
  | vector hts => simpa [InvMatrix.length] using congrArg List.length hts.eval

/-- The row of a matrix, or the element of a vector. -/
theorem ReadsPart.cutRow {part : Part n} {m : InvMatrix} (h : ReadsPart w G part m)
    (hij : i < j) (hj : j < n) (hk : k = i ∨ k = j) : ∃ row vec, nth1 (k + 1) (toMatrix m) =
      some row ∧ shorten (i + 1) (j + 1) row = some vec ∧ ReadsAll w vec (part.row G i j k) := by
  cases h with
  | matrix hm =>
    obtain ⟨row, vec, hrow, hvec, hread⟩ := cutRow_spec hm hij hj hk
    rw [List.map_eq_flatMap] at hread
    exact ⟨row, vec, hrow, hvec, hread⟩
  | vector hts =>
    obtain ⟨t, ht, hread⟩ := nth1_of_readsAll hts (i := k) (by simp; omega)
    rw [List.getElem_range] at hread
    refine ⟨[t], [t], ?_, rfl, hread.cons ⟨by simp, rfl⟩⟩
    rw [nth1_succ] at ht ⊢
    simp [toMatrix, ht]

theorem chainedRow_spec {parts : List (Part n)} {ms : List InvMatrix} {adj : Rows}
    {v : PairValue n} (hms : List.Forall₂ (ReadsPart w G) parts ms)
    (hadj : ReadsMatrix w adj n (entries v G)) (hij : i < j) (hj : j < n) (hk : k = i ∨ k = j) :
    ∃ vec, chainedRow (ms.map toMatrix) adj (i + 1) (j + 1) (k + 1) = some vec ∧
      ReadsAll w vec ((parts ++ [Part.pairs [v]]).flatMap (Part.row G i j k)) := by
  obtain ⟨rows, hrows, hcut⟩ := mapM_forall₂ (f := nth1 (k + 1))
    (S := fun part row => ∃ vec, shorten (i + 1) (j + 1) row = some vec ∧
      ReadsAll w vec (Part.row G i j k part)) (R := fun part m => ∃ m', ReadsPart w G part m' ∧
        m = toMatrix m') (fun part m hm => by
        obtain ⟨m', hm', rfl⟩ := hm
        obtain ⟨row, vec, hrow, hvec⟩ := hm'.cutRow hij hj hk
        exact ⟨row, hrow, vec, hvec⟩)
    (List.forall₂_map_right_iff.mpr (hms.imp fun _ m h => ⟨m, h, rfl⟩))
  obtain ⟨rowsCut, hrowsCut, hread⟩ := mapM_forall₂ (f := shorten (i + 1) (j + 1))
    (S := fun part vec => ReadsAll w vec (Part.row G i j k part)) (fun _ _ h => h) hcut
  obtain ⟨row, vec, hrow, hvec, hlast⟩ := cutRow_spec hadj hij hj hk
  refine ⟨rowsCut.flatten ++ vec, by simp [chainedRow, hrows, hrowsCut, hrow, hvec], ?_⟩
  rw [List.flatMap_append]
  refine ReadsAll.append (ReadsAll.flatten hread) ?_
  rw [List.flatMap_singleton]
  rw [List.map_eq_flatMap] at hlast
  exact hlast

/-! ## Constraints -/

/-- A constraint on rows that are in order. -/
theorem makes_lex {xs ys : List Term} {us vs : List Int} (hxs : ReadsAll w xs us)
    (hys : ReadsAll w ys vs) (hle : us ≤ vs) :
    Makes (post (.intArraysLex xs ys)) w fun _ _ => True := by
  refine (makes_post (fun y hy => ?_) ?_).imp fun _ _ _ _ => trivial
  · obtain ⟨t, ht, hy⟩ := List.mem_flatMap.mp hy
    rcases List.mem_append.mp ht with ht | ht
    · exact w.known_lt y (hxs.known t ht y hy)
    · exact w.known_lt y (hys.known t ht y hy)
  · change xs.map _ ≤ ys.map _
    rw [hxs.eval, hys.eval]
    exact hle

/-- The pairs are pairs of vertices. -/
def Within (n : Nat) (ps : List (Nat × Nat)) : Prop :=
  ∀ p ∈ ps, ∃ i j, i < j ∧ j < n ∧ p = (i + 1, j + 1)

theorem within_lexstarPairs (n : Nat) : Within n (lexstarPairs n) := fun _ hp => mem_pairs.mp hp

theorem within_lexplusPairs (n : Nat) : Within n (lexplusPairs n) := fun p hp => by
  obtain ⟨i, hi, rfl⟩ := List.mem_map.mp hp
  have := mem_between.mp hi
  exact ⟨i - 1, i, by omega, by omega, by rw [Nat.sub_add_cancel this.1]⟩

variable {ps : List (Nat × Nat)}

/-- **The rows of interleaved matrices** that are in order. -/
theorem invMatrices_spec {vs : List (PairValue n)} {ms : List Rows}
    (hms : List.Forall₂ (fun v m => ReadsMatrix w m n (entries v G)) vs ms) (hvs : vs ≠ [])
    (hps : Within n ps) (hle : ∀ i j, i < j → j < n →
      (Part.pairs vs).row G i j i ≤ (Part.pairs vs).row G i j j) :
    Makes (invMatrices ps ms) w fun _ _ => True := by
  refine (Makes.forM (fun _ _ => True) (fun _ _ _ _ _ => trivial) fun p hp w' hw' => ?_).imp
    fun _ _ _ _ => trivial
  obtain ⟨i, j, hij, hj, rfl⟩ := hps p hp
  have hms' := hms.imp fun _ _ h => ReadsMatrix.mono h hw'
  obtain ⟨vec1, hvec1, hread1⟩ := interleavedRow_spec hms' hvs hij hj (Or.inl rfl)
  obtain ⟨vec2, hvec2, hread2⟩ := interleavedRow_spec hms' hvs hij hj (Or.inr rfl)
  exact makes_lift hvec1 (makes_lift hvec2 (makes_lex hread1 hread2 (hle i j hij hj)))

/-- **The rows of matrices one after another** that are in order. -/
theorem condInvMatrices_spec {parts : List (Part n)} {ms : List InvMatrix} {adj : Rows}
    {v : PairValue n} (hms : List.Forall₂ (ReadsPart w G) parts ms)
    (hadj : ReadsMatrix w adj n (entries v G)) (hps : Within n ps)
    (hle : ∀ i j, i < j → j < n → (parts ++ [Part.pairs [v]]).flatMap (Part.row G i j i) ≤
      (parts ++ [Part.pairs [v]]).flatMap (Part.row G i j j)) :
    Makes (condInvMatrices ps (ms.map toMatrix) adj) w fun _ _ => True := by
  refine (Makes.forM (fun _ _ => True) (fun _ _ _ _ _ => trivial) fun p hp w' hw' => ?_).imp
    fun _ _ _ _ => trivial
  obtain ⟨i, j, hij, hj, rfl⟩ := hps p hp
  have hms' := hms.imp fun _ _ h => ReadsPart.mono h hw'
  obtain ⟨vec1, hvec1, hread1⟩ := chainedRow_spec hms' (hadj.mono hw') hij hj (Or.inl rfl)
  obtain ⟨vec2, hvec2, hread2⟩ := chainedRow_spec hms' (hadj.mono hw') hij hj (Or.inr rfl)
  exact makes_lift hvec1 (makes_lift hvec2 (makes_lex hread1 hread2 (hle i j hij hj)))

end SymBreak.Lexstar
