import SymBreak.Graph
import SymBreak.Lib.Hamilton
import SymBreak.Lib.Loop

/-!
# The unknown graph

Model of `UnknownGraph` and `AdjMatrixBoolVar` (`UnknownGraph.java`, `AdjMatrixBoolVar.java`), and
of the arithmetic of `Utils` modulo the number of vertices. A Boolean variable for every pair of
vertices is undecided, true or false; the edges whose variables are true are in the current fixed
graph, which is therefore part of the state with the invariant that says so. Choco's variables are
modelled by what setting one does: it throws when the variable has the other value.

The order in which Choco's sets list the neighbours of a vertex is not fixed by the code, so
whatever iterates over them takes a `Listing` of the fixed graph.

Results:
* `mod_eq`: `Utils.mod` is the remainder;
* `fixEdgeValue_false`: what fixing a non-edge does;
* **`forceAll_eq`**: fixing one non-edge after another throws iff one of the edges is fixed, and
  otherwise decides them all, in whatever order.
-/

namespace SymBreak.Uhg

open Hamilton

/-- `ESat` -/
inductive ESat where
  | TRUE
  | FALSE
  | UNDEFINED
  deriving DecidableEq, Repr

/-- What the code can throw: `ContradictionException`, `NullPointerException`,
`ArrayIndexOutOfBoundsException`. -/
inductive Exn where
  | contradiction
  | nullPointer
  | indexOutOfBounds
  deriving DecidableEq, Repr

/-! ## Arithmetic -/

namespace Utils

/-- `mod` (`Utils.java:26-30`); `%` is the remainder of the division towards zero. -/
def mod (x : Int) (n : Nat) : Nat :=
  let x := x.tmod n
  (if x < 0 then x + n else x).toNat

/-- `cycleDist` (`Utils.java:329-331`) -/
def cycleDist (i j : Int) (n : Nat) : Nat := min (mod (i - j) n) (mod (j - i) n)

theorem mod_eq (x : Int) {n : Nat} (hn : 0 < n) : (mod x n : Int) = x % n := by
  have hn' : (0 : Int) < n := by exact_mod_cast hn
  have h0 := Int.emod_nonneg x hn'.ne'
  unfold mod
  simp only
  rw [Int.tmod_eq_emod]
  by_cases hx : 0 ≤ x ∨ (n : Int) ∣ x
  · rw [if_pos hx, Nat.cast_zero, Int.sub_zero, if_neg (by omega), Int.toNat_of_nonneg h0]
  · have := Int.emod_lt_of_pos x hn'
    rw [if_neg hx, Int.natAbs_natCast, if_pos (by omega), Int.toNat_of_nonneg (by omega)]
    omega

theorem mod_lt (x : Int) {n : Nat} (hn : 0 < n) : mod x n < n := by
  have := mod_eq x hn
  have := Int.emod_lt_of_pos x (show (0 : Int) < n by exact_mod_cast hn)
  omega

/-- The remainder of a number that is a natural one plus a multiple of `n`. -/
theorem mod_of_eq {x : Int} {n k : Nat} (hn : 0 < n) (c : Int) (h : x = k + c * n) :
    mod x n = k % n := by
  have e : x % n = ((k % n : Nat) : Int) := by
    rw [h, Int.add_mul_emod_self_right, Int.natCast_emod]
  exact_mod_cast (mod_eq x hn).trans e

/-- The distance of two vertices on the cycle. -/
theorem cycleDist_eq {n i j : Nat} (hij : i < j) (hj : j < n) :
    cycleDist i j n = min (n - (j - i)) (j - i) := by
  have h1 : mod ((i : Int) - j) n = n - (j - i) := by
    rw [mod_of_eq (k := n - (j - i)) (by omega) (-1) (by omega), Nat.mod_eq_of_lt (by omega)]
  have h2 : mod ((j : Int) - i) n = j - i := by
    rw [mod_of_eq (k := j - i) (by omega) 0 (by omega), Nat.mod_eq_of_lt (by omega)]
  rw [cycleDist, h1, h2]

/-- Vertices are one apart on the cycle iff one comes after the other. -/
theorem cycleDist_eq_one {n i j : Nat} (hn : 3 ≤ n) (hij : i < j) (hj : j < n) :
    cycleDist i j n = 1 ↔ j = i + 1 ∨ (i = 0 ∧ j = n - 1) := by
  rw [cycleDist_eq hij hj]
  omega

end Utils

/-! ## Graphs with undecided edges -/

/-- The variables of the pairs of vertices, and the graph of those that are true. -/
@[ext] structure UnknownGraph (n : Nat) where
  value : Nat → Nat → ESat
  symm : ∀ i j, value i j = value j i
  currentFixedGraph : Graph n
  fixed_iff : ∀ i j, currentFixedGraph.adj i j = true ↔ value i j = .TRUE

/-- An order in which the neighbours of every vertex are listed. -/
structure Listing {n : Nat} (G : Graph n) where
  neighborsOf : Nat → List Nat
  nodup : ∀ v, (neighborsOf v).Nodup
  mem_iff : ∀ v x, x ∈ neighborsOf v ↔ G.adj v x = true

/-- In the order of the vertices. -/
def Listing.sorted {n : Nat} (G : Graph n) : Listing G where
  neighborsOf v := (List.range n).filter (G.adj v)
  nodup v := List.nodup_range.filter _
  mem_iff v x := by
    rw [List.mem_filter, List.mem_range, and_iff_right_of_imp fun h => G.lt_right h]

/-- `addEdge` of the fixed graph. -/
def addEdge {n : Nat} (G : Graph n) (i j : Nat) (h : i < n ∧ j < n ∧ i ≠ j) : Graph n where
  adj a b := decide (s(a, b) = s(i, j)) || G.adj a b
  symm a b := by rw [Sym2.eq_swap, G.symm a b]
  irrefl a := by
    rw [G.irrefl, Bool.or_false, decide_eq_false_iff_not, Sym2.eq_iff]
    omega
  bound a b hab := by
    rw [Bool.or_eq_true, decide_eq_true_iff, Sym2.eq_iff] at hab
    rcases hab with hab | hab
    · omega
    · exact G.bound a b hab

theorem addEdge_adj {n : Nat} {G : Graph n} {i j : Nat} {h : i < n ∧ j < n ∧ i ≠ j} {a b : Nat} :
    (addEdge G i j h).adj a b = true ↔ s(a, b) = s(i, j) ∨ G.adj a b = true := by
  unfold addEdge
  rw [Bool.or_eq_true, decide_eq_true_iff]

namespace UnknownGraph

variable {n : Nat} (g : UnknownGraph n)

/-- A decided pair that is not an edge is excluded. -/
theorem value_false_of {i j : Nat} (hu : g.value i j ≠ .UNDEFINED) (ht : g.value i j ≠ .TRUE) :
    g.value i j = .FALSE := by
  cases h : g.value i j with
  | TRUE => exact absurd h ht
  | FALSE => rfl
  | UNDEFINED => exact absurd h hu

theorem value_of_eq {i j a b : Nat} (h : s(a, b) = s(i, j)) : g.value a b = g.value i j := by
  rcases Sym2.eq_iff.mp h with ⟨rfl, rfl⟩ | ⟨rfl, rfl⟩
  · rfl
  · exact g.symm a b

/-- The edges of `G` are fixed, the other pairs undecided. -/
def ofGraph (G : Graph n) : UnknownGraph n where
  value i j := if G.adj i j then .TRUE else .UNDEFINED
  symm i j := by rw [G.symm]
  currentFixedGraph := G
  fixed_iff i j := by cases G.adj i j <;> simp

/-- `hasEdge` (`UnknownGraph.java:69-72`) -/
def hasEdge (u v : Nat) : Bool := g.currentFixedGraph.adj u v

/-- `edgeStatus` (`UnknownGraph.java:38-43`) -/
def edgeStatus (i j : Nat) : ESat := if i = j then .FALSE else g.value i j

/-- An undecided variable gets a value. A true one enters the fixed graph. -/
def assign (i j : Nat) (h : i < n ∧ j < n ∧ i ≠ j) (hu : g.value i j = .UNDEFINED) (val : Bool) :
    UnknownGraph n where
  value a b := if s(a, b) = s(i, j) then (if val then .TRUE else .FALSE) else g.value a b
  symm a b := by rw [Sym2.eq_swap, g.symm a b]
  currentFixedGraph := if val then addEdge g.currentFixedGraph i j h else g.currentFixedGraph
  fixed_iff a b := by
    by_cases hab : s(a, b) = s(i, j)
    · have hn : ¬ g.currentFixedGraph.adj a b = true := by
        rw [g.fixed_iff, g.value_of_eq hab, hu]
        decide
      rw [if_pos hab]
      cases val
      · simpa using hn
      · rw [if_pos rfl, addEdge_adj, if_pos rfl]
        exact iff_of_true (Or.inl hab) rfl
    · rw [if_neg hab, ← g.fixed_iff a b]
      cases val
      · rfl
      · rw [if_pos rfl, addEdge_adj, or_iff_right hab]

section Assign

variable {i j : Nat} {h : i < n ∧ j < n ∧ i ≠ j} {hu : g.value i j = .UNDEFINED} {val : Bool}

theorem value_assign (a b : Nat) : (g.assign i j h hu val).value a b =
    if s(a, b) = s(i, j) then (if val then .TRUE else .FALSE) else g.value a b := rfl

/-- A pair that was decided keeps its value. -/
theorem value_assign_of_decided {a b : Nat} (hab : g.value a b ≠ .UNDEFINED) :
    (g.assign i j h hu val).value a b = g.value a b := by
  rw [value_assign, if_neg fun hs => hab ((g.value_of_eq hs).trans hu)]

theorem value_assign_of_true {a b : Nat} (hab : g.value a b = .TRUE) :
    (g.assign i j h hu val).value a b = .TRUE := by
  rw [value_assign_of_decided g (by rw [hab]; decide), hab]

end Assign

/-- `instantiateTo` (`AdjMatrixBoolVar.java:24-31`): the variable throws when it has the other
value. -/
def instantiateTo (i j : Nat) (h : i < n ∧ j < n ∧ i ≠ j) (val : Bool) :
    Except (Halt Exn) (UnknownGraph n) :=
  match hv : g.value i j with
  | .TRUE => if val then .ok g else .error (.raised .contradiction)
  | .FALSE => if val then .error (.raised .contradiction) else .ok g
  | .UNDEFINED => .ok (g.assign i j h hv val)

/-- `fixEdgeValue` (`UnknownGraph.java:45-47`): the matrix has no variables on its diagonal. -/
def fixEdgeValue (i j : Nat) (val : Bool) : Except (Halt Exn) (UnknownGraph n) :=
  if h : i < n ∧ j < n then
    if h' : i ≠ j then g.instantiateTo i j ⟨h.1, h.2, h'⟩ val else .error (.raised .nullPointer)
  else .error (.raised .indexOutOfBounds)

/-! ## Fixing non-edges -/

/-- The undecided edges among `es` become false. -/
def exclude (es : List (Sym2 Nat)) : UnknownGraph n where
  value a b := if s(a, b) ∈ es ∧ g.value a b = .UNDEFINED then .FALSE else g.value a b
  symm a b := by rw [Sym2.eq_swap, g.symm a b]
  currentFixedGraph := g.currentFixedGraph
  fixed_iff a b := by
    rw [g.fixed_iff a b]
    by_cases hu : g.value a b = .UNDEFINED
    · by_cases hm : s(a, b) ∈ es <;> simp [hu, hm]
    · simp [hu]

@[simp] theorem currentFixedGraph_exclude (es : List (Sym2 Nat)) :
    (g.exclude es).currentFixedGraph = g.currentFixedGraph := rfl

@[simp] theorem hasEdge_exclude (es : List (Sym2 Nat)) (a b : Nat) :
    (g.exclude es).hasEdge a b = g.hasEdge a b := rfl

/-- Graphs with the same values have the same fixed graph. -/
theorem ext_value {g g' : UnknownGraph n} (h : ∀ a b, g.value a b = g'.value a b) : g = g' := by
  refine UnknownGraph.ext (funext₂ h) (Graph.ext (funext₂ fun a b => ?_))
  rw [Bool.eq_iff_iff, g.fixed_iff, g'.fixed_iff, h]

@[simp] theorem exclude_nil : g.exclude [] = g := ext_value fun a b => by simp [exclude]

theorem exclude_append (es es' : List (Sym2 Nat)) :
    g.exclude (es ++ es') = (g.exclude es).exclude es' := by
  refine ext_value fun a b => ?_
  simp only [exclude, List.mem_append]
  by_cases hu : g.value a b = .UNDEFINED
  · by_cases h1 : s(a, b) ∈ es <;> by_cases h2 : s(a, b) ∈ es' <;> simp [hu, h1, h2]
  · simp [hu]

theorem exclude_congr {es es' : List (Sym2 Nat)} (h : ∀ e, e ∈ es ↔ e ∈ es') :
    g.exclude es = g.exclude es' := ext_value fun a b => by simp only [exclude, h]

/-- What fixing a non-edge does. -/
theorem fixEdgeValue_false {i j : Nat} (hi : i < n) (hj : j < n) (hne : i ≠ j) :
    g.fixEdgeValue i j false =
      if g.hasEdge i j then .error (.raised .contradiction) else .ok (g.exclude [s(i, j)]) := by
  have hedge := g.fixed_iff i j
  unfold fixEdgeValue instantiateTo hasEdge
  rw [dif_pos ⟨hi, hj⟩, dif_pos hne]
  split
  · rename_i hv
    rw [if_pos (hedge.mpr hv)]
    rfl
  · rename_i hv
    have hn : ¬ g.currentFixedGraph.adj i j = true := by rw [hedge, hv]; decide
    rw [if_neg Bool.false_ne_true, if_neg hn]
    refine congrArg Except.ok (ext_value fun a b => ?_)
    -- the variable is false already
    refine (if_neg fun h => ?_).symm
    rw [g.value_of_eq (List.mem_singleton.mp h.1), hv] at h
    exact absurd h.2 (by decide)
  · rename_i hv
    have hn : ¬ g.currentFixedGraph.adj i j = true := by rw [hedge, hv]; decide
    rw [if_neg hn]
    refine congrArg Except.ok (ext_value fun a b => ?_)
    simp only [exclude, assign, List.mem_singleton]
    by_cases hab : s(a, b) = s(i, j)
    · rw [if_pos hab, if_neg Bool.false_ne_true, if_pos ⟨hab, (g.value_of_eq hab).trans hv⟩]
    · rw [if_neg hab, if_neg fun h => hab h.1]

/-- Fix the non-edges of a list, one after another. -/
def forceAll (es : List (Nat × Nat)) : Except (Halt Exn) (UnknownGraph n) :=
  es.foldlM (fun g e => g.fixEdgeValue e.1 e.2 false) g

theorem forceAll_append (es es' : List (Nat × Nat)) :
    g.forceAll (es ++ es') = g.forceAll es >>= fun g => g.forceAll es' :=
  List.foldlM_append

/-- Fixing non-edges does not touch the fixed graph, whatever they are. -/
theorem currentFixedGraph_fixEdgeValue {i j : Nat} {g' : UnknownGraph n}
    (h : g.fixEdgeValue i j false = .ok g') : g'.currentFixedGraph = g.currentFixedGraph := by
  by_cases hb : (i < n ∧ j < n) ∧ i ≠ j
  · obtain ⟨⟨hi, hj⟩, hne⟩ := hb
    rw [fixEdgeValue_false g hi hj hne] at h
    by_cases he : g.hasEdge i j = true
    · rw [if_pos he] at h
      exact absurd h (by simp)
    · rw [if_neg he] at h
      rw [← Except.ok.inj h, currentFixedGraph_exclude]
  · unfold fixEdgeValue at h
    split_ifs at h with hlt hne
    exact absurd ⟨hlt, hne⟩ hb

theorem currentFixedGraph_forceAll (es : List (Nat × Nat)) {g g' : UnknownGraph n}
    (h : g.forceAll es = .ok g') : g'.currentFixedGraph = g.currentFixedGraph := by
  induction es generalizing g with
  | nil => rw [← Except.ok.inj (show Except.ok g = .ok g' from h)]
  | cons e es ih =>
    unfold forceAll at h
    rw [List.foldlM_cons] at h
    cases hfix : g.fixEdgeValue e.1 e.2 false with
    | error x =>
      rw [hfix] at h
      exact absurd h (by simp [bind, Except.bind])
    | ok g₁ =>
      rw [hfix, ok_bind] at h
      rw [ih h, g.currentFixedGraph_fixEdgeValue hfix]

/-- **Fixing non-edges** throws iff one of them is an edge, and otherwise decides them all. -/
theorem forceAll_eq (es : List (Nat × Nat)) (g : UnknownGraph n)
    (h : ∀ e ∈ es, e.1 < n ∧ e.2 < n ∧ e.1 ≠ e.2) :
    g.forceAll es = if ∃ e ∈ es, g.hasEdge e.1 e.2 = true then .error (.raised .contradiction)
      else .ok (g.exclude (es.map fun e => s(e.1, e.2))) := by
  induction es generalizing g with
  | nil =>
    rw [if_neg (by simp), List.map_nil, exclude_nil]
    rfl
  | cons e es ih =>
    obtain ⟨⟨h1, h2, h3⟩, hes⟩ := List.forall_mem_cons.mp h
    unfold forceAll
    rw [List.foldlM_cons, fixEdgeValue_false g h1 h2 h3]
    by_cases he : g.hasEdge e.1 e.2 = true
    · rw [if_pos he, if_pos ⟨e, List.mem_cons_self, he⟩]
      rfl
    · rw [if_neg he, ok_bind]
      refine (ih _ hes).trans ?_
      simp only [hasEdge_exclude, List.exists_mem_cons_iff, he, Bool.false_eq_true, false_or,
        ← exclude_append, List.map_cons, List.singleton_append]

end UnknownGraph

end SymBreak.Uhg
