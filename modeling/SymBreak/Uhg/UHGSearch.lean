import SymBreak.Uhg.Propagators
import Mathlib.Logic.Relation

/-!
# The search for uniquely Hamiltonian graphs

Model of `UHGSearch` (`UHGSearch.java:25-41`) and of the solver that it runs. `fixHamCycle` fixes
the cycle `0, 1, …, n - 1`, and one of the four propagators is posted. The solver is not part of the
code; a step relation says what it may do, in any order: run the propagator on all edges when it
becomes active, run it for a chord that is an edge, decide an undecided pair, try the other value
after a failure on the graph as it was, accept a complete graph. An accepted graph is one on which
the propagator is active and has been run for every chord since that was fixed (`pending`). What the
other constraints say about a complete graph is `Q`; the solver may fix a pair or fail when `Q`
leaves it no choice.

Results:
* `fixHamCycle_eq`: the cycle is fixed, and nothing else;
* `World.Ok`: every second Hamiltonian cycle passes through a pending chord;
* `Keeps`: a graph is accepted, or the solver can still reach it;
* `step_inv`, `run_inv`: every step keeps both;
* `run_finishes`: from every state the solver can finish;
* **`search_exact`**: a finished search has accepted exactly the uniquely Hamiltonian graphs with
  `Q`;
* **`uhgSearch_exact`**: without other constraints.
-/

namespace SymBreak.Uhg

open Hamilton Graph

variable {n : Nat}

/-! ## The cycle -/

/-- `addEdge` (`UnknownGraph.java:74-81`): a contradiction is caught. -/
def UnknownGraph.addEdge (g : UnknownGraph n) (u v : Nat) : Except (Halt Exn) (UnknownGraph n) :=
  match g.fixEdgeValue u v true with
  | .error (.raised .contradiction) => .ok g
  | r => r

/-- The graph of `new UnknownGraph(n, model)` after `fixHamCycle` (`UHGSearch.java:37-41`). -/
def fixHamCycle (n : Nat) : Except (Halt Exn) (UnknownGraph n) :=
  (List.range n).foldlM (fun g i => g.addEdge (i % n) ((i + 1) % n)) (.ofGraph (Graph.empty n))

/-- Fixing one more edge, when no pair is decided to be none. -/
theorem addEdge_ofGraph {G : Graph n} {i j : Nat} (h : i < n ∧ j < n ∧ i ≠ j) :
    (UnknownGraph.ofGraph G).addEdge i j = .ok (.ofGraph (Uhg.addEdge G i j h)) := by
  have hfix : (UnknownGraph.ofGraph G).fixEdgeValue i j true =
      .ok (.ofGraph (Uhg.addEdge G i j h)) := by
    unfold UnknownGraph.fixEdgeValue UnknownGraph.instantiateTo
    rw [dif_pos ⟨h.1, h.2.1⟩, dif_pos h.2.2]
    split
    · rename_i hv
      -- it is an edge already
      have hadj := ((UnknownGraph.ofGraph G).fixed_iff i j).mpr hv
      refine congrArg Except.ok (congrArg UnknownGraph.ofGraph (Graph.ext (funext₂ fun a b => ?_)))
      rw [Bool.eq_iff_iff, addEdge_adj, or_iff_right_of_imp fun hab => ?_]
      rcases Sym2.eq_iff.mp hab with ⟨rfl, rfl⟩ | ⟨rfl, rfl⟩
      · exact hadj
      · exact Graph.Adj.symm hadj
    · rename_i hv
      unfold UnknownGraph.ofGraph at hv
      cases hG : G.adj i j <;> simp [hG] at hv
    · refine congrArg Except.ok (UnknownGraph.ext_value fun a b => ?_)
      unfold UnknownGraph.assign UnknownGraph.ofGraph
      by_cases hab : s(a, b) = s(i, j)
      · simp only [if_pos hab, addEdge_adj.mpr (Or.inl hab)]
        rfl
      · have : (Uhg.addEdge G i j h).adj a b = G.adj a b := by
          rw [Bool.eq_iff_iff, addEdge_adj, or_iff_right hab]
        simp only [if_neg hab, this]
  unfold UnknownGraph.addEdge
  rw [hfix]

/-- The vertices of an edge of the cycle. -/
theorem cycle_bounds (hn : 3 ≤ n) (i : Nat) :
    i % n < n ∧ (i + 1) % n < n ∧ i % n ≠ (i + 1) % n := by
  refine ⟨Nat.mod_lt _ (by omega), Nat.mod_lt _ (by omega), fun h => ?_⟩
  have h' : i ≡ i + 1 [MOD n] := h
  have hdvd := (Nat.modEq_iff_dvd' (Nat.le_succ i)).mp h'
  rw [show i.succ - i = 1 by omega, Nat.dvd_one] at hdvd
  omega

/-- After `k` turns the first `k` edges of the cycle are fixed, and every other pair is undecided.
-/
theorem fixHamCycle_turns (hn : 3 ≤ n) (k : Nat) : ∃ C : Graph n,
    (List.range k).foldlM (fun g i => UnknownGraph.addEdge g (i % n) ((i + 1) % n))
      (.ofGraph (Graph.empty n)) = .ok (.ofGraph C) ∧
    ∀ a b, C.Adj a b ↔ ∃ i < k, s(a, b) = s(i % n, (i + 1) % n) := by
  induction k with
  | zero => exact ⟨Graph.empty n, rfl, fun a b => by simp [Graph.Adj, Graph.empty]⟩
  | succ k ih =>
    obtain ⟨C, hC, hadj⟩ := ih
    refine ⟨Uhg.addEdge C _ _ (cycle_bounds hn k), ?_, fun a b => ?_⟩
    · rw [List.range_succ, List.foldlM_append, hC]
      simp only [ok_bind, List.foldlM_cons, List.foldlM_nil, addEdge_ofGraph (cycle_bounds hn k)]
      rfl
    · unfold Graph.Adj at hadj ⊢
      rw [addEdge_adj, hadj]
      constructor
      · rintro (h | ⟨i, hi, h⟩)
        · exact ⟨k, Nat.lt_succ_self k, h⟩
        · exact ⟨i, by omega, h⟩
      · rintro ⟨i, hi, h⟩
        rcases Nat.lt_succ_iff_lt_or_eq.mp hi with hi | rfl
        · exact Or.inr ⟨i, hi, h⟩
        · exact Or.inl h

/-- The pair is among the given edges. -/
def isEdge (n : Nat) (es : List (Sym2 Nat)) (a b : Nat) : Bool :=
  decide (a < n ∧ b < n ∧ a ≠ b) && es.any fun e => decide (s(a, b) = e)

theorem isEdge_iff {es : List (Sym2 Nat)} {a b : Nat} :
    isEdge n es a b = true ↔ a < n ∧ b < n ∧ a ≠ b ∧ s(a, b) ∈ es := by
  unfold isEdge
  rw [Bool.and_eq_true, decide_eq_true_iff, List.any_eq_true, and_assoc, and_assoc]
  simp only [decide_eq_true_iff, exists_eq_right']

theorem isEdge_symm (es : List (Sym2 Nat)) (a b : Nat) : isEdge n es a b = isEdge n es b a := by
  rw [Bool.eq_iff_iff, isEdge_iff, isEdge_iff, Sym2.eq_swap, ne_comm, and_left_comm]

theorem isEdge_self (es : List (Sym2 Nat)) (a : Nat) : isEdge n es a a = false :=
  Bool.eq_false_iff.mpr fun h => (isEdge_iff.mp h).2.2.1 rfl

theorem lt_of_isEdge (es : List (Sym2 Nat)) (a b : Nat) (h : isEdge n es a b = true) : a < n :=
  (isEdge_iff.mp h).1

/-- The graph with the given edges. -/
def ofEdges (n : Nat) (es : List (Sym2 Nat)) : Graph n :=
  ⟨isEdge n es, isEdge_symm es, isEdge_self es, lt_of_isEdge es⟩

theorem ofEdges_adj {es : List (Sym2 Nat)} {a b : Nat} :
    (ofEdges n es).Adj a b ↔ a < n ∧ b < n ∧ a ≠ b ∧ s(a, b) ∈ es := isEdge_iff

/-- The edges of the cycle `0, 1, …, n - 1`. -/
def cycleEdges (n : Nat) : List (Sym2 Nat) := (List.range n).map fun i => s(i, (i + 1) % n)

/-- The cycle `0, 1, …, n - 1`. -/
def cycleGraph (n : Nat) : Graph n := ofEdges n (cycleEdges n)

theorem containsCycle_ofEdges (hn : 3 ≤ n) {es : List (Sym2 Nat)}
    (hes : ∀ e ∈ cycleEdges n, e ∈ es) : (ofEdges n es).ContainsCycle := by
  intro i hi
  obtain ⟨h1, h2, h3⟩ := cycle_bounds hn i
  rw [Nat.mod_eq_of_lt hi] at h1 h3
  exact ofEdges_adj.mpr ⟨h1, h2, h3, hes _ (List.mem_map.mpr ⟨i, List.mem_range.mpr hi, rfl⟩)⟩

theorem cycleGraph_sub_iff (hn : 3 ≤ n) {G : Graph n} :
    (cycleGraph n).Sub G ↔ G.ContainsCycle := by
  refine ⟨fun h => (containsCycle_ofEdges hn fun _ he => he).mono h, fun h a b hab => ?_⟩
  obtain ⟨-, -, -, hmem⟩ := ofEdges_adj.mp hab
  obtain ⟨i, hi, he⟩ := List.mem_map.mp hmem
  have hadj := h i (List.mem_range.mp hi)
  rcases Sym2.eq_iff.mp he with ⟨rfl, rfl⟩ | ⟨rfl, rfl⟩
  · exact hadj
  · exact hadj.symm

/-- The edges of the cycle are the pairs at distance one. -/
theorem cycleGraph_adj (hn : 3 ≤ n) {i j : Nat} (hij : i < j) (hj : j < n) :
    (cycleGraph n).Adj i j ↔ Utils.cycleDist i j n = 1 := by
  have hcycle := (cycleGraph_sub_iff hn).mp (Graph.Sub.refl (cycleGraph n))
  rw [Utils.cycleDist_eq_one hn hij hj]
  constructor
  · intro h
    obtain ⟨-, -, -, hmem⟩ := ofEdges_adj.mp h
    obtain ⟨k, hk, he⟩ := List.mem_map.mp hmem
    have hk := List.mem_range.mp hk
    rcases Nat.lt_or_ge (k + 1) n with hlt | hge
    · rw [Nat.mod_eq_of_lt hlt, Sym2.eq_iff] at he
      omega
    · rw [show k + 1 = n by omega, Nat.mod_self, Sym2.eq_iff] at he
      omega
  · rintro (rfl | ⟨rfl, rfl⟩)
    · have h := hcycle i (by omega)
      rwa [Nat.mod_eq_of_lt hj] at h
    · have h := hcycle (n - 1) (by omega)
      rw [show n - 1 + 1 = n by omega, Nat.mod_self] at h
      exact h.symm

/-- **The cycle is fixed**, and every other pair is undecided. -/
theorem fixHamCycle_eq (hn : 3 ≤ n) : fixHamCycle n = .ok (.ofGraph (cycleGraph n)) := by
  obtain ⟨C, hC, hadj⟩ := fixHamCycle_turns hn n
  refine hC.trans (congrArg (fun C => Except.ok (UnknownGraph.ofGraph C))
    (Graph.ext (funext₂ fun a b => ?_)))
  rw [Bool.eq_iff_iff]
  refine (hadj a b).trans ⟨fun ⟨i, hi, he⟩ => ?_, fun hab => ?_⟩
  · obtain ⟨-, hlt, -⟩ := cycle_bounds hn i
    have hCab := (hadj a b).mpr ⟨i, hi, he⟩
    rw [Nat.mod_eq_of_lt hi] at he
    exact ofEdges_adj.mpr ⟨C.bound _ _ hCab, C.lt_right hCab, C.ne_of_adj hCab,
      List.mem_map.mpr ⟨i, List.mem_range.mpr hi, he.symm⟩⟩
  · obtain ⟨-, -, -, hmem⟩ := ofEdges_adj.mp hab
    obtain ⟨i, hi, he⟩ := List.mem_map.mp hmem
    have hi := List.mem_range.mp hi
    exact ⟨i, hi, by rw [Nat.mod_eq_of_lt hi]; exact he.symm⟩

theorem fixHamCycle_spec (hn : 3 ≤ n) : ∃ C : Graph n, fixHamCycle n = .ok (.ofGraph C) ∧
    ∀ G : Graph n, C.Sub G ↔ G.ContainsCycle :=
  ⟨cycleGraph n, fixHamCycle_eq hn, fun _ => cycleGraph_sub_iff hn⟩

/-! ## Graphs that the search can still reach -/

/-- The graph agrees with the pairs decided so far. -/
structure Agrees (g : UnknownGraph n) (G : Graph n) : Prop where
  fixed : g.currentFixedGraph.Sub G
  excluded : ∀ a b, g.value a b = .FALSE → ¬ G.Adj a b

theorem agrees_ofGraph {C G : Graph n} : Agrees (.ofGraph C) G ↔ C.Sub G := by
  refine ⟨fun h => h.fixed, fun h => ⟨h, fun a b hab => ?_⟩⟩
  unfold UnknownGraph.ofGraph at hab
  cases hC : C.adj a b <;> simp [hC] at hab

theorem adj_of_eq {G : Graph n} {a b c d : Nat} (h : s(a, b) = s(c, d)) :
    G.adj a b = G.adj c d := by
  rcases Sym2.eq_iff.mp h with ⟨rfl, rfl⟩ | ⟨rfl, rfl⟩
  · rfl
  · exact G.symm a b

/-- Fixing pairs that are not edges of the graph. -/
theorem Agrees.exclude {g : UnknownGraph n} {G : Graph n} (h : Agrees g G) {es : List (Nat × Nat)}
    (hes : ∀ e ∈ es, ¬ G.Adj e.1 e.2) : Agrees (g.exclude (es.map fun e => s(e.1, e.2))) G := by
  refine ⟨h.fixed, fun a b hab => ?_⟩
  unfold UnknownGraph.exclude at hab
  simp only at hab
  by_cases hm : s(a, b) ∈ es.map fun e => s(e.1, e.2)
  · obtain ⟨e, he, hs⟩ := List.mem_map.mp hm
    rcases Sym2.eq_iff.mp hs with ⟨rfl, rfl⟩ | ⟨rfl, rfl⟩
    · exact hes e he
    · exact fun hG => hes e he hG.symm
  · rw [if_neg fun h => hm h.1] at hab
    exact h.excluded a b hab

/-- Deciding an undecided pair. -/
theorem agrees_assign {g : UnknownGraph n} {G : Graph n} {i j : Nat} {b : Bool}
    (h : i < n ∧ j < n ∧ i ≠ j) (hu : g.value i j = .UNDEFINED) :
    Agrees (g.assign i j h hu b) G ↔ Agrees g G ∧ G.adj i j = b := by
  have fixed_iff := (g.assign i j h hu b).fixed_iff
  constructor
  · intro hG
    have hij : (g.assign i j h hu b).value i j = if b then .TRUE else .FALSE := by
      rw [g.value_assign, if_pos rfl]
    refine ⟨⟨fun a c hac => ?_, fun a c hac => ?_⟩, ?_⟩
    · have hval := (g.fixed_iff a c).mp hac
      refine hG.fixed a c ((fixed_iff a c).mpr ?_)
      rw [g.value_assign_of_decided (by rw [hval]; decide), hval]
    · refine hG.excluded a c ?_
      rw [g.value_assign_of_decided (by rw [hac]; decide), hac]
    · cases b with
      | true => exact hG.fixed i j ((fixed_iff i j).mpr hij)
      | false => exact Bool.not_eq_true _ ▸ hG.excluded i j hij
  · rintro ⟨hG, hb⟩
    refine ⟨fun a c hac => ?_, fun a c hac => ?_⟩
    · replace hac := (fixed_iff a c).mp hac
      rw [g.value_assign] at hac
      by_cases hs : s(a, c) = s(i, j)
      · unfold Graph.Adj
        rw [adj_of_eq hs, hb]
        cases b with
        | true => rfl
        | false => simp [hs] at hac
      · rw [if_neg hs] at hac
        exact hG.fixed a c ((g.fixed_iff a c).mpr hac)
    · rw [g.value_assign] at hac
      by_cases hs : s(a, c) = s(i, j)
      · unfold Graph.Adj
        rw [adj_of_eq hs, hb]
        cases b with
        | true => simp [hs] at hac
        | false => exact Bool.false_ne_true
      · rw [if_neg hs] at hac
        exact hG.excluded a c hac

/-- A complete graph agrees with itself only. -/
theorem Agrees.eq_of_complete {g : UnknownGraph n} {G : Graph n} (h : Agrees g G)
    (hdone : ∀ e ∈ allVars n, g.value e.1 e.2 ≠ .UNDEFINED) : G = g.currentFixedGraph := by
  have key : ∀ i j, i < j → j < n → G.adj i j = g.currentFixedGraph.adj i j := fun i j hij hj => by
    have hu := hdone (i, j) (Matrix.mem_upperPairs.mpr ⟨hij, hj⟩)
    simp only at hu
    rw [Bool.eq_iff_iff]
    refine ⟨fun hG => ?_, fun hF => h.fixed i j hF⟩
    rw [g.fixed_iff]
    by_contra ht
    exact h.excluded i j (g.value_false_of hu ht) hG
  refine Graph.ext_of_lt fun i j hi hj => ?_
  rcases Nat.lt_trichotomy i j with hij | rfl | hij
  · exact key i j hij hj
  · rw [G.irrefl, Graph.irrefl]
  · rw [G.symm, key j i hij hi, Graph.symm]

/-- The non-edges that a propagator fixes are non-edges of every graph with the property that still
agrees: it does not fail, and the graph agrees afterwards. -/
theorem Agrees.of_forces {F G : Graph n} {bad : Graph n → Prop} {es : List (Nat × Nat)}
    {f : UnknownGraph n → Nat → Except (Halt Exn) (UnknownGraph n)} (hf : Forces F bad f es)
    {g : UnknownGraph n} (hg : g.currentFixedGraph = F) (h : Agrees g G) (hG : ¬ bad G) :
    Converges (f g) (.ok (g.exclude (es.map fun e => s(e.1, e.2)))) ∧
      Agrees (g.exclude (es.map fun e => s(e.1, e.2))) G := by
  have hout : ∀ e ∈ es, ¬ G.Adj e.1 e.2 := fun e he hadj =>
    hG ((hf.1 e he).through G (hg ▸ h.fixed) hadj)
  have hrun := hf.2 g hg
  rw [forceAll_of_forced hf.1, if_neg ?_] at hrun
  · exact ⟨hrun, h.exclude hout⟩
  · rintro ⟨e, he, hadj⟩
    exact hout e he (h.fixed _ _ hadj)

/-! ## The solver -/

/-- What the solver restores on backtracking: the graph, whether the propagator is active, and the
chords that were fixed since the propagator was run for them. -/
structure World (n : Nat) where
  graph : UnknownGraph n
  active : Bool
  pending : List (Nat × Nat)

/-- The other value of a decided pair, still to be tried in the world before the decision. -/
structure Decision (n : Nat) where
  world : World n
  edge : Nat × Nat
  value : Bool

/-- A state of the search; `current` is `none` after a failure or a solution. -/
structure SearchState (n : Nat) where
  current : Option (World n)
  stack : List (Decision n)
  solutions : List (Graph n)

/-- Set the variable of a pair. An edge is from then on to be propagated. -/
def World.set (w : World n) (e : Nat × Nat) (val : Bool) : Except (Halt Exn) (World n) := do
  let g ← w.graph.fixEdgeValue e.1 e.2 val
  .ok { w with graph := g, pending := if val then e :: w.pending else w.pending }

/-- The world after a propagator returned a graph or threw a contradiction. -/
def World.after (w : World n) (active : Bool) (pending : List (Nat × Nat)) :
    Except (Halt Exn) (UnknownGraph n) → Option (Option (World n))
  | .ok g => some (some { w with graph := g, active := active, pending := pending })
  | .error (.raised .contradiction) => some none
  | .error _ => none

/-- **A step of the solver** that runs the propagator `P`, where the other constraints are `Q`. The
neighbours are listed in any order. -/
inductive Step (P : Propagator) (Q : Graph n → Prop) : SearchState n → SearchState n → Prop
  | activate {w : World n} {st sols r c} (nb : Listing w.graph.currentFixedGraph)
      (hw : w.active = false) (hr : Converges (P.propagateAll nb.neighborsOf w.graph) r)
      (hc : w.after true [] r = some c) : Step P Q ⟨some w, st, sols⟩ ⟨c, st, sols⟩
  | propagate {w : World n} {st sols r c} (nb : Listing w.graph.currentFixedGraph) (vIdx : Nat)
      (x y : Nat) (hw : w.active = true) (hv : (allVars n)[vIdx]? = some (x, y))
      (hval : w.graph.value x y = .TRUE) (hchord : Utils.cycleDist x y n ≠ 1)
      (hr : Converges (P.propagate nb.neighborsOf vIdx w.graph) r)
      (hc : w.after true (w.pending.filter (· ≠ (x, y))) r = some c) :
      Step P Q ⟨some w, st, sols⟩ ⟨c, st, sols⟩
  | decide {w w' : World n} {st sols} (e : Nat × Nat) (val : Bool) (he : e ∈ allVars n)
      (hu : w.graph.value e.1 e.2 = .UNDEFINED) (h : w.set e val = .ok w') :
      Step P Q ⟨some w, st, sols⟩ ⟨some w', ⟨w, e, !val⟩ :: st, sols⟩
  | infer {w w' : World n} {st sols} (e : Nat × Nat) (val : Bool) (he : e ∈ allVars n)
      (hu : w.graph.value e.1 e.2 = .UNDEFINED)
      (hQ : ∀ G, Agrees w.graph G → Q G → G.adj e.1 e.2 = val) (h : w.set e val = .ok w') :
      Step P Q ⟨some w, st, sols⟩ ⟨some w', st, sols⟩
  | fail {w : World n} {st sols} (hQ : ∀ G, Agrees w.graph G → ¬ Q G) :
      Step P Q ⟨some w, st, sols⟩ ⟨none, st, sols⟩
  | accept {w : World n} {st sols} (hw : w.active = true) (hp : w.pending = [])
      (hdone : ∀ e ∈ allVars n, w.graph.value e.1 e.2 ≠ .UNDEFINED)
      (hQ : Q w.graph.currentFixedGraph) :
      Step P Q ⟨some w, st, sols⟩ ⟨none, st, w.graph.currentFixedGraph :: sols⟩
  | backtrack {w' : World n} {st sols} (d : Decision n) (h : d.world.set d.edge d.value = .ok w') :
      Step P Q ⟨none, d :: st, sols⟩ ⟨some w', st, sols⟩

/-- Runs of the solver. -/
def Run (P : Propagator) (Q : Graph n → Prop) : SearchState n → SearchState n → Prop :=
  Relation.ReflTransGen (Step P Q)

/-- The search before its first step. -/
def SearchState.start (g : UnknownGraph n) : SearchState n := ⟨some ⟨g, false, []⟩, [], []⟩

/-- The search is over. -/
def SearchState.Finished (s : SearchState n) : Prop := s.current = none ∧ s.stack = []

/-- **What the search is for**: the graph contains the cycle `0, 1, …, n - 1` and has no other
Hamiltonian cycle. -/
def UniqueHamCycle (G : Graph n) : Prop :=
  G.ContainsCycle ∧ ∀ c, IsHamCycle G.Adj (List.range n) c → SameCycle c (List.range n)

theorem uniqueHamCycle_iff {G : Graph n} (hn : 3 ≤ n) :
    UniqueHamCycle G ↔ G.ContainsCycle ∧ ¬ SecondCycle G := by
  unfold UniqueHamCycle
  rw [secondCycle_iff hn, not_exists]
  simp only [not_and, not_not]

/-- The graph is among the solutions, or still agrees with a world that the search goes through. -/
def SearchState.Keeps (s : SearchState n) (G : Graph n) : Prop :=
  G ∈ s.solutions ∨ (∃ w, s.current = some w ∧ Agrees w.graph G) ∨
    ∃ d ∈ s.stack, Agrees d.world.graph G ∧ G.adj d.edge.1 d.edge.2 = d.value

/-! ## The invariant -/

/-- **The invariant of a world**: the cycle is in the fixed graph, what is pending are chords that
are edges, and every second Hamiltonian cycle passes through a pending chord. -/
structure World.Ok (w : World n) : Prop where
  cycle : w.graph.currentFixedGraph.ContainsCycle
  chord : ∀ e ∈ w.pending, e ∈ allVars n ∧ w.graph.value e.1 e.2 = .TRUE ∧
    Utils.cycleDist e.1 e.2 n ≠ 1
  propagated : w.active = true → ∀ c, IsHamCycle w.graph.currentFixedGraph.Adj (List.range n) c →
    ¬ SameCycle c (List.range n) → ∃ e ∈ w.pending, CycleEdge c e.1 e.2

/-- The invariant of a state. -/
structure Inv (Q : Graph n → Prop) (s : SearchState n) : Prop where
  current : ∀ w, s.current = some w → w.Ok
  stack : ∀ d ∈ s.stack, d.world.Ok ∧ d.edge ∈ allVars n ∧
    d.world.graph.value d.edge.1 d.edge.2 = .UNDEFINED
  sound : ∀ G ∈ s.solutions, UniqueHamCycle G ∧ Q G
  keeps : ∀ G, UniqueHamCycle G → Q G → s.Keeps G

section Steps

variable {P : Propagator} {Q : Graph n → Prop}

theorem bounds_of_mem {e : Nat × Nat} (he : e ∈ allVars n) : e.1 < n ∧ e.2 < n ∧ e.1 ≠ e.2 := by
  have := Matrix.mem_upperPairs.mp he
  omega

/-- Fixing an undecided pair. -/
theorem fixEdgeValue_undefined {g : UnknownGraph n} {e : Nat × Nat} (he : e ∈ allVars n)
    (hu : g.value e.1 e.2 = .UNDEFINED) (val : Bool) :
    g.fixEdgeValue e.1 e.2 val = .ok (g.assign e.1 e.2 (bounds_of_mem he) hu val) := by
  obtain ⟨h1, h2, h3⟩ := bounds_of_mem he
  unfold UnknownGraph.fixEdgeValue UnknownGraph.instantiateTo
  rw [dif_pos ⟨h1, h2⟩, dif_pos h3]
  split
  · rename_i hv
    rw [hu] at hv
    exact absurd hv (by decide)
  · rename_i hv
    rw [hu] at hv
    exact absurd hv (by decide)
  · rfl

/-- Setting an undecided pair. -/
theorem World.set_eq (w : World n) {e : Nat × Nat} (he : e ∈ allVars n)
    (hu : w.graph.value e.1 e.2 = .UNDEFINED) (val : Bool) :
    w.set e val = .ok { w with
      graph := w.graph.assign e.1 e.2 (bounds_of_mem he) hu val
      pending := if val then e :: w.pending else w.pending } := by
  unfold World.set
  rw [fixEdgeValue_undefined he hu, ok_bind]

theorem World.agrees_set {w w' : World n} {e : Nat × Nat} {val : Bool} (he : e ∈ allVars n)
    (hu : w.graph.value e.1 e.2 = .UNDEFINED) (h : w.set e val = .ok w') {G : Graph n} :
    Agrees w'.graph G ↔ Agrees w.graph G ∧ G.adj e.1 e.2 = val := by
  rw [w.set_eq he hu] at h
  rw [← Except.ok.inj h]
  exact agrees_assign (bounds_of_mem he) hu

/-- An undecided pair is a chord, since the edges of the cycle are fixed. -/
theorem World.Ok.chord_of_undefined (hn : 3 ≤ n) {w : World n} (hw : w.Ok) {e : Nat × Nat}
    (he : e ∈ allVars n) (hu : w.graph.value e.1 e.2 = .UNDEFINED) :
    Utils.cycleDist e.1 e.2 n ≠ 1 := by
  intro hd
  obtain ⟨hlt, hn2⟩ := Matrix.mem_upperPairs.mp he
  have hcyc : w.graph.currentFixedGraph.Adj e.1 e.2 := by
    rcases (Utils.cycleDist_eq_one hn hlt hn2).mp hd with h1 | ⟨h1, h2⟩
    · have := hw.cycle e.1 (by omega)
      rwa [Nat.mod_eq_of_lt (by omega), ← h1] at this
    · have := hw.cycle e.2 hn2
      rw [h2, Nat.sub_add_cancel (by omega), Nat.mod_self, ← h1, ← h2] at this
      exact this.symm
  rw [(w.graph.fixed_iff _ _).mp hcyc] at hu
  exact absurd hu (by decide)

/-- A cycle that does not pass through the pair decided was there before. -/
theorem isHamCycle_of_assign {g : UnknownGraph n} {i j : Nat} {val : Bool}
    {h : i < n ∧ j < n ∧ i ≠ j} (hu : g.value i j = .UNDEFINED) {verts c : List Nat}
    (hlen : 2 ≤ c.length)
    (hc : IsHamCycle (g.assign i j h hu val).currentFixedGraph.Adj verts c)
    (hce : ¬ CycleEdge c i j) : IsHamCycle g.currentFixedGraph.Adj verts c := by
  refine hc.of_edges hlen fun a b hab => ?_
  have hadj := (UnknownGraph.fixed_iff _ a b).mp (hc.rel (fun _ _ => Graph.Adj.symm) hab)
  have hs : s(a, b) ≠ s(i, j) := fun hs => by
    rcases Sym2.eq_iff.mp hs with ⟨rfl, rfl⟩ | ⟨rfl, rfl⟩
    · exact hce hab
    · exact hce hab.symm
  rw [g.value_assign, if_neg hs] at hadj
  exact (g.fixed_iff a b).mpr hadj

/-- **A cycle after a pair is decided** was there before, or passes through the pair set to true. -/
theorem isHamCycle_assign_cases {g : UnknownGraph n} {i j : Nat} {val : Bool}
    {h : i < n ∧ j < n ∧ i ≠ j} (hu : g.value i j = .UNDEFINED) {verts c : List Nat}
    (hlen : 2 ≤ c.length)
    (hc : IsHamCycle (g.assign i j h hu val).currentFixedGraph.Adj verts c) :
    IsHamCycle g.currentFixedGraph.Adj verts c ∨ val = true ∧ CycleEdge c i j := by
  by_cases hce : CycleEdge c i j
  · have hval := (UnknownGraph.fixed_iff _ _ _).mp (hc.rel (fun _ _ => Graph.Adj.symm) hce)
    rw [g.value_assign, if_pos rfl] at hval
    cases val with
    | false => exact absurd hval (by decide)
    | true => exact Or.inr ⟨rfl, hce⟩
  · exact Or.inl (isHamCycle_of_assign hu hlen hc hce)

/-- The pair that is set to true is the one that is notified. -/
theorem mem_notified {α : Type} {val : Bool} {e e' : α} {pending : List α} :
    e' ∈ (if val then e :: pending else pending) ↔ val = true ∧ e' = e ∨ e' ∈ pending := by
  cases val <;> simp

theorem value_assign_true {g : UnknownGraph n} {i j : Nat} {h : i < n ∧ j < n ∧ i ≠ j}
    (hu : g.value i j = .UNDEFINED) : (g.assign i j h hu true).value i j = .TRUE := by
  rw [g.value_assign, if_pos rfl, if_pos rfl]

/-- **Setting a pair keeps the invariant**: a Hamiltonian cycle that is new passes through the pair.
-/
theorem World.Ok.set (hn : 3 ≤ n) {w w' : World n} (hw : w.Ok) {e : Nat × Nat} {val : Bool}
    (he : e ∈ allVars n) (hu : w.graph.value e.1 e.2 = .UNDEFINED) (h : w.set e val = .ok w') :
    w'.Ok := by
  rw [w.set_eq he hu] at h
  obtain rfl := Except.ok.inj h
  have hkeep : ∀ {a b}, w.graph.value a b = .TRUE →
      (w.graph.assign e.1 e.2 (bounds_of_mem he) hu val).value a b = .TRUE :=
    w.graph.value_assign_of_true
  refine ⟨fun i hi => ?_, fun p hp => ?_, fun ha c hc hs => ?_⟩
  · exact (UnknownGraph.fixed_iff _ _ _).mpr (hkeep ((w.graph.fixed_iff _ _).mp (hw.cycle i hi)))
  · rcases mem_notified.mp hp with ⟨rfl, rfl⟩ | hpw
    · exact ⟨he, value_assign_true hu, hw.chord_of_undefined hn he hu⟩
    · obtain ⟨h1, h2, h3⟩ := hw.chord p hpw
      exact ⟨h1, hkeep h2, h3⟩
  · have hlen : 2 ≤ c.length := by
      rw [hc.1.length_eq, List.length_range]
      omega
    rcases isHamCycle_assign_cases hu hlen hc with hold | ⟨hval, hce⟩
    · obtain ⟨p, hp, hpe⟩ := hw.propagated ha c hold hs
      exact ⟨p, mem_notified.mpr (Or.inr hp), hpe⟩
    · exact ⟨e, mem_notified.mpr (Or.inl ⟨hval, rfl⟩), hce⟩

/-- What is left of a world after a propagator: nothing when it fixed an edge to be none, and
otherwise the same edges. -/
theorem World.after_cases {w : World n} {bad : Graph n → Prop} {es : List (Nat × Nat)}
    {f : UnknownGraph n → Nat → Except (Halt Exn) (UnknownGraph n)}
    (hf : Forces w.graph.currentFixedGraph bad f es) {r : Except (Halt Exn) (UnknownGraph n)}
    (hr : Converges (f w.graph) r) {active : Bool} {pending : List (Nat × Nat)}
    {c : Option (World n)} (hc : w.after active pending r = some c) :
    ((∃ e ∈ es, w.graph.currentFixedGraph.Adj e.1 e.2) ∧ c = none) ∨
    ((¬ ∃ e ∈ es, w.graph.currentFixedGraph.Adj e.1 e.2) ∧
      c = some ⟨w.graph.exclude (es.map fun e => s(e.1, e.2)), active, pending⟩) := by
  have hrun := hf.2 w.graph rfl
  rw [forceAll_of_forced hf.1] at hrun
  obtain rfl := hr.unique hrun
  by_cases h : ∃ e ∈ es, w.graph.hasEdge e.1 e.2 = true
  · rw [if_pos h] at hc
    exact Or.inl ⟨h, (Option.some.inj hc).symm⟩
  · rw [if_neg h] at hc
    exact Or.inr ⟨h, (Option.some.inj hc).symm⟩

/-- A graph that is not bad is not lost. -/
theorem Agrees.after {w : World n} {bad : Graph n → Prop} {es : List (Nat × Nat)}
    {f : UnknownGraph n → Nat → Except (Halt Exn) (UnknownGraph n)}
    (hf : Forces w.graph.currentFixedGraph bad f es) {r : Except (Halt Exn) (UnknownGraph n)}
    (hr : Converges (f w.graph) r) {active : Bool} {pending : List (Nat × Nat)}
    {c : Option (World n)} (hc : w.after active pending r = some c) {G : Graph n}
    (hG : Agrees w.graph G) (hbad : ¬ bad G) : ∃ w', c = some w' ∧ Agrees w'.graph G := by
  obtain ⟨hrun, hagrees⟩ := hG.of_forces hf rfl hbad
  obtain rfl := hr.unique hrun
  exact ⟨_, (Option.some.inj hc).symm, hagrees⟩

/-- Fixing non-edges keeps the invariant of the pending chords that are left. -/
theorem World.Ok.exclude {w : World n} (hw : w.Ok) {es : List (Sym2 Nat)} {active : Bool}
    {pending : List (Nat × Nat)} (hsub : ∀ e ∈ pending, e ∈ w.pending)
    (hprop : ∀ c, IsHamCycle w.graph.currentFixedGraph.Adj (List.range n) c →
      ¬ SameCycle c (List.range n) → ∃ e ∈ pending, CycleEdge c e.1 e.2) :
    World.Ok ⟨w.graph.exclude es, active, pending⟩ := by
  refine ⟨hw.cycle, fun e he => ?_, fun _ => hprop⟩
  obtain ⟨h1, h2, h3⟩ := hw.chord e (hsub e he)
  exact ⟨h1, ((w.graph.exclude es).fixed_iff e.1 e.2).mp ((w.graph.fixed_iff e.1 e.2).mpr h2), h3⟩

/-- A step that only changes the current world. -/
theorem Inv.replace {w : World n} {st : List (Decision n)} {sols : List (Graph n)}
    {c : Option (World n)} (hi : Inv Q ⟨some w, st, sols⟩) (hok : ∀ w', c = some w' → w'.Ok)
    (hkeep : ∀ G, UniqueHamCycle G → Q G → Agrees w.graph G →
      ∃ w', c = some w' ∧ Agrees w'.graph G) :
    Inv Q ⟨c, st, sols⟩ := by
  refine ⟨hok, hi.stack, hi.sound, fun G hG hQ => ?_⟩
  rcases hi.keeps G hG hQ with h | ⟨w₀, hw₀, h⟩ | h
  · exact Or.inl h
  · obtain rfl := Option.some.inj hw₀
    exact Or.inr (Or.inl (hkeep G hG hQ h))
  · exact Or.inr (Or.inr h)

/-- **A propagator that forces non-edges** keeps the invariant: no graph that is sought is bad, and
when it does not throw, the chords left pending meet every second Hamiltonian cycle. -/
theorem Inv.after {w : World n} {st : List (Decision n)} {sols : List (Graph n)}
    (hi : Inv Q ⟨some w, st, sols⟩) {bad : Graph n → Prop} {es : List (Nat × Nat)}
    {f : UnknownGraph n → Nat → Except (Halt Exn) (UnknownGraph n)}
    (hf : Forces w.graph.currentFixedGraph bad f es) {r : Except (Halt Exn) (UnknownGraph n)}
    (hr : Converges (f w.graph) r) {pending : List (Nat × Nat)} {c : Option (World n)}
    (hc : w.after true pending r = some c) (hbad : ∀ G, UniqueHamCycle G → ¬ bad G)
    (hsub : ∀ e ∈ pending, e ∈ w.pending)
    (hprop : (¬ ∃ e ∈ es, w.graph.currentFixedGraph.Adj e.1 e.2) →
      ∀ c, IsHamCycle w.graph.currentFixedGraph.Adj (List.range n) c →
        ¬ SameCycle c (List.range n) → ∃ e ∈ pending, CycleEdge c e.1 e.2) :
    Inv Q ⟨c, st, sols⟩ := by
  refine hi.replace (fun w' hw' => ?_) fun G hG _ hagrees => hagrees.after hf hr hc (hbad G hG)
  rcases World.after_cases hf hr hc with ⟨-, rfl⟩ | ⟨hno, rfl⟩
  · exact absurd hw' (by simp)
  · obtain rfl := Option.some.inj hw'
    exact (hi.current w rfl).exclude hsub (hprop hno)

/-- A decision: a graph that is kept agrees with the value chosen, or with the other one. -/
theorem Inv.decided (hn : 3 ≤ n) {w w' : World n} {st : List (Decision n)} {sols : List (Graph n)}
    (hi : Inv Q ⟨some w, st, sols⟩) {e : Nat × Nat} {val : Bool} (he : e ∈ allVars n)
    (hu : w.graph.value e.1 e.2 = .UNDEFINED) (h : w.set e val = .ok w') :
    Inv Q ⟨some w', ⟨w, e, !val⟩ :: st, sols⟩ := by
  have hok := hi.current w rfl
  refine ⟨fun w₀ hw₀ => ?_, List.forall_mem_cons.mpr ⟨⟨hok, he, hu⟩, hi.stack⟩, hi.sound,
    fun G hG hQ => ?_⟩
  · obtain rfl := Option.some.inj hw₀
    exact hok.set hn he hu h
  · rcases hi.keeps G hG hQ with hsol | ⟨w₀, hw₀, hagrees⟩ | ⟨d, hd, hdG⟩
    · exact Or.inl hsol
    · obtain rfl := Option.some.inj hw₀
      by_cases hval : G.adj e.1 e.2 = val
      · exact Or.inr (Or.inl ⟨w', rfl, (World.agrees_set he hu h).mpr ⟨hagrees, hval⟩⟩)
      · refine Or.inr (Or.inr ⟨_, List.mem_cons_self, hagrees, ?_⟩)
        exact Bool.eq_not.mpr hval
    · exact Or.inr (Or.inr ⟨d, List.mem_cons_of_mem _ hd, hdG⟩)

/-- A graph that is accepted is one that is sought, and the only one the world agreed with. -/
theorem Inv.accepted {w : World n} {st : List (Decision n)} {sols : List (Graph n)}
    (hi : Inv Q ⟨some w, st, sols⟩) (hw : w.active = true) (hp : w.pending = [])
    (hdone : ∀ e ∈ allVars n, w.graph.value e.1 e.2 ≠ .UNDEFINED)
    (hQ : Q w.graph.currentFixedGraph) :
    Inv Q ⟨none, st, w.graph.currentFixedGraph :: sols⟩ := by
  have hok := hi.current w rfl
  have hunique : UniqueHamCycle w.graph.currentFixedGraph := by
    -- nothing is pending, so no second cycle is left
    refine ⟨hok.cycle, fun c hc => ?_⟩
    by_contra hs
    obtain ⟨e, he, -⟩ := hok.propagated hw c hc hs
    rw [hp] at he
    exact absurd he (by simp)
  refine ⟨fun w' hw' => absurd hw' (by simp), hi.stack,
    List.forall_mem_cons.mpr ⟨⟨hunique, hQ⟩, hi.sound⟩, fun G hG hQ => ?_⟩
  rcases hi.keeps G hG hQ with hsol | ⟨w₀, hw₀, hagrees⟩ | hst
  · exact Or.inl (List.mem_cons_of_mem _ hsol)
  · obtain rfl := Option.some.inj hw₀
    rw [hagrees.eq_of_complete hdone]
    exact Or.inl List.mem_cons_self
  · exact Or.inr (Or.inr hst)

/-- Going back to the other value of the last decision. -/
theorem Inv.backtracked (hn : 3 ≤ n) {w' : World n} {d : Decision n} {st : List (Decision n)}
    {sols : List (Graph n)} (hi : Inv Q ⟨none, d :: st, sols⟩)
    (h : d.world.set d.edge d.value = .ok w') : Inv Q ⟨some w', st, sols⟩ := by
  obtain ⟨⟨hok, he, hu⟩, hst⟩ := List.forall_mem_cons.mp hi.stack
  refine ⟨fun w₀ hw₀ => ?_, hst, hi.sound, fun G hG hQ => ?_⟩
  · obtain rfl := Option.some.inj hw₀
    exact hok.set hn he hu h
  · rcases hi.keeps G hG hQ with hsol | ⟨w₀, hw₀, -⟩ | ⟨d', hd', hdG⟩
    · exact Or.inl hsol
    · exact absurd hw₀ (by simp)
    · rcases List.mem_cons.mp hd' with rfl | hd'
      · exact Or.inr (Or.inl ⟨w', rfl, (World.agrees_set he hu h).mpr hdG⟩)
      · exact Or.inr (Or.inr ⟨d', hd', hdG⟩)

/-- **Every step keeps the invariant.** -/
theorem step_inv (hn : 3 ≤ n) {s s' : SearchState n} (h : Step P Q s s') (hi : Inv Q s) :
    Inv Q s' := by
  cases h with
  | @activate w st sols r c nb hw hr hc =>
    obtain ⟨es, hes, hclose⟩ := P.propagateAll_spec nb hn (hi.current w rfl).cycle
    refine hi.after hes hr hc (fun G hG => ((uniqueHamCycle_iff hn).mp hG).2) (by simp)
      fun hno c hc hs => ?_
    exact absurd (hclose ((secondCycle_iff hn).mpr ⟨c, hc, hs⟩)) hno
  | @propagate w st sols r c nb vIdx x y hw hv hval hchord hr hc =>
    have hok := hi.current w rfl
    obtain ⟨hlt, hy⟩ := Matrix.mem_upperPairs.mp (List.mem_of_getElem? hv)
    have hxy := (isChord_iff hn hlt hy).mpr hchord
    obtain ⟨es, hes, hclose⟩ :=
      P.propagate_spec nb hok.cycle hxy ((w.graph.fixed_iff x y).mpr hval) hv
    refine hi.after hes hr hc
      (fun G hG hbad => ((uniqueHamCycle_iff hn).mp hG).2 ⟨x, y, hxy, hbad⟩)
      (fun e he => (List.mem_filter.mp he).1) fun hno c hc hs => ?_
    obtain ⟨e, he, hce⟩ := hok.propagated hw c hc hs
    -- the cycle does not pass through the chord just propagated
    have hne : e ≠ (x, y) := by
      rintro rfl
      exact hno (hclose ⟨c, hc, hce⟩)
    exact ⟨e, List.mem_filter.mpr ⟨he, by simpa using hne⟩, hce⟩
  | decide e val he hu h => exact hi.decided hn he hu h
  | @infer w w' st sols e val he hu hQ h =>
    refine hi.replace (fun w₀ hw₀ => ?_) fun G _ hG hagrees =>
      ⟨w', rfl, (World.agrees_set he hu h).mpr ⟨hagrees, hQ G hagrees hG⟩⟩
    obtain rfl := Option.some.inj hw₀
    exact (hi.current w rfl).set hn he hu h
  | @fail w st sols hQ =>
    exact hi.replace (fun w' hw' => absurd hw' (by simp)) fun G _ hG hagrees =>
      absurd hG (hQ G hagrees)
  | accept hw hp hdone hQ => exact hi.accepted hw hp hdone hQ
  | backtrack d h => exact hi.backtracked hn h

/-- **Every run keeps the invariant.** -/
theorem run_inv (hn : 3 ≤ n) {s s' : SearchState n} (h : Run P Q s s') (hi : Inv Q s) :
    Inv Q s' := by
  induction h with
  | refl => exact hi
  | tail _ hstep ih => exact step_inv hn hstep ih

/-- Before the first step. -/
theorem inv_start {C : Graph n} (hC : ∀ G : Graph n, C.Sub G ↔ G.ContainsCycle) :
    Inv Q (SearchState.start (.ofGraph C)) where
  current w hw := by
    obtain rfl := Option.some.inj hw
    exact ⟨(hC C).mp (Graph.Sub.refl C), by simp, fun h => absurd h (by simp)⟩
  stack d hd := absurd hd (by simp [SearchState.start])
  sound G hG := absurd hG (by simp [SearchState.start])
  keeps G hG _ := Or.inr (Or.inl ⟨_, rfl, agrees_ofGraph.mpr ((hC G).mpr hG.1)⟩)

/-! ## The search can finish -/

/-- The undecided pairs. -/
def undecided (g : UnknownGraph n) : List (Nat × Nat) :=
  (allVars n).filter fun e => decide (g.value e.1 e.2 = .UNDEFINED)

theorem mem_undecided {g : UnknownGraph n} {e : Nat × Nat} :
    e ∈ undecided g ↔ e ∈ allVars n ∧ g.value e.1 e.2 = .UNDEFINED := by
  unfold undecided
  rw [List.mem_filter, decide_eq_true_iff]

theorem nodup_undecided (g : UnknownGraph n) : (undecided g).Nodup :=
  (Matrix.nodup_pairs .upperTriangleRows n).filter _

theorem length_undecided_exclude (g : UnknownGraph n) (es : List (Sym2 Nat)) :
    (undecided (g.exclude es)).length ≤ (undecided g).length := by
  refine (List.subperm_of_subset (nodup_undecided _) fun e he => ?_).length_le
  obtain ⟨h1, h2⟩ := mem_undecided.mp he
  refine mem_undecided.mpr ⟨h1, ?_⟩
  by_contra hne
  unfold UnknownGraph.exclude at h2
  simp only [hne, and_false, if_false] at h2

/-- Deciding a pair leaves fewer. -/
theorem length_undecided_assign {g : UnknownGraph n} {e : Nat × Nat} (val : Bool)
    (he : e ∈ allVars n) (hu : g.value e.1 e.2 = .UNDEFINED) :
    (undecided (g.assign e.1 e.2 (bounds_of_mem he) hu val)).length < (undecided g).length := by
  have hself : ∀ p ∈ undecided (g.assign e.1 e.2 (bounds_of_mem he) hu val),
      s(p.1, p.2) ≠ s(e.1, e.2) := fun p hp hs => by
    have := (mem_undecided.mp hp).2
    rw [g.value_assign, if_pos hs] at this
    cases val <;> exact absurd this (by decide)
  refine (List.subperm_of_subset (List.nodup_cons.mpr ⟨fun hm => hself e hm rfl, nodup_undecided _⟩)
    fun p hp => ?_).length_le
  rcases List.mem_cons.mp hp with rfl | hp
  · exact mem_undecided.mpr ⟨he, hu⟩
  · obtain ⟨h1, h2⟩ := mem_undecided.mp hp
    rw [g.value_assign, if_neg (hself p hp)] at h2
    exact mem_undecided.mpr ⟨h1, h2⟩

theorem World.length_undecided_set {w w' : World n} {e : Nat × Nat} {val : Bool}
    (he : e ∈ allVars n) (hu : w.graph.value e.1 e.2 = .UNDEFINED) (h : w.set e val = .ok w') :
    (undecided w'.graph).length < (undecided w.graph).length := by
  rw [w.set_eq he hu] at h
  rw [← Except.ok.inj h]
  exact length_undecided_assign _ he hu

/-- A propagator comes back with a world or a failure. -/
theorem World.exists_after {w : World n} {bad : Graph n → Prop} {es : List (Nat × Nat)}
    {f : UnknownGraph n → Nat → Except (Halt Exn) (UnknownGraph n)}
    (hf : Forces w.graph.currentFixedGraph bad f es) (active : Bool) (pending : List (Nat × Nat)) :
    ∃ r c, Converges (f w.graph) r ∧ w.after active pending r = some c := by
  have hrun := hf.2 w.graph rfl
  rw [forceAll_of_forced hf.1] at hrun
  by_cases h : ∃ e ∈ es, w.graph.hasEdge e.1 e.2 = true
  · rw [if_pos h] at hrun
    exact ⟨_, none, hrun, rfl⟩
  · rw [if_neg h] at hrun
    exact ⟨_, _, hrun, rfl⟩

/-- From the world the search can come to the end of what is below it. -/
def Closes (P : Propagator) (Q : Graph n → Prop) (w : World n) : Prop :=
  ∀ st sols, Inv Q ⟨some w, st, sols⟩ → ∃ sols', Run P Q ⟨some w, st, sols⟩ ⟨none, st, sols'⟩

/-- The world is ready for a decision: decide a pair, or accept or fail when there is none left. -/
theorem closes_of_ready (hn : 3 ≤ n) {w : World n} (hw : w.active = true) (hp : w.pending = [])
    (ih : ∀ w' : World n, (undecided w'.graph).length < (undecided w.graph).length →
      Closes P Q w') :
    Closes P Q w := by
  intro st sols hi
  by_cases hall : ∃ e ∈ allVars n, w.graph.value e.1 e.2 = .UNDEFINED
  · obtain ⟨e, he, hu⟩ := hall
    have h₁ : Step P Q ⟨some w, st, sols⟩ _ := Step.decide e true he hu (w.set_eq he hu true)
    obtain ⟨sols₁, hrun₁⟩ := ih _ (w.length_undecided_set he hu (w.set_eq he hu true)) _ _
      (step_inv hn h₁ hi)
    have h₂ : Step P Q ⟨none, ⟨w, e, false⟩ :: st, sols₁⟩ _ :=
      Step.backtrack ⟨w, e, false⟩ (w.set_eq he hu false)
    obtain ⟨sols₂, hrun₂⟩ := ih _ (w.length_undecided_set he hu (w.set_eq he hu false)) _ _
      (step_inv hn h₂ (run_inv hn ((Relation.ReflTransGen.single h₁).trans hrun₁) hi))
    exact ⟨sols₂, ((Relation.ReflTransGen.single h₁).trans hrun₁).trans
      ((Relation.ReflTransGen.single h₂).trans hrun₂)⟩
  · have hdone : ∀ e ∈ allVars n, w.graph.value e.1 e.2 ≠ .UNDEFINED :=
      fun e he hu => hall ⟨e, he, hu⟩
    by_cases hQ : Q w.graph.currentFixedGraph
    · exact ⟨_, Relation.ReflTransGen.single (Step.accept hw hp hdone hQ)⟩
    · refine ⟨_, Relation.ReflTransGen.single (Step.fail fun G hG => ?_)⟩
      rwa [hG.eq_of_complete hdone]

/-- First the pending chords are propagated. -/
theorem closes_of_active (hn : 3 ≤ n) {u : Nat}
    (ih : ∀ w' : World n, (undecided w'.graph).length < u → Closes P Q w') :
    ∀ (k : Nat) (w : World n), w.pending.length ≤ k → (undecided w.graph).length ≤ u →
      w.active = true → Closes P Q w
  | k, w, hk, hu, hw => by
    cases hp : w.pending with
    | nil => exact closes_of_ready hn hw hp fun w' hw' => ih w' (by omega)
    | cons e es =>
      obtain ⟨k, rfl⟩ : ∃ j, k = j + 1 := by
        rw [hp, List.length_cons] at hk
        exact ⟨k - 1, by omega⟩
      intro st sols hi
      have hok := hi.current w rfl
      obtain ⟨he, hval, hchord⟩ := hok.chord e (by rw [hp]; exact List.mem_cons_self)
      obtain ⟨vIdx, hv⟩ := List.getElem?_of_mem he
      obtain ⟨hlt, hy⟩ := Matrix.mem_upperPairs.mp he
      let nb := Listing.sorted w.graph.currentFixedGraph
      obtain ⟨fs, hfs, -⟩ := P.propagate_spec nb hok.cycle ((isChord_iff hn hlt hy).mpr hchord)
        ((w.graph.fixed_iff e.1 e.2).mpr hval) hv
      obtain ⟨r, c, hr, hc⟩ := w.exists_after hfs true (w.pending.filter (· ≠ e))
      have hstep : Step P Q ⟨some w, st, sols⟩ ⟨c, st, sols⟩ :=
        Step.propagate nb vIdx e.1 e.2 hw hv hval hchord hr hc
      rcases World.after_cases hfs hr hc with ⟨-, rfl⟩ | ⟨-, rfl⟩
      · exact ⟨sols, Relation.ReflTransGen.single hstep⟩
      · have hless : (w.pending.filter (· ≠ e)).length ≤ k := by
          have := List.length_filter_le (fun p => decide (p ≠ e)) es
          rw [hp, List.filter_cons_of_neg (by simp)]
          rw [hp, List.length_cons] at hk
          omega
        obtain ⟨sols', hrun⟩ := closes_of_active hn ih k
          ⟨w.graph.exclude (fs.map fun e => s(e.1, e.2)), true, w.pending.filter (· ≠ e)⟩ hless
          ((length_undecided_exclude _ _).trans hu) rfl st sols (step_inv hn hstep hi)
        exact ⟨sols', (Relation.ReflTransGen.single hstep).trans hrun⟩

/-- **The search below a world can come to its end.** -/
theorem closes (hn : 3 ≤ n) (w : World n) : Closes P Q w := by
  induction hu : (undecided w.graph).length using Nat.strong_induction_on generalizing w with
  | _ u ih =>
    have ih' : ∀ w' : World n, (undecided w'.graph).length < u → Closes P Q w' :=
      fun w' hw' => ih _ hw' w' rfl
    by_cases hw : w.active = true
    · exact closes_of_active hn ih' _ w le_rfl (by omega) hw
    · intro st sols hi
      rw [Bool.not_eq_true] at hw
      let nb := Listing.sorted w.graph.currentFixedGraph
      obtain ⟨fs, hfs, -⟩ := P.propagateAll_spec nb hn (hi.current w rfl).cycle
      obtain ⟨r, c, hr, hc⟩ := w.exists_after hfs true []
      have hstep : Step P Q ⟨some w, st, sols⟩ ⟨c, st, sols⟩ := Step.activate nb hw hr hc
      rcases World.after_cases hfs hr hc with ⟨-, rfl⟩ | ⟨-, rfl⟩
      · exact ⟨sols, Relation.ReflTransGen.single hstep⟩
      · obtain ⟨sols', hrun⟩ := closes_of_active hn ih' 0
          ⟨w.graph.exclude (fs.map fun e => s(e.1, e.2)), true, []⟩ le_rfl
          (by rw [← hu]; exact length_undecided_exclude _ _) rfl st sols (step_inv hn hstep hi)
        exact ⟨sols', (Relation.ReflTransGen.single hstep).trans hrun⟩

/-- **From every state the search can finish.** -/
theorem run_finishes (hn : 3 ≤ n) {s : SearchState n} (hi : Inv Q s) :
    ∃ s', Run P Q s s' ∧ s'.Finished := by
  have below : ∀ (st : List (Decision n)) (sols : List (Graph n)), Inv Q ⟨none, st, sols⟩ →
      ∃ s', Run P Q ⟨none, st, sols⟩ s' ∧ s'.Finished := by
    intro st
    induction st with
    | nil => exact fun sols _ => ⟨_, Relation.ReflTransGen.refl, rfl, rfl⟩
    | cons d st ih =>
      intro sols hi
      obtain ⟨-, he, hu⟩ := (List.forall_mem_cons.mp hi.stack).1
      have hstep : Step P Q ⟨none, d :: st, sols⟩ _ :=
        Step.backtrack d (d.world.set_eq he hu d.value)
      have hi' := step_inv hn hstep hi
      obtain ⟨sols', hrun⟩ := closes (P := P) hn _ st sols hi'
      obtain ⟨s', hrun', hfin⟩ := ih sols' (run_inv hn hrun hi')
      exact ⟨s', ((Relation.ReflTransGen.single hstep).trans hrun).trans hrun', hfin⟩
  obtain ⟨c, st, sols⟩ := s
  cases c with
  | none => exact below st sols hi
  | some w =>
    obtain ⟨sols', hrun⟩ := closes (P := P) hn w st sols hi
    obtain ⟨s', hrun', hfin⟩ := below st sols' (run_inv hn hrun hi)
    exact ⟨s', hrun.trans hrun', hfin⟩

end Steps

/-! ## The search is exact -/

/-- **The search is exact.** Whatever the solver does and in whatever order: no graph that is
searched for is lost, none with a second Hamiltonian cycle is accepted, the search can always
finish, and a finished one has accepted exactly the uniquely Hamiltonian graphs with `Q`. -/
theorem search_exact (hn : 3 ≤ n) (P : Propagator) (Q : Graph n → Prop) :
    ∃ g, fixHamCycle n = .ok g ∧ ∀ s, Run P Q (.start g) s →
      (∀ G, UniqueHamCycle G → Q G → s.Keeps G) ∧
      (∀ G ∈ s.solutions, UniqueHamCycle G ∧ Q G) ∧
      (∃ s', Run P Q s s' ∧ s'.Finished) ∧
      (s.Finished → ∀ G, G ∈ s.solutions ↔ UniqueHamCycle G ∧ Q G) := by
  obtain ⟨C, hC, hsub⟩ := fixHamCycle_spec hn
  refine ⟨_, hC, fun s hs => ?_⟩
  have hi : Inv Q s := run_inv hn hs (inv_start hsub)
  refine ⟨hi.keeps, hi.sound, run_finishes hn hi, fun ⟨h1, h2⟩ G => ⟨hi.sound G, fun hG => ?_⟩⟩
  rcases hi.keeps G hG.1 hG.2 with h | ⟨w, hw, -⟩ | ⟨d, hd, -⟩
  · exact h
  · rw [h1] at hw
    exact absurd hw (by simp)
  · rw [h2] at hd
    exact absurd hd (by simp)

/-- **`UHGSearch(n)` without optional constraints** accepts exactly the graphs that contain the
cycle `0, 1, …, n - 1` and have no other Hamiltonian cycle. -/
theorem uhgSearch_exact (hn : 3 ≤ n) (P : Propagator) :
    ∃ g, fixHamCycle n = .ok g ∧ ∀ s, Run P (fun _ => True) (.start g) s →
      (∀ G, UniqueHamCycle G → s.Keeps G) ∧
      (∀ G ∈ s.solutions, UniqueHamCycle G) ∧
      (∃ s', Run P (fun _ => True) s s' ∧ s'.Finished) ∧
      (s.Finished → ∀ G, G ∈ s.solutions ↔ UniqueHamCycle G) := by
  obtain ⟨g, hg, h⟩ := search_exact hn P fun _ => True
  refine ⟨g, hg, fun s hs => ?_⟩
  obtain ⟨h1, h2, h3, h4⟩ := h s hs
  exact ⟨fun G hG => h1 G hG trivial, fun G hG => (h2 G hG).1, h3,
    fun hf G => (h4 hf G).trans (and_iff_left trivial)⟩

/-- Some run for three vertices finishes, and has then accepted exactly those graphs. -/
theorem uhgSearch_exact_three : ∃ (g : UnknownGraph 3) (s : SearchState 3), fixHamCycle 3 = .ok g ∧
    Run .PropOptimized (fun _ => True) (.start g) s ∧ s.Finished ∧
      ∀ G, G ∈ s.solutions ↔ UniqueHamCycle G := by
  obtain ⟨g, hg, h⟩ := uhgSearch_exact (n := 3) (by decide) .PropOptimized
  obtain ⟨-, -, ⟨s, hrun, hfin⟩, -⟩ := h _ Relation.ReflTransGen.refl
  exact ⟨g, s, hg, hrun, hfin, (h s hrun).2.2.2 hfin⟩

end SymBreak.Uhg
