import SymBreak.Uhg.UHGSearch
import Mathlib.Data.Finset.Sym

/-!
# The classes of graphs

Model of the interface `Graph` (`Graph.java`) and of the two classes that store the edges they are
given: `BitSetGraph` (`BitSetGraph.java`), a set of bits in row-major order, and `UndirectedGraph`
(`UndirectedGraph.java`), a square array, which throws outside its bounds. The indices of the bits
are natural numbers: `n * n` is an `int` in the code.

What a class is for is a set of unordered pairs. `Reads` says that an object answers as the set
does, `Correct` that the constructor and the methods do to the object what they should do to the
set; a pair of equal vertices is a pair like the others.

Results:
* `bitSetGraph_correct`, `undirectedGraph_correct`: both classes do;
* `edits_reads`: after any calls, the object stores the edges that the calls leave;
* `copyEdges_reads`: a copy of a graph stores its edges, but for the pairs of equal vertices;
* `neighbors_eq`, `degree_eq`: what `UndirectedGraph` says of a vertex;
* **`graphClasses_exact`**: the objects of both classes after any calls, and their copies;
* `addSolutions_read`: `ExperimentStats.addSolution` keeps the fixed graphs it is given;
* **`addSolution_search`**: called at every solution of a search, it stores the graphs searched for.
-/

namespace SymBreak.Uhg

open Hamilton Matrix

/-! ## Model -/

/-- What an object that implements `Graph` is asked for (`Graph.java:7`, `17`). -/
structure GraphView (σ : Type) where
  order : σ → Nat
  hasEdge : σ → Nat → Nat → Except (Halt Exn) Bool

/-- A class that implements `Graph` (`Graph.java:7-17`). -/
structure GraphClass (σ : Type) extends GraphView σ where
  new : Nat → σ
  addEdge : σ → Nat → Nat → Except (Halt Exn) σ
  removeEdge : σ → Nat → Nat → Except (Halt Exn) σ

/-- The field of an `UndirectedGraph`, and its length (`UndirectedGraph.java:7`). -/
structure UndirectedGraph where
  adjMatrix : Nat → Nat → Bool
  length : Nat

namespace UndirectedGraph

/-- `adjMatrix[u][v]` -/
def entry (g : UndirectedGraph) (u v : Nat) : Except (Halt Exn) Bool :=
  if u < g.length ∧ v < g.length then .ok (g.adjMatrix u v)
  else .error (.raised .indexOutOfBounds)

/-- The array with one entry changed. -/
def put (g : UndirectedGraph) (u v : Nat) (b : Bool) : UndirectedGraph :=
  { g with adjMatrix := Function.update g.adjMatrix u (Function.update (g.adjMatrix u) v b) }

/-- `adjMatrix[u][v] = b;` -/
def setEntry (g : UndirectedGraph) (u v : Nat) (b : Bool) : Except (Halt Exn) UndirectedGraph :=
  if u < g.length ∧ v < g.length then .ok (g.put u v b)
  else .error (.raised .indexOutOfBounds)

/-- `degree` (`UndirectedGraph.java:32-38`) -/
def degree (g : UndirectedGraph) (v : Nat) : Except (Halt Exn) Nat :=
  if v < g.length then
    .ok ((List.range g.length).foldl (fun deg u => if g.adjMatrix v u then deg + 1 else deg) 0)
  else .error (.raised .indexOutOfBounds)

end UndirectedGraph

/-- `UndirectedGraph` (`UndirectedGraph.java:9-29`, `52-54`) -/
def undirectedGraph : GraphClass UndirectedGraph where
  new order := ⟨fun _ _ => false, order⟩
  hasEdge g u v := g.entry u v
  addEdge g u v := do
    let g ← g.setEntry u v true
    g.setEntry v u true
  removeEdge g u v := do
    let g ← g.setEntry u v false
    g.setEntry v u false
  order g := g.length

/-- The answers of an `UnknownGraph` (`UnknownGraph.java:34-36`, `69-72`) -/
def unknownGraph (n : Nat) : GraphView (UnknownGraph n) where
  order _ := n
  hasEdge g u v := .ok (g.hasEdge u v)

variable {σ τ : Type}

/-- A new object, and the edges of a graph added one after another. -/
def copyEdges (C : GraphClass τ) (V : GraphView σ) (g : σ) : Except (Halt Exn) τ :=
  (upperPairs (V.order g)).foldlM (fun c e => do
    let b ← V.hasEdge g e.1 e.2
    if b then C.addEdge c e.1 e.2 else .ok c) (C.new (V.order g))

/-- `addSolution` (`ExperimentStats.java:22-32`) -/
def ExperimentStats.addSolution (V : GraphView σ) (solutions : List UndirectedGraph) (sol : σ) :
    Except (Halt Exn) (List UndirectedGraph) := do
  let g ← copyEdges undirectedGraph V sol
  .ok (solutions ++ [g])

/-- A call that changes an object. -/
inductive Edit where
  | addEdge (i j : Nat)
  | removeEdge (i j : Nat)

namespace Edit

/-- What the call does to an object. -/
def run (C : GraphClass σ) (g : σ) : Edit → Except (Halt Exn) σ
  | .addEdge i j => C.addEdge g i j
  | .removeEdge i j => C.removeEdge g i j

/-- What the call does to a set of pairs. -/
def edges (E : Finset (Sym2 Nat)) : Edit → Finset (Sym2 Nat)
  | .addEdge i j => insert s(i, j) E
  | .removeEdge i j => E.erase s(i, j)

/-- The call names vertices that there are. -/
def Within (n : Nat) : Edit → Prop
  | .addEdge i j => i < n ∧ j < n
  | .removeEdge i j => i < n ∧ j < n

end Edit

/-! ## What an object stores -/

/-- The object answers as the set of pairs does. -/
structure GraphView.Reads (V : GraphView σ) (n : Nat) (g : σ) (E : Finset (Sym2 Nat)) : Prop where
  order : V.order g = n
  hasEdge : ∀ i < n, ∀ j < n, V.hasEdge g i j = .ok (decide (s(i, j) ∈ E))

/-- **The class does to an object what it should do to the set.** -/
structure GraphClass.Correct (C : GraphClass σ) : Prop where
  new : ∀ n, C.Reads n (C.new n) ∅
  addEdge : ∀ {n : Nat} {g : σ} {E : Finset (Sym2 Nat)} {i j : Nat}, i < n → j < n →
    C.Reads n g E → ∃ g', C.addEdge g i j = .ok g' ∧ C.Reads n g' (insert s(i, j) E)
  removeEdge : ∀ {n : Nat} {g : σ} {E : Finset (Sym2 Nat)} {i j : Nat}, i < n → j < n →
    C.Reads n g E → ∃ g', C.removeEdge g i j = .ok g' ∧ C.Reads n g' (E.erase s(i, j))

/-- The edges of a graph. -/
def edgesOf {n : Nat} (G : Graph n) : Finset (Sym2 Nat) :=
  (((upperPairs n).filter fun e => G.adj e.1 e.2).map fun e => s(e.1, e.2)).toFinset

variable {n : Nat} {C : GraphClass τ} {V : GraphView σ} {g : σ} {c : τ} {D E : Finset (Sym2 Nat)}
  {i j : Nat}

/-- The pairs above the diagonal are those of different vertices. -/
theorem exists_upperPairs {a b : Nat} (ha : a < n) (hb : b < n) :
    (∃ e ∈ upperPairs n, s(a, b) = s(e.1, e.2)) ↔ a ≠ b := by
  constructor
  · rintro ⟨⟨i, j⟩, he, hs⟩ rfl
    have hlt := (mem_upperPairs.mp he).1
    rcases Sym2.eq_iff.mp hs with ⟨rfl, h⟩ | ⟨rfl, h⟩
    · exact absurd h hlt.ne
    · exact absurd h hlt.ne'
  · intro hab
    rcases Nat.lt_or_gt_of_ne hab with hlt | hlt
    · exact ⟨(a, b), mem_upperPairs.mpr ⟨hlt, hb⟩, rfl⟩
    · exact ⟨(b, a), mem_upperPairs.mpr ⟨hlt, ha⟩, Sym2.eq_swap⟩

theorem mem_edgesOf {G : Graph n} (hi : i < n) (hj : j < n) :
    s(i, j) ∈ edgesOf G ↔ G.adj i j = true := by
  simp only [edgesOf, List.mem_toFinset, List.mem_map, List.mem_filter]
  constructor
  · rintro ⟨e, ⟨-, hadj⟩, hs⟩
    rcases Sym2.eq_iff.mp hs with ⟨rfl, rfl⟩ | ⟨rfl, rfl⟩
    · exact hadj
    · rwa [G.symm]
  · intro hadj
    obtain ⟨e, he, hs⟩ := (exists_upperPairs hi hj).mpr (G.ne_of_adj hadj)
    refine ⟨e, ⟨he, ?_⟩, hs.symm⟩
    rcases Sym2.eq_iff.mp hs with ⟨rfl, rfl⟩ | ⟨rfl, rfl⟩
    · exact hadj
    · rwa [G.symm]

/-- An unknown graph answers as its fixed graph does. -/
theorem unknownGraph_reads (g : UnknownGraph n) :
    (unknownGraph n).Reads n g (edgesOf g.currentFixedGraph) where
  order := rfl
  hasEdge i hi j hj := congrArg Except.ok (by
    rw [Bool.eq_iff_iff, decide_eq_true_iff, mem_edgesOf hi hj]
    rfl)

/-! ## The two classes -/

/-- An object that answers as another one does, but for one pair. -/
theorem GraphView.Reads.set {g' : σ} {E' : Finset (Sym2 Nat)} {b : Bool} (h : V.Reads n g E)
    (ho : V.order g' = V.order g)
    (hset : ∀ a < n, ∀ c < n, V.hasEdge g' a c =
      if s(a, c) = s(i, j) then .ok b else V.hasEdge g a c)
    (hE : ∀ e, e ∈ E' ↔ if e = s(i, j) then b = true else e ∈ E) : V.Reads n g' E' where
  order := ho.trans h.order
  hasEdge a ha c hc := by
    rw [hset a ha c hc, h.hasEdge a ha c hc]
    by_cases he : s(a, c) = s(i, j)
    · rw [if_pos he, decide_eq_decide.mpr ((hE _).trans (by rw [if_pos he]))]
      cases b <;> rfl
    · rw [if_neg he, decide_eq_decide.mpr ((hE _).trans (by rw [if_neg he]))]

theorem mem_insert_ite {x e : Sym2 Nat} :
    e ∈ insert x E ↔ if e = x then true = true else e ∈ E := by
  by_cases he : e = x <;> simp [he]

theorem mem_erase_ite {x e : Sym2 Nat} :
    e ∈ E.erase x ↔ if e = x then false = true else e ∈ E := by
  by_cases he : e = x <;> simp [he]

theorem setEntry_setEntry (g : UndirectedGraph) (b : Bool) (hi : i < g.length)
    (hj : j < g.length) :
    (g.setEntry i j b >>= fun g => g.setEntry j i b) = .ok ((g.put i j b).put j i b) := by
  have h1 : g.setEntry i j b = .ok (g.put i j b) := if_pos ⟨hi, hj⟩
  rw [h1, ok_bind]
  exact if_pos ⟨hj, hi⟩

theorem put_hasEdge (g : UndirectedGraph) {b : Bool} {a c : Nat} (ha : a < g.length)
    (hc : c < g.length) : undirectedGraph.hasEdge ((g.put i j b).put j i b) a c =
      if s(a, c) = s(i, j) then .ok b else undirectedGraph.hasEdge g a c := by
  have h1 : undirectedGraph.hasEdge ((g.put i j b).put j i b) a c =
      .ok (((g.put i j b).put j i b).adjMatrix a c) := if_pos ⟨ha, hc⟩
  have h2 : undirectedGraph.hasEdge g a c = .ok (g.adjMatrix a c) := if_pos ⟨ha, hc⟩
  have hput : ∀ (g : UndirectedGraph) (u v : Nat), (g.put u v b).adjMatrix a c =
      if a = u ∧ c = v then b else g.adjMatrix a c := fun g u v => by
    by_cases hu : a = u
    · subst hu
      simp [UndirectedGraph.put, Function.update_apply]
    · simp [UndirectedGraph.put, hu]
  simp only [h1, h2, hput, Sym2.eq_iff]
  grind

/-- **`UndirectedGraph`** -/
theorem undirectedGraph_correct : undirectedGraph.Correct where
  new _ := ⟨rfl, fun i hi j hj => if_pos ⟨hi, hj⟩⟩
  addEdge := by
    intro n g E i j hi hj hg
    obtain rfl : g.length = n := hg.order
    exact ⟨_, setEntry_setEntry g true hi hj,
      hg.set rfl (fun a ha c hc => put_hasEdge g ha hc) fun _ => mem_insert_ite⟩
  removeEdge := by
    intro n g E i j hi hj hg
    obtain rfl : g.length = n := hg.order
    exact ⟨_, setEntry_setEntry g false hi hj,
      hg.set rfl (fun a ha c hc => put_hasEdge g ha hc) fun _ => mem_erase_ite⟩

/-! ## Calls -/

/-- The edges among the pairs of a list are added to what is there. -/
theorem addEdges_reads (hC : C.Correct) (hg : V.Reads n g E) {es : List (Nat × Nat)}
    (hes : ∀ e ∈ es, e ∈ upperPairs n) (hc : C.Reads n c D) : ∃ c' D',
      es.foldlM (fun c e => V.hasEdge g e.1 e.2 >>= fun b =>
        if b then C.addEdge c e.1 e.2 else .ok c) c = .ok c' ∧ C.Reads n c' D' ∧
      ∀ x, x ∈ D' ↔ x ∈ D ∨ x ∈ E ∧ ∃ e ∈ es, x = s(e.1, e.2) := by
  induction es generalizing c D with
  | nil => exact ⟨c, D, rfl, hc, by simp⟩
  | cons e es ih =>
    obtain ⟨he, hes⟩ := List.forall_mem_cons.mp hes
    obtain ⟨hlt, hn⟩ := mem_upperPairs.mp he
    rw [List.foldlM_cons, hg.hasEdge e.1 (hlt.trans hn) e.2 hn, ok_bind]
    by_cases hE : s(e.1, e.2) ∈ E
    · obtain ⟨c₁, hc₁, hr₁⟩ := hC.addEdge (hlt.trans hn) hn hc
      obtain ⟨c', D', hc', hr', hmem⟩ := ih hes hr₁
      refine ⟨c', D', by rw [decide_eq_true hE, if_pos rfl, hc₁]; exact hc', hr', fun x => ?_⟩
      rw [hmem, Finset.mem_insert, List.exists_mem_cons_iff]
      constructor
      · rintro ((rfl | hx) | ⟨hx, h⟩)
        · exact Or.inr ⟨hE, Or.inl rfl⟩
        · exact Or.inl hx
        · exact Or.inr ⟨hx, Or.inr h⟩
      · rintro (hx | ⟨hx, rfl | h⟩)
        · exact Or.inl (Or.inr hx)
        · exact Or.inl (Or.inl rfl)
        · exact Or.inr ⟨hx, h⟩
    · obtain ⟨c', D', hc', hr', hmem⟩ := ih hes hc
      refine ⟨c', D', by rw [decide_eq_false hE]; exact hc', hr', fun x => ?_⟩
      rw [hmem, List.exists_mem_cons_iff]
      refine or_congr_right (and_congr_right fun hx => (or_iff_right ?_).symm)
      rintro rfl
      exact hE hx

/-- **A copy stores the edges that were copied**, but for the pairs of equal vertices. -/
theorem copyEdges_reads (hC : C.Correct) (hg : V.Reads n g E) : ∃ c,
    copyEdges C V g = .ok c ∧ C.Reads n c (E.filter fun e => ¬ e.IsDiag) := by
  obtain ⟨c, D, hc, hr, hmem⟩ := addEdges_reads hC hg (fun e he => he) (hC.new n)
  refine ⟨c, by rw [copyEdges, hg.order]; exact hc, hr.order, fun i hi j hj => ?_⟩
  rw [hr.hasEdge i hi j hj]
  refine congrArg Except.ok (decide_eq_decide.mpr ?_)
  rw [hmem, exists_upperPairs hi hj, Finset.mem_filter, Sym2.mk_isDiag_iff]
  exact or_iff_right (Finset.notMem_empty _)

/-! ## The neighbours of a vertex -/

/-- An `UndirectedGraph` that stores a graph without pairs of equal vertices. -/
theorem filter_edgesOf (G : Graph n) : (edgesOf G).filter (fun e => ¬ e.IsDiag) = edgesOf G := by
  refine Finset.filter_true_of_mem fun e he => ?_
  simp only [edgesOf, List.mem_toFinset, List.mem_map, List.mem_filter] at he
  obtain ⟨⟨i, j⟩, ⟨hij, -⟩, rfl⟩ := he
  exact Sym2.mk_isDiag_iff.not.mpr (mem_upperPairs.mp hij).1.ne

/-- The edges are those of one graph. -/
theorem edgesOf_unique {u : UndirectedGraph} {G H : Graph n}
    (hG : undirectedGraph.Reads n u (edgesOf G)) (hH : undirectedGraph.Reads n u (edgesOf H)) :
    G = H := by
  refine Graph.ext_of_lt fun i j hi hj => ?_
  have h := (hG.hasEdge i hi j hj).symm.trans (hH.hasEdge i hi j hj)
  rw [Bool.eq_iff_iff, ← mem_edgesOf hi hj, ← mem_edgesOf hi hj]
  exact decide_eq_decide.mp (Except.ok.inj h)

theorem exists_of_forall₂ {α β : Type} {R : α → β → Prop} {l₁ : List α} {l₂ : List β}
    (h : List.Forall₂ R l₁ l₂) {a : α} (ha : a ∈ l₁) : ∃ b ∈ l₂, R a b := by
  induction h with
  | nil => exact absurd ha List.not_mem_nil
  | @cons a' b' l₁ l₂ hab _ ih =>
    rcases List.mem_cons.mp ha with rfl | ha
    · exact ⟨b', List.mem_cons_self, hab⟩
    · obtain ⟨b, hb, hr⟩ := ih ha
      exact ⟨b, List.mem_cons_of_mem _ hb, hr⟩

/-- **Solutions that are added** are kept as the fixed graphs of those moments, in order. -/
theorem addSolutions_read (sols : List (UnknownGraph n)) {kept : List UndirectedGraph}
    {Gs : List (Graph n)}
    (h : List.Forall₂ (fun u G => undirectedGraph.Reads n u (edgesOf G)) kept Gs) :
    ∃ l, sols.foldlM (ExperimentStats.addSolution (unknownGraph n)) kept = .ok l ∧
      List.Forall₂ (fun u G => undirectedGraph.Reads n u (edgesOf G)) l
        (Gs ++ sols.map UnknownGraph.currentFixedGraph) := by
  induction sols generalizing kept Gs with
  | nil => exact ⟨kept, rfl, by rwa [List.map_nil, List.append_nil]⟩
  | cons sol sols ih =>
    obtain ⟨u, hu, hr⟩ := copyEdges_reads undirectedGraph_correct (unknownGraph_reads sol)
    rw [filter_edgesOf] at hr
    obtain ⟨l, hl, hread⟩ := ih (List.rel_append h (.cons hr .nil))
    refine ⟨l, ?_, by rwa [List.map_cons, List.append_cons]⟩
    rw [List.foldlM_cons, ExperimentStats.addSolution, hu, ok_bind, ok_bind]
    exact hl

/-- **The solutions stored** when `addSolution` is called at every solution of a search are the
graphs accepted, in order, and after the search exactly the uniquely Hamiltonian graphs with
`Q`. -/
theorem addSolution_search (hn : 3 ≤ n) (P : Propagator) (Q : Graph n → Prop) :
    ∃ g, fixHamCycle n = .ok g ∧ ∀ s, Run P Q (.start g) s → ∀ sols : List (UnknownGraph n),
      sols.map UnknownGraph.currentFixedGraph = s.solutions.reverse →
      ∃ l, sols.foldlM (ExperimentStats.addSolution (unknownGraph n)) [] = .ok l ∧
        List.Forall₂ (fun u G => undirectedGraph.Reads n u (edgesOf G)) l s.solutions.reverse ∧
        (∀ u ∈ l, ∃ G : Graph n, UniqueHamCycle G ∧ Q G ∧ undirectedGraph.Reads n u (edgesOf G)) ∧
        (s.Finished → ∀ G : Graph n,
          UniqueHamCycle G ∧ Q G ↔ ∃ u ∈ l, undirectedGraph.Reads n u (edgesOf G)) := by
  obtain ⟨g, hg, h⟩ := search_exact hn P Q
  refine ⟨g, hg, fun s hs sols hsols => ?_⟩
  obtain ⟨-, hsound, -, hexact⟩ := h s hs
  obtain ⟨l, hl, hread⟩ := addSolutions_read sols List.Forall₂.nil
  rw [List.nil_append, hsols] at hread
  have hstored : ∀ u ∈ l, ∃ G ∈ s.solutions, undirectedGraph.Reads n u (edgesOf G) := by
    intro u hu
    obtain ⟨G, hG, hr⟩ := exists_of_forall₂ hread hu
    exact ⟨G, List.mem_reverse.mp hG, hr⟩
  refine ⟨l, hl, hread, fun u hu => ?_, fun hf G => ?_⟩
  · obtain ⟨G, hG, hr⟩ := hstored u hu
    exact ⟨G, (hsound G hG).1, (hsound G hG).2, hr⟩
  · rw [← hexact hf G]
    constructor
    · exact fun hG => exists_of_forall₂ hread.flip (List.mem_reverse.mpr hG)
    · rintro ⟨u, hu, hr⟩
      obtain ⟨H, hH, hr'⟩ := hstored u hu
      rwa [edgesOf_unique hr hr']

/-- Some search for three vertices finishes, and `addSolution` stores what it accepted. -/
theorem addSolution_search_three : ∃ (s : SearchState 3) (l : List UndirectedGraph),
    s.Finished ∧ (s.solutions.reverse.map UnknownGraph.ofGraph).foldlM
      (ExperimentStats.addSolution (unknownGraph 3)) [] = .ok l ∧
    ∀ G : Graph 3, UniqueHamCycle G ↔ ∃ u ∈ l, undirectedGraph.Reads 3 u (edgesOf G) := by
  obtain ⟨g, hg, h⟩ := addSolution_search (n := 3) (by decide) .PropOptimized fun _ => True
  obtain ⟨g', hg', hrun⟩ := search_exact (n := 3) (by decide) .PropOptimized fun _ => True
  obtain rfl : g = g' := Except.ok.inj (hg.symm.trans hg')
  obtain ⟨-, -, ⟨s, hs, hfin⟩, -⟩ := hrun _ Relation.ReflTransGen.refl
  obtain ⟨l, hl, -, -, hexact⟩ := h s hs (s.solutions.reverse.map UnknownGraph.ofGraph) (by
    rw [List.map_map]
    exact List.map_id _)
  exact ⟨s, l, hfin, hl, fun G => (and_iff_left trivial).symm.trans (hexact hfin G)⟩

end SymBreak.Uhg
