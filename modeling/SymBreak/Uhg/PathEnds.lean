import SymBreak.Uhg.UHGSearch

/-!
# The ends that `PropNoHamCycleWithEdge` decides

`PropNoHamCycleWithEdge.propagate` (`PropNoHamCycleWithEdge.java:45-150`) is meant to fix the pair
of ends of every Hamiltonian path through the chord to be none, with a search from every start
vertex. Its depth is set to `0` once, in front of the loop over the start vertices, and is `-1`
after the first of them, so only the paths from the vertex `0` are found.

Results:
* `mem_zeroPaths`: the search goes through the Hamiltonian paths from `0` that go from one end of
  the chord straight to the other;
* `propagate_forces`, `mem_fixed`: the pairs fixed are those of the rules and the ends of these;
* **`endsDecided_iff`**: so the ends of all paths are decided iff the remaining ones were.
-/

namespace SymBreak

open Hamilton Backtrack PathSearch

namespace Graph

variable {n : Nat}

/-- A Hamiltonian path from `a` to `b` uses the edge `{x, y}`. -/
def JoinedThrough (G : Graph n) (x y a b : Nat) : Prop :=
  ∃ l, IsHamPath G.Adj (List.range n) l ∧ l.getD 0 0 = a ∧ l.getD (n - 1) 0 = b ∧
    ∃ p q, l = p ++ x :: y :: q ∨ l = p ++ y :: x :: q

/-- A Hamiltonian path from the vertex `0`, with `y` right after `x`, has these ends. -/
def JoinedFromZero (G : Graph n) (x y a b : Nat) : Prop :=
  ∃ l, IsHamPath G.Adj (List.range n) l ∧ l.getD 0 0 = 0 ∧ s(a, b) = s(0, l.getD (n - 1) 0) ∧
    ∃ p q, l = p ++ x :: y :: q

end Graph

namespace Uhg

open Graph

variable {n : Nat} {F : Graph n} {x y a b : Nat}

/-- One of the three rules fixes the pair. -/
def RuleForces (F : Graph n) (x y a b : Nat) : Prop :=
  ∃ c ∈ rulesCalls F x y, s(a, b) = s(c.edge.1, c.edge.2)

/-- Excluding edges makes the undecided ones among them false. -/
theorem UnknownGraph.value_exclude_eq_false (g : UnknownGraph n) {es : List (Sym2 Nat)}
    (h : g.value a b ≠ .TRUE) :
    (g.exclude es).value a b = .FALSE ↔ g.value a b = .FALSE ∨ s(a, b) ∈ es := by
  simp only [exclude]
  cases hv : g.value a b with
  | TRUE => exact absurd hv h
  | FALSE => simp
  | UNDEFINED => by_cases hmem : s(a, b) ∈ es <;> simp [hmem]

/-- The ends of the Hamiltonian paths through the edge are decided. -/
def EndsDecided (g : UnknownGraph n) (x y : Nat) : Prop :=
  ∀ a b, g.currentFixedGraph.JoinedThrough x y a b → g.value a b = .FALSE

section Paths

variable (nb : Listing F)

/-- The paths that the search goes through. -/
def zeroPaths (nb : Nat → List Nat) (n x y : Nat) : List (List Nat) :=
  enum (edgeRest nb n x y · 0) (n - 1) [0]

theorem mem_zeroPaths (hn : 2 ≤ n) (hxy : F.Adj x y) {l : List Nat} :
    l ∈ zeroPaths nb.neighborsOf n x y ↔
      IsHamPath F.Adj (List.range n) l ∧ l.getD 0 0 = 0 ∧ ∃ p q, l = p ++ x :: y :: q := by
  have hlen : [0].length + (n - 1) = (List.range n).length := by
    rw [List.length_singleton, List.length_range]
    omega
  constructor
  · intro hl
    obtain ⟨hham, hoff⟩ := hamPath_of_mem_enum (offersNeighbors nb hxy) (by simp)
      (List.nodup_singleton 0) (by simp; omega) hlen hl
    obtain ⟨t, ht⟩ := List.reverse_prefix.mpr (suffix_of_mem_enum hl)
    rw [List.reverse_reverse] at ht
    refine ⟨hham, by rw [← ht]; rfl, ?_⟩
    exact consecutive nb (F.ne_of_adj hxy) (F.bound x y hxy) (F.lt_right hxy) hham hoff
  · rintro ⟨hham, hzero, p, q, hpq⟩
    have hne : l ≠ [] := by
      rintro rfl
      simp at hpq
    obtain ⟨v, t, rfl⟩ := List.exists_cons_of_ne_nil hne
    obtain rfl : v = 0 := hzero
    change [0].reverse ++ t ∈ enum (edgeRest nb.neighborsOf n x y · 0) (n - 1) [0]
    refine mem_enum_of_hamPath hlen hham fun r u l' he hle => ?_
    obtain ⟨v, r, rfl⟩ := List.exists_cons_of_length_pos (l := r) hle
    exact next_offered nb hxy (he ▸ hham) (hpq.symm.trans he)

/-- **What `propagate` fixes**: the pairs of the rules, and the ends of the paths from `0`. -/
theorem propagate_forces (hF : F.ContainsCycle) (hc : IsChord n x y) (hxy : F.Adj x y)
    {vIdx : Nat} (hv : (allVars n)[vIdx]? = some (x, y)) :
    Forces F (·.HamCycleThrough x y)
      (Propagator.propagate .PropNoHamCycleWithEdge nb.neighborsOf vIdx)
      ((rulesCalls F x y).map Call.edge ++
        (zeroPaths nb.neighborsOf n x y).map fun l => (l.getD 0 0, l.getD (n - 1) 0)) := by
  have ⟨h1, h2, h3⟩ := hc
  refine Propagator.propagate_forces _ nb hF hc hxy hv (forces_of_paths (by omega) (fun l hl => ?_)
    fun g => PropNoHamCycleWithEdge.search_converges nb forceNotCycle (by omega) g)
  obtain ⟨hham, -, hpq⟩ := (mem_zeroPaths nb (by omega) hxy).mp hl
  exact ⟨hham, hpq⟩

theorem mem_fixed (hn : 2 ≤ n) (hxy : F.Adj x y) :
    s(a, b) ∈ ((rulesCalls F x y).map Call.edge ++
        (zeroPaths nb.neighborsOf n x y).map fun l => (l.getD 0 0, l.getD (n - 1) 0)).map
          (fun e => s(e.1, e.2)) ↔
      RuleForces F x y a b ∨ F.JoinedFromZero x y a b := by
  rw [List.map_append, List.mem_append]
  refine or_congr ?_ ?_
  · simp only [List.map_map, List.mem_map, Function.comp_apply, RuleForces, eq_comm]
  · simp only [List.map_map, List.mem_map, Function.comp_apply, mem_zeroPaths nb hn hxy]
    constructor
    · rintro ⟨l, ⟨hham, hzero, hpq⟩, he⟩
      exact ⟨l, hham, hzero, by rw [← he, hzero], hpq⟩
    · rintro ⟨l, hham, hzero, he, hpq⟩
      exact ⟨l, ⟨hham, hzero, hpq⟩, by rw [he, hzero]⟩

end Paths

/-- Adjacent ends close the path to a cycle through the edge. -/
theorem hamCycleThrough_of_joined (hn : 2 ≤ n) (h : F.JoinedThrough x y a b) (hab : F.Adj a b) :
    F.HamCycleThrough x y := by
  obtain ⟨l, hham, rfl, rfl, p, q, hpq | hpq⟩ := h
  · exact (forced_of_path hn hham hpq).through F (Graph.Sub.refl F) hab
  · obtain ⟨c, hcyc, hedge⟩ := (forced_of_path hn hham hpq).through F (Graph.Sub.refl F) hab
    exact ⟨c, hcyc, hedge.symm⟩

/-- The cycle on five vertices with the chord `{0, 2}`. -/
def chordGraph : Graph 5 := ofEdges 5 [s(0, 1), s(1, 2), s(2, 3), s(3, 4), s(0, 4), s(0, 2)]

theorem containsCycle_chordGraph : chordGraph.ContainsCycle :=
  show ∀ i < 5, chordGraph.adj i ((i + 1) % 5) = true by decide

/-- **The ends of the Hamiltonian paths through the chord are decided** after `propagate` without a
contradiction iff each pair of ends was, or is fixed by a rule, or belongs to a path from `0` that
goes straight from `x` to `y`. -/
theorem endsDecided_iff (hn : 4 ≤ n) (g : UnknownGraph n) (nb : Listing g.currentFixedGraph)
    (hcycle : g.currentFixedGraph.ContainsCycle) {vIdx : Nat}
    (hv : (allVars n)[vIdx]? = some (x, y)) (hchord : Utils.cycleDist x y n ≠ 1)
    (hxy : g.value x y = .TRUE) :
    (∃ r, Converges
        (Propagator.propagate .PropNoHamCycleWithEdge nb.neighborsOf vIdx g) r ∧
      ∀ g', r = .ok g' → EndsDecided g' x y) ↔
    g.currentFixedGraph.HamCycleThrough x y ∨
      ∀ a b, g.currentFixedGraph.JoinedThrough x y a b → g.value a b = .FALSE ∨
        RuleForces g.currentFixedGraph x y a b ∨ g.currentFixedGraph.JoinedFromZero x y a b := by
  obtain ⟨hlt, hy⟩ := Matrix.mem_upperPairs.mp (List.mem_of_getElem? hv)
  have hadj : g.currentFixedGraph.Adj x y := (g.fixed_iff x y).mpr hxy
  have hforces := propagate_forces nb hcycle ((isChord_iff (by omega) hlt hy).mpr hchord) hadj hv
  obtain ⟨r, hr, hthrow, hok⟩ := propagate_contradiction_iff .PropNoHamCycleWithEdge hn g nb hcycle
    hv hchord hxy
  by_cases hcyc : g.currentFixedGraph.HamCycleThrough x y
  · refine iff_of_true ⟨r, hr, fun g' hg' => ?_⟩ (Or.inl hcyc)
    rw [hthrow.mpr hcyc] at hg'
    exact absurd hg' (by simp)
  · -- the graph after it: the pairs fixed are those of the rules and of the search
    obtain ⟨g', rfl⟩ := hok hcyc
    have hfix := hr.unique (hforces.2 g rfl)
    rw [forceAll_of_forced hforces.1] at hfix
    split at hfix
    · exact absurd hfix (by simp)
    rename_i hnone
    obtain rfl := Except.ok.inj hfix
    rw [or_iff_right hcyc]
    have hvalue : ∀ a b, g.currentFixedGraph.JoinedThrough x y a b →
        ((g.exclude _).value a b = .FALSE ↔ g.value a b = .FALSE ∨
          RuleForces g.currentFixedGraph x y a b ∨ g.currentFixedGraph.JoinedFromZero x y a b) :=
      fun a b hab => by
        rw [← mem_fixed nb (by omega) hadj]
        have hne : g.value a b ≠ .TRUE := fun h =>
          hcyc (hamCycleThrough_of_joined (by omega) hab ((g.fixed_iff a b).mpr h))
        exact g.value_exclude_eq_false hne
    constructor
    · rintro ⟨r', hr', hdec⟩ a b hab
      obtain rfl := hr'.unique hr
      exact (hvalue a b hab).mp (hdec _ rfl a b hab)
    · refine fun h => ⟨_, hr, fun g' hg' a b hab => ?_⟩
      obtain rfl := Except.ok.inj hg'
      exact (hvalue a b hab).mpr (h a b hab)

/-- On this graph. -/
theorem endsDecided_iff_chordGraph :
    (∃ r, Converges
        (Propagator.propagate .PropNoHamCycleWithEdge (Listing.sorted chordGraph).neighborsOf 1
          (.ofGraph chordGraph)) r ∧
      ∀ g', r = .ok g' → EndsDecided g' 0 2) ↔
    chordGraph.HamCycleThrough 0 2 ∨
      ∀ a b, chordGraph.JoinedThrough 0 2 a b →
        (UnknownGraph.ofGraph chordGraph).value a b = .FALSE ∨
          RuleForces chordGraph 0 2 a b ∨ chordGraph.JoinedFromZero 0 2 a b :=
  endsDecided_iff (by decide) (.ofGraph chordGraph) (Listing.sorted chordGraph)
    containsCycle_chordGraph (show (allVars 5)[1]? = some (0, 2) from rfl) (by decide) (by decide)

/-- The paths `1, 0, 2, 3, 4` and `1, 2, 0, 4, 3`: the ends of the first are not decided. -/
theorem not_endsDecided : ¬ ∃ r, Converges
    (Propagator.propagate .PropNoHamCycleWithEdge (Listing.sorted chordGraph).neighborsOf 1
      (.ofGraph chordGraph)) r ∧ ∀ g', r = .ok g' → EndsDecided g' 0 2 := by
  rintro ⟨r, hr, hdec⟩
  have hforces := propagate_forces (Listing.sorted chordGraph) containsCycle_chordGraph
    (show IsChord 5 0 2 from ⟨by decide, by decide, by decide⟩)
    (show chordGraph.adj 0 2 = true by decide) (show (allVars 5)[1]? = some (0, 2) from rfl)
  obtain rfl := hr.unique (hforces.2 (.ofGraph chordGraph) rfl)
  rw [forceAll_of_forced hforces.1, if_neg (by decide)] at hdec
  have hchain : [1, 0, 2, 3, 4].IsChain fun a b => chordGraph.adj a b = true := by decide
  have h14 := hdec _ rfl 1 4
    ⟨[1, 0, 2, 3, 4], ⟨by decide, hchain⟩, rfl, rfl, [1], [3, 4], Or.inl rfl⟩
  exact absurd h14 (by decide)

end Uhg

end SymBreak
