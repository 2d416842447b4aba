import SymBreak.Uhg.UHGSearch

/-!
# The calls of the rules

What the three rules for chords (`PropOptimized.java:58-84`) fix, call by call. The loops of rules 2
and 3 compare a vertex reduced modulo `n` with one that is not, so how far they go depends on where
the chord lies; `rules_converges` lists the calls that they make until they end. Here it is shown
that every call is right on the least graph that can make it: the cycle `0, 1, …, n - 1`, the chord,
the edge that the rule has tested and the edge that it fixes to be none.

Results:
* `call_closes`: these edges make a second Hamiltonian cycle;
* **`rules_calls`**: the loops end, no call is for a pair of equal vertices, every call closes a
  second cycle, and none removes an edge of a uniquely Hamiltonian graph.
-/

namespace SymBreak.Uhg

open Hamilton Graph

variable {n : Nat}

/-! ## The least graph of a call -/

/-- The edges of the cycle, the chord `{x, y}` and the edges tested. -/
def Call.given (n x y : Nat) (c : Call) : List (Sym2 Nat) :=
  s(x, y) :: c.tested.map (fun e => s(e.1, e.2)) ++ cycleEdges n

/-- These and the edge of the call. -/
def Call.edges (n x y : Nat) (c : Call) : List (Sym2 Nat) :=
  s(c.edge.1, c.edge.2) :: c.given n x y

section Chord

variable {x y : Nat} {F : Graph n}

/-- **The edge of a call closes a second Hamiltonian cycle** through the chord, with nothing but the
cycle, the chord and the edge tested. -/
theorem call_closes (hc : IsChord n x y) {c : Call} (hmem : c ∈ rulesCalls F x y) :
    c.edge.1 ≠ c.edge.2 ∧ (ofEdges n (c.edges n x y)).HamCycleThrough x y := by
  obtain ⟨h1, h2, h3⟩ := hc
  have hcycle : (ofEdges n (c.given n x y)).ContainsCycle :=
    containsCycle_ofEdges (by omega) fun e he => List.mem_append_right _ he
  have hchord : (ofEdges n (c.given n x y)).Adj x y :=
    ofEdges_adj.mpr ⟨by omega, h2, by omega, List.mem_cons_self⟩
  have htested : ∀ e ∈ c.tested, (ofEdges n (c.given n x y)).Adj e.1 e.2 := fun e he => by
    have hadj := tested_of_rulesCalls hmem e he
    exact ofEdges_adj.mpr ⟨F.bound _ _ hadj, F.lt_right hadj, F.ne_of_adj hadj,
      List.mem_cons_of_mem _ (List.mem_append_left _ (List.mem_map.mpr ⟨e, he, rfl⟩))⟩
  have hforced := rulesCalls_forced hcycle ⟨h1, h2, h3⟩ hchord hmem htested
  refine ⟨hforced.ne, hforced.through _ (fun a b hab => ?_) ?_⟩
  · obtain ⟨ha, hb, hne, hmem⟩ := ofEdges_adj.mp hab
    exact ofEdges_adj.mpr ⟨ha, hb, hne, List.mem_cons_of_mem _ hmem⟩
  · exact ofEdges_adj.mpr ⟨hforced.left, hforced.right, hforced.ne, List.mem_cons_self⟩

/-- A uniquely Hamiltonian graph with the chord and the edges tested does not have the edge of the
call. -/
theorem UniqueHamCycle.not_adj_of_call (hc : IsChord n x y) {H : Graph n} (hH : UniqueHamCycle H)
    (hsub : F.Sub H) (hxy : H.Adj x y) {c : Call} (hmem : c ∈ rulesCalls F x y) :
    ¬ H.Adj c.edge.1 c.edge.2 := by
  have hn : 3 ≤ n := by
    have ⟨_, _, _⟩ := hc
    omega
  intro hadj
  have hforced := rulesCalls_forced hH.1 hc hxy hmem fun e he =>
    hsub _ _ (tested_of_rulesCalls hmem e he)
  exact ((uniqueHamCycle_iff hn).mp hH).2 ⟨x, y, hc, hforced.through H (Sub.refl H) hadj⟩

end Chord

/-! ## All calls -/

/-- **The rules** on any graph, with the cycle fixed or not, for any chord: the loops end with their
calls made, and every call closes a second Hamiltonian cycle with the cycle, the chord and the edge
tested. So no call removes an edge of a uniquely Hamiltonian graph. -/
theorem rules_calls (hn : 4 ≤ n) {x y : Nat} (hxy : x < y) (hy : y < n)
    (hchord : Utils.cycleDist x y n ≠ 1) (g : UnknownGraph n) :
    (Converges (fun fuel => g.rule2 x y fuel 1)
        (g.forceAll ((rule2Calls g.currentFixedGraph x y).map Call.edge)) ∧
      Converges (fun fuel => g.rule3 x y fuel 1)
        (g.forceAll ((rule3Calls g.currentFixedGraph x y).map Call.edge)) ∧
      Converges (fun fuel => g.rules x y fuel)
        (g.forceAll ((rulesCalls g.currentFixedGraph x y).map Call.edge))) ∧
    (∀ c ∈ rulesCalls g.currentFixedGraph x y,
      c.edge.1 ≠ c.edge.2 ∧ (∀ e ∈ c.tested, g.hasEdge e.1 e.2 = true) ∧
      ∃ d, IsHamCycle (ofEdges n (c.edges n x y)).Adj (List.range n) d ∧
        ¬ SameCycle d (List.range n)) ∧
    ∀ H : Graph n, UniqueHamCycle H → g.currentFixedGraph.Sub H → H.Adj x y →
      ∀ c ∈ rulesCalls g.currentFixedGraph x y, ¬ H.Adj c.edge.1 c.edge.2 := by
  have hc : IsChord n x y := (isChord_iff (by omega) hxy hy).mpr hchord
  refine ⟨⟨rule2_converges hc g, rule3_converges hc g, rules_converges hc g⟩, fun c hmem => ?_,
    fun H hH hsub hadj c hmem => hH.not_adj_of_call hc hsub hadj hmem⟩
  obtain ⟨hne, hthrough⟩ := call_closes hc hmem
  exact ⟨hne, tested_of_rulesCalls hmem, (secondCycle_iff (by omega)).mp ⟨x, y, hc, hthrough⟩⟩

/-- In the complete graph on six vertices, for the chord `{2, 5}`, every rule makes one call. -/
theorem rules_calls_six :
    rulesCalls (Graph.complete 6) 2 5 = [⟨(3, 0), []⟩, ⟨(3, 1), [(0, 4)]⟩, ⟨(1, 3), [(4, 0)]⟩] ∧
    ∀ c ∈ rulesCalls (Graph.complete 6) 2 5, c.edge.1 ≠ c.edge.2 := by
  refine ⟨by decide, fun c hc => ?_⟩
  obtain ⟨-, hcalls, -⟩ := rules_calls (x := 2) (y := 5) (by decide) (by decide) (by decide)
    (by decide) (.ofGraph (Graph.complete 6))
  exact (hcalls c hc).1

end SymBreak.Uhg
