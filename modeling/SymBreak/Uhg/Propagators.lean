import SymBreak.Uhg.StartSearch

/-!
# The four propagators

`PropOptimized`, `PropNoHamCycleStartsWithEdge`, `PropNoHamCycleWithEdge` and `PropOptimizedDC`:
after the rules, each searches Hamiltonian paths, and fixes the edge between the ends of every path
that it finds to be none. The four differ in the search and in whether they pass over the edges of
the cycle.

Results:
* `secondCycle_iff`: a Hamiltonian cycle other than `0, 1, …, n - 1` passes through a chord;
* `Propagator.search_spec`: a search fixes forced non-edges only, and one of them is an edge when a
  Hamiltonian cycle passes through the chord;
* **`propagate_contradiction_iff`**: `propagate` throws iff there is such a cycle, whichever the
  propagator;
* **`Propagator.propagateAll_spec`**: the same for the propagation of all edges.
-/

namespace SymBreak

namespace Uhg

open Hamilton Backtrack PathSearch Graph

variable {n : Nat}

/-! ## Model -/

/-- `allVars` (`UnknownGraph.java:58-67`), as the edges of the variables. -/
def allVars (n : Nat) : List (Nat × Nat) := Matrix.upperPairs n

/-- The search of a propagator, with what it does at a full path. -/
abbrev Search (n : Nat) : Type :=
  (Nat → List Nat) → Nat → Nat → Nat →
    (UnknownGraph n → List Nat → Except (Halt Exn) (UnknownGraph n)) →
    UnknownGraph n → Nat → Except (Halt Exn) (UnknownGraph n)

/-- `propagate(vIdx, mask)` of a propagator with this search. `nb` lists the neighbours in the
current fixed graph, which stays as it is. -/
def propagateWith (skipsCycleEdges : Bool) (search : Search n) (nb : Nat → List Nat) (vIdx : Nat)
    (g : UnknownGraph n) (fuel : Nat) : Except (Halt Exn) (UnknownGraph n) :=
  match (allVars n)[vIdx]? with
  | none => .error (.raised .indexOutOfBounds)
  | some (e0, e1) =>
    if g.value e0 e1 ≠ .TRUE then .ok g
    else if skipsCycleEdges && Utils.cycleDist e0 e1 n == 1 then .ok g
    else do
      let g ← UnknownGraph.rules e0 e1 fuel g
      search nb n e0 e1 forceNotCycle g fuel

/-- `propagate(evtmask)`, the same in all propagators (`PropOptimized.java:37-44`). -/
def propagateAllWith (propagate : Nat → UnknownGraph n → Nat → Except (Halt Exn) (UnknownGraph n))
    (g : UnknownGraph n) (fuel : Nat) : Except (Halt Exn) (UnknownGraph n) :=
  (allVars n).zipIdx.foldlM (fun g e =>
    if g.value e.1.1 e.1.2 = .TRUE ∧ Utils.cycleDist e.1.1 e.1.2 n ≠ 1 then propagate e.2 g fuel
    else .ok g) g

namespace PropOptimized

/-- `PropOptimized.java:52-206` -/
def propagate (nb : Nat → List Nat) : Nat → UnknownGraph n → Nat →
    Except (Halt Exn) (UnknownGraph n) :=
  propagateWith true search nb

end PropOptimized

namespace PropNoHamCycleStartsWithEdge

/-- `PropNoHamCycleStartsWithEdge.java:44-131` -/
def propagate (nb : Nat → List Nat) : Nat → UnknownGraph n → Nat →
    Except (Halt Exn) (UnknownGraph n) :=
  propagateWith true search nb

end PropNoHamCycleStartsWithEdge

namespace PropNoHamCycleWithEdge

/-- `PropNoHamCycleWithEdge.java:45-150` -/
def propagate (nb : Nat → List Nat) : Nat → UnknownGraph n → Nat →
    Except (Halt Exn) (UnknownGraph n) :=
  propagateWith false search nb

end PropNoHamCycleWithEdge

namespace PropOptimizedDC

/-- `PropOptimizedDC.java:45-139` -/
def propagate (nb : Nat → List Nat) : Nat → UnknownGraph n → Nat →
    Except (Halt Exn) (UnknownGraph n) :=
  propagateWith false search nb

end PropOptimizedDC

/-- The interchangeable propagators. -/
inductive Propagator where
  | PropOptimized
  | PropNoHamCycleStartsWithEdge
  | PropNoHamCycleWithEdge
  | PropOptimizedDC
  deriving DecidableEq, Repr

namespace Propagator

/-- Whether `propagate(vIdx, mask)` returns at an edge of the cycle. -/
def skipsCycleEdges : Propagator → Bool
  | PropOptimized => true
  | PropNoHamCycleStartsWithEdge => true
  | PropNoHamCycleWithEdge => false
  | PropOptimizedDC => false

def search : Propagator → Search n
  | PropOptimized => Uhg.PropOptimized.search
  | PropNoHamCycleStartsWithEdge => Uhg.PropNoHamCycleStartsWithEdge.search
  | PropNoHamCycleWithEdge => Uhg.PropNoHamCycleWithEdge.search
  | PropOptimizedDC => Uhg.PropOptimizedDC.search

/-- `propagate(vIdx, mask)` -/
def propagate (P : Propagator) (nb : Nat → List Nat) (vIdx : Nat) (g : UnknownGraph n)
    (fuel : Nat) : Except (Halt Exn) (UnknownGraph n) :=
  match P with
  | PropOptimized => Uhg.PropOptimized.propagate nb vIdx g fuel
  | PropNoHamCycleStartsWithEdge => Uhg.PropNoHamCycleStartsWithEdge.propagate nb vIdx g fuel
  | PropNoHamCycleWithEdge => Uhg.PropNoHamCycleWithEdge.propagate nb vIdx g fuel
  | PropOptimizedDC => Uhg.PropOptimizedDC.propagate nb vIdx g fuel

/-- `propagate(evtmask)` -/
def propagateAll (P : Propagator) (nb : Nat → List Nat) : UnknownGraph n → Nat →
    Except (Halt Exn) (UnknownGraph n) :=
  propagateAllWith (P.propagate nb)

theorem propagate_eq (P : Propagator) (nb : Nat → List Nat) (vIdx : Nat) (g : UnknownGraph n)
    (fuel : Nat) : P.propagate nb vIdx g fuel =
      propagateWith P.skipsCycleEdges P.search nb vIdx g fuel := by
  cases P <;> rfl

end Propagator

/-! ## Second Hamiltonian cycles -/

/-- A Hamiltonian cycle of the graph passes through a chord. -/
def SecondCycle (G : Graph n) : Prop := ∃ x y, IsChord n x y ∧ G.HamCycleThrough x y

theorem isHamCycle_range {G : Graph n} (hn : 0 < n) (hG : G.ContainsCycle) :
    IsHamCycle G.Adj (List.range n) (List.range n) := by
  refine (isHamCycle_iff hn).mpr ⟨⟨List.Perm.refl _, ?_⟩, ?_⟩
  · refine List.isChain_iff_getElem.mpr fun i hi => ?_
    rw [List.length_range] at hi
    have h := hG i (by omega)
    rw [Nat.mod_eq_of_lt hi] at h
    simpa using h
  · have h := hG (n - 1) (by omega)
    rw [Nat.sub_add_cancel hn, Nat.mod_self] at h
    rw [List.getD_eq_getElem _ _ (by simpa using hn), List.getD_eq_getElem _ _ (by simp; omega)]
    simpa using h.symm

/-- **A second Hamiltonian cycle** is one that is not the cycle `0, 1, …, n - 1`. -/
theorem secondCycle_iff {G : Graph n} (hn : 3 ≤ n) :
    SecondCycle G ↔ ∃ c, IsHamCycle G.Adj (List.range n) c ∧ ¬ SameCycle c (List.range n) := by
  constructor
  · rintro ⟨x, y, ⟨h1, h2, h3⟩, c, hc, hxy⟩
    refine ⟨c, hc, fun hs => ?_⟩
    have := (cycleEdge_range hn).mp ((hs x y).mp hxy)
    omega
  · rintro ⟨c, hc, hs⟩
    by_contra hno
    refine hs (sameCycle_of_edges hc.1 (hc.1.nodup_iff.mpr List.nodup_range)
      (by rw [hc.1.length_eq, List.length_range]; exact hn) fun a b hab => ?_)
    -- an edge that is not on the first cycle would be a chord
    have hadj := hc.rel (fun _ _ => Graph.Adj.symm) hab
    have ha := G.bound a b hadj
    have hb := G.lt_right hadj
    have hne := G.ne_of_adj hadj
    by_contra hout
    rw [cycleEdge_range hn] at hout
    rcases Nat.lt_or_gt_of_ne hne with hlt | hlt
    · exact hno ⟨a, b, ⟨by omega, hb, by omega⟩, c, hc, hab⟩
    · exact hno ⟨b, a, ⟨by omega, ha, by omega⟩, c, hc, hab.symm⟩

/-! ## What a search fixes -/

section Searches

variable {F : Graph n} {x y : Nat}

/-- The ends of a Hamiltonian path through the chord must not be adjacent. -/
theorem forced_of_path (hn : 2 ≤ n) {l a b : List Nat} (hl : IsHamPath F.Adj (List.range n) l)
    (hxy : l = a ++ x :: y :: b) :
    Forced F (·.HamCycleThrough x y) (l.getD 0 0) (l.getD (n - 1) 0) := by
  have hlen : l.length = n := by rw [hl.1.length_eq, List.length_range]
  have hnd := hl.1.nodup_iff.mpr List.nodup_range
  have hlt : ∀ z ∈ l, z < n := fun z hz => List.mem_range.mp (hl.1.mem_iff.mp hz)
  have hh : 0 < l.length := by omega
  have ht : n - 1 < l.length := by omega
  have eh := List.getD_eq_getElem l 0 hh
  have et := List.getD_eq_getElem l 0 ht
  refine ⟨by rw [eh]; exact hlt _ (List.getElem_mem hh),
    by rw [et]; exact hlt _ (List.getElem_mem ht),
    fun he => ?_, fun G hsub hG => ⟨l, (isHamCycle_iff (by omega)).mpr ⟨?_, hG⟩, b ++ a, Or.inl ?_⟩⟩
  · rw [eh, et, hnd.getElem_inj_iff] at he
    omega
  · exact ⟨hl.1, hl.2.imp fun u v h => hsub u v h⟩
  · rw [hxy]
    exact rotated_append a (x :: y :: b)

/-- A search that goes through paths with `x` and `y` next to each other fixes forced non-edges. -/
theorem forces_of_paths (hn : 2 ≤ n)
    {search : UnknownGraph n → Nat → Except (Halt Exn) (UnknownGraph n)} {paths : List (List Nat)}
    (hpaths : ∀ l ∈ paths, IsHamPath F.Adj (List.range n) l ∧ ∃ a b, l = a ++ x :: y :: b)
    (hsearch : ∀ g : UnknownGraph n, Converges (search g) (paths.foldlM forceNotCycle g)) :
    Forces F (·.HamCycleThrough x y) search
      (paths.map fun l => (l.getD 0 0, l.getD (n - 1) 0)) := by
  refine ⟨fun e he => ?_, fun g _ => ?_⟩
  · obtain ⟨l, hl, rfl⟩ := List.mem_map.mp he
    obtain ⟨hham, a, b, hab⟩ := hpaths l hl
    exact forced_of_path hn hham hab
  · have : g.forceAll (paths.map fun l => (l.getD 0 0, l.getD (n - 1) 0)) =
        paths.foldlM forceNotCycle g := by
      unfold UnknownGraph.forceAll
      rw [List.foldlM_map]
      rfl
    rw [this]
    exact hsearch g

/-- A search from the chord. -/
theorem edgeSearch_forces {search : UnknownGraph n → Nat → Except (Halt Exn) (UnknownGraph n)}
    {cands : List Nat → List Nat} (hn : 3 ≤ n) (hxy : F.Adj x y)
    (h : Exact F.Adj (List.range n) [y, x] cands)
    (hsearch : ∀ g : UnknownGraph n, Converges (search g)
      ((enum cands (n - 2) [y, x]).foldlM forceNotCycle g)) :
    ∃ es, Forces F (·.HamCycleThrough x y) search es ∧
      (F.HamCycleThrough x y → ∃ e ∈ es, F.Adj e.1 e.2) := by
  have hmem := mem_enum_edge hn hxy h
  refine ⟨_, forces_of_paths (by omega) (fun l hl => ?_) hsearch, ?_⟩
  · obtain ⟨hham, t, ht⟩ := (hmem l).mp hl
    exact ⟨hham, [], t, ht.symm⟩
  · rintro ⟨c, hc, hce⟩
    obtain ⟨r, hr⟩ := hc.start_edge (fun _ _ => Graph.Adj.symm) hce
    obtain ⟨hpath, hclose⟩ := (isHamCycle_iff (by omega)).mp hr
    exact ⟨_, List.mem_map_of_mem ((hmem (x :: y :: r)).mpr ⟨hpath, r, rfl⟩), hclose⟩

/-- A search from a vertex. -/
theorem startSearch_forces {search : UnknownGraph n → Nat → Except (Halt Exn) (UnknownGraph n)}
    (nb : Listing F) {s : Nat} (hn : 2 ≤ n) (hxy : F.Adj x y) (hs : s < n) (hsy : s ≠ y)
    (hsearch : ∀ g : UnknownGraph n, Converges (search g)
      ((enum (edgeRest nb.neighborsOf n x y · 0) (n - 1) [s]).foldlM forceNotCycle g)) :
    ∃ es, Forces F (·.HamCycleThrough x y) search es ∧
      (F.HamCycleThrough x y → ∃ e ∈ es, F.Adj e.1 e.2) := by
  refine ⟨_, forces_of_paths hn (fun l hl => ?_) hsearch, fun h => ?_⟩
  · obtain ⟨hham, hoff⟩ := hamPath_of_mem_enum (offersNeighbors nb hxy) (by simp)
      (List.nodup_singleton s) (by simpa using hs)
      (by rw [List.length_singleton, List.length_range]; omega) hl
    exact ⟨hham, consecutive nb (F.ne_of_adj hxy) (F.bound x y hxy) (F.lt_right hxy) hham hoff⟩
  · obtain ⟨l, hl, hclose⟩ := closing_path nb hxy hs hsy h
    exact ⟨_, List.mem_map_of_mem hl, hclose⟩

/-- **The search of every propagator** fixes forced non-edges only, and one of them is an edge when
a Hamiltonian cycle passes through the chord. -/
theorem Propagator.search_spec (P : Propagator) (nb : Listing F) (hc : IsChord n x y)
    (hxy : F.Adj x y) :
    ∃ es, Forces F (·.HamCycleThrough x y)
        (fun g fuel => P.search nb.neighborsOf n x y forceNotCycle g fuel) es ∧
      (F.HamCycleThrough x y → ∃ e ∈ es, F.Adj e.1 e.2) := by
  obtain ⟨h1, h2, h3⟩ := hc
  have hne := F.ne_of_adj hxy
  cases P with
  | PropOptimized =>
    exact edgeSearch_forces (by omega) hxy (PropOptimized.exact nb x y) fun g =>
      runLoop_converges (PropOptimized.faithful nb forceNotCycle) (by omega) rfl rfl hne _
        (PropOptimized.degreesOk_init nb (by omega) h2 hne) g
  | PropNoHamCycleStartsWithEdge =>
    exact edgeSearch_forces (by omega) hxy (PropNoHamCycleStartsWithEdge.exact nb) fun g =>
      runLoop_converges (PropNoHamCycleStartsWithEdge.faithful nb forceNotCycle) (by omega) rfl rfl
        hne () trivial g
  | PropNoHamCycleWithEdge =>
    exact startSearch_forces nb (by omega) hxy (by omega : 0 < n) (by omega) fun g =>
      PropNoHamCycleWithEdge.search_converges nb forceNotCycle (by omega) g
  | PropOptimizedDC =>
    exact startSearch_forces nb (by omega) hxy (by omega : 1 < n) (by omega) fun g =>
      PropOptimizedDC.search_converges nb forceNotCycle (by omega) g

end Searches

/-! ## What `propagate` does -/

section Propagate

variable {F : Graph n} {x y : Nat} (P : Propagator) (nb : Listing F)

/-- `propagate` for a chord fixes what the rules fix and then what the search fixes. -/
theorem Propagator.propagate_forces (hF : F.ContainsCycle) (hc : IsChord n x y) (hxy : F.Adj x y)
    {vIdx : Nat} (hv : (allVars n)[vIdx]? = some (x, y)) {es : List (Nat × Nat)}
    (hsearch : Forces F (·.HamCycleThrough x y)
      (fun g fuel => P.search nb.neighborsOf n x y forceNotCycle g fuel) es) :
    Forces F (·.HamCycleThrough x y) (P.propagate nb.neighborsOf vIdx)
      ((rulesCalls F x y).map Call.edge ++ es) := by
  refine ((rules_spec hF hc hxy).bind hsearch).congr fun g hg fuel => ?_
  have hval : g.value x y = .TRUE := by
    rw [← g.fixed_iff, hg]
    exact hxy
  have hdist : Utils.cycleDist x y n ≠ 1 := by
    obtain ⟨h1, h2, h3⟩ := hc
    exact (isChord_iff (by omega) (by omega) h2).mp ⟨h1, h2, h3⟩
  rw [P.propagate_eq]
  unfold propagateWith
  simp only [hv, hval, ne_eq, not_true, if_false, beq_iff_eq, Bool.and_eq_true, hdist, and_false]

/-- **`propagate` for a chord** fixes forced non-edges only, and one of them is an edge when a
Hamiltonian cycle passes through the chord. -/
theorem Propagator.propagate_spec (hF : F.ContainsCycle) (hc : IsChord n x y) (hxy : F.Adj x y)
    {vIdx : Nat} (hv : (allVars n)[vIdx]? = some (x, y)) :
    ∃ es, Forces F (·.HamCycleThrough x y) (P.propagate nb.neighborsOf vIdx) es ∧
      (F.HamCycleThrough x y → ∃ e ∈ es, F.Adj e.1 e.2) := by
  obtain ⟨es₂, hsearch, hclose⟩ := P.search_spec nb hc hxy
  refine ⟨_, P.propagate_forces nb hF hc hxy hv hsearch, fun h => ?_⟩
  obtain ⟨e, he, hadj⟩ := hclose h
  exact ⟨e, List.mem_append_right _ he, hadj⟩

/-- **`propagate` throws iff a Hamiltonian cycle passes through the chord**, whatever non-edges are
decided already and whichever of the propagators it is; otherwise it returns. -/
theorem propagate_contradiction_iff (hn : 4 ≤ n) (g : UnknownGraph n)
    (nb : Listing g.currentFixedGraph) (hcycle : g.currentFixedGraph.ContainsCycle) {vIdx : Nat}
    (hv : (allVars n)[vIdx]? = some (x, y)) (hchord : Utils.cycleDist x y n ≠ 1)
    (hxy : g.value x y = .TRUE) :
    ∃ r, Converges (P.propagate nb.neighborsOf vIdx g) r ∧
      (r = .error (.raised .contradiction) ↔ g.currentFixedGraph.HamCycleThrough x y) ∧
      (¬ g.currentFixedGraph.HamCycleThrough x y → ∃ g', r = .ok g') := by
  have hmem : (x, y) ∈ Matrix.upperPairs n := List.mem_of_getElem? hv
  obtain ⟨hlt, hy⟩ := Matrix.mem_upperPairs.mp hmem
  have hadj : g.currentFixedGraph.Adj x y := (g.fixed_iff x y).mpr hxy
  obtain ⟨es, hes, hclose⟩ :=
    P.propagate_spec nb hcycle ((isChord_iff (by omega) hlt hy).mpr hchord) hadj hv
  exact hes.contradiction_iff hclose rfl

/-- In the complete graph on four vertices, for the chord `{0, 2}`. -/
theorem propagate_contradiction_iff_four :
    ∃ r, Converges (Propagator.propagate .PropOptimizedDC
        (Listing.sorted (Graph.complete 4)).neighborsOf 1 (.ofGraph (Graph.complete 4))) r ∧
      (r = .error (.raised .contradiction) ↔ (Graph.complete 4).HamCycleThrough 0 2) := by
  obtain ⟨r, h1, h2, -⟩ := propagate_contradiction_iff .PropOptimizedDC (by decide)
    (.ofGraph (Graph.complete 4)) (Listing.sorted _)
    (show ∀ i < 4, (Graph.complete 4).adj i ((i + 1) % 4) = true by decide)
    (show (allVars 4)[1]? = some (0, 2) from rfl) (by decide) rfl
  exact ⟨r, h1, h2⟩

/-- A loop, each of whose turns fixes forced non-edges. -/
theorem Forces.foldlM {ι : Type} {bad : Graph n → Prop} {Q : ι → List (Nat × Nat) → Prop}
    {f : UnknownGraph n → Nat → ι → Except (Halt Exn) (UnknownGraph n)} (l : List ι)
    (h : ∀ i ∈ l, ∃ es, Forces F bad (fun g fuel => f g fuel i) es ∧ Q i es) :
    ∃ es, Forces F bad (fun g fuel => l.foldlM (fun g i => f g fuel i) g) es ∧
      ∀ i ∈ l, ∃ es', Q i es' ∧ es' ⊆ es := by
  induction l with
  | nil => exact ⟨[], Forces.nil, by simp⟩
  | cons i l ih =>
    obtain ⟨⟨es₁, h₁, hQ⟩, hl⟩ := List.forall_mem_cons.mp h
    obtain ⟨es₂, h₂, hall⟩ := ih hl
    refine ⟨es₁ ++ es₂, h₁.bind h₂, List.forall_mem_cons.mpr
      ⟨⟨es₁, hQ, List.subset_append_left _ _⟩, fun j hj => ?_⟩⟩
    obtain ⟨es', hQ', hsub⟩ := hall j hj
    exact ⟨es', hQ', List.subset_append_of_subset_right _ hsub⟩

/-- **The propagation of all edges** fixes forced non-edges only, and one of them is an edge when
there is a second Hamiltonian cycle. -/
theorem Propagator.propagateAll_spec (hn : 3 ≤ n) (hF : F.ContainsCycle) :
    ∃ es, Forces F SecondCycle (P.propagateAll nb.neighborsOf) es ∧
      (SecondCycle F → ∃ e ∈ es, F.Adj e.1 e.2) := by
  have hturn : ∀ e ∈ (allVars n).zipIdx, ∃ es,
      Forces F SecondCycle (fun g fuel =>
        if g.value e.1.1 e.1.2 = .TRUE ∧ Utils.cycleDist e.1.1 e.1.2 n ≠ 1 then
          P.propagate nb.neighborsOf e.2 g fuel
        else .ok g) es ∧
      (IsChord n e.1.1 e.1.2 → F.HamCycleThrough e.1.1 e.1.2 → ∃ e ∈ es, F.Adj e.1 e.2) := by
    rintro ⟨⟨x, y⟩, i⟩ he
    have hi := List.mem_zipIdx_iff_getElem?.mp he
    obtain ⟨hlt, hy⟩ := Matrix.mem_upperPairs.mp (List.mem_of_getElem? hi)
    have hchord := isChord_iff hn hlt hy
    by_cases hcase : F.Adj x y ∧ Utils.cycleDist x y n ≠ 1
    · obtain ⟨es, hes, hclose⟩ := P.propagate_spec nb hF (hchord.mpr hcase.2) hcase.1 hi
      refine ⟨es, (hes.mono fun G _ h => ⟨x, y, hchord.mpr hcase.2, h⟩).congr fun g hg fuel => ?_,
        fun _ => hclose⟩
      have hval : g.value x y = .TRUE := by
        rw [← g.fixed_iff, hg]
        exact hcase.1
      exact (if_pos ⟨hval, hcase.2⟩).symm
    · refine ⟨[], Forces.nil.congr fun g hg fuel => (if_neg fun h => hcase ⟨?_, h.2⟩).symm,
        fun hc h => absurd ⟨?_, hchord.mp hc⟩ hcase⟩
      · rw [← hg]
        exact (g.fixed_iff x y).mpr h.1
      · obtain ⟨c, hc, hce⟩ := h
        exact hc.rel (fun _ _ => Graph.Adj.symm) hce
  obtain ⟨es, hes, hall⟩ := Forces.foldlM _ hturn
  refine ⟨es, hes, ?_⟩
  rintro ⟨x, y, ⟨h1, h2, h3⟩, h⟩
  have hmem : (x, y) ∈ allVars n := Matrix.mem_upperPairs.mpr ⟨by omega, h2⟩
  obtain ⟨i, hi⟩ := List.getElem?_of_mem hmem
  obtain ⟨es', hclose, hsub⟩ := hall ((x, y), i) (List.mem_zipIdx_iff_getElem?.mpr hi)
  obtain ⟨e, he, hadj⟩ := hclose ⟨h1, h2, h3⟩ h
  exact ⟨e, hsub he, hadj⟩

end Propagate

end Uhg

end SymBreak
