import SymBreak.Uhg.Propagators

/-!
# The propagator against short cycles

Model of `PropNoCycle` (`PropNoCycle.java:21-92`): from an edge that was instantiated it searches
the paths with `k` vertices in the current fixed graph, and fixes the edge between the ends of every
path that it finds to be none. Unlike the other propagators it does nothing when it is first
propagated, whatever edges are fixed by then.

Results:
* `mem_paths`: the search goes through all paths with `k` vertices that begin with the edge;
* `PropNoCycle.propagate_spec`: it fixes forced non-edges only, and one of them is an edge when a
  cycle of length `k` passes through the edge;
* **`PropNoCycle.propagate_throws_iff`**: `propagate` throws iff there is such a cycle.
-/

namespace SymBreak

open Hamilton Backtrack PathSearch

namespace Graph

variable {n : Nat} {G H : Graph n} {c : List Nat}

/-! ## Cycles -/

/-- `c` visits some vertices once, along edges, and closes. -/
def IsCycle (G : Graph n) (c : List Nat) : Prop := c.Nodup ∧ (c : Cycle Nat).Chain G.Adj

/-- The graph has a cycle of length `k`. -/
def HasCycle (G : Graph n) (k : Nat) : Prop := ∃ c, c.length = k ∧ G.IsCycle c

/-- A cycle of length `k` passes through the edge `{a, b}`. -/
def CycleThrough (G : Graph n) (k a b : Nat) : Prop :=
  ∃ c, c.length = k ∧ G.IsCycle c ∧ CycleEdge c a b

/-- The graph has no cycle shorter than `k`. -/
def GirthAtLeast (G : Graph n) (k : Nat) : Prop := ∀ i, 3 ≤ i → i < k → ¬ G.HasCycle i

/-- A cycle is a Hamiltonian cycle of its vertices. -/
theorem IsCycle.isHamCycle (h : G.IsCycle c) : IsHamCycle G.Adj c c := ⟨List.Perm.refl c, h.2⟩

theorem isCycle_of_isHamCycle {verts : List Nat} (h : IsHamCycle G.Adj verts c)
    (hv : verts.Nodup) : G.IsCycle c := ⟨h.1.nodup_iff.mpr hv, h.2⟩

theorem IsCycle.mono (h : G.IsCycle c) (hsub : G.Sub H) (hc : 2 ≤ c.length) : H.IsCycle c :=
  ⟨h.1, (h.isHamCycle.of_edges hc fun a b hab =>
    hsub a b (h.isHamCycle.rel (fun _ _ => Adj.symm) hab)).2⟩

theorem HasCycle.mono {k : Nat} (h : G.HasCycle k) (hsub : G.Sub H) (hk : 2 ≤ k) :
    H.HasCycle k := by
  obtain ⟨c, rfl, hc⟩ := h
  exact ⟨c, rfl, hc.mono hsub hk⟩

theorem CycleThrough.hasCycle {k a b : Nat} (h : G.CycleThrough k a b) : G.HasCycle k := by
  obtain ⟨c, hlen, hc, -⟩ := h
  exact ⟨c, hlen, hc⟩

theorem CycleThrough.adj {k a b : Nat} (h : G.CycleThrough k a b) : G.Adj a b := by
  obtain ⟨c, -, hc, hce⟩ := h
  exact hc.isHamCycle.rel (fun _ _ => Adj.symm) hce

/-- **A cycle is a path whose ends are adjacent.** -/
theorem isCycle_iff_ends (hnd : c.Nodup) (hc : 1 ≤ c.length) : G.IsCycle c ↔
    c.IsChain G.Adj ∧ G.Adj (c.getD (c.length - 1) 0) (c.getD 0 0) := by
  have h : IsHamCycle G.Adj c c ↔ _ := isHamCycle_iff_getD 0 hc
  unfold IsHamCycle IsHamPath at h
  simpa [IsCycle, hnd] using h

/-- A cycle through an edge is a path from the edge on that closes. -/
theorem CycleThrough.exists_path {k a b : Nat} (h : G.CycleThrough k a b) :
    ∃ l, (a :: b :: l).length = k ∧ (a :: b :: l).Nodup ∧ (a :: b :: l).IsChain G.Adj ∧
      G.Adj ((a :: b :: l).getD (k - 1) 0) a := by
  obtain ⟨c, rfl, hc, hce⟩ := h
  obtain ⟨l, hl⟩ := hc.isHamCycle.start_edge (fun _ _ => Adj.symm) hce
  obtain ⟨hpath, hclose⟩ := (isHamCycle_iff_getD 0 (by simp)).mp hl
  exact ⟨l, hl.1.length_eq, hl.1.nodup_iff.mpr hc.1, hpath.2, hl.1.length_eq ▸ hclose⟩

end Graph

namespace Uhg

open Graph

variable {n : Nat}

/-! ## Model -/

namespace PropNoCycle

/-- The search loop (`PropNoCycle.java:57-85`). -/
def loop {σ : Type} (nb : Nat → List Nat) (k : Nat) (leaf : σ → List Nat → Except (Halt Exn) σ) :
    Loop Nat Unit σ Exn where
  stop := 0
  last := k - 1
  leaf
  scan st v := innerLoop (pick fun u => !st.visited u) ((nb v).drop (st.inds v)) (st.inds v)
  push _ _ := ()
  pop _ _ := ()

/-- At a full path, `fixEdgeValue(currentPath[0], currentPath[i], false, this)`. -/
def forceNoCycle (k : Nat) (g : UnknownGraph n) (currentPath : List Nat) :
    Except (Halt Exn) (UnknownGraph n) :=
  g.fixEdgeValue (currentPath.getD 0 0) (currentPath.getD (k - 1) 0) false

/-- `propagate(vIdx, mask)` (`PropNoCycle.java:27-88`); `nb` lists the neighbours in the current
fixed graph, which stays as it is. -/
def propagate (nb : Nat → List Nat) (k vIdx : Nat) (g : UnknownGraph n) (fuel : Nat) :
    Except (Halt Exn) (UnknownGraph n) :=
  match (allVars n)[vIdx]? with
  | none => .error (.raised .indexOutOfBounds)
  | some (e0, e1) =>
    if g.value e0 e1 = .FALSE then .ok g
    else runLoop (loop nb k (forceNoCycle k)) (startEdge e0 e1 ()) g fuel

/-- `propagate(evtmask)` (`PropNoCycle.java:21-24`) -/
def propagateAll (g : UnknownGraph n) : Except (Halt Exn) (UnknownGraph n) := .ok g

/-! ## The search -/

variable {F : Graph n} (nb : Listing F) {k x y : Nat}

/-- The vertices offered after a path: the neighbours of its end that are not on it. -/
def offered (nb : Nat → List Nat) (path : List Nat) : List Nat :=
  (neighborsAt nb path).filter fun u => !onPath path u

theorem mem_offered {v u : Nat} {p : List Nat} :
    u ∈ offered nb.neighborsOf (v :: p) ↔ F.Adj v u ∧ u ∉ v :: p ∧ u ∈ List.range n := by
  unfold offered neighborsAt
  rw [List.mem_filter, Bool.not_eq_true', onPath_eq_false, nb.mem_iff, List.mem_range]
  exact ⟨fun h => ⟨h.1, h.2, F.lt_right h.1⟩, fun h => ⟨h.1, h.2.1⟩⟩

/-- A turn of the search depends on the path only. -/
theorem faithful {σ : Type} (leaf : σ → List Nat → Except (Halt Exn) σ) :
    Faithful (loop nb.neighborsOf k leaf) (fun _ _ => True) fun path i =>
      ((neighborsAt nb.neighborsOf path).drop i).filter fun u => !onPath path u :=
  faithful_of_scan nb.neighborsOf (fun visited _ _ u => !visited u)
    (fun _ _ _ _ h => (Bool.not_eq_true' _).mp h) fun _ _ => rfl

/-- The paths that the search goes through. -/
def paths (nb : Nat → List Nat) (k x y : Nat) : List (List Nat) :=
  enum (offered nb) (k - 2) [y, x]

/-- **The search goes through the paths with `k` vertices that begin with the edge.** -/
theorem mem_paths (hk : 3 ≤ k) (hxy : F.Adj x y) {l : List Nat} :
    l ∈ paths nb.neighborsOf k x y ↔
      l.IsChain F.Adj ∧ l.Nodup ∧ [x, y] <+: l ∧ l.length = k := by
  have h := mem_enum_of_neighbors (d := k - 2) (l := l) (fun v p u => mem_offered nb)
    (v := y) (p := [x]) (by simpa using hxy) (by simpa using (F.ne_of_adj hxy).symm)
    (by simp [F.bound x y hxy, F.lt_right hxy])
  unfold paths
  rw [h]
  have hlen : [y, x].length + (k - 2) = k := by
    simp only [List.length_cons, List.length_nil]
    omega
  rw [hlen]
  constructor
  · rintro ⟨⟨h1, h2, -⟩, h3, h4⟩
    exact ⟨h1, h2, h3, h4⟩
  · rintro ⟨h1, h2, h3, h4⟩
    refine ⟨⟨h1, h2, fun z hz => ?_⟩, h3, h4⟩
    obtain ⟨w, -, hw⟩ := chain_neighbor (fun _ _ => Graph.Adj.symm) h1 (by omega) hz
    exact List.mem_range.mpr (F.bound z w hw)

theorem search_converges (hk : 3 ≤ k) (hxy : F.Adj x y) (g : UnknownGraph n) :
    Converges (runLoop (loop nb.neighborsOf k (forceNoCycle k)) (startEdge x y ()) g)
      (g.forceAll ((paths nb.neighborsOf k x y).map fun l => (l.getD 0 0, l.getD (k - 1) 0))) := by
  have h := runLoop_converges (faithful nb (forceNoCycle k)) hk rfl rfl (F.ne_of_adj hxy) () trivial
    g
  unfold UnknownGraph.forceAll
  rw [List.foldlM_map]
  exact h

/-- The ends of a path must not be adjacent. -/
theorem forced_of_path (hk : 3 ≤ k) {l : List Nat} (hch : (x :: y :: l).IsChain F.Adj)
    (hnd : (x :: y :: l).Nodup) (hlen : (x :: y :: l).length = k) :
    Forced F (·.CycleThrough k x y) ((x :: y :: l).getD 0 0) ((x :: y :: l).getD (k - 1) 0) := by
  have hlast : k - 1 < (x :: y :: l).length := by omega
  have hxy := (List.isChain_cons_cons.mp hch).1
  have hmem : (x :: y :: l).getD (k - 1) 0 ∈ y :: l := by
    rw [List.getD_eq_getElem _ _ hlast, List.getElem_cons, dif_neg (by omega)]
    exact List.getElem_mem _
  obtain ⟨w, -, hw⟩ := chain_neighbor (fun _ _ => Graph.Adj.symm) hch (by simp)
    (List.mem_cons_of_mem x hmem)
  rw [List.getD_cons_zero]
  refine ⟨F.bound x y hxy, F.bound _ w hw, fun h => (List.nodup_cons.mp hnd).1 (h ▸ hmem),
    fun G hsub hadj => ⟨x :: y :: l, hlen, ?_, l, Or.inl (List.IsRotated.refl _)⟩⟩
  refine (isCycle_iff_ends hnd (by simp)).mpr ⟨hch.imp fun u v h => hsub u v h, ?_⟩
  rw [hlen]
  exact hadj.symm

/-- **`propagate` for an edge** fixes forced non-edges only, and one of them is an edge when a cycle
of length `k` passes through it. -/
theorem propagate_spec (hk : 3 ≤ k) (hxy : F.Adj x y) {vIdx : Nat}
    (hv : (allVars n)[vIdx]? = some (x, y)) :
    ∃ es, Forces F (·.CycleThrough k x y) (propagate nb.neighborsOf k vIdx) es ∧
      (F.CycleThrough k x y → ∃ e ∈ es, F.Adj e.1 e.2) := by
  refine ⟨(paths nb.neighborsOf k x y).map fun l => (l.getD 0 0, l.getD (k - 1) 0),
    ⟨List.forall_mem_map.mpr fun l hl => ?_, fun g hg => ?_⟩, fun h => ?_⟩
  · obtain ⟨hch, hnd, ⟨t, rfl⟩, hlen⟩ := (mem_paths nb hk hxy).mp hl
    exact forced_of_path hk hch hnd hlen
  · have hval : g.value x y = .TRUE := by
      rw [← g.fixed_iff, hg]
      exact hxy
    unfold propagate
    simp only [hv, hval, reduceCtorEq, if_false]
    exact search_converges nb hk hxy g
  · obtain ⟨l, hlen, hnd, hch, hclose⟩ := h.exists_path
    refine ⟨_, List.mem_map_of_mem ((mem_paths nb hk hxy).mpr
      ⟨hch, hnd, List.prefix_append [x, y] l, hlen⟩), ?_⟩
    exact hclose.symm

/-- **`propagate` throws iff a cycle of length `k` passes through the edge**, whatever non-edges are
decided already; otherwise it returns. -/
theorem propagate_throws_iff (hk : 3 ≤ k) (g : UnknownGraph n)
    (nb : Listing g.currentFixedGraph) {vIdx : Nat} (hv : (allVars n)[vIdx]? = some (x, y))
    (hxy : g.value x y = .TRUE) :
    ∃ r, Converges (propagate nb.neighborsOf k vIdx g) r ∧
      (r = .error (.raised .contradiction) ↔ g.currentFixedGraph.CycleThrough k x y) ∧
      (¬ g.currentFixedGraph.CycleThrough k x y → ∃ g', r = .ok g') := by
  obtain ⟨es, hes, hclose⟩ := propagate_spec nb hk ((g.fixed_iff x y).mpr hxy) hv
  exact hes.contradiction_iff hclose rfl

/-- A variable that was set to `0` is passed over. -/
theorem propagate_false (nb : Nat → List Nat) {g : UnknownGraph n} {vIdx : Nat}
    (hv : (allVars n)[vIdx]? = some (x, y)) (hval : g.value x y = .FALSE) :
    Converges (propagate nb k vIdx g) (.ok g) := by
  unfold propagate
  simp only [hv, hval, if_true]
  exact Converges.const _

end PropNoCycle

end Uhg

end SymBreak
