import SymBreak.Uhg.EdgeSearch

/-!
# The searches from a vertex

`PropNoHamCycleWithEdge` and `PropOptimizedDC` search the Hamiltonian paths from a fixed vertex `s`
that go from `e0` straight to `e1`. The first of them loops over all start vertices, but its depth
is `0` only before the first one, so it searches from the vertex `0`.

Results:
* `faithful`: a turn of the loop is a function of the path;
* `consecutive`: on a path that the search handles, `e1` comes right after `e0`;
* `closing_path`: a Hamiltonian cycle through the edge, cut open at `s`, is handled;
* **`PropNoHamCycleWithEdge.search_converges`, `PropOptimizedDC.search_converges`**: both searches
  end, after one search from `0` and from `1`.
-/

namespace SymBreak.Uhg

open Hamilton Backtrack PathSearch

variable {n e0 e1 : Nat}

/-! ## Turns of the loop -/

/-- What the loop still offers at a path, from index `k` on. -/
def edgeRest (nb : Nat → List Nat) (n e0 e1 : Nat) : List Nat → Nat → List Nat
  | [], _ => []
  | v :: p, k =>
    if v = e0 ∧ e1 ∉ v :: p then if (adjList nb v).drop k = [] then [] else [e1]
    else if v = e1 ∧ e0 ∉ v :: p then []
    else ((adjList nb v).drop k).filter (passes nb n (onPath (v :: p)) ((v :: p).length - 1))

theorem edgeRest_cons (nb : Nat → List Nat) (v k : Nat) (p : List Nat) :
    edgeRest nb n e0 e1 (v :: p) k =
      if v = e0 ∧ e1 ∉ v :: p then if (adjList nb v).drop k = [] then [] else [e1]
      else if v = e1 ∧ e0 ∉ v :: p then []
      else ((adjList nb v).drop k).filter
        (passes nb n (onPath (v :: p)) ((v :: p).length - 1)) := rfl

section Turns

variable {G : Graph n} (nb : Listing G) {σ : Type} (leaf : σ → List Nat → Except (Halt Exn) σ)

theorem length_adjList_le (v : Nat) : (adjList nb.neighborsOf v).length ≤ n := by
  have hsub : adjList nb.neighborsOf v ⊆ List.range n := fun x hx =>
    List.mem_range.mpr (G.lt_right ((mem_adjList nb).mp hx))
  have h := (List.subperm_of_subset (nodup_adjList nb v) hsub).length_le
  rwa [List.length_range] at h

/-- **A turn of the loop depends on the path only.** -/
theorem faithful : Faithful (withEdgeLoop nb.neighborsOf n e0 e1 leaf) (fun _ _ => True)
    (edgeRest nb.neighborsOf n e0 e1) where
  scan st v p h _ _ := by
    have hmark : ∀ x, st.visited x = false ↔ x ∉ v :: p := fun x => by
      rw [visited_eq h, onPath_eq_false]
    have hend : ∀ k, n ≤ k → (adjList nb.neighborsOf v).drop k = [] := fun k hk =>
      List.drop_eq_nil_of_le ((length_adjList_le nb v).trans hk)
    unfold withEdgeLoop edgeRest
    simp only
    generalize hl : (adjList nb.neighborsOf v).drop (st.inds v) = l
    by_cases h0 : v = e0 ∧ e1 ∉ v :: p
    · -- from `e0` to `e1`, once
      have hc : ∀ k x, chooseEdge nb.neighborsOf n e0 e1 st.visited st.i v k x =
          .take e1 (n + 1) := fun k x => if_pos ⟨h0.1, (hmark e1).mpr h0.2⟩
      rw [if_pos h0, innerLoop_take hc]
      by_cases hnil : l = []
      · exact Or.inr ⟨_, if_pos hnil, if_pos hnil⟩
      · refine Or.inl ⟨e1, n + 1, if_neg hnil, h0.2, ?_⟩
        rw [if_pos h0, if_neg hnil, if_pos (hend _ (Nat.le_succ n))]
    · have h0' : ¬ (v = e0 ∧ st.visited e1 = false) := by rwa [hmark]
      simp only [if_neg h0]
      by_cases h1 : v = e1 ∧ e0 ∉ v :: p
      · -- not through `e1` first
        simp only [if_pos h1]
        cases l with
        | nil => exact Or.inr ⟨_, rfl, trivial⟩
        | cons x xs =>
          have hc : chooseEdge nb.neighborsOf n e0 e1 st.visited st.i v (st.inds v) x = .stop n :=
            (if_neg h0').trans (if_pos ⟨h1.1, (hmark e0).mpr h1.2⟩)
          exact Or.inr ⟨n, by rw [innerLoop, hc], trivial⟩
      · have h1' : ¬ (v = e1 ∧ st.visited e0 = false) := by rwa [hmark]
        have hc : chooseEdge nb.neighborsOf n e0 e1 st.visited st.i v =
            pick (passes nb.neighborsOf n (onPath (v :: p)) ((v :: p).length - 1)) := by
          funext k x
          rw [← visited_eq h, ← h.depth]
          exact (if_neg h0').trans (if_neg h1')
        simp only [if_neg h1, hc]
        rcases innerLoop_pick (passes nb.neighborsOf n (onPath (v :: p)) ((v :: p).length - 1))
          (adjList nb.neighborsOf v) l (st.inds v) hl with ⟨u, k, he, hu, hrest⟩ | ⟨k, he, hrest⟩
        · exact Or.inl ⟨u, k, he, not_mem_of_passes hu, hrest⟩
        · exact Or.inr ⟨k, he, hrest⟩
  push _ _ _ _ _ _ _ _ := trivial
  pop _ _ _ _ _ _ := trivial
  drop _ _ _ _ _ _ := trivial

/-- The loop offers unvisited neighbours. -/
theorem offersNeighbors (he : G.Adj e0 e1) : OffersNeighbors G.Adj (List.range n)
    (edgeRest nb.neighborsOf n e0 e1 · 0) := by
  intro v p u hu
  change u ∈ edgeRest nb.neighborsOf n e0 e1 (v :: p) 0 at hu
  rw [edgeRest_cons, List.drop_zero] at hu
  by_cases h0 : v = e0 ∧ e1 ∉ v :: p
  · rw [if_pos h0] at hu
    by_cases hl : adjList nb.neighborsOf v = []
    · rw [if_pos hl] at hu
      exact absurd hu (by simp)
    · rw [if_neg hl] at hu
      obtain rfl := List.mem_singleton.mp hu
      obtain rfl := h0.1
      exact ⟨he, h0.2, List.mem_range.mpr (G.lt_right he)⟩
  · rw [if_neg h0] at hu
    by_cases h1 : v = e1 ∧ e0 ∉ v :: p
    · rw [if_pos h1] at hu
      exact absurd hu (by simp)
    · rw [if_neg h1] at hu
      obtain ⟨h2, h3⟩ := List.mem_filter.mp hu
      have h4 := (mem_adjList nb).mp h2
      exact ⟨h4, not_mem_of_passes h3, List.mem_range.mpr (G.lt_right h4)⟩

/-! ## The paths handled -/

theorem Offered.next {cands : List Nat → List Nat} {s v u : Nat} {x y l : List Nat}
    (h : Offered cands [s] l.reverse) (hl : l = x ++ v :: u :: y) : u ∈ cands (v :: x.reverse) := by
  refine h u (v :: x.reverse) ⟨y.reverse, ?_⟩ (by simp)
  rw [hl]
  simp

/-- **On a path that the loop handles, `e1` comes right after `e0`.** -/
theorem consecutive (hne : e0 ≠ e1) (h0 : e0 < n) (h1 : e1 < n) {s : Nat} {l : List Nat}
    (hl : IsHamPath G.Adj (List.range n) l)
    (hoff : Offered (edgeRest nb.neighborsOf n e0 e1 · 0) [s] l.reverse) :
    ∃ a b, l = a ++ e0 :: e1 :: b := by
  have hnd := hl.1.nodup_iff.mpr List.nodup_range
  have hm0 := hl.1.mem_iff.mpr (List.mem_range.mpr h0)
  have hm1 := hl.1.mem_iff.mpr (List.mem_range.mpr h1)
  obtain ⟨a, t, rfl⟩ := List.append_of_mem hm0
  obtain ⟨-, hnt, hdisj⟩ := List.nodup_append.mp hnd
  rw [List.mem_append, List.mem_cons, or_iff_right hne.symm] at hm1
  rcases hm1 with hm1 | hm1
  · -- `e1` comes first: the loop stops there
    obtain ⟨x, y, rfl⟩ := List.append_of_mem hm1
    obtain ⟨u, z, hz⟩ := List.exists_cons_of_ne_nil (show y ++ e0 :: t ≠ [] by simp)
    have hu := Offered.next hoff (show (x ++ e1 :: y) ++ e0 :: t = x ++ e1 :: u :: z by simp [hz])
    have hx : e0 ∉ e1 :: x.reverse := fun hm => by
      simp only [List.mem_cons, List.mem_reverse] at hm
      rcases hm with rfl | hm
      · exact hne rfl
      · exact hdisj e0 (by simp [hm]) e0 (by simp) rfl
    rw [edgeRest_cons, if_neg fun h => hne h.1.symm, if_pos ⟨rfl, hx⟩] at hu
    exact absurd hu (by simp)
  · obtain ⟨u, b, rfl⟩ := List.exists_cons_of_ne_nil (List.ne_nil_of_mem hm1)
    have hu := Offered.next hoff rfl
    have ha : e1 ∉ e0 :: a.reverse := fun hm => by
      simp only [List.mem_cons, List.mem_reverse] at hm
      rcases hm with rfl | hm
      · exact hne rfl
      · exact hdisj e1 hm e1 (List.mem_cons_of_mem e0 hm1) rfl
    rw [edgeRest_cons, if_pos ⟨rfl, ha⟩] at hu
    by_cases hl : (adjList nb.neighborsOf e0).drop 0 = []
    · rw [if_pos hl] at hu
      exact absurd hu (by simp)
    · rw [if_neg hl] at hu
      obtain rfl := List.mem_singleton.mp hu
      exact ⟨a, b, rfl⟩

/-- A Hamiltonian cycle is a Hamiltonian path whose ends are adjacent. -/
theorem isHamCycle_iff (hn : 0 < n) {l : List Nat} :
    IsHamCycle G.Adj (List.range n) l ↔
      IsHamPath G.Adj (List.range n) l ∧ G.Adj (l.getD 0 0) (l.getD (n - 1) 0) := by
  by_cases hlen : l.length = n
  · rw [isHamCycle_iff_getD 0 (hlen ▸ hn), hlen]
    exact and_congr_right fun _ => ⟨Graph.Adj.symm, Graph.Adj.symm⟩
  · have hperm : ¬ l.Perm (List.range n) := fun h => hlen (by rw [h.length_eq, List.length_range])
    exact iff_of_false (fun h => hperm h.1) fun h => hperm h.1.1

/-- Where a vertex stands in a list without repetitions. -/
theorem split_unique {v : Nat} {a b c d : List Nat} (hnd : (a ++ v :: b).Nodup)
    (h : a ++ v :: b = c ++ v :: d) : a = c ∧ b = d := by
  have hm := (List.nodup_cons.mp (List.nodup_middle.mp hnd)).1
  rw [List.mem_append, not_or] at hm
  have := (List.append_cons_inj_of_notMem hm.1 hm.2).mp h
  exact ⟨this.1, this.2.2⟩

/-- **On a Hamiltonian path with `e1` right after `e0`, the next vertex is offered.** -/
theorem next_offered (he : G.Adj e0 e1) {v u : Nat} {q l x y : List Nat}
    (hpath : IsHamPath G.Adj (List.range n) ((v :: q).reverse ++ u :: l))
    (hsplit : x ++ e0 :: e1 :: y = (v :: q).reverse ++ u :: l) :
    u ∈ edgeRest nb.neighborsOf n e0 e1 (v :: q) 0 := by
  have hnd : (x ++ e0 :: e1 :: y).Nodup := by
    rw [hsplit]
    exact hpath.1.nodup_iff.mpr List.nodup_range
  have hv : x ++ e0 :: e1 :: y = q.reverse ++ v :: u :: l := by
    rw [hsplit]
    simp
  rw [edgeRest_cons]
  by_cases h0 : v = e0 ∧ e1 ∉ v :: q
  · obtain rfl := h0.1
    have hu : u = e1 := (List.cons.inj (split_unique hnd hv).2).1.symm
    have hns : (adjList nb.neighborsOf v).drop 0 ≠ [] :=
      List.ne_nil_of_mem ((mem_adjList nb).mpr he)
    rw [if_pos h0, if_neg hns, hu]
    exact List.mem_singleton_self e1
  · rw [if_neg h0]
    by_cases h1 : v = e1 ∧ e0 ∉ v :: q
    · -- before `e1` comes `e0`
      obtain rfl := h1.1
      have hshift : (x ++ [e0]) ++ v :: y = q.reverse ++ v :: u :: l := by
        rw [← hv]
        simp
      have hq := (split_unique (by simpa using hnd) hshift).1
      have hmem : e0 ∈ q.reverse := by
        rw [← hq]
        simp
      exact absurd (List.mem_cons_of_mem v (List.mem_reverse.mp hmem)) h1.2
    · rw [if_neg h1]
      exact List.mem_filter.mpr ⟨(mem_adjList nb).mpr (adj_next hpath), passes_next hpath⟩

/-- **A Hamiltonian cycle through the edge, cut open at `s`, is handled**, and its ends are
adjacent. -/
theorem closing_path (he : G.Adj e0 e1) {s : Nat} (hs : s < n) (hse : s ≠ e1)
    (h : G.HamCycleThrough e0 e1) :
    ∃ l ∈ enum (edgeRest nb.neighborsOf n e0 e1 · 0) (n - 1) [s],
      G.Adj (l.getD 0 0) (l.getD (n - 1) 0) := by
  have hsymm : ∀ a b, G.Adj a b → G.Adj b a := fun _ _ => Graph.Adj.symm
  obtain ⟨c, hc, hce⟩ := h
  obtain ⟨r, hr⟩ := hc.start_edge hsymm hce
  obtain ⟨x, y, hcyc, hx, hy⟩ := hr.start_at (List.mem_range.mpr hs) hse
  obtain ⟨y, rfl⟩ := List.head?_eq_some_iff.mp hy
  obtain ⟨x', hx'⟩ := List.getLast?_eq_some_iff.mp hx
  obtain ⟨hpath, hclose⟩ := (isHamCycle_iff (by omega)).mp hcyc
  have hsplit : [s].reverse ++ (x ++ e1 :: y) = x' ++ e0 :: e1 :: y := by
    rw [List.reverse_singleton, ← List.append_assoc, List.singleton_append, hx']
    simp
  refine ⟨[s].reverse ++ (x ++ e1 :: y),
    mem_enum_of_hamPath ?_ hpath fun p u l he' hle => ?_, hclose⟩
  · rw [List.length_singleton, List.length_range]
    omega
  · obtain ⟨v, q, rfl⟩ := List.exists_cons_of_length_pos (l := p) hle
    exact next_offered nb he (he' ▸ hpath) (hsplit.symm.trans he')

end Turns

/-! ## The searches -/

section Search

variable {G : Graph n} (nb : Listing G) {σ : Type} (leaf : σ → List Nat → Except (Halt Exn) σ)

theorem rep_startAt (j : Nat) : Rep (fun _ _ => True) [j] (startAt emptyState j) where
  depth := rfl
  nodup := List.nodup_singleton j
  slots := by simp [startAt]
  visited x := by
    unfold startAt emptyState
    by_cases hx : x = j <;> simp [hx]
  aux := trivial

/-- One search from the vertex `j`. -/
theorem run_startAt (e0 e1 : Nat) (hn : 2 ≤ n) (j : Nat) :
    ∃ st', Rep (fun _ _ => True) [] st' ∧ ∀ s, Converges
      (fun fuel => (withEdgeLoop nb.neighborsOf n e0 e1 leaf).run fuel (startAt emptyState j) s)
      ((enum (edgeRest nb.neighborsOf n e0 e1 · 0) (n - 1) [j]).foldlM leaf s >>=
        fun s => .ok (st', s)) := by
  have hd : n - 1 = n - 2 + 1 := by omega
  rw [hd]
  exact run_converges (faithful nb leaf) (rep_startAt j) rfl
    (by unfold withEdgeLoop startAt emptyState; simp only; omega) rfl

theorem PropOptimizedDC.search_converges (hn : 2 ≤ n) (s : σ) :
    Converges (PropOptimizedDC.search nb.neighborsOf n e0 e1 leaf s)
      ((enum (edgeRest nb.neighborsOf n e0 e1 · 0) (n - 1) [1]).foldlM leaf s) := by
  obtain ⟨st', -, hrun⟩ := run_startAt nb leaf e0 e1 hn 1
  exact runLoop_of_run (hrun s)

namespace PropNoHamCycleWithEdge

/-- Once the depth is `-1` a turn does nothing. -/
theorem startTurn_idle (st : State Nat Unit) (s : σ) (j : Nat) (hi : st.i = -1) :
    ∃ st', st'.i = -1 ∧
      Converges (fun fuel => startTurn nb.neighborsOf n e0 e1 leaf fuel (st, s) j)
        (.ok (st', s)) := by
  refine ⟨{ startAt st j with
    visited := Function.update (startAt st j).visited ((startAt st j).currentPath 0) false }, hi,
    Converges.succ (Converges.of_eq fun fuel => ?_)⟩
  have hstop : ¬ (withEdgeLoop nb.neighborsOf n e0 e1 leaf).stop < (startAt st j).i := by
    unfold withEdgeLoop startAt
    simp only
    omega
  unfold startTurn
  rw [Loop.run, if_neg hstop, ok_bind]

theorem startTurns_idle (js : List Nat) (st : State Nat Unit) (s : σ) (hi : st.i = -1) :
    Converges (fun fuel => do
      let (_, s) ← js.foldlM (startTurn nb.neighborsOf n e0 e1 leaf fuel) (st, s)
      .ok s) (Except.ok s) := by
  induction js generalizing st with
  | nil => exact Converges.const (Except.ok s)
  | cons j js ih =>
    obtain ⟨st', hi', hturn⟩ := startTurn_idle nb leaf st s j hi
    simp only [List.foldlM_cons, bind_assoc]
    exact hturn.bind_ok (ih st' hi')

theorem search_converges (hn : 2 ≤ n) (s : σ) :
    Converges (PropNoHamCycleWithEdge.search nb.neighborsOf n e0 e1 leaf s)
      ((enum (edgeRest nb.neighborsOf n e0 e1 · 0) (n - 1) [0]).foldlM leaf s) := by
  obtain ⟨st', hst', hrun⟩ := run_startAt nb leaf e0 e1 hn 0
  have hfirst : Converges (fun fuel => startTurn nb.neighborsOf n e0 e1 leaf fuel (emptyState, s) 0)
      ((enum (edgeRest nb.neighborsOf n e0 e1 · 0) (n - 1) [0]).foldlM leaf s >>= fun s => .ok
        ({ st' with visited := Function.update st'.visited (st'.currentPath 0) false }, s)) := by
    have h := (hrun s).bind (g := fun r _ => .ok ({ r.1 with
      visited := Function.update r.1.visited (r.1.currentPath 0) false }, r.2))
      fun _ _ => Converges.const _
    rw [bind_assoc] at h
    exact h
  unfold PropNoHamCycleWithEdge.search
  rw [range_eq_cons (by omega)]
  simp only [List.foldlM_cons, bind_assoc]
  cases hs : (enum (edgeRest nb.neighborsOf n e0 e1 · 0) (n - 1) [0]).foldlM leaf s with
  | error e =>
    rw [hs] at hfirst
    exact hfirst.bind_error
  | ok s' =>
    -- the first turn leaves the depth at `-1`
    rw [hs] at hfirst
    refine hfirst.bind_ok (startTurns_idle nb leaf _ _ s' ?_)
    exact hst'.depth

end PropNoHamCycleWithEdge

end Search

end SymBreak.Uhg
