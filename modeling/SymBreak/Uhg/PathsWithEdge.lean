import SymBreak.Uhg.Paths
import Mathlib.Data.List.Infix

/-!
# The simple paths that use an edge

Model of `Utils.pathsWithEdge` and of its `pathsIter` (`Utils.java:42-95`): the search of
`Utils.paths` that goes from one end of the edge straight to the other, and adds a path when both
ends are visited.

Results:
* `filter_enum`: below a path on which an end of the edge is followed by the other one, or is the
  last vertex, the paths found that visit both ends are the paths that use the edge;
* **`pathsWithEdge_eq`**: `pathsWithEdge` is `paths`, filtered to the paths that use the edge.
-/

namespace SymBreak.Uhg

open Hamilton Backtrack PathSearch Graph

namespace Utils

variable {n : Nat} {σ : Type}

/-! ## Model -/

/-- From an end of the edge to the other one, with the index at `n + 1` afterwards. -/
def goTo (graph : Graph n) (visited : Nat → Bool) (v u : Nat) : Choice Nat :=
  if graph.adj v u && !visited u then .take u (n + 1) else .stop (n + 1)

/-- What the loop does at a vertex `u` (`Utils.java:65-82`). -/
def chooseOnEdge (graph : Graph n) (e0 e1 : Nat) (visited : Nat → Bool) (v k u : Nat) :
    Choice Nat :=
  if v = e0 ∧ visited e1 = false then goTo graph visited v e1
  else if v = e1 ∧ visited e0 = false then goTo graph visited v e0
  else pick (fun u => graph.adj v u && !visited u) k u

/-- The loop of `pathsIter` with an edge (`Utils.java:59-92`). -/
def edgeIterLoop (graph : Graph n) (length e0 e1 : Nat)
    (leaf : σ → List Nat → Except (Halt Exn) σ) : Loop Nat Unit σ Exn where
  stop := -1
  last := length - 1
  leaf
  scan st v := innerLoop (chooseOnEdge graph e0 e1 st.visited v)
    ((List.range n).drop (st.inds v)) (st.inds v)
  push _ _ := ()
  pop _ _ := ()

/-- `if (currentPath[0] < v && visited[e[0]] && visited[e[1]]) allPaths.add(currentPath.clone());`
-/
def addVisited (length e0 e1 : Nat) (allPaths : List (List Nat)) (st : State Nat Unit) :
    Except (Halt Exn) (List (List Nat)) :=
  .ok (if decide (st.currentPath 0 < st.currentPath st.i.toNat) && st.visited e0 && st.visited e1
    then allPaths ++ [(List.range length).map st.currentPath] else allPaths)

/-- `pathsIter` with an edge (`Utils.java:50-95`). -/
def pathsIterWithEdge (graph : Graph n) (v length e0 e1 : Nat) (allPaths : List (List Nat))
    (fuel : Nat) : Except (Halt Exn) (List (List Nat)) := do
  let (_, allPaths) ← (edgeIterLoop graph length e0 e1 record).runWith (addVisited length e0 e1)
    fuel (startAt emptyState v) allPaths
  .ok allPaths

/-- `pathsWithEdge` (`Utils.java:42-48`) -/
def pathsWithEdge (graph : Graph n) (length e0 e1 fuel : Nat) :
    Except (Halt Exn) (List (List Nat)) :=
  (List.range (n - 1)).foldlM (fun all i => pathsIterWithEdge graph i length e0 e1 all fuel) []

/-! ## Turns of the loop -/

variable {G : Graph n} {length e0 e1 : Nat}

/-- What the loop still offers at a path, from index `k` on. -/
def edgeOffers (G : Graph n) (e0 e1 : Nat) : List Nat → Nat → List Nat
  | [], _ => []
  | v :: p, k =>
    if v = e0 ∧ e1 ∉ v :: p then if (List.range n).drop k = [] then [] else [e1]
    else if v = e1 ∧ e0 ∉ v :: p then if (List.range n).drop k = [] then [] else [e0]
    else ((List.range n).drop k).filter fun u => G.adj v u && !onPath (v :: p) u

theorem goTo_eq {visited : Nat → Bool} {v u : Nat} (hadj : G.Adj v u) (hu : visited u = false) :
    goTo G visited v u = .take u (n + 1) :=
  if_pos (by rw [show G.adj v u = true from hadj, hu]; rfl)

/-- **A turn of the loop depends on the path only.** -/
theorem edgeIterLoop_faithful (he : G.Adj e0 e1) (leaf : σ → List Nat → Except (Halt Exn) σ) :
    Faithful (edgeIterLoop G length e0 e1 leaf) (fun _ _ => True) (edgeOffers G e0 e1) where
  scan st v p h _ _ := by
    have hmark : ∀ x, st.visited x = false ↔ x ∉ v :: p := fun x => by
      rw [visited_eq h, onPath_eq_false]
    have hend : (List.range n).drop (n + 1) = [] := List.drop_eq_nil_of_le (by simp)
    unfold edgeIterLoop
    simp only [edgeOffers]
    generalize hl : (List.range n).drop (st.inds v) = l
    by_cases h0 : v = e0 ∧ e1 ∉ v :: p
    · have h0' : v = e0 ∧ st.visited e1 = false := ⟨h0.1, (hmark e1).mpr h0.2⟩
      simp only [if_pos h0]
      have hc : ∀ k x, chooseOnEdge G e0 e1 st.visited v k x = .take e1 (n + 1) :=
        fun k x => (if_pos h0').trans (goTo_eq (h0.1 ▸ he) h0'.2)
      rw [innerLoop_take hc]
      by_cases hnil : l = []
      · exact Or.inr ⟨_, if_pos hnil, if_pos hnil⟩
      · exact Or.inl ⟨e1, n + 1, if_neg hnil, h0.2, by rw [if_neg hnil, if_pos hend]⟩
    · have h0' : ¬ (v = e0 ∧ st.visited e1 = false) := by rwa [hmark]
      simp only [if_neg h0]
      by_cases h1 : v = e1 ∧ e0 ∉ v :: p
      · have h1' : v = e1 ∧ st.visited e0 = false := ⟨h1.1, (hmark e0).mpr h1.2⟩
        simp only [if_pos h1]
        have hc : ∀ k x, chooseOnEdge G e0 e1 st.visited v k x = .take e0 (n + 1) := fun k x =>
          (if_neg h0').trans ((if_pos h1').trans (goTo_eq (h1.1 ▸ he.symm) h1'.2))
        rw [innerLoop_take hc]
        by_cases hnil : l = []
        · exact Or.inr ⟨_, if_pos hnil, if_pos hnil⟩
        · exact Or.inl ⟨e0, n + 1, if_neg hnil, h1.2, by rw [if_neg hnil, if_pos hend]⟩
      · have h1' : ¬ (v = e1 ∧ st.visited e0 = false) := by rwa [hmark]
        have hc : chooseOnEdge G e0 e1 st.visited v =
            pick fun u => G.adj v u && !onPath (v :: p) u := by
          funext k x
          rw [← visited_eq h]
          exact (if_neg h0').trans (if_neg h1')
        simp only [if_neg h1, hc]
        rcases innerLoop_pick (fun u => G.adj v u && !onPath (v :: p) u) (List.range n) l
          (st.inds v) hl with ⟨u, k, hs, hu, hrest⟩ | ⟨k, hs, hrest⟩
        · rw [Bool.and_eq_true, Bool.not_eq_true', onPath_eq_false] at hu
          exact Or.inl ⟨u, k, hs, hu.2, hrest⟩
        · exact Or.inr ⟨k, hs, hrest⟩
  push _ _ _ _ _ _ _ _ := trivial
  pop _ _ _ _ _ _ := trivial
  drop _ _ _ _ _ _ := trivial

/-! ## The paths found -/

/-- Both ends of the edge are on the path. -/
def visitsBoth (e0 e1 : Nat) (l : List Nat) : Bool := decide (e0 ∈ l) && decide (e1 ∈ l)

/-- The ends of the edge are consecutive on the path. -/
def usesEdge (e0 e1 : Nat) (l : List Nat) : Bool :=
  decide ([e0, e1] <:+: l) || decide ([e1, e0] <:+: l)

theorem usesEdge_iff {l : List Nat} :
    usesEdge e0 e1 l = true ↔ [e0, e1] <:+: l ∨ [e1, e0] <:+: l := by
  rw [usesEdge, Bool.or_eq_true, decide_eq_true_iff, decide_eq_true_iff]

theorem visitsBoth_iff {l : List Nat} : visitsBoth e0 e1 l = true ↔ e0 ∈ l ∧ e1 ∈ l := by
  rw [visitsBoth, Bool.and_eq_true, decide_eq_true_iff, decide_eq_true_iff]

theorem visitsBoth_of_usesEdge {l : List Nat} (h : usesEdge e0 e1 l = true) :
    visitsBoth e0 e1 l = true := by
  rw [visitsBoth_iff]
  rcases usesEdge_iff.mp h with h | h
  · exact ⟨h.subset (by simp), h.subset (by simp)⟩
  · exact ⟨h.subset (by simp), h.subset (by simp)⟩

/-- A stack on which an end of the edge stands alone only at the top. -/
structure OnEdge (e0 e1 : Nat) (v : Nat) (p : List Nat) : Prop where
  both : e0 ∈ v :: p → e1 ∈ v :: p → usesEdge e0 e1 (v :: p).reverse = true
  first : e0 ∈ v :: p → e1 ∉ v :: p → v = e0
  second : e1 ∈ v :: p → e0 ∉ v :: p → v = e1

theorem onEdge_single (hne : e0 ≠ e1) (v : Nat) : OnEdge e0 e1 v [] where
  both h0 h1 := absurd ((List.mem_singleton.mp h0).trans (List.mem_singleton.mp h1).symm) hne
  first h _ := (List.mem_singleton.mp h).symm
  second h _ := (List.mem_singleton.mp h).symm

/-- From one end straight to the other. -/
theorem onEdge_step {a b : Nat} {p : List Nat} (hab : (a = e0 ∧ b = e1) ∨ (a = e1 ∧ b = e0)) :
    OnEdge e0 e1 b (a :: p) := by
  have hinfix : [a, b] <:+: (b :: a :: p).reverse := ⟨p.reverse, [], by simp⟩
  have ha : a ∈ b :: a :: p := by simp
  have hb : b ∈ b :: a :: p := by simp
  rcases hab with ⟨rfl, rfl⟩ | ⟨rfl, rfl⟩
  · exact ⟨fun _ _ => usesEdge_iff.mpr (Or.inl hinfix), fun _ h => absurd hb h,
      fun _ h => absurd ha h⟩
  · exact ⟨fun _ _ => usesEdge_iff.mpr (Or.inr hinfix), fun _ h => absurd ha h,
      fun _ h => absurd hb h⟩

/-- Any other step. -/
theorem OnEdge.push (hne : e0 ≠ e1) {v u : Nat} {p : List Nat} (h : OnEdge e0 e1 v p)
    (h0 : ¬ (v = e0 ∧ e1 ∉ v :: p)) (h1 : ¬ (v = e1 ∧ e0 ∉ v :: p)) :
    OnEdge e0 e1 u (v :: p) := by
  -- an end of the edge that is on the path already has the other one next to it
  have hold0 : e0 ∈ v :: p → e1 ∈ v :: p := fun hm => by
    by_contra hn
    exact h0 ⟨h.first hm hn, hn⟩
  have hold1 : e1 ∈ v :: p → e0 ∈ v :: p := fun hm => by
    by_contra hn
    exact h1 ⟨h.second hm hn, hn⟩
  refine ⟨fun hm0 hm1 => ?_, fun hm hn => ?_, fun hm hn => ?_⟩
  · have hold : e0 ∈ v :: p ∧ e1 ∈ v :: p := by
      rcases List.mem_cons.mp hm0 with rfl | hm0
      · have hm := (List.mem_cons.mp hm1).resolve_left hne.symm
        exact ⟨hold1 hm, hm⟩
      · exact ⟨hm0, hold0 hm0⟩
    have huses := h.both hold.1 hold.2
    rw [usesEdge_iff] at huses ⊢
    rw [List.reverse_cons]
    exact huses.imp (·.trans (List.prefix_append _ _).isInfix)
      (·.trans (List.prefix_append _ _).isInfix)
  · refine ((List.mem_cons.mp hm).resolve_right fun hm => hn ?_).symm
    exact List.mem_cons_of_mem u (hold0 hm)
  · refine ((List.mem_cons.mp hm).resolve_right fun hm => hn ?_).symm
    exact List.mem_cons_of_mem u (hold1 hm)

/-- A path that leaves one end of the edge for another vertex does not use it. -/
theorem not_uses_of_leave {a b u : Nat} {p l : List Nat} (hl : G.IsPath l)
    (hpre : (u :: a :: p).reverse <+: l) (hu : u ≠ b) (hb : b ∉ p) :
    ¬ ([a, b] <:+: l ∨ [b, a] <:+: l) := by
  obtain ⟨t, rfl⟩ := hpre
  have hsplit : (u :: a :: p).reverse ++ t = p.reverse ++ a :: (u :: t) := by simp
  rw [hsplit] at hl ⊢
  rintro (⟨x, y, hxy⟩ | ⟨x, y, hxy⟩)
  · have he : p.reverse ++ a :: (u :: t) = x ++ a :: (b :: y) := by rw [← hxy]; simp
    exact hu (List.cons.inj (split_unique hl.2 he).2).1
  · have he : p.reverse ++ a :: (u :: t) = (x ++ [b]) ++ a :: y := by rw [← hxy]; simp
    have hp := (split_unique hl.2 he).1
    exact hb (List.mem_reverse.mp (hp ▸ by simp))

/-- Only one of the members contributes. -/
theorem flatMap_eq_of_unique {α β : Type} {l : List α} {f : α → List β} {a : α} (hl : l.Nodup)
    (ha : a ∈ l) (hf : ∀ b ∈ l, b ≠ a → f b = []) : l.flatMap f = f a := by
  obtain ⟨s, t, rfl⟩ := List.append_of_mem ha
  have hnil : ∀ r : List α, (∀ b ∈ r, b ∈ s ++ a :: t ∧ b ≠ a) → r.flatMap f = [] := fun r hr =>
    List.flatMap_eq_nil_iff.mpr fun b hb => hf b (hr b hb).1 (hr b hb).2
  have hmem := (List.nodup_cons.mp (List.nodup_middle.mp hl)).1
  rw [List.mem_append, not_or] at hmem
  rw [List.flatMap_append, List.flatMap_cons,
    hnil s fun b hb => ⟨by simp [hb], fun h => hmem.1 (h ▸ hb)⟩,
    hnil t fun b hb => ⟨by simp [hb], fun h => hmem.2 (h ▸ hb)⟩]
  simp

section FilterEnum

variable {d v : Nat} {p : List Nat}

theorem isPath_push {u : Nat} (h : G.IsPath (v :: p).reverse) (hu : u ∈ nextOn G (v :: p)) :
    G.IsPath (u :: v :: p).reverse := by
  obtain ⟨hadj, hnot, -⟩ := mem_nextOn.mp hu
  refine ⟨?_, List.nodup_reverse.mpr (List.nodup_cons.mpr ⟨hnot, List.nodup_reverse.mp h.2⟩)⟩
  rw [List.isChain_reverse]
  exact List.isChain_cons_cons.mpr ⟨hadj, List.isChain_reverse.mp h.1⟩

theorem lt_push {u : Nat} (h : ∀ x ∈ v :: p, x < n) (hu : u ∈ nextOn G (v :: p)) :
    ∀ x ∈ u :: v :: p, x < n :=
  List.forall_mem_cons.mpr ⟨List.mem_range.mp (mem_nextOn.mp hu).2.2, h⟩

/-- At one end of the edge, all paths that use it go on at the other. -/
theorem flatMap_forced {a b : Nat} (hab : (a = e0 ∧ b = e1) ∨ (a = e1 ∧ b = e0))
    (hadj : G.Adj a b) (hb : b ∉ a :: p) (hp : G.IsPath (a :: p).reverse)
    (hlt : ∀ x ∈ a :: p, x < n) :
    ((nextOn G (a :: p)).flatMap fun u => (enum (nextOn G) d (u :: a :: p)).filter
      (usesEdge e0 e1)) = (enum (nextOn G) d (b :: a :: p)).filter (usesEdge e0 e1) := by
  refine flatMap_eq_of_unique (nodup_nextOn _)
    (mem_nextOn.mpr ⟨hadj, hb, List.mem_range.mpr (G.lt_right hadj)⟩) fun u hu hne => ?_
  refine List.filter_eq_nil_iff.mpr fun l hl huses => ?_
  obtain ⟨hpath, hpre, -⟩ := (mem_enum_nextOn (isPath_push hp hu) (lt_push hlt hu)).mp hl
  refine not_uses_of_leave hpath hpre hne (fun h => hb (List.mem_cons_of_mem a h)) ?_
  rcases hab with ⟨rfl, rfl⟩ | ⟨rfl, rfl⟩
  · exact usesEdge_iff.mp huses
  · exact (usesEdge_iff.mp huses).symm

/-- **The paths found that visit both ends are the paths that use the edge.** -/
theorem filter_enum (he : G.Adj e0 e1) : ∀ (d v : Nat) (p : List Nat), G.IsPath (v :: p).reverse →
    (∀ x ∈ v :: p, x < n) → OnEdge e0 e1 v p →
    (enum (edgeOffers G e0 e1 · 0) d (v :: p)).filter (visitsBoth e0 e1) =
      (enum (nextOn G) d (v :: p)).filter (usesEdge e0 e1) := by
  intro d
  induction d with
  | zero =>
    intro v p _ _ hon
    have hiff : visitsBoth e0 e1 (v :: p).reverse = usesEdge e0 e1 (v :: p).reverse := by
      rw [Bool.eq_iff_iff]
      refine ⟨fun h => ?_, visitsBoth_of_usesEdge⟩
      rw [visitsBoth_iff, List.mem_reverse, List.mem_reverse] at h
      exact hon.both h.1 h.2
    simp only [enum, List.filter_cons, hiff]
    rfl
  | succ d ih =>
    intro v p hp hlt hon
    have hnil : (List.range n).drop 0 ≠ [] := by
      rw [List.drop_zero]
      exact List.ne_nil_of_mem (List.mem_range.mpr (G.bound e0 e1 he))
    rw [enum, enum, List.filter_flatMap, List.filter_flatMap, edgeOffers]
    simp only [if_neg hnil]
    by_cases h0 : v = e0 ∧ e1 ∉ v :: p
    · obtain ⟨rfl, hb⟩ := h0
      have hu := mem_nextOn.mpr ⟨he, hb, List.mem_range.mpr (G.lt_right he)⟩
      rw [if_pos ⟨rfl, hb⟩, List.flatMap_singleton,
        ih _ _ (isPath_push hp hu) (lt_push hlt hu) (onEdge_step (Or.inl ⟨rfl, rfl⟩)),
        flatMap_forced (Or.inl ⟨rfl, rfl⟩) he hb hp hlt]
    · by_cases h1 : v = e1 ∧ e0 ∉ v :: p
      · obtain ⟨rfl, hb⟩ := h1
        have hu := mem_nextOn.mpr ⟨he.symm, hb, List.mem_range.mpr (G.bound _ _ he)⟩
        rw [if_neg h0, if_pos ⟨rfl, hb⟩, List.flatMap_singleton,
          ih _ _ (isPath_push hp hu) (lt_push hlt hu) (onEdge_step (Or.inr ⟨rfl, rfl⟩)),
          flatMap_forced (Or.inr ⟨rfl, rfl⟩) he.symm hb hp hlt]
      · rw [if_neg h0, if_neg h1]
        refine List.flatMap_congr fun u hu => ?_
        have hu' : u ∈ nextOn G (v :: p) := hu
        exact ih u (v :: p) (isPath_push hp hu') (lt_push hlt hu')
          (hon.push (G.ne_of_adj he) h0 h1)

end FilterEnum

/-! ## The result -/

/-- The paths that the search from `v` goes through. -/
def edgePaths (G : Graph n) (length e0 e1 v : Nat) : List (List Nat) :=
  enum (edgeOffers G e0 e1 · 0) (length - 1) [v]

/-- What is read from the arrays at a full path. -/
theorem addVisited_eq {AuxOk : List Nat → Unit → Prop} (hlen : 2 ≤ length) {path : List Nat}
    {st : State Nat Unit} (h : Rep AuxOk path st) (hi : st.i = (length : Int) - 1)
    (allPaths : List (List Nat)) : addVisited length e0 e1 allPaths st =
      recordIf (fun l => ascends length l && visitsBoth e0 e1 l) allPaths path.reverse := by
  have hlength : path.length = length := by have := h.depth; omega
  have hpath : (List.range length).map st.currentPath = path.reverse := by
    rw [← hlength, h.slots]
  have hslot : ∀ j, j < length → path.reverse.getD j 0 = st.currentPath j := fun j hj => by
    rw [← hpath, List.getD_eq_getElem _ _ (by simpa using hj), List.getElem_map,
      List.getElem_range]
  have hvisited : ∀ x, decide (x ∈ path.reverse) = st.visited x := fun x => by
    rw [Bool.eq_iff_iff, decide_eq_true_iff, List.mem_reverse, h.visited]
  unfold addVisited recordIf ascends visitsBoth
  simp only [hpath, hslot 0 (by omega), hslot (length - 1) (by omega), hvisited, Bool.and_assoc,
    show st.i.toNat = length - 1 by omega]

/-- What `pathsIter` with an edge adds. -/
theorem pathsIterWithEdge_converges (he : G.Adj e0 e1) (hlen : 2 ≤ length) (v : Nat)
    (allPaths : List (List Nat)) : Converges (pathsIterWithEdge G v length e0 e1 allPaths)
      (.ok (allPaths ++ (edgePaths G length e0 e1 v).filter fun l =>
        ascends length l && visitsBoth e0 e1 l)) := by
  have hd : length - 1 = length - 2 + 1 := by omega
  let accept := fun l => ascends length l && visitsBoth e0 e1 l
  -- the same loop, handling the path itself
  have hwith : ∀ fuel, (edgeIterLoop G length e0 e1 record).runWith (addVisited length e0 e1) fuel
      (startAt emptyState v) allPaths =
        (edgeIterLoop G length e0 e1 (recordIf accept)).run fuel (startAt emptyState v) allPaths :=
    fun fuel => runWith_eq (edgeIterLoop_faithful he record) (by simp [edgeIterLoop])
      (by simp only [edgeIterLoop]; omega) (fun path st s h hi => addVisited_eq hlen h hi s)
      (rep_startAt v) (by simp only [edgeIterLoop, List.length_singleton]; omega) fuel allPaths
  have hL : Faithful (edgeIterLoop G length e0 e1 (recordIf accept)) _ _ :=
    edgeIterLoop_faithful he _
  obtain ⟨st', -, hrun⟩ := run_converges hL (d := length - 2) (rep_startAt v) rfl
    (by simp only [edgeIterLoop, startAt, emptyState]; omega) rfl
  have hloop := hrun allPaths
  rw [← hd, show (edgeIterLoop G length e0 e1 (recordIf accept)).leaf = recordIf accept from rfl,
    foldlM_recordIf] at hloop
  refine Converges.congr (fun fuel => ?_) (runLoop_of_run hloop)
  unfold pathsIterWithEdge runLoop
  rw [hwith]

/-- **From a start vertex, the search adds the paths that use the edge.** -/
theorem filter_edgePaths (he : G.Adj e0 e1) {v : Nat} (hv : v < n) :
    ((edgePaths G length e0 e1 v).filter fun l => ascends length l && visitsBoth e0 e1 l) =
      ((startPaths G length v).filter (ascends length)).filter (usesEdge e0 e1) := by
  have hsingle : G.IsPath [v].reverse := ⟨by simp, List.nodup_singleton v⟩
  have h := filter_enum he (length - 1) v [] hsingle (by simpa using hv)
    (onEdge_single (G.ne_of_adj he) v)
  calc (edgePaths G length e0 e1 v).filter (fun l => ascends length l && visitsBoth e0 e1 l)
      = ((edgePaths G length e0 e1 v).filter (visitsBoth e0 e1)).filter (ascends length) :=
        List.filter_filter.symm
    _ = ((startPaths G length v).filter (usesEdge e0 e1)).filter (ascends length) :=
        congrArg (List.filter (ascends length)) h
    _ = _ := List.filter_comm _ _ _

/-- The start vertices one after another. -/
theorem pathsWithEdge_converges (he : G.Adj e0 e1) (hlen : 2 ≤ length) :
    Converges (pathsWithEdge G length e0 e1) (.ok ((List.range (n - 1)).flatMap fun v =>
      (edgePaths G length e0 e1 v).filter fun l => ascends length l && visitsBoth e0 e1 l)) :=
  foldlM_append (pathsIterWithEdge_converges he hlen) _ []

/-- **`pathsWithEdge` is `paths`, filtered** to the paths that use the edge. -/
theorem pathsWithEdge_eq (he : G.Adj e0 e1) (hlen : 2 ≤ length) :
    ∃ ps, Converges (paths G length) (.ok ps) ∧
      Converges (pathsWithEdge G length e0 e1) (.ok (ps.filter (usesEdge e0 e1))) := by
  refine ⟨_, paths_converges hlen, ?_⟩
  rw [List.filter_flatMap]
  have hturns : ((List.range (n - 1)).flatMap fun v => (edgePaths G length e0 e1 v).filter
        fun l => ascends length l && visitsBoth e0 e1 l) =
      (List.range (n - 1)).flatMap fun v =>
        ((startPaths G length v).filter (ascends length)).filter (usesEdge e0 e1) :=
    List.flatMap_congr fun v hv => filter_edgePaths he (by rw [List.mem_range] at hv; omega)
  rw [← hturns]
  exact pathsWithEdge_converges he hlen

/-- On the complete graph on four vertices. -/
theorem pathsWithEdge_eq_four : ∃ ps, Converges (paths (Graph.complete 4) 3) (.ok ps) ∧
    Converges (pathsWithEdge (Graph.complete 4) 3 0 1) (.ok (ps.filter (usesEdge 0 1))) :=
  pathsWithEdge_eq (show (Graph.complete 4).adj 0 1 = true by decide) (by decide)

end Utils

end SymBreak.Uhg
