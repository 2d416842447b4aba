import SymBreak.Lib.Resume
import SymBreak.Uhg.PropNoCycle

/-!
# The simple paths of a graph

Model of `Utils.paths`, its `pathsIter`, and `Utils.pathsFromEdge` (`Utils.java:33-39`,
`Utils.java:97-133`, `Utils.java:258-297`), over the loops of `Lib.Backtrack`. A path that is handed
out is a clone, hence a value.

Results:
* `mem_startPaths`, `nodup_startPaths`: the search from a vertex goes through the simple paths that
  begin with it, each once;
* **`paths_exact`**: `paths` lists every simple path once, in the direction from its smaller end;
* **`pathsFromEdge_exact_iff`**: `pathsFromEdge` lists the simple paths that begin with an edge,
  except for paths with two vertices: the loop is left only after a turn that begins above depth
  `0`, so there it also lists the paths to all other neighbours.
-/

namespace SymBreak

open Hamilton Backtrack PathSearch

namespace Graph

variable {n : Nat} {G : Graph n}

/-- `l` visits some vertices once, along edges. -/
def IsPath (G : Graph n) (l : List Nat) : Prop := l.IsChain G.Adj ∧ l.Nodup

theorem IsPath.reverse {l : List Nat} (h : G.IsPath l) : G.IsPath l.reverse := by
  refine ⟨?_, List.nodup_reverse.mpr h.2⟩
  rw [List.isChain_reverse]
  exact h.1.imp fun a b hab => hab.symm

/-- A path of at least two vertices visits vertices of the graph. -/
theorem IsPath.lt_of_mem {l : List Nat} (h : G.IsPath l) (hlen : 2 ≤ l.length) {x : Nat}
    (hx : x ∈ l) : x < n := by
  obtain ⟨y, -, hy⟩ := chain_neighbor (fun _ _ => Graph.Adj.symm) h.1 hlen hx
  exact G.bound x y hy

theorem IsPath.getD_lt {l : List Nat} (h : G.IsPath l) (hlen : 2 ≤ l.length) {i : Nat}
    (hi : i < l.length) : l.getD i 0 < n := by
  rw [List.getD_eq_getElem _ _ hi]
  exact h.lt_of_mem hlen (List.getElem_mem hi)

/-- The ends of a path of at least two vertices are two vertices. -/
theorem IsPath.ends_ne {l : List Nat} (h : G.IsPath l) (hlen : 2 ≤ l.length) :
    l.getD 0 0 ≠ l.getD (l.length - 1) 0 := by
  rw [List.getD_eq_getElem _ _ (show 0 < l.length by omega),
    List.getD_eq_getElem _ _ (show l.length - 1 < l.length by omega), Ne, h.2.getElem_inj_iff]
  omega

end Graph

namespace Uhg

open Graph

variable {n : Nat} {σ : Type}

/-! ## Model -/

namespace Utils

/-- The loop of `pathsIter` (`Utils.java:107-132`). -/
def iterLoop (graph : Graph n) (length : Nat) (leaf : σ → List Nat → Except (Halt Exn) σ) :
    Loop Nat Unit σ Exn :=
  { pathsLoop graph length leaf with stop := -1 }

/-- `currentPath[0] < v` -/
def ascends (length : Nat) (currentPath : List Nat) : Bool :=
  decide (currentPath.getD 0 0 < currentPath.getD (length - 1) 0)

/-- `pathsIter` (`Utils.java:97-133`) -/
def pathsIter (graph : Graph n) (v length : Nat) (allPaths : List (List Nat)) (fuel : Nat) :
    Except (Halt Exn) (List (List Nat)) :=
  runLoop (iterLoop graph length (recordIf (ascends length))) (startAt emptyState v) allPaths fuel

/-- `paths` (`Utils.java:33-39`) -/
def paths (graph : Graph n) (length fuel : Nat) : Except (Halt Exn) (List (List Nat)) :=
  (List.range (n - 1)).foldlM (fun all i => pathsIter graph i length all fuel) []

/-! ## The search from a vertex -/

variable (G : Graph n) (length v : Nat)

/-- The vertices offered after a path. -/
def nextOn (path : List Nat) : List Nat :=
  (neighborsAt (fun _ => List.range n) path).filter fun u =>
    G.adj (path.headD 0) u && !onPath path u

/-- The paths that the search from `v` goes through. -/
def startPaths : List (List Nat) := enum (nextOn G) (length - 1) [v]

variable {G length v}

theorem mem_nextOn {u w : Nat} {p : List Nat} :
    u ∈ nextOn G (w :: p) ↔ G.Adj w u ∧ u ∉ w :: p ∧ u ∈ List.range n := by
  unfold nextOn neighborsAt
  rw [List.mem_filter, Bool.and_eq_true, Bool.not_eq_true', onPath_eq_false]
  exact ⟨fun h => ⟨h.2.1, h.2.2, h.1⟩, fun h => ⟨h.2.2, h.1, h.2.1⟩⟩

theorem nodup_nextOn (path : List Nat) : (nextOn G path).Nodup :=
  (nodup_neighborsAt (fun _ => List.nodup_range) path).filter _

theorem iterLoop_faithful (leaf : σ → List Nat → Except (Halt Exn) σ) :
    Faithful (iterLoop G length leaf) (fun _ _ => True)
    fun path i => ((neighborsAt (fun _ => List.range n) path).drop i).filter
      fun u => G.adj (path.headD 0) u && !onPath path u :=
  faithful_of_scan (fun _ => List.range n) (fun visited _ v u => G.adj v u && !visited u)
    (fun _ _ _ _ h => (Bool.not_eq_true' _).mp (Bool.and_elim_right h)) fun _ _ => rfl

/-- **The search from a vertex ends**, and handles its paths. -/
theorem iterLoop_converges (leaf : σ → List Nat → Except (Halt Exn) σ) (hlen : 2 ≤ length)
    (v : Nat) (s : σ) : ∃ st', Converges
      (fun fuel => (iterLoop G length leaf).run fuel (startAt emptyState v) s)
      ((startPaths G length v).foldlM leaf s >>= fun s => .ok (st', s)) := by
  have hd : length - 1 = length - 2 + 1 := by omega
  have hL : Faithful (iterLoop G length leaf) (fun _ _ => True) _ := iterLoop_faithful leaf
  obtain ⟨st', -, hrun⟩ := run_converges hL (d := length - 2) (rep_startAt v) rfl
    (by simp only [iterLoop, pathsLoop, startAt, emptyState]; omega) rfl
  refine ⟨st', ?_⟩
  unfold startPaths
  rw [hd]
  exact hrun s

theorem pathsIter_converges (hlen : 2 ≤ length) (v : Nat) (allPaths : List (List Nat)) :
    Converges (pathsIter G v length allPaths)
      (.ok (allPaths ++ (startPaths G length v).filter (ascends length))) := by
  obtain ⟨st', hrun⟩ := iterLoop_converges (G := G) (recordIf (ascends length)) hlen v allPaths
  rw [foldlM_recordIf] at hrun
  exact runLoop_of_run hrun

/-- **The paths below one.** -/
theorem mem_enum_nextOn {d w : Nat} {p l : List Nat} (hp : G.IsPath (w :: p).reverse)
    (hlt : ∀ x ∈ w :: p, x < n) : l ∈ enum (nextOn G) d (w :: p) ↔
      G.IsPath l ∧ (w :: p).reverse <+: l ∧ l.length = (w :: p).length + d := by
  rw [mem_enum_of_neighbors (fun _ _ _ => mem_nextOn) hp.1 (List.nodup_reverse.mp hp.2)
    fun x hx => List.mem_range.mpr (hlt x hx)]
  refine and_congr_left fun ⟨hpre, hlen⟩ => ⟨fun h => ⟨h.1, h.2.1⟩, fun h => ⟨h.1, h.2, ?_⟩⟩
  intro x hx
  rw [List.mem_range]
  rcases Nat.lt_or_ge 1 l.length with h2 | h1
  · exact h.lt_of_mem h2 hx
  · -- the path is the single vertex `w`
    have hle := hpre.length_le
    rw [List.length_reverse] at hle
    rw [List.length_cons] at hlen hle
    have he := hpre.eq_of_length (by rw [List.length_reverse, List.length_cons]; omega)
    rw [← he, List.mem_reverse] at hx
    exact hlt x hx

/-- The paths that begin with `v`. -/
theorem mem_startPaths (hlen : 1 ≤ length) (hv : v < n) {l : List Nat} :
    l ∈ startPaths G length v ↔ G.IsPath l ∧ l.length = length ∧ l.head? = some v := by
  have hsingle : G.IsPath [v].reverse := ⟨by simp, List.nodup_singleton v⟩
  unfold startPaths
  rw [mem_enum_nextOn hsingle (by simpa using hv),
    show [v].length + (length - 1) = length by rw [List.length_singleton]; omega]
  refine and_congr_right fun _ => ⟨?_, ?_⟩
  · rintro ⟨⟨t, rfl⟩, h⟩
    exact ⟨h, rfl⟩
  · rintro ⟨h, hhead⟩
    obtain ⟨t, rfl⟩ := List.head?_eq_some_iff.mp hhead
    exact ⟨List.prefix_append [v] t, h⟩

theorem nodup_startPaths : (startPaths G length v).Nodup := nodup_enum nodup_nextOn _ _

/-! ## All paths -/

/-- The simple paths with `length` vertices whose first vertex is smaller than the last. -/
def AscendingPath (G : Graph n) (length : Nat) (l : List Nat) : Prop :=
  G.IsPath l ∧ l.length = length ∧ l.getD 0 0 < l.getD (length - 1) 0

theorem getD_reverse {l : List Nat} (hl : l ≠ []) :
    l.reverse.getD 0 0 = l.getD (l.length - 1) 0 ∧
      l.reverse.getD (l.length - 1) 0 = l.getD 0 0 := by
  have hpos := List.length_pos_of_ne_nil hl
  have hlen : l.reverse.length = l.length := List.length_reverse
  rw [List.getD_eq_getElem _ _ (show 0 < l.reverse.length by omega),
    List.getD_eq_getElem _ _ (show l.length - 1 < l.reverse.length by omega),
    List.getD_eq_getElem _ _ hpos, List.getD_eq_getElem _ _ (show l.length - 1 < l.length by omega)]
  simp only [List.getElem_reverse]
  exact ⟨by simp, by congr 1; omega⟩

/-- A path is listed in one of its two directions. -/
theorem ascendingPath_reverse {l : List Nat} (h : G.IsPath l) (hlen : l.length = length)
    (h2 : 2 ≤ length) : AscendingPath G length l ↔ ¬ AscendingPath G length l.reverse := by
  subst hlen
  have hne : l ≠ [] := List.ne_nil_of_length_pos (by omega)
  have hends := h.ends_ne h2
  unfold AscendingPath
  rw [(getD_reverse hne).1, (getD_reverse hne).2, List.length_reverse]
  simp only [h, h.reverse, true_and]
  omega

/-- A loop whose turns append. -/
theorem foldlM_append {f : Nat → List (List Nat) → Nat → Except (Halt Exn) (List (List Nat))}
    {g : Nat → List (List Nat)} (h : ∀ v all, Converges (f v all) (.ok (all ++ g v)))
    (vs : List Nat) (all : List (List Nat)) :
    Converges (fun fuel => vs.foldlM (fun all v => f v all fuel) all)
      (.ok (all ++ vs.flatMap g)) := by
  induction vs generalizing all with
  | nil =>
    rw [List.flatMap_nil, List.append_nil]
    exact .const _
  | cons v vs ih =>
    simp only [List.foldlM_cons, List.flatMap_cons, ← List.append_assoc]
    exact (h v all).bind_ok (ih _)

/-- The start vertices one after another. -/
theorem paths_converges (hlen : 2 ≤ length) : Converges (paths G length)
    (.ok ((List.range (n - 1)).flatMap fun v =>
      (startPaths G length v).filter (ascends length))) :=
  foldlM_append (pathsIter_converges hlen) _ []

theorem mem_allPaths (hlen : 2 ≤ length) {l : List Nat} :
    (l ∈ (List.range (n - 1)).flatMap fun v => (startPaths G length v).filter (ascends length)) ↔
      AscendingPath G length l := by
  simp only [List.mem_flatMap, List.mem_range, List.mem_filter, ascends, decide_eq_true_iff]
  constructor
  · rintro ⟨v, hv, hl, hasc⟩
    obtain ⟨hpath, hlength, -⟩ := (mem_startPaths (by omega) (by omega)).mp hl
    exact ⟨hpath, hlength, hasc⟩
  · rintro ⟨hpath, hlength, hasc⟩
    obtain ⟨v, t, rfl⟩ := List.exists_cons_of_length_pos (l := l) (by omega)
    -- the last vertex is larger, so the first is not `n - 1`
    have hlast : (v :: t).getD (length - 1) 0 < n := hpath.getD_lt (by omega) (by omega)
    rw [List.getD_cons_zero] at hasc
    refine ⟨v, by omega, (mem_startPaths (by omega) (by omega)).mpr ⟨hpath, hlength, rfl⟩, ?_⟩
    rwa [List.getD_cons_zero]

theorem nodup_allPaths (hlen : 1 ≤ length) : ((List.range (n - 1)).flatMap fun v =>
    (startPaths G length v).filter (ascends length)).Nodup := by
  rw [List.nodup_flatMap]
  refine ⟨fun v _ => nodup_startPaths.filter _, List.nodup_range.imp_of_mem ?_⟩
  intro a b ha hb hab l hla hlb
  have hn : ∀ {v}, v ∈ List.range (n - 1) → v < n := fun hv => by
    rw [List.mem_range] at hv
    omega
  obtain ⟨-, -, h1⟩ := (mem_startPaths hlen (hn ha)).mp (List.mem_of_mem_filter hla)
  obtain ⟨-, -, h2⟩ := (mem_startPaths hlen (hn hb)).mp (List.mem_of_mem_filter hlb)
  exact hab (Option.some.inj (h1.symm.trans h2))

/-- **`paths` lists every simple path of the length once**, from its smaller end to the larger. -/
theorem paths_exact (hlen : 2 ≤ length) : ∃ ps, Converges (paths G length) (.ok ps) ∧ ps.Nodup ∧
    (∀ l, l ∈ ps ↔ AscendingPath G length l) ∧
    ∀ l, G.IsPath l → l.length = length → (l ∈ ps ↔ l.reverse ∉ ps) := by
  refine ⟨_, paths_converges hlen, nodup_allPaths (by omega), fun l => mem_allPaths hlen,
    fun l hl h => ?_⟩
  rw [mem_allPaths hlen, mem_allPaths hlen]
  exact ascendingPath_reverse hl h hlen

/-! ## The paths from an edge -/

section FromEdge

variable {k e0 e1 : Nat}

/-- The paths with `k` vertices that begin with the edge, each once. -/
def ExactFromEdge (G : Graph n) (k e0 e1 : Nat) (ps : List (List Nat)) : Prop :=
  ps.Nodup ∧ ∀ l, l ∈ ps ↔ G.IsPath l ∧ l.length = k ∧ [e0, e1] <+: l

theorem pathsFromEdge_of_three (hk : 3 ≤ k) (he : G.Adj e0 e1) :
    ∃ ps, Converges (pathsFromEdge G k e0 e1) (.ok ps) ∧ ExactFromEdge G k e0 e1 ps := by
  have hne := G.ne_of_adj he
  have hrun := runLoop_converges (faithful (G := G) record k) hk rfl rfl hne () trivial []
  rw [show (pathsLoop G k record).leaf = record from rfl, foldlM_record, List.nil_append] at hrun
  have hedge : G.IsPath [e1, e0].reverse := ⟨by simpa using he, by simpa using hne⟩
  refine ⟨_, hrun, nodup_enum nodup_nextOn _ _, fun l => ?_⟩
  have h := mem_enum_nextOn (d := k - 2) (l := l) hedge
    (by simp [G.bound e0 e1 he, G.lt_right he])
  have hlen : [e1, e0].length + (k - 2) = k := by
    simp only [List.length_cons, List.length_nil]
    omega
  rw [hlen] at h
  exact h.trans (and_congr_right fun _ => and_comm)

/-- **Paths with two vertices**: the edge, and then the edges to all neighbours. -/
theorem pathsFromEdge_two (he : G.Adj e0 e1) : Converges (pathsFromEdge G 2 e0 e1)
    (.ok ((e1 :: nextOn G [e0]).map fun u => [e0, u])) := by
  have hL : Faithful { pathsLoop G 2 record with stop := (pathsLoop G 2 record).stop - 1 }
      (fun _ _ => True) _ := iterLoop_faithful record
  obtain ⟨m, st', hst', hrun⟩ := run_boundary hL rfl (v := e0) (p := []) _ e1
    (startEdge e0 e1 ()) (rep_startEdge (G.ne_of_adj he) trivial) rfl rfl
  have hrun' : ∀ fuel, (pathsLoop G 2 record).run (fuel + m) (startEdge e0 e1 ()) [] =
      ((e1 :: nextOn G [e0]).map fun u => [e0, u]).foldlM record [] >>=
        (pathsLoop G 2 record).run fuel st' := fun fuel => hrun fuel []
  have hi : ¬ (pathsLoop G 2 (σ := List (List Nat)) record).stop < st'.i := by
    have := hst'.depth
    simp only [List.length_nil] at this
    unfold pathsLoop
    simp only
    omega
  have hconv : Converges (fun fuel => (pathsLoop G 2 record).run fuel (startEdge e0 e1 ()) [])
      (.ok ((e1 :: nextOn G [e0]).map fun u => [e0, u]) >>= fun s => .ok (st', s)) := by
    refine ⟨m + 1, fun k hk => ?_⟩
    obtain ⟨j, rfl⟩ : ∃ j, k = j + 1 + m := ⟨k - m - 1, by omega⟩
    simp only [hrun', foldlM_record, List.nil_append, ok_bind]
    rw [Loop.run, if_neg hi]
  exact runLoop_of_run hconv

/-- **`pathsFromEdge` is exact but for two vertices**, where it returns the edge twice. -/
theorem pathsFromEdge_exact_iff (hk : 2 ≤ k) (he : G.Adj e0 e1) :
    (∃ ps, Converges (pathsFromEdge G k e0 e1) (.ok ps) ∧ ExactFromEdge G k e0 e1 ps) ↔
      3 ≤ k := by
  refine ⟨?_, fun h => pathsFromEdge_of_three h he⟩
  rintro ⟨ps, hps, hnd, -⟩
  by_contra hlt
  obtain rfl : k = 2 := by omega
  obtain rfl := Except.ok.inj (hps.unique (pathsFromEdge_two he))
  have hmem : e1 ∈ nextOn G [e0] := mem_nextOn.mpr ⟨he, by
    simpa using (G.ne_of_adj he).symm, List.mem_range.mpr (G.lt_right he)⟩
  rw [List.map_cons] at hnd
  exact (List.nodup_cons.mp hnd).1 (List.mem_map_of_mem hmem)

/-- On the complete graph on four vertices. -/
theorem pathsFromEdge_exact_iff_four :
    (∃ ps, Converges (pathsFromEdge (Graph.complete 4) 3 0 1) (.ok ps) ∧
      ExactFromEdge (Graph.complete 4) 3 0 1 ps) ↔ 3 ≤ 3 :=
  pathsFromEdge_exact_iff (by decide) (show (Graph.complete 4).adj 0 1 = true by decide)

/-- On three vertices, the paths with two of them from the edge `(0, 1)` are `[0, 1]`, `[0, 1]` and
`[0, 2]`. -/
theorem pathsFromEdge_not_exact : ¬ ∃ ps,
    Converges (pathsFromEdge (Graph.complete 3) 2 0 1) (.ok ps) ∧
      ExactFromEdge (Graph.complete 3) 2 0 1 ps := by
  rintro ⟨ps, hps, hnd, -⟩
  have hedge : (Graph.complete 3).Adj 0 1 := show (Graph.complete 3).adj 0 1 = true by decide
  obtain rfl := Except.ok.inj (hps.unique (pathsFromEdge_two hedge))
  exact absurd hnd (by decide)

end FromEdge

end Utils

end Uhg

end SymBreak
