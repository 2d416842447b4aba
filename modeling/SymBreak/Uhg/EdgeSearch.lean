import SymBreak.Uhg.Rules
import SymBreak.Uhg.Searches
import Mathlib.Data.List.Perm.Subperm

/-!
# The searches from an edge are exact

`PropOptimized`, `PropNoHamCycleStartsWithEdge` and `Utils.pathsFromEdge` search the Hamiltonian
paths that begin with a given edge. They order the neighbours differently and prune differently, and
`PropOptimized` keeps the degrees that it prunes by up to date from one turn to the next.

Results:
* `sortByDegrees_perm`, `PropOptimized.sortByDegrees_perm`: sorting rearranges;
* `PropOptimized.DegreesOk`: the invariant of the degrees: an unvisited vertex has as many free
  neighbours as its entry says, and a vertex of the path had as many when it was pushed;
* `PropOptimized.faithful`: so a turn of the loop is a function of the path;
* `PropOptimized.exact`: no Hamiltonian path is pruned;
* **`edgeSearch_exact`**: the three searches end, and handle each Hamiltonian path from the edge
  once and nothing else, so they fix the same non-edges.
-/

namespace SymBreak.Uhg

open Hamilton Backtrack PathSearch

/-! ## Sorting -/

theorem swap_perm {arr : List Nat} {i j : Nat} (hi : i < arr.length) (hj : j < arr.length) :
    (swap arr i j).Perm arr := by
  unfold swap
  rw [List.getD_eq_getElem _ _ hi, List.getD_eq_getElem _ _ hj]
  exact List.set_set_perm hi hj

/-- The selection sort rearranges. -/
theorem sortByDegrees_perm (degree : Nat → Nat) (arr : List Nat) :
    (sortByDegrees degree arr).Perm arr := by
  unfold sortByDegrees
  refine List.foldlRecOn _ _ (motive := fun arr' : List Nat => arr'.Perm arr) (List.Perm.refl _)
    fun arr' h i hi => ?_
  have hlt : i < arr'.length := by
    rw [h.length_eq]
    exact List.mem_range.mp hi
  refine (swap_perm hlt ?_).trans h
  -- the index found is the first one or one of those gone through
  refine List.foldlRecOn _ _ (motive := fun index => index < arr'.length) hlt
    fun index hx j hj => ?_
  rw [List.mem_range'_1] at hj
  by_cases hd : degree (arr'.getD index 0) < degree (arr'.getD j 0)
  · rw [if_pos hd]
    omega
  · rwa [if_neg hd]

namespace PropOptimized

theorem bubblePass_perm (degrees : Nat → Int) (arr : List Nat) (i : Nat) :
    (bubblePass degrees arr i).1.Perm arr := by
  unfold bubblePass
  refine List.foldlRecOn _ _ (motive := fun r : List Nat × Bool => r.1.Perm arr) (List.Perm.refl _)
    fun r h j hj => ?_
  rw [List.mem_range] at hj
  have hlen := h.length_eq
  by_cases hd : degrees (r.1.getD j 0) < degrees (r.1.getD (j + 1) 0)
  · simp only [if_pos hd]
    exact (swap_perm (by omega) (by omega)).trans h
  · simp only [if_neg hd]
    exact h

/-- The bubble sort rearranges. -/
theorem sortByDegrees_perm (degrees : Nat → Int) (arr : List Nat) :
    (sortByDegrees degrees arr).Perm arr := by
  unfold sortByDegrees
  generalize List.range arr.length = is
  induction is generalizing arr with
  | nil => exact List.Perm.refl _
  | cons i is ih =>
    have h := bubblePass_perm degrees arr i
    unfold bubblePasses
    by_cases hs : (bubblePass degrees arr i).2 = true
    · simp only [if_pos hs]
      exact (ih _).trans h
    · simp only [if_neg hs]
      exact h

end PropOptimized

/-! ## Neighbours that a search offers -/

section Listing

variable {n : Nat} {G : Graph n} (nb : Listing G)
include nb

theorem Listing.lt {v x : Nat} (h : x ∈ nb.neighborsOf v) : x < n :=
  G.lt_right ((nb.mem_iff v x).mp h)

theorem Listing.symm {v x : Nat} : x ∈ nb.neighborsOf v ↔ v ∈ nb.neighborsOf x := by
  rw [nb.mem_iff, nb.mem_iff, G.symm]

theorem Listing.not_mem_self (v : Nat) : v ∉ nb.neighborsOf v := by
  rw [nb.mem_iff, G.irrefl]
  exact Bool.false_ne_true

end Listing

/-- The marks of the vertices of a path. -/
def onPath (path : List Nat) (x : Nat) : Bool := decide (x ∈ path)

theorem onPath_eq_true {path : List Nat} {x : Nat} : onPath path x = true ↔ x ∈ path :=
  decide_eq_true_iff

theorem onPath_eq_false {path : List Nat} {x : Nat} : onPath path x = false ↔ x ∉ path :=
  decide_eq_false_iff_not

theorem visited_eq {X : Type} {AuxOk : List Nat → X → Prop} {path : List Nat} {st : State Nat X}
    (h : Rep AuxOk path st) : st.visited = onPath path := by
  funext x
  rw [Bool.eq_iff_iff, h.visited, onPath_eq_true]

section Passes

variable {n : Nat} {G : Graph n} {nb : Listing G} {p l : List Nat} {u : Nat}

theorem ne_of_adj {v x : Nat} (h : G.Adj v x) : v ≠ x := by
  rintro rfl
  exact absurd (G.irrefl v) (by rw [h]; exact Bool.noConfusion)

theorem length_of_hamPath (h : IsHamPath G.Adj (List.range n) (p.reverse ++ u :: l)) :
    p.length + l.length + 1 = n := by
  have := h.1.length_eq
  simp only [List.length_append, List.length_reverse, List.length_cons, List.length_range] at this
  omega

theorem next_not_mem (h : IsHamPath G.Adj (List.range n) (p.reverse ++ u :: l)) : u ∉ p :=
  (nodup_rest h List.nodup_range).2 u List.mem_cons_self

theorem next_lt (h : IsHamPath G.Adj (List.range n) (p.reverse ++ u :: l)) : u < n :=
  List.mem_range.mp (h.1.mem_iff.mp (by simp))

theorem adj_next {v : Nat} (h : IsHamPath G.Adj (List.range n) ((v :: p).reverse ++ u :: l)) :
    G.Adj v u := by
  have := (List.isChain_append.mp h.2).2.2 v (by simp) u (by simp)
  exact this

theorem free_of_passes {ns : Nat → List Nat} {visited : Nat → Bool} {i : Int}
    (h : passes ns n visited i u = true) : visited u = false := by
  unfold passes at h
  rw [Bool.and_eq_true, Bool.not_eq_true'] at h
  exact h.1

theorem not_mem_of_passes {ns : Nat → List Nat} {i : Int} {path : List Nat}
    (h : passes ns n (onPath path) i u = true) : u ∉ path :=
  onPath_eq_false.mp (free_of_passes h)

/-- **The unreachability test passes the next vertex** of a Hamiltonian path. -/
theorem passes_next (h : IsHamPath G.Adj (List.range n) (p.reverse ++ u :: l)) :
    passes nb.neighborsOf n (onPath p) (p.length - 1) u = true := by
  have hlen := length_of_hamPath h
  have hu := next_not_mem h
  unfold passes
  rw [Bool.and_eq_true, Bool.not_eq_true', onPath_eq_false, Bool.or_eq_true, decide_eq_true_iff]
  refine ⟨hu, ?_⟩
  by_cases hl : 2 ≤ l.length
  · right
    unfold makesNeighborUnreachable unreachable
    rw [Bool.not_eq_true', List.any_eq_false]
    intro x hx hbad
    have hux := (nb.mem_iff u x).mp hx
    rw [Bool.and_eq_true, Bool.not_eq_true', List.all_eq_true] at hbad
    obtain ⟨hx1, hx2⟩ := hbad
    have hne : x ≠ u := (ne_of_adj hux).symm
    rw [Function.update_of_ne hne, onPath_eq_false] at hx1
    obtain ⟨⟨y, hy, hyp⟩, -⟩ := free_of_next (fun _ _ => Graph.Adj.symm) nb.mem_iff h
      List.nodup_range rfl hl (List.mem_range.mpr (nb.lt hx)) hx1 hux hne
    rw [List.mem_cons, not_or] at hyp
    have := hx2 y hy
    rw [Function.update_of_ne hyp.1, onPath_eq_true] at this
    exact hyp.2 this
  · left
    omega

end Passes

/-! ## Searches whose turns are a function of the path -/

section Turns

variable {n e0 e1 : Nat} {G : Graph n} {σ X : Type}

theorem rep_startEdge {AuxOk : List Nat → X → Prop} {aux : X} (hne : e0 ≠ e1)
    (haux : AuxOk [e1, e0] aux) : Rep AuxOk [e1, e0] (startEdge e0 e1 aux) where
  depth := rfl
  nodup := by simpa using hne.symm
  slots := by simp [startEdge, List.range_succ]
  visited x := by
    unfold startEdge
    simp only [List.mem_cons, List.not_mem_nil, or_false]
    by_cases h1 : x = e1
    · simp [h1]
    · rw [Function.update_of_ne h1]
      by_cases h0 : x = e0 <;> simp [h1, h0]
  aux := haux

variable {ns : List Nat → List Nat} {ok : List Nat → Nat → Bool}

/-- What the leaves of a search did. -/
theorem runLoop_of_run {L : Loop Nat X σ Exn} {st st' : State Nat X} {s : σ}
    {x : Except (Halt Exn) σ}
    (h : Converges (fun fuel => L.run fuel st s) (x >>= fun s => .ok (st', s))) :
    Converges (runLoop L st s) x := by
  have hbind := h.bind (g := fun r _ => .ok r.2) (y := fun r => .ok r.2)
    fun _ _ => Converges.const _
  rw [bind_assoc] at hbind
  simp only [ok_bind] at hbind
  rwa [show (x >>= fun s => .ok s) = x from bind_pure x] at hbind

/-- **A search from an edge ends**, and handles the enumerated paths. -/
theorem runLoop_converges {L : Loop Nat X σ Exn} {AuxOk : List Nat → X → Prop}
    (hL : Faithful L AuxOk fun path k => ((ns path).drop k).filter (ok path)) (hn : 3 ≤ n)
    (hstop : L.stop = 0) (hlast : L.last = n - 1) (hne : e0 ≠ e1) (aux : X)
    (haux : AuxOk [e1, e0] aux) (s : σ) : Converges (runLoop L (startEdge e0 e1 aux) s)
      ((enum (fun path => (ns path).filter (ok path)) (n - 2) [e1, e0]).foldlM L.leaf s) := by
  have hd : n - 2 = n - 3 + 1 := by omega
  obtain ⟨st', -, hrun⟩ := run_converges hL (d := n - 3) (rep_startEdge hne haux)
    (by rw [hstop]; rfl) (by rw [hlast]; simp only [startEdge]; omega) rfl
  rw [hd]
  exact runLoop_of_run (hrun s)

/-- What is offered is exact, when it holds the next vertex of every Hamiltonian path. -/
theorem exact_of_next (hnd : ∀ path, (ns path).Nodup)
    (hok : ∀ v p u, u ∈ ns (v :: p) → ok (v :: p) u = true → G.Adj v u ∧ u ∉ v :: p)
    (hnext : ∀ v p u l, [e1, e0] <:+ v :: p →
      IsHamPath G.Adj (List.range n) ((v :: p).reverse ++ u :: l) →
      u ∈ ns (v :: p) ∧ ok (v :: p) u = true) :
    Exact G.Adj (List.range n) [e1, e0] fun path => (ns path).filter (ok path) where
  offers v p u hu := by
    obtain ⟨h1, h2⟩ := List.mem_filter.mp hu
    obtain ⟨h3, h4⟩ := hok v p u h1 h2
    exact ⟨h3, h4, List.mem_range.mpr (G.lt_right h3)⟩
  nodup path := (hnd path).filter _
  next path u l hs hl := by
    obtain ⟨v, p, rfl⟩ := List.exists_cons_of_ne_nil (l := path) (by
      rintro rfl
      exact absurd hs.length_le (by simp))
    exact List.mem_filter.mpr (hnext v p u l hs hl)

end Turns

/-- The neighbours of the end of a path. -/
def neighborsAt (ns : Nat → List Nat) : List Nat → List Nat
  | [] => []
  | v :: _ => ns v

theorem nodup_neighborsAt {ns : Nat → List Nat} (h : ∀ v, (ns v).Nodup) (path : List Nat) :
    (neighborsAt ns path).Nodup := by
  cases path with
  | nil => exact List.nodup_nil
  | cons v p => exact h v

/-- **A turn depends on the path only**, where the scan takes the first neighbour of the end that
passes a test of the marks, the depth and the end. -/
theorem faithful_of_scan {σ ε : Type} {L : Loop Nat Unit σ ε} (ns : Nat → List Nat)
    (test : (Nat → Bool) → Int → Nat → Nat → Bool)
    (hfree : ∀ visited i v u, test visited i v u = true → visited u = false)
    (hscan : ∀ st v, L.scan st v =
      innerLoop (pick (test st.visited st.i v)) ((ns v).drop (st.inds v)) (st.inds v)) :
    Faithful L (fun _ _ => True) fun path k => ((neighborsAt ns path).drop k).filter
      (test (onPath path) (path.length - 1) (path.headD 0)) :=
  faithful_of_pick (neighborsAt ns)
    (fun path => test (onPath path) (path.length - 1) (path.headD 0))
    (fun path u h => onPath_eq_false.mp (hfree _ _ _ _ h))
    (fun st v p h _ _ => by
      left
      simp only [hscan, visited_eq h, h.depth, neighborsAt, List.headD_cons])
    (fun _ _ _ _ _ _ _ => trivial) (fun _ _ _ _ _ _ => trivial) fun _ _ _ _ _ _ => trivial

/-! ## `Utils.pathsFromEdge` and `PropNoHamCycleStartsWithEdge` -/

section Plain

variable {n : Nat} {G : Graph n} (nb : Listing G) {σ : Type} {e0 e1 : Nat}
  (leaf : σ → List Nat → Except (Halt Exn) σ)

theorem mem_adjList {v x : Nat} : x ∈ adjList nb.neighborsOf v ↔ G.Adj v x := by
  unfold adjList
  rw [(sortByDegrees_perm _ _).mem_iff, nb.mem_iff]
  rfl

theorem nodup_adjList (v : Nat) : (adjList nb.neighborsOf v).Nodup := by
  unfold adjList
  rw [(sortByDegrees_perm _ _).nodup_iff]
  exact nb.nodup v

/-- A turn of `pathsFromEdge` depends on the path only. -/
theorem Utils.faithful (k : Nat) : Faithful (Utils.pathsLoop G k leaf) (fun _ _ => True)
    fun path i => ((neighborsAt (fun _ => List.range n) path).drop i).filter
      fun u => G.adj (path.headD 0) u && !onPath path u :=
  faithful_of_scan (fun _ => List.range n) (fun visited _ v u => G.adj v u && !visited u)
    (fun _ _ _ _ h => (Bool.not_eq_true' _).mp (Bool.and_elim_right h)) fun _ _ => rfl

theorem Utils.exact : Exact G.Adj (List.range n) [e1, e0]
    fun path => (neighborsAt (fun _ => List.range n) path).filter
      fun u => G.adj (path.headD 0) u && !onPath path u :=
  exact_of_next (nodup_neighborsAt fun _ => List.nodup_range)
    (fun v p u _ h => by
      rw [Bool.and_eq_true, Bool.not_eq_true', onPath_eq_false] at h
      exact h)
    fun v p u l _ hl => by
      rw [Bool.and_eq_true, Bool.not_eq_true', onPath_eq_false]
      exact ⟨List.mem_range.mpr (next_lt hl), adj_next hl, next_not_mem hl⟩

namespace PropNoHamCycleStartsWithEdge

/-- A turn of the search depends on the path only. -/
theorem faithful : Faithful (loop nb.neighborsOf n leaf) (fun _ _ => True)
    fun path k => ((neighborsAt (adjList nb.neighborsOf) path).drop k).filter
      (passes nb.neighborsOf n (onPath path) (path.length - 1)) :=
  faithful_of_scan (adjList nb.neighborsOf) (fun visited i _ => passes nb.neighborsOf n visited i)
    (fun _ _ _ _ => free_of_passes) fun _ _ => rfl

theorem exact : Exact G.Adj (List.range n) [e1, e0]
    fun path => (neighborsAt (adjList nb.neighborsOf) path).filter
      (passes nb.neighborsOf n (onPath path) (path.length - 1)) :=
  exact_of_next (nodup_neighborsAt (nodup_adjList nb))
    (fun _ _ _ hu h => ⟨(mem_adjList nb).mp hu, not_mem_of_passes h⟩)
    fun _ _ _ _ _ hl => ⟨(mem_adjList nb).mpr (adj_next hl), passes_next hl⟩

end PropNoHamCycleStartsWithEdge

end Plain

/-! ## The degrees of `PropOptimized` -/

namespace PropOptimized

section Degrees

variable {n : Nat} {G : Graph n} (nb : Listing G) {e0 e1 : Nat}

theorem mem_adjList {v x : Nat} : x ∈ adjList nb.neighborsOf e0 e1 v ↔ x ∈ nb.neighborsOf v := by
  unfold adjList
  rw [(sortByDegrees_perm _ _).mem_iff]

theorem nodup_adjList (v : Nat) : (adjList nb.neighborsOf e0 e1 v).Nodup := by
  unfold adjList
  rw [(sortByDegrees_perm _ _).nodup_iff]
  exact nb.nodup v

/-- A pass over a list changes the degrees of its unvisited members. -/
theorem adjust_apply (visited : Nat → Bool) (c : Int) (x : Nat) (ns : List Nat) (d : Nat → Int)
    (hn : ns.Nodup) :
    adjust visited c ns d x = d x + if visited x = false ∧ x ∈ ns then c else 0 := by
  induction ns generalizing d with
  | nil => simp [adjust]
  | cons y ns ih =>
    obtain ⟨hy, hn⟩ := List.nodup_cons.mp hn
    replace ih := ih (if visited y then d else Function.update d y (d y + c)) hn
    unfold adjust at ih ⊢
    rw [List.foldl_cons, ih]
    by_cases hxy : x = y
    · subst hxy
      cases hv : visited x <;> simp [hy]
    · have he : (if visited y then d else Function.update d y (d y + c)) x = d x := by
        cases visited y <;> simp [Function.update_of_ne hxy]
      rw [he]
      simp [hxy]

/-- **The invariant of the degrees.** An unvisited vertex has as many free neighbours as its entry
says, and a vertex of the path past its first two had as many when it was pushed. -/
structure DegreesOk (nb : Listing G) (e0 e1 : Nat) (path : List Nat) (degrees : Nat → Int) :
    Prop where
  nodup : path.Nodup
  bound : ∀ x ∈ path, x < n
  start : 2 ≤ path.length → [e1, e0] <:+ path
  unvisited : 2 ≤ path.length → ∀ x, x ∉ path → degrees x = free nb.neighborsOf path x
  used : ∀ s v p, path = s ++ v :: p → 2 ≤ p.length → degrees v = free nb.neighborsOf p v

/-- The free neighbours before and after the vertex `v` is pushed. -/
theorem free_push {v : Nat} {p : List Nat} (hv : v ∉ p) (x : Nat) :
    (free nb.neighborsOf p x : Int) =
      free nb.neighborsOf (v :: p) x + if x ∈ nb.neighborsOf v then 1 else 0 := by
  rw [free_cons nb.nodup hv]
  simp only [nb.symm (v := x)]
  push_cast
  rfl

/-- The vertex pushed is not its own neighbour. -/
theorem free_self {v : Nat} {p : List Nat} (hv : v ∉ p) :
    free nb.neighborsOf p v = free nb.neighborsOf (v :: p) v := by
  rw [free_cons nb.nodup hv, if_neg (nb.not_mem_self v), Nat.add_zero]

theorem degreesOk_init (h0 : e0 < n) (h1 : e1 < n) (hne : e0 ≠ e1) :
    DegreesOk nb e0 e1 [e1, e0] (initDegrees nb.neighborsOf e0 e1) where
  nodup := by simpa using hne.symm
  bound x hx := by
    simp only [List.mem_cons, List.not_mem_nil, or_false] at hx
    rcases hx with rfl | rfl
    · exact h1
    · exact h0
  start _ := List.suffix_refl _
  unvisited _ x hx := by
    have hv : (startEdge e0 e1 ()).visited x = false := by
      simp only [List.mem_cons, List.not_mem_nil, or_false, not_or] at hx
      unfold startEdge
      simp [hx.1, hx.2]
    have f0 := free_push nb (v := e0) (p := []) (by simp) x
    have f1 := free_push nb (v := e1) (p := [e0]) (by simpa using hne.symm) x
    rw [free_nil] at f0
    unfold initDegrees
    simp only [adjust_apply _ _ _ _ _ (nb.nodup _), hv, true_and]
    rw [f0, f1]
    split <;> split <;> omega
  used s v p he hp := by
    have := congrArg List.length he
    simp only [List.length_cons, List.length_append, List.length_nil] at this
    omega

/-- A push keeps the degrees up to date. -/
theorem degreesOk_push {visited : Nat → Bool} {degrees : Nat → Int} {u : Nat} {p : List Nat}
    (hu : u ∉ p) (hun : u < n) (hp : 2 ≤ p.length) (hv : ∀ x, visited x = true ↔ x ∈ u :: p)
    (h : DegreesOk nb e0 e1 p degrees) :
    DegreesOk nb e0 e1 (u :: p)
      (adjust visited (-1) (adjList nb.neighborsOf e0 e1 u) degrees) where
  nodup := List.nodup_cons.mpr ⟨hu, h.nodup⟩
  bound := List.forall_mem_cons.mpr ⟨hun, h.bound⟩
  start _ := (h.start hp).trans (List.suffix_cons u p)
  unvisited _ x hx := by
    have hx' : visited x = false := by rwa [← Bool.not_eq_true, hv]
    rw [adjust_apply _ _ _ _ _ (nodup_adjList nb u), h.unvisited hp x fun hp => hx (by simp [hp]),
      free_push nb hu]
    simp only [hx', true_and, mem_adjList]
    split <;> omega
  used s v q he hq := by
    have hvis : visited v = true := by
      rw [hv, he]
      simp
    rw [adjust_apply _ _ _ _ _ (nodup_adjList nb u), hvis, if_neg (by simp), Int.add_zero]
    cases s with
    | nil =>
      obtain ⟨rfl, rfl⟩ := List.cons.inj he
      exact h.unvisited hp u hu
    | cons w s => exact h.used s v q (List.cons.inj he).2 hq

/-- A pop keeps the degrees up to date. -/
theorem degreesOk_pop {visited : Nat → Bool} {degrees : Nat → Int} {v : Nat} {p : List Nat}
    (hvp : v ∉ p) (hv : ∀ x, visited x = true ↔ x ∈ p)
    (h : DegreesOk nb e0 e1 (v :: p) degrees) :
    DegreesOk nb e0 e1 p
      (adjust visited 1 (adjList nb.neighborsOf e0 e1 v) degrees) where
  nodup := (List.nodup_cons.mp h.nodup).2
  bound := (List.forall_mem_cons.mp h.bound).2
  start hp := by
    have hs := h.start (by rw [List.length_cons]; omega)
    rcases List.suffix_cons_iff.mp hs with he | hs
    · have := congrArg List.length he
      simp only [List.length_cons, List.length_nil] at this
      omega
    · exact hs
  unvisited hp x hx := by
    have hx' : visited x = false := by rwa [← Bool.not_eq_true, hv]
    rw [adjust_apply _ _ _ _ _ (nodup_adjList nb v), free_push nb hvp]
    simp only [hx', true_and, mem_adjList]
    by_cases hxv : x = v
    · subst hxv
      rw [h.used [] x p rfl hp, free_self nb hvp]
    · rw [h.unvisited (by rw [List.length_cons]; omega) x (by simp [hxv, hx])]
  used s w q he hq := by
    have hvis : visited w = true := by
      rw [hv, he]
      simp
    rw [adjust_apply _ _ _ _ _ (nodup_adjList nb v), hvis, if_neg (by simp), Int.add_zero]
    exact h.used (v :: s) w q (by rw [he]; rfl) hq

/-- The vertex dropped from a full path needs no update: every other vertex is on the path. -/
theorem degreesOk_drop {degrees : Nat → Int} {v : Nat} {p : List Nat} (hvp : v ∉ p)
    (hfull : p.length + 1 = n) (h : DegreesOk nb e0 e1 (v :: p) degrees) :
    DegreesOk nb e0 e1 p degrees where
  nodup := (List.nodup_cons.mp h.nodup).2
  bound := (List.forall_mem_cons.mp h.bound).2
  start hp := by
    have hv : ∀ x, onPath p x = true ↔ x ∈ p := fun _ => onPath_eq_true
    exact (degreesOk_pop nb hvp hv h).start hp
  unvisited hp x hx := by
    by_cases hxv : x = v
    · subst hxv
      exact h.used [] x p rfl hp
    · have hx' : x ∉ v :: p := by simp [hxv, hx]
      have hxn : v ∉ nb.neighborsOf x := fun hm => hx' (by
        have hperm : (v :: p).Perm (List.range n) := (List.subperm_of_subset h.nodup fun y hy =>
          List.mem_range.mpr (h.bound y hy)).perm_of_length_le (by simp [hfull])
        rw [hperm.mem_iff, List.mem_range]
        exact nb.lt (nb.symm.mp hm))
      rw [h.unvisited (by rw [List.length_cons]; omega) x hx', free_push nb hvp,
        if_neg fun hm => hxn (nb.symm.mp hm), Int.add_zero]
  used s w q he hq := h.used (v :: s) w q (by rw [he]; rfl) hq

end Degrees

/-! ## The candidates of `PropOptimized` -/

section Candidates

variable {n : Nat} {visited : Nat → Bool} {d d' : Nat → Int}

/-- The unvisited neighbours with one free neighbour. -/
def ones (visited : Nat → Bool) (degrees : Nat → Int) (ns : List Nat) : List Nat :=
  ns.filter fun x => !visited x && degrees x == 1

/-- An unvisited neighbour has no free neighbours. -/
def Dead (visited : Nat → Bool) (degrees : Nat → Int) (ns : List Nat) : Prop :=
  ∃ x ∈ ns, visited x = false ∧ degrees x = 0

theorem mem_ones {ns : List Nat} {x : Nat} :
    x ∈ ones visited d ns ↔ x ∈ ns ∧ visited x = false ∧ d x = 1 := by
  unfold ones
  rw [List.mem_filter, Bool.and_eq_true, Bool.not_eq_true', beq_iff_eq]

theorem dead_cons {x : Nat} {ns : List Nat} :
    Dead visited d (x :: ns) ↔ visited x = false ∧ d x = 0 ∨ Dead visited d ns := by
  unfold Dead
  rw [List.exists_mem_cons_iff]

theorem ones_cons_of_pos {x : Nat} {ns : List Nat} (h : visited x = false ∧ d x = 1) :
    ones visited d (x :: ns) = x :: ones visited d ns := by
  unfold ones
  rw [List.filter_cons_of_pos (by simp [h])]

theorem ones_cons_of_neg {x : Nat} {ns : List Nat} (h : ¬ (visited x = false ∧ d x = 1)) :
    ones visited d (x :: ns) = ones visited d ns := by
  unfold ones
  rw [List.filter_cons_of_neg (by simpa using h)]

/-- The first and the second neighbour with one free neighbour become `w1` and `w2`. -/
theorem scanNeighbors_keep {x : Nat} {ns acc : List Nat} (h1 : visited x = false ∧ d x = 1)
    (hacc : ¬ acc.length + 1 ≥ 3) :
    scanNeighbors visited d (x :: ns) acc.length acc[0]? acc[1]? =
      scanNeighbors visited d ns (acc ++ [x]).length (acc ++ [x])[0]? (acc ++ [x])[1]? := by
  rw [scanNeighbors, if_neg (by simp [h1]), if_pos (by simp [h1]), if_neg hacc]
  match acc, hacc with
  | [], _ => rfl
  | [a], _ => rfl
  | a :: b :: acc, hacc => exact absurd hacc (by simp)

/-- **The loop over the neighbours** either goes through, and then `w1` and `w2` are the neighbours
with one free neighbour, or breaks off at a dead one or the third such. `acc` are those found so
far. -/
theorem scanNeighbors_cases (visited : Nat → Bool) (d : Nat → Int) :
    ∀ (ns acc : List Nat), acc.length ≤ 2 →
    (¬ Dead visited d ns ∧ (acc ++ ones visited d ns).length ≤ 2 ∧
      scanNeighbors visited d ns acc.length acc[0]? acc[1]? =
        (false, (acc ++ ones visited d ns).length, (acc ++ ones visited d ns)[0]?,
          (acc ++ ones visited d ns)[1]?)) ∨
    ((Dead visited d ns ∨ 3 ≤ (acc ++ ones visited d ns).length) ∧
      ∃ count w1 w2, scanNeighbors visited d ns acc.length acc[0]? acc[1]? = (true, count, w1, w2) ∧
        count ≤ acc.length + ns.length)
  | [], acc, h => by
    left
    refine ⟨fun ⟨x, hx, _⟩ => absurd hx (by simp), ?_, ?_⟩ <;> simp [ones, scanNeighbors, h]
  | x :: ns, acc, h => by
    rw [dead_cons, List.length_cons]
    by_cases h0 : visited x = false ∧ d x = 0
    · right
      refine ⟨Or.inl (Or.inl h0), acc.length, acc[0]?, acc[1]?, ?_, by omega⟩
      rw [scanNeighbors, if_pos (by simp [h0])]
    · rw [or_iff_right h0]
      by_cases h1 : visited x = false ∧ d x = 1
      · rw [ones_cons_of_pos h1, List.append_cons]
        by_cases h3 : acc.length + 1 ≥ 3
        · right
          refine ⟨Or.inr ?_, acc.length + 1, acc[0]?, acc[1]?, ?_, by omega⟩
          · simp only [List.length_append, List.length_singleton]
            omega
          · rw [scanNeighbors, if_neg (by simpa using h0), if_pos (by simp [h1]), if_pos h3]
        · have hlen : (acc ++ [x]).length = acc.length + 1 := List.length_append
          rw [scanNeighbors_keep h1 h3]
          rcases scanNeighbors_cases visited d ns (acc ++ [x]) (by omega) with
            ih | ⟨ih, count, w1, w2, he, hc⟩
          · exact Or.inl ih
          · exact Or.inr ⟨ih, count, w1, w2, he, by omega⟩
      · rw [ones_cons_of_neg h1, scanNeighbors, if_neg (by simpa using h0),
          if_neg (by simpa using h1)]
        rcases scanNeighbors_cases visited d ns acc h with ih | ⟨ih, count, w1, w2, he, hc⟩
        · exact Or.inl ih
        · exact Or.inr ⟨ih, count, w1, w2, he, by omega⟩

/-- **The neighbours to choose from**: all of them, or those with one free neighbour when there are
two; after a break, an index past their end. -/
theorem candidates_cases (n : Nat) (visited : Nat → Bool) (d : Nat → Int) (i : Int)
    (ns : List Nat) :
    (∃ ns' : List Nat, ns'.Sublist ns ∧ (∀ ind, candidates n visited d i ns ind = (ns', ind)) ∧
      (ns' = ns ∨ ns' = ones visited d ns ∧ (ones visited d ns).length = 2)) ∨
    (i < n - 2 ∧ (Dead visited d ns ∨ 3 ≤ (ones visited d ns).length) ∧
      ∃ ns' : List Nat, ns'.length ≤ ns.length ∧
        ∀ ind, candidates n visited d i ns ind = (ns', ns.length)) := by
  unfold candidates
  by_cases hi : i < n - 2
  · simp only [if_pos hi]
    rcases scanNeighbors_cases visited d ns [] (by simp) with
      ⟨-, hlen, he⟩ | ⟨hbad, count, w1, w2, he, hc⟩
    · left
      simp only [List.nil_append, List.length_nil] at he hlen
      rw [show ([] : List Nat)[0]? = none from rfl, show ([] : List Nat)[1]? = none from rfl] at he
      simp only [he, Bool.false_eq_true, if_false]
      by_cases h2 : (ones visited d ns).length = 2
      · obtain ⟨a, b, hab⟩ := List.length_eq_two.mp h2
        refine ⟨ones visited d ns, List.filter_sublist, fun ind => ?_, Or.inr ⟨rfl, h2⟩⟩
        rw [if_pos h2, hab]
        rfl
      · exact ⟨ns, List.Sublist.refl ns, fun ind => by rw [if_neg h2], Or.inl rfl⟩
    · right
      simp only [List.nil_append, List.length_nil] at he hbad hc
      rw [show ([] : List Nat)[0]? = none from rfl, show ([] : List Nat)[1]? = none from rfl] at he
      simp only [he, if_true]
      refine ⟨hi, hbad, _, ?_, fun ind => rfl⟩
      by_cases h2 : count = 2
      · rw [if_pos h2, List.length_append]
        have : w1.toList.length ≤ 1 := by cases w1 <;> simp
        have : w2.toList.length ≤ 1 := by cases w2 <;> simp
        omega
      · rw [if_neg h2]
  · simp only [if_neg hi]
    exact Or.inl ⟨ns, List.Sublist.refl ns, fun ind => rfl, Or.inl rfl⟩

/-- Only the degrees of unvisited vertices matter. -/
theorem scanNeighbors_congr (h : ∀ x, visited x = false → d x = d' x) (ns : List Nat)
    (count : Nat) (w1 w2 : Option Nat) :
    scanNeighbors visited d ns count w1 w2 = scanNeighbors visited d' ns count w1 w2 := by
  induction ns generalizing count w1 w2 with
  | nil => rfl
  | cons x ns ih =>
    have hc : ∀ c : Int, (!visited x && d x == c) = (!visited x && d' x == c) := fun c => by
      cases hv : visited x with
      | true => rfl
      | false => rw [h x hv]
    unfold scanNeighbors
    simp only [hc, ih]

theorem candidates_congr (h : ∀ x, visited x = false → d x = d' x) (i : Int) (ns : List Nat)
    (ind : Nat) : candidates n visited d i ns ind = candidates n visited d' i ns ind := by
  unfold candidates
  rw [scanNeighbors_congr h]

theorem passes_congr (nb : Nat → List Nat) (h : ∀ x, visited x = false → d x = d' x) (i : Int)
    (u : Nat) : passes nb n visited d i u = passes nb n visited d' i u := by
  have hc : ∀ x, (!visited x && decide (d x < 2)) = (!visited x && decide (d' x < 2)) := fun x => by
    cases hv : visited x with
    | true => rfl
    | false => rw [h x hv]
  unfold passes makesNeighborUnreachable
  simp only [hc]

end Candidates

/-! ## The search of `PropOptimized` -/

section Search

variable {n : Nat} {G : Graph n} (nb : Listing G) {e0 e1 : Nat} {σ : Type}
  (leaf : σ → List Nat → Except (Halt Exn) σ)

/-- The degrees of the unvisited vertices, from the path. -/
def freeAt (nb : Nat → List Nat) (path : List Nat) (x : Nat) : Int := free nb path x

/-- The neighbours to choose from, from the path. -/
def offered (nb : Nat → List Nat) (n e0 e1 : Nat) : List Nat → List Nat
  | [] => []
  | v :: p =>
    if p = [] then [] else
      let (ns, ind) := candidates n (onPath (v :: p)) (freeAt nb (v :: p)) ((v :: p).length - 1)
        (adjList nb e0 e1 v) 0
      ns.drop ind

/-- The test of a neighbour, from the path. -/
def passesAt (nb : Nat → List Nat) (n : Nat) (path : List Nat) : Nat → Bool :=
  passes nb n (onPath path) (freeAt nb path) (path.length - 1)

theorem offered_cons (nb : Nat → List Nat) {v : Nat} {p : List Nat} (hp : p ≠ []) :
    offered nb n e0 e1 (v :: p) =
      let (ns, ind) := candidates n (onPath (v :: p)) (freeAt nb (v :: p)) ((v :: p).length - 1)
        (adjList nb e0 e1 v) 0
      ns.drop ind := by
  unfold offered
  simp only [if_neg hp]

theorem offered_sublist (v : Nat) (p : List Nat) :
    (offered nb.neighborsOf n e0 e1 (v :: p)).Sublist (adjList nb.neighborsOf e0 e1 v) := by
  by_cases hp : p = []
  · rw [hp]
    exact List.nil_sublist _
  · rw [offered_cons _ hp]
    rcases candidates_cases n (onPath (v :: p)) (freeAt nb.neighborsOf (v :: p))
      ((v :: p).length - 1) (adjList nb.neighborsOf e0 e1 v) with
      ⟨ns, hs, he, -⟩ | ⟨-, -, ns, hl, he⟩
    · simp only [he, List.drop_zero]
      exact hs
    · simp only [he, List.drop_eq_nil_of_le hl]
      exact List.nil_sublist _

theorem not_mem_of_passesAt {path : List Nat} {u : Nat}
    (h : passesAt nb.neighborsOf n path u = true) : u ∉ path := by
  unfold passesAt passes at h
  rw [Bool.and_eq_true, Bool.not_eq_true', onPath_eq_false] at h
  exact h.1

/-- **A turn of the search depends on the path only**, although the degrees and the list of
neighbours are kept from one turn to the next. -/
theorem faithful : Faithful (loop nb.neighborsOf n e0 e1 leaf)
    (DegreesOk nb e0 e1)
    fun path k => ((offered nb.neighborsOf n e0 e1 path).drop k).filter
      (passesAt nb.neighborsOf n path) :=
  faithful_of_pick (offered nb.neighborsOf n e0 e1) (passesAt nb.neighborsOf n)
    (fun _ _ h => not_mem_of_passesAt nb h)
    (fun st v p h h1 _ => by
      have hp : p ≠ [] := by
        rintro rfl
        have := h.length_eq
        unfold loop at h1
        simp only [List.length_nil] at this h1
        omega
      have hlen : 2 ≤ (v :: p).length := by
        have := List.length_pos_of_ne_nil hp
        rw [List.length_cons]
        omega
      have hd : ∀ x, onPath (v :: p) x = false → st.aux x = freeAt nb.neighborsOf (v :: p) x :=
        fun x hx => h.aux.unvisited hlen x (onPath_eq_false.mp hx)
      rw [offered_cons _ hp]
      unfold loop passesAt
      simp only [visited_eq h, h.depth, candidates_congr hd,
        funext (passes_congr nb.neighborsOf hd _)]
      rcases candidates_cases n (onPath (v :: p)) (freeAt nb.neighborsOf (v :: p))
        ((v :: p).length - 1) (adjList nb.neighborsOf e0 e1 v) with
        ⟨ns, -, he, -⟩ | ⟨-, -, ns, hl, he⟩
      · left
        simp only [he, List.drop_zero]
      · right
        simp only [he, List.drop_eq_nil_of_le hl]
        exact ⟨⟨_, rfl⟩, trivial⟩)
    (fun st u p hu hk hv h => by
      cases p with
      | nil => exact absurd hk (by simp [offered])
      | cons v p =>
        have hp : p ≠ [] := by
          rintro rfl
          exact absurd hk (by simp [offered])
        have := List.length_pos_of_ne_nil hp
        refine degreesOk_push nb hu ?_ (by rw [List.length_cons]; omega) hv h
        exact nb.lt ((mem_adjList nb).mp ((offered_sublist nb v p).subset hk)))
    (fun st v p hvp hv h => degreesOk_pop nb hvp hv h)
    fun d v p hvp hl h => degreesOk_drop nb hvp (by unfold loop at hl; simp only at hl; omega) h

/-- While two vertices or more are left, no neighbour is dead, and one with a single free neighbour
is the next vertex or the last. -/
theorem ones_subset {v : Nat} {p : List Nat} {u w : Nat} {l : List Nat} {ns : List Nat}
    (hns : ∀ x ∈ ns, x < n)
    (h : IsHamPath G.Adj (List.range n) ((v :: p).reverse ++ u :: (l ++ [w]))) :
    ¬ Dead (onPath (v :: p)) (freeAt nb.neighborsOf (v :: p)) ns ∧
      ones (onPath (v :: p)) (freeAt nb.neighborsOf (v :: p)) ns ⊆ [u, w] := by
  have hsymm : ∀ a b, G.Adj a b → G.Adj b a := fun _ _ => Graph.Adj.symm
  constructor
  · rintro ⟨x, hx, hv, hd⟩
    rw [onPath_eq_false] at hv
    have := free_pos_of_rest hsymm nb.mem_iff h List.nodup_range (by simp)
      (mem_rest h (List.mem_range.mpr (hns x hx)) hv)
    unfold freeAt at hd
    omega
  · intro x hx
    obtain ⟨hx, hv, hd⟩ := mem_ones.mp hx
    rw [onPath_eq_false] at hv
    by_contra hne
    simp only [List.mem_cons, List.not_mem_nil, or_false, not_or] at hne
    have := free_two_of_rest hsymm nb.mem_iff h List.nodup_range
      (mem_rest h (List.mem_range.mpr (hns x hx)) hv) (by simpa using Ne.symm hne.1)
      (by rw [← List.cons_append, List.getLast?_concat]; simpa using Ne.symm hne.2)
    unfold freeAt at hd
    omega

/-- **The next vertex of a Hamiltonian path is among the neighbours to choose from.** -/
theorem mem_offered {v : Nat} {p : List Nat} {u : Nat} {l : List Nat} (hp : p ≠ [])
    (h : IsHamPath G.Adj (List.range n) ((v :: p).reverse ++ u :: l)) :
    u ∈ offered nb.neighborsOf n e0 e1 (v :: p) := by
  have hu : u ∈ adjList nb.neighborsOf e0 e1 v :=
    (mem_adjList nb).mpr ((nb.mem_iff v u).mpr (adj_next h))
  have hlt : ∀ x ∈ adjList nb.neighborsOf e0 e1 v, x < n :=
    fun x hx => nb.lt ((mem_adjList nb).mp hx)
  have hlen := length_of_hamPath h
  have hnd : (ones (onPath (v :: p)) (freeAt nb.neighborsOf (v :: p))
      (adjList nb.neighborsOf e0 e1 v)).Nodup := (nodup_adjList nb v).filter _
  rw [offered_cons _ hp]
  rcases candidates_cases n (onPath (v :: p)) (freeAt nb.neighborsOf (v :: p)) ((v :: p).length - 1)
    (adjList nb.neighborsOf e0 e1 v) with ⟨ns, -, he, rfl | ⟨rfl, h2⟩⟩ | ⟨hi, hbad, ns, -, he⟩
  · simpa only [he, List.drop_zero] using hu
  · simp only [he, List.drop_zero]
    rcases List.eq_nil_or_concat l with rfl | ⟨l, w, rfl⟩
    · -- `u` is the last vertex left, so it has no free neighbours and there are none with one
      obtain ⟨x, y, hxy⟩ := List.length_eq_two.mp h2
      rw [hxy] at hnd
      have hleft : ∀ z ∈ ones (onPath (v :: p)) (freeAt nb.neighborsOf (v :: p))
          (adjList nb.neighborsOf e0 e1 v), z = u := fun z hz => by
        obtain ⟨hz, hv, -⟩ := mem_ones.mp hz
        exact List.mem_singleton.mp
          (mem_rest h (List.mem_range.mpr (hlt z hz)) (onPath_eq_false.mp hv))
      rw [hxy] at hleft
      rw [hleft x (by simp), hleft y (by simp)] at hnd
      exact absurd hnd (by simp)
    · rw [List.concat_eq_append] at h
      have hperm := (List.subperm_of_subset hnd (ones_subset nb hlt h).2).perm_of_length_le
        (by rw [h2]; rfl)
      exact hperm.mem_iff.mpr (by simp)
  · exfalso
    rcases List.eq_nil_or_concat l with rfl | ⟨l, w, rfl⟩
    · simp only [List.length_cons, List.length_nil] at hlen hi
      omega
    · rw [List.concat_eq_append] at h
      obtain ⟨hdead, hsub⟩ := ones_subset nb hlt h
      rcases hbad with hbad | hbad
      · exact hdead hbad
      · have := (List.subperm_of_subset hnd hsub).length_le
        simp only [List.length_cons, List.length_nil] at this
        omega

/-- **The next vertex of a Hamiltonian path passes the test.** -/
theorem passesAt_next {p : List Nat} {u : Nat} {l : List Nat}
    (h : IsHamPath G.Adj (List.range n) (p.reverse ++ u :: l)) :
    passesAt nb.neighborsOf n p u = true := by
  have hlen := length_of_hamPath h
  unfold passesAt passes
  rw [Bool.and_eq_true, Bool.not_eq_true', onPath_eq_false, Bool.or_eq_true, decide_eq_true_iff]
  refine ⟨next_not_mem h, ?_⟩
  by_cases hl : 2 ≤ l.length
  · right
    unfold makesNeighborUnreachable
    rw [Bool.not_eq_true', List.any_eq_false]
    intro x hx hbad
    rw [Bool.and_eq_true, Bool.not_eq_true', onPath_eq_false, decide_eq_true_iff] at hbad
    have hux := (nb.mem_iff u x).mp hx
    have := (free_of_next (fun _ _ => Graph.Adj.symm) nb.mem_iff h List.nodup_range rfl hl
      (List.mem_range.mpr (nb.lt hx)) hbad.1 hux (ne_of_adj hux).symm).2
    unfold freeAt at hbad
    omega
  · left
    omega

/-- **No Hamiltonian path is pruned.** -/
theorem exact (e0 e1 : Nat) : Exact G.Adj (List.range n) [e1, e0]
    fun path => (offered nb.neighborsOf n e0 e1 path).filter (passesAt nb.neighborsOf n path) :=
  exact_of_next
    (fun path => by
      cases path with
      | nil => exact List.nodup_nil
      | cons v p => exact (nodup_adjList nb v).sublist (offered_sublist nb v p))
    (fun v p u hu h =>
      ⟨(nb.mem_iff v u).mp ((mem_adjList nb).mp ((offered_sublist nb v p).subset hu)),
      not_mem_of_passesAt nb h⟩)
    fun v p u l hs hl => by
      refine ⟨mem_offered nb ?_ hl, passesAt_next nb hl⟩
      rintro rfl
      exact absurd hs.length_le (by simp)

end Search

end PropOptimized

/-! ## The searches agree -/

section Agree

variable {n e0 e1 : Nat}

/-- The ends of a Hamiltonian path from an edge are two vertices. -/
theorem ends_of_hamPath {G : Graph n} (hn : 3 ≤ n) {l : List Nat}
    (h : IsHamPath G.Adj (List.range n) l) (hl : [e0, e1] <+: l) :
    l.getD 0 0 = e0 ∧ e0 < n ∧ l.getD (n - 1) 0 < n ∧ e0 ≠ l.getD (n - 1) 0 := by
  obtain ⟨t, rfl⟩ := hl
  have hlen := h.1.length_eq
  have hnd := h.1.nodup_iff.mpr List.nodup_range
  have hlt : ∀ x ∈ [e0, e1] ++ t, x < n := fun x hx => List.mem_range.mp (h.1.mem_iff.mp hx)
  rw [List.length_range] at hlen
  have hlast : n - 1 < ([e0, e1] ++ t).length := by omega
  rw [List.getD_eq_getElem _ _ hlast]
  refine ⟨rfl, hlt e0 (by simp), hlt _ (List.getElem_mem hlast), fun he => ?_⟩
  have := hnd.getElem_inj_iff.mp (show ([e0, e1] ++ t)[0] = ([e0, e1] ++ t)[n - 1] from he)
  omega

/-- What the propagators fix at the paths found does not depend on their order. -/
theorem forceNotCycle_eq (hn : 3 ≤ n) (g : UnknownGraph n) {paths : List (List Nat)}
    (paths' : List (List Nat))
    (hpaths : ∀ l ∈ paths, IsHamPath g.currentFixedGraph.Adj (List.range n) l ∧ [e0, e1] <+: l)
    (hperm : paths'.Perm paths) :
    paths'.foldlM forceNotCycle g = g.forceAll (paths.map fun l => (e0, l.getD (n - 1) 0)) := by
  have hends := fun l hl => ends_of_hamPath hn (hpaths l hl).1 (hpaths l hl).2
  have hfold : paths'.foldlM forceNotCycle g =
      g.forceAll (paths'.map fun l => (l.getD 0 0, l.getD (n - 1) 0)) := by
    unfold UnknownGraph.forceAll
    rw [List.foldlM_map]
    rfl
  have hmap : (paths'.map fun l => (l.getD 0 0, l.getD (n - 1) 0)) =
      paths'.map fun l => (e0, l.getD (n - 1) 0) := List.map_congr_left fun l hl => by
    rw [(hends l (hperm.mem_iff.mp hl)).1]
  have hp := hperm.map fun l => (e0, l.getD (n - 1) 0)
  have hok : ∀ e ∈ paths.map fun l => (e0, l.getD (n - 1) 0), e.1 < n ∧ e.2 < n ∧ e.1 ≠ e.2 := by
    intro e he
    obtain ⟨l, hl, rfl⟩ := List.mem_map.mp he
    exact (hends l hl).2
  rw [hfold, hmap, g.forceAll_eq _ hok, g.forceAll_eq _ fun e he => hok e (hp.mem_iff.mp he)]
  simp only [hp.mem_iff]
  rw [g.exclude_congr fun e => (hp.map fun e => s(e.1, e.2)).mem_iff]

/-- The paths that a search with exact candidates goes through. -/
theorem mem_enum_edge {G : Graph n} {cands : List Nat → List Nat} (hn : 3 ≤ n) (he : G.Adj e0 e1)
    (h : Exact G.Adj (List.range n) [e1, e0] cands) (l : List Nat) :
    l ∈ enum cands (n - 2) [e1, e0] ↔ IsHamPath G.Adj (List.range n) l ∧ [e0, e1] <+: l := by
  refine h.mem_enum (by simpa using he) (by simpa using (G.ne_of_adj he).symm) ?_ ?_
  · simp [G.bound e0 e1 he, G.lt_right he]
  · simp only [List.length_cons, List.length_nil, List.length_range]
    omega

/-- Two such searches go through the same paths. -/
theorem enum_edge_perm {G : Graph n} {cands cands' : List Nat → List Nat} (hn : 3 ≤ n)
    (he : G.Adj e0 e1) (h : Exact G.Adj (List.range n) [e1, e0] cands)
    (h' : Exact G.Adj (List.range n) [e1, e0] cands') :
    (enum cands (n - 2) [e1, e0]).Perm (enum cands' (n - 2) [e1, e0]) := by
  rw [List.perm_ext_iff_of_nodup (nodup_enum h.nodup _ _) (nodup_enum h'.nodup _ _)]
  intro l
  rw [mem_enum_edge hn he h, mem_enum_edge hn he h']

/-- **The searches from an edge are exact.** On every graph and for every edge, the search of
`PropOptimized` ends, whatever it does at a full path, and it does it once for every Hamiltonian
path that begins with the edge and for nothing else. `Utils.pathsFromEdge` and the search of
`PropNoHamCycleStartsWithEdge` go through the same paths in some order, and the three fix the same
non-edges. -/
theorem edgeSearch_exact (hn : 3 ≤ n) (g : UnknownGraph n) (nb : Listing g.currentFixedGraph)
    (he : g.hasEdge e0 e1 = true) :
    ∃ paths : List (List Nat), paths.Nodup ∧
      (∀ l, l ∈ paths ↔ IsHamPath g.currentFixedGraph.Adj (List.range n) l ∧ [e0, e1] <+: l) ∧
      (∀ (σ : Type) (leaf : σ → List Nat → Except (Halt Exn) σ) (s : σ),
        Converges (PropOptimized.search nb.neighborsOf n e0 e1 leaf s) (paths.foldlM leaf s)) ∧
      (∃ paths' : List (List Nat), paths'.Perm paths ∧
        Converges (Utils.pathsFromEdge g.currentFixedGraph n e0 e1) (.ok paths')) ∧
      (∃ paths' : List (List Nat), paths'.Perm paths ∧
        ∀ (σ : Type) (leaf : σ → List Nat → Except (Halt Exn) σ) (s : σ),
          Converges (PropNoHamCycleStartsWithEdge.search nb.neighborsOf n e0 e1 leaf s)
            (paths'.foldlM leaf s)) ∧
      Converges (PropOptimized.search nb.neighborsOf n e0 e1 forceNotCycle g)
        (g.forceAll (paths.map fun l => (e0, l.getD (n - 1) 0))) ∧
      Converges (PropNoHamCycleStartsWithEdge.search nb.neighborsOf n e0 e1 forceNotCycle g)
        (g.forceAll (paths.map fun l => (e0, l.getD (n - 1) 0))) ∧
      Converges (fun fuel => do
          let paths ← Utils.pathsFromEdge g.currentFixedGraph n e0 e1 fuel
          paths.foldlM forceNotCycle g)
        (g.forceAll (paths.map fun l => (e0, l.getD (n - 1) 0))) := by
  have hadj : g.currentFixedGraph.Adj e0 e1 := he
  have hne := g.currentFixedGraph.ne_of_adj hadj
  -- every search ends, with its own order of the paths
  have optimized := fun (σ : Type) (leaf : σ → List Nat → Except (Halt Exn) σ) (s : σ) =>
    runLoop_converges (PropOptimized.faithful nb leaf) hn rfl rfl hne _
      (PropOptimized.degreesOk_init nb (g.currentFixedGraph.bound e0 e1 hadj)
        (g.currentFixedGraph.lt_right hadj) hne) s
  have startsWith := fun (σ : Type) (leaf : σ → List Nat → Except (Halt Exn) σ) (s : σ) =>
    runLoop_converges (PropNoHamCycleStartsWithEdge.faithful nb leaf) hn rfl rfl hne () trivial s
  have fromEdge := runLoop_converges (Utils.faithful (G := g.currentFixedGraph) record n) hn rfl rfl
    hne () trivial []
  rw [show (Utils.pathsLoop g.currentFixedGraph n record).leaf = record from rfl, foldlM_record,
    List.nil_append] at fromEdge
  -- the paths are those that begin with the edge
  have exact := PropOptimized.exact nb e0 e1
  have hmem := mem_enum_edge hn hadj exact
  have p₂ := enum_edge_perm hn hadj (PropNoHamCycleStartsWithEdge.exact nb) exact
  have p₃ := enum_edge_perm hn hadj Utils.exact exact
  have hforce := fun paths' => forceNotCycle_eq hn g paths' fun l hl => (hmem l).mp hl
  refine ⟨_, nodup_enum exact.nodup _ _, hmem, optimized, ⟨_, p₃, fromEdge⟩, ⟨_, p₂, startsWith⟩,
    ?_, ?_, fromEdge.bind_ok ?_⟩
  · rw [← hforce _ (List.Perm.refl _)]
    exact optimized _ _ _
  · rw [← hforce _ p₂]
    exact startsWith _ _ _
  · rw [← hforce _ p₃]
    exact Converges.const _

/-- On the complete graph on four vertices. -/
theorem edgeSearch_exact_four :
    ∃ paths : List (List Nat), paths.Nodup ∧
      (∀ l, l ∈ paths ↔
        IsHamPath (Graph.complete 4).Adj (List.range 4) l ∧ [0, 2] <+: l) ∧
      Converges (PropOptimized.search (Listing.sorted (Graph.complete 4)).neighborsOf 4 0 2
          forceNotCycle (.ofGraph (Graph.complete 4)))
        ((UnknownGraph.ofGraph (Graph.complete 4)).forceAll
          (paths.map fun l => (0, l.getD 3 0))) := by
  obtain ⟨paths, h1, h2, -, -, -, h3, -⟩ := edgeSearch_exact (by decide)
    (.ofGraph (Graph.complete 4)) (Listing.sorted _)
    (show (UnknownGraph.ofGraph (Graph.complete 4)).hasEdge 0 2 = true by decide)
  exact ⟨paths, h1, h2, h3⟩

end Agree

end SymBreak.Uhg
