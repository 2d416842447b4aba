import SymBreak.Uhg.CycleArrays
import SymBreak.Uhg.Paths

/-!
# The propagator for at least one cycle

Model of `PropAtLeastOneCycle` (`PropAtLeastOneCycle.java`). It remembers a cycle with `k` vertices
none of whose edges is excluded. While the cycle stays possible `propagate` returns at once;
otherwise it forgets the cycle and searches another one, from every start vertex in turn, and throws
when there is none. The remembered cycle is a plain field, so that backtracking leaves it as it is.

Results:
* `possible_of_settled`: a cycle that is not forgotten is one of the graph of the possible edges;
* `searchAll_spec`: the search ends, and finds a cycle iff the graph of the possible edges has one;
* **`propagate_throws_iff_impossible`**: after every history, `propagate` ends, and throws iff no
  cycle is possible.
-/

namespace SymBreak.Uhg

open Hamilton Backtrack Graph Utils

namespace PropAtLeastOneCycle

variable {n : Nat}

/-! ## Model -/

/-- The loop of `undetermined` (`PropAtLeastOneCycle.java:104-111`), for the statuses of the edges
that are left. -/
def countFree : List ESat → Nat → Bool
  | [], free => decide (0 < free)
  | e :: es, free =>
    let free := if e = .UNDEFINED then free + 1 else free
    if e = .FALSE then false else countFree es free

/-- `undetermined` (`PropAtLeastOneCycle.java:99-113`) -/
def undetermined (g : UnknownGraph n) (k : Nat) : Option (List Nat) → Bool
  | none => false
  | some cycle => countFree ((List.range k).map fun i =>
    g.edgeStatus (cycle.getD i 0) (cycle.getD ((i + 1) % k) 0)) 0

/-- At a full path: return it when its ends may be adjacent (`PropAtLeastOneCycle.java:46-49`). -/
def findCycle (g : UnknownGraph n) (k : Nat) (_ : Unit) (currentPath : List Nat) :
    Except (Halt (List Nat)) Unit :=
  if g.edgeStatus (currentPath.getD 0 0) (currentPath.getD (k - 1) 0) != .FALSE then
    .error (.raised currentPath)
  else .ok ()

/-- The search from a start vertex (`PropAtLeastOneCycle.java:43-71`), which the cycle that is found
ends. -/
def loop (g : UnknownGraph n) (k : Nat) : Loop Nat Unit Unit (List Nat) where
  stop := -1
  last := k - 1
  leaf := findCycle g k
  scan st v := innerLoop (pick fun u => g.edgeStatus v u != .FALSE && !st.visited u)
    ((List.range n).drop (st.inds v)) (st.inds v)
  push _ _ := ()
  pop _ _ := ()

/-- The search from every start vertex (`PropAtLeastOneCycle.java:34-72`). -/
def searchAll (g : UnknownGraph n) (k fuel : Nat) : Except (Halt (List Nat)) Unit :=
  (List.range n).foldlM (fun _ s => do
    let _ ← (loop g k).run fuel (startAt emptyState s) ()
    .ok ()) ()

/-- `propagate(mask)` (`PropAtLeastOneCycle.java:26-76`): how it ends, and the field `cycle`
afterwards. -/
def propagate (g : UnknownGraph n) (k : Nat) (cycle : Option (List Nat)) (fuel : Nat) :
    Except (Halt Exn) Unit × Option (List Nat) :=
  if isCycle g k cycle || undetermined g k cycle then (.ok (), cycle)
  else match searchAll g k fuel with
    | .ok () => (.error (.raised .contradiction), none)
    | .error (.raised currentPath) => (.ok (), some currentPath)
    | .error .outOfFuel => (.error .outOfFuel, none)

theorem edgeStatus_comm (g : UnknownGraph n) (i j : Nat) : g.edgeStatus i j = g.edgeStatus j i := by
  unfold UnknownGraph.edgeStatus
  rw [g.symm i j]
  simp only [eq_comm]

/-- The graph of the edges that are not excluded. -/
def possible (g : UnknownGraph n) : Graph n where
  adj i j := decide (i < n) && decide (j < n) && g.edgeStatus i j != .FALSE
  symm i j := by rw [edgeStatus_comm, Bool.and_comm (decide (i < n))]
  irrefl i := by simp [UnknownGraph.edgeStatus]
  bound i j h := by
    simp only [Bool.and_eq_true, decide_eq_true_iff] at h
    exact h.1.1

variable {g : UnknownGraph n} {k : Nat}

theorem possible_adj {i j : Nat} :
    (possible g).Adj i j ↔ i < n ∧ j < n ∧ g.edgeStatus i j ≠ .FALSE := by
  unfold Graph.Adj possible
  simp only [Bool.and_eq_true, decide_eq_true_iff, bne_iff_ne, and_assoc]

/-! ## The remembered cycle -/

/-- What the field can hold: nothing, or `k` different vertices. -/
def FieldOk (n k : Nat) (cycle : Option (List Nat)) : Prop :=
  ∀ c ∈ cycle, c.length = k ∧ c.Nodup ∧ ∀ x ∈ c, x < n

theorem countFree_spec {es : List ESat} {free : Nat} (h : countFree es free = true) :
    .FALSE ∉ es := by
  induction es generalizing free with
  | nil => exact List.not_mem_nil
  | cons e es ih =>
    unfold countFree at h
    by_cases he : e = .FALSE
    · rw [if_pos he] at h
      exact absurd h Bool.false_ne_true
    · rw [if_neg he] at h
      rw [List.mem_cons, not_or]
      exact ⟨Ne.symm he, ih h⟩

/-- A fixed edge is not excluded. -/
theorem edgeStatus_of_hasEdge {i j : Nat} (h : g.hasEdge i j = true) :
    g.edgeStatus i j ≠ .FALSE := by
  rw [UnknownGraph.edgeStatus, if_neg (g.currentFixedGraph.ne_of_adj h), (g.fixed_iff i j).mp h]
  decide

/-- **A cycle that is not forgotten is possible.** -/
theorem possible_of_settled (hk : 2 ≤ k) {cycle : Option (List Nat)} (hc : FieldOk n k cycle)
    (h : (isCycle g k cycle || undetermined g k cycle) = true) : (possible g).HasCycle k := by
  cases cycle with
  | none => exact absurd h Bool.false_ne_true
  | some c =>
    obtain ⟨hlen, hnd, hlt⟩ := hc c rfl
    have hstatus : ∀ i < k, g.edgeStatus (c.getD i 0) (c.getD ((i + 1) % k) 0) ≠ .FALSE := by
      intro i hi
      rcases Bool.or_eq_true_iff.mp h with h | h
      · rw [isCycle, List.all_eq_true] at h
        exact edgeStatus_of_hasEdge (h i (List.mem_range.mpr hi))
      · exact fun he => countFree_spec h (List.mem_map.mpr ⟨i, List.mem_range.mpr hi, he⟩)
    have hmem : ∀ {i}, i < k → c.getD i 0 < n := fun hi => by
      rw [List.getD_eq_getElem _ _ (hlen.symm ▸ hi)]
      exact hlt _ (List.getElem_mem _)
    subst hlen
    refine ⟨c, rfl, (isCycle_iff_getD hnd (by omega)).mpr fun i hi => ?_⟩
    exact possible_adj.mpr ⟨hmem hi, hmem (Nat.mod_lt _ (by omega)), hstatus i hi⟩

/-! ## The search -/

/-- The vertices offered after a path. -/
def offered (g : UnknownGraph n) (path : List Nat) : List Nat :=
  (neighborsAt (fun _ => List.range n) path).filter fun u =>
    g.edgeStatus (path.headD 0) u != .FALSE && !onPath path u

/-- A turn of the search depends on the path only. -/
theorem loop_faithful (g : UnknownGraph n) (k : Nat) : Faithful (loop g k) (fun _ _ => True)
    fun path i => ((neighborsAt (fun _ => List.range n) path).drop i).filter
      fun u => g.edgeStatus (path.headD 0) u != .FALSE && !onPath path u :=
  faithful_of_scan (fun _ => List.range n)
    (fun visited _ v u => g.edgeStatus v u != .FALSE && !visited u)
    (fun _ _ _ _ h => (Bool.not_eq_true' _).mp (Bool.and_elim_right h)) fun _ _ => rfl

/-- From a vertex of the graph on, these are the paths of the graph of the possible edges. -/
theorem enum_offered : ∀ (d v : Nat) (p : List Nat), v < n →
    enum (offered g) d (v :: p) = enum (nextOn (possible g)) d (v :: p) := by
  intro d
  induction d with
  | zero => exact fun _ _ _ => rfl
  | succ d ih =>
    intro v p hv
    have hcands : offered g (v :: p) = nextOn (possible g) (v :: p) := by
      refine List.filter_congr fun u hu => ?_
      have hu : u < n := List.mem_range.mp hu
      simp only [possible, List.headD_cons, hv, hu, decide_true, Bool.true_and]
    rw [enum, enum, hcands]
    exact List.flatMap_congr fun u hu =>
      ih u (v :: p) (List.mem_range.mp (mem_nextOn.mp hu).2.2)

/-- A full path is returned when its ends may be adjacent. -/
def closes (g : UnknownGraph n) (k : Nat) (l : List Nat) : Prop :=
  (g.edgeStatus (l.getD 0 0) (l.getD (k - 1) 0) != .FALSE) = true

/-- **The first path that closes** is returned. -/
theorem foldlM_findCycle (ls : List (List Nat)) :
    (ls.foldlM (findCycle g k) () = .ok () ∧ ∀ l ∈ ls, ¬ closes g k l) ∨
      ∃ l ∈ ls, closes g k l ∧ ls.foldlM (findCycle g k) () = .error (.raised l) := by
  induction ls with
  | nil => exact Or.inl ⟨rfl, fun _ hl => absurd hl List.not_mem_nil⟩
  | cons l ls ih =>
    rw [List.foldlM_cons]
    by_cases hl : closes g k l
    · refine Or.inr ⟨l, List.mem_cons_self, hl, ?_⟩
      rw [show findCycle g k () l = .error (.raised l) from if_pos hl]
      rfl
    · rw [show findCycle g k () l = .ok () from if_neg hl, ok_bind]
      rcases ih with ⟨hok, hall⟩ | ⟨l', hl', hc, herr⟩
      · exact Or.inl ⟨hok, List.forall_mem_cons.mpr ⟨hl, hall⟩⟩
      · exact Or.inr ⟨l', List.mem_cons_of_mem l hl', hc, herr⟩

/-- **The search from a vertex** returns a path from it that closes, where there is one. -/
theorem searchFrom_spec (hk : 2 ≤ k) {s : Nat} (hs : s < n) : ∃ o : Except (Halt (List Nat)) Unit,
    Converges (fun fuel => do
      let _ ← (loop g k).run fuel (startAt emptyState s) ()
      .ok ()) o ∧
    ((o = .ok () ∧ ∀ l ∈ startPaths (possible g) k s, ¬ closes g k l) ∨
      ∃ l ∈ startPaths (possible g) k s, closes g k l ∧ o = .error (.raised l)) := by
  have hd : k - 1 = k - 2 + 1 := by omega
  obtain ⟨st', -, hrun⟩ := run_converges (loop_faithful g k) (d := k - 2) (rep_startAt s) rfl
    (by simp only [loop, startAt, emptyState]; omega) rfl
  have hpaths : enum (offered g) (k - 2 + 1) [s] = startPaths (possible g) k s := by
    rw [startPaths, hd, enum_offered _ _ _ hs]
  have h : Converges (fun fuel => (loop g k).run fuel (startAt emptyState s) ())
      ((enum (offered g) (k - 2 + 1) [s]).foldlM (findCycle g k) () >>= fun s => .ok (st', s)) :=
    hrun ()
  rw [hpaths] at h
  rcases foldlM_findCycle (g := g) (k := k) (startPaths (possible g) k s) with
    ⟨hok, hall⟩ | ⟨l, hl, hc, herr⟩
  · rw [hok] at h
    exact ⟨_, h.bind_ok (.const _), Or.inl ⟨rfl, hall⟩⟩
  · rw [herr] at h
    exact ⟨_, h.bind_error, Or.inr ⟨l, hl, hc, rfl⟩⟩

/-- **The searches from the vertices one after another.** -/
theorem searches_spec (hk : 2 ≤ k) {vs : List Nat} (hvs : ∀ v ∈ vs, v < n) :
    ∃ o : Except (Halt (List Nat)) Unit, Converges (fun fuel => vs.foldlM (fun _ s => do
      let _ ← (loop g k).run fuel (startAt emptyState s) ()
      .ok ()) ()) o ∧
    ((o = .ok () ∧ ∀ s ∈ vs, ∀ l ∈ startPaths (possible g) k s, ¬ closes g k l) ∨
      ∃ s ∈ vs, ∃ l ∈ startPaths (possible g) k s, closes g k l ∧ o = .error (.raised l)) := by
  induction vs with
  | nil => exact ⟨.ok (), .const _, Or.inl ⟨rfl, fun _ hs => absurd hs List.not_mem_nil⟩⟩
  | cons v vs ih =>
    obtain ⟨hv, hvs⟩ := List.forall_mem_cons.mp hvs
    simp only [List.foldlM_cons]
    obtain ⟨o, ho, hres⟩ := searchFrom_spec (g := g) hk hv
    rcases hres with ⟨rfl, hall⟩ | ⟨l, hl, hc, rfl⟩
    · obtain ⟨o', ho', hres'⟩ := ih hvs
      refine ⟨o', ho.bind_ok ho', hres'.imp ?_ ?_⟩
      · exact fun h => ⟨h.1, List.forall_mem_cons.mpr ⟨hall, h.2⟩⟩
      · rintro ⟨s, hs, h⟩
        exact ⟨s, List.mem_cons_of_mem v hs, h⟩
    · exact ⟨_, ho.bind_error, Or.inr ⟨v, List.mem_cons_self, l, hl, hc, rfl⟩⟩

/-- A path from a vertex that closes is a cycle. -/
theorem isCycle_of_closes (hk : 3 ≤ k) {s : Nat} (hs : s < n) {l : List Nat}
    (hl : l ∈ startPaths (possible g) k s) (hc : closes g k l) :
    l.length = k ∧ (possible g).IsCycle l := by
  obtain ⟨hpath, rfl, -⟩ := (mem_startPaths (by omega) hs).mp hl
  refine ⟨rfl, (isCycle_iff_ends hpath.2 (by omega)).mpr ⟨hpath.1, Graph.Adj.symm ?_⟩⟩
  exact possible_adj.mpr ⟨hpath.getD_lt (by omega) (by omega), hpath.getD_lt (by omega) (by omega),
    bne_iff_ne.mp hc⟩

/-- A cycle is found from its first vertex on. -/
theorem exists_closes (hk : 3 ≤ k) (h : (possible g).HasCycle k) :
    ∃ s < n, ∃ l ∈ startPaths (possible g) k s, closes g k l := by
  obtain ⟨c, rfl, hc⟩ := h
  obtain ⟨s, t, rfl⟩ := List.exists_cons_of_length_pos (l := c) (by omega)
  obtain ⟨hch, hclose⟩ := (isCycle_iff_ends hc.1 (by omega)).mp hc
  obtain ⟨-, hs, hstatus⟩ := possible_adj.mp hclose
  refine ⟨s, hs, s :: t, (mem_startPaths (by omega) hs).mpr ⟨⟨hch, hc.1⟩, rfl, rfl⟩, ?_⟩
  rw [edgeStatus_comm] at hstatus
  exact bne_iff_ne.mpr hstatus

/-- **The search ends, and finds a possible cycle iff there is one.** -/
theorem searchAll_spec (hk : 3 ≤ k) (g : UnknownGraph n) :
    ∃ o, Converges (searchAll g k) o ∧ ((o = .ok () ∧ ¬ (possible g).HasCycle k) ∨
      ∃ l, l.length = k ∧ (possible g).IsCycle l ∧ o = .error (.raised l)) := by
  obtain ⟨o, ho, hres⟩ := searches_spec (g := g) (k := k) (by omega)
    (show ∀ v ∈ List.range n, v < n from fun v hv => List.mem_range.mp hv)
  refine ⟨o, ho, hres.imp ?_ ?_⟩
  · rintro ⟨hok, hall⟩
    refine ⟨hok, fun h => ?_⟩
    obtain ⟨s, hs, l, hl, hc⟩ := exists_closes hk h
    exact hall s (List.mem_range.mpr hs) l hl hc
  · rintro ⟨s, hs, l, hl, hc, herr⟩
    obtain ⟨hlen, hcyc⟩ := isCycle_of_closes hk (List.mem_range.mp hs) hl hc
    exact ⟨l, hlen, hcyc, herr⟩

/-! ## Propagation -/

/-- The values of the field `cycle`: the constructor's, and what `propagate` leaves, however the
graph has changed in between. -/
inductive Field (n k : Nat) : Option (List Nat) → Prop
  | initial : Field n k (some (List.range k))
  | propagated {cycle : Option (List Nat)} (h : Field n k cycle) (g : UnknownGraph n)
      {r : Except (Halt Exn) Unit × Option (List Nat)} (hr : Converges (propagate g k cycle) r) :
      Field n k r.2

/-- **One propagation**, for any value that the field can hold. -/
theorem propagate_spec (hk : 3 ≤ k) (g : UnknownGraph n) {cycle : Option (List Nat)}
    (hc : FieldOk n k cycle) : ∃ r, Converges (propagate g k cycle) r ∧ FieldOk n k r.2 ∧
      ((r.1 = .ok () ∧ (possible g).HasCycle k) ∨
        (r.1 = .error (.raised .contradiction) ∧ ¬ (possible g).HasCycle k)) := by
  by_cases hset : (isCycle g k cycle || undetermined g k cycle) = true
  · refine ⟨(.ok (), cycle), .of_eq fun fuel => if_pos hset, hc, Or.inl ⟨rfl, ?_⟩⟩
    exact possible_of_settled (by omega) hc hset
  · obtain ⟨o, ⟨N, hN⟩, hres⟩ := searchAll_spec hk g
    rcases hres with ⟨rfl, hnone⟩ | ⟨l, hlen, hcyc, rfl⟩
    · refine ⟨(.error (.raised .contradiction), none), ⟨N, fun fuel hf => ?_⟩,
        fun _ h => absurd h (Option.not_mem_none _), Or.inr ⟨rfl, hnone⟩⟩
      rw [propagate, if_neg hset, hN fuel hf]
    · refine ⟨(.ok (), some l), ⟨N, fun fuel hf => ?_⟩, fun c hcl => ?_,
        Or.inl ⟨rfl, l, hlen, hcyc⟩⟩
      · rw [propagate, if_neg hset, hN fuel hf]
      · obtain rfl := Option.mem_some_iff.mp hcl
        refine ⟨hlen, hcyc.1, fun x hx => ?_⟩
        obtain ⟨hch, -⟩ := (isCycle_iff_ends hcyc.1 (by omega)).mp hcyc
        exact IsPath.lt_of_mem ⟨hch, hcyc.1⟩ (by omega) hx

/-- Whatever the history, the field holds nothing or `k` different vertices. -/
theorem Field.ok (hk : 3 ≤ k) (hkn : k ≤ n) {cycle : Option (List Nat)} (h : Field n k cycle) :
    FieldOk n k cycle := by
  induction h with
  | initial =>
    intro c hc
    obtain rfl := Option.mem_some_iff.mp hc
    refine ⟨List.length_range, List.nodup_range, fun x hx => ?_⟩
    exact Nat.lt_of_lt_of_le (List.mem_range.mp hx) hkn
  | propagated _ g hr ih =>
    obtain ⟨r, hr', hok, -⟩ := propagate_spec hk g ih
    rw [hr.unique hr']
    exact hok

/-- **After every history, `propagate` ends, and throws iff no cycle on `k` vertices is possible**;
otherwise it returns. -/
theorem propagate_throws_iff_impossible (hk : 3 ≤ k) (hkn : k ≤ n) {cycle : Option (List Nat)}
    (h : Field n k cycle) (g : UnknownGraph n) : ∃ r, Converges (propagate g k cycle) r ∧
      (r.1 = .error (.raised .contradiction) ↔ ¬ (possible g).HasCycle k) ∧
      ((possible g).HasCycle k → r.1 = .ok ()) := by
  obtain ⟨r, hr, -, hres⟩ := propagate_spec hk g (h.ok hk hkn)
  refine ⟨r, hr, ?_⟩
  rcases hres with ⟨hok, hcyc⟩ | ⟨herr, hno⟩
  · rw [hok]
    exact ⟨iff_of_false (by simp) (not_not.mpr hcyc), fun _ => rfl⟩
  · rw [herr]
    exact ⟨iff_of_true rfl hno, fun h => absurd h hno⟩

/-- For triangles on four vertices, when an edge of the remembered one is excluded. -/
theorem propagate_throws_iff_impossible_excluded :
    ∃ r, Converges (propagate ((UnknownGraph.ofGraph (Graph.empty 4)).exclude [s(0, 1)]) 3
        (some (List.range 3))) r ∧
      (r.1 = .error (.raised .contradiction) ↔
        ¬ (possible ((UnknownGraph.ofGraph (Graph.empty 4)).exclude [s(0, 1)])).HasCycle 3) ∧
      ((possible ((UnknownGraph.ofGraph (Graph.empty 4)).exclude [s(0, 1)])).HasCycle 3 →
        r.1 = .ok ()) :=
  propagate_throws_iff_impossible (by decide) (by decide) .initial _

end PropAtLeastOneCycle

end SymBreak.Uhg
