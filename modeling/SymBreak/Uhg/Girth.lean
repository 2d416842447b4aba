import SymBreak.Lib.Branch
import SymBreak.Uhg.PropNoCycle
import SymBreak.Uhg.Constraints
import Mathlib.Algebra.Order.BigOperators.Group.List

/-!
# The girth of the graphs accepted

`girthAtLeast(k)` posts one `PropNoCycle` for every length below `k` (`UHGSearch.java:43-47`). The
solver that runs them is an instance of `Lib.Branch`; as in `UHGSearch`, it may do in any order what
its relations allow, and the other constraints are `Q`. Every propagator is first propagated once,
which does nothing, and is then called at least once for every variable instantiated after that
(`pending`). What had been instantiated before makes no event; the edges of it are kept here as
`first`.

Results:
* `NoCycle.Ok`: every cycle of its length consists of edges in `first`, or passes through a pending
  edge;
* `girthSolver_sound`, `girthSolver_covers`, `girthSolver_progress`: what the single steps do;
* **`girthAtLeast_iff`**: no graph of girth `k` is lost, and an accepted one has girth `k` iff no
  propagator was first propagated on a cycle of its length;
* `timely_iff`: with no chord fixed before, that is so iff `k ≤ n`.
-/

namespace SymBreak.Uhg

open Hamilton Graph Branch

variable {n : Nat}

/-! ## The solver -/

/-- The lengths for which `girthAtLeast(k)` posts a propagator. -/
def girthLengths (k : Nat) : List Nat := List.range' 3 (k - 3)

theorem mem_girthLengths {k i : Nat} : i ∈ girthLengths k ↔ 3 ≤ i ∧ i < k := by
  unfold girthLengths
  rw [List.mem_range'_1]
  omega

/-- A `PropNoCycle` that was propagated: the graph of the edges fixed by then, and the edges
instantiated since for which it was not called. -/
structure NoCycle (n : Nat) where
  first : Graph n
  pending : List (Nat × Nat)

/-- An instantiation makes an event. -/
def NoCycle.notify (e : Nat × Nat) (val : Bool) (p : NoCycle n) : NoCycle n :=
  if val then { p with pending := e :: p.pending } else p

/-- What the solver restores on backtracking: the graph and, for every length, its propagator,
unless it was not propagated yet. -/
structure GirthWorld (n : Nat) where
  graph : UnknownGraph n
  props : Nat → Option (NoCycle n)

/-- The other value of a decided pair. -/
structure GirthDecision (n : Nat) where
  world : GirthWorld n
  edge : Nat × Nat
  value : Bool

namespace GirthWorld

/-- Set the variable of a pair. -/
def set (w : GirthWorld n) (e : Nat × Nat) (val : Bool) : Except (Halt Exn) (GirthWorld n) := do
  let g ← w.graph.fixEdgeValue e.1 e.2 val
  .ok { graph := g, props := fun i => (w.props i).map (NoCycle.notify e val) }

/-- The world after a propagator, which is `p` then, returned a graph or threw a contradiction. -/
def after (w : GirthWorld n) (i : Nat) (p : NoCycle n) :
    Except (Halt Exn) (UnknownGraph n) → Option (Option (GirthWorld n))
  | .ok g => some (some { graph := g, props := Function.update w.props i (some p) })
  | .error (.raised .contradiction) => some none
  | .error _ => none

/-- What the propagators and the other constraints do. -/
inductive Infers (k : Nat) (Q : Graph n → Prop) : GirthWorld n → Option (GirthWorld n) → Prop
  | activate {w c} (i : Nat) (hi : i ∈ girthLengths k) (hp : w.props i = none)
      (hc : w.after i ⟨w.graph.currentFixedGraph, []⟩ (PropNoCycle.propagateAll w.graph) = some c) :
      Infers k Q w c
  | propagate {w p r c} (nb : Listing w.graph.currentFixedGraph) (i vIdx x y : Nat)
      (hi : i ∈ girthLengths k) (hp : w.props i = some p) (hv : (allVars n)[vIdx]? = some (x, y))
      (hval : w.graph.value x y ≠ .UNDEFINED)
      (hr : Converges (PropNoCycle.propagate nb.neighborsOf i vIdx w.graph) r)
      (hc : w.after i { p with pending := p.pending.filter (· ≠ (x, y)) } r = some c) :
      Infers k Q w c
  | infer {w w'} (e : Nat × Nat) (val : Bool) (he : e ∈ allVars n)
      (hu : w.graph.value e.1 e.2 = .UNDEFINED)
      (hQ : ∀ G, Agrees w.graph G → Q G → G.adj e.1 e.2 = val) (h : w.set e val = .ok w') :
      Infers k Q w (some w')
  | fail {w} (hQ : ∀ G, Agrees w.graph G → ¬ Q G) : Infers k Q w none

end GirthWorld

/-- **The solver**: an accepted graph is complete, has `Q`, and has gone through every propagator,
for every edge instantiated since it was first propagated. -/
def girthSolver (k : Nat) (Q : Graph n → Prop) :
    Solver (GirthWorld n) (GirthDecision n) (GirthWorld n) where
  infer := GirthWorld.Infers k Q
  decide w w' d := d.world = w ∧ d.edge ∈ allVars n ∧
    w.graph.value d.edge.1 d.edge.2 = .UNDEFINED ∧ w.set d.edge (!d.value) = .ok w'
  retry d w := d.world.set d.edge d.value = .ok w
  accept w a := a = w ∧ (∀ e ∈ allVars n, w.graph.value e.1 e.2 ≠ .UNDEFINED) ∧
    Q w.graph.currentFixedGraph ∧ ∀ i ∈ girthLengths k, ∃ p, w.props i = some p ∧ p.pending = []

/-- The world before the first step. -/
def GirthWorld.start (g : UnknownGraph n) : GirthWorld n := ⟨g, fun _ => none⟩

/-! ## The invariant -/

/-- **The invariant of a propagator** for the length `i`. -/
structure NoCycle.Ok (g : UnknownGraph n) (i : Nat) (p : NoCycle n) : Prop where
  first : p.first.Sub g.currentFixedGraph
  pending : ∀ e ∈ p.pending, e ∈ allVars n ∧ g.value e.1 e.2 = .TRUE
  found : ∀ c, c.length = i → g.currentFixedGraph.IsCycle c →
    p.first.IsCycle c ∨ ∃ e ∈ p.pending, CycleEdge c e.1 e.2

/-- The invariant of a world. -/
structure GirthWorld.Ok (w : GirthWorld n) : Prop where
  cycle : w.graph.currentFixedGraph.ContainsCycle
  props : ∀ i p, w.props i = some p → 3 ≤ i ∧ p.Ok w.graph i

/-- When it is first propagated. -/
theorem NoCycle.ok_first (g : UnknownGraph n) (i : Nat) :
    NoCycle.Ok g i ⟨g.currentFixedGraph, []⟩ :=
  ⟨Graph.Sub.refl _, by simp, fun _ _ hc => Or.inl hc⟩

/-- Non-edges do not matter, and nothing is lost with an edge that no cycle passes through. -/
theorem NoCycle.Ok.filter {g g' : UnknownGraph n} {i : Nat} {p : NoCycle n} (h : p.Ok g i)
    (hg : g'.currentFixedGraph = g.currentFixedGraph) {e : Nat × Nat}
    (he : ¬ g.currentFixedGraph.CycleThrough i e.1 e.2) :
    NoCycle.Ok g' i { p with pending := p.pending.filter (· ≠ e) } where
  first := hg ▸ h.first
  pending e' he' := by
    obtain ⟨h1, h2⟩ := h.pending e' (List.mem_filter.mp he').1
    refine ⟨h1, (g'.fixed_iff _ _).mp ?_⟩
    rw [hg]
    exact (g.fixed_iff _ _).mpr h2
  found c hlen hc := by
    rw [hg] at hc
    rcases h.found c hlen hc with hfirst | ⟨e', he', hce⟩
    · exact Or.inl hfirst
    · refine Or.inr ⟨e', List.mem_filter.mpr ⟨he', ?_⟩, hce⟩
      have hne : e' ≠ e := by
        rintro rfl
        exact he ⟨c, hlen, hc, hce⟩
      simpa using hne

/-- **A cycle that is new passes through the pair set.** -/
theorem NoCycle.Ok.notify {g : UnknownGraph n} {i : Nat} (hi : 3 ≤ i) {p : NoCycle n}
    (h : p.Ok g i) {e : Nat × Nat} (he : e ∈ allVars n) (hu : g.value e.1 e.2 = .UNDEFINED)
    (val : Bool) :
    NoCycle.Ok (g.assign e.1 e.2 (bounds_of_mem he) hu val) i (p.notify e val) := by
  have hadj : ∀ a b, g.currentFixedGraph.Adj a b →
      (g.assign e.1 e.2 (bounds_of_mem he) hu val).currentFixedGraph.Adj a b := fun a b hab =>
    (UnknownGraph.fixed_iff _ _ _).mpr (g.value_assign_of_true ((g.fixed_iff a b).mp hab))
  have hfirst : (p.notify e val).first = p.first := by cases val <;> rfl
  have hmem : ∀ {e'}, e' ∈ (p.notify e val).pending ↔ val = true ∧ e' = e ∨ e' ∈ p.pending := by
    intro e'
    rw [← mem_notified]
    cases val <;> rfl
  refine ⟨fun a b hab => hadj a b (h.first a b (hfirst ▸ hab)), fun e' he' => ?_,
    fun c hlen hc => ?_⟩
  · rcases hmem.mp he' with ⟨rfl, rfl⟩ | he'
    · exact ⟨he, value_assign_true hu⟩
    · exact ⟨(h.pending e' he').1, g.value_assign_of_true (h.pending e' he').2⟩
  · rcases isHamCycle_assign_cases hu (by omega) hc.isHamCycle with hold | ⟨hval, hce⟩
    · rcases h.found c hlen ⟨hc.1, hold.2⟩ with hin | ⟨e', he', hce'⟩
      · exact Or.inl (hfirst ▸ hin)
      · exact Or.inr ⟨e', hmem.mpr (Or.inr he'), hce'⟩
    · exact Or.inr ⟨e, hmem.mpr (Or.inl ⟨hval, rfl⟩), hce⟩

/-! ## Single steps -/

section Steps

variable {k : Nat} {Q : Graph n → Prop} {w w' : GirthWorld n}

/-- Setting an undecided pair. -/
theorem GirthWorld.set_eq (w : GirthWorld n) {e : Nat × Nat} (he : e ∈ allVars n)
    (hu : w.graph.value e.1 e.2 = .UNDEFINED) (val : Bool) :
    w.set e val = .ok { graph := w.graph.assign e.1 e.2 (bounds_of_mem he) hu val
                        props := fun i => (w.props i).map (NoCycle.notify e val) } := by
  unfold GirthWorld.set
  rw [fixEdgeValue_undefined he hu, ok_bind]

/-- **Setting a pair keeps the invariant.** -/
theorem GirthWorld.Ok.set (hw : w.Ok) {e : Nat × Nat} {val : Bool} (he : e ∈ allVars n)
    (hu : w.graph.value e.1 e.2 = .UNDEFINED) (h : w.set e val = .ok w') : w'.Ok := by
  rw [w.set_eq he hu] at h
  obtain rfl := Except.ok.inj h
  refine ⟨fun i hi => ?_, fun i p hp => ?_⟩
  · exact (UnknownGraph.fixed_iff (w.graph.assign e.1 e.2 (bounds_of_mem he) hu val) _ _).mpr
      (w.graph.value_assign_of_true ((w.graph.fixed_iff _ _).mp (hw.cycle i hi)))
  · obtain ⟨p₀, hp₀, rfl⟩ := Option.map_eq_some_iff.mp hp
    obtain ⟨hi, hok⟩ := hw.props i p₀ hp₀
    exact ⟨hi, hok.notify hi he hu val⟩

theorem GirthWorld.agrees_set {e : Nat × Nat} {val : Bool} (he : e ∈ allVars n)
    (hu : w.graph.value e.1 e.2 = .UNDEFINED) (h : w.set e val = .ok w') {G : Graph n} :
    Agrees w'.graph G ↔ Agrees w.graph G ∧ G.adj e.1 e.2 = val := by
  rw [w.set_eq he hu] at h
  rw [← Except.ok.inj h]
  exact agrees_assign (bounds_of_mem he) hu

/-- A propagator that returned has taken its step in a world with the invariant. -/
theorem GirthWorld.Ok.after (hw : w.Ok) {i : Nat} (hi : 3 ≤ i) {p : NoCycle n} {g : UnknownGraph n}
    (hg : g.currentFixedGraph = w.graph.currentFixedGraph) (hp : p.Ok g i) :
    GirthWorld.Ok ⟨g, Function.update w.props i (some p)⟩ := by
  refine ⟨by rw [hg]; exact hw.cycle, fun j q hq => ?_⟩
  change Function.update w.props i (some p) j = some q at hq
  by_cases hj : j = i
  · subst hj
    rw [Function.update_self] at hq
    obtain rfl := Option.some.inj hq
    exact ⟨hi, hp⟩
  · rw [Function.update_of_ne hj] at hq
    obtain ⟨h3, hok⟩ := hw.props j q hq
    refine ⟨h3, by rw [hg]; exact hok.first, fun e he => ?_, by rw [hg]; exact hok.found⟩
    obtain ⟨h1, h2⟩ := hok.pending e he
    refine ⟨h1, (g.fixed_iff _ _).mp ?_⟩
    rw [hg]
    exact (w.graph.fixed_iff _ _).mpr h2

/-- **What a call of a propagator does**: it returns a graph with the same edges, and then no cycle
of its length passes through the edge it was called for, or throws, and then every graph left has
such a cycle. -/
theorem propagate_cases (g : UnknownGraph n) (nb : Listing g.currentFixedGraph) {i vIdx x y : Nat}
    (hi : 3 ≤ i) (hv : (allVars n)[vIdx]? = some (x, y)) (hval : g.value x y ≠ .UNDEFINED) :
    ∃ r, Converges (PropNoCycle.propagate nb.neighborsOf i vIdx g) r ∧
      ((∃ g', r = .ok g' ∧ g'.currentFixedGraph = g.currentFixedGraph ∧
          ¬ g.currentFixedGraph.CycleThrough i x y ∧
          (undecided g').length ≤ (undecided g).length ∧
          ∀ G, Agrees g G → ¬ G.HasCycle i → Agrees g' G) ∨
        (r = .error (.raised .contradiction) ∧ ∀ G, Agrees g G → G.HasCycle i)) := by
  by_cases hxy : g.value x y = .TRUE
  · obtain ⟨es, hes, hclose⟩ :=
      PropNoCycle.propagate_spec nb hi ((g.fixed_iff x y).mpr hxy) hv
    have hcycle := hes.mono fun G _ (h : G.CycleThrough i x y) => h.hasCycle
    have hrun := hes.2 g rfl
    rw [forceAll_of_forced hes.1] at hrun
    by_cases hedge : ∃ e ∈ es, g.hasEdge e.1 e.2 = true
    · rw [if_pos hedge] at hrun
      obtain ⟨e, he, hadj⟩ := hedge
      exact ⟨_, hrun, Or.inr ⟨rfl, fun G hG => (hcycle.1 e he).through G hG.fixed
        (hG.fixed _ _ hadj)⟩⟩
    · rw [if_neg hedge] at hrun
      exact ⟨_, hrun, Or.inl ⟨_, rfl, rfl, fun h => hedge (hclose h), length_undecided_exclude _ _,
        fun G hG hno => (hG.of_forces hcycle rfl hno).2⟩⟩
  · -- a variable that is `0` is passed over
    have hfalse := g.value_false_of hval hxy
    refine ⟨_, PropNoCycle.propagate_false nb.neighborsOf hv hfalse,
      Or.inl ⟨g, rfl, rfl, fun h => hxy ?_, le_rfl, fun G hG _ => hG⟩⟩
    exact (g.fixed_iff x y).mp h.adj

/-- **The invariant is kept**, and what is accepted satisfies it with nothing pending. -/
theorem girthSolver_sound (k : Nat) (Q : Graph n → Prop) :
    Sound (girthSolver k Q) GirthWorld.Ok
      (fun d => d.world.Ok ∧ d.edge ∈ allVars n ∧
        d.world.graph.value d.edge.1 d.edge.2 = .UNDEFINED)
      fun w => w.Ok ∧ Q w.graph.currentFixedGraph ∧
        ∀ i ∈ girthLengths k, ∃ p, w.props i = some p ∧ p.pending = [] where
  infer {w w'} hw h := by
    cases h with
    | activate i hi hp hc =>
      obtain rfl := Option.some.inj (Option.some.inj hc)
      exact hw.after (mem_girthLengths.mp hi).1 rfl (NoCycle.ok_first w.graph i)
    | @propagate p r _ nb i vIdx x y _ hp hv hval hr hc =>
      obtain ⟨hi, hok⟩ := hw.props i p hp
      obtain ⟨r', hr', hcases⟩ := propagate_cases w.graph nb hi hv hval
      obtain rfl := hr.unique hr'
      rcases hcases with ⟨g', rfl, hg', hno, -, -⟩ | ⟨rfl, -⟩
      · obtain rfl := Option.some.inj (Option.some.inj hc)
        exact hw.after hi hg' (hok.filter hg' hno)
      · exact absurd (Option.some.inj hc) (by simp)
    | infer e val he hu hQ hset => exact hw.set he hu hset
  decide {w w' d} hw h := by
    obtain ⟨rfl, he, hu, hset⟩ := h
    exact ⟨hw.set he hu hset, hw, he, hu⟩
  retry {d w} hd h := hd.1.set hd.2.1 hd.2.2 h
  accept {w a} hw h := by
    obtain ⟨rfl, -, hQ, hall⟩ := h
    exact ⟨hw, hQ, hall⟩

/-- **No graph of girth `k` with `Q` is lost.** -/
theorem girthSolver_covers {G : Graph n} (hQG : Q G) (hG : G.GirthAtLeast k) :
    Branch.Covers (girthSolver k Q) GirthWorld.Ok
      (fun d => d.world.Ok ∧ d.edge ∈ allVars n ∧
        d.world.graph.value d.edge.1 d.edge.2 = .UNDEFINED)
      (fun w => Agrees w.graph G)
      (fun d => Agrees d.world.graph G ∧ G.adj d.edge.1 d.edge.2 = d.value)
      fun w => w.graph.currentFixedGraph = G where
  infer {w c} hw hin h := by
    cases h with
    | activate i hi hp hc => exact ⟨_, (Option.some.inj hc).symm, hin⟩
    | @propagate p r c nb i vIdx x y hi hp hv hval hr hc =>
      obtain ⟨hi, hik⟩ := mem_girthLengths.mp hi
      obtain ⟨r', hr', hcases⟩ := propagate_cases w.graph nb hi hv hval
      obtain rfl := hr.unique hr'
      rcases hcases with ⟨g', rfl, -, -, -, hagrees⟩ | ⟨-, hbad⟩
      · exact ⟨_, (Option.some.inj hc).symm, hagrees G hin (hG i hi hik)⟩
      · exact absurd (hbad G hin) (hG i hi hik)
    | infer e val he hu hQ hset =>
      exact ⟨_, rfl, (GirthWorld.agrees_set he hu hset).mpr ⟨hin, hQ G hin hQG⟩⟩
    | fail hQ => exact absurd hQG (hQ G hin)
  decide {w w' d} hw hin h := by
    obtain ⟨rfl, he, hu, hset⟩ := h
    by_cases hval : G.adj d.edge.1 d.edge.2 = d.value
    · exact Or.inr ⟨hin, hval⟩
    · exact Or.inl ((GirthWorld.agrees_set he hu hset).mpr ⟨hin, Bool.eq_not.mpr hval⟩)
  retry {d w} hd hin h := (GirthWorld.agrees_set hd.2.1 hd.2.2 h).mpr hin
  accept {w a} hw hin h := by
    obtain ⟨rfl, hdone, -, -⟩ := h
    exact (hin.eq_of_complete hdone).symm

/-- What is due for a propagator: to be propagated, or to be called for the edges pending. -/
def NoCycle.due : Option (NoCycle n) → Nat
  | none => 1
  | some p => p.pending.length

/-- What is due for all propagators. -/
def GirthWorld.due (k : Nat) (w : GirthWorld n) : Nat :=
  ((girthLengths k).map fun i => NoCycle.due (w.props i)).sum

/-- The measure of a world: a decision makes an event for every propagator. -/
def GirthWorld.measure (k : Nat) (w : GirthWorld n) : Nat :=
  ((girthLengths k).length + 1) * (undecided w.graph).length + w.due k

/-- Less is due after a propagator has done its work. -/
theorem GirthWorld.due_update {i : Nat} (hi : i ∈ girthLengths k) {p : NoCycle n}
    (hlt : p.pending.length < NoCycle.due (w.props i)) (g : UnknownGraph n) :
    GirthWorld.due k ⟨g, Function.update w.props i (some p)⟩ < w.due k := by
  refine List.sum_lt_sum _ _ (fun j _ => ?_) ⟨i, hi, ?_⟩
  · change NoCycle.due (Function.update w.props i (some p) j) ≤ _
    by_cases hj : j = i
    · subst hj
      rw [Function.update_self]
      exact hlt.le
    · rw [Function.update_of_ne hj]
  · change NoCycle.due (Function.update w.props i (some p) i) < _
    rw [Function.update_self]
    exact hlt

/-- **Deciding a pair makes the measure smaller.** -/
theorem GirthWorld.measure_set {e : Nat × Nat} {val : Bool} (he : e ∈ allVars n)
    (hu : w.graph.value e.1 e.2 = .UNDEFINED) (h : w.set e val = .ok w') :
    w'.measure k < w.measure k := by
  rw [w.set_eq he hu] at h
  obtain rfl := Except.ok.inj h
  have hless := length_undecided_assign val he hu
  have hdue : ∀ l : List Nat, (l.map fun i =>
      NoCycle.due ((w.props i).map (NoCycle.notify e val))).sum ≤
        (l.map fun i => NoCycle.due (w.props i)).sum + l.length := by
    intro l
    induction l with
    | nil => simp
    | cons i l ih =>
      have hi : NoCycle.due ((w.props i).map (NoCycle.notify e val)) ≤
          NoCycle.due (w.props i) + 1 := by
        cases w.props i with
        | none => simp [NoCycle.due]
        | some p => cases val <;> simp [NoCycle.due, NoCycle.notify]
      simp only [List.map_cons, List.sum_cons, List.length_cons]
      omega
  have hsum := hdue (girthLengths k)
  unfold GirthWorld.measure GirthWorld.due
  have hmul := Nat.mul_le_mul_left ((girthLengths k).length + 1) (Nat.succ_le_of_lt hless)
  rw [Nat.mul_succ] at hmul
  simp only
  omega

/-- A propagator that was not propagated yet can be: nothing is due for it afterwards. -/
theorem GirthWorld.infers_first {i : Nat} (hi : i ∈ girthLengths k) (hp : w.props i = none) :
    ∃ c, (girthSolver k Q).infer w c ∧ ∀ w', c = some w' → w'.measure k < w.measure k := by
  refine ⟨_, GirthWorld.Infers.activate i hi hp rfl, fun w' hw' => ?_⟩
  obtain rfl := Option.some.inj hw'
  have hlt := GirthWorld.due_update (w := w) hi (p := ⟨w.graph.currentFixedGraph, []⟩)
    (by rw [hp]; exact Nat.one_pos) w.graph
  exact Nat.add_lt_add_left hlt _

/-- A propagator with an edge pending can be called for it: it fails, or that edge is done. -/
theorem GirthWorld.infers_pending (hw : w.Ok) {i : Nat} (hi : i ∈ girthLengths k) {p : NoCycle n}
    (hp : w.props i = some p) (hne : p.pending ≠ []) :
    ∃ c, (girthSolver k Q).infer w c ∧ ∀ w', c = some w' → w'.measure k < w.measure k := by
  obtain ⟨e, he⟩ := List.exists_mem_of_ne_nil p.pending hne
  obtain ⟨h3, hok⟩ := hw.props i p hp
  obtain ⟨hmem, hval⟩ := hok.pending e he
  obtain ⟨vIdx, hv⟩ := List.getElem?_of_mem hmem
  have hu : w.graph.value e.1 e.2 ≠ .UNDEFINED := by
    rw [hval]
    decide
  obtain ⟨r, hr, hcases⟩ :=
    propagate_cases w.graph (Listing.sorted w.graph.currentFixedGraph) h3 hv hu
  rcases hcases with ⟨g', rfl, -, -, hund, -⟩ | ⟨rfl, -⟩
  · refine ⟨_, GirthWorld.Infers.propagate _ i vIdx e.1 e.2 hi hp hv hu hr rfl, fun w' hw' => ?_⟩
    obtain rfl := Option.some.inj hw'
    have hshort : (p.pending.filter (· ≠ (e.1, e.2))).length < p.pending.length :=
      List.length_filter_lt_length_iff_exists.mpr ⟨e, he, by simp⟩
    have hlt := GirthWorld.due_update (w := w) hi
      (p := { p with pending := p.pending.filter (· ≠ (e.1, e.2)) }) (by rw [hp]; exact hshort) g'
    exact Nat.add_lt_add_of_le_of_lt (Nat.mul_le_mul_left _ hund) hlt
  · exact ⟨none, GirthWorld.Infers.propagate _ i vIdx e.1 e.2 hi hp hv hu hr rfl,
      fun _ hw' => absurd hw' (by simp)⟩

/-- **The solver can always go on.** -/
theorem girthSolver_progress (k : Nat) (Q : Graph n → Prop) :
    Progress (girthSolver k Q) GirthWorld.Ok
      (fun d => d.world.Ok ∧ d.edge ∈ allVars n ∧
        d.world.graph.value d.edge.1 d.edge.2 = .UNDEFINED) (GirthWorld.measure k) where
  world {w} hw := by
    by_cases hidle : ∃ i ∈ girthLengths k, w.props i = none
    · obtain ⟨i, hi, hp⟩ := hidle
      exact Or.inl (GirthWorld.infers_first hi hp)
    have hactive : ∀ i ∈ girthLengths k, ∃ p, w.props i = some p := fun i hi =>
      Option.ne_none_iff_exists'.mp fun hp => hidle ⟨i, hi, hp⟩
    by_cases hdue : ∃ i ∈ girthLengths k, ∃ p, w.props i = some p ∧ p.pending ≠ []
    · obtain ⟨i, hi, p, hp, hne⟩ := hdue
      exact Or.inl (GirthWorld.infers_pending hw hi hp hne)
    by_cases hund : ∃ e ∈ allVars n, w.graph.value e.1 e.2 = .UNDEFINED
    · -- a pair is undecided
      obtain ⟨e, he, hu⟩ := hund
      have h₁ := w.set_eq he hu true
      have h₂ := w.set_eq he hu false
      exact Or.inr (Or.inl ⟨_, ⟨w, e, false⟩, _, ⟨rfl, he, hu, h₁⟩, h₂,
        GirthWorld.measure_set he hu h₁, GirthWorld.measure_set he hu h₂⟩)
    have hdone : ∀ e ∈ allVars n, w.graph.value e.1 e.2 ≠ .UNDEFINED :=
      fun e he hu => hund ⟨e, he, hu⟩
    by_cases hQ : Q w.graph.currentFixedGraph
    · refine Or.inr (Or.inr ⟨w, rfl, hdone, hQ, fun i hi => ?_⟩)
      obtain ⟨p, hp⟩ := hactive i hi
      exact ⟨p, hp, by_contra fun hne => hdue ⟨i, hi, p, hp, hne⟩⟩
    · refine Or.inl ⟨none, GirthWorld.Infers.fail fun G hG => ?_, fun _ hw' => absurd hw' (by simp)⟩
      rwa [hG.eq_of_complete hdone]
  left {d} hd := ⟨_, d.world.set_eq hd.2.1 hd.2.2 d.value⟩

end Steps

/-! ## The girth -/

/-- **Every propagator was first propagated in time**: on edges that held no cycle of its length. -/
def GirthWorld.Timely (k : Nat) (w : GirthWorld n) : Prop :=
  ∀ i ∈ girthLengths k, ∀ p, w.props i = some p → ¬ p.first.HasCycle i

/-- With nothing pending, the short cycles are those that were there at first. -/
theorem GirthWorld.Ok.girth_iff_timely {k : Nat} {w : GirthWorld n} (hw : w.Ok)
    (hall : ∀ i ∈ girthLengths k, ∃ p, w.props i = some p ∧ p.pending = []) :
    w.graph.currentFixedGraph.GirthAtLeast k ↔ w.Timely k := by
  constructor
  · intro h i hi p hp hcycle
    obtain ⟨h3, hik⟩ := mem_girthLengths.mp hi
    exact h i h3 hik (hcycle.mono (hw.props i p hp).2.first (by omega))
  · rintro h i h3 hik ⟨c, hlen, hc⟩
    have hi := mem_girthLengths.mpr ⟨h3, hik⟩
    obtain ⟨p, hp, hpend⟩ := hall i hi
    rcases (hw.props i p hp).2.found c hlen hc with hfirst | ⟨e, he, -⟩
    · exact h i hi p hp ⟨c, hlen, hfirst⟩
    · rw [hpend] at he
      exact absurd he (by simp)

theorem hasCycle_triangle {G : Graph n} {a b c : Nat} (hab : G.Adj a b) (hbc : G.Adj b c)
    (hca : G.Adj c a) : G.HasCycle 3 := by
  have hnd : [a, b, c].Nodup := by simp [G.ne_of_adj hab, G.ne_of_adj hbc, (G.ne_of_adj hca).symm]
  exact ⟨[a, b, c], rfl, (isCycle_iff_ends hnd (by simp)).mpr ⟨by simp [hab, hbc], hca⟩⟩

/-- On a cycle of at least three vertices each has two neighbours. -/
theorem two_neighbors {G : Graph n} {c : List Nat} (hc : G.IsCycle c) (h3 : 3 ≤ c.length) {v : Nat}
    (hv : v ∈ c) : ∃ x ∈ c, ∃ y ∈ c, x ≠ y ∧ G.Adj v x ∧ G.Adj v y := by
  obtain ⟨x, m, y, hrot⟩ := exists_rotation hv h3
  have hnd := hrot.nodup_iff.mp hc.1
  have hedge : ∀ z, z = x ∨ z = y → z ∈ c ∧ G.Adj v z := fun z hz => by
    have hz := (cycleEdge_iff hc.1 hrot).mpr hz
    exact ⟨hz.symm.mem_left, hc.isHamCycle.rel (fun _ _ => Graph.Adj.symm) hz⟩
  obtain ⟨hx, hvx⟩ := hedge x (Or.inl rfl)
  obtain ⟨hy, hvy⟩ := hedge y (Or.inr rfl)
  refine ⟨x, hx, y, hy, ?_, hvx, hvy⟩
  rintro rfl
  simp at hnd

/-- **The Hamiltonian cycle alone holds no shorter cycle.** -/
theorem hasCycle_cycleGraph (hn : 3 ≤ n) {i : Nat} (hi : 3 ≤ i) :
    (cycleGraph n).HasCycle i ↔ i = n := by
  constructor
  · rintro ⟨c, rfl, hc⟩
    have hbound : ∀ v ∈ c, v < n := fun v hv => by
      obtain ⟨x, -, -, -, -, hvx, -⟩ := two_neighbors hc hi hv
      exact (cycleGraph n).bound v x hvx
    -- both neighbours of a vertex are on the cycle with it
    have hboth : ∀ v ∈ c, ∀ z, (cycleGraph n).Adj v z → z ∈ c := fun v hv z hvz => by
      obtain ⟨x, hx, y, hy, hne, hvx, hvy⟩ := two_neighbors hc hi hv
      have hz : z = x ∨ z = y := by
        rw [cycleGraph_adj_iff hn (hbound v hv)] at hvz hvx hvy
        omega
      rcases hz with rfl | rfl
      · exact hx
      · exact hy
    have hdown : ∀ v, v ∈ c → 0 ∈ c := fun v => by
      induction v with
      | zero => exact id
      | succ v ih =>
        intro hv
        have hlt := hbound _ hv
        exact ih (hboth _ hv v ((cycleGraph_adj_iff hn hlt).mpr ⟨by omega, by omega⟩))
    obtain ⟨v, hv⟩ := List.exists_mem_of_length_pos (show 0 < c.length by omega)
    have hall : ∀ w, w < n → w ∈ c := fun w => by
      induction w with
      | zero => exact fun _ => hdown v hv
      | succ w ih =>
        intro hw
        exact hboth w (ih (by omega)) _ ((cycleGraph_adj_iff hn (by omega)).mpr ⟨hw, by omega⟩)
    have hperm := (List.perm_ext_iff_of_nodup hc.1 List.nodup_range).mpr fun w =>
      ⟨fun hw => List.mem_range.mpr (hbound w hw), fun hw => hall w (List.mem_range.mp hw)⟩
    rw [hperm.length_eq, List.length_range]
  · rintro rfl
    exact ⟨List.range i, List.length_range, isCycle_of_isHamCycle (isHamCycle_range (by omega)
      ((cycleGraph_sub_iff hn).mp (Graph.Sub.refl _))) List.nodup_range⟩

/-- **With no chord fixed before**, the propagators are in time iff `k ≤ n`. -/
theorem timely_iff (hn : 3 ≤ n) {k : Nat} {w : GirthWorld n}
    (hall : ∀ i ∈ girthLengths k, ∃ p, w.props i = some p ∧ p.first = cycleGraph n) :
    w.Timely k ↔ k ≤ n := by
  constructor
  · intro h
    by_contra hk
    have hmem : n ∈ girthLengths k := mem_girthLengths.mpr ⟨hn, by omega⟩
    obtain ⟨p, hp, hfirst⟩ := hall n hmem
    refine h n hmem p hp ?_
    rw [hfirst]
    exact (hasCycle_cycleGraph hn hn).mpr rfl
  · intro hk i hi p hp hcycle
    obtain ⟨h3, hik⟩ := mem_girthLengths.mp hi
    obtain ⟨p', hp', hfirst⟩ := hall i hi
    obtain rfl := Option.some.inj (hp.symm.trans hp')
    rw [hfirst, hasCycle_cycleGraph hn h3] at hcycle
    omega

/-- **The graphs accepted after `girthAtLeast(k)`.** Whatever the solver does and in whatever order:
an accepted graph has no cycle shorter than `k` iff, for every length below `k`, the edges fixed
when the propagator for that length was first propagated held no cycle of that length. No graph with
the cycle `0, 1, …, n - 1`, with `Q` and without a cycle shorter than `k` is lost, and the search
can always finish. -/
theorem girthAtLeast_iff (hn : 3 ≤ n) (k : Nat) (Q : Graph n → Prop) :
    ∃ g, fixHamCycle n = .ok g ∧ ∀ s, (girthSolver k Q).Run (.start (.start g)) s →
      (∀ w ∈ s.accepted, w.graph.currentFixedGraph.ContainsCycle ∧ Q w.graph.currentFixedGraph ∧
        (w.graph.currentFixedGraph.GirthAtLeast k ↔ w.Timely k)) ∧
      (∀ G : Graph n, G.ContainsCycle → Q G → G.GirthAtLeast k →
        s.Keeps (fun w => Agrees w.graph G)
          (fun d => Agrees d.world.graph G ∧ G.adj d.edge.1 d.edge.2 = d.value)
          (fun w => w.graph.currentFixedGraph = G)) ∧
      ∃ s', (girthSolver k Q).Run s s' ∧ s'.Finished := by
  have hstart : (GirthWorld.start (.ofGraph (cycleGraph n))).Ok :=
    ⟨(cycleGraph_sub_iff hn).mp (Graph.Sub.refl _), fun i p hp =>
      absurd hp (by simp [GirthWorld.start])⟩
  have hsound := girthSolver_sound k Q
  refine ⟨_, fixHamCycle_eq hn, fun s hs => ?_⟩
  have hi := hsound.run hs (Branch.inv_start hstart)
  refine ⟨fun w hw => ?_, fun G hG hQ hgirth => ?_, (girthSolver_progress k Q).finishes hsound hi⟩
  · obtain ⟨hok, hQ, hall⟩ := hi.accepted w hw
    exact ⟨hok.cycle, hQ, hok.girth_iff_timely hall⟩
  · exact (girthSolver_covers hQ hgirth).run hsound hs (Branch.inv_start hstart)
      (Or.inr (Or.inl ⟨_, rfl, agrees_ofGraph.mpr ((cycleGraph_sub_iff hn).mpr hG)⟩))

/-- Four vertices, and a constraint that wants the chord `{0, 2}`. -/
theorem girthAtLeast_iff_four : ∃ g, fixHamCycle 4 = .ok g ∧
    ∀ s, (girthSolver 4 fun G => G.Adj 0 2).Run (.start (.start g)) s → ∀ w ∈ s.accepted,
      (w.graph.currentFixedGraph.GirthAtLeast 4 ↔ w.Timely 4) := by
  obtain ⟨g, hg, h⟩ := girthAtLeast_iff (show 3 ≤ 4 by decide) 4 fun G => G.Adj 0 2
  exact ⟨g, hg, fun s hs w hw => ((h s hs).1 w hw).2.2⟩

/-- **A cycle that is there at first is missed.** On three vertices the propagator for triangles is
first propagated when all three edges are fixed; on four, when another constraint has set the chord
`{0, 2}` before. -/
theorem girthAtLeast_missed :
    (∃ g, fixHamCycle 3 = .ok g ∧ ∃ s, (girthSolver 4 fun _ => True).Run (.start (.start g)) s ∧
      ∃ w ∈ s.accepted, ¬ w.graph.currentFixedGraph.GirthAtLeast 4) ∧
    ∃ g, fixHamCycle 4 = .ok g ∧ ∃ s, (girthSolver 4 fun G => G.Adj 0 2).Run (.start (.start g)) s ∧
      ∃ w ∈ s.accepted, ¬ w.graph.currentFixedGraph.GirthAtLeast 4 := by
  have hmem : ∀ i, i ∈ girthLengths 4 → i = 3 := fun i hi => by
    have := mem_girthLengths.mp hi
    omega
  refine ⟨⟨_, fixHamCycle_eq (by decide), ?_⟩, _, fixHamCycle_eq (by decide), ?_⟩
  · have hactivate : (girthSolver 4 fun _ => True).Run
        (.start (.start (.ofGraph (cycleGraph 3)))) _ := Relation.ReflTransGen.single
      (Solver.Step.infer (GirthWorld.Infers.activate 3 (by decide) rfl rfl))
    refine ⟨_, hactivate.tail (Solver.Step.accept ⟨rfl, by decide, trivial, fun i hi => ?_⟩), _,
      List.mem_cons_self, fun h => h 3 (by decide) (by decide)
        (hasCycle_triangle (a := 0) (b := 1) (c := 2) rfl rfl rfl)⟩
    obtain rfl := hmem i hi
    exact ⟨_, rfl, rfl⟩
  · have hchord : (girthSolver 4 fun G => G.Adj 0 2).Run
        (.start (.start (.ofGraph (cycleGraph 4)))) _ := Relation.ReflTransGen.single
      (Solver.Step.infer (GirthWorld.Infers.infer (0, 2) true (by decide) (by decide)
        (fun _ _ h => h) (GirthWorld.set_eq _ (by decide) (by decide) true)))
    have hactivate := hchord.tail
      (Solver.Step.infer (GirthWorld.Infers.activate 3 (by decide) rfl rfl))
    have hdecide := hactivate.tail (Solver.Step.decide (d := ⟨_, (1, 3), true⟩)
      ⟨rfl, by decide, by decide, GirthWorld.set_eq _ (by decide) (by decide) false⟩)
    refine ⟨_, hdecide.tail (Solver.Step.accept ⟨rfl, by decide, rfl, fun i hi => ?_⟩), _,
      List.mem_cons_self, fun h => h 3 (by decide) (by decide)
        (hasCycle_triangle (a := 0) (b := 1) (c := 2) rfl rfl rfl)⟩
    obtain rfl := hmem i hi
    exact ⟨_, rfl, rfl⟩

end SymBreak.Uhg
