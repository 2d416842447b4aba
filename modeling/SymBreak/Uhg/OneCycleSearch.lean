import SymBreak.Uhg.PropAtMostOneCycle
import SymBreak.Uhg.Girth

/-!
# The search for graphs with at most one cycle on `k` vertices

The solver that runs `PropAtMostOneCycle`, from the moment the propagator was first propagated. As
in `UHGSearch` it may do in any order what its relations allow, and the other constraints are `Q`.
The field `cycle` is part of the state but not of the worlds, so that backtracking does not restore
it. The propagator is called for every variable instantiated after it was first propagated.

Results:
* `Covered`: every cycle on `k` vertices was there at first, passes through a pending edge, or is
  the remembered one;
* `step_inv`: every step keeps this, in the world and in all worlds that are saved, since the field
  is not overwritten while it holds a cycle of the current graph;
* `step_keeps`: no step loses a graph with at most one cycle;
* **`atMostOneCycle_run`**: with no cycle on `k` vertices fixed before, the graphs accepted have at
  most one; `atMostOneCycle_missed`: a cycle fixed before is not counted.
-/

namespace SymBreak.Uhg

open Hamilton Graph

variable {n : Nat}

namespace OneCycle

/-! ## The solver -/

/-- A state of the search: the field of the propagator, the world unless it was left, the worlds
saved, and the graphs accepted. -/
structure State (n : Nat) where
  cycle : Option (List Nat)
  current : Option (World n)
  stack : List (Decision n)
  accepted : List (Graph n)

/-- **A step of the solver.** The neighbours are listed in any order. -/
inductive Step (k : Nat) (Q : Graph n → Prop) : State n → State n → Prop
  | propagate {cycle w st acc r c} (nb : Listing w.graph.currentFixedGraph) (vIdx x y : Nat)
      (hv : (allVars n)[vIdx]? = some (x, y))
      (hcall : (x, y) ∈ w.pending ∨ w.graph.value x y = .FALSE)
      (hr : Converges (PropAtMostOneCycle.propagate nb.neighborsOf k vIdx w.graph cycle) r)
      (hc : w.after true (w.pending.filter (· ≠ (x, y))) r.1 = some c) :
      Step k Q ⟨cycle, some w, st, acc⟩ ⟨r.2, c, st, acc⟩
  | decide {cycle w w' st acc} (e : Nat × Nat) (val : Bool) (he : e ∈ allVars n)
      (hu : w.graph.value e.1 e.2 = .UNDEFINED) (h : w.set e val = .ok w') :
      Step k Q ⟨cycle, some w, st, acc⟩ ⟨cycle, some w', ⟨w, e, !val⟩ :: st, acc⟩
  | infer {cycle w w' st acc} (e : Nat × Nat) (val : Bool) (he : e ∈ allVars n)
      (hu : w.graph.value e.1 e.2 = .UNDEFINED)
      (hQ : ∀ G, Agrees w.graph G → Q G → G.adj e.1 e.2 = val) (h : w.set e val = .ok w') :
      Step k Q ⟨cycle, some w, st, acc⟩ ⟨cycle, some w', st, acc⟩
  | fail {cycle w st acc} (hQ : ∀ G, Agrees w.graph G → ¬ Q G) :
      Step k Q ⟨cycle, some w, st, acc⟩ ⟨cycle, none, st, acc⟩
  | accept {cycle w st acc} (hp : w.pending = [])
      (hdone : ∀ e ∈ allVars n, w.graph.value e.1 e.2 ≠ .UNDEFINED)
      (hQ : Q w.graph.currentFixedGraph) :
      Step k Q ⟨cycle, some w, st, acc⟩ ⟨cycle, none, st, w.graph.currentFixedGraph :: acc⟩
  | backtrack {cycle w' st acc} (d : Decision n) (h : d.world.set d.edge d.value = .ok w') :
      Step k Q ⟨cycle, none, d :: st, acc⟩ ⟨cycle, some w', st, acc⟩

/-- Runs of the solver. -/
def Run (k : Nat) (Q : Graph n → Prop) : State n → State n → Prop :=
  Relation.ReflTransGen (Step k Q)

/-- The search when the propagator was first propagated, by `propagate(mask)`. -/
def State.start (g : UnknownGraph n) : State n :=
  ⟨none, (World.after ⟨g, false, []⟩ true [] (PropAtMostOneCycle.propagateAll g)).join, [], []⟩

/-- The graph is among those accepted, or still agrees with a world that the search goes through. -/
def State.Keeps (s : State n) (G : Graph n) : Prop :=
  G ∈ s.accepted ∨ (∃ w, s.current = some w ∧ Agrees w.graph G) ∨
    ∃ d ∈ s.stack, Agrees d.world.graph G ∧ G.adj d.edge.1 d.edge.2 = d.value

/-! ## The invariant -/

variable {F : Graph n} {k : Nat} {cycle cycle' : Option (List Nat)}

/-- **Every cycle on `k` vertices** is one of `F`, passes through a pending edge, or is the one
remembered. -/
def Covered (F : Graph n) (k : Nat) (cycle : Option (List Nat)) (pending : List (Nat × Nat))
    (G : Graph n) : Prop :=
  ∀ d, d.length = k → G.IsCycle d →
    F.IsCycle d ∨ (∃ e ∈ pending, CycleEdge d e.1 e.2) ∨ ∃ c ∈ cycle, SameCycle c d

/-- The invariant of a world. -/
structure WorldOk (F : Graph n) (k : Nat) (cycle : Option (List Nat)) (w : World n) : Prop where
  pending : ∀ e ∈ w.pending, e ∈ allVars n ∧ w.graph.value e.1 e.2 = .TRUE
  covered : Covered F k cycle w.pending w.graph.currentFixedGraph

/-- **The invariant**: the worlds saved lie below one another and below the current one. -/
structure Inv (F : Graph n) (k : Nat) (s : State n) : Prop where
  field : PropAtMostOneCycle.FieldOk k s.cycle
  current : ∀ w, s.current = some w → WorldOk F k s.cycle w ∧
    ∀ d ∈ s.stack, d.world.graph.currentFixedGraph.Sub w.graph.currentFixedGraph
  stack : ∀ d ∈ s.stack, WorldOk F k s.cycle d.world ∧ d.edge ∈ allVars n ∧
    d.world.graph.value d.edge.1 d.edge.2 = .UNDEFINED
  nested : s.stack.Pairwise fun d d' =>
    d'.world.graph.currentFixedGraph.Sub d.world.graph.currentFixedGraph
  accepted : ∀ G ∈ s.accepted, ∀ c d, c.length = k → d.length = k → G.IsCycle c → G.IsCycle d →
    F.IsCycle c ∨ F.IsCycle d ∨ SameCycle c d

/-- **A field that is not overwritten while it holds a cycle** still covers every graph below. -/
theorem Covered.of_keeps {pending : List (Nat × Nat)} {G H : Graph n} (hk : 2 ≤ k)
    (h : Covered F k cycle pending G) (hsub : G.Sub H)
    (hfield : PropAtMostOneCycle.FieldOk k cycle)
    (hkeeps : ∀ c ∈ cycle, H.IsCycle c → cycle' = some c) : Covered F k cycle' pending G := by
  intro d hlen hd
  refine (h d hlen hd).imp_right (Or.imp_right ?_)
  rintro ⟨c, hc, hsame⟩
  obtain ⟨hlen', hnd⟩ := hfield c hc
  refine ⟨c, hkeeps c hc ?_, hsame⟩
  exact (hd.mono hsub (by omega)).of_sameCycle hsame.symm hnd (by omega)

/-- **Setting a pair**: a cycle that is new passes through it. -/
theorem WorldOk.set (hk : 2 ≤ k) {w w' : World n} (hw : WorldOk F k cycle w) {e : Nat × Nat}
    {val : Bool} (he : e ∈ allVars n) (hu : w.graph.value e.1 e.2 = .UNDEFINED)
    (h : w.set e val = .ok w') : WorldOk F k cycle w' ∧
      w.graph.currentFixedGraph.Sub w'.graph.currentFixedGraph := by
  rw [w.set_eq he hu] at h
  obtain rfl := Except.ok.inj h
  have hkeep : ∀ {a b}, w.graph.value a b = .TRUE →
      (w.graph.assign e.1 e.2 (bounds_of_mem he) hu val).value a b = .TRUE :=
    w.graph.value_assign_of_true
  refine ⟨⟨fun e' he' => ?_, fun d hlen hd => ?_⟩, fun a b hab =>
    (UnknownGraph.fixed_iff _ _ _).mpr (hkeep ((w.graph.fixed_iff a b).mp hab))⟩
  · rcases mem_notified.mp he' with ⟨rfl, rfl⟩ | hpw
    · exact ⟨he, value_assign_true hu⟩
    · exact ⟨(hw.pending e' hpw).1, hkeep (hw.pending e' hpw).2⟩
  · rcases isHamCycle_assign_cases hu (by omega) hd.isHamCycle with hold | ⟨hval, hce⟩
    · refine (hw.covered d hlen ⟨hd.1, hold.2⟩).imp_right (Or.imp_left ?_)
      rintro ⟨e', he', hce'⟩
      exact ⟨e', mem_notified.mpr (Or.inr he'), hce'⟩
    · exact Or.inr (Or.inl ⟨e, mem_notified.mpr (Or.inl ⟨hval, rfl⟩), hce⟩)

/-- The propagator is called for variables that are instantiated. -/
theorem WorldOk.decided {w : World n} (hw : WorldOk F k cycle w) {x y : Nat}
    (hcall : (x, y) ∈ w.pending ∨ w.graph.value x y = .FALSE) :
    w.graph.value x y ≠ .UNDEFINED := by
  rcases hcall with h | h
  · rw [(hw.pending (x, y) h).2]
    decide
  · rw [h]
    decide

/-- The current world and the field are replaced. -/
theorem Inv.replace (hk : 2 ≤ k) {w : World n} {st : List (Decision n)} {acc : List (Graph n)}
    (hi : Inv F k ⟨cycle, some w, st, acc⟩) {c : Option (World n)}
    (hfield : PropAtMostOneCycle.FieldOk k cycle')
    (hkeeps : ∀ c ∈ cycle, w.graph.currentFixedGraph.IsCycle c → cycle' = some c)
    (hc : ∀ w', c = some w' → WorldOk F k cycle' w' ∧
      w.graph.currentFixedGraph.Sub w'.graph.currentFixedGraph) :
    Inv F k ⟨cycle', c, st, acc⟩ := by
  obtain ⟨-, hbelow⟩ := hi.current w rfl
  refine ⟨hfield, fun w' hw' => ?_, fun d hd => ?_, hi.nested, hi.accepted⟩
  · obtain ⟨hok, hsub⟩ := hc w' hw'
    exact ⟨hok, fun d hd a b hab => hsub a b (hbelow d hd a b hab)⟩
  · obtain ⟨hok, he, hu⟩ := hi.stack d hd
    exact ⟨⟨hok.pending, hok.covered.of_keeps hk (hbelow d hd) hi.field hkeeps⟩, he, hu⟩

/-- **After a call for an edge**, every cycle through it is the remembered one. -/
theorem WorldOk.returned (hk : 2 ≤ k) {w : World n} (hw : WorldOk F k cycle w) {x y : Nat}
    {g : UnknownGraph n} (hfield : PropAtMostOneCycle.FieldOk k cycle)
    (hkeeps : ∀ c ∈ cycle, w.graph.currentFixedGraph.IsCycle c → cycle' = some c)
    (h : PropAtMostOneCycle.Returned k w.graph x y cycle' g) :
    WorldOk F k cycle' ⟨g, true, w.pending.filter (· ≠ (x, y))⟩ ∧
      w.graph.currentFixedGraph.Sub g.currentFixedGraph := by
  refine ⟨⟨fun e he => ?_, fun d hlen hd => ?_⟩, fun a b hab => by rwa [h.fixed]⟩
  · obtain ⟨h1, h2⟩ := hw.pending e (List.mem_filter.mp he).1
    refine ⟨h1, (g.fixed_iff _ _).mp ?_⟩
    rw [h.fixed]
    exact (w.graph.fixed_iff _ _).mpr h2
  · rw [h.fixed] at hd
    rcases hw.covered.of_keeps hk (Graph.Sub.refl _) hfield hkeeps d hlen hd with
      hF | ⟨e, he, hce⟩ | hsame
    · exact Or.inl hF
    · by_cases hexy : e = (x, y)
      · subst hexy
        exact Or.inr (Or.inr (h.found d hlen hd hce))
      · exact Or.inr (Or.inl ⟨e, List.mem_filter.mpr ⟨he, by simpa using hexy⟩, hce⟩)
    · exact Or.inr (Or.inr hsame)

/-- **When nothing is pending**, every cycle that is not one of `F` is the one remembered. -/
theorem WorldOk.remembered {w : World n} (hw : WorldOk F k cycle w) (hp : w.pending = [])
    {c : List Nat} (hlen : c.length = k) (hc : w.graph.currentFixedGraph.IsCycle c) :
    F.IsCycle c ∨ ∃ m ∈ cycle, SameCycle m c := by
  rcases hw.covered c hlen hc with hF | ⟨e, he, -⟩ | hsame
  · exact Or.inl hF
  · rw [hp] at he
    exact absurd he List.not_mem_nil
  · exact Or.inr hsame

theorem WorldOk.same {w : World n} (hw : WorldOk F k cycle w) (hp : w.pending = [])
    {c d : List Nat} (hc : c.length = k) (hd : d.length = k)
    (hcyc : w.graph.currentFixedGraph.IsCycle c) (hcyd : w.graph.currentFixedGraph.IsCycle d) :
    F.IsCycle c ∨ F.IsCycle d ∨ SameCycle c d := by
  rcases hw.remembered hp hc hcyc with hF | ⟨m, hm, hsame⟩
  · exact Or.inl hF
  · rcases hw.remembered hp hd hcyd with hF | ⟨m', hm', hsame'⟩
    · exact Or.inr (Or.inl hF)
    · obtain rfl := Option.some.inj (hm.symm.trans hm')
      exact Or.inr (Or.inr (hsame.symm.trans hsame'))

variable {Q : Graph n → Prop} {s s' : State n}

/-- **Every step keeps the invariant.** -/
theorem step_inv (hk : 3 ≤ k) (h : Step k Q s s') (hi : Inv F k s) : Inv F k s' := by
  cases h with
  | @propagate cycle w st acc r c nb vIdx x y hv hcall hr hc =>
    obtain ⟨hw, -⟩ := hi.current w rfl
    obtain ⟨r', hr', hfield, hkeeps, hres⟩ :=
      PropAtMostOneCycle.propagate_spec hk w.graph nb hi.field hv (hw.decided hcall)
    obtain rfl := hr.unique hr'
    refine hi.replace (by omega) hfield hkeeps fun w' hw' => ?_
    subst hw'
    rcases hres with ⟨g', hg', hret⟩ | ⟨herr, -⟩
    · rw [hg'] at hc
      obtain rfl := Option.some.inj (Option.some.inj hc)
      exact hw.returned (by omega) hi.field hkeeps hret
    · rw [herr] at hc
      exact absurd (Option.some.inj hc) (by simp)
  | @decide cycle w w' st acc e val he hu h =>
    obtain ⟨hw, hbelow⟩ := hi.current w rfl
    obtain ⟨hw', hsub⟩ := hw.set (by omega) he hu h
    refine ⟨hi.field, fun w₁ hw₁ => ?_, List.forall_mem_cons.mpr ⟨⟨hw, he, hu⟩, hi.stack⟩,
      List.pairwise_cons.mpr ⟨hbelow, hi.nested⟩, hi.accepted⟩
    obtain rfl := Option.some.inj hw₁
    exact ⟨hw', List.forall_mem_cons.mpr ⟨hsub, fun d hd a b hab =>
      hsub a b (hbelow d hd a b hab)⟩⟩
  | @infer cycle w w' st acc e val he hu hQ h =>
    obtain ⟨hw, -⟩ := hi.current w rfl
    refine hi.replace (by omega) hi.field (fun c hc _ => hc) fun w₁ hw₁ => ?_
    obtain rfl := Option.some.inj hw₁
    exact hw.set (by omega) he hu h
  | fail hQ =>
    exact hi.replace (by omega) hi.field (fun c hc _ => hc) fun w' h => absurd h (by simp)
  | @accept cycle w st acc hp hdone hQ =>
    obtain ⟨hw, -⟩ := hi.current w rfl
    exact ⟨hi.field, fun w' h => absurd h (by simp), hi.stack, hi.nested,
      List.forall_mem_cons.mpr ⟨fun c d hc hd hcyc hcyd => hw.same hp hc hd hcyc hcyd, hi.accepted⟩⟩
  | @backtrack cycle w' st acc d h =>
    obtain ⟨⟨hd, he, hu⟩, hst⟩ := List.forall_mem_cons.mp hi.stack
    obtain ⟨hbelow, hnested⟩ := List.pairwise_cons.mp hi.nested
    obtain ⟨hw', hsub⟩ := hd.set (by omega) he hu h
    refine ⟨hi.field, fun w₁ hw₁ => ?_, hst, hnested, hi.accepted⟩
    obtain rfl := Option.some.inj hw₁
    exact ⟨hw', fun d' hd' a b hab => hsub a b (hbelow d' hd' a b hab)⟩

/-- **No step loses a graph with at most one cycle.** -/
theorem step_keeps (hk : 3 ≤ k) {G : Graph n} (hQ : Q G) (hG : G.AtMostOneCycle k)
    (h : Step k Q s s') (hi : Inv F k s) (hkeep : s.Keeps G) : s'.Keeps G := by
  cases h with
  | @propagate cycle w st acc r c nb vIdx x y hv hcall hr hc =>
    rcases hkeep with hmem | ⟨w', hw', hagree⟩ | hst
    · exact Or.inl hmem
    · obtain rfl := Option.some.inj hw'
      obtain ⟨hw, -⟩ := hi.current w rfl
      obtain ⟨r', hr', -, -, hres⟩ :=
        PropAtMostOneCycle.propagate_spec hk w.graph nb hi.field hv (hw.decided hcall)
      obtain rfl := hr.unique hr'
      rcases hres with ⟨g', hg', hret⟩ | ⟨-, hmany⟩
      · rw [hg'] at hc
        obtain rfl := Option.some.inj hc
        exact Or.inr (Or.inl ⟨_, rfl, hret.agrees G hagree hG⟩)
      · exact absurd hG (hmany G hagree)
    · exact Or.inr (Or.inr hst)
  | @decide cycle w w' st acc e val he hu h =>
    rcases hkeep with hmem | ⟨w₁, hw₁, hagree⟩ | ⟨d, hd, hst⟩
    · exact Or.inl hmem
    · obtain rfl := Option.some.inj hw₁
      by_cases hval : G.adj e.1 e.2 = val
      · exact Or.inr (Or.inl ⟨w', rfl, (World.agrees_set he hu h).mpr ⟨hagree, hval⟩⟩)
      · refine Or.inr (Or.inr ⟨_, List.mem_cons_self, hagree, ?_⟩)
        exact Bool.eq_not.mpr hval
    · exact Or.inr (Or.inr ⟨d, List.mem_cons_of_mem _ hd, hst⟩)
  | @infer cycle w w' st acc e val he hu hinf h =>
    rcases hkeep with hmem | ⟨w₁, hw₁, hagree⟩ | hst
    · exact Or.inl hmem
    · obtain rfl := Option.some.inj hw₁
      exact Or.inr (Or.inl ⟨w', rfl, (World.agrees_set he hu h).mpr ⟨hagree, hinf G hagree hQ⟩⟩)
    · exact Or.inr (Or.inr hst)
  | @fail cycle w st acc hfail =>
    rcases hkeep with hmem | ⟨w₁, hw₁, hagree⟩ | hst
    · exact Or.inl hmem
    · obtain rfl := Option.some.inj hw₁
      exact absurd hQ (hfail G hagree)
    · exact Or.inr (Or.inr hst)
  | @accept cycle w st acc hp hdone hQw =>
    rcases hkeep with hmem | ⟨w₁, hw₁, hagree⟩ | hst
    · exact Or.inl (List.mem_cons_of_mem _ hmem)
    · obtain rfl := Option.some.inj hw₁
      rw [hagree.eq_of_complete hdone]
      exact Or.inl List.mem_cons_self
    · exact Or.inr (Or.inr hst)
  | @backtrack cycle w' st acc d h =>
    rcases hkeep with hmem | ⟨w₁, hw₁, -⟩ | ⟨d', hd', hagree, hval⟩
    · exact Or.inl hmem
    · exact absurd hw₁ (by simp)
    · rcases List.mem_cons.mp hd' with rfl | hd'
      · obtain ⟨-, he, hu⟩ := hi.stack d' List.mem_cons_self
        exact Or.inr (Or.inl ⟨w', rfl, (World.agrees_set he hu h).mpr ⟨hagree, hval⟩⟩)
      · exact Or.inr (Or.inr ⟨d', hd', hagree, hval⟩)

/-! ## Runs -/

theorem inv_start (k : Nat) (g : UnknownGraph n) :
    Inv g.currentFixedGraph k (State.start g) where
  field c hc := absurd hc (by simp [State.start])
  current w hw := by
    obtain rfl := Option.some.inj hw
    exact ⟨⟨fun e he => absurd he List.not_mem_nil, fun d _ hd => Or.inl hd⟩,
      fun d hd => absurd hd List.not_mem_nil⟩
  stack d hd := absurd hd List.not_mem_nil
  nested := List.Pairwise.nil
  accepted G hG := absurd hG List.not_mem_nil

theorem run_inv (hk : 3 ≤ k) (h : Run k Q s s') (hi : Inv F k s) : Inv F k s' := by
  induction h with
  | refl => exact hi
  | tail _ hstep ih => exact step_inv hk hstep ih

theorem run_keeps (hk : 3 ≤ k) {G : Graph n} (hQ : Q G) (hG : G.AtMostOneCycle k)
    (h : Run k Q s s') (hi : Inv F k s) (hkeep : s.Keeps G) : s'.Keeps G := by
  induction h with
  | refl => exact hkeep
  | tail hrun hstep ih => exact step_keeps hk hQ hG hstep (run_inv hk hrun hi) ih

/-- **The graphs accepted.** Whatever the solver does and in whatever order, from a graph whose
fixed edges hold no cycle on `k` vertices: an accepted graph has at most one. No graph with at most
one such cycle is lost, and every call returns or throws a contradiction. -/
theorem atMostOneCycle_run (hk : 3 ≤ k) (Q : Graph n → Prop) {g : UnknownGraph n}
    (hg : ¬ g.currentFixedGraph.HasCycle k) : ∀ s, Run k Q (.start g) s →
      (∀ G ∈ s.accepted, G.AtMostOneCycle k) ∧
      (∀ G, Agrees g G → Q G → G.AtMostOneCycle k → s.Keeps G) ∧
      ∀ w, s.current = some w → ∀ e ∈ w.pending, ∀ (nb : Listing w.graph.currentFixedGraph) vIdx,
        (allVars n)[vIdx]? = some e → ∃ r,
          Converges (PropAtMostOneCycle.propagate nb.neighborsOf k vIdx w.graph s.cycle) r ∧
            ((∃ g', r.1 = .ok g') ∨ r.1 = .error (.raised .contradiction)) := by
  intro s hs
  have hi := run_inv hk hs (inv_start k g)
  refine ⟨fun G hG c d hc hd hcyc hcyd => ?_, fun G hag hQ hG => ?_, fun w hw e he nb vIdx hv => ?_⟩
  · rcases hi.accepted G hG c d hc hd hcyc hcyd with h | h | h
    · exact absurd ⟨c, hc, h⟩ hg
    · exact absurd ⟨d, hd, h⟩ hg
    · exact h
  · exact run_keeps hk hQ hG hs (inv_start k g) (Or.inr (Or.inl ⟨_, rfl, hag⟩))
  · obtain ⟨hok, -⟩ := hi.current w hw
    obtain ⟨r, hr, -, -, hres⟩ := PropAtMostOneCycle.propagate_spec hk w.graph nb hi.field hv
      (hok.decided (Or.inl he))
    refine ⟨r, hr, ?_⟩
    rcases hres with ⟨g', hg', -⟩ | ⟨herr, -⟩
    · exact Or.inl ⟨g', hg'⟩
    · exact Or.inr herr

/-- Triangles, on four vertices, with the Hamiltonian cycle fixed before: it is accepted. -/
theorem atMostOneCycle_run_four : ∃ s : State 4,
    Run 3 (fun _ => True) (.start (.ofGraph (cycleGraph 4))) s ∧ s.accepted.length = 1 ∧
      ∀ G ∈ s.accepted, G.AtMostOneCycle 3 := by
  have h1 : Run 3 (fun _ => True) (.start (.ofGraph (cycleGraph 4))) _ :=
    Relation.ReflTransGen.single (Step.decide (0, 2) false (by decide) (by decide)
      (World.set_eq _ (by decide) (by decide) false))
  have h2 := h1.tail (Step.decide (1, 3) false (by decide) (by decide)
    (World.set_eq _ (by decide) (by decide) false))
  have h3 := h2.tail (Step.accept rfl (by decide) trivial)
  have hg : ¬ (UnknownGraph.ofGraph (cycleGraph 4)).currentFixedGraph.HasCycle 3 := fun h =>
    absurd ((hasCycle_cycleGraph (by decide) (by decide)).mp h) (by decide)
  exact ⟨_, h3, rfl, (atMostOneCycle_run (by decide) _ hg _ h3).1⟩

/-! ## A cycle that is fixed before -/

/-- The Hamiltonian cycle on five vertices, and then the chords `{0, 2}` and `{1, 3}`. -/
def crossed : UnknownGraph 5 :=
  (((((UnknownGraph.ofGraph (cycleGraph 5)).assign 0 2 (by decide) (by decide) true).assign 1 3
    (by decide) (by decide) true).assign 0 3 (by decide) (by decide) false).assign 1 4
    (by decide) (by decide) false).assign 2 4 (by decide) (by decide) false

/-- Its neighbours, in the order of the vertices. -/
def crossedNeighbors : Listing crossed.currentFixedGraph := .sorted _

/-- The call for the first chord remembers the cycle through both. -/
theorem propagate_crossed_first : Converges
    (PropAtMostOneCycle.propagate crossedNeighbors.neighborsOf 5 1 crossed none)
    (.ok crossed, some [0, 2, 1, 3, 4]) := by
  have hpaths : PropNoCycle.paths crossedNeighbors.neighborsOf 5 0 2 = [[0, 2, 1, 3, 4]] := by
    decide
  have h := PropAtMostOneCycle.propagate_converges (k := 5) (by decide) crossed crossedNeighbors
    none (show (allVars 5)[1]? = some (0, 2) from rfl) (by decide)
  rw [hpaths] at h
  exact h

/-- The call for the second finds nothing else. -/
theorem propagate_crossed_second : Converges
    (PropAtMostOneCycle.propagate crossedNeighbors.neighborsOf 5 5 crossed (some [0, 2, 1, 3, 4]))
    (.ok crossed, some [0, 2, 1, 3, 4]) := by
  have hpaths : PropNoCycle.paths crossedNeighbors.neighborsOf 5 1 3 =
      [[1, 3, 2, 0, 4], [1, 3, 4, 0, 2]] := by decide
  have h := PropAtMostOneCycle.propagate_converges (k := 5) (by decide) crossed crossedNeighbors
    (some [0, 2, 1, 3, 4]) (show (allVars 5)[5]? = some (1, 3) from rfl) (by decide)
  rw [hpaths] at h
  exact h

theorem not_atMostOneCycle_crossed : ¬ crossed.currentFixedGraph.AtMostOneCycle 5 := by
  intro h
  have hcyc : ∀ c : List Nat, c.Nodup → c.length = 5 → (∀ i < 5,
      crossed.currentFixedGraph.adj (c.getD i 0) (c.getD ((i + 1) % 5) 0) = true) →
      crossed.currentFixedGraph.IsCycle c := fun c hnd hlen hadj => by
    rw [isCycle_iff_getD hnd (by omega), hlen]
    exact hadj
  have hsame := h [0, 1, 2, 3, 4] [0, 2, 1, 3, 4] rfl rfl
    (hcyc _ (by decide) rfl (by decide)) (hcyc _ (by decide) rfl (by decide))
  have hiff := Utils.isSameCycle_iff (c := [0, 1, 2, 3, 4]) (d := [0, 2, 1, 3, 4]) (by decide)
    (by decide) rfl (by decide)
  exact absurd (hiff.mpr hsame) (by decide)

/-- **A cycle that is fixed before is missed.** With the Hamiltonian cycle on five vertices fixed,
the search accepts a graph with two cycles on five vertices. -/
theorem atMostOneCycle_missed : ∃ g, fixHamCycle 5 = .ok g ∧
    ∃ s, Run 5 (fun _ => True) (.start g) s ∧ ∃ G ∈ s.accepted, ¬ G.AtMostOneCycle 5 := by
  refine ⟨_, fixHamCycle_eq (by decide), ?_⟩
  have h1 : Run 5 (fun _ => True) (.start (.ofGraph (cycleGraph 5))) _ :=
    Relation.ReflTransGen.single (Step.decide (0, 2) true (by decide) (by decide)
      (World.set_eq _ (by decide) (by decide) true))
  have h2 := h1.tail (Step.decide (1, 3) true (by decide) (by decide)
    (World.set_eq _ (by decide) (by decide) true))
  have h3 := h2.tail (Step.decide (0, 3) false (by decide) (by decide)
    (World.set_eq _ (by decide) (by decide) false))
  have h4 := h3.tail (Step.decide (1, 4) false (by decide) (by decide)
    (World.set_eq _ (by decide) (by decide) false))
  have h5 := h4.tail (Step.decide (2, 4) false (by decide) (by decide)
    (World.set_eq _ (by decide) (by decide) false))
  have h6 := h5.tail (Step.propagate crossedNeighbors 1 0 2 rfl (Or.inl (by decide))
    propagate_crossed_first rfl)
  have h7 := h6.tail (Step.propagate crossedNeighbors 5 1 3 rfl (Or.inl (by decide))
    propagate_crossed_second rfl)
  exact ⟨_, h7.tail (Step.accept rfl (by decide) trivial), _, List.mem_cons_self,
    not_atMostOneCycle_crossed⟩

end OneCycle

end SymBreak.Uhg
