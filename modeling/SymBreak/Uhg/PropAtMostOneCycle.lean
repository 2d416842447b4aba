import SymBreak.Uhg.CycleArrays
import SymBreak.Uhg.Paths
import SymBreak.Uhg.SameCycle
import SymBreak.Uhg.UHGSearch

/-!
# The propagator for at most one cycle

Model of `PropAtMostOneCycle` (`PropAtMostOneCycle.java`). From an edge that was instantiated it
searches the paths with `k` vertices in the current fixed graph; it remembers the first that closes,
and from then on it fixes the edge between the ends of every path to be none that would close
another cycle. A remembered cycle that is not one any more is forgotten at the next call. It is a
plain field, so that backtracking leaves it as it is. When it is first propagated, nothing is done.

Results:
* `handlePath_spec`, `foldlM_handlePath`: what is done at the paths found, one and all;
* **`propagate_spec`**: a call returns with every cycle through its edge remembered, or throws and
  no graph with at most one cycle is left.
-/

namespace SymBreak

open Hamilton Backtrack

/-- Any two cycles on `k` vertices are the same. -/
def Graph.AtMostOneCycle {n : Nat} (G : Graph n) (k : Nat) : Prop :=
  ∀ c d, c.length = k → d.length = k → G.IsCycle c → G.IsCycle d → SameCycle c d

namespace Uhg

open Graph

variable {n : Nat}

namespace PropAtMostOneCycle

/-! ## Model -/

/-- What is thrown, and the field `cycle` then. -/
abbrev Thrown : Type := Exn × Option (List Nat)

/-- At a full path (`PropAtMostOneCycle.java:62-67`): `cycle` is the state of the graph and the
field. -/
def handlePath (k : Nat) :
    UnknownGraph n × Option (List Nat) → List Nat →
      Except (Halt Thrown) (UnknownGraph n × Option (List Nat))
  | (g, none), currentPath =>
    if g.hasEdge (currentPath.getD 0 0) (currentPath.getD (k - 1) 0) then .ok (g, some currentPath)
    else .ok (g, none)
  | (g, some cycle), currentPath =>
    if Utils.isSameCycle cycle currentPath then .ok (g, some cycle)
    else match g.fixEdgeValue (currentPath.getD 0 0) (currentPath.getD (k - 1) 0) false with
      | .ok g => .ok (g, some cycle)
      | .error (.raised e) => .error (.raised (e, some cycle))
      | .error .outOfFuel => .error .outOfFuel

/-- The search loop (`PropAtMostOneCycle.java:59-90`). -/
def loop (nb : Nat → List Nat) (k : Nat) :
    Loop Nat Unit (UnknownGraph n × Option (List Nat)) Thrown where
  stop := 0
  last := k - 1
  leaf := handlePath k
  scan st v := innerLoop (pick fun u => !st.visited u) ((nb v).drop (st.inds v)) (st.inds v)
  push _ _ := ()
  pop _ _ := ()

/-- A remembered cycle that is not one any more is forgotten (`PropAtMostOneCycle.java:36-38`). -/
def revalidate (g : UnknownGraph n) (k : Nat) (cycle : Option (List Nat)) : Option (List Nat) :=
  if isCycle g k cycle then cycle else none

/-- `propagate(vIdx, mask)` (`PropAtMostOneCycle.java:29-94`): how it ends, and the field `cycle`
afterwards. `nb` lists the neighbours in the current fixed graph, which stays as it is. -/
def propagate (nb : Nat → List Nat) (k vIdx : Nat) (g : UnknownGraph n)
    (cycle : Option (List Nat)) (fuel : Nat) :
    Except (Halt Exn) (UnknownGraph n) × Option (List Nat) :=
  match (allVars n)[vIdx]? with
  | none => (.error (.raised .indexOutOfBounds), cycle)
  | some (e0, e1) =>
    if g.value e0 e1 = .FALSE then (.ok g, cycle)
    else
      match (loop nb k).run fuel (startEdge e0 e1 ()) (g, revalidate g k cycle) with
      | .ok (_, g, cycle) => (.ok g, cycle)
      | .error (.raised (e, cycle)) => (.error (.raised e), cycle)
      | .error .outOfFuel => (.error .outOfFuel, revalidate g k cycle)

/-- `propagate(mask)` (`PropAtMostOneCycle.java:23-26`) -/
def propagateAll (g : UnknownGraph n) : Except (Halt Exn) (UnknownGraph n) := .ok g

/-! ## A full path -/

variable {k : Nat} {g : UnknownGraph n} {cycle : Option (List Nat)}

/-- The paths were handled: no cycle on `k` vertices that one of them is has another than the
remembered one for it, and no graph with at most one such cycle is lost. -/
structure Handled (k : Nat) (g : UnknownGraph n) (cycle : Option (List Nat)) (ls : List (List Nat))
    (r : UnknownGraph n × Option (List Nat)) : Prop where
  fixed : r.1.currentFixedGraph = g.currentFixedGraph
  field : ∀ c ∈ r.2, c.length = k ∧ g.currentFixedGraph.IsCycle c
  keeps : ∀ c ∈ cycle, r.2 = some c
  found : ∀ l ∈ ls, g.currentFixedGraph.IsCycle l → ∃ c ∈ r.2, SameCycle c l
  agrees : ∀ H, Agrees g H → H.AtMostOneCycle k → Agrees r.1 H

/-- A contradiction was thrown: every graph that is left has two different cycles. -/
structure Refused (k : Nat) (g : UnknownGraph n) (cycle : Option (List Nat)) (t : Thrown) :
    Prop where
  exn : t.1 = .contradiction
  field : ∀ c ∈ t.2, c.length = k ∧ g.currentFixedGraph.IsCycle c
  keeps : ∀ c ∈ cycle, t.2 = some c
  many : ∀ H, Agrees g H → ¬ H.AtMostOneCycle k

/-- A path is a cycle of a larger graph when its ends are adjacent there. -/
theorem isCycle_iff_closes {G H : Graph n} {l : List Nat} (hl : G.IsPath l) (hlen : 1 ≤ l.length)
    (hsub : G.Sub H) : H.IsCycle l ↔ H.Adj (l.getD 0 0) (l.getD (l.length - 1) 0) := by
  rw [isCycle_iff_ends hl.2 hlen, and_iff_right (hl.1.imp fun a b h => hsub a b h)]
  exact ⟨Graph.Adj.symm, Graph.Adj.symm⟩

/-- **One full path.** -/
theorem handlePath_spec (hk : 3 ≤ k)
    (hc : ∀ c ∈ cycle, c.length = k ∧ g.currentFixedGraph.IsCycle c) {l : List Nat}
    (hl : g.currentFixedGraph.IsPath l) (hlen : l.length = k) :
    (∃ r, handlePath k (g, cycle) l = .ok r ∧ Handled k g cycle [l] r) ∨
      ∃ t, handlePath k (g, cycle) l = .error (.raised t) ∧ Refused k g cycle t := by
  subst hlen
  have hself := isCycle_iff_closes hl (by omega) (Graph.Sub.refl g.currentFixedGraph)
  cases cycle with
  | none =>
    left
    by_cases hedge : g.hasEdge (l.getD 0 0) (l.getD (l.length - 1) 0) = true
    · have hcyc := hself.mpr hedge
      refine ⟨(g, some l), if_pos hedge, rfl, fun c hcl => ?_, fun c hcl => absurd hcl (by simp),
        fun l' hl' _ => ?_, fun H hH _ => hH⟩
      · obtain rfl := Option.mem_some_iff.mp hcl
        exact ⟨rfl, hcyc⟩
      · rw [List.mem_singleton.mp hl']
        exact ⟨l, rfl, fun _ _ => Iff.rfl⟩
    · refine ⟨(g, none), if_neg hedge, rfl, fun c hcl => absurd hcl (by simp),
        fun c hcl => absurd hcl (by simp), fun l' hl' hcyc => ?_, fun H hH _ => hH⟩
      rw [List.mem_singleton.mp hl'] at hcyc
      exact absurd (hself.mp hcyc) hedge
  | some c =>
    obtain ⟨hlen, hcyc⟩ := hc c rfl
    have hsame := Utils.isSameCycle_iff hcyc.1 hl.2 hlen (hlen ▸ hk)
    by_cases heq : Utils.isSameCycle c l = true
    · left
      refine ⟨(g, some c), if_pos heq, rfl, hc, fun c' h => h, fun l' hl' _ => ?_,
        fun H hH _ => hH⟩
      rw [List.mem_singleton.mp hl']
      exact ⟨c, rfl, hsame.mp heq⟩
    · -- another cycle, if it closes
      have hmany : ∀ H : Graph n, g.currentFixedGraph.Sub H → H.AtMostOneCycle l.length →
          ¬ H.Adj (l.getD 0 0) (l.getD (l.length - 1) 0) := fun H hsub hH hadj =>
        heq (hsame.mpr (hH c l hlen rfl (hcyc.mono hsub (by omega))
          ((isCycle_iff_closes hl (by omega) hsub).mpr hadj)))
      have hfix := g.fixEdgeValue_false (hl.getD_lt (by omega) (show 0 < l.length by omega))
        (hl.getD_lt (by omega) (show l.length - 1 < l.length by omega)) (hl.ends_ne (by omega))
      simp only [handlePath, if_neg heq, hfix]
      by_cases hedge : g.hasEdge (l.getD 0 0) (l.getD (l.length - 1) 0) = true
      · right
        rw [if_pos hedge]
        exact ⟨_, rfl, rfl, hc, fun c' h => h, fun H hH h1 => hmany H hH.fixed h1
          (hH.fixed _ _ hedge)⟩
      · left
        rw [if_neg hedge]
        refine ⟨_, rfl, rfl, hc, fun c' h => h, fun l' hl' hcyc' => ?_, fun H hH h1 => ?_⟩
        · rw [List.mem_singleton.mp hl'] at hcyc'
          exact absurd (hself.mp hcyc') hedge
        · have hout : ∀ e ∈ [(l.getD 0 0, l.getD (l.length - 1) 0)], ¬ H.Adj e.1 e.2 := by
            simpa using hmany H hH.fixed h1
          exact hH.exclude hout

/-- **One path after another.** -/
theorem foldlM_handlePath (hk : 3 ≤ k) {ls : List (List Nat)} (g : UnknownGraph n)
    (cycle : Option (List Nat)) (hc : ∀ c ∈ cycle, c.length = k ∧ g.currentFixedGraph.IsCycle c)
    (hls : ∀ l ∈ ls, g.currentFixedGraph.IsPath l ∧ l.length = k) :
    (∃ r, ls.foldlM (handlePath k) (g, cycle) = .ok r ∧ Handled k g cycle ls r) ∨
      ∃ t, ls.foldlM (handlePath k) (g, cycle) = .error (.raised t) ∧ Refused k g cycle t := by
  induction ls generalizing g cycle with
  | nil =>
    exact Or.inl ⟨(g, cycle), rfl, rfl, hc, fun c h => h, fun l hl => absurd hl (by simp),
      fun H hH _ => hH⟩
  | cons l ls ih =>
    obtain ⟨hl, hls⟩ := List.forall_mem_cons.mp hls
    rw [List.foldlM_cons]
    rcases handlePath_spec hk hc hl.1 hl.2 with ⟨⟨g₁, cycle₁⟩, hr, h₁⟩ | ⟨t, ht, h₁⟩
    · rw [hr, ok_bind]
      have hfixed : g₁.currentFixedGraph = g.currentFixedGraph := h₁.fixed
      rcases ih g₁ cycle₁ (by rw [hfixed]; exact h₁.field) (by rwa [hfixed]) with
        ⟨r, hr, h₂⟩ | ⟨t, ht, h₂⟩
      · refine Or.inl ⟨r, hr, h₂.fixed.trans hfixed, hfixed ▸ h₂.field,
          fun c hcc => h₂.keeps c (h₁.keeps c hcc), List.forall_mem_cons.mpr ⟨fun hcyc => ?_, ?_⟩,
          fun H hH h1 => h₂.agrees H (h₁.agrees H hH h1) h1⟩
        · obtain ⟨c, hcc, hsame⟩ := h₁.found l List.mem_cons_self hcyc
          exact ⟨c, h₂.keeps c hcc, hsame⟩
        · exact hfixed ▸ h₂.found
      · exact Or.inr ⟨t, ht, h₂.exn, hfixed ▸ h₂.field,
          fun c hcc => h₂.keeps c (h₁.keeps c hcc),
          fun H hH h1 => h₂.many H (h₁.agrees H hH h1) h1⟩
    · refine Or.inr ⟨t, ?_, h₁⟩
      rw [ht]
      rfl

/-! ## A call -/

variable {F : Graph n} {x y : Nat}

/-- How a call ends, from what its search does at the full paths. -/
def outcome : Except (Halt Thrown) (UnknownGraph n × Option (List Nat)) → Option (List Nat) →
    Except (Halt Exn) (UnknownGraph n) × Option (List Nat)
  | .ok (g, cycle), _ => (.ok g, cycle)
  | .error (.raised (e, cycle)), _ => (.error (.raised e), cycle)
  | .error .outOfFuel, cycle => (.error .outOfFuel, cycle)

/-- **A call handles the paths from its edge on.** -/
theorem propagate_converges (hk : 3 ≤ k) (g : UnknownGraph n) (nb : Listing g.currentFixedGraph)
    (cycle : Option (List Nat)) {vIdx : Nat} (hv : (allVars n)[vIdx]? = some (x, y))
    (hxy : g.value x y = .TRUE) : Converges (propagate nb.neighborsOf k vIdx g cycle)
      (outcome ((PropNoCycle.paths nb.neighborsOf k x y).foldlM (handlePath k)
        (g, revalidate g k cycle)) (revalidate g k cycle)) := by
  have hd : k - 2 = k - 3 + 1 := by omega
  have hne : x ≠ y := g.currentFixedGraph.ne_of_adj ((g.fixed_iff x y).mpr hxy)
  have hL : Faithful (loop (n := n) nb.neighborsOf k) (fun _ _ => True) _ :=
    (PropNoCycle.faithful nb (k := k) fun (_ : Unit) _ => .ok ()).of_turns rfl rfl rfl rfl rfl
  obtain ⟨st', -, hrun⟩ := run_converges hL (d := k - 3) (rep_startEdge hne trivial) rfl
    (by simp only [loop, startEdge]; omega) rfl
  have h : Converges (fun fuel => (loop nb.neighborsOf k).run fuel (startEdge x y ())
      (g, revalidate g k cycle)) ((PropNoCycle.paths nb.neighborsOf k x y).foldlM (handlePath k)
        (g, revalidate g k cycle) >>= fun s => .ok (st', s)) := by
    rw [PropNoCycle.paths, hd]
    exact hrun _
  obtain ⟨N, hN⟩ := h
  refine ⟨N, fun fuel hf => ?_⟩
  unfold propagate
  simp only [hv, hxy, reduceCtorEq, if_false, hN fuel hf]
  rcases (PropNoCycle.paths nb.neighborsOf k x y).foldlM (handlePath k)
    (g, revalidate g k cycle) with (_ | ⟨e, c⟩) | ⟨g', c⟩ <;> rfl

/-- What the field can hold: nothing, or `k` different vertices. -/
def FieldOk (k : Nat) (cycle : Option (List Nat)) : Prop := ∀ c ∈ cycle, c.length = k ∧ c.Nodup

theorem revalidate_spec (hk : 1 ≤ k) (hc : FieldOk k cycle) :
    (∀ c ∈ revalidate g k cycle, c.length = k ∧ g.currentFixedGraph.IsCycle c) ∧
      ∀ c ∈ cycle, g.currentFixedGraph.IsCycle c → revalidate g k cycle = some c := by
  cases cycle with
  | none => exact ⟨fun c h => absurd h (by simp [revalidate]), fun c h => absurd h (by simp)⟩
  | some c =>
    obtain ⟨hlen, hnd⟩ := hc c rfl
    have hiff := isCycle_iff (g := g) hnd hlen hk
    unfold revalidate
    by_cases h : isCycle g k (some c) = true
    · rw [if_pos h]
      refine ⟨fun c' h' => ?_, fun c' h' _ => h'⟩
      obtain rfl := Option.mem_some_iff.mp h'
      exact ⟨hlen, hiff.mp h⟩
    · rw [if_neg h]
      refine ⟨fun c' h' => absurd h' (by simp), fun c' h' hcyc => ?_⟩
      obtain rfl := Option.mem_some_iff.mp h'
      exact absurd (hiff.mpr hcyc) h

/-- The state after a call that returned. -/
structure Returned (k : Nat) (g : UnknownGraph n) (x y : Nat) (cycle' : Option (List Nat))
    (g' : UnknownGraph n) : Prop where
  fixed : g'.currentFixedGraph = g.currentFixedGraph
  found : ∀ d, d.length = k → g.currentFixedGraph.IsCycle d → CycleEdge d x y →
    ∃ c ∈ cycle', SameCycle c d
  agrees : ∀ H, Agrees g H → H.AtMostOneCycle k → Agrees g' H

/-- **What a call does.** It keeps a remembered cycle that still is one. When it returns, every
cycle through its edge is the remembered one; when it throws, every graph that is left has two. -/
theorem propagate_spec (hk : 3 ≤ k) (g : UnknownGraph n) (nb : Listing g.currentFixedGraph)
    (hc : FieldOk k cycle) {vIdx : Nat} (hv : (allVars n)[vIdx]? = some (x, y))
    (hval : g.value x y ≠ .UNDEFINED) :
    ∃ r, Converges (propagate nb.neighborsOf k vIdx g cycle) r ∧ FieldOk k r.2 ∧
      (∀ c ∈ cycle, g.currentFixedGraph.IsCycle c → r.2 = some c) ∧
      ((∃ g', r.1 = .ok g' ∧ Returned k g x y r.2 g') ∨
        (r.1 = .error (.raised .contradiction) ∧ ∀ H, Agrees g H → ¬ H.AtMostOneCycle k)) := by
  by_cases hxy : g.value x y = .TRUE
  · have hconv := propagate_converges hk g nb cycle hv hxy
    obtain ⟨hfield, hkeeps⟩ := revalidate_spec (g := g) (show 1 ≤ k by omega) hc
    have hadj : g.currentFixedGraph.Adj x y := (g.fixed_iff x y).mpr hxy
    have hmem := fun l => PropNoCycle.mem_paths nb hk hadj (l := l)
    rcases foldlM_handlePath hk g (revalidate g k cycle) hfield fun l hl =>
        ⟨⟨((hmem l).mp hl).1, ((hmem l).mp hl).2.1⟩, ((hmem l).mp hl).2.2.2⟩ with
      ⟨r, hr, hh⟩ | ⟨t, ht, hh⟩
    · rw [hr] at hconv
      refine ⟨_, hconv, fun c h => ⟨(hh.field c h).1, (hh.field c h).2.1⟩,
        fun c h hcyc => hh.keeps c (hkeeps c h hcyc), Or.inl ⟨r.1, rfl, hh.fixed, ?_, hh.agrees⟩⟩
      intro d hlen hcyc hce
      obtain ⟨l, hsame, hperm⟩ := hce.exists_sameCycle
      have hnd := hperm.nodup_iff.mp hcyc.1
      have hlen' : (x :: y :: l).length = k := hperm.length_eq.symm.trans hlen
      have hcyc' := hcyc.of_sameCycle hsame hnd (by omega)
      obtain ⟨hch, -⟩ := (isCycle_iff_ends hnd (by omega)).mp hcyc'
      obtain ⟨c, hcr, hcl⟩ := hh.found _ ((hmem _).mpr
        ⟨hch, hnd, List.prefix_append [x, y] l, hlen'⟩) hcyc'
      exact ⟨c, hcr, hcl.trans hsame.symm⟩
    · rw [ht] at hconv
      refine ⟨_, hconv, fun c h => ⟨(hh.field c h).1, (hh.field c h).2.1⟩,
        fun c h hcyc => hh.keeps c (hkeeps c h hcyc), Or.inr ⟨?_, hh.many⟩⟩
      exact congrArg (fun e => Except.error (Halt.raised e)) hh.exn
  · -- a variable that is `0` is passed over
    have hfalse := g.value_false_of hval hxy
    refine ⟨(.ok g, cycle), .of_eq fun fuel => ?_, hc, fun c h _ => h,
      Or.inl ⟨g, rfl, rfl, fun d hlen hcyc hce => absurd ?_ hxy, fun H hH _ => hH⟩⟩
    · unfold propagate
      simp only [hv, hfalse, if_true]
    · exact (g.fixed_iff x y).mp (hcyc.isHamCycle.rel (fun _ _ => Graph.Adj.symm) hce)

end PropAtMostOneCycle

end Uhg

end SymBreak
