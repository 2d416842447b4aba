import SymBreak.Uhg.UnknownGraph
import Mathlib.Data.Nat.ModEq

/-!
# The rules for chords

The three rules with which all four propagators begin (`PropOptimized.java:63-84`): for a chord `(x,
y)` of the cycle `0, 1, …, n - 1`, edges that would close a second Hamiltonian cycle through it are
fixed to be non-edges.

`Forced F bad a b` says that fixing the edge `{a, b}` to be none is right: every graph that contains
the fixed graph `F` and this edge is bad, which here means that a Hamiltonian cycle passes through
the chord. A propagator is described by the list of edges that it fixes, each of them forced
(`Forces`).

Results:
* `through_of_segs`: segments of the cycle, linked by edges, make a second cycle;
* `rules_converges`: the loops of the rules end, having made the calls listed by `rulesCalls`;
* **`rules_spec`**: every edge that the rules fix is forced.
-/

namespace SymBreak

open Hamilton

namespace Graph

variable {n : Nat}

/-- Adjacency as a relation. -/
def Adj (G : Graph n) (a b : Nat) : Prop := G.adj a b = true

theorem Adj.symm {G : Graph n} {a b : Nat} (h : G.Adj a b) : G.Adj b a := by
  unfold Adj
  rw [G.symm]
  exact h

/-- A Hamiltonian cycle of the graph passes through the edge `{a, b}`. -/
def HamCycleThrough (G : Graph n) (a b : Nat) : Prop :=
  ∃ c, IsHamCycle G.Adj (List.range n) c ∧ CycleEdge c a b

/-- The graph contains the cycle `0, 1, …, n - 1, 0`. -/
def ContainsCycle (G : Graph n) : Prop := ∀ i < n, G.Adj i ((i + 1) % n)

/-- Every edge of the one graph is an edge of the other. -/
def Sub (G H : Graph n) : Prop := ∀ a b, G.Adj a b → H.Adj a b

theorem Sub.refl (G : Graph n) : G.Sub G := fun _ _ h => h

theorem ContainsCycle.mono {G H : Graph n} (h : G.ContainsCycle) (hsub : G.Sub H) :
    H.ContainsCycle :=
  fun i hi => hsub _ _ (h i hi)

end Graph

namespace Uhg

open Graph

variable {n : Nat}

/-! ## The rules -/

namespace UnknownGraph

open Utils

/-- The loop of rules 2 and 3: while `cond k`, fix the non-edge `forced k` when `given k` is an
edge. -/
def ruleLoop (cond : Nat → Bool) (given forced : Nat → Nat × Nat) :
    Nat → Nat → UnknownGraph n → Except (Halt Exn) (UnknownGraph n)
  | 0, _, _ => .error .outOfFuel
  | fuel + 1, k, g =>
    if cond k then do
      let g ← if g.hasEdge (given k).1 (given k).2 then
          g.fixEdgeValue (forced k).1 (forced k).2 false
        else .ok g
      ruleLoop cond given forced fuel (k + 1) g
    else .ok g

/-- `(x,y) --> not (x+1, y+1)` -/
def rule1 (e0 e1 : Nat) (g : UnknownGraph n) : Except (Halt Exn) (UnknownGraph n) :=
  g.fixEdgeValue (mod (e0 + 1) n) (mod (e1 + 1) n) false

/-- `(x,y) /\ (y+k,y-1) --> not (x+1, y+k+1)` -/
def rule2 (e0 e1 : Nat) : Nat → Nat → UnknownGraph n → Except (Halt Exn) (UnknownGraph n) :=
  ruleLoop (fun k => mod (e1 + k + 1) n < e0) (fun k => (mod (e1 + k) n, mod (e1 - 1) n))
    fun k => (mod (e0 + 1) n, mod (e1 + k + 1) n)

/-- `(x,y) /\ (y-k,y+1) --> not (x-1, y-k-1)` -/
def rule3 (e0 e1 : Nat) : Nat → Nat → UnknownGraph n → Except (Halt Exn) (UnknownGraph n) :=
  ruleLoop (fun k => mod (e1 - k - 1) n > e0) (fun k => (mod (e1 - k) n, mod (e1 + 1) n))
    fun k => (mod (e0 - 1) n, mod (e1 - k - 1) n)

/-- The three rules, one after another. -/
def rules (e0 e1 : Nat) (fuel : Nat) (g : UnknownGraph n) : Except (Halt Exn) (UnknownGraph n) := do
  let g ← rule1 e0 e1 g
  let g ← rule2 e0 e1 fuel 1 g
  rule3 e0 e1 fuel 1 g

end UnknownGraph

/-! ## The calls of the rules -/

/-- A call `fixEdgeValue(a, b, false)` of a rule, and the edges that the rule has tested for it. -/
structure Call where
  edge : Nat × Nat
  tested : List (Nat × Nat)
  deriving DecidableEq

/-- The calls of the loop of rules 2 and 3 over the numbers `ks`, on a graph with the fixed edges
of `G`. -/
def loopCalls (cond : Nat → Bool) (given forced : Nat → Nat × Nat) (G : Graph n) (ks : List Nat) :
    List Call :=
  ((ks.takeWhile cond).filter fun k => G.adj (given k).1 (given k).2).map fun k =>
    ⟨forced k, [given k]⟩

section Calls

open Utils

variable (G : Graph n) (e0 e1 : Nat)

/-- The call of rule 1. -/
def rule1Calls (n e0 e1 : Nat) : List Call := [⟨(mod (e0 + 1) n, mod (e1 + 1) n), []⟩]

/-- The calls of rule 2. -/
def rule2Calls : List Call :=
  loopCalls (fun k => mod (e1 + k + 1) n < e0) (fun k => (mod (e1 + k) n, mod (e1 - 1) n))
    (fun k => (mod (e0 + 1) n, mod (e1 + k + 1) n)) G (List.range' 1 n)

/-- The calls of rule 3. -/
def rule3Calls : List Call :=
  loopCalls (fun k => mod (e1 - k - 1) n > e0) (fun k => (mod (e1 - k) n, mod (e1 + 1) n))
    (fun k => (mod (e0 - 1) n, mod (e1 - k - 1) n)) G (List.range' 1 n)

/-- The calls of the three rules. -/
def rulesCalls : List Call := rule1Calls n e0 e1 ++ (rule2Calls G e0 e1 ++ rule3Calls G e0 e1)

end Calls

/-- **The loop of a rule** ends where its condition fails first, having made its calls. -/
theorem ruleLoop_converges {cond : Nat → Bool} {given forced : Nat → Nat × Nat} {d : Nat}
    (hd : cond d = false) {k m : Nat} (hk : k ≤ d) (hm : d ≤ k + m) (g : UnknownGraph n) :
    Converges (fun fuel => UnknownGraph.ruleLoop cond given forced fuel k g)
      (g.forceAll
        ((loopCalls cond given forced g.currentFixedGraph (List.range' k m)).map Call.edge)) := by
  induction m generalizing k g with
  | zero =>
    obtain rfl : k = d := by omega
    refine Converges.succ (Converges.of_eq fun fuel => ?_)
    rw [UnknownGraph.ruleLoop, if_neg (by rw [hd]; exact Bool.false_ne_true)]
    rfl
  | succ m ih =>
    refine Converges.succ ?_
    unfold loopCalls
    rw [List.range'_succ]
    by_cases hc : cond k = true
    · have hkd : k ≠ d := by
        rintro rfl
        rw [hd] at hc
        exact Bool.false_ne_true hc
      rw [List.takeWhile_cons_of_pos hc]
      by_cases hg : g.hasEdge (given k).1 (given k).2 = true
      · rw [List.filter_cons_of_pos (by exact hg), List.map_cons, List.map_cons]
        refine ((Converges.const _).bind fun g' hg' => ?_).congr fun fuel =>
          show g.fixEdgeValue (forced k).1 (forced k).2 false >>= _ = _ by
            rw [UnknownGraph.ruleLoop, if_pos hc, if_pos hg]
        have h := ih (k := k + 1) (by omega) (by omega) g'
        rwa [g.currentFixedGraph_fixEdgeValue hg'] at h
      · rw [List.filter_cons_of_neg (by exact hg)]
        refine (ih (k := k + 1) (by omega) (by omega) g).congr fun fuel => ?_
        rw [UnknownGraph.ruleLoop, if_pos hc, if_neg hg, ok_bind]
    · rw [List.takeWhile_cons_of_neg hc]
      refine Converges.of_eq fun fuel => ?_
      rw [UnknownGraph.ruleLoop, if_neg hc]
      rfl

/-- The numbers for which a loop makes a call: the condition holds up to them. -/
theorem mem_takeWhile_range' {cond : Nat → Bool} {k m j : Nat} :
    j ∈ (List.range' k m).takeWhile cond →
      k ≤ j ∧ j < k + m ∧ ∀ i, k ≤ i → i ≤ j → cond i = true := by
  induction m generalizing k with
  | zero => exact fun h => absurd h List.not_mem_nil
  | succ m ih =>
    intro h
    rw [List.range'_succ] at h
    by_cases hc : cond k = true
    · rw [List.takeWhile_cons_of_pos hc, List.mem_cons] at h
      rcases h with rfl | h
      · exact ⟨le_rfl, by omega, fun i h1 h2 => by rwa [show i = j by omega]⟩
      · obtain ⟨h1, h2, hall⟩ := ih h
        refine ⟨by omega, by omega, fun i hki hij => ?_⟩
        rcases Nat.eq_or_lt_of_le hki with rfl | hlt
        · exact hc
        · exact hall i hlt hij
    · rw [List.takeWhile_cons_of_neg hc] at h
      exact absurd h List.not_mem_nil

theorem mem_loopCalls {cond : Nat → Bool} {given forced : Nat → Nat × Nat} {G : Graph n}
    {k m : Nat} {c : Call} (h : c ∈ loopCalls cond given forced G (List.range' k m)) :
    ∃ j, k ≤ j ∧ (∀ i, k ≤ i → i ≤ j → cond i = true) ∧ G.Adj (given j).1 (given j).2 ∧
      c = ⟨forced j, [given j]⟩ := by
  obtain ⟨j, hj, rfl⟩ := List.mem_map.mp h
  obtain ⟨hj, hadj⟩ := List.mem_filter.mp hj
  obtain ⟨h1, -, h2⟩ := mem_takeWhile_range' hj
  exact ⟨j, h1, h2, hadj, rfl⟩

/-! ## Forced non-edges -/

/-- Every graph that contains `F` and the edge `{a, b}` is bad. -/
structure Forced (F : Graph n) (bad : Graph n → Prop) (a b : Nat) : Prop where
  left : a < n
  right : b < n
  ne : a ≠ b
  through : ∀ G : Graph n, F.Sub G → G.Adj a b → bad G

theorem Forced.mono {F : Graph n} {bad bad' : Graph n → Prop} {a b : Nat} (h : Forced F bad a b)
    (hbad : ∀ G, F.Sub G → bad G → bad' G) : Forced F bad' a b :=
  ⟨h.left, h.right, h.ne, fun G hs hG => hbad G hs (h.through G hs hG)⟩

/-- On every graph with the fixed graph `F`, the computation fixes the same non-edges, all of them
forced. -/
def Forces (F : Graph n) (bad : Graph n → Prop)
    (f : UnknownGraph n → Nat → Except (Halt Exn) (UnknownGraph n)) (es : List (Nat × Nat)) :
    Prop :=
  (∀ e ∈ es, Forced F bad e.1 e.2) ∧
    ∀ g : UnknownGraph n, g.currentFixedGraph = F → Converges (f g) (g.forceAll es)

variable {F : Graph n} {bad : Graph n → Prop} {es es' : List (Nat × Nat)}
  {f f' : UnknownGraph n → Nat → Except (Halt Exn) (UnknownGraph n)}

theorem forceAll_of_forced (h : ∀ e ∈ es, Forced F bad e.1 e.2) (g : UnknownGraph n) :
    g.forceAll es = if ∃ e ∈ es, g.hasEdge e.1 e.2 = true then .error (.raised .contradiction)
      else .ok (g.exclude (es.map fun e => s(e.1, e.2))) :=
  UnknownGraph.forceAll_eq es g fun e he => ⟨(h e he).left, (h e he).right, (h e he).ne⟩

/-- One computation after another. -/
theorem Forces.bind (h : Forces F bad f es) (h' : Forces F bad f' es') :
    Forces F bad (fun g fuel => f g fuel >>= fun g => f' g fuel) (es ++ es') := by
  refine ⟨List.forall_mem_append.mpr ⟨h.1, h'.1⟩, fun g hg => ?_⟩
  rw [g.forceAll_append]
  refine Converges.bind (h.2 g hg) fun g' hg' => h'.2 g' ?_
  rw [UnknownGraph.currentFixedGraph_forceAll es hg', hg]

theorem Forces.mono {bad' : Graph n → Prop} (h : Forces F bad f es)
    (hbad : ∀ G, F.Sub G → bad G → bad' G) : Forces F bad' f es :=
  ⟨fun e he => (h.1 e he).mono hbad, h.2⟩

theorem Forces.nil : Forces F bad (fun g _ => .ok g) [] := ⟨by simp, fun _ _ => Converges.const _⟩

theorem Forces.congr (h : Forces F bad f es) (hf : ∀ g : UnknownGraph n, g.currentFixedGraph = F →
    ∀ fuel, f g fuel = f' g fuel) : Forces F bad f' es :=
  ⟨h.1, fun g hg => (h.2 g hg).congr (hf g hg)⟩

/-- **A computation that forces non-edges throws iff the graph is bad**, when one of them is an edge
of a bad graph; otherwise it returns. -/
theorem Forces.contradiction_iff (h : Forces F bad f es)
    (hclose : bad F → ∃ e ∈ es, F.Adj e.1 e.2) {g : UnknownGraph n}
    (hg : g.currentFixedGraph = F) :
    ∃ r, Converges (f g) r ∧ (r = .error (.raised .contradiction) ↔ bad F) ∧
      (¬ bad F → ∃ g', r = .ok g') := by
  subst hg
  have hiff : (∃ e ∈ es, g.hasEdge e.1 e.2 = true) ↔ bad g.currentFixedGraph :=
    ⟨fun ⟨e, he, hadj⟩ => (h.1 e he).through _ (Graph.Sub.refl _) hadj, hclose⟩
  refine ⟨_, h.2 g rfl, ?_, fun hb => ?_⟩
  · rw [forceAll_of_forced h.1, ← hiff]
    by_cases he : ∃ e ∈ es, g.hasEdge e.1 e.2 = true
    · simp [he]
    · simp [he]
  · rw [forceAll_of_forced h.1, if_neg fun he => hb (hiff.mp he)]
    exact ⟨_, rfl⟩

/-! ## Second cycles -/

/-- The `t`-th vertex of the cycle, from `x` on. -/
def pos (x n t : Nat) : Nat := (x + t) % n

theorem pos_lt {x t : Nat} (hn : 0 < n) : pos x n t < n := Nat.mod_lt _ hn

theorem pos_zero {x : Nat} (hx : x < n) : pos x n 0 = x := Nat.mod_eq_of_lt hx

theorem pos_injective {x s t : Nat} (hs : s < n) (ht : t < n) (h : pos x n s = pos x n t) :
    s = t := by
  have h' : s ≡ t [MOD n] := Nat.ModEq.add_left_cancel' x h
  rwa [Nat.ModEq, Nat.mod_eq_of_lt hs, Nat.mod_eq_of_lt ht] at h'

/-- The vertices from `x` on, in any order of their distances from it. -/
theorem map_pos_perm {x : Nat} (hn : 0 < n) {l : List Nat} (hl : l.Perm (List.range n)) :
    (l.map (pos x n)).Perm (List.range n) := by
  have hinj : (l.map (pos x n)).Nodup := (List.nodup_map_iff_inj_on
    (hl.nodup_iff.mpr List.nodup_range)).mpr fun s hs t ht h => pos_injective
      (List.mem_range.mp (hl.mem_iff.mp hs)) (List.mem_range.mp (hl.mem_iff.mp ht)) h
  refine (List.subperm_of_subset hinj fun v hv => ?_).perm_of_length_le (by
    rw [List.length_map, hl.length_eq])
  obtain ⟨t, -, rfl⟩ := List.mem_map.mp hv
  exact List.mem_range.mpr (pos_lt hn)

/-- The end of one segment is adjacent to the beginning of the next. -/
def Linked (G : Graph n) (x : Nat) (s t : Nat × Nat) : Prop :=
  G.Adj (pos x n s.2) (pos x n t.1)

theorem step_adj {G : Graph n} (hG : G.ContainsCycle) (hn : 0 < n) (x t : Nat) :
    G.Adj (pos x n t) (pos x n (t + 1)) := by
  have h := hG (pos x n t) (pos_lt hn)
  rwa [pos, Nat.mod_add_mod, Nat.add_assoc] at h

theorem wrap_adj {G : Graph n} (hG : G.ContainsCycle) (hn : 0 < n) (x : Nat) :
    G.Adj (pos x n (n - 1)) (pos x n 0) := by
  have h := step_adj hG hn x (n - 1)
  rwa [Nat.sub_add_cancel hn, pos, pos, Nat.add_mod_right] at h

/-- **Segments of the cycle, linked by edges**, are a second cycle. They are given by the distances
of their ends from `x`; the first goes from the other end `m` of the chord. -/
theorem through_of_segs {G : Graph n} (hG : G.ContainsCycle) {x m b : Nat}
    {segs : List (Nat × Nat)} (hx : x < n) (hlt : ∀ s ∈ (m, b) :: segs, s.1 < n ∧ s.2 < n)
    (hnd : (((m, b) :: segs).flatMap fun s => seg s.1 s.2).Nodup)
    (hmem : ∀ t, t ∈ (((m, b) :: segs).flatMap fun s => seg s.1 s.2) ↔ 0 < t ∧ t < n)
    (hlink : ((0, 0) :: ((m, b) :: segs ++ [(0, 0)])).IsChain (Linked G x)) :
    G.HamCycleThrough x (pos x n m) := by
  have hn : 0 < n := by omega
  set l := ((m, b) :: segs).flatMap fun s => seg s.1 s.2 with hl
  have hchain : (0 :: (l ++ [0])).IsChain fun s t => G.Adj (pos x n s) (pos x n t) := by
    have := chain_segs (n := n) (fun s t (h : G.Adj (pos x n s) (pos x n t)) => h.symm)
      (fun t ht => ?_) 0 0 ((m, b) :: segs ++ [(0, 0)]) hn hn ?_ hlink
    · rw [List.flatMap_append, ← hl] at this
      exact this
    · exact step_adj hG hn x t
    · intro s hs
      rcases List.mem_append.mp hs with hs | hs
      · exact hlt s hs
      · rw [List.mem_singleton.mp hs]
        exact ⟨hn, hn⟩
  have hperm : (0 :: l).Perm (List.range n) := by
    have h0 : 0 ∉ l := fun h => absurd ((hmem 0).mp h).1 (lt_irrefl 0)
    rw [List.perm_ext_iff_of_nodup (List.nodup_cons.mpr ⟨h0, hnd⟩) List.nodup_range]
    intro t
    rw [List.mem_cons, hmem, List.mem_range]
    omega
  refine ⟨(0 :: l).map (pos x n), ⟨map_pos_perm hn hperm, ?_⟩, ?_⟩
  · rw [List.map_cons, Cycle.chain_coe_cons]
    have := List.isChain_map_of_isChain (pos x n) (fun _ _ h => h) hchain
    simpa using this
  · obtain ⟨r, hr⟩ : ∃ r, l = m :: r := by
      have h := head?_seg m b
      rw [hl, List.flatMap_cons]
      obtain ⟨r, hr⟩ := List.head?_eq_some_iff.mp h
      exact ⟨_, by rw [hr]; rfl⟩
    rw [hr, List.map_cons, List.map_cons, pos_zero hx]
    exact ⟨_, Or.inl (List.IsRotated.refl _)⟩

/-! ## The rules are right -/

/-- `{x, y}` is a chord of the cycle `0, 1, …, n - 1`. -/
structure IsChord (n x y : Nat) : Prop where
  lt : x + 2 ≤ y
  bound : y < n
  wrap : y + 2 ≤ x + n

/-- The pairs at distance one on the cycle are its edges, the others its chords. -/
theorem isChord_iff {x y : Nat} (hn : 3 ≤ n) (hxy : x < y) (hy : y < n) :
    IsChord n x y ↔ Utils.cycleDist x y n ≠ 1 := by
  rw [Ne, Utils.cycleDist_eq_one hn hxy hy]
  constructor
  · rintro ⟨h1, h2, h3⟩
    omega
  · intro h
    exact ⟨by omega, hy, by omega⟩

section Chord

variable {x y : Nat} (hF : F.ContainsCycle) (hc : IsChord n x y) (hxy : F.Adj x y)
include hc

theorem mod_eq_pos {z : Int} {t : Nat} (c : Int) (h : z = ((x + t : Nat) : Int) + c * n) :
    Utils.mod z n = pos x n t :=
  Utils.mod_of_eq (by have := hc.bound; omega) c h

theorem pos_chord : pos x n (y - x) = y := by
  obtain ⟨h1, h2, h3⟩ := hc
  unfold pos
  rw [show x + (y - x) = y by omega, Nat.mod_eq_of_lt h2]

theorem mod_after_x : Utils.mod (x + 1) n = pos x n 1 :=
  mod_eq_pos hc 0 (by push_cast; ring)

theorem mod_before_x : Utils.mod (x - 1) n = pos x n (n - 1) :=
  mod_eq_pos hc (-1) (by have := hc.bound; omega)

theorem mod_after_y (c : Nat) : Utils.mod (y + c) n = pos x n (y - x + c) :=
  mod_eq_pos hc 0 (by push_cast [show x ≤ y by have := hc.lt; omega]; ring)

theorem mod_before_y {c : Nat} (h : c ≤ y - x) : Utils.mod (y - c) n = pos x n (y - x - c) :=
  mod_eq_pos hc 0 (by push_cast [show x ≤ y by have := hc.lt; omega, h]; ring)

/-- `y + k + 1`, as rule 2 names it. -/
theorem mod_after_y_succ (k : Nat) : Utils.mod (y + k + 1) n = pos x n (y - x + k + 1) :=
  mod_eq_pos hc 0 (by push_cast [show x ≤ y by have := hc.lt; omega]; ring)

/-- `y - k - 1`, as rule 3 names it. -/
theorem mod_before_y_succ {k : Nat} (h : k + 1 ≤ y - x) :
    Utils.mod (y - k - 1) n = pos x n (y - x - k - 1) :=
  mod_eq_pos hc 0 (by have := hc.lt; omega)

include hF hxy

/-- A link from the end of one segment to the beginning of another is forced, when the other links
are edges. -/
theorem forced_of_segs {s t : Nat} (b : Nat) (segs : List (Nat × Nat)) (hs : s < n) (ht : t < n)
    (hne : s ≠ t) (hlt : ∀ p ∈ (y - x, b) :: segs, p.1 < n ∧ p.2 < n)
    (hnd : (((y - x, b) :: segs).flatMap fun p => seg p.1 p.2).Nodup)
    (hmem : ∀ t, t ∈ (((y - x, b) :: segs).flatMap fun p => seg p.1 p.2) ↔ 0 < t ∧ t < n)
    (hlink : ∀ G : Graph n, F.Sub G → G.ContainsCycle → G.Adj (pos x n s) (pos x n t) →
      ((y - x, b) :: segs ++ [(0, 0)]).IsChain (Linked G x)) :
    Forced F (·.HamCycleThrough x y) (pos x n s) (pos x n t) := by
  have hn : 0 < n := by have := hc.bound; omega
  have hx : x < n := by have := hc.bound; have := hc.lt; omega
  refine ⟨pos_lt hn, pos_lt hn, fun h => hne (pos_injective hs ht h), fun G hsub hst => ?_⟩
  have hchord : G.Adj (pos x n 0) (pos x n (y - x)) := by
    rw [pos_zero hx, pos_chord hc]
    exact hsub x y hxy
  have h := through_of_segs (hF.mono hsub) hx hlt hnd hmem (by
    rw [List.cons_append, List.isChain_cons_cons]
    exact ⟨hchord, hlink G hsub (hF.mono hsub) hst⟩)
  rwa [pos_chord hc] at h

/-- Rule 1: `x → y ↓ x + 1 → y + 1 ↑ x`. -/
theorem rule1_forced : Forced F (·.HamCycleThrough x y) (pos x n 1) (pos x n (y - x + 1)) := by
  obtain ⟨h1, h2, h3⟩ := hc
  refine forced_of_segs hF ⟨h1, h2, h3⟩ hxy 1 [(y - x + 1, n - 1)] (by omega)
    (by omega) (by omega) ?_ ?_ ?_ fun G _ hG hst => ?_
  · simp only [List.forall_mem_cons, List.not_mem_nil, false_implies, implies_true, and_true]
    omega
  · simp only [List.flatMap_cons, List.flatMap_nil, List.append_nil, List.nodup_append, nodup_seg,
      mem_seg, true_and]
    omega
  · intro t
    simp only [List.flatMap_cons, List.flatMap_nil, List.append_nil, List.mem_append, mem_seg]
    omega
  · simp only [List.cons_append, List.nil_append, List.isChain_cons_cons, List.isChain_singleton,
      and_true]
    exact ⟨hst, wrap_adj hG (by omega) x⟩

/-- Three segments that cover the cycle but for `x`. Rules 2 and 3 test the edge from the first to
the second, and force the link from there to the third. -/
theorem forced_of_three_segs {b c d e f : Nat} (hlt : b < n ∧ c < n ∧ d < n ∧ e < n ∧ f < n)
    (hne : d ≠ e)
    (hbc : ∀ t ∈ seg (y - x) b, t ∉ seg c d) (hbe : ∀ t ∈ seg (y - x) b, t ∉ seg e f)
    (hce : ∀ t ∈ seg c d, t ∉ seg e f)
    (hmem : ∀ t, t ∈ seg (y - x) b ∨ t ∈ seg c d ∨ t ∈ seg e f ↔ 0 < t ∧ t < n)
    (hg : F.Adj (pos x n b) (pos x n c))
    (hlast : ∀ G : Graph n, G.ContainsCycle → G.Adj (pos x n f) (pos x n 0)) :
    Forced F (·.HamCycleThrough x y) (pos x n d) (pos x n e) := by
  have hy : y - x < n := by have := hc.bound; omega
  obtain ⟨hb, hc', hd, he, hf⟩ := hlt
  refine forced_of_segs hF hc hxy b [(c, d), (e, f)] hd he hne ?_ ?_ (fun t => ?_)
    fun G hsub hG hst => ?_
  · simp only [List.forall_mem_cons, List.not_mem_nil, false_implies, implies_true, and_true]
    exact ⟨⟨hy, hb⟩, ⟨hc', hd⟩, he, hf⟩
  · simp only [List.flatMap_cons, List.flatMap_nil, List.append_nil, List.nodup_append, nodup_seg,
      List.mem_append, true_and]
    exact ⟨fun t h₁ t' h₂ heq => hce t h₁ (heq ▸ h₂),
      fun t h₁ t' h₂ heq => h₂.elim (heq ▸ hbc t h₁) (heq ▸ hbe t h₁)⟩
  · simp only [List.flatMap_cons, List.flatMap_nil, List.append_nil, List.mem_append]
    exact hmem t
  · simp only [List.cons_append, List.nil_append, List.isChain_cons_cons, List.isChain_singleton,
      and_true]
    exact ⟨hsub _ _ hg, hst, hlast G hG⟩

/-- Rule 2: `x → y ↑ y + k → y - 1 ↓ x + 1 → y + k + 1 ↑ x`. -/
theorem rule2_forced {k : Nat} (hk : y - x + k + 1 < n)
    (hg : F.Adj (pos x n (y - x + k)) (pos x n (y - x - 1))) :
    Forced F (·.HamCycleThrough x y) (pos x n 1) (pos x n (y - x + k + 1)) := by
  have ⟨h1, h2, h3⟩ := hc
  refine forced_of_three_segs hF hc hxy (f := n - 1) (by omega) (by omega) ?_ ?_ ?_ ?_ hg
    fun G hG => wrap_adj hG (by omega) x
  all_goals
    intro t
    simp only [mem_seg]
    omega

/-- Rule 3: `x → y ↓ y - k → y + 1 ↑ x - 1 → y - k - 1 ↓ x`. -/
theorem rule3_forced {k : Nat} (hk : k + 1 < y - x)
    (hg : F.Adj (pos x n (y - x - k)) (pos x n (y - x + 1))) :
    Forced F (·.HamCycleThrough x y) (pos x n (n - 1)) (pos x n (y - x - k - 1)) := by
  have ⟨h1, h2, h3⟩ := hc
  refine forced_of_three_segs hF hc hxy (f := 1) (by omega) (by omega) ?_ ?_ ?_ ?_ hg
    fun G hG => (step_adj hG (by omega) x 0).symm
  all_goals
    intro t
    simp only [mem_seg]
    omega

omit hF hxy in
/-- Rule 2 stops at the latest when it comes round to `x`. -/
theorem rule2_stops :
    decide (Utils.mod (y + (n - (y - x) - 1 : Nat) + 1) n < x) = false := by
  have ⟨h1, h2, h3⟩ := hc
  rw [mod_after_y_succ hc, pos, show x + (y - x + (n - (y - x) - 1) + 1) = x + n by omega,
    Nat.add_mod_right, Nat.mod_eq_of_lt (by omega)]
  simp

omit hF hxy in
/-- Rule 3 stops at the latest when it comes down to `x`. -/
theorem rule3_stops : decide (Utils.mod (y - (y - x - 1 : Nat) - 1) n > x) = false := by
  have ⟨h1, h2, h3⟩ := hc
  rw [mod_before_y_succ hc (by omega), pos, show x + (y - x - (y - x - 1) - 1) = x by omega,
    Nat.mod_eq_of_lt (by omega)]
  simp

omit hF hxy in
theorem rule2_converges (g : UnknownGraph n) : Converges (fun fuel => g.rule2 x y fuel 1)
    (g.forceAll ((rule2Calls g.currentFixedGraph x y).map Call.edge)) :=
  ruleLoop_converges (rule2_stops hc) (by have ⟨_, _, _⟩ := hc; omega) (by omega) g

omit hF hxy in
theorem rule3_converges (g : UnknownGraph n) : Converges (fun fuel => g.rule3 x y fuel 1)
    (g.forceAll ((rule3Calls g.currentFixedGraph x y).map Call.edge)) :=
  ruleLoop_converges (rule3_stops hc) (by have ⟨_, _, _⟩ := hc; omega)
    (by have ⟨_, _, _⟩ := hc; omega) g

omit hF hxy in
/-- **The rules** end, having made their calls. -/
theorem rules_converges (g : UnknownGraph n) : Converges (fun fuel => g.rules x y fuel)
    (g.forceAll ((rulesCalls g.currentFixedGraph x y).map Call.edge)) := by
  unfold rulesCalls
  rw [List.map_append, List.map_append, g.forceAll_append]
  refine Converges.bind (f := fun _ => g.rule1 x y) (Converges.of_eq fun _ => ?_) fun g₁ h₁ => ?_
  · exact (bind_pure (g.rule1 x y)).symm
  · rw [g₁.forceAll_append, ← UnknownGraph.currentFixedGraph_forceAll _ h₁]
    refine (rule2_converges hc g₁).bind fun g₂ h₂ => ?_
    rw [← UnknownGraph.currentFixedGraph_forceAll _ h₂]
    exact rule3_converges hc g₂

/-- **What the rules fix is forced** on every graph with the edges that they have tested. -/
theorem rulesCalls_forced {G : Graph n} {c : Call} (hmem : c ∈ rulesCalls G x y)
    (htested : ∀ e ∈ c.tested, F.Adj e.1 e.2) :
    Forced F (·.HamCycleThrough x y) c.edge.1 c.edge.2 := by
  have ⟨h1, h2, h3⟩ := hc
  rcases List.mem_append.mp hmem with hmem | hmem
  · obtain rfl := List.mem_singleton.mp hmem
    simp only [mod_after_x hc, show Utils.mod ((y : Int) + 1) n = _ from mod_after_y hc 1]
    exact rule1_forced hF hc hxy
  rcases List.mem_append.mp hmem with hmem | hmem
  · obtain ⟨j, hj, hall, -, rfl⟩ := mem_loopCalls hmem
    have hlt : j < n - (y - x) - 1 := by
      by_contra hge
      exact Bool.false_ne_true ((rule2_stops hc).symm.trans
        (hall (n - (y - x) - 1) (by omega) (by omega)))
    have hg := htested _ List.mem_cons_self
    simp only [mod_after_y hc, mod_after_y_succ hc, mod_after_x hc,
      show Utils.mod ((y : Int) - 1) n = _ from mod_before_y hc (c := 1) (by omega)] at hg ⊢
    exact rule2_forced hF hc hxy (by omega) hg
  · obtain ⟨j, hj, hall, -, rfl⟩ := mem_loopCalls hmem
    have hlt : j < y - x - 1 := by
      by_contra hge
      exact Bool.false_ne_true ((rule3_stops hc).symm.trans
        (hall (y - x - 1) (by omega) (by omega)))
    have hg := htested _ List.mem_cons_self
    simp only [mod_before_y hc (show j ≤ y - x by omega),
      mod_before_y_succ hc (show j + 1 ≤ y - x by omega), mod_before_x hc,
      show Utils.mod ((y : Int) + 1) n = _ from mod_after_y hc 1] at hg ⊢
    exact rule3_forced hF hc hxy (by omega) hg

omit hF hc hxy in
/-- The edges tested are edges. -/
theorem tested_of_rulesCalls {G : Graph n} {c : Call} (hmem : c ∈ rulesCalls G x y) :
    ∀ e ∈ c.tested, G.Adj e.1 e.2 := by
  rcases List.mem_append.mp hmem with hmem | hmem
  · obtain rfl := List.mem_singleton.mp hmem
    exact List.forall_mem_nil _
  rcases List.mem_append.mp hmem with hmem | hmem
  · obtain ⟨j, -, -, hadj, rfl⟩ := mem_loopCalls hmem
    exact List.forall_mem_singleton.mpr hadj
  · obtain ⟨j, -, -, hadj, rfl⟩ := mem_loopCalls hmem
    exact List.forall_mem_singleton.mpr hadj

/-- On a graph with the chord, all that the rules fix is forced. -/
theorem rules_spec : Forces F (·.HamCycleThrough x y) (fun g fuel => g.rules x y fuel)
    ((rulesCalls F x y).map Call.edge) := by
  refine ⟨List.forall_mem_map.mpr fun c hmem =>
    rulesCalls_forced hF hc hxy hmem (tested_of_rulesCalls hmem), fun g hg => ?_⟩
  subst hg
  exact rules_converges hc g

end Chord

end Uhg

end SymBreak
