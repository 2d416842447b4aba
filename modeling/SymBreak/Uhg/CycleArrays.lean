import SymBreak.Uhg.PropNoCycle

/-!
# Cycles as arrays

Model of `isCycle`, which `PropAtLeastOneCycle` and `PropAtMostOneCycle` share
(`PropAtLeastOneCycle.java:86-96`, `PropAtMostOneCycle.java:106-116`).

Results:
* `Graph.IsCycle.of_sameCycle`: being a cycle of a graph depends on the edges only;
* `Graph.isCycle_iff_getD`: a list of different vertices is a cycle iff every entry is adjacent to
  the next one around;
* `isCycle_iff`: `isCycle` says whether the remembered cycle is one of the current fixed graph.
-/

namespace SymBreak

open Hamilton

namespace Graph

variable {n : Nat} {G : Graph n}

/-- A cycle whose edges are those of a cycle of the graph. -/
theorem IsCycle.of_sameCycle {c d : List Nat} (h : G.IsCycle c) (hsame : SameCycle c d)
    (hd : d.Nodup) (hlen : 2 ≤ d.length) : G.IsCycle d := by
  match d, hlen with
  | a :: b :: l, _ =>
    refine ⟨hd, ?_⟩
    rw [Cycle.chain_coe_cons]
    exact chain_of_cycleEdge (List.cons_ne_nil b l)
      (fun x y hxy => h.isHamCycle.rel (fun _ _ => Graph.Adj.symm) ((hsame x y).mpr hxy)) _ [] rfl
      (List.cons_ne_nil a _)

/-- **A cycle, entry by entry.** -/
theorem isCycle_iff_getD {c : List Nat} (hnd : c.Nodup) (hc : 1 ≤ c.length) : G.IsCycle c ↔
    ∀ i < c.length, G.Adj (c.getD i 0) (c.getD ((i + 1) % c.length) 0) := by
  rw [isCycle_iff_ends hnd hc, List.isChain_iff_getElem]
  constructor
  · rintro ⟨hstep, hclose⟩ i hi
    rcases Nat.lt_or_ge (i + 1) c.length with hlt | hge
    · rw [Nat.mod_eq_of_lt hlt, List.getD_eq_getElem _ _ hi, List.getD_eq_getElem _ _ hlt]
      exact hstep i hlt
    · obtain rfl : i = c.length - 1 := by omega
      rwa [show c.length - 1 + 1 = c.length by omega, Nat.mod_self]
  · intro h
    refine ⟨fun i hi => ?_, ?_⟩
    · have hstep := h i (by omega)
      rwa [Nat.mod_eq_of_lt hi, List.getD_eq_getElem _ _ hi,
        List.getD_eq_getElem _ _ (show i < c.length by omega)] at hstep
    · have hclose := h (c.length - 1) (by omega)
      rwa [show c.length - 1 + 1 = c.length by omega, Nat.mod_self] at hclose

end Graph

namespace Uhg

open Graph

variable {n : Nat} {k : Nat}

/-- `isCycle` (`PropAtLeastOneCycle.java:86-96`, `PropAtMostOneCycle.java:106-116`) -/
def isCycle (g : UnknownGraph n) (k : Nat) : Option (List Nat) → Bool
  | none => false
  | some cycle => (List.range k).all fun i =>
    g.hasEdge (cycle.getD i 0) (cycle.getD ((i + 1) % k) 0)

/-- **`isCycle` is whether the remembered cycle is one.** -/
theorem isCycle_iff {g : UnknownGraph n} {c : List Nat} (hnd : c.Nodup) (hlen : c.length = k)
    (hk : 1 ≤ k) : isCycle g k (some c) = true ↔ g.currentFixedGraph.IsCycle c := by
  subst hlen
  rw [isCycle_iff_getD hnd hk, isCycle, List.all_eq_true]
  simp only [List.mem_range]
  exact Iff.rfl

end Uhg

end SymBreak
