import SymBreak.Lib.PathSearch
import SymBreak.Uhg.UnknownGraph

/-!
# The path searches of the propagators

The search loops of the four propagators `PropOptimized`, `PropNoHamCycleStartsWithEdge`,
`PropNoHamCycleWithEdge` and `PropOptimizedDC`, and of `Utils.pathsFromEdge`, as instances of the
backtracking loop of `Lib.Backtrack`: what a loop does at a full path (`leaf`) is a parameter.
Counters for debugging are left out.
-/

namespace SymBreak.Uhg

open Backtrack

variable {σ : Type}

/-! ## Arrays -/

/-- Exchange two entries. -/
def swap (arr : List Nat) (i j : Nat) : List Nat := (arr.set i (arr.getD j 0)).set j (arr.getD i 0)

/-- The arrays at the beginning of a search whose path is `(e0, e1)`. -/
def startEdge {X : Type} (e0 e1 : Nat) (aux : X) : State Nat X where
  i := 1
  currentPath := Function.update (Function.update (fun _ => 0) 0 e0) 1 e1
  visited := Function.update (Function.update (fun _ => false) e0 true) e1 true
  inds _ := 0
  aux := aux

/-- Run the loop and keep what its leaves did. -/
def runLoop {X : Type} (L : Loop Nat X σ Exn) (st : State Nat X) (s : σ) (fuel : Nat) :
    Except (Halt Exn) σ := do
  let (_, s) ← L.run fuel st s
  .ok s

/-- At a full path, `fixEdgeValue(currentPath[0], currentPath[i], false, this)`. -/
def forceNotCycle {n : Nat} (g : UnknownGraph n) (currentPath : List Nat) :
    Except (Halt Exn) (UnknownGraph n) :=
  g.fixEdgeValue (currentPath.getD 0 0) (currentPath.getD (n - 1) 0) false

/-! ## `Utils.pathsFromEdge` -/

namespace Utils

/-- The loop of `pathsFromEdge` (`Utils.java:271-295`). -/
def pathsLoop {n : Nat} (graph : Graph n) (k : Nat) (leaf : σ → List Nat → Except (Halt Exn) σ) :
    Loop Nat Unit σ Exn where
  stop := 0
  last := k - 1
  leaf
  scan st v := innerLoop (pick fun u => graph.adj v u && !st.visited u)
    ((List.range n).drop (st.inds v)) (st.inds v)
  push _ _ := ()
  pop _ _ := ()

/-- `pathsFromEdge` (`Utils.java:258-297`) -/
def pathsFromEdge {n : Nat} (graph : Graph n) (k : Nat) (e0 e1 : Nat) (fuel : Nat) :
    Except (Halt Exn) (List (List Nat)) :=
  runLoop (pathsLoop graph k record) (startEdge e0 e1 ()) [] fuel

end Utils

/-! ## `PropNoHamCycleStartsWithEdge` -/

/-- `sortByDegrees` (`PropNoHamCycleStartsWithEdge.java:133-145`), and of the two propagators below:
the last of the entries of largest degree goes first. -/
def sortByDegrees (degree : Nat → Nat) (arr : List Nat) : List Nat :=
  (List.range arr.length).foldl (fun arr i =>
    let index := (List.range' (i + 1) (arr.length - (i + 1))).foldl (fun index j =>
      if degree (arr.getD index 0) < degree (arr.getD j 0) then j else index) i
    swap arr i index) arr

/-- The adjacency lists, sorted. -/
def adjList (nb : Nat → List Nat) (i : Nat) : List Nat :=
  sortByDegrees (fun v => (nb v).length) (nb i)

/-- `unreachable` (`PropNoHamCycleStartsWithEdge.java:187-194`) -/
def unreachable (nb : Nat → List Nat) (visited : Nat → Bool) (v : Nat) : Bool :=
  (nb v).all fun u => visited u

/-- `makesNeighborUnreachable` (`PropNoHamCycleStartsWithEdge.java:173-184`) -/
def makesNeighborUnreachable (nb : Nat → List Nat) (visited : Nat → Bool) (v : Nat) : Bool :=
  let visited := Function.update visited v true
  (nb v).any fun u => !visited u && unreachable nb visited u

/-- The test of a neighbour `u` at depth `i`. -/
def passes (nb : Nat → List Nat) (n : Nat) (visited : Nat → Bool) (i : Int) (u : Nat) : Bool :=
  !visited u && (decide (i ≥ n - 3) || !makesNeighborUnreachable nb visited u)

namespace PropNoHamCycleStartsWithEdge

/-- The search loop (`PropNoHamCycleStartsWithEdge.java:101-130`). -/
def loop (nb : Nat → List Nat) (n : Nat) (leaf : σ → List Nat → Except (Halt Exn) σ) :
    Loop Nat Unit σ Exn where
  stop := 0
  last := n - 1
  leaf
  scan st v := innerLoop (pick (passes nb n st.visited st.i)) ((adjList nb v).drop (st.inds v))
    (st.inds v)
  push _ _ := ()
  pop _ _ := ()

/-- The search (`PropNoHamCycleStartsWithEdge.java:79-130`). -/
def search (nb : Nat → List Nat) (n e0 e1 : Nat) (leaf : σ → List Nat → Except (Halt Exn) σ) (s : σ)
    (fuel : Nat) : Except (Halt Exn) σ :=
  runLoop (loop nb n leaf) (startEdge e0 e1 ()) s fuel

end PropNoHamCycleStartsWithEdge

/-! ## `PropOptimized` -/

namespace PropOptimized

/-- One pass of the bubble sort: whether it swapped two entries. -/
def bubblePass (degrees : Nat → Int) (arr : List Nat) (i : Nat) : List Nat × Bool :=
  (List.range (arr.length - i - 1)).foldl (fun (arr, swapped) j =>
    if degrees (arr.getD j 0) < degrees (arr.getD (j + 1) 0) then (swap arr j (j + 1), true)
    else (arr, swapped)) (arr, false)

/-- The passes `i` of a list, up to the first that swaps nothing. -/
def bubblePasses (degrees : Nat → Int) : List Nat → List Nat → List Nat
  | [], arr => arr
  | i :: is, arr =>
    let (arr, swapped) := bubblePass degrees arr i
    if swapped then bubblePasses degrees is arr else arr

/-- `sortByDegrees` (`PropOptimized.java:208-224`) -/
def sortByDegrees (degrees : Nat → Int) (arr : List Nat) : List Nat :=
  bubblePasses degrees (List.range arr.length) arr

/-- `for (int x : ns) { if (!visited[x]) degrees[x] += c; }` -/
def adjust (visited : Nat → Bool) (c : Int) (ns : List Nat) (degrees : Nat → Int) : Nat → Int :=
  ns.foldl (fun degrees x =>
    if visited x then degrees else Function.update degrees x (degrees x + c)) degrees

/-- The degrees at the beginning (`PropOptimized.java:104-109`). -/
def initDegrees (nb : Nat → List Nat) (e0 e1 : Nat) : Nat → Int :=
  let visited := (startEdge e0 e1 ()).visited
  adjust visited (-1) (nb e1) (adjust visited (-1) (nb e0) fun i => (nb i).length)

/-- The adjacency lists, sorted by the degrees at the beginning. -/
def adjList (nb : Nat → List Nat) (e0 e1 : Nat) (i : Nat) : List Nat :=
  sortByDegrees (initDegrees nb e0 e1) (nb i)

/-- `makesNeighborUnreachable` (`PropOptimized.java:253-260`) -/
def makesNeighborUnreachable (nb : Nat → List Nat) (visited : Nat → Bool) (degrees : Nat → Int)
    (v : Nat) : Bool :=
  (nb v).any fun u => !visited u && decide (degrees u < 2)

/-- The test of a neighbour `u` at depth `i`. -/
def passes (nb : Nat → List Nat) (n : Nat) (visited : Nat → Bool) (degrees : Nat → Int) (i : Int)
    (u : Nat) : Bool :=
  !visited u && (decide (i ≥ n - 3) || !makesNeighborUnreachable nb visited degrees u)

/-- The loop over the neighbours of the end of the path (`PropOptimized.java:158-179`): whether it
broke off, after an unvisited one without free neighbours or a third one with only one, and `count`,
`w1` and `w2` (`-1` is `none`). -/
def scanNeighbors (visited : Nat → Bool) (degrees : Nat → Int) :
    List Nat → Nat → Option Nat → Option Nat → Bool × Nat × Option Nat × Option Nat
  | [], count, w1, w2 => (false, count, w1, w2)
  | x :: ns, count, w1, w2 =>
    if !visited x && degrees x == 0 then (true, count, w1, w2)
    else if !visited x && degrees x == 1 then
      if count + 1 ≥ 3 then (true, count + 1, w1, w2)
      else if w1 = none then scanNeighbors visited degrees ns (count + 1) (some x) w2
      else if w2 = none then scanNeighbors visited degrees ns (count + 1) w1 (some x)
      else scanNeighbors visited degrees ns (count + 1) w1 w2
    else scanNeighbors visited degrees ns count w1 w2

/-- The neighbours to choose from and the index of the next one (`PropOptimized.java:136, 157-183`).
-/
def candidates (n : Nat) (visited : Nat → Bool) (degrees : Nat → Int) (i : Int) (ns : List Nat)
    (ind : Nat) : List Nat × Nat :=
  if i < n - 2 then
    let (broke, count, w1, w2) := scanNeighbors visited degrees ns 0 none none
    (if count = 2 then w1.toList ++ w2.toList else ns, if broke then ns.length else ind)
  else (ns, ind)

/-- The search loop (`PropOptimized.java:121-205`). The degrees follow the pushes and the pops, but
not the vertex dropped at the end of a full path. -/
def loop (nb : Nat → List Nat) (n e0 e1 : Nat) (leaf : σ → List Nat → Except (Halt Exn) σ) :
    Loop Nat (Nat → Int) σ Exn where
  stop := 0
  last := n - 1
  leaf
  scan st v :=
    let (ns, ind) := candidates n st.visited st.aux st.i (adjList nb e0 e1 v) (st.inds v)
    innerLoop (pick (passes nb n st.visited st.aux st.i)) (ns.drop ind) ind
  push st u := adjust st.visited (-1) (adjList nb e0 e1 u) st.aux
  pop st v := adjust st.visited 1 (adjList nb e0 e1 v) st.aux
  wipe := some 0

/-- The search (`PropOptimized.java:90-205`). -/
def search (nb : Nat → List Nat) (n e0 e1 : Nat) (leaf : σ → List Nat → Except (Halt Exn) σ) (s : σ)
    (fuel : Nat) : Except (Halt Exn) σ :=
  runLoop (loop nb n e0 e1 leaf) (startEdge e0 e1 (initDegrees nb e0 e1)) s fuel

end PropOptimized

/-! ## `PropNoHamCycleWithEdge` and `PropOptimizedDC` -/

/-- What the two propagators do at a neighbour `u` of `v` (`PropNoHamCycleWithEdge.java:112-140`,
`PropOptimizedDC.java:111-131`): from `e0` straight to `e1`, and never through `e1` first. -/
def chooseEdge (nb : Nat → List Nat) (n e0 e1 : Nat) (visited : Nat → Bool) (i : Int)
    (v k u : Nat) : Choice Nat :=
  if v = e0 ∧ visited e1 = false then .take e1 (n + 1)
  else if v = e1 ∧ visited e0 = false then .stop n
  else pick (passes nb n visited i) k u

/-- The search loop of both (`PropNoHamCycleWithEdge.java:98-147`, `PropOptimizedDC.java:97-138`).
-/
def withEdgeLoop (nb : Nat → List Nat) (n e0 e1 : Nat)
    (leaf : σ → List Nat → Except (Halt Exn) σ) : Loop Nat Unit σ Exn where
  stop := -1
  last := n - 1
  leaf
  scan st v := innerLoop (chooseEdge nb n e0 e1 st.visited st.i v)
    ((adjList nb v).drop (st.inds v)) (st.inds v)
  push _ _ := ()
  pop _ _ := ()

/-- Empty arrays. -/
def emptyState : State Nat Unit where
  i := 0
  currentPath _ := 0
  visited _ := false
  inds _ := 0
  aux := ()

/-- The path is the vertex `j`. -/
def startAt (st : State Nat Unit) (j : Nat) : State Nat Unit :=
  { st with
    currentPath := Function.update st.currentPath 0 j
    visited := Function.update st.visited j true }

namespace PropNoHamCycleWithEdge

/-- One turn of the loop over the start vertices. -/
def startTurn (nb : Nat → List Nat) (n e0 e1 : Nat) (leaf : σ → List Nat → Except (Halt Exn) σ)
    (fuel : Nat) (r : State Nat Unit × σ) (j : Nat) : Except (Halt Exn) (State Nat Unit × σ) := do
  let (st, s) ← (withEdgeLoop nb n e0 e1 leaf).run fuel (startAt r.1 j) r.2
  .ok ({ st with visited := Function.update st.visited (st.currentPath 0) false }, s)

/-- The search (`PropNoHamCycleWithEdge.java:89-149`): the depth is `0` only before the first
vertex. -/
def search (nb : Nat → List Nat) (n e0 e1 : Nat) (leaf : σ → List Nat → Except (Halt Exn) σ) (s : σ)
    (fuel : Nat) : Except (Halt Exn) σ := do
  let (_, s) ← (List.range n).foldlM (startTurn nb n e0 e1 leaf fuel) (emptyState, s)
  .ok s

end PropNoHamCycleWithEdge

namespace PropOptimizedDC

/-- The search (`PropOptimizedDC.java:89-138`). -/
def search (nb : Nat → List Nat) (n e0 e1 : Nat) (leaf : σ → List Nat → Except (Halt Exn) σ) (s : σ)
    (fuel : Nat) : Except (Halt Exn) σ :=
  runLoop (withEdgeLoop nb n e0 e1 leaf) (startAt emptyState 1) s fuel

end PropOptimizedDC

end SymBreak.Uhg
