import SymBreak.Mtl.Heap
import SymBreak.Glucose.Backtrack
import Mathlib.Data.Finset.Lattice.Fold

/-!
# The heap of the variables

In `Solver`, the heap of the variables is the list of its elements (`Order.orderHeap`), and
`removeMin` takes the one that is greatest by the activities of a `Choice`. The heap of `mtl/Heap.h`
takes one of the greatest activity too, but which one depends on its shape.

* `pickLoop_heap`: some choice takes the same variables out of the list, one after the other;
* **`pickBranchLit_heap`**: `pickBranchLit` over the heap is `pickBranchLit` under some choice.
-/

namespace SymBreak.Glucose

open Cnf

variable {α : Type*} [LinearOrder α]

/-! ## `pickBranchLit` over the heap -/

/-- The loop of `pickBranchLit` (`Solver.cc:479-485`), of at most `n` turns. -/
def pickHeap (pickable : Option Var → Bool) (activity : Var → α) :
    Nat → Mtl.Heap → Option Var → Option Var × Mtl.Heap
  | 0, h, next => if pickable next then (next, h) else (none, h)
  | n + 1, h, next =>
    if pickable next then (next, h)
    else if h.size = 0 then (none, h)
    else pickHeap pickable activity n (h.removeMin (Mtl.Heap.VarOrderLt activity)).2
      (some (h.removeMin (Mtl.Heap.VarOrderLt activity)).1)

/-- `pickBranchLit` (`Solver.cc:468-487`) -/
def Solver.pickBranchHeap (s : Solver) (activity : Var → α) (random : Option Nat) (h : Mtl.Heap) :
    Option Lit × Mtl.Heap :=
  let next := if h.size = 0 then none else random.map fun r => h.heap (r % h.size)
  let picked := pickHeap s.pickable activity h.size h next
  (picked.1.map fun x => ⟨x, s.polarity x⟩, picked.2)

/-! ## The choice -/

theorem removeMin_max (activity : Var → Nat) (heap : List Var) (x : Var) :
    ∀ y ∈ x :: heap, activity y ≤ activity (Solver.removeMin activity heap x).1 := by
  have key : ∀ (heap : List Var) (x : Var), ∀ y ∈ x :: heap, activity y ≤
      activity (heap.foldl (fun b w => if activity b < activity w then w else b) x) := by
    intro heap
    induction heap with
    | nil =>
      intro x y hy
      rw [List.mem_singleton.mp hy]
      exact Nat.le_refl _
    | cons w heap ih =>
      intro x y hy
      rw [List.foldl_cons]
      split
      · rename_i hlt
        rcases List.mem_cons.mp hy with rfl | hy
        · exact hlt.le.trans (ih w w List.mem_cons_self)
        · exact ih w y hy
      · rename_i hge
        rcases List.mem_cons.mp hy with rfl | hy
        · exact ih y y List.mem_cons_self
        · rcases List.mem_cons.mp hy with rfl | hy
          · exact (Nat.le_of_not_lt hge).trans (ih x x List.mem_cons_self)
          · exact ih x y (List.mem_cons_of_mem _ hy)
  exact key heap x

/-- The only variable of the greatest activity is taken. -/
theorem removeMin_eq {activity : Var → Nat} {heap : List Var} {x v : Var} (hv : v ∈ x :: heap)
    (hmax : ∀ w ∈ x :: heap, w ≠ v → activity w < activity v) :
    Solver.removeMin activity heap x = (v, (x :: heap).erase v) := by
  obtain ⟨hmem, herase⟩ := removeMin_spec activity heap x
  have hfirst : (Solver.removeMin activity heap x).1 = v := by
    by_contra hne
    exact absurd (hmax _ hmem hne) (Nat.not_lt.mpr (removeMin_max activity heap x v hv))
  exact Prod.ext hfirst (hfirst ▸ herase)

/-- `l` holds the variables of `S`, each once. -/
def Lists (l : List Var) (S : Finset Var) : Prop := l.Nodup ∧ ∀ x, x ∈ l ↔ x ∈ S

theorem Lists.erase {l : List Var} {S : Finset Var} (h : Lists l S) (v : Var) :
    Lists (l.erase v) (S.erase v) :=
  ⟨h.1.erase v, fun x => by rw [h.1.mem_erase_iff, h.2, Finset.mem_erase]⟩

variable {activity : Var → α} {S : Finset Var} {h : Mtl.Heap}

/-- **The loop takes the same variables** out of the list, under some choice `c`. It depends on the
variables of the heap only. -/
theorem pickLoop_heap : ∀ (n : Nat) {S : Finset Var} {h : Mtl.Heap} (s : Solver)
    (next : Option Var), Mtl.Heap.Run activity S h → Lists s.orderHeap S →
    ∃ c : Var → Nat, ∀ c' : Var → Nat, (∀ x ∈ S, c' x = c x) →
      (Solver.pickLoop c' n s next).1 = (pickHeap s.pickable activity n h next).1 ∧
      ∃ S', Mtl.Heap.Run activity S' (pickHeap s.pickable activity n h next).2 ∧
        Lists (Solver.pickLoop c' n s next).2.orderHeap S' := by
  intro n
  induction n with
  | zero =>
    intro S h s next hrun hl
    refine ⟨fun _ => 0, fun c' _ => ?_⟩
    unfold Solver.pickLoop pickHeap
    split
    · exact ⟨rfl, S, hrun, hl⟩
    · exact ⟨rfl, S, hrun, hl⟩
  | succ n ih =>
    intro S h s next hrun hl
    unfold Solver.pickLoop pickHeap
    by_cases hpick : s.pickable next = true
    · refine ⟨fun _ => 0, fun _ _ => ?_⟩
      rw [if_pos hpick, if_pos hpick]
      exact ⟨rfl, S, hrun, hl⟩
    · simp only [if_neg hpick]
      cases hheap : s.orderHeap with
      | nil =>
        have hS : S = ∅ := by
          refine Finset.eq_empty_of_forall_notMem fun x hx => ?_
          have := (hl.2 x).mpr hx
          rw [hheap] at this
          exact absurd this List.not_mem_nil
        rw [if_pos (by rw [hrun.size_eq, hS, Finset.card_empty])]
        exact ⟨fun _ => 0, fun _ _ => ⟨rfl, S, hrun, hl⟩⟩
      | cons x heap =>
        have hS : S.Nonempty := ⟨x, (hl.2 x).mp (hheap ▸ List.mem_cons_self)⟩
        rw [if_neg (by rw [hrun.size_eq]; exact hS.card_pos.ne')]
        have hv := hrun.removeMin_mem hS
        generalize hmin : (h.removeMin (Mtl.Heap.VarOrderLt activity)).1 = v at hv ⊢
        have hrun' : Mtl.Heap.Run activity (S.erase v)
            (h.removeMin (Mtl.Heap.VarOrderLt activity)).2 := hmin ▸ hrun.removeMin hS
        rw [hheap] at hl
        obtain ⟨c, hc⟩ := ih { s with orderHeap := (x :: heap).erase v } (some v) hrun' (hl.erase v)
        -- the variable that the heap takes comes before those that it takes later
        refine ⟨Function.update c v (S.sup c + 1), fun c' hc' => ?_⟩
        have hmem : v ∈ x :: heap := (hl.2 v).mpr hv
        have hlt : ∀ w ∈ x :: heap, w ≠ v → c' w < c' v := by
          intro w hw hne
          have hwS := (hl.2 w).mp hw
          rw [hc' w hwS, hc' v hv, Function.update_of_ne hne, Function.update_self]
          exact Nat.lt_succ_of_le (Finset.le_sup hwS)
        simp only [removeMin_eq hmem hlt]
        exact hc c' fun y hy => by
          obtain ⟨hne, hyS⟩ := Finset.mem_erase.mp hy
          rw [hc' y hyS, Function.update_of_ne hne]

/-- Some random number draws the variable that the loop starts from. -/
theorem exists_random (s : Solver) {start : Option Var} (hstart : ∀ x ∈ start, x ∈ s.orderHeap)
    (choice : Choice) : ∃ r : Option Nat, ∀ c : Var → Nat,
      s.pickBranchLit { choice with activity := c, random := r } =
        ((Solver.pickLoop c s.orderHeap.length s start).1.map fun x =>
          ⟨x, (Solver.pickLoop c s.orderHeap.length s start).2.polarity x⟩,
        (Solver.pickLoop c s.orderHeap.length s start).2) := by
  cases start with
  | none => exact ⟨none, fun _ => rfl⟩
  | some x =>
    obtain ⟨i, hi⟩ := List.mem_iff_getElem?.mp (hstart x rfl)
    have hmod : s.orderHeap[i % s.orderHeap.length]? = some x := by
      rw [Nat.mod_eq_of_lt (List.getElem?_eq_some_iff.mp hi).1, hi]
    refine ⟨some i, fun c => ?_⟩
    rw [← hmod]
    rfl

/-- **`pickBranchLit` over the heap** returns the literal that `pickBranchLit` returns under some
choice, whatever variable is drawn at random, and leaves the same variables. -/
theorem pickBranchLit_heap {s : Solver} (hrun : Mtl.Heap.Run activity S h)
    (hl : Lists s.orderHeap S) (choice : Choice) (random : Option Nat) :
    ∃ (c : Var → Nat) (r : Option Nat),
      (s.pickBranchLit { choice with activity := c, random := r }).1 =
        (s.pickBranchHeap activity random h).1 ∧
      ∃ S', Mtl.Heap.Run activity S' (s.pickBranchHeap activity random h).2 ∧
        Lists (s.pickBranchLit { choice with activity := c, random := r }).2.orderHeap S' := by
  have hsize : h.size = s.orderHeap.length := by
    rw [hrun.size_eq, ← List.toFinset_card_of_nodup hl.1]
    exact congrArg Finset.card (Finset.ext fun x => by rw [List.mem_toFinset, hl.2])
  unfold Solver.pickBranchHeap
  simp only []
  generalize hstart : (if h.size = 0 then none else
    random.map fun r => h.heap (r % h.size)) = start
  -- what is at a position of the heap is at another one of the list
  have hmem : ∀ x ∈ start, x ∈ s.orderHeap := by
    rintro x rfl
    split at hstart
    · exact absurd hstart (by simp)
    · rename_i hpos
      obtain ⟨n, _, rfl⟩ := Option.map_eq_some_iff.mp hstart
      exact (hl.2 _).mpr (hrun.mem_iff.mpr ⟨_, Nat.mod_lt n (Nat.pos_of_ne_zero hpos), rfl⟩)
  obtain ⟨r, hr⟩ := exists_random s hmem choice
  obtain ⟨c, hc⟩ := pickLoop_heap h.size s start hrun hl
  obtain ⟨hnext, hrest⟩ := hc c fun _ _ => rfl
  obtain ⟨next, s', hloop, heq, _⟩ := pickLoop_spec c h.size s start hsize.ge
  rw [hloop] at hnext hrest
  have hpick := hr c
  rw [← hsize, hloop] at hpick
  refine ⟨c, r, ?_, ?_⟩
  · rw [hpick, heq]
    exact congrArg (Option.map _) hnext
  · rw [hpick]
    exact hrest

/-- Two variables were made. -/
def pairVars : Solver := (((Solver.new Options.default).newVar true true).2.newVar true true).2

theorem lists_pairVars : Lists pairVars.orderHeap {1, 0} := by
  rw [show pairVars.orderHeap = [0, 1] by decide]
  exact ⟨by decide, fun x => by simp [or_comm]⟩

theorem pickBranchLit_heap_pair :
    ∃ (c : Var → Nat) (r : Option Nat),
      (pairVars.pickBranchLit ⟨false, false, c, fun _ => 0, r⟩).1 =
        (pairVars.pickBranchHeap id none Mtl.Heap.pair).1 ∧
      ∃ S', Mtl.Heap.Run id S' (pairVars.pickBranchHeap id none Mtl.Heap.pair).2 ∧
        Lists (pairVars.pickBranchLit ⟨false, false, c, fun _ => 0, r⟩).2.orderHeap S' :=
  pickBranchLit_heap (S := {1, 0}) (((Mtl.Heap.Run.empty id).insert (by decide)).insert (by decide))
    lists_pairVars ⟨false, false, fun _ => 0, fun _ => 0, none⟩ none

end SymBreak.Glucose
