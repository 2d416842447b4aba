import SymBreak.Mtl.Sort
import Mathlib.Data.Finset.Card

/-!
# Heaps

Model of `mtl/Heap.h`: a binary heap of integers, with the position of each. A percolation moves a
hole through the heap and puts the element `x` into it at the end.

`Holed` says that the positions are right but for the hole, `UpOrder` and `DownOrder` that the order
is right but for the pairs above or below it. Each step of a percolation keeps them, and where it
stops the heap is in order again.

* **`percolateUp_spec`**, **`percolateDown_spec`**: the percolations;
* `insert_spec`, `removeMin_spec`, `build_spec`, `decrease_spec`: the operations. `build` fails at
  an element that `indices` has no entry for;
* **`removeMin_greatest`**: in every run of the operations on the heap of the variables, which raise
  activities in between, `removeMin` takes out a variable of the greatest activity.
-/

namespace SymBreak.Mtl

/-! ## The heap -/

/-- The elements of `heap` are those before `size`, the entries of `indices` those before
`indicesSize`; no element has the index `-1`. -/
structure Heap where
  heap : Nat → Nat
  size : Nat
  indices : Nat → Option Nat
  indicesSize : Nat

namespace Heap

def left (i : Nat) : Nat := i * 2 + 1

def right (i : Nat) : Nat := (i + 1) * 2

def parent (i : Nat) : Nat := (i - 1) / 2

def empty : Heap := ⟨fun _ => 0, 0, fun _ => none, 0⟩

/-- `inHeap` (`Heap.h:80`) -/
def inHeap (h : Heap) (n : Nat) : Bool := n < h.indicesSize && (h.indices n).isSome

/-- `heap[i] = x; indices[x] = i;` -/
def place (h : Heap) (i x : Nat) : Heap :=
  { h with heap := Function.update h.heap i x, indices := Function.update h.indices x (some i) }

theorem parent_lt {i : Nat} (hi : i ≠ 0) : parent i < i := by
  unfold parent
  omega

theorem parent_eq_iff {i j : Nat} (hj : 0 < j) : parent j = i ↔ j = left i ∨ j = right i := by
  unfold parent left right
  omega

section Operations

variable (lt : Nat → Nat → Prop) [DecidableRel lt]

/-- The loop of `percolateUp`, with the hole at `i`. -/
def upLoop (x i : Nat) (h : Heap) : Heap :=
  if i ≠ 0 ∧ lt x (h.heap (parent i)) then
    upLoop x (parent i) (h.place i (h.heap (parent i)))
  else h.place i x
termination_by i
decreasing_by
  rename_i hi
  exact parent_lt hi.1

/-- `percolateUp` (`Heap.h:44-57`) -/
def percolateUp (h : Heap) (i : Nat) : Heap := upLoop lt (h.heap i) i h

/-- The child that the loop of `percolateDown` compares. -/
def child (h : Heap) (i : Nat) : Nat :=
  if right i < h.size ∧ lt (h.heap (right i)) (h.heap (left i)) then right i else left i

theorem lt_child (h : Heap) (i : Nat) : i < h.child lt i := by
  unfold child left right
  split
  · omega
  · omega

theorem child_lt {h : Heap} {i : Nat} (hi : left i < h.size) : h.child lt i < h.size := by
  unfold child
  split
  · rename_i hr
    exact hr.1
  · exact hi

/-- The loop of `percolateDown`, with the hole at `i`. -/
def downLoop (x i : Nat) (h : Heap) : Heap :=
  if left i < h.size then
    if ¬ lt (h.heap (h.child lt i)) x then h.place i x
    else downLoop x (h.child lt i) (h.place i (h.heap (h.child lt i)))
  else h.place i x
termination_by h.size - i
decreasing_by
  rename_i hi _
  have := h.lt_child lt i
  have := child_lt lt hi
  show h.size - h.child lt i < h.size - i
  omega

/-- `percolateDown` (`Heap.h:60-72`) -/
def percolateDown (h : Heap) (i : Nat) : Heap := downLoop lt (h.heap i) i h

/-- `decrease` (`Heap.h:84`), of an element that is in the heap. -/
def decrease (h : Heap) (n : Nat) : Heap :=
  match h.indices n with
  | some i => h.percolateUp lt i
  | none => h

/-- `insert` (`Heap.h:99-107`), for which `indices` grows. -/
def insert (h : Heap) (n : Nat) : Heap :=
  percolateUp lt { h.place h.size n with
    size := h.size + 1, indicesSize := max h.indicesSize (n + 1) } h.size

/-- The state of `removeMin` before the percolation. -/
def pop (h : Heap) : Heap where
  heap := Function.update h.heap 0 (h.heap (h.size - 1))
  size := h.size - 1
  indices := Function.update (Function.update h.indices (h.heap (h.size - 1)) (some 0)) (h.heap 0)
    none
  indicesSize := h.indicesSize

/-- `removeMin` (`Heap.h:110-119`) -/
def removeMin (h : Heap) : Nat × Heap :=
  (h.heap 0, if h.pop.size > 1 then h.pop.percolateDown lt 0 else h.pop)

/-- The heap of `build` before the percolations: the elements in the order of `ns`. -/
def fill (h : Heap) (ns : List Nat) : Heap where
  heap i := ns.getD i 0
  size := ns.length
  indices n :=
    if n ∈ ns then some (ns.idxOf n)
    else if ∃ i < h.size, h.heap i = n then none else h.indices n
  indicesSize := h.indicesSize

/-- `for (int i = heap.size() / 2 - 1; i >= 0; i--) percolateDown(i);` -/
def heapify : Nat → Heap → Heap
  | 0, h => h
  | i + 1, h => heapify i (h.percolateDown lt i)

/-- `build` (`Heap.h:123-134`), of different elements. It does not make `indices` grow. -/
def build (h : Heap) (ns : List Nat) : Except (Halt Fault) Heap :=
  if ∀ n ∈ ns, n < h.indicesSize then .ok (heapify lt (ns.length / 2) (h.fill ns))
  else .error (.raised .outOfRange)

end Operations

/-! ## Positions -/

/-- Each element is at its index, which has an entry, and no other has one. -/
structure Ok (h : Heap) : Prop where
  indexed : ∀ i, i < h.size → h.indices (h.heap i) = some i
  inside : ∀ n i, h.indices n = some i → i < h.size ∧ h.heap i = n
  bound : ∀ i, i < h.size → h.heap i < h.indicesSize

/-- The positions are right but for the hole `i`, into which `x` goes. -/
structure Holed (h : Heap) (i x : Nat) : Prop where
  lt : i < h.size
  indexed : ∀ j, j < h.size → j ≠ i → h.indices (h.heap j) = some j ∧ h.heap j ≠ x
  inside : ∀ n j, n ≠ x → h.indices n = some j → j < h.size ∧ j ≠ i ∧ h.heap j = n
  bound : ∀ j, j < h.size → j ≠ i → h.heap j < h.indicesSize
  hole : x < h.indicesSize

variable {h : Heap} {i j k n p x : Nat}

@[simp] theorem place_heap_self : (h.place i x).heap i = x := Function.update_self ..

theorem place_heap (hj : j ≠ i) : (h.place i x).heap j = h.heap j := Function.update_of_ne hj ..

@[simp] theorem place_indices_self : (h.place i x).indices x = some i := Function.update_self ..

theorem place_indices (hn : n ≠ x) : (h.place i x).indices n = h.indices n :=
  Function.update_of_ne hn ..

@[simp] theorem place_size : (h.place i x).size = h.size := rfl

@[simp] theorem place_indicesSize : (h.place i x).indicesSize = h.indicesSize := rfl

theorem Ok.holed (h₀ : Ok h) (hi : i < h.size) : Holed h i (h.heap i) where
  lt := hi
  indexed j hj hne := by
    refine ⟨h₀.indexed j hj, fun heq => hne ?_⟩
    have := h₀.indexed j hj
    rw [heq, h₀.indexed i hi] at this
    exact (Option.some.inj this).symm
  inside n j hne hn := by
    obtain ⟨hj, hjn⟩ := h₀.inside n j hn
    exact ⟨hj, fun heq => hne (by rw [← hjn, heq]), hjn⟩
  bound j hj _ := h₀.bound j hj
  hole := h₀.bound i hi

/-- The hole moves to `p`. -/
theorem Holed.move (h₀ : Holed h i x) (hp : p < h.size) (hne : p ≠ i) :
    Holed (h.place i (h.heap p)) p x := by
  obtain ⟨hpi, hpx⟩ := h₀.indexed p hp hne
  refine ⟨hp, fun j hj hjp => ?_, fun n j hn hj => ?_, fun j hj hjp => ?_, h₀.hole⟩
  · by_cases hji : j = i
    · subst hji
      rw [place_heap_self, place_indices_self]
      exact ⟨rfl, hpx⟩
    · obtain ⟨hjj, hjx⟩ := h₀.indexed j hj hji
      have hjne : h.heap j ≠ h.heap p := by
        intro heq
        rw [heq, hpi] at hjj
        exact hjp (Option.some.inj hjj).symm
      rw [place_heap hji, place_indices hjne]
      exact ⟨hjj, hjx⟩
  · by_cases hnp : n = h.heap p
    · subst hnp
      rw [place_indices_self] at hj
      obtain rfl := Option.some.inj hj
      exact ⟨h₀.lt, hne.symm, place_heap_self⟩
    · rw [place_indices hnp] at hj
      obtain ⟨hjlt, hji, hjn⟩ := h₀.inside n j hn hj
      refine ⟨hjlt, fun heq => hnp ?_, by rw [place_heap hji, hjn]⟩
      rw [← hjn, heq]
  · by_cases hji : j = i
    · subst hji
      rw [place_heap_self]
      exact h₀.bound p hp hne
    · rw [place_heap hji]
      exact h₀.bound j hj hji

/-- The hole is filled. -/
theorem Holed.place (h₀ : Holed h i x) : Ok (h.place i x) where
  indexed j hj := by
    by_cases hji : j = i
    · rw [hji, place_heap_self, place_indices_self]
    · obtain ⟨hjj, hjx⟩ := h₀.indexed j hj hji
      rw [place_heap hji, place_indices hjx, hjj]
  inside n j hn := by
    by_cases hnx : n = x
    · subst hnx
      rw [place_indices_self] at hn
      obtain rfl := Option.some.inj hn
      exact ⟨h₀.lt, place_heap_self⟩
    · rw [place_indices hnx] at hn
      obtain ⟨hj, hji, hjn⟩ := h₀.inside n j hnx hn
      exact ⟨hj, by rw [place_heap hji, hjn]⟩
  bound j hj := by
    by_cases hji : j = i
    · rw [hji, place_heap_self]
      exact h₀.hole
    · rw [place_heap hji]
      exact h₀.bound j hj hji

theorem inHeap_place (hx : x < h.indicesSize) :
    (h.place i x).inHeap n = true ↔ n = x ∨ h.inHeap n = true := by
  unfold inHeap
  rw [place_indicesSize]
  by_cases hn : n = x
  · subst hn
    simp [hx]
  · rw [place_indices hn]
    simp [hn]

/-- Moving the hole keeps the elements. -/
theorem Holed.inHeap_move (h₀ : Holed h i x) (hp : p < h.size) (hne : p ≠ i) :
    (h.place i (h.heap p)).inHeap n = true ↔ h.inHeap n = true := by
  have hbound := h₀.bound p hp hne
  rw [inHeap_place hbound]
  refine or_iff_right_of_imp ?_
  rintro rfl
  unfold inHeap
  rw [(h₀.indexed p hp hne).1, decide_eq_true hbound]
  rfl

theorem Ok.lt_indicesSize (h₀ : Ok h) (hi : h.indices n = some i) : n < h.indicesSize := by
  obtain ⟨hlt, rfl⟩ := h₀.inside n i hi
  exact h₀.bound i hlt

theorem Ok.inHeap_iff (h₀ : Ok h) : h.inHeap n = true ↔ ∃ i, i < h.size ∧ h.heap i = n := by
  unfold inHeap
  rw [Bool.and_eq_true, decide_eq_true_iff, Option.isSome_iff_exists]
  refine ⟨fun ⟨_, i, hi⟩ => ⟨i, h₀.inside n i hi⟩, fun ⟨i, hi, hn⟩ => ?_⟩
  rw [← hn]
  exact ⟨h₀.bound i hi, i, h₀.indexed i hi⟩

/-! ## Order -/

section Order

variable {lt : Nat → Nat → Prop}

/-- The pairs whose parents stand at `k` or behind are in order. -/
def OrderedFrom (lt : Nat → Nat → Prop) (k : Nat) (h : Heap) : Prop :=
  ∀ j, 0 < j → j < h.size → k ≤ parent j → ¬ lt (h.heap j) (h.heap (parent j))

/-- With `x` in the hole, all pairs are in order but the one of the hole and its parent. -/
structure UpOrder (lt : Nat → Nat → Prop) (h : Heap) (i x : Nat) : Prop where
  pairs : ∀ j, 0 < j → j < h.size → j ≠ i →
    ¬ lt ((h.place i x).heap j) ((h.place i x).heap (parent j))
  across : ∀ j, 0 < j → j < h.size → parent j = i → i ≠ 0 → ¬ lt (h.heap j) (h.heap (parent i))

/-- With `x` in the hole, all pairs from `k` on are in order but those of the hole and its
children. -/
structure DownOrder (lt : Nat → Nat → Prop) (k : Nat) (h : Heap) (i x : Nat) : Prop where
  pairs : ∀ j, 0 < j → j < h.size → k ≤ parent j → parent j ≠ i →
    ¬ lt ((h.place i x).heap j) ((h.place i x).heap (parent j))
  across : ∀ j, 0 < j → j < h.size → parent j = i → i ≠ 0 → k ≤ parent i →
    ¬ lt (h.heap j) (h.heap (parent i))

theorem parent_ne (hj : 0 < j) : parent j ≠ j := Nat.ne_of_lt (parent_lt (Nat.ne_of_gt hj))

theorem UpOrder.place (h₀ : UpOrder lt h i x)
    (hstop : i ≠ 0 → ¬ lt x (h.heap (parent i))) : OrderedFrom lt 0 (h.place i x) := by
  intro j hj hjlt _
  by_cases hji : j = i
  · subst hji
    rw [place_heap_self, place_heap (parent_ne hj)]
    exact hstop (Nat.ne_of_gt hj)
  · exact h₀.pairs j hj hjlt hji

theorem DownOrder.place (h₀ : DownOrder lt k h i x)
    (hstop : ∀ j, 0 < j → j < h.size → parent j = i → ¬ lt (h.heap j) x) :
    OrderedFrom lt k (h.place i x) := by
  intro j hj hjlt hk
  by_cases hji : parent j = i
  · subst hji
    rw [place_heap_self, place_heap (parent_ne hj).symm]
    exact hstop j hj hjlt rfl
  · exact h₀.pairs j hj hjlt hk hji

theorem not_lt_trans [IsOrderConnected Nat lt] {a b c : Nat} (hab : ¬ lt a b) (hbc : ¬ lt b c) :
    ¬ lt a c :=
  fun hac => (IsOrderConnected.conn a b c hac).elim hab hbc

/-- What a percolation that puts `x` into the hole does. -/
structure Percolated (lt : Nat → Nat → Prop) (k : Nat) (h : Heap) (x : Nat) (h' : Heap) :
    Prop where
  ok : Ok h'
  ordered : OrderedFrom lt k h'
  size : h'.size = h.size
  inHeap : ∀ n, h'.inHeap n = true ↔ n = x ∨ h.inHeap n = true

theorem Percolated.of_move {h' : Heap} (h₀ : Holed h i x) (hp : p < h.size) (hne : p ≠ i)
    (hm : Percolated lt k (h.place i (h.heap p)) x h') : Percolated lt k h x h' :=
  ⟨hm.ok, hm.ordered, hm.size, fun n =>
    (hm.inHeap n).trans (or_congr_right (h₀.inHeap_move hp hne))⟩

variable [Std.Asymm lt]

/-- A step of `percolateUp`. -/
theorem UpOrder.move [IsOrderConnected Nat lt] (h₀ : UpOrder lt h i x) (hi : i ≠ 0)
    (hlt : i < h.size) (hx : lt x (h.heap (parent i))) :
    UpOrder lt (h.place i (h.heap (parent i))) (parent i) x := by
  have hp := parent_lt hi
  have hxp : ¬ lt (h.heap (parent i)) x := Std.Asymm.asymm _ _ hx
  refine ⟨fun j hj hjlt hjp => ?_, fun j hj hjlt hjp hp0 => ?_⟩
  · rw [place_heap hjp]
    by_cases hji : j = i
    · subst hji
      rw [place_heap_self, place_heap_self]
      exact hxp
    · rw [place_heap hji]
      have hpair := h₀.pairs j hj hjlt hji
      rw [place_heap hji] at hpair
      by_cases hpi : parent j = i
      · rw [hpi, place_heap (Nat.ne_of_gt hp), place_heap_self]
        exact h₀.across j hj hjlt hpi hi
      · rw [place_heap hpi] at hpair
        by_cases hpp : parent j = parent i
        · rw [hpp, place_heap_self]
          rw [hpp] at hpair
          exact not_lt_trans hpair hxp
        · rw [place_heap hpp, place_heap hpi]
          exact hpair
  · have hpp : parent (parent i) ≠ i := by
      have := parent_lt hp0
      omega
    have hparent := h₀.pairs (parent i) (Nat.pos_of_ne_zero hp0) (Nat.lt_trans hp hlt)
      (Nat.ne_of_lt hp)
    rw [place_heap (Nat.ne_of_lt hp), place_heap hpp] at hparent
    rw [place_heap hpp]
    by_cases hji : j = i
    · subst hji
      rw [place_heap_self]
      exact hparent
    · have hpair := h₀.pairs j hj hjlt hji
      rw [place_heap hji, hjp, place_heap (Nat.ne_of_lt hp)] at hpair
      rw [place_heap hji]
      exact not_lt_trans hpair hparent

/-- A step of `percolateDown`, to the child `c`. -/
theorem DownOrder.move {c : Nat} (h₀ : DownOrder lt k h i x) (hc : 0 < c) (hclt : c < h.size)
    (hci : parent c = i) (hx : lt (h.heap c) x)
    (hleast : ∀ j, 0 < j → j < h.size → parent j = i → ¬ lt (h.heap j) (h.heap c)) :
    DownOrder lt k (h.place i (h.heap c)) c x := by
  have hic : i < c := hci ▸ parent_lt (Nat.ne_of_gt hc)
  refine ⟨fun j hj hjlt hk hjp => ?_, fun j hj hjlt hjp _ hk => ?_⟩
  · rw [place_heap hjp]
    by_cases hpi : parent j = i
    · rw [hpi, place_heap_self]
      by_cases hjc : j = c
      · rw [hjc, place_heap_self]
        exact Std.Asymm.asymm _ _ hx
      · have hji : j ≠ i := fun heq => parent_ne hj (hpi.trans heq.symm)
        rw [place_heap hjc, place_heap hji]
        exact hleast j hj hjlt hpi
    · have hjc : j ≠ c := fun heq => hpi (heq ▸ hci)
      rw [place_heap hjc, place_heap hpi]
      have hpair := h₀.pairs j hj hjlt hk hpi
      rw [place_heap hpi] at hpair
      by_cases hji : j = i
      · subst hji
        rw [place_heap_self]
        exact h₀.across c hc hclt hci (Nat.ne_of_gt hj) hk
      · rw [place_heap hji] at hpair ⊢
        exact hpair
  · have hcj : c < j := hjp ▸ parent_lt (Nat.ne_of_gt hj)
    have hpair := h₀.pairs j hj hjlt (by omega) (by omega)
    rw [hjp, place_heap (by omega), place_heap (by omega)] at hpair
    rw [hci, place_heap_self, place_heap (by omega)]
    exact hpair

variable [DecidableRel lt]

theorem upLoop_spec [IsOrderConnected Nat lt] (h₀ : Holed h i x) (ho : UpOrder lt h i x) :
    Percolated lt 0 h x (upLoop lt x i h) := by
  fun_induction upLoop lt x i h with
  | case1 i h hx ih =>
    have hp : parent i < h.size := Nat.lt_trans (parent_lt hx.1) h₀.lt
    have hne : parent i ≠ i := Nat.ne_of_lt (parent_lt hx.1)
    exact (ih (h₀.move hp hne) (ho.move hx.1 h₀.lt hx.2)).of_move h₀ hp hne
  | case2 i h hx =>
    exact ⟨h₀.place, ho.place fun hi hlt => hx ⟨hi, hlt⟩, rfl, fun n => inHeap_place h₀.hole⟩

/-- The child that is compared is the least. -/
theorem child_least {c : Nat} (hc : 0 < c) (hclt : c < h.size) (hci : parent c = i) :
    ¬ lt (h.heap c) (h.heap (h.child lt i)) := by
  have hirrefl : ∀ a, ¬ lt a a := fun a ha => Std.Asymm.asymm _ _ ha ha
  unfold child
  rcases (parent_eq_iff hc).mp hci with rfl | rfl
  · split
    · rename_i hr
      exact Std.Asymm.asymm _ _ hr.2
    · exact hirrefl _
  · split
    · exact hirrefl _
    · rename_i hr
      exact fun hlt => hr ⟨hclt, hlt⟩

theorem child_parent (lt : Nat → Nat → Prop) [DecidableRel lt] (h : Heap) (i : Nat) :
    parent (h.child lt i) = i := by
  unfold child parent left right
  split
  · omega
  · omega

theorem downLoop_spec (h₀ : Holed h i x) [IsOrderConnected Nat lt] (ho : DownOrder lt k h i x) :
    Percolated lt k h x (downLoop lt x i h) := by
  fun_induction downLoop lt x i h with
  | case1 i h hi hx =>
    refine ⟨h₀.place, ho.place fun j hj hjlt hji hlt => ?_, rfl, fun n => inHeap_place h₀.hole⟩
    exact not_lt_trans (child_least hj hjlt hji) hx hlt
  | case2 i h hi hx ih =>
    have hc := h.lt_child lt i
    have hclt := child_lt lt hi
    have hpos : 0 < h.child lt i := Nat.lt_of_le_of_lt (Nat.zero_le i) hc
    refine (ih (h₀.move hclt (Nat.ne_of_gt hc)) (ho.move hpos hclt (child_parent lt h i) ?_
      fun j hj hjlt hji => child_least hj hjlt hji)).of_move h₀ hclt (Nat.ne_of_gt hc)
    exact not_not.mp hx
  | case3 i h hi =>
    refine ⟨h₀.place, ho.place fun j hj hjlt hji => ?_, rfl, fun n => inHeap_place h₀.hole⟩
    rcases (parent_eq_iff hj).mp hji with rfl | rfl
    · exact absurd hjlt hi
    · exact absurd (Nat.lt_of_le_of_lt (by unfold left right; omega) hjlt) hi

theorem place_self (h : Heap) (i j : Nat) : (h.place i (h.heap i)).heap j = h.heap j := by
  by_cases hj : j = i
  · rw [hj, place_heap_self]
  · exact place_heap hj

/-- What an operation does that changes the elements to those of `P`. -/
structure Keeps (lt : Nat → Nat → Prop) (k : Nat) (P : Nat → Prop) (h : Heap) : Prop where
  ok : Ok h
  ordered : OrderedFrom lt k h
  inHeap : ∀ n, h.inHeap n = true ↔ P n

variable [IsOrderConnected Nat lt]

/-- **`percolateDown`** puts the subtree of `i` in order. -/
theorem percolateDown_spec (h₀ : Ok h) (hi : i < h.size) (ho : OrderedFrom lt (i + 1) h) :
    Keeps lt i (fun n => h.inHeap n = true) (h.percolateDown lt i) ∧
      (h.percolateDown lt i).size = h.size := by
  have hdown : DownOrder lt i h i (h.heap i) := by
    refine ⟨fun j hj hjlt hk hji => ?_, fun j _ _ _ hi0 hk => ?_⟩
    · rw [place_self, place_self]
      exact ho j hj hjlt (Nat.lt_of_le_of_ne hk fun heq => hji heq.symm)
    · exact absurd (parent_lt hi0) (Nat.not_lt.mpr hk)
  have hp := downLoop_spec (h₀.holed hi) hdown
  refine ⟨⟨hp.ok, hp.ordered, fun n => (hp.inHeap n).trans (or_iff_right_of_imp ?_)⟩, hp.size⟩
  rintro rfl
  exact h₀.inHeap_iff.mpr ⟨i, hi, rfl⟩

/-- **`percolateUp`**, of an element that may have come in front. -/
theorem percolateUp_spec (h₀ : Ok h) (hi : i < h.size) (ho : UpOrder lt h i (h.heap i)) :
    Keeps lt 0 (fun n => h.inHeap n = true) (h.percolateUp lt i) := by
  have hp := upLoop_spec (h₀.holed hi) ho
  refine ⟨hp.ok, hp.ordered, fun n => (hp.inHeap n).trans (or_iff_right_of_imp ?_)⟩
  rintro rfl
  exact h₀.inHeap_iff.mpr ⟨i, hi, rfl⟩

/-! ## The operations -/

theorem insert_spec (h₀ : Ok h) (ho : OrderedFrom lt 0 h) (hn : h.inHeap n = false) :
    Keeps lt 0 (fun m => m = n ∨ h.inHeap m = true) (h.insert lt n) := by
  have hne : ∀ j, j < h.size → h.heap j ≠ n := by
    rintro j hj rfl
    rw [h₀.inHeap_iff.mpr ⟨j, hj, rfl⟩] at hn
    exact absurd hn (by simp)
  generalize ht : ({ h.place h.size n with
    size := h.size + 1, indicesSize := max h.indicesSize (n + 1) } : Heap) = t
  have hheap : ∀ j, j ≠ h.size → t.heap j = h.heap j := by
    intro j hj
    rw [← ht]
    exact place_heap hj
  have hsize : t.size = h.size + 1 := by rw [← ht]
  have hlast : t.heap h.size = n := by
    rw [← ht]
    exact place_heap_self
  have hindices : ∀ m, m ≠ n → t.indices m = h.indices m := by
    intro m hm
    rw [← ht]
    exact place_indices hm
  have hcap : t.indicesSize = max h.indicesSize (n + 1) := by rw [← ht]
  have hholed : Holed t h.size n := by
    refine ⟨by omega, fun j hj hjs => ?_, fun m j hm hj => ?_, fun j hj hjs => ?_, by omega⟩
    · have hj : j < h.size := by omega
      rw [hheap j hjs, hindices _ (hne j hj)]
      exact ⟨h₀.indexed j hj, hne j hj⟩
    · rw [hindices m hm] at hj
      obtain ⟨hj, hjm⟩ := h₀.inside m j hj
      exact ⟨by omega, Nat.ne_of_lt hj, by rw [hheap j (Nat.ne_of_lt hj), hjm]⟩
    · have := h₀.bound j (by omega)
      rw [hheap j hjs]
      omega
  have hup : UpOrder lt t h.size n := by
    refine ⟨fun j hj hjlt hjs => ?_, fun j hj hjlt hjs _ => ?_⟩
    · have hjlt : j < h.size := by omega
      have hplt := parent_lt (Nat.ne_of_gt hj)
      rw [place_heap hjs, place_heap (by omega), hheap j hjs, hheap _ (by omega)]
      exact ho j hj hjlt (Nat.zero_le _)
    · have := parent_lt (Nat.ne_of_gt hj)
      omega
  have hp := upLoop_spec hholed hup
  unfold insert percolateUp
  rw [ht, hlast]
  refine ⟨hp.ok, hp.ordered, fun m => (hp.inHeap m).trans ?_⟩
  by_cases hm : m = n
  · simp [hm]
  · refine or_congr_right ?_
    unfold inHeap
    rw [hindices m hm, Bool.and_eq_true, Bool.and_eq_true, decide_eq_true_iff, decide_eq_true_iff]
    refine and_congr_left fun hsome => ?_
    obtain ⟨i, hi⟩ := Option.isSome_iff_exists.mp hsome
    have := h₀.lt_indicesSize hi
    omega

theorem Ok.heap_inj (h₀ : Ok h) (hi : i < h.size) (hj : j < h.size) (heq : h.heap i = h.heap j) :
    i = j := by
  have := h₀.indexed i hi
  rw [heq, h₀.indexed j hj] at this
  exact (Option.some.inj this).symm

/-- The last element takes the place of the first. -/
theorem Ok.pop (h₀ : Ok h) (hpos : 0 < h.size) :
    Ok h.pop ∧ ∀ n, h.pop.inHeap n = true ↔ n ≠ h.heap 0 ∧ h.inHeap n = true := by
  have hlast : h.size - 1 < h.size := by omega
  have hindices : ∀ n, n ≠ h.heap 0 → h.pop.indices n =
      if n = h.heap (h.size - 1) then some 0 else h.indices n := by
    intro n hn
    unfold Heap.pop
    simp only []
    rw [Function.update_of_ne hn, Function.update_apply]
  have hnone : h.pop.indices (h.heap 0) = none := Function.update_self ..
  have hfirst : h.pop.heap 0 = h.heap (h.size - 1) := by
    show Function.update h.heap 0 (h.heap (h.size - 1)) 0 = _
    exact Function.update_self ..
  refine ⟨⟨fun j hj => ?_, fun n j hj => ?_, fun j hj => ?_⟩, fun n => ?_⟩
  · change j < h.size - 1 at hj
    by_cases hj0 : j = 0
    · subst hj0
      rw [hfirst, hindices _ fun heq => ?_, if_pos rfl]
      have := h₀.heap_inj hlast hpos heq
      omega
    · have hheap : h.pop.heap j = h.heap j := Function.update_of_ne hj0 ..
      rw [hheap, hindices _ fun heq => hj0 (h₀.heap_inj (by omega) hpos heq), if_neg fun heq => ?_]
      · exact h₀.indexed j (by omega)
      · have := h₀.heap_inj (by omega) hlast heq
        omega
  · by_cases hn : n = h.heap 0
    · rw [hn, hnone] at hj
      exact absurd hj (by simp)
    · rw [hindices n hn] at hj
      split at hj
      · rename_i hnl
        obtain rfl := Option.some.inj hj
        refine ⟨?_, hfirst.trans hnl.symm⟩
        show 0 < h.size - 1
        refine Nat.pos_of_ne_zero fun heq => hn ?_
        rw [hnl, heq]
      · rename_i hnl
        obtain ⟨hjlt, hjn⟩ := h₀.inside n j hj
        have hj0 : j ≠ 0 := by
          rintro rfl
          exact hn hjn.symm
        have hjl : j ≠ h.size - 1 := by
          rintro rfl
          exact hnl hjn.symm
        refine ⟨?_, (Function.update_of_ne hj0 ..).trans hjn⟩
        show j < h.size - 1
        omega
  · change j < h.size - 1 at hj
    show h.pop.heap j < h.indicesSize
    by_cases hj0 : j = 0
    · rw [hj0, hfirst]
      exact h₀.bound _ hlast
    · rw [show h.pop.heap j = h.heap j from Function.update_of_ne hj0 ..]
      exact h₀.bound j (by omega)
  · unfold inHeap
    rw [show h.pop.indicesSize = h.indicesSize from rfl]
    by_cases hn : n = h.heap 0
    · rw [hn, hnone]
      simp
    · rw [hindices n hn]
      split
      · rename_i hnl
        rw [hnl, h₀.indexed _ hlast]
        simp [← hnl, hn]
      · simp [hn]

theorem removeMin_spec (h₀ : Ok h) (ho : OrderedFrom lt 0 h) (hpos : 0 < h.size) :
    Keeps lt 0 (fun n => n ≠ h.heap 0 ∧ h.inHeap n = true) (h.removeMin lt).2 := by
  obtain ⟨hok, hin⟩ := h₀.pop hpos
  unfold removeMin
  simp only []
  split
  · rename_i hsize
    have hordered : OrderedFrom lt 1 h.pop := by
      intro j hj hjlt hk
      change j < h.size - 1 at hjlt
      have hheap : ∀ i, i ≠ 0 → h.pop.heap i = h.heap i := fun i hi => Function.update_of_ne hi ..
      rw [hheap j (Nat.ne_of_gt hj), hheap _ (Nat.ne_of_gt hk)]
      exact ho j hj (by omega) (Nat.zero_le _)
    obtain ⟨hk, _⟩ := percolateDown_spec hok (Nat.lt_of_succ_lt hsize) hordered
    exact ⟨hk.ok, hk.ordered, fun n => (hk.inHeap n).trans (hin n)⟩
  · refine ⟨hok, fun j hj hjlt _ => ?_, hin⟩
    omega

omit [Std.Asymm lt] [IsOrderConnected Nat lt] [DecidableRel lt] in
/-- The heap of other elements. -/
theorem Ok.fill (h₀ : Ok h) {ns : List Nat} (hns : ns.Nodup)
    (hbound : ∀ n ∈ ns, n < h.indicesSize) :
    Ok (h.fill ns) ∧ ∀ n, (h.fill ns).inHeap n = true ↔ n ∈ ns := by
  have hindices : ∀ n, (h.fill ns).indices n = if n ∈ ns then some (ns.idxOf n) else none := by
    intro n
    unfold Heap.fill
    simp only []
    split
    · rfl
    · split
      · rfl
      · rename_i hno
        cases hn : h.indices n with
        | none => rfl
        | some i => exact absurd ⟨i, h₀.inside n i hn⟩ hno
  have hheap : ∀ i, (hi : i < ns.length) → (h.fill ns).heap i = ns[i] := by
    intro i hi
    show ns.getD i 0 = _
    rw [List.getD_eq_getElem?_getD, List.getElem?_eq_getElem hi, Option.getD_some]
  refine ⟨⟨fun i hi => ?_, fun n i hi => ?_, fun i hi => ?_⟩, fun n => ?_⟩
  · change i < ns.length at hi
    rw [hheap i hi, hindices, if_pos (List.getElem_mem hi), hns.idxOf_getElem]
  · rw [hindices] at hi
    split at hi
    · rename_i hn
      obtain rfl := Option.some.inj hi
      have hlt := List.idxOf_lt_length_iff.mpr hn
      exact ⟨hlt, (hheap _ hlt).trans (List.getElem_idxOf hlt)⟩
    · exact absurd hi (by simp)
  · change i < ns.length at hi
    rw [hheap i hi]
    exact hbound _ (List.getElem_mem hi)
  · unfold inHeap
    rw [hindices]
    split
    · rename_i hn
      simp [hn, show n < (h.fill ns).indicesSize from hbound n hn]
    · rename_i hn
      simp [hn]

theorem heapify_spec : ∀ (k : Nat) (h : Heap), Ok h → k ≤ h.size → OrderedFrom lt k h →
    Keeps lt 0 (fun n => h.inHeap n = true) (heapify lt k h)
  | 0, h, h₀, _, ho => ⟨h₀, ho, fun _ => Iff.rfl⟩
  | k + 1, h, h₀, hk, ho => by
    obtain ⟨hd, hsize⟩ := percolateDown_spec h₀ hk ho
    have hrec := heapify_spec k _ hd.ok (by omega) hd.ordered
    exact ⟨hrec.ok, hrec.ordered, fun n => (hrec.inHeap n).trans (hd.inHeap n)⟩

/-- The percolations of `build` put the elements in order. -/
theorem heapify_fill (h₀ : Ok h) {ns : List Nat} (hns : ns.Nodup)
    (hbound : ∀ n ∈ ns, n < h.indicesSize) :
    Keeps lt 0 (· ∈ ns) (heapify lt (ns.length / 2) (h.fill ns)) := by
  obtain ⟨hok, hin⟩ := h₀.fill hns hbound
  -- no element of the second half has a child
  have ho : OrderedFrom lt (ns.length / 2) (h.fill ns) := by
    intro j hj hjlt hk
    change j < ns.length at hjlt
    unfold parent at hk
    omega
  have hh := heapify_spec (ns.length / 2) (h.fill ns) hok (Nat.div_le_self _ _) ho
  exact ⟨hh.ok, hh.ordered, fun n => (hh.inHeap n).trans (hin n)⟩

theorem build_spec (h₀ : Ok h) {ns : List Nat} (hns : ns.Nodup) {h' : Heap}
    (hrun : h.build lt ns = .ok h') : Keeps lt 0 (· ∈ ns) h' := by
  unfold build at hrun
  split at hrun
  · rename_i hbound
    obtain rfl := Except.ok.inj hrun
    exact heapify_fill h₀ hns hbound
  · exact absurd hrun (by simp)

/-- `build` writes the indices of its elements, also where `indices` has no entry. -/
example : empty.build (· < ·) [0] = .error (.raised .outOfRange) := rfl

omit [Std.Asymm lt] [DecidableRel lt] in
/-- **The first element is a least one.** -/
theorem OrderedFrom.first (ho : OrderedFrom lt 0 h) (hirrefl : ∀ a, ¬ lt a a) :
    ∀ i, i < h.size → ¬ lt (h.heap i) (h.heap 0) := by
  intro i
  induction i using Nat.strongRecOn with
  | ind i ih =>
    intro hi
    rcases Nat.eq_zero_or_pos i with rfl | hpos
    · exact hirrefl _
    · have hp := parent_lt (Nat.ne_of_gt hpos)
      exact not_lt_trans (ho i hpos hi (Nat.zero_le _)) (ih _ hp (Nat.lt_trans hp hi))

/-- An element that comes in front, where the others stay as they are. -/
theorem decrease_spec {lt₀ : Nat → Nat → Prop} [IsOrderConnected Nat lt₀] (h₀ : Ok h)
    (ho : OrderedFrom lt₀ 0 h) (hn : h.inHeap n = true)
    (hothers : ∀ a b, a ≠ n → b ≠ n → ¬ lt₀ a b → ¬ lt a b)
    (hfront : ∀ a, ¬ lt₀ a n → ¬ lt a n) :
    Keeps lt 0 (fun m => h.inHeap m = true) (h.decrease lt n) := by
  obtain ⟨i, hi, rfl⟩ := h₀.inHeap_iff.mp hn
  unfold decrease
  rw [h₀.indexed i hi]
  refine percolateUp_spec h₀ hi ⟨fun j hj hjlt hji => ?_, fun j hj hjlt hji hi0 => ?_⟩
  · rw [place_self, place_self]
    have hold := ho j hj hjlt (Nat.zero_le _)
    by_cases hpi : parent j = i
    · rw [hpi] at hold ⊢
      exact hfront _ hold
    · have hp := parent_lt (Nat.ne_of_gt hj)
      exact hothers _ _ (fun heq => hji (h₀.heap_inj hjlt hi heq))
        (fun heq => hpi (h₀.heap_inj (Nat.lt_trans hp hjlt) hi heq)) hold
  · have hp := parent_lt hi0
    have hij : i < j := hji ▸ parent_lt (Nat.ne_of_gt hj)
    have hchild := ho j hj hjlt (Nat.zero_le _)
    rw [hji] at hchild
    refine hothers _ _ (fun heq => Nat.ne_of_gt hij (h₀.heap_inj hjlt hi heq))
      (fun heq => Nat.ne_of_lt hp (h₀.heap_inj (Nat.lt_trans hp hi) hi heq)) ?_
    exact not_lt_trans hchild (ho i (Nat.pos_of_ne_zero hi0) hi (Nat.zero_le _))

end Order

/-! ## The heap of the variables -/

section Activities

variable {α : Type*} [LinearOrder α]

/-- `VarOrderLt` (`core/Solver.h:197-201`) -/
def VarOrderLt (activity : Nat → α) (x y : Nat) : Prop := activity y < activity x

instance (activity : Nat → α) : DecidableRel (VarOrderLt activity) :=
  fun x y => inferInstanceAs (Decidable (activity y < activity x))

instance (activity : Nat → α) : Std.Asymm (VarOrderLt activity) :=
  ⟨fun _ _ h h' => lt_asymm h h'⟩

instance (activity : Nat → α) : IsOrderConnected Nat (VarOrderLt activity) :=
  ⟨fun _ b _ h => (lt_or_ge (activity b) _).imp id fun hb => lt_of_lt_of_le h hb⟩

/-- A run of the operations on the heap. `bump` is `varBumpActivity` (`core/Solver.h:354-363`),
where `f` is the rescaling, if there is one. `S` are the variables that should be in the heap. -/
inductive Run : (Nat → α) → Finset Nat → Heap → Prop where
  | empty (activity : Nat → α) : Run activity ∅ empty
  | insert {activity : Nat → α} {S : Finset Nat} {h : Heap} (hrun : Run activity S h) {n : Nat}
      (hn : n ∉ S) : Run activity (Insert.insert n S) (h.insert (VarOrderLt activity) n)
  | removeMin {activity : Nat → α} {S : Finset Nat} {h : Heap} (hrun : Run activity S h)
      (hS : S.Nonempty) : Run activity (S.erase (h.removeMin (VarOrderLt activity)).1)
        (h.removeMin (VarOrderLt activity)).2
  | bump {activity : Nat → α} {S : Finset Nat} {h : Heap} (hrun : Run activity S h) (v : Nat)
      {a : α} (ha : activity v ≤ a) {f : α → α} (hf : Monotone f) :
      Run (f ∘ Function.update activity v a) S
        (if h.inHeap v then h.decrease (VarOrderLt (f ∘ Function.update activity v a)) v else h)
  | build {activity : Nat → α} {S : Finset Nat} {h h' : Heap} (hrun : Run activity S h)
      {ns : List Nat} (hns : ns.Nodup) (hbuild : h.build (VarOrderLt activity) ns = .ok h') :
      Run activity ns.toFinset h'

variable {activity : Nat → α} {S : Finset Nat}

/-- Raising an activity brings only that variable in front, also when all are rescaled. -/
theorem not_varOrderLt_bump {v : Nat} {a : α} (ha : activity v ≤ a) {f : α → α} (hf : Monotone f)
    {x y : Nat} (hx : x ≠ v) (hxy : ¬ VarOrderLt activity x y) :
    ¬ VarOrderLt (f ∘ Function.update activity v a) x y := by
  have hle : activity x ≤ activity y := not_lt.mp hxy
  refine not_lt.mpr (hf ?_)
  rw [Function.update_of_ne hx]
  by_cases hy : y = v
  · subst hy
    rw [Function.update_self]
    exact hle.trans ha
  · rw [Function.update_of_ne hy]
    exact hle

/-- **In a run, the heap is in order and holds the variables that it should**, by induction on the
run. -/
theorem Run.keeps (hrun : Run activity S h) : Keeps (VarOrderLt activity) 0 (· ∈ S) h := by
  induction hrun with
  | empty activity =>
    refine ⟨⟨fun i hi => absurd hi (Nat.not_lt_zero i),
      fun n i hn => absurd hn (by simp [Heap.empty]), fun i hi => absurd hi (Nat.not_lt_zero i)⟩,
      fun j _ hj => absurd hj (Nat.not_lt_zero j), fun n => ?_⟩
    simp [inHeap, Heap.empty]
  | @insert activity S h hrun n hn ih =>
    have hno : h.inHeap n = false := by
      rw [← Bool.not_eq_true, ih.inHeap]
      exact hn
    have hk := insert_spec ih.ok ih.ordered hno
    refine ⟨hk.ok, hk.ordered, fun m => (hk.inHeap m).trans ?_⟩
    rw [ih.inHeap, Finset.mem_insert]
  | @removeMin activity S h hrun hS ih =>
    obtain ⟨m, hm⟩ := hS
    obtain ⟨i, hi, _⟩ := ih.ok.inHeap_iff.mp ((ih.inHeap m).mpr hm)
    have hk := removeMin_spec ih.ok ih.ordered (Nat.lt_of_le_of_lt (Nat.zero_le i) hi)
    refine ⟨hk.ok, hk.ordered, fun n => (hk.inHeap n).trans ?_⟩
    rw [ih.inHeap, Finset.mem_erase]
    rfl
  | @bump activity S h hrun v a ha f hf ih =>
    split
    · rename_i hv
      have hk := decrease_spec ih.ok ih.ordered hv
        (fun x y hx _ hxy => not_varOrderLt_bump ha hf hx hxy) fun x hxv => ?_
      · exact ⟨hk.ok, hk.ordered, fun n => (hk.inHeap n).trans (ih.inHeap n)⟩
      · by_cases hx : x = v
        · rw [hx]
          exact lt_irrefl _
        · exact not_varOrderLt_bump ha hf hx hxv
    · rename_i hv
      -- the activity of no element changes
      have hne : ∀ j, j < h.size → h.heap j ≠ v := by
        rintro j hj rfl
        exact hv (ih.ok.inHeap_iff.mpr ⟨j, hj, rfl⟩)
      refine ⟨ih.ok, fun j hj hjlt hk => ?_, ih.inHeap⟩
      exact not_varOrderLt_bump ha hf (hne j hjlt) (ih.ordered j hj hjlt hk)
  | @build activity S h h' hrun ns hns hbuild ih =>
    have hk : Keeps (VarOrderLt activity) 0 (· ∈ ns) h' := build_spec ih.ok hns hbuild
    exact ⟨hk.ok, hk.ordered, fun n => (hk.inHeap n).trans List.mem_toFinset.symm⟩

theorem Run.mem_iff (hrun : Run activity S h) {n : Nat} :
    n ∈ S ↔ ∃ i, i < h.size ∧ h.heap i = n :=
  (hrun.keeps.inHeap n).symm.trans hrun.keeps.ok.inHeap_iff

theorem Run.size_eq (hrun : Run activity S h) : h.size = S.card := by
  have himage : S = (Finset.range h.size).image h.heap := by
    ext n
    rw [hrun.mem_iff, Finset.mem_image]
    exact exists_congr fun i => and_congr_left fun _ => Finset.mem_range.symm
  rw [himage, Finset.card_image_of_injOn, Finset.card_range]
  intro i hi j hj heq
  exact hrun.keeps.ok.heap_inj (Finset.mem_range.mp hi) (Finset.mem_range.mp hj) heq

theorem Run.removeMin_mem (hrun : Run activity S h) (hS : S.Nonempty) :
    (h.removeMin (VarOrderLt activity)).1 ∈ S :=
  hrun.mem_iff.mpr ⟨0, hrun.size_eq ▸ hS.card_pos, rfl⟩

/-- **The heap is the set of its variables**: after any run it holds those that were inserted and
not removed, each once, and `removeMin` takes out one of the greatest activity. -/
theorem removeMin_greatest (hrun : Run activity S h) (hS : S.Nonempty) :
    (∀ n, h.inHeap n = true ↔ n ∈ S) ∧ h.size = S.card ∧
      (h.removeMin (VarOrderLt activity)).1 ∈ S ∧
      ∀ n ∈ S, activity n ≤ activity (h.removeMin (VarOrderLt activity)).1 := by
  have hirrefl : ∀ a, ¬ VarOrderLt activity a a := fun a => lt_irrefl _
  refine ⟨hrun.keeps.inHeap, hrun.size_eq, hrun.removeMin_mem hS, fun n hn => ?_⟩
  obtain ⟨i, hi, rfl⟩ := hrun.mem_iff.mp hn
  exact not_lt.mp (hrun.keeps.ordered.first hirrefl i hi)

end Activities

/-- The heap with two variables, whose activities are their numbers. -/
def pair : Heap := (empty.insert (VarOrderLt id) 0).insert (VarOrderLt id) 1

theorem removeMin_greatest_pair :
    (∀ n, pair.inHeap n = true ↔ n ∈ Insert.insert 1 (Insert.insert 0 (∅ : Finset Nat))) ∧
      pair.size = (Insert.insert 1 (Insert.insert 0 (∅ : Finset Nat))).card ∧
      (pair.removeMin (VarOrderLt id)).1 ∈ Insert.insert 1 (Insert.insert 0 (∅ : Finset Nat)) ∧
      ∀ n ∈ Insert.insert 1 (Insert.insert 0 (∅ : Finset Nat)),
        id n ≤ id (pair.removeMin (VarOrderLt id)).1 :=
  removeMin_greatest (((Run.empty id).insert (by decide)).insert (by decide)) (by decide)

end Heap

end SymBreak.Mtl
