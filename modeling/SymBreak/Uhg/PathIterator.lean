import SymBreak.Lib.Heap
import SymBreak.Uhg.Paths

/-!
# The iterator over the simple paths from a vertex

Model of `PathIterator` (`PathIterator.java`), the loop of `Utils.pathsIter` suspended at every path
it hands out. The path under construction and the paths handed out are arrays on a heap, so that
sharing is visible; `visited` and `inds` are never handed out, and are values. The field `v` is
written before every read, and is a local value here.

Results:
* `prepareNext_spec`: a call of `prepareNext` writes no array that was handed out before, and puts
  the next path of the search in an array of its own;
* **`pathIterator_yields`**: the calls of `next` return what `pathsIter` collects, in its order, and
  the arrays returned hold these paths to the end;
* **`paths_and_iterator`**: with this, `paths` lists every simple path once.
-/

namespace SymBreak.Uhg

open Backtrack Graph Utils

/-- What the iterator throws. -/
inductive IteratorExn where
  | noSuchElement
  deriving DecidableEq, Repr

/-- `PathIterator` (`PathIterator.java:8-15`) -/
structure PathIterator (n : Nat) where
  graph : Graph n
  length : Nat
  currentPath : Ref
  nextPath : Option Ref
  visited : Nat → Bool
  i : Int
  inds : Nat → Nat

namespace PathIterator

variable {n : Nat}

/-! ## Model -/

/-- `currentPath[j]` -/
def slot (heap : Heap Nat) (it : PathIterator n) (j : Nat) : Nat :=
  (heap.get it.currentPath).getD j 0

/-- A full path: keep a clone of it where it ascends, and drop the last vertex
(`PathIterator.java:51-56`). -/
def popFull (heap : Heap Nat) (it : PathIterator n) : Heap Nat × PathIterator n :=
  let v := it.slot heap it.i.toNat
  let it' := { it with visited := Function.update it.visited v false, i := it.i - 1 }
  if it.slot heap 0 < v then
    let (heap, path) := heap.alloc (heap.get it.currentPath)
    (heap, { it' with nextPath := some path })
  else (heap, it')

/-- To the next vertex, or back (`PathIterator.java:61-76`). -/
def turn (heap : Heap Nat) (it : PathIterator n) : Heap Nat × PathIterator n :=
  let v := it.slot heap it.i.toNat
  match innerLoop (pick fun u => it.graph.adj v u && !it.visited u)
    ((List.range n).drop (it.inds v)) (it.inds v) with
  | (some u, k) => (heap.write it.currentPath (it.i + 1).toNat u,
      { it with
        i := it.i + 1
        visited := Function.update it.visited u true
        inds := Function.update (Function.update it.inds u 0) v k })
  | (none, k) => (heap,
      { it with
        inds := Function.update it.inds v k
        visited := Function.update it.visited v false
        i := it.i - 1 })

/-- The loop of `prepareNext` (`PathIterator.java:48-77`). -/
def prepareLoop : Nat → Heap Nat → PathIterator n →
    Except (Halt IteratorExn) (Heap Nat × PathIterator n)
  | 0, _, _ => .error .outOfFuel
  | fuel + 1, heap, it =>
    if -1 < it.i then
      if it.i = (it.length : Int) - 1 then
        let (heap, it) := it.popFull heap
        if it.nextPath.isSome then .ok (heap, it)
        else
          let (heap, it) := it.turn heap
          prepareLoop fuel heap it
      else
        let (heap, it) := it.turn heap
        prepareLoop fuel heap it
    else .ok (heap, it)

/-- `prepareNext` (`PathIterator.java:45-78`) -/
def prepareNext (heap : Heap Nat) (it : PathIterator n) (fuel : Nat) :
    Except (Halt IteratorExn) (Heap Nat × PathIterator n) :=
  prepareLoop fuel heap { it with nextPath := none }

/-- The constructor, before `prepareNext` (`PathIterator.java:18-26`). -/
def start (heap : Heap Nat) (graph : Graph n) (v length : Nat) : Heap Nat × PathIterator n :=
  let (heap, currentPath) := heap.alloc ((List.replicate length 0).set 0 v)
  (heap,
    { graph, length, currentPath
      nextPath := none
      visited := Function.update (fun _ => false) v true
      i := 0
      inds := fun _ => 0 })

/-- `PathIterator(graph, v, length)` (`PathIterator.java:17-28`) -/
def create (heap : Heap Nat) (graph : Graph n) (v length fuel : Nat) :
    Except (Halt IteratorExn) (Heap Nat × PathIterator n) :=
  let (heap, it) := start heap graph v length
  it.prepareNext heap fuel

/-- `hasNext` (`PathIterator.java:31-33`) -/
def hasNext (it : PathIterator n) : Bool := it.nextPath.isSome

/-- `next` (`PathIterator.java:36-41`) -/
def next (heap : Heap Nat) (it : PathIterator n) (fuel : Nat) :
    Except (Halt IteratorExn) (Heap Nat × PathIterator n × Ref) :=
  match it.nextPath with
  | none => .error (.raised .noSuchElement)
  | some path => do
    let (heap, it) ← it.prepareNext heap fuel
    .ok (heap, it, path)

/-- Some calls of `next`, and what they return. -/
def nexts (fuel : Nat) : Nat → Heap Nat → PathIterator n →
    Except (Halt IteratorExn) (Heap Nat × PathIterator n × List Ref)
  | 0, heap, it => .ok (heap, it, [])
  | count + 1, heap, it => do
    let (heap, it, path) ← it.next heap fuel
    let (heap, it, paths) ← nexts fuel count heap it
    .ok (heap, it, path :: paths)

/-- Make an iterator, and call `next` so many times. -/
def iterate (heap : Heap Nat) (graph : Graph n) (v length count fuel : Nat) :
    Except (Halt IteratorExn) (Heap Nat × PathIterator n × List Ref) := do
  let (heap, it) ← create heap graph v length fuel
  nexts fuel count heap it

/-! ## The suspended search -/

/-- The arrays of the iterator, as the search sees them. -/
def view (heap : Heap Nat) (it : PathIterator n) : State Nat Unit where
  i := it.i
  currentPath := it.slot heap
  visited := it.visited
  inds := it.inds
  aux := ()

/-- The search that is suspended. -/
abbrev search (G : Graph n) (length : Nat) : Loop Nat Unit (List (List Nat)) Exn :=
  iterLoop G length (recordIf (ascends length))

/-- An iterator over the paths of `G` whose path under construction is the array at `own`. -/
structure Owns (G : Graph n) (length : Nat) (own : Ref) (heap : Heap Nat) (it : PathIterator n) :
    Prop where
  graph : it.graph = G
  len : it.length = length
  path_eq : it.currentPath = own
  lt_size : own < heap.size
  length_eq : (heap.get own).length = length
  two_le : 2 ≤ length
  depth : it.i < length

variable {G : Graph n} {length v : Nat} {own : Ref} {heap : Heap Nat} {it : PathIterator n}

/-- The path under construction, once it is full. -/
theorem Owns.fullPath (h : Owns G length own heap it) :
    (search G length).fullPath (view heap it) = heap.get own := by
  have hlast : ((search G length).last + 1).toNat = length := by
    show ((length : Int) - 1 + 1).toNat = length
    omega
  unfold Loop.fullPath view slot
  rw [hlast, h.path_eq]
  refine List.ext_getElem (by simp [h.length_eq]) fun j h1 h2 => ?_
  rw [List.getElem_map, List.getElem_range]
  exact List.getD_eq_getElem _ _ h2

/-- An array after one entry was written. -/
theorem getD_set {l : List Nat} {i x : Nat} (hi : i < l.length) (j : Nat) :
    (l.set i x).getD j 0 = Function.update (fun j => l.getD j 0) i x j := by
  by_cases hj : j = i
  · subst hj
    rw [Function.update_self, List.getD_eq_getElem _ _ (by rwa [List.length_set]),
      List.getElem_set_self]
  · rw [Function.update_of_ne hj, List.getD_eq_getElem?_getD, List.getElem?_set_ne (Ne.symm hj),
      List.getD_eq_getElem?_getD]

/-- **A turn of the iterator is one of the search.** -/
theorem turn_spec (h : Owns G length own heap it) (hi : it.i + 1 < length) :
    view (it.turn heap).1 (it.turn heap).2 = (search G length).advance (view heap it) ∧
      (it.turn heap).2.nextPath = it.nextPath ∧
      Owns G length own (it.turn heap).1 (it.turn heap).2 ∧
      Heap.Keeps own heap (it.turn heap).1 := by
  obtain ⟨rfl, rfl, rfl, hlt, hlen, htwo, -⟩ := h
  rcases hr : innerLoop (pick fun u => it.graph.adj (it.slot heap it.i.toNat) u && !it.visited u)
      ((List.range n).drop (it.inds (it.slot heap it.i.toNat)))
      (it.inds (it.slot heap it.i.toNat)) with ⟨_ | u, k⟩
  all_goals
    have hscan : (search it.graph it.length).scan (view heap it)
      ((view heap it).currentPath (view heap it).i.toNat) = _ := hr
    rw [Loop.advance, hscan]
    simp only [turn, hr]
  · refine ⟨rfl, trivial, ⟨rfl, rfl, rfl, hlt, hlen, htwo, ?_⟩, Heap.Keeps.refl _ _⟩
    simp only
    omega
  · refine ⟨?_, trivial, ⟨rfl, rfl, rfl, by simpa using hlt, ?_, htwo, hi⟩,
      Heap.keeps_write _ _ _⟩
    · unfold view Loop.pushState
      congr 1
      funext j
      simp only [slot, Heap.get_write hlt]
      exact getD_set (by omega) j
    · rw [Heap.get_write hlt, List.length_set, hlen]

/-- What is handed out between two heaps: a new array that holds the path. -/
def Handed (heap heap' : Heap Nat) : Option Ref → Option (List Nat) → Prop :=
  Option.Rel fun r p => heap.size ≤ r ∧ r < heap'.size ∧ heap'.get r = p

theorem Handed.eq_none {heap' : Heap Nat} {o : Option Ref} (h : Handed heap heap' o none) :
    o = none := by
  cases h
  rfl

theorem Handed.exists_ref {heap' : Heap Nat} {o : Option Ref} {p : List Nat}
    (h : Handed heap heap' o (some p)) :
    ∃ r, o = some r ∧ heap.size ≤ r ∧ r < heap'.size ∧ heap'.get r = p := by
  cases h with
  | some hr => exact ⟨_, rfl, hr⟩

/-- What was on the heap before is on a smaller heap before that. -/
theorem Handed.mono {heap₀ heap' : Heap Nat} {o : Option Ref} {p : Option (List Nat)}
    (h : Handed heap heap' o p) (hk : Heap.Keeps own heap₀ heap) : Handed heap₀ heap' o p := by
  cases h with
  | none => exact .none
  | some hr => exact .some ⟨Nat.le_trans hk.size_le hr.1, hr.2⟩

/-- **A full path that ascends is cloned**, and any other is dropped. -/
theorem popFull_spec (h : Owns G length own heap it) (hi : it.i = (length : Int) - 1)
    (hnext : it.nextPath = none) :
    view (it.popFull heap).1 (it.popFull heap).2 = Loop.dropLeaf (view heap it) ∧
      Handed heap (it.popFull heap).1 (it.popFull heap).2.nextPath
        (if ascends length (heap.get own) then some (heap.get own) else none) ∧
      Owns G length own (it.popFull heap).1 (it.popFull heap).2 ∧
      Heap.Keeps own heap (it.popFull heap).1 := by
  obtain ⟨rfl, rfl, rfl, hlt, hlen, htwo, -⟩ := h
  have htop : it.i.toNat = it.length - 1 := by omega
  have hasc : ascends it.length (heap.get it.currentPath) = true ↔
      it.slot heap 0 < it.slot heap it.i.toNat := by
    rw [ascends, decide_eq_true_iff, htop]
    rfl
  by_cases hlow : it.slot heap 0 < it.slot heap it.i.toNat
  · have hold := Heap.get_alloc_of_lt (heap.get it.currentPath) hlt
    simp only [popFull, if_pos hlow, if_pos (hasc.mpr hlow)]
    refine ⟨?_, .some ⟨Nat.le_refl _, by simp, by simp⟩, ⟨rfl, rfl, rfl, ?_, ?_, htwo, ?_⟩,
      Heap.keeps_alloc _ _⟩
    · unfold view Loop.dropLeaf
      congr 1
      funext j
      exact congrArg (·.getD j 0) hold
    · simpa using Nat.lt_succ_of_lt hlt
    · rw [hold, hlen]
    · simp only
      omega
  · simp only [popFull, if_neg hlow, if_neg (mt hasc.mp hlow), hnext]
    refine ⟨rfl, .none, ⟨rfl, rfl, rfl, hlt, hlen, htwo, ?_⟩, Heap.Keeps.refl _ _⟩
    simp only
    omega

/-- **`prepareNext` is the search up to the next path.** -/
theorem prepareLoop_spec {fuel : Nat} (h : Owns G length own heap it) (hnext : it.nextPath = none)
    {st : State Nat Unit} {o : Option (List Nat)}
    (hr : (search G length).resume (ascends length) fuel (view heap it) = .ok (st, o)) :
    ∃ heap' it', prepareLoop fuel heap it = .ok (heap', it') ∧ view heap' it' = st ∧
      Handed heap heap' it'.nextPath o ∧ Owns G length own heap' it' ∧
      Heap.Keeps own heap heap' := by
  induction fuel generalizing heap it with
  | zero => exact absurd hr (by simp [Loop.resume])
  | succ fuel ih =>
    rw [Loop.resume] at hr
    rw [prepareLoop]
    by_cases h1 : -1 < it.i
    · rw [if_pos (show (search G length).stop < (view heap it).i from h1)] at hr
      rw [if_pos h1, h.len]
      by_cases h2 : it.i = (length : Int) - 1
      · rw [if_pos (show (view heap it).i = (search G length).last from h2), h.fullPath] at hr
        rw [if_pos h2]
        obtain ⟨hview, hhanded, howns, hkeeps⟩ := popFull_spec h h2 hnext
        rw [← hview] at hr
        by_cases hacc : ascends length (heap.get own) = true
        · -- the path is handed out
          rw [if_pos hacc] at hr hhanded
          obtain ⟨rfl, rfl⟩ := Prod.mk.inj (Except.ok.inj hr)
          obtain ⟨r, hr, -⟩ := hhanded.exists_ref
          refine ⟨_, _, ?_, rfl, hhanded, howns, hkeeps⟩
          simp only [hr, Option.isSome_some, if_true]
        · -- the turn goes on at the path before it
          rw [if_neg hacc] at hr hhanded
          have hdown : (it.popFull heap).2.i + 1 < length := by
            have hi : (it.popFull heap).2.i = it.i - 1 := congrArg State.i hview
            omega
          obtain ⟨hturn, hsame, howns', hkeeps'⟩ := turn_spec howns hdown
          rw [← hturn] at hr
          obtain ⟨heap', it', hloop, hst, hh, ho, hk⟩ := ih howns' (hsame.trans hhanded.eq_none) hr
          refine ⟨heap', it', ?_, hst, hh.mono (hkeeps.trans hkeeps'), ho,
            (hkeeps.trans hkeeps').trans hk⟩
          simp only [hhanded.eq_none, Option.isSome_none, Bool.false_eq_true, if_false]
          exact hloop
      · rw [if_neg (show (view heap it).i ≠ (search G length).last from h2)] at hr
        rw [if_neg h2]
        obtain ⟨hturn, hsame, howns', hkeeps'⟩ := turn_spec h (by have := h.depth; omega)
        rw [← hturn] at hr
        obtain ⟨heap', it', hloop, hst, hh, ho, hk⟩ := ih howns' (hsame.trans hnext) hr
        exact ⟨heap', it', hloop, hst, hh.mono hkeeps', ho, hkeeps'.trans hk⟩
    · rw [if_neg (show ¬ (search G length).stop < (view heap it).i from h1)] at hr
      rw [if_neg h1]
      obtain ⟨rfl, rfl⟩ := Prod.mk.inj (Except.ok.inj hr)
      exact ⟨heap, it, rfl, rfl, hnext ▸ .none, h, Heap.Keeps.refl _ _⟩

/-! ## The calls of `next` -/

/-- The iterator is about to return these paths: the first is on the heap, and the search yields the
others. -/
def Serves (G : Graph n) (length : Nat) (own : Ref) (heap : Heap Nat) (it : PathIterator n)
    (ps : List (List Nat)) : Prop :=
  Owns G length own heap it ∧ match ps with
    | [] => it.nextPath = none
    | p :: ps => (∃ r, it.nextPath = some r ∧ r < heap.size ∧ r ≠ own ∧ heap.get r = p) ∧
      Yields (search G length) (ascends length) (view heap it) ps

/-- More fuel does not matter. -/
theorem prepareLoop_mono {fuel k : Nat} {r : Heap Nat × PathIterator n}
    (h : prepareLoop fuel heap it = .ok r) (hk : fuel ≤ k) : prepareLoop k heap it = .ok r := by
  induction fuel generalizing k heap it with
  | zero => exact absurd h (by simp [prepareLoop])
  | succ fuel ih =>
    obtain ⟨k, rfl⟩ : ∃ k', k = k' + 1 := ⟨k - 1, by omega⟩
    simp only [prepareLoop] at h ⊢
    split_ifs at h ⊢
    · exact h
    · exact ih h (by omega)
    · exact ih h (by omega)
    · exact h

/-- **`prepareNext` gets the iterator ready for the next path.** -/
theorem prepareNext_spec {ps : List (List Nat)} (h : Owns G length own heap it)
    (hy : Yields (search G length) (ascends length) (view heap it) ps) :
    ∃ heap' it', Converges (it.prepareNext heap) (.ok (heap', it')) ∧
      Serves G length own heap' it' ps ∧ Heap.Keeps own heap heap' := by
  have howns : Owns G length own heap { it with nextPath := none } :=
    ⟨h.graph, h.len, h.path_eq, h.lt_size, h.length_eq, h.two_le, h.depth⟩
  cases ps with
  | nil =>
    obtain ⟨st, N, hN⟩ := hy
    obtain ⟨heap', it', hloop, -, hh, ho, hk⟩ := prepareLoop_spec howns rfl (hN N (Nat.le_refl N))
    exact ⟨heap', it', ⟨N, fun k hk => prepareLoop_mono hloop hk⟩, ⟨ho, hh.eq_none⟩, hk⟩
  | cons p ps =>
    obtain ⟨st, ⟨N, hN⟩, hrest⟩ := hy
    obtain ⟨heap', it', hloop, rfl, hh, ho, hk⟩ := prepareLoop_spec howns rfl (hN N (Nat.le_refl N))
    obtain ⟨r, hr, hge, hlt, hget⟩ := hh.exists_ref
    have hne : r ≠ own := Nat.ne_of_gt (Nat.lt_of_lt_of_le h.lt_size hge)
    exact ⟨heap', it', ⟨N, fun k hk => prepareLoop_mono hloop hk⟩,
      ⟨ho, ⟨r, hr, hlt, hne, hget⟩, hrest⟩, hk⟩

/-- **A call of `next`** returns the array with the next path. -/
theorem next_spec {p : List Nat} {ps : List (List Nat)}
    (h : Serves G length own heap it (p :: ps)) :
    ∃ heap' it' r, Converges (it.next heap) (.ok (heap', it', r)) ∧
      Serves G length own heap' it' ps ∧ Heap.Keeps own heap heap' ∧
      r < heap.size ∧ r ≠ own ∧ heap.get r = p := by
  obtain ⟨howns, ⟨r, hr, hlt, hne, hget⟩, hy⟩ := h
  obtain ⟨heap', it', hprep, hserves, hkeeps⟩ := prepareNext_spec howns hy
  refine ⟨heap', it', r, ?_, hserves, hkeeps, hlt, hne, hget⟩
  unfold next
  rw [hr]
  exact hprep.bind_ok (.const _)

/-- **Some calls of `next`** return the next paths, in arrays that still hold them at the end. -/
theorem nexts_spec {ps : List (List Nat)} (h : Serves G length own heap it ps) (k : Nat)
    (hk : k ≤ ps.length) :
    ∃ heap' it' refs, Converges (fun fuel => nexts fuel k heap it) (.ok (heap', it', refs)) ∧
      Serves G length own heap' it' (ps.drop k) ∧ Heap.Keeps own heap heap' ∧
      refs.map heap'.get = ps.take k := by
  induction k generalizing ps heap it with
  | zero => exact ⟨heap, it, [], .const _, h, Heap.Keeps.refl _ _, rfl⟩
  | succ k ih =>
    obtain ⟨p, ps, rfl⟩ := List.exists_cons_of_length_pos (l := ps) (by omega)
    obtain ⟨heap₁, it₁, r, hnext, hserves₁, hkeeps₁, hlt, hne, hget⟩ := next_spec h
    obtain ⟨heap', it', refs, hnexts, hserves, hkeeps, hrefs⟩ :=
      ih hserves₁ (by simpa using hk)
    refine ⟨heap', it', r :: refs, ?_, hserves, hkeeps₁.trans hkeeps, ?_⟩
    · simp only [nexts]
      exact hnext.bind_ok (hnexts.bind_ok (.const _))
    · rw [List.map_cons, (hkeeps₁.trans hkeeps).get_eq r hlt hne, hget, hrefs]
      rfl

/-- With no path left, `next` throws. -/
theorem nexts_end {ps : List (List Nat)} (h : Serves G length own heap it ps) :
    Converges (fun fuel => nexts fuel (ps.length + 1) heap it)
      (.error (.raised .noSuchElement)) := by
  induction ps generalizing heap it with
  | nil =>
    refine .of_eq fun fuel => ?_
    rw [List.length_nil, nexts, next, h.2]
    rfl
  | cons p ps ih =>
    obtain ⟨heap₁, it₁, r, hnext, hserves₁, -⟩ := next_spec h
    simp only [List.length_cons, nexts]
    exact hnext.bind_ok (ih hserves₁).bind_error

/-- `hasNext` says whether a path is left. -/
theorem Serves.hasNext {ps : List (List Nat)} (h : Serves G length own heap it ps) :
    it.hasNext = decide (0 < ps.length) := by
  cases ps with
  | nil =>
    rw [PathIterator.hasNext, h.2]
    rfl
  | cons p ps =>
    obtain ⟨-, ⟨r, hr, -⟩, -⟩ := h
    rw [PathIterator.hasNext, hr, List.length_cons, decide_eq_true (Nat.succ_pos _)]
    rfl

/-! ## The iterator -/

theorem owns_start (hlen : 2 ≤ length) (heap : Heap Nat) (v : Nat) :
    Owns G length heap.size (start heap G v length).1 (start heap G v length).2 where
  graph := rfl
  len := rfl
  path_eq := rfl
  lt_size := by simp [start]
  length_eq := by simp [start]
  two_le := hlen
  depth := by
    simp only [start]
    omega

/-- The search of the iterator begins like that of `pathsIter`. -/
theorem view_start (hlen : 2 ≤ length) (heap : Heap Nat) (v : Nat) :
    view (start heap G v length).1 (start heap G v length).2 = startAt emptyState v := by
  have hzero : (fun j => (List.replicate length 0).getD j 0) = fun _ => (0 : Nat) := by
    funext j
    rw [List.getD_eq_getElem?_getD, List.getElem?_replicate]
    split <;> rfl
  unfold view startAt emptyState
  congr 1
  funext j
  show ((heap.alloc _).1.get heap.size).getD j 0 = _
  rw [Heap.get_alloc, getD_set (by simpa using Nat.lt_of_lt_of_le (by omega) hlen), hzero]

/-- **The iterator returns what `pathsIter` collects**, in the same order; the arrays returned hold
their paths to the end, and every array made before the iterator is what it was. -/
theorem pathIterator_yields (hlen : 2 ≤ length) (heap : Heap Nat) (v : Nat) :
    ∃ ps, Converges (pathsIter G v length []) (.ok ps) ∧
      (∀ k ≤ ps.length, ∃ heap' it refs,
        Converges (iterate heap G v length k) (.ok (heap', it, refs)) ∧
          refs.map heap'.get = ps.take k ∧ it.hasNext = decide (k < ps.length) ∧
          ∀ r < heap.size, heap'.get r = heap.get r) ∧
      Converges (iterate heap G v length (ps.length + 1)) (.error (.raised .noSuchElement)) := by
  refine ⟨_, pathsIter_converges hlen v [], ?_⟩
  rw [List.nil_append]
  -- the search writes down these paths, so the suspended one yields them
  obtain ⟨st', N, hN⟩ := iterLoop_converges (G := G) (recordIf (ascends length)) hlen v []
  have hrun := hN N (Nat.le_refl N)
  rw [foldlM_recordIf, ok_bind] at hrun
  have hyields := yields_of_run rfl (by simp only [iterLoop, pathsLoop]; omega) hrun
  rw [← view_start hlen heap v] at hyields
  obtain ⟨heap₁, it₁, hcreate, hserves₁, hkeeps₁⟩ :=
    prepareNext_spec (owns_start hlen heap v) hyields
  refine ⟨fun k hk => ?_, hcreate.bind_ok (nexts_end hserves₁)⟩
  obtain ⟨heap', it', refs, hnexts, hserves, hkeeps, hrefs⟩ := nexts_spec hserves₁ k hk
  refine ⟨heap', it', refs, hcreate.bind_ok hnexts, hrefs, ?_, fun r hr => ?_⟩
  · rw [hserves.hasNext, List.length_drop, decide_eq_decide]
    omega
  · have hold := (Heap.keeps_alloc heap.size ((List.replicate length 0).set 0 v)).trans
      (hkeeps₁.trans hkeeps)
    exact hold.get_eq r hr (Nat.ne_of_lt hr)

/-- **`paths` lists every simple path once**, from its smaller end to the larger, **and the iterator
returns what `pathsIter` collects**. -/
theorem paths_and_iterator (hlen : 2 ≤ length) :
    (∃ ps, Converges (paths G length) (.ok ps) ∧ ps.Nodup ∧
      (∀ l, l ∈ ps ↔ AscendingPath G length l) ∧
      ∀ l, G.IsPath l → l.length = length → (l ∈ ps ↔ l.reverse ∉ ps)) ∧
    ∀ (heap : Heap Nat) (v : Nat), v < n →
      ∃ ps, Converges (pathsIter G v length []) (.ok ps) ∧
        (∀ k ≤ ps.length, ∃ heap' it refs,
          Converges (iterate heap G v length k) (.ok (heap', it, refs)) ∧
            refs.map heap'.get = ps.take k ∧ it.hasNext = decide (k < ps.length) ∧
            ∀ r < heap.size, heap'.get r = heap.get r) ∧
        Converges (iterate heap G v length (ps.length + 1)) (.error (.raised .noSuchElement)) :=
  ⟨paths_exact hlen, fun heap v _ => pathIterator_yields hlen heap v⟩

/-- On the complete graph on four vertices. -/
theorem paths_and_iterator_four :
    (∃ ps, Converges (paths (Graph.complete 4) 3) (.ok ps) ∧ ps.Nodup ∧
      (∀ l, l ∈ ps ↔ AscendingPath (Graph.complete 4) 3 l) ∧
      ∀ l, (Graph.complete 4).IsPath l → l.length = 3 → (l ∈ ps ↔ l.reverse ∉ ps)) ∧
    ∀ (heap : Heap Nat) (v : Nat), v < 4 →
      ∃ ps, Converges (pathsIter (Graph.complete 4) v 3 []) (.ok ps) ∧
        (∀ k ≤ ps.length, ∃ heap' it refs,
          Converges (iterate heap (Graph.complete 4) v 3 k) (.ok (heap', it, refs)) ∧
            refs.map heap'.get = ps.take k ∧ it.hasNext = decide (k < ps.length) ∧
            ∀ r < heap.size, heap'.get r = heap.get r) ∧
        Converges (iterate heap (Graph.complete 4) v 3 (ps.length + 1))
          (.error (.raised .noSuchElement)) :=
  paths_and_iterator (by decide)

end PathIterator

end SymBreak.Uhg
