import SymBreak.Lib.Loop
import Mathlib.Data.List.Infix
import Mathlib.Order.Nat
import Mathlib.Data.List.Nodup

/-!
# Backtracking searches with an explicit stack

A depth-first search over paths, written as one `while` loop: the current path in an array indexed
by depth, a `visited` mark and a next-neighbour index for every vertex, and whatever scratch data
the search keeps besides (`aux`). One turn of the loop (`Loop.run`) handles a full path and drops
its last vertex, then scans for the next vertex from the end of the path (`scan`) and either pushes
it or pops.

`rest path k` is the list of vertices the scan still has to offer at `path` from index `k` on, and
`Faithful` says that the scan computes it. Then the arrays do not matter:

* **`explore`**: from a state that represents `v :: p`, the loop handles the full paths below it in
  the order of the recursive enumeration `enum`, and comes back to a state that represents `p`;
* `run_converges`: the whole search terminates, with that effect;
* `mem_enum`, `nodup_enum`: the enumeration lists every full path whose vertices are offered one
  after another, each once.

Paths are kept as stacks, the last vertex first; `enum` gives them in path order.
-/

namespace SymBreak.Backtrack

variable {V X σ ε : Type}

/-! ## The recursive enumeration -/

/-- The full paths below `path`, `d` vertices longer, in the order of the candidates. -/
def enum (cands : List V → List V) : Nat → List V → List (List V)
  | 0, path => [path.reverse]
  | d + 1, path => (cands path).flatMap fun u => enum cands d (u :: path)

/-- Every vertex of `q` past the end of `path` was offered at its place. -/
def Offered (cands : List V → List V) (path q : List V) : Prop :=
  ∀ u p, u :: p <:+ q → path.length ≤ p.length → u ∈ cands p

theorem mem_enum {cands : List V → List V} : ∀ {d : Nat} {path q : List V},
    q.reverse ∈ enum cands d path ↔
      path <:+ q ∧ q.length = path.length + d ∧ Offered cands path q
  | 0, path, q => by
    simp only [enum, List.mem_singleton, Nat.add_zero]
    constructor
    · intro h
      obtain rfl := List.reverse_injective h
      refine ⟨List.suffix_refl _, rfl, fun u p hs hl => ?_⟩
      have := hs.length_le
      simp only [List.length_cons] at this
      omega
    · rintro ⟨hs, hl, -⟩
      rw [hs.eq_of_length hl.symm]
  | d + 1, path, q => by
    simp only [enum, List.mem_flatMap, mem_enum (d := d)]
    constructor
    · rintro ⟨u, hu, hs, hl, hoff⟩
      refine ⟨(List.suffix_cons u path).trans hs, by simp only [List.length_cons] at hl; omega, ?_⟩
      intro w p hp hle
      rcases Nat.lt_or_ge path.length p.length with hlt | hge
      · exact hoff w p hp (by simp only [List.length_cons]; omega)
      · have e : w :: p = u :: path :=
          (List.suffix_of_suffix_length_le hp hs
            (by simp only [List.length_cons]; omega)).eq_of_length
            (by simp only [List.length_cons]; omega)
        cases e
        exact hu
    · rintro ⟨hs, hl, hoff⟩
      obtain ⟨t, rfl⟩ := hs
      obtain ⟨t', u, rfl⟩ : ∃ t' u, t = t' ++ [u] := by
        rcases List.eq_nil_or_concat t with rfl | ⟨t', u, rfl⟩
        · simp at hl
        · exact ⟨t', u, by simp⟩
      have hs' : u :: path <:+ t' ++ [u] ++ path := ⟨t', by simp⟩
      refine ⟨u, hoff u path hs' le_rfl, hs', by simp only [List.length_cons]; omega, ?_⟩
      exact fun w p hp hle => hoff w p hp (by simp only [List.length_cons] at hle; omega)

/-- Every listed path has `path` as its beginning. -/
theorem suffix_of_mem_enum {cands : List V → List V} {d : Nat} {path l : List V}
    (h : l ∈ enum cands d path) : path <:+ l.reverse := by
  rw [← List.reverse_reverse l] at h
  exact (mem_enum.mp h).1

theorem nodup_enum {cands : List V → List V} (hc : ∀ p, (cands p).Nodup) :
    ∀ (d : Nat) (path : List V), (enum cands d path).Nodup := by
  intro d
  induction d with
  | zero => exact fun path => List.nodup_singleton _
  | succ d ih =>
    intro path
    rw [enum, List.nodup_flatMap]
    refine ⟨fun u _ => ih (u :: path), (hc path).imp fun {a b} hab => ?_⟩
    intro l ha hb
    have e : a :: path = b :: path :=
      (List.suffix_of_suffix_length_le (suffix_of_mem_enum ha) (suffix_of_mem_enum hb)
        le_rfl).eq_of_length rfl
    exact hab (List.cons.inj e).1

/-! ## The loop -/

/-- The scratch state of a search: the depth (index of the last vertex of the path), the path, the
marks, the next index of every vertex. -/
structure State (V X : Type) where
  i : Int
  currentPath : Nat → V
  visited : V → Bool
  inds : V → Nat
  aux : X

/-- What a search loop is made of: it runs while `i > stop`; at depth `last` it handles the path
with `leaf`; `scan` looks for the next vertex and returns it with the new index of the vertex it
stands on; `push` and `pop` update the other scratch data, and `wipe` is what a popped slot of the
path is overwritten with. -/
structure Loop (V X σ ε : Type) where
  stop : Int
  last : Int
  leaf : σ → List V → Except (Halt ε) σ
  scan : State V X → V → Option V × Nat
  push : State V X → V → X
  pop : State V X → V → X
  wipe : Option V := none

variable [DecidableEq V]

namespace Loop

/-- A full path drops its last vertex. -/
def dropLeaf (st : State V X) : State V X :=
  { st with
    visited := Function.update st.visited (st.currentPath st.i.toNat) false
    i := st.i - 1 }

/-- Push the vertex `u`; `k` is the new index of the vertex `v` before it. -/
def pushState (L : Loop V X σ ε) (st : State V X) (v u : V) (k : Nat) : State V X :=
  let st' := { st with
    i := st.i + 1
    visited := Function.update st.visited u true
    currentPath := Function.update st.currentPath (st.i + 1).toNat u
    inds := Function.update (Function.update st.inds u 0) v k }
  { st' with aux := L.push st' u }

/-- Pop the vertex `v`. -/
def popState (L : Loop V X σ ε) (st : State V X) (v : V) (k : Nat) : State V X :=
  let st' := { st with
    visited := Function.update st.visited v false
    inds := Function.update st.inds v k
    currentPath := match L.wipe with
      | some w => Function.update st.currentPath st.i.toNat w
      | none => st.currentPath
    i := st.i - 1 }
  { st' with aux := L.pop st' v }

/-- Scan from the end of the path, then push or pop. -/
def advance (L : Loop V X σ ε) (st : State V X) : State V X :=
  let v := st.currentPath st.i.toNat
  match L.scan st v with
  | (some u, k) => L.pushState st v u k
  | (none, k) => L.popState st v k

/-- The loop. -/
def run (L : Loop V X σ ε) : Nat → State V X → σ → Except (Halt ε) (State V X × σ)
  | 0, _, _ => .error .outOfFuel
  | fuel + 1, st, s =>
    if L.stop < st.i then
      if st.i = L.last then do
        let s ← L.leaf s ((List.range (L.last + 1).toNat).map st.currentPath)
        L.run fuel (L.advance (dropLeaf st)) s
      else L.run fuel (L.advance st) s
    else .ok (st, s)

end Loop

/-! ## States that represent a path -/

/-- The state stands on the path whose stack is `path`; the other scratch data satisfy `AuxOk`. -/
structure Rep (AuxOk : List V → X → Prop) (path : List V) (st : State V X) : Prop where
  depth : st.i = path.length - 1
  nodup : path.Nodup
  slots : (List.range path.length).map st.currentPath = path.reverse
  visited : ∀ x, st.visited x = true ↔ x ∈ path
  aux : AuxOk path st.aux

/-- The scan offers `rest path k`, one vertex after another, and the scratch data are kept. -/
structure Faithful (L : Loop V X σ ε) (AuxOk : List V → X → Prop) (rest : List V → Nat → List V) :
    Prop where
  scan : ∀ st v p, Rep AuxOk (v :: p) st → L.stop < st.i → st.i < L.last →
    (∃ u k, L.scan st v = (some u, k) ∧ u ∉ v :: p ∧
      rest (v :: p) (st.inds v) = u :: rest (v :: p) k) ∨
    (∃ k, L.scan st v = (none, k) ∧ rest (v :: p) (st.inds v) = [])
  push : ∀ (st : State V X) u p k, u ∉ p → u ∈ rest p k →
    (∀ x, st.visited x = true ↔ x ∈ u :: p) → AuxOk p st.aux → AuxOk (u :: p) (L.push st u)
  pop : ∀ (st : State V X) v p, v ∉ p → (∀ x, st.visited x = true ↔ x ∈ p) →
    AuxOk (v :: p) st.aux → AuxOk p (L.pop st v)
  drop : ∀ a v p, v ∉ p → (p.length : Int) = L.last → AuxOk (v :: p) a → AuxOk p a

omit [DecidableEq V] in
/-- What a loop does at a full path does not matter for its turns. -/
theorem Faithful.of_turns {σ' ε' : Type} {L : Loop V X σ ε} {L' : Loop V X σ' ε'}
    {AuxOk : List V → X → Prop} {rest : List V → Nat → List V} (h : Faithful L AuxOk rest)
    (hstop : L'.stop = L.stop) (hlast : L'.last = L.last) (hscan : L'.scan = L.scan)
    (hpush : L'.push = L.push) (hpop : L'.pop = L.pop) : Faithful L' AuxOk rest where
  scan := by
    rw [hstop, hlast, hscan]
    exact h.scan
  push := by
    rw [hpush]
    exact h.push
  pop := by
    rw [hpop]
    exact h.pop
  drop := by
    rw [hlast]
    exact h.drop

namespace Rep

variable {AuxOk : List V → X → Prop} {p : List V} {v : V} {st : State V X}

omit [DecidableEq V] in
theorem length_eq (h : Rep AuxOk (v :: p) st) : st.i = p.length := by
  have := h.depth
  simp only [List.length_cons] at this
  omega

omit [DecidableEq V] in
/-- The vertex at the current depth is the top of the stack. -/
theorem top (h : Rep AuxOk (v :: p) st) : st.currentPath st.i.toNat = v := by
  have hp := h.slots
  simp only [List.length_cons, List.range_succ, List.map_append, List.map_cons, List.map_nil,
    List.reverse_cons] at hp
  have := (List.append_inj' hp rfl).2
  rw [h.length_eq, Int.toNat_natCast]
  simpa using this

omit [DecidableEq V] in
/-- The slots below the current depth hold the rest of the stack. -/
theorem slots_tail (h : Rep AuxOk (v :: p) st) :
    (List.range p.length).map st.currentPath = p.reverse := by
  have hp := h.slots
  simp only [List.length_cons, List.range_succ, List.map_append, List.map_cons, List.map_nil,
    List.reverse_cons] at hp
  exact (List.append_inj' hp rfl).1

theorem visited_drop (h : Rep AuxOk (v :: p) st) (x : V) :
    Function.update st.visited v false x = true ↔ x ∈ p := by
  have hv : v ∉ p := (List.nodup_cons.mp h.nodup).1
  by_cases hx : x = v
  · subst hx
    simp [hv]
  · rw [Function.update_of_ne hx, h.visited]
    simp [hx]

omit [DecidableEq V] in
/-- Overwriting a slot at or past the depth of `p`. -/
theorem map_update {f : Nat → V} {m k : Nat} (hk : m ≤ k) (w : V) :
    (List.range m).map (Function.update f k w) = (List.range m).map f := by
  refine List.map_congr_left fun j hj => ?_
  rw [List.mem_range] at hj
  rw [Function.update_of_ne (by omega)]

end Rep

section Explore

variable {L : Loop V X σ ε} {AuxOk : List V → X → Prop} {rest : List V → Nat → List V}

theorem rep_push (hL : Faithful L AuxOk rest) {st : State V X} {v u : V} {p todo : List V}
    {j k : Nat} (h : Rep AuxOk (v :: p) st) (hu : u ∉ v :: p) (hj : rest (v :: p) j = u :: todo) :
    Rep AuxOk (u :: v :: p) (L.pushState st v u k) where
  depth := by
    simp only [Loop.pushState, h.length_eq, List.length_cons]
    omega
  nodup := List.nodup_cons.mpr ⟨hu, h.nodup⟩
  slots := by
    have hi : (st.i + 1).toNat = p.length + 1 := by rw [h.length_eq]; omega
    simp only [Loop.pushState, hi, List.length_cons, List.reverse_cons]
    rw [List.range_succ, List.map_append, Rep.map_update le_rfl, ← List.length_cons (a := v),
      h.slots]
    simp
  visited := fun x => by
    simp only [Loop.pushState]
    by_cases hx : x = u
    · simp [hx]
    · rw [Function.update_of_ne hx, h.visited]
      simp [hx]
  aux := by
    refine hL.push _ u (v :: p) j hu (by rw [hj]; exact List.mem_cons_self) (fun x => ?_) h.aux
    by_cases hx : x = u
    · simp [hx]
    · simp only [Function.update_of_ne hx, h.visited]
      simp [hx]

theorem rep_pop (hL : Faithful L AuxOk rest) {st : State V X} {v : V} {p : List V} {k : Nat}
    (h : Rep AuxOk (v :: p) st) : Rep AuxOk p (L.popState st v k) where
  depth := by
    simp only [Loop.popState, h.length_eq]
  nodup := (List.nodup_cons.mp h.nodup).2
  slots := by
    simp only [Loop.popState]
    cases L.wipe with
    | none => exact h.slots_tail
    | some w =>
      simp only
      rw [Rep.map_update (by rw [h.length_eq]; omega)]
      exact h.slots_tail
  visited := h.visited_drop
  aux := hL.pop _ v p (List.nodup_cons.mp h.nodup).1 h.visited_drop h.aux

theorem rep_dropLeaf (hL : Faithful L AuxOk rest) {st : State V X} {v : V} {p : List V}
    (h : Rep AuxOk (v :: p) st) (hi : st.i = L.last) : Rep AuxOk p (Loop.dropLeaf st) where
  depth := by
    simp only [Loop.dropLeaf, h.length_eq]
  nodup := (List.nodup_cons.mp h.nodup).2
  slots := h.slots_tail
  visited := by
    simp only [Loop.dropLeaf, h.top]
    exact h.visited_drop
  aux := hL.drop _ v p (List.nodup_cons.mp h.nodup).1 (by rw [← hi, h.length_eq]) h.aux

/-- One turn at a path that is not full. -/
theorem run_step {st : State V X} (h1 : L.stop < st.i) (h2 : st.i ≠ L.last) (fuel : Nat) (s : σ) :
    L.run (fuel + 1) st s = L.run fuel (L.advance st) s := by
  rw [Loop.run, if_pos h1, if_neg h2]

/-- One turn at a full path: it is handled, and the turn goes on as one at the path before it. -/
theorem run_leaf {st : State V X} {v : V} {p : List V} (h : Rep AuxOk (v :: p) st)
    (h1 : L.stop < st.i - 1) (h2 : st.i = L.last) (fuel : Nat) (s : σ) :
    L.run (fuel + 1) st s =
      L.leaf s (v :: p).reverse >>= L.run (fuel + 1) (Loop.dropLeaf st) := by
  have hp : (List.range (L.last + 1).toNat).map st.currentPath = (v :: p).reverse := by
    rw [← h.slots, ← h2, h.length_eq]
    rfl
  rw [Loop.run, if_pos (by omega), if_pos h2, hp]
  refine bind_congr fun s' => ?_
  rw [run_step (by simpa [Loop.dropLeaf] using h1) (by simp only [Loop.dropLeaf]; omega)]

/-- The scan has nothing left to offer: the turn pops. -/
theorem explore_nil (hL : Faithful L AuxOk rest) {d : Nat} {v : V} {p : List V} {st : State V X}
    (h : Rep AuxOk (v :: p) st) (h1 : L.stop < st.i) (h2 : st.i < L.last)
    (htodo : rest (v :: p) (st.inds v) = []) :
    ∃ m st', 1 ≤ m ∧ Rep AuxOk p st' ∧ (∀ x ∈ p, st'.inds x = st.inds x) ∧
      ∀ fuel s, L.run (fuel + m) st s =
        (([] : List V).flatMap fun u => enum (rest · 0) d (u :: v :: p)).foldlM L.leaf s >>=
          L.run fuel st' := by
  rcases hL.scan st v p h h1 h2 with ⟨u, k, -, -, he⟩ | ⟨k, hscan, -⟩
  · rw [he] at htodo
    exact absurd htodo (by simp)
  · refine ⟨1, L.popState st v k, le_rfl, rep_pop hL h, fun x hx => ?_, fun fuel s => ?_⟩
    · have : x ≠ v := fun e => (List.nodup_cons.mp h.nodup).1 (e ▸ hx)
      simp [Loop.popState, Function.update_of_ne this]
    · rw [run_step h1 (by omega), Loop.advance, h.top, hscan]
      rfl

/-- The scan offers `u`: the turn pushes it. -/
theorem scan_cons (hL : Faithful L AuxOk rest) {v u : V} {p todo : List V} {st : State V X}
    (h : Rep AuxOk (v :: p) st) (h1 : L.stop < st.i) (h2 : st.i < L.last)
    (htodo : rest (v :: p) (st.inds v) = u :: todo) :
    ∃ k, L.advance st = L.pushState st v u k ∧ u ∉ v :: p ∧ rest (v :: p) k = todo := by
  rcases hL.scan st v p h h1 h2 with ⟨w, k, hscan, hw, he⟩ | ⟨k, -, he⟩
  · obtain ⟨rfl, rfl⟩ := List.cons.inj (htodo.symm.trans he)
    exact ⟨k, by rw [Loop.advance, h.top, hscan], hw, rfl⟩
  · rw [he] at htodo
    exact absurd htodo (by simp)

theorem inds_pushState {st : State V X} {v u x : V} {p : List V} {k : Nat}
    (h : Rep AuxOk (v :: p) st) (hu : u ∉ v :: p) (hx : x ∈ p) :
    (L.pushState st v u k).inds x = st.inds x := by
  have h1 : x ≠ v := fun e => (List.nodup_cons.mp h.nodup).1 (e ▸ hx)
  have h2 : x ≠ u := fun e => hu (List.mem_cons_of_mem v (e ▸ hx))
  simp [Loop.pushState, Function.update_of_ne h1, Function.update_of_ne h2]

/-- **The search below one vertex.** From a state that represents `v :: p`, `d + 1` vertices short
of a full path, the loop handles the full paths below `v :: p` that are still to come and ends in a
state that represents `p`, with the indices of the vertices of `p` untouched. -/
theorem explore (hL : Faithful L AuxOk rest) : ∀ (d : Nat) (v : V) (p : List V) (todo : List V)
    (st : State V X), Rep AuxOk (v :: p) st → L.stop < st.i → st.i + (d + 1) = L.last →
      rest (v :: p) (st.inds v) = todo →
      ∃ m st', 1 ≤ m ∧ Rep AuxOk p st' ∧ (∀ x ∈ p, st'.inds x = st.inds x) ∧
        ∀ fuel s, L.run (fuel + m) st s =
          (todo.flatMap fun u => enum (rest · 0) d (u :: v :: p)).foldlM L.leaf s >>=
            L.run fuel st' := by
  intro d
  induction d with
  | zero =>
    intro v p todo
    induction todo with
    | nil =>
      intro st h h1 h2 htodo
      exact explore_nil hL h h1 (by omega) htodo
    | cons u todo ih =>
      intro st h h1 h2 htodo
      obtain ⟨k, hadv, hu, hk⟩ := scan_cons hL h h1 (by omega) htodo
      have hrep := rep_push hL (k := k) h hu htodo
      -- `u` completes the path: it is handled and dropped in one turn
      have hi : (L.pushState st v u k).i = L.last := by simp only [Loop.pushState]; omega
      have hdrop := rep_dropLeaf hL hrep hi
      obtain ⟨m, st', hm, hst', hinds, hrun⟩ := ih _ hdrop
        (by simpa [Loop.dropLeaf, Loop.pushState] using h1)
        (by simp only [Loop.dropLeaf, Loop.pushState]; omega)
        (by simpa [Loop.dropLeaf, Loop.pushState] using hk)
      refine ⟨m + 1, st', by omega, hst', fun x hx => ?_, fun fuel s => ?_⟩
      · rw [hinds x hx]
        exact inds_pushState (L := L) h hu hx
      · obtain ⟨m, rfl⟩ : ∃ m', m = m' + 1 := ⟨m - 1, by omega⟩
        rw [← Nat.add_assoc, run_step h1 (by omega), hadv, ← Nat.add_assoc,
          run_leaf hrep (by simp only [Loop.pushState]; omega) hi]
        simp only [List.flatMap_cons, enum, List.singleton_append, List.foldlM_cons, bind_assoc]
        exact bind_congr fun s' => hrun fuel s'
  | succ d ihd =>
    intro v p todo
    induction todo with
    | nil =>
      intro st h h1 h2 htodo
      exact explore_nil hL h h1 (by omega) htodo
    | cons u todo ih =>
      intro st h h1 h2 htodo
      obtain ⟨k, hadv, hu, hk⟩ := scan_cons hL h h1 (by omega) htodo
      have hrep := rep_push hL (k := k) h hu htodo
      obtain ⟨m₁, st₁, -, hst₁, hinds₁, hrun₁⟩ := ihd u (v :: p) _ _ hrep
        (by simp only [Loop.pushState]; omega)
        (by simp only [Loop.pushState]; push_cast at h2; omega) rfl
      have hi₁ : st₁.i = st.i := by rw [hst₁.length_eq, h.length_eq]
      obtain ⟨m₂, st', hm₂, hst', hinds, hrun⟩ := ih st₁ hst₁ (by omega) (by omega)
        (by rw [hinds₁ v List.mem_cons_self]; simpa [Loop.pushState] using hk)
      refine ⟨m₂ + m₁ + 1, st', by omega, hst', fun x hx => ?_, fun fuel s => ?_⟩
      · rw [hinds x hx, hinds₁ x (List.mem_cons_of_mem v hx)]
        exact inds_pushState (L := L) h hu hx
      · have hu0 : (L.pushState st v u k).inds u = 0 := by
          have : u ≠ v := fun e => hu (by simp [e])
          simp [Loop.pushState, Function.update_of_ne this]
        rw [← Nat.add_assoc, run_step h1 (by omega), hadv, ← Nat.add_assoc, hrun₁, hu0]
        simp only [List.flatMap_cons, enum, List.foldlM_append, bind_assoc]
        exact bind_congr fun s' => hrun fuel s'

/-- **The search terminates**, and its effect is to handle the enumerated paths, in order. -/
theorem run_converges (hL : Faithful L AuxOk rest) {d : Nat} {v : V} {p : List V}
    {st : State V X} (h : Rep AuxOk (v :: p) st) (h1 : st.i = L.stop + 1)
    (h2 : st.i + (d + 1) = L.last) (h0 : st.inds v = 0) :
    ∃ st', Rep AuxOk p st' ∧ ∀ s, Converges (fun fuel => L.run fuel st s)
      ((enum (rest · 0) (d + 1) (v :: p)).foldlM L.leaf s >>= fun s' => .ok (st', s')) := by
  obtain ⟨m, st', -, hst', -, hrun⟩ := explore hL d v p _ st h (by omega) h2 rfl
  refine ⟨st', hst', fun s => ⟨m + 1, fun k hk => ?_⟩⟩
  obtain ⟨j, rfl⟩ : ∃ j, k = j + 1 + m := ⟨k - m - 1, by omega⟩
  have hi : ¬ L.stop < st'.i := by
    have := h.length_eq
    have := hst'.depth
    omega
  simp only [hrun, h0]
  refine bind_congr fun s' => ?_
  rw [Loop.run, if_neg hi]

end Explore

/-- A leaf that only writes the path down. -/
def record (acc : List (List V)) (path : List V) : Except (Halt ε) (List (List V)) :=
  .ok (acc ++ [path])

omit [DecidableEq V] in
theorem foldlM_record (l acc : List (List V)) :
    l.foldlM (record (ε := ε)) acc = .ok (acc ++ l) := by
  induction l generalizing acc with
  | nil => simp; rfl
  | cons p l ih =>
    rw [List.foldlM_cons]
    show List.foldlM record (acc ++ [p]) l = _
    rw [ih, List.append_assoc, List.singleton_append]

/-! ## The inner loop -/

/-- What the inner loop does at one neighbour: take a vertex and leave the index at `k`, pass on, or
break with the index at `k`. -/
inductive Choice (V : Type) where
  | take (u : V) (k : Nat)
  | skip
  | stop (k : Nat)

/-- The inner loop over the neighbours from index `k` on: the vertex found, and the index after. -/
def innerLoop (choose : Nat → V → Choice V) : List V → Nat → Option V × Nat
  | [], k => (none, k)
  | x :: xs, k =>
    match choose k x with
    | .take u k' => (some u, k')
    | .skip => innerLoop choose xs (k + 1)
    | .stop k' => (none, k')

/-- Take the first neighbour that passes the test. -/
def pick (ok : V → Bool) (k : Nat) (x : V) : Choice V :=
  if ok x then .take x (k + 1) else .skip

omit [DecidableEq V] in
/-- A vertex that is taken whatever the neighbour is offered once, while there is a neighbour. -/
theorem innerLoop_take {choose : Nat → V → Choice V} {u : V} {k' : Nat}
    (hc : ∀ k x, choose k x = .take u k') (l : List V) (k : Nat) :
    innerLoop choose l k = if l = [] then (none, k) else (some u, k') := by
  cases l with
  | nil => rfl
  | cons x xs => rw [innerLoop, hc, if_neg (List.cons_ne_nil x xs)]

omit [DecidableEq V] in
/-- The inner loop with `pick` offers the neighbours that pass, in order. -/
theorem innerLoop_pick (ok : V → Bool) (ns l : List V) (k : Nat) (h : ns.drop k = l) :
    (∃ u k', innerLoop (pick ok) l k = (some u, k') ∧ ok u = true ∧
      l.filter ok = u :: (ns.drop k').filter ok) ∨
    (∃ k', innerLoop (pick ok) l k = (none, k') ∧ l.filter ok = []) := by
  induction l generalizing k with
  | nil => exact Or.inr ⟨k, rfl, rfl⟩
  | cons x xs ih =>
    have hxs : ns.drop (k + 1) = xs := by
      rw [← List.drop_drop, h]
      rfl
    by_cases hx : ok x = true
    · exact Or.inl ⟨x, k + 1, by simp [innerLoop, pick, hx], hx,
        by rw [List.filter_cons_of_pos hx, hxs]⟩
    · have hstep : innerLoop (pick ok) (x :: xs) k = innerLoop (pick ok) xs (k + 1) := by
        simp [innerLoop, pick, hx]
      rw [hstep, List.filter_cons_of_neg hx]
      exact ih (k + 1) hxs

omit [DecidableEq V] in
/-- **A search whose scan takes the first neighbour that passes a test.** The neighbours and the
test may depend on the path; where the scan gives up, `ns` is empty. -/
theorem faithful_of_pick {L : Loop V X σ ε} {AuxOk : List V → X → Prop} (ns : List V → List V)
    (ok : List V → V → Bool) (hok : ∀ path u, ok path u = true → u ∉ path)
    (hscan : ∀ st v p, Rep AuxOk (v :: p) st → L.stop < st.i → st.i < L.last →
      L.scan st v = innerLoop (pick (ok (v :: p))) ((ns (v :: p)).drop (st.inds v)) (st.inds v) ∨
      (∃ k, L.scan st v = (none, k)) ∧ ns (v :: p) = [])
    (hpush : ∀ (st : State V X) u p, u ∉ p → u ∈ ns p →
      (∀ x, st.visited x = true ↔ x ∈ u :: p) → AuxOk p st.aux → AuxOk (u :: p) (L.push st u))
    (hpop : ∀ (st : State V X) v p, v ∉ p → (∀ x, st.visited x = true ↔ x ∈ p) →
      AuxOk (v :: p) st.aux → AuxOk p (L.pop st v))
    (hdrop : ∀ a v p, v ∉ p → (p.length : Int) = L.last → AuxOk (v :: p) a → AuxOk p a) :
    Faithful L AuxOk fun path k => ((ns path).drop k).filter (ok path) where
  scan st v p h h1 h2 := by
    rcases hscan st v p h h1 h2 with hs | ⟨⟨k, hs⟩, hn⟩
    · rw [hs]
      rcases innerLoop_pick (ok (v :: p)) (ns (v :: p)) _ (st.inds v) rfl with
        ⟨u, k, he, hu, hrest⟩ | ⟨k, he, hrest⟩
      · exact Or.inl ⟨u, k, he, hok _ u hu, hrest⟩
      · exact Or.inr ⟨k, he, hrest⟩
    · exact Or.inr ⟨k, hs, by rw [hn]; simp⟩
  push st u p k hu hk :=
    hpush st u p hu (List.mem_of_mem_drop (List.mem_of_mem_filter hk))
  pop := hpop
  drop := hdrop

end SymBreak.Backtrack
