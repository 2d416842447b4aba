import SymBreak.Lib.Backtrack

/-!
# Backtracking searches that stop at a path

Three variants of the loop of `Lib.Backtrack`:
* `resume` stops at the next full path that a test accepts, and can be called again:
  **`resume_run`** says that the calls return the accepted paths one after another;
* `runWith` handles a full path by what the arrays hold: `runWith_eq` says that this is the same
  where the arrays represent it;
* a search that starts on a full path one vertex above its end handles it, and after it, without a
  look at its condition, all the paths that end in another vertex (`run_boundary`).
-/

namespace SymBreak.Backtrack

variable {V X σ ε : Type} [DecidableEq V]

namespace Loop

/-- The full path of a state. -/
def fullPath (L : Loop V X σ ε) (st : State V X) : List V :=
  (List.range (L.last + 1).toNat).map st.currentPath

/-- Run up to the next full path that is accepted, and drop its last vertex. -/
def resume (L : Loop V X σ ε) (accept : List V → Bool) :
    Nat → State V X → Except (Halt ε) (State V X × Option (List V))
  | 0, _ => .error .outOfFuel
  | fuel + 1, st =>
    if L.stop < st.i then
      if st.i = L.last then
        if accept (L.fullPath st) then .ok (dropLeaf st, some (L.fullPath st))
        else L.resume accept fuel (L.advance (dropLeaf st))
      else L.resume accept fuel (L.advance st)
    else .ok (st, none)

/-- The loop, where a full path is handled by what the arrays hold. -/
def runWith (L : Loop V X σ ε) (leaf : σ → State V X → Except (Halt ε) σ) :
    Nat → State V X → σ → Except (Halt ε) (State V X × σ)
  | 0, _, _ => .error .outOfFuel
  | fuel + 1, st, s =>
    if L.stop < st.i then
      if st.i = L.last then do
        let s ← leaf s st
        L.runWith leaf fuel (L.advance (dropLeaf st)) s
      else L.runWith leaf fuel (L.advance st) s
    else .ok (st, s)

end Loop

/-- A leaf that writes down the paths that are accepted. -/
def recordIf (accept : List V → Bool) (acc : List (List V)) (path : List V) :
    Except (Halt ε) (List (List V)) :=
  .ok (if accept path then acc ++ [path] else acc)

omit [DecidableEq V] in
theorem foldlM_recordIf (accept : List V → Bool) (l acc : List (List V)) :
    l.foldlM (recordIf (ε := ε) accept) acc = .ok (acc ++ l.filter accept) := by
  induction l generalizing acc with
  | nil => simp; rfl
  | cons p l ih =>
    rw [List.foldlM_cons]
    show List.foldlM (recordIf accept) (if accept p then acc ++ [p] else acc) l = _
    rw [ih, List.filter_cons]
    split <;> simp

/-! ## Suspended searches -/

section Resume

variable {L : Loop V X (List (List V)) ε} {accept : List V → Bool}

/-- More fuel does not matter. -/
theorem resume_mono {fuel k : Nat} {st : State V X} {r : State V X × Option (List V)}
    (h : L.resume accept fuel st = .ok r) (hk : fuel ≤ k) : L.resume accept k st = .ok r := by
  induction fuel generalizing k st with
  | zero => exact absurd h (by simp [Loop.resume])
  | succ fuel ih =>
    obtain ⟨k, rfl⟩ : ∃ k', k = k' + 1 := ⟨k - 1, by omega⟩
    rw [Loop.resume] at h ⊢
    split_ifs at h ⊢
    · exact h
    · exact ih h (by omega)
    · exact ih h (by omega)
    · exact h

theorem resume_converges {fuel : Nat} {st : State V X} {r : State V X × Option (List V)}
    (h : L.resume accept fuel st = .ok r) : Converges (fun k => L.resume accept k st) (.ok r) :=
  ⟨fuel, fun _ hk => resume_mono h hk⟩

/-- The calls return these paths one after another, and then none. -/
def Yields (L : Loop V X (List (List V)) ε) (accept : List V → Bool) :
    State V X → List (List V) → Prop
  | st, [] => ∃ st₁, Converges (fun k => L.resume accept k st) (.ok (st₁, none))
  | st, p :: ps => ∃ st₁, Converges (fun k => L.resume accept k st) (.ok (st₁, some p)) ∧
      Yields L accept st₁ ps

/-- A state from which the loop goes on like from another one. -/
theorem Yields.of_next {st st₁ : State V X} {ps : List (List V)} (h : Yields L accept st₁ ps)
    (hnext : ∀ k, L.resume accept (k + 1) st = L.resume accept k st₁) : Yields L accept st ps := by
  cases ps with
  | nil =>
    obtain ⟨st₂, hr⟩ := h
    exact ⟨st₂, .succ (hr.congr fun k => (hnext k).symm)⟩
  | cons p ps =>
    obtain ⟨st₂, hr, hrest⟩ := h
    exact ⟨st₂, .succ (hr.congr fun k => (hnext k).symm), hrest⟩

theorem Yields.of_advance {st : State V X} {ps : List (List V)}
    (h : Yields L accept (L.advance st) ps) (h1 : L.stop < st.i) (h2 : st.i ≠ L.last) :
    Yields L accept st ps :=
  h.of_next fun k => by rw [Loop.resume, if_pos h1, if_neg h2]

/-- The search only writes down more. -/
theorem run_prefix (hleaf : L.leaf = recordIf accept) {fuel : Nat} {st st' : State V X}
    {acc r : List (List V)} (h : L.run fuel st acc = .ok (st', r)) : acc <+: r := by
  induction fuel generalizing st acc with
  | zero => exact absurd h (by simp [Loop.run])
  | succ fuel ih =>
    rw [Loop.run] at h
    split_ifs at h with h1 h2
    · rw [hleaf, recordIf, ok_bind] at h
      have hp := ih h
      split at hp
      · exact (List.prefix_append acc _).trans hp
      · exact hp
    · exact ih h
    · obtain ⟨-, rfl⟩ := Prod.mk.inj (Except.ok.inj h)
      exact List.prefix_refl acc

/-- **The calls return the paths that the search writes down**, in their order. -/
theorem yields_of_run (hleaf : L.leaf = recordIf accept) (hlast : L.stop + 1 < L.last) {fuel : Nat}
    {st st' : State V X} {acc ps : List (List V)}
    (h : L.run fuel st acc = .ok (st', acc ++ ps)) : Yields L accept st ps := by
  induction fuel generalizing st acc ps with
  | zero => exact absurd h (by simp [Loop.run])
  | succ fuel ih =>
    rw [Loop.run] at h
    split_ifs at h with h1 h2
    · -- a full path, and the rest of the turn at the path before it
      have hdrop : L.stop < (Loop.dropLeaf st).i ∧ (Loop.dropLeaf st).i ≠ L.last := by
        simp only [Loop.dropLeaf]
        omega
      rw [hleaf, recordIf, ok_bind] at h
      by_cases hacc : accept (L.fullPath st) = true
      · have hpath : accept ((List.range (L.last + 1).toNat).map st.currentPath) = true := hacc
        rw [if_pos hpath] at h
        obtain ⟨ps', hps⟩ := run_prefix hleaf h
        rw [List.append_assoc] at hps
        obtain rfl := List.append_cancel_left hps
        rw [← hps] at h
        rw [← List.append_assoc] at h
        refine ⟨Loop.dropLeaf st, resume_converges (show L.resume accept 1 st = _ from ?_),
          (ih h).of_advance hdrop.1 hdrop.2⟩
        rw [Loop.resume, if_pos h1, if_pos h2, if_pos hacc]
        rfl
      · have hpath : ¬ accept ((List.range (L.last + 1).toNat).map st.currentPath) = true := hacc
        rw [if_neg hpath] at h
        refine (ih h).of_next fun k => ?_
        rw [Loop.resume, if_pos h1, if_pos h2, if_neg hacc]
    · exact (ih h).of_advance h1 h2
    · obtain ⟨-, hps⟩ := Prod.mk.inj (Except.ok.inj h)
      obtain rfl := List.self_eq_append_right.mp hps
      refine ⟨st, resume_converges (show L.resume accept 1 st = _ from ?_)⟩
      rw [Loop.resume, if_neg h1]

end Resume

/-! ## Searches that handle the arrays -/

section RunWith

variable {L : Loop V X σ ε} {AuxOk : List V → X → Prop} {rest : List V → Nat → List V}

/-- A turn takes a state that represents a path to another one. -/
theorem rep_advance (hL : Faithful L AuxOk rest) {st : State V X} {v : V} {p : List V}
    (h : Rep AuxOk (v :: p) st) (h1 : L.stop < st.i) (h2 : st.i < L.last) :
    ∃ path, Rep AuxOk path (L.advance st) ∧ (path.length : Int) ≤ L.last + 1 := by
  have hlen := h.length_eq
  rw [Loop.advance, h.top]
  rcases hL.scan st v p h h1 h2 with ⟨u, k, hs, hu, hrest⟩ | ⟨k, hs, -⟩
  · rw [hs]
    refine ⟨_, rep_push hL h hu hrest, ?_⟩
    simp only [List.length_cons]
    omega
  · rw [hs]
    exact ⟨p, rep_pop hL h, by omega⟩

/-- **What is read from the arrays at a full path is read from the path.** -/
theorem runWith_eq (hL : Faithful L AuxOk rest) (hstop : -1 ≤ L.stop) (hlast : L.stop + 1 < L.last)
    {leaf : σ → State V X → Except (Halt ε) σ} {leaf' : σ → List V → Except (Halt ε) σ}
    (hleaf : ∀ path st s, Rep AuxOk path st → st.i = L.last → leaf s st = leaf' s path.reverse)
    {path : List V} {st : State V X} (h : Rep AuxOk path st)
    (hi : (path.length : Int) ≤ L.last + 1) (fuel : Nat) (s : σ) :
    L.runWith leaf fuel st s = Loop.run { L with leaf := leaf' } fuel st s := by
  induction fuel generalizing path st s with
  | zero => rfl
  | succ fuel ih =>
    change (if L.stop < st.i then if st.i = L.last then _ else _ else _) =
      if L.stop < st.i then if st.i = L.last then _ else _ else _
    by_cases h1 : L.stop < st.i
    · obtain ⟨v, p, rfl⟩ := List.exists_cons_of_ne_nil (l := path) (by
        rintro rfl
        have := h.depth
        simp only [List.length_nil] at this
        omega)
      have hlen := h.length_eq
      rw [if_pos h1, if_pos h1]
      by_cases h2 : st.i = L.last
      · have hp : (List.range (L.last + 1).toNat).map st.currentPath = (v :: p).reverse := by
          rw [← h.slots, ← h2, hlen]
          rfl
        rw [if_pos h2, if_pos h2, hleaf _ st s h h2, hp]
        refine bind_congr fun s' => ?_
        have hdrop := rep_dropLeaf hL h h2
        obtain ⟨w, q, rfl⟩ := List.exists_cons_of_ne_nil (l := p) (by
          rintro rfl
          simp only [List.length_nil] at hlen
          omega)
        obtain ⟨path', hrep, hle⟩ := rep_advance hL hdrop (by simp only [Loop.dropLeaf]; omega)
          (by simp only [Loop.dropLeaf]; omega)
        exact ih hrep hle s'
      · rw [if_neg h2, if_neg h2]
        simp only [List.length_cons] at hi
        obtain ⟨path', hrep, hle⟩ := rep_advance hL h h1 (by push_cast at hi; omega)
        exact ih hrep hle s
    · rw [if_neg h1, if_neg h1]

end RunWith

/-! ## Searches that start on a full path -/

section Boundary

variable {L : Loop V X σ ε} {AuxOk : List V → X → Prop} {rest : List V → Nat → List V}

/-- A turn at a full path. -/
theorem run_full {st : State V X} {path : List V} (h : Rep AuxOk path st) (h1 : L.stop < st.i)
    (h2 : st.i = L.last) (fuel : Nat) (s : σ) :
    L.run (fuel + 1) st s =
      L.leaf s path.reverse >>= L.run fuel (L.advance (Loop.dropLeaf st)) := by
  have hp : (List.range (L.last + 1).toNat).map st.currentPath = path.reverse := by
    rw [← h.slots, ← h2, h.depth]
    congr 2
    omega
  rw [Loop.run, if_pos h1, if_pos h2, hp]

/-- **The condition of the loop is not looked at between a full path and the next one**: where the
search starts on a full path, one vertex above its end, it goes on to the others. -/
theorem run_boundary (hL : Faithful { L with stop := L.stop - 1 } AuxOk rest)
    (hlast : L.last = L.stop + 1) {v : V} {p : List V} (todo : List V) : ∀ (w : V) (st : State V X),
    Rep AuxOk (w :: v :: p) st → st.i = L.last → rest (v :: p) (st.inds v) = todo →
      ∃ m st', Rep AuxOk p st' ∧ ∀ fuel s, L.run (fuel + m) st s =
        ((w :: todo).map fun u => (u :: v :: p).reverse).foldlM L.leaf s >>= L.run fuel st' := by
  induction todo with
  | nil =>
    intro w st h hi htodo
    have hdrop := rep_dropLeaf hL h hi
    have hd : (Loop.dropLeaf st).i = st.i - 1 := rfl
    rcases hL.scan _ v p hdrop (by simp only [hd]; omega) (by simp only [hd]; omega) with
      ⟨u, k, -, -, he⟩ | ⟨k, hscan, -⟩
    · exact absurd (htodo.symm.trans he) (by simp)
    · refine ⟨1, L.popState (Loop.dropLeaf st) v k, rep_pop hL hdrop, fun fuel s => ?_⟩
      have hadv : L.advance (Loop.dropLeaf st) = L.popState (Loop.dropLeaf st) v k := by
        rw [Loop.advance, hdrop.top, show L.scan (Loop.dropLeaf st) v = (none, k) from hscan]
      rw [run_full h (by omega) hi, hadv, List.map_singleton, List.foldlM_cons]
      simp only [List.foldlM_nil, bind_assoc, pure_bind]
  | cons u todo ih =>
    intro w st h hi htodo
    have hdrop := rep_dropLeaf hL h hi
    have hd : (Loop.dropLeaf st).i = st.i - 1 := rfl
    obtain ⟨k, hadv, hu, hk⟩ := scan_cons hL hdrop (by simp only [hd]; omega)
      (by simp only [hd]; omega) htodo
    have hadv' : L.advance (Loop.dropLeaf st) = L.pushState (Loop.dropLeaf st) v u k := hadv
    obtain ⟨m, st', hst', hrun⟩ := ih u _ (rep_push hL (k := k) hdrop hu htodo)
      (by simp only [Loop.pushState, hd]; omega) (by simpa [Loop.pushState] using hk)
    refine ⟨m + 1, st', hst', fun fuel s => ?_⟩
    rw [← Nat.add_assoc, run_full h (by omega) hi, hadv', List.map_cons, List.foldlM_cons,
      bind_assoc]
    exact bind_congr fun s' => hrun fuel s'

end Boundary

end SymBreak.Backtrack
