import SymBreak.Uhg.UHGSearch
import Mathlib.Data.Finset.Max
import Mathlib.Data.List.Permutation

/-!
# Symmetry breaking

`symmetryBreaking()` (`UHGSearch.java:85-100`) posts a lex constraint for every permutation of the
dihedral group of the cycle `0, 1, …, n - 1`: the upper triangle of the graph, row after row, is at
most that of its image.

Results:
* `mem_dihedralGroupPermutations`: the permutations are the turns and the flips of the cycle;
* `isHamCycle_of_mem`, `mem_of_sameCycle`: they are the rearrangements of the vertices that run
  along the cycle;
* `nodup_dihedralGroupPermutations`, `mem_iff_mapsCycleEdges`, `compose_mem`, `exists_inverse`:
  there are `2n`, they are all automorphisms of the cycle, and they are a group;
* `exists_representative`: the least relabelling that puts the Hamiltonian cycle on `0, 1, …, n - 1`
  satisfies the constraints;
* `eq_of_isomorphic`: isomorphic solutions are equal;
* **`symmetryBreaking_exact`**: the search finds exactly one graph of every isomorphism class.
-/

namespace SymBreak.Uhg

open Hamilton Graph Matrix

variable {n : Nat}

/-! ## Model -/

namespace Utils

/-- `dihedralGroupPermutations` (`Utils.java:8-23`) -/
def dihedralGroupPermutations (n : Nat) : List (List Nat) :=
  (List.range n).flatMap fun i =>
    [i :: (List.range' 1 (n - 1)).map fun j : Nat => mod (i + j) n,
      i :: (List.range' 1 (n - 1)).map fun j : Nat => mod (i - j) n]

end Utils

/-- `lexLessEq` of two arrays of Boolean variables, on their values. -/
def lexLessEq (vec1 vec2 : List Bool) : Prop := vec1 ≤ vec2

/-- The constraints of `symmetryBreaking` (`UHGSearch.java:85-100`) hold of a complete graph. -/
def symmetryBreaking (G : Graph n) : Prop :=
  ∀ p ∈ Utils.dihedralGroupPermutations n,
    lexLessEq ((allVars n).map fun e => G.adj e.1 e.2)
      ((allVars n).map fun e => G.adj (p.getD e.1 0) (p.getD e.2 0))

/-! ## The dihedral group -/

/-- `i + j` on the cycle. -/
def turn (n i j : Nat) : Nat := if i + j < n then i + j else i + j - n

/-- `i - j` on the cycle. -/
def flip (n i j : Nat) : Nat := if j ≤ i then i - j else i + n - j

theorem mod_add_eq_turn {i j : Nat} (hi : i < n) (hj : j < n) :
    Utils.mod (i + j) n = turn n i j := by
  unfold turn
  by_cases h : i + j < n
  · rw [if_pos h, Utils.mod_of_eq (k := i + j) (by omega) 0 (by omega), Nat.mod_eq_of_lt h]
  · rw [if_neg h, Utils.mod_of_eq (k := i + j - n) (by omega) 1 (by omega),
      Nat.mod_eq_of_lt (by omega)]

theorem mod_sub_eq_flip {i j : Nat} (hi : i < n) (hj : j < n) :
    Utils.mod (i - j) n = flip n i j := by
  unfold flip
  by_cases h : j ≤ i
  · rw [if_pos h, Utils.mod_of_eq (k := i - j) (by omega) 0 (by omega), Nat.mod_eq_of_lt (by omega)]
  · rw [if_neg h, Utils.mod_of_eq (k := i + n - j) (by omega) (-1) (by omega),
      Nat.mod_eq_of_lt (by omega)]

theorem dihedralGroupPermutations_eq (n : Nat) : Utils.dihedralGroupPermutations n =
    (List.range n).flatMap fun i =>
      [(List.range n).map (turn n i), (List.range n).map (flip n i)] := by
  refine List.flatMap_congr fun i hi => ?_
  rw [List.mem_range] at hi
  have hcons : ∀ f : Nat → Nat, (List.range n).map f = f 0 :: (List.range' 1 (n - 1)).map f :=
    fun f => by rw [range_eq_cons (by omega), List.map_cons]
  have hturn : turn n i 0 = i := by
    unfold turn
    rw [Nat.add_zero, if_pos hi]
  have hflip : flip n i 0 = i := by
    unfold flip
    rw [if_pos (Nat.zero_le i), Nat.sub_zero]
  rw [hcons, hcons, hturn, hflip]
  refine congrArg₂ (fun t f => [i :: t, i :: f]) (List.map_congr_left fun j hj => ?_)
    (List.map_congr_left fun j hj => ?_)
  · rw [List.mem_range'_1] at hj
    exact mod_add_eq_turn hi (by omega)
  · rw [List.mem_range'_1] at hj
    exact mod_sub_eq_flip hi (by omega)

/-- **The permutations** are the turns and the flips of the cycle. -/
theorem mem_dihedralGroupPermutations {q : List Nat} : q ∈ Utils.dihedralGroupPermutations n ↔
    ∃ i < n, q = (List.range n).map (turn n i) ∨ q = (List.range n).map (flip n i) := by
  rw [dihedralGroupPermutations_eq, List.mem_flatMap]
  simp only [List.mem_range, List.mem_pair]

/-- The numbering of the vertices runs along the cycle. -/
structure RunsAlong (n : Nat) (f : Nat → Nat) : Prop where
  lt : ∀ j < n, f j < n
  inj : ∀ j < n, ∀ k < n, f j = f k → j = k
  step : ∀ j, j + 1 < n → CycleEdge (List.range n) (f j) (f (j + 1))

theorem runsAlong_turn (hn : 3 ≤ n) {i : Nat} (hi : i < n) : RunsAlong n (turn n i) := by
  refine ⟨fun j hj => ?_, fun j hj k hk => ?_, fun j hj => ?_⟩
  · unfold turn
    split <;> omega
  · unfold turn
    split <;> split <;> omega
  · rw [cycleEdge_range hn]
    unfold turn
    split <;> split <;> omega

theorem runsAlong_flip (hn : 3 ≤ n) {i : Nat} (hi : i < n) : RunsAlong n (flip n i) := by
  refine ⟨fun j hj => ?_, fun j hj k hk => ?_, fun j hj => ?_⟩
  · unfold flip
    split <;> omega
  · unfold flip
    split <;> split <;> omega
  · rw [cycleEdge_range hn]
    unfold flip
    split <;> split <;> omega

/-- **The first two vertices determine the rest**: the next one is the neighbour that has not been.
-/
theorem RunsAlong.eq (hn : 3 ≤ n) {f g : Nat → Nat} (hf : RunsAlong n f) (hg : RunsAlong n g)
    (h0 : f 0 = g 0) (h1 : f 1 = g 1) (j : Nat) (hj : j + 1 < n) :
    f j = g j ∧ f (j + 1) = g (j + 1) := by
  induction j with
  | zero => exact ⟨h0, h1⟩
  | succ j ih =>
    obtain ⟨ih1, ih2⟩ := ih (by omega)
    refine ⟨ih2, ?_⟩
    have sf := (cycleEdge_range hn).mp (hf.step (j + 1) hj)
    have sg := (cycleEdge_range hn).mp (hg.step (j + 1) hj)
    have sj := (cycleEdge_range hn).mp (hf.step j (by omega))
    have bf : f (j + 1 + 1) ≠ f j := fun h => by
      have := hf.inj (j + 1 + 1) hj j (by omega) h
      omega
    have bg : g (j + 1 + 1) ≠ g j := fun h => by
      have := hg.inj (j + 1 + 1) hj j (by omega) h
      omega
    omega

theorem RunsAlong.map_eq (hn : 3 ≤ n) {f g : Nat → Nat} (hf : RunsAlong n f) (hg : RunsAlong n g)
    (h0 : f 0 = g 0) (h1 : f 1 = g 1) : (List.range n).map f = (List.range n).map g := by
  refine List.map_congr_left fun j hj => ?_
  rw [List.mem_range] at hj
  rcases Nat.lt_or_ge (j + 1) n with hj' | hj'
  · exact (hf.eq hn hg h0 h1 j hj').1
  · have := (hf.eq hn hg h0 h1 (j - 1) (by omega)).2
    rwa [Nat.sub_add_cancel (by omega)] at this

/-- It is a Hamiltonian cycle, when its ends are neighbours as well. -/
theorem RunsAlong.isHamCycle {G : Graph n} (hn : 3 ≤ n) (hG : G.ContainsCycle) {f : Nat → Nat}
    (hf : RunsAlong n f) (hwrap : CycleEdge (List.range n) (f 0) (f (n - 1))) :
    IsHamCycle G.Adj (List.range n) ((List.range n).map f) := by
  have hadj : ∀ a b, CycleEdge (List.range n) a b → G.Adj a b := fun a b h =>
    (isHamCycle_range (by omega) hG).rel (fun _ _ => Graph.Adj.symm) h
  refine (isHamCycle_iff (by omega)).mpr ⟨⟨?_, ?_⟩, ?_⟩
  · have hnd : ((List.range n).map f).Nodup := (List.nodup_map_iff_inj_on List.nodup_range).mpr
      fun j hj k hk h => hf.inj j (List.mem_range.mp hj) k (List.mem_range.mp hk) h
    refine (List.subperm_of_subset hnd fun v hv => ?_).perm_of_length_le (by simp)
    obtain ⟨j, hj, rfl⟩ := List.mem_map.mp hv
    exact List.mem_range.mpr (hf.lt j (List.mem_range.mp hj))
  · refine List.isChain_iff_getElem.mpr fun j hj => ?_
    rw [List.length_map, List.length_range] at hj
    simpa using hadj _ _ (hf.step j hj)
  · rw [List.getD_eq_getElem _ _ (by simp; omega), List.getD_eq_getElem _ _ (by simp; omega)]
    simpa using hadj _ _ hwrap

/-- **The permutations run along the cycle.** -/
theorem isHamCycle_of_mem {G : Graph n} (hn : 3 ≤ n) (hG : G.ContainsCycle) {q : List Nat}
    (hq : q ∈ Utils.dihedralGroupPermutations n) : IsHamCycle G.Adj (List.range n) q := by
  obtain ⟨i, hi, rfl | rfl⟩ := mem_dihedralGroupPermutations.mp hq
  · refine (runsAlong_turn hn hi).isHamCycle hn hG ?_
    rw [cycleEdge_range hn]
    unfold turn
    split <;> split <;> omega
  · refine (runsAlong_flip hn hi).isHamCycle hn hG ?_
    rw [cycleEdge_range hn]
    unfold flip
    split <;> split <;> omega

/-- They rearrange the vertices. -/
theorem perm_of_mem (hn : 3 ≤ n) {q : List Nat} (hq : q ∈ Utils.dihedralGroupPermutations n) :
    q.Perm (List.range n) :=
  (isHamCycle_of_mem hn ((cycleGraph_sub_iff hn).mp (Graph.Sub.refl _)) hq).1

/-- A permutation as the images of the vertices. -/
theorem map_image_range {p : List Nat} (hp : p.Perm (List.range n)) :
    (List.range n).map (image p) = p := by
  have hlen := length_of_perm_range hp
  refine List.ext_getElem (by rw [List.length_map, List.length_range, hlen]) fun i h1 h2 => ?_
  rw [List.getElem_map, List.getElem_range, image_of_lt h2]

/-- **A rearrangement that runs along the cycle is one of the permutations.** -/
theorem mem_of_sameCycle (hn : 3 ≤ n) {p : List Nat} (hp : p.Perm (List.range n))
    (h : SameCycle p (List.range n)) : p ∈ Utils.dihedralGroupPermutations n := by
  have hmap := map_image_range hp
  have hedge : ∀ a b, CycleEdge p (image p a) (image p b) ↔ CycleEdge (List.range n) a b := by
    have := fun a b => cycleEdge_map (image_injective hp) (c := List.range n) (a := a) (b := b)
    rwa [hmap] at this
  have hf : RunsAlong n (image p) :=
    ⟨fun j hj => image_lt hp le_rfl hj, fun j _ k _ h => image_injective hp h, fun j hj =>
      (h _ _).mp ((hedge j (j + 1)).mpr ((cycleEdge_range hn).mpr (Or.inl ⟨rfl, hj⟩)))⟩
  have h0 := hf.lt 0 (by omega)
  have hstart := (cycleEdge_range hn).mp (hf.step 0 (by omega))
  rw [Nat.zero_add] at hstart
  refine mem_dihedralGroupPermutations.mpr ⟨image p 0, h0, ?_⟩
  -- the direction in which it starts
  by_cases hdir : (image p 1 = image p 0 + 1 ∧ image p 1 < n) ∨ (image p 1 = 0 ∧ image p 0 = n - 1)
  · left
    refine hmap.symm.trans (hf.map_eq hn (runsAlong_turn hn h0) ?_ ?_)
    · unfold turn
      rw [Nat.add_zero, if_pos h0]
    · unfold turn
      split <;> omega
  · right
    refine hmap.symm.trans (hf.map_eq hn (runsAlong_flip hn h0) ?_ ?_)
    · unfold flip
      rw [if_pos (Nat.zero_le _), Nat.sub_zero]
    · unfold flip
      split <;> omega

/-! ## The group -/

/-- **There are `2n` permutations, all different.** -/
theorem nodup_dihedralGroupPermutations (hn : 3 ≤ n) :
    (Utils.dihedralGroupPermutations n).length = 2 * n ∧
      (Utils.dihedralGroupPermutations n).Nodup := by
  have hget : ∀ f g : Nat → Nat, (List.range n).map f = (List.range n).map g → ∀ j < n, f j = g j :=
    fun f g h j hj => List.map_inj_left.mp h j (List.mem_range.mpr hj)
  have hturn : ∀ i < n, turn n i 0 = i := fun i hi => by
    unfold turn
    split <;> omega
  have hflip : ∀ i < n, flip n i 0 = i := fun i hi => by
    unfold flip
    split <;> omega
  rw [dihedralGroupPermutations_eq]
  constructor
  · simp [List.length_flatMap, Nat.mul_comm]
  · rw [List.nodup_flatMap]
    refine ⟨fun i hi => ?_, List.nodup_range.imp_of_mem fun {a b} ha hb hab => ?_⟩
    · -- a turn and a flip from the same vertex differ at the next one
      rw [List.mem_range] at hi
      refine List.nodup_cons.mpr ⟨fun h => ?_, List.nodup_singleton _⟩
      have h1 := hget _ _ (List.mem_singleton.mp h) 1 (by omega)
      unfold turn flip at h1
      split at h1 <;> split at h1 <;> omega
    · rw [List.mem_range] at ha hb
      rw [Function.onFun, List.disjoint_left]
      intro l hl hl'
      rw [List.mem_pair] at hl hl'
      refine hab ?_
      rcases hl with rfl | rfl <;> rcases hl' with h | h
      · have h0 := hget _ _ h 0 (by omega)
        rwa [hturn a ha, hturn b hb] at h0
      · have h0 := hget _ _ h 0 (by omega)
        rwa [hturn a ha, hflip b hb] at h0
      · have h0 := hget _ _ h 0 (by omega)
        rwa [hflip a ha, hturn b hb] at h0
      · have h0 := hget _ _ h 0 (by omega)
        rwa [hflip a ha, hflip b hb] at h0

/-- Vertices are one apart iff they are neighbours on the cycle. -/
theorem cycleDist_eq_one_iff (hn : 3 ≤ n) {i j : Nat} (hi : i < n) (hj : j < n) :
    Utils.cycleDist i j n = 1 ↔ CycleEdge (List.range n) i j := by
  rw [cycleEdge_range hn]
  rcases Nat.lt_trichotomy i j with h | rfl | h
  · rw [Utils.cycleDist_eq_one hn h hj]
    omega
  · have hzero : Utils.mod ((i : Int) - i) n = 0 := by
      rw [Utils.mod_of_eq (k := 0) (by omega) 0 (by omega), Nat.zero_mod]
    rw [Utils.cycleDist, hzero]
    omega
  · rw [Utils.cycleDist, Nat.min_comm, ← Utils.cycleDist, Utils.cycleDist_eq_one hn h hi]
    omega

/-- `p` takes the edges of the cycle to edges of the cycle. -/
def MapsCycleEdges (n : Nat) (p : List Nat) : Prop :=
  ∀ i < n, ∀ j < n, Utils.cycleDist i j n = 1 → Utils.cycleDist (p.getD i 0) (p.getD j 0) n = 1

/-- On the cycle as a list of vertices. -/
theorem mapsCycleEdges_iff (hn : 3 ≤ n) {p : List Nat} (hp : p.Perm (List.range n)) :
    MapsCycleEdges n p ↔ ∀ i j, CycleEdge (List.range n) i j →
      CycleEdge (List.range n) (image p i) (image p j) := by
  have hget : ∀ i < n, p.getD i 0 = image p i := fun i hi => by
    have hlen := length_of_perm_range hp
    rw [image_of_lt (by omega), List.getD_eq_getElem _ _ (by omega)]
  have hlt : ∀ i < n, image p i < n := fun i hi => image_lt hp le_rfl hi
  constructor
  · intro h i j hij
    have hi := List.mem_range.mp hij.mem_left
    have hj := List.mem_range.mp hij.symm.mem_left
    have hdist := h i hi j hj ((cycleDist_eq_one_iff hn hi hj).mpr hij)
    rw [hget i hi, hget j hj] at hdist
    exact (cycleDist_eq_one_iff hn (hlt i hi) (hlt j hj)).mp hdist
  · intro h i hi j hj hij
    rw [hget i hi, hget j hj]
    exact (cycleDist_eq_one_iff hn (hlt i hi) (hlt j hj)).mpr
      (h i j ((cycleDist_eq_one_iff hn hi hj).mp hij))

/-- An edge of the cycle, taken along by a permutation. -/
theorem cycleEdge_image {p : List Nat} (hp : p.Perm (List.range n)) {i j : Nat} :
    CycleEdge p (image p i) (image p j) ↔ CycleEdge (List.range n) i j := by
  have h := cycleEdge_map (image_injective hp) (c := List.range n) (a := i) (b := j)
  rwa [map_image_range hp] at h

/-- As many edges go to as many edges, so none is missed. -/
theorem sameCycle_of_mapsCycleEdges (hn : 3 ≤ n) {p : List Nat} (hp : p.Perm (List.range n))
    (h : MapsCycleEdges n p) : SameCycle p (List.range n) := by
  rw [mapsCycleEdges_iff hn hp] at h
  refine sameCycle_of_edges hp (hp.nodup_iff.mpr List.nodup_range)
    (by rw [length_of_perm_range hp]; exact hn) fun a b hab => ?_
  obtain ⟨i, -, rfl⟩ := exists_image hp le_rfl
    (List.mem_range.mp (hp.mem_iff.mp hab.mem_left))
  obtain ⟨j, -, rfl⟩ := exists_image hp le_rfl
    (List.mem_range.mp (hp.mem_iff.mp hab.symm.mem_left))
  exact h i j ((cycleEdge_image hp).mp hab)

/-- **The permutations are the automorphisms of the cycle.** -/
theorem mem_iff_mapsCycleEdges (hn : 3 ≤ n) {p : List Nat} :
    p ∈ Utils.dihedralGroupPermutations n ↔ p.Perm (List.range n) ∧ MapsCycleEdges n p := by
  constructor
  · intro h
    have hp := perm_of_mem hn h
    refine ⟨hp, (mapsCycleEdges_iff hn hp).mpr fun a b hab => ?_⟩
    have ha := List.mem_range.mp hab.mem_left
    have hb := List.mem_range.mp hab.symm.mem_left
    rw [cycleEdge_range hn] at hab ⊢
    obtain ⟨i, hi, rfl | rfl⟩ := mem_dihedralGroupPermutations.mp h
    · rw [image_map_range ha, image_map_range hb]
      unfold turn
      split <;> split <;> omega
    · rw [image_map_range ha, image_map_range hb]
      unfold flip
      split <;> split <;> omega
  · rintro ⟨hp, h⟩
    exact mem_of_sameCycle hn hp (sameCycle_of_mapsCycleEdges hn hp h)

/-- They are closed under composition. -/
theorem compose_mem (hn : 3 ≤ n) {p q : List Nat} (hp : p ∈ Utils.dihedralGroupPermutations n)
    (hq : q ∈ Utils.dihedralGroupPermutations n) :
    compose n p q ∈ Utils.dihedralGroupPermutations n := by
  rw [mem_iff_mapsCycleEdges hn] at hp hq ⊢
  obtain ⟨hp, hpe⟩ := hp
  obtain ⟨hq, hqe⟩ := hq
  have hperm := compose_perm hp le_rfl hq le_rfl
  rw [mapsCycleEdges_iff hn hp] at hpe
  rw [mapsCycleEdges_iff hn hq] at hqe
  refine ⟨hperm, (mapsCycleEdges_iff hn hperm).mpr fun i j hij => ?_⟩
  rw [image_compose (List.mem_range.mp hij.mem_left),
    image_compose (List.mem_range.mp hij.symm.mem_left)]
  exact hpe _ _ (hqe _ _ hij)

/-- ... and every one of them has its inverse among them. -/
theorem exists_inverse (hn : 3 ≤ n) {p : List Nat} (hp : p ∈ Utils.dihedralGroupPermutations n) :
    ∃ q ∈ Utils.dihedralGroupPermutations n,
      compose n p q = List.range n ∧ compose n q p = List.range n := by
  obtain ⟨hperm, hmaps⟩ := (mem_iff_mapsCycleEdges hn).mp hp
  choose! f hf hpf using fun i (hi : i < n) => exists_image hperm le_rfl hi
  have hfp : ∀ i < n, f (image p i) = i := fun i hi =>
    image_injective hperm (hpf _ (image_lt hperm le_rfl hi))
  have hq : ((List.range n).map f).Perm (List.range n) :=
    (perm_range_iff (by simp)).mpr fun c hc =>
      ⟨image p c, image_lt hperm le_rfl hc, by
        rw [image_map_range (image_lt hperm le_rfl hc), hfp c hc]⟩
  have hid : ∀ g : Nat → Nat, (∀ i < n, g i = i) → (List.range n).map g = List.range n :=
    fun g hg => (List.map_congr_left fun i hi => hg i (List.mem_range.mp hi)).trans (List.map_id' _)
  refine ⟨(List.range n).map f, (mem_iff_mapsCycleEdges hn).mpr ⟨hq, ?_⟩,
    hid _ fun i hi => ?_, hid _ fun i hi => ?_⟩
  · refine (mapsCycleEdges_iff hn hq).mpr fun i j hij => ?_
    have hi := List.mem_range.mp hij.mem_left
    have hj := List.mem_range.mp hij.symm.mem_left
    rw [image_map_range hi, image_map_range hj, ← cycleEdge_image hperm, hpf i hi, hpf j hj]
    exact (sameCycle_of_mapsCycleEdges hn hperm hmaps i j).mpr hij
  · rw [image_map_range hi, hpf i hi]
  · rw [image_map_range (image_lt hperm le_rfl hi), hfp i hi]

/-- **`dihedralGroupPermutations`** returns `2n` different permutations, the automorphisms of the
cycle, and these are a group. -/
theorem dihedralGroupPermutations_exact (hn : 3 ≤ n) :
    (Utils.dihedralGroupPermutations n).length = 2 * n ∧
    (Utils.dihedralGroupPermutations n).Nodup ∧
    (∀ p, p ∈ Utils.dihedralGroupPermutations n ↔ p.Perm (List.range n) ∧ MapsCycleEdges n p) ∧
    (∀ p ∈ Utils.dihedralGroupPermutations n, ∀ q ∈ Utils.dihedralGroupPermutations n,
      compose n p q ∈ Utils.dihedralGroupPermutations n) ∧
    ∀ p ∈ Utils.dihedralGroupPermutations n, ∃ q ∈ Utils.dihedralGroupPermutations n,
      compose n p q = List.range n ∧ compose n q p = List.range n :=
  ⟨(nodup_dihedralGroupPermutations hn).1, (nodup_dihedralGroupPermutations hn).2,
    fun _ => mem_iff_mapsCycleEdges hn, fun _ hp _ hq => compose_mem hn hp hq,
    fun _ hp => exists_inverse hn hp⟩

theorem dihedralGroupPermutations_exact_four : ∃ q ∈ Utils.dihedralGroupPermutations 4,
    compose 4 [1, 2, 3, 0] q = List.range 4 ∧ compose 4 q [1, 2, 3, 0] = List.range 4 :=
  (dihedralGroupPermutations_exact (n := 4) (by decide)).2.2.2.2 [1, 2, 3, 0] (by decide)

/-! ## Relabellings -/

/-- **A graph with exactly one Hamiltonian cycle.** -/
def UniquelyHamiltonian (H : Graph n) : Prop :=
  ∃ c, IsHamCycle H.Adj (List.range n) c ∧
    ∀ d, IsHamCycle H.Adj (List.range n) d → SameCycle d c

/-- A Hamiltonian cycle of a relabelled graph. -/
theorem isHamCycle_permute {H : Graph n} {p c : List Nat} (hp : p.Perm (List.range n))
    (h : IsHamCycle (H.permute p).Adj (List.range n) c) :
    IsHamCycle H.Adj (List.range n) (c.map (image p)) := by
  refine h.map (fun a b hab => ?_) (by rw [map_image_range hp]; exact hp)
  have hadj : (H.permute p).adj a b = true := hab
  rw [H.permute_adj p ((H.permute p).bound a b hadj) ((H.permute p).lt_right hadj)] at hadj
  exact hadj

/-- **Labelled along its Hamiltonian cycle**, a uniquely Hamiltonian graph is one that the search
looks for. -/
theorem uniqueHamCycle_permute (hn : 3 ≤ n) {H : Graph n} {p : List Nat}
    (hp : IsHamCycle H.Adj (List.range n) p)
    (huniq : ∀ d, IsHamCycle H.Adj (List.range n) d → SameCycle d p) :
    UniqueHamCycle (H.permute p) := by
  have hperm := hp.1
  have hmap := map_image_range hperm
  have hinj := image_injective hperm
  refine ⟨fun i hi => ?_, fun c hc => ?_⟩
  · have hlt : (i + 1) % n < n := Nat.mod_lt _ (by omega)
    have hedge : CycleEdge (List.range n) i ((i + 1) % n) := by
      rw [cycleEdge_range hn]
      rcases Nat.lt_or_ge (i + 1) n with h | h
      · rw [Nat.mod_eq_of_lt h]
        omega
      · obtain rfl : n = i + 1 := by omega
        rw [Nat.mod_self]
        omega
    have := (cycleEdge_map hinj).mpr hedge
    rw [hmap] at this
    unfold Graph.Adj
    rw [H.permute_adj p hi hlt]
    exact hp.rel (fun _ _ => Graph.Adj.symm) this
  · have := huniq _ (isHamCycle_permute hperm hc)
    exact SameCycle.of_map hinj (by rwa [hmap])

/-- A graph that the search looks for, relabelled by one of the permutations. -/
theorem UniqueHamCycle.permute (hn : 3 ≤ n) {G : Graph n} (hG : UniqueHamCycle G) {q : List Nat}
    (hq : q ∈ Utils.dihedralGroupPermutations n) : UniqueHamCycle (G.permute q) := by
  have hham := isHamCycle_of_mem hn hG.1 hq
  exact uniqueHamCycle_permute hn hham fun d hd => (hG.2 d hd).trans (hG.2 q hham).symm

theorem UniqueHamCycle.uniquelyHamiltonian (hn : 3 ≤ n) {G : Graph n} (hG : UniqueHamCycle G) :
    UniquelyHamiltonian G :=
  ⟨List.range n, isHamCycle_range (by omega) hG.1, hG.2⟩

/-- A relabelling between two graphs that the search looks for is one of the permutations. -/
theorem mem_of_permute (hn : 3 ≤ n) {G : Graph n} {p : List Nat} (hp : p.Perm (List.range n))
    (hG : UniqueHamCycle G) (hG' : UniqueHamCycle (G.permute p)) :
    p ∈ Utils.dihedralGroupPermutations n := by
  have h := isHamCycle_permute hp (isHamCycle_range (by omega) hG'.1)
  rw [map_image_range hp] at h
  exact mem_of_sameCycle hn hp (hG.2 p h)

/-! ## The constraints -/

/-- **The constraints** compare the string of the graph with those of its images. -/
theorem symmetryBreaking_iff (hn : 3 ≤ n) {G : Graph n} : symmetryBreaking G ↔
    ∀ p ∈ Utils.dihedralGroupPermutations n,
      G.string .upperTriangleRows ≤ (G.permute p).string .upperTriangleRows := by
  refine forall₂_congr fun p hp => ?_
  have hperm := perm_of_mem hn hp
  have hlen := length_of_perm_range hperm
  have hvec : ((allVars n).map fun e => G.adj (p.getD e.1 0) (p.getD e.2 0)) =
      (G.permute p).string .upperTriangleRows := by
    rw [string_eq]
    refine List.map_congr_left fun e he => ?_
    obtain ⟨h1, h2, -⟩ := bounds_of_mem he
    rw [G.permute_adj p h1 h2, image_of_lt (by omega), image_of_lt (by omega),
      List.getD_eq_getElem _ _ (by omega), List.getD_eq_getElem _ _ (by omega)]
  unfold lexLessEq
  rw [hvec, string_eq _ G]
  rfl

/-- Graphs with one string are equal. -/
theorem eq_of_string {G H : Graph n}
    (h : G.string .upperTriangleRows = H.string .upperTriangleRows) : G = H := by
  rw [string_eq, string_eq, List.map_inj_left] at h
  have key : ∀ i j, i < j → j < n → G.adj i j = H.adj i j := fun i j hij hj =>
    h (i, j) (Matrix.mem_upperPairs.mpr ⟨hij, hj⟩)
  refine Graph.ext_of_lt fun i j hi hj => ?_
  rcases Nat.lt_trichotomy i j with hij | rfl | hij
  · exact key i j hij hj
  · rw [G.irrefl, H.irrefl]
  · rw [G.symm, key j i hij hi, H.symm]

/-- **Every uniquely Hamiltonian graph has a representative**: the least of its relabellings along
the Hamiltonian cycle. -/
theorem exists_representative (hn : 3 ≤ n) {H : Graph n} (hH : UniquelyHamiltonian H) :
    ∃ G : Graph n, Isomorphic H G ∧ UniqueHamCycle G ∧ symmetryBreaking G := by
  classical
  obtain ⟨c, hc, huniq⟩ := hH
  let S := (List.range n).permutations.toFinset.filter fun p => UniqueHamCycle (H.permute p)
  have hmem : ∀ p, p ∈ S ↔ p.Perm (List.range n) ∧ UniqueHamCycle (H.permute p) := fun p => by
    rw [Finset.mem_filter, List.mem_toFinset, List.mem_permutations]
  obtain ⟨p, hp, hmin⟩ := S.exists_min_image (fun p => (H.permute p).string .upperTriangleRows)
    ⟨c, (hmem c).mpr ⟨hc.1, uniqueHamCycle_permute hn hc huniq⟩⟩
  obtain ⟨hperm, hG⟩ := (hmem p).mp hp
  have hiso := permute_isomorphic H hperm le_rfl
  refine ⟨H.permute p, hiso, hG, (symmetryBreaking_iff hn).mpr fun q hq => ?_⟩
  have hq' := (isHamCycle_of_mem hn hG.1 hq).1
  obtain ⟨r, hr, he⟩ := isomorphic_iff.mp (hiso.trans (permute_isomorphic (H.permute p) hq' le_rfl))
  have := hG.permute hn hq
  rw [he] at this ⊢
  exact hmin r ((hmem r).mpr ⟨hr, this⟩)

/-- **Isomorphic solutions are equal.** -/
theorem eq_of_isomorphic (hn : 3 ≤ n) {G H : Graph n} (hG : UniqueHamCycle G)
    (hG' : symmetryBreaking G) (hH : UniqueHamCycle H) (hH' : symmetryBreaking H)
    (h : Isomorphic G H) : G = H := by
  have hle : ∀ {A B : Graph n}, UniqueHamCycle A → symmetryBreaking A → UniqueHamCycle B →
      Isomorphic A B → A.string .upperTriangleRows ≤ B.string .upperTriangleRows := by
    intro A B hA hA' hB hAB
    obtain ⟨p, hp, rfl⟩ := isomorphic_iff.mp hAB
    exact (symmetryBreaking_iff hn).mp hA' p (mem_of_permute hn hp hA hB)
  exact eq_of_string (le_antisymm (hle hG hG' hH h) (hle hH hH' hG h.symm))

/-- **The search with symmetry breaking** finds exactly one graph of every isomorphism class of
uniquely Hamiltonian graphs: its solutions are uniquely Hamiltonian, every such graph is isomorphic
to one of them, and different solutions are not isomorphic. -/
theorem symmetryBreaking_exact (hn : 3 ≤ n) (P : Propagator) :
    ∃ g, fixHamCycle n = .ok g ∧ ∀ s, Run P symmetryBreaking (.start g) s →
      (∃ s', Run P symmetryBreaking s s' ∧ s'.Finished) ∧
      (s.Finished →
        (∀ G ∈ s.solutions, UniquelyHamiltonian G) ∧
        (∀ H : Graph n, UniquelyHamiltonian H → ∃ G ∈ s.solutions, Isomorphic H G) ∧
        ∀ G ∈ s.solutions, ∀ G' ∈ s.solutions, Isomorphic G G' → G = G') := by
  obtain ⟨g, hg, h⟩ := search_exact hn P symmetryBreaking
  refine ⟨g, hg, fun s hs => ?_⟩
  obtain ⟨-, -, hfin, hexact⟩ := h s hs
  refine ⟨hfin, fun hf => ⟨fun G hG => ?_, fun H hH => ?_, fun G hG G' hG' hiso => ?_⟩⟩
  · exact ((hexact hf G).mp hG).1.uniquelyHamiltonian hn
  · obtain ⟨G, hiso, hG, hsym⟩ := exists_representative hn hH
    exact ⟨G, (hexact hf G).mpr ⟨hG, hsym⟩, hiso⟩
  · obtain ⟨h1, h2⟩ := (hexact hf G).mp hG
    obtain ⟨h3, h4⟩ := (hexact hf G').mp hG'
    exact eq_of_isomorphic hn h1 h2 h3 h4 hiso

/-- Some run for three vertices finishes, with one graph of every class. -/
theorem symmetryBreaking_exact_three : ∃ (g : UnknownGraph 3) (s : SearchState 3),
    fixHamCycle 3 = .ok g ∧ Run .PropOptimized symmetryBreaking (.start g) s ∧ s.Finished ∧
      (∀ H : Graph 3, UniquelyHamiltonian H → ∃ G ∈ s.solutions, Isomorphic H G) ∧
      ∀ G ∈ s.solutions, ∀ G' ∈ s.solutions, Isomorphic G G' → G = G' := by
  obtain ⟨g, hg, h⟩ := symmetryBreaking_exact (n := 3) (by decide) .PropOptimized
  obtain ⟨⟨s, hrun, hfin⟩, -⟩ := h _ Relation.ReflTransGen.refl
  obtain ⟨-, h2, h3⟩ := (h s hrun).2 hfin
  exact ⟨g, s, hg, hrun, hfin, h2, h3⟩

end SymBreak.Uhg
