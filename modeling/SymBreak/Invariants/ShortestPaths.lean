import SymBreak.Invariants.Generation
import Mathlib.Combinatorics.SimpleGraph.Metric

/-!
# Shortest paths

Model of `encode_shortest_paths` (`pair_invariants.pl:525-600`): a variable for every pair `I < J`
and every length `L`, and constraints that make it say that `J` is within `L` steps of `I`. The
constraints of a pair refer to variables of pairs that come later, so no order of the keys
determines them one by one: they are determined length by length.

Results:
* `edist_le_succ_iff`: the last step of a short walk;
* `turn_spec`: what the constraints of one key say;
* `levels_determined`: the lengths, one after another;
* **`shortestPaths_exact`**: the constraints have one solution, and it holds the distances.
-/

namespace SymBreak.ShortestPaths

open Declare Bee Invariants PairInvariants

/-! ## Model -/

/-- The key `p(I,J,L)`. -/
abbrev Key := Nat × Nat × Nat

/-- The keys, in order (`pair_invariants.pl:572-580`). -/
def keys (n : Nat) : List Key :=
  (between 1 n).flatMap fun i => ((between i n).filter (i < ·)).flatMap fun j =>
    (between 1 (n - 1)).map fun k => (i, j, k)

/-- `map_create(N, Map)` (`pair_invariants.pl:572-583`): a fresh variable for every key. An
association list in the order of the keys stands for the tree of `list_to_assoc`. -/
def mapCreate (n : Nat) : Post Constraint (List (Key × Term)) :=
  (keys n).mapM fun key => do
    let x ← fresh
    return (key, .var x)

/-- `map_get_value(p(I,J,K), Map, X)` (`pair_invariants.pl:586-589`) -/
def mapGetValue (key : Key) (map : List (Key × Term)) : Option Term :=
  map.lookup (min key.1 key.2.1, max key.1 key.2.1, key.2.2)

section Model

variable (aux : Auxs)

/-- `paths_reifs(Paths, AdjMatrix, Map, Ts)` (`pair_invariants.pl:553-558`) -/
def pathsReifs (paths : List (Key × Nat × Nat)) (adjMatrix : Rows) (map : List (Key × Term)) :
    Post Constraint (List Term) :=
  paths.mapM fun path => do
    let pikl ← mapGetValue path.1 map
    let ekj ← aux.matrixGetCell adjMatrix path.2.1 path.2.2
    define (.boolArrayAndReif [pikl, ekj])

/-- The clauses of `encode_shortest_paths_iter` for one key (`pair_invariants.pl:535-550`). -/
def encodeKey (adjMatrix : Rows) (map : List (Key × Term)) (key : Key) : Post Constraint Unit :=
  let (i, j, l) := key
  if l = 1 then do
    let x ← mapGetValue (i, j, 1) map
    let eij ← aux.matrixGetCell adjMatrix i j
    post (.boolArrayOr [.neg x, eij])
    post (.boolArrayOr [x, .neg eij])
  else do
    let l1 := l - 1
    let paths := ((between 1 adjMatrix.length).filter fun k => k ≠ i ∧ k ≠ j).map fun k =>
      ((i, k, l1), k, j)
    let ts ← pathsReifs aux paths adjMatrix map
    let pijl1 ← mapGetValue (i, j, l1) map
    let pijl ← mapGetValue (i, j, l) map
    post (.boolArrayOrReif (pijl1 :: ts) pijl)

/-- `encode_shortest_paths(AdjMatrix, Map)` (`pair_invariants.pl:525-533`) -/
def encodeShortestPaths (adjMatrix : Rows) : Post Constraint (List (Key × Term)) := do
  let map ← mapCreate adjMatrix.length
  (map.map Prod.fst).forM (encodeKey aux adjMatrix map)
  return map

end Model

/-! ## Distances -/

/-- **The last step** of a walk of at most `l + 1` edges. -/
theorem edist_le_succ_iff {V : Type*} {G : SimpleGraph V} {u v : V} {l : Nat} :
    G.edist u v ≤ (l + 1 : Nat) ↔ G.edist u v ≤ l ∨ ∃ k, G.edist u k ≤ l ∧ G.Adj k v := by
  constructor
  · intro h
    obtain ⟨p, hp⟩ := SimpleGraph.exists_walk_of_edist_ne_top
      (ne_top_of_le_ne_top (ENat.natCast_ne_top _) h)
    have hlen : p.length ≤ l + 1 := by
      rw [← hp] at h
      exact_mod_cast h
    cases hrev : p.reverse with
    | nil => exact Or.inl (by simp)
    | @cons _ k _ hadj q =>
      refine Or.inr ⟨k, ?_, hadj.symm⟩
      have hq : q.length + 1 = p.length := by
        rw [← SimpleGraph.Walk.length_reverse p, hrev, SimpleGraph.Walk.length_cons]
      refine (SimpleGraph.edist_le q.reverse).trans ?_
      rw [SimpleGraph.Walk.length_reverse]
      exact_mod_cast (by omega : q.length ≤ l)
  · rintro (h | ⟨k, h, hadj⟩)
    · exact h.trans (by exact_mod_cast Nat.le_succ l)
    · calc G.edist u v ≤ G.edist u k + G.edist k v := SimpleGraph.edist_triangle
        _ ≤ l + 1 := add_le_add h (SimpleGraph.edist_eq_one_iff_adj.mpr hadj).le
        _ = (l + 1 : Nat) := by push_cast; rfl

/-- `j` is at most `l` steps away from `i`. -/
def within {n : Nat} (G : Graph n) : Nat → Nat → Nat → Bool
  | 0, i, j => i == j
  | l + 1, i, j => within G l i j || (List.range n).any fun k => within G l i k && G.adj k j

variable {n : Nat} {G : Graph n}

theorem within_iff (l : Nat) (i j : Fin n) :
    within G l i j = true ↔ G.toSimple.edist i j ≤ l := by
  induction l generalizing j with
  | zero =>
    rw [within, beq_iff_eq, Nat.cast_zero, nonpos_iff_eq_zero, SimpleGraph.edist_eq_zero_iff,
      Fin.val_inj]
  | succ l ih =>
    rw [within, Bool.or_eq_true, edist_le_succ_iff, ih, List.any_eq_true]
    refine or_congr_right ⟨?_, ?_⟩
    · rintro ⟨k, hk, h⟩
      rw [Bool.and_eq_true] at h
      exact ⟨⟨k, List.mem_range.mp hk⟩, (ih ⟨k, List.mem_range.mp hk⟩).mp h.1, h.2⟩
    · rintro ⟨k, h, hadj⟩
      exact ⟨k, List.mem_range.mpr k.isLt, Bool.and_eq_true_iff.mpr ⟨(ih k).mpr h, hadj⟩⟩

theorem within_comm (l : Nat) {i j : Nat} (hi : i < n) (hj : j < n) :
    within G l i j = within G l j i := by
  have h := (within_iff (G := G) l ⟨i, hi⟩ ⟨j, hj⟩).trans
    (SimpleGraph.edist_comm (G := G.toSimple) ▸ (within_iff l ⟨j, hj⟩ ⟨i, hi⟩).symm)
  rwa [← Bool.eq_iff_iff] at h

theorem within_of_adj {l : Nat} (hl : 1 ≤ l) {i j : Nat} (h : G.adj i j = true) :
    within G l i j = true := by
  have hi := G.bound i j h
  have hj := G.lt_right h
  have hadj : G.toSimple.Adj ⟨i, hi⟩ ⟨j, hj⟩ := h
  refine (within_iff l ⟨i, hi⟩ ⟨j, hj⟩).mpr ?_
  rw [SimpleGraph.edist_eq_one_iff_adj.mpr hadj]
  exact_mod_cast hl

/-- One step away. -/
theorem within_one {i j : Nat} (hi : i < n) (hij : i ≠ j) : within G 1 i j = G.adj i j := by
  rw [Bool.eq_iff_iff]
  refine ⟨fun h => ?_, within_of_adj le_rfl⟩
  simpa [within, hij, hi] using h

/-- **The recursion of the encoding** leaves out the two vertices. -/
theorem within_step {l : Nat} (hl : 1 ≤ l) (i j : Nat) : within G (l + 1) i j =
    (within G l i j || (others n i j).any fun k => within G l i k && G.adj k j) := by
  rw [Bool.eq_iff_iff, within]
  simp only [Bool.or_eq_true, List.any_eq_true, Bool.and_eq_true, mem_others]
  refine ⟨?_, ?_⟩
  · rintro (h | ⟨k, hk, h, hadj⟩)
    · exact Or.inl h
    · by_cases hki : k = i
      · exact Or.inl (within_of_adj hl (hki ▸ hadj))
      · exact Or.inr ⟨k, ⟨List.mem_range.mp hk, hki, G.ne_of_adj hadj⟩, h, hadj⟩
  · rintro (h | ⟨k, hk, h⟩)
    · exact Or.inl h
    · exact Or.inr ⟨k, List.mem_range.mpr hk.1, h⟩

/-! ## The map -/

theorem mem_keys {key : Key} : key ∈ keys n ↔ ∃ i j l, i < j ∧ j < n ∧ 1 ≤ l ∧ l ≤ n - 1 ∧
    key = (i + 1, j + 1, l) := by
  obtain ⟨a, b, c⟩ := key
  simp only [keys, List.mem_flatMap, List.mem_map, List.mem_filter, mem_between,
    decide_eq_true_eq, Prod.mk.injEq]
  constructor
  · rintro ⟨i, hi, j, ⟨hj, hij⟩, l, hl, rfl, rfl, rfl⟩
    exact ⟨i - 1, j - 1, l, by omega, by omega, hl.1, hl.2, by omega, by omega, rfl⟩
  · rintro ⟨i, j, l, hij, hj, hl, hl', rfl, rfl, rfl⟩
    exact ⟨i + 1, by omega, j + 1, ⟨by omega, by omega⟩, c, ⟨hl, hl'⟩, rfl, rfl, rfl⟩

theorem nodup_keys (n : Nat) : (keys n).Nodup := by
  unfold keys
  refine List.nodup_flatMap.mpr ⟨fun i _ => List.nodup_flatMap.mpr ⟨fun j _ =>
    (nodup_between 1 (n - 1)).map fun l l' h => by simpa using h, ?_⟩, ?_⟩
  · refine ((nodup_between _ n).filter _).imp fun {j j'} hj key h h' => hj ?_
    obtain ⟨l, -, rfl⟩ := List.mem_map.mp h
    obtain ⟨l', -, he⟩ := List.mem_map.mp h'
    exact (Prod.mk.inj (Prod.mk.inj he).2).1.symm
  · refine (nodup_between 1 n).imp fun {i i'} hi key h h' => hi ?_
    obtain ⟨j, -, h⟩ := List.mem_flatMap.mp h
    obtain ⟨l, -, rfl⟩ := List.mem_map.mp h
    obtain ⟨j', -, h'⟩ := List.mem_flatMap.mp h'
    obtain ⟨l', -, he⟩ := List.mem_map.mp h'
    exact (Prod.mk.inj he).1.symm

/-- The map whose first variable is `k`. -/
def mapOf (n k : Nat) : List (Key × Term) := ((keys n).zipIdx k).map fun p => (p.1, .var p.2)

theorem mapCreate_eq (n : Nat) (s : Store Constraint) : mapCreate n s =
    some (mapOf n s.next, { s with next := s.next + (keys n).length }) := by
  unfold mapCreate mapOf
  generalize keys n = l
  induction l generalizing s with
  | nil => rfl
  | cons key l ih =>
    have hl := ih { s with next := s.next + 1 }
    rw [List.mapM_cons, List.zipIdx_cons, List.map_cons, List.length_cons, Nat.add_comm l.length,
      ← Nat.add_assoc]
    simp only [bind_assoc, pure_bind]
    change (List.mapM (m := Post Constraint) _ l _ : Option _).bind _ = _
    rw [hl]
    rfl

theorem map_fst_mapOf (n k : Nat) : (mapOf n k).map Prod.fst = keys n := by
  rw [mapOf, List.map_map]
  exact List.zipIdx_map_fst k (keys n)

theorem lookup_mapOf {k : Nat} {key : Key} (h : key ∈ keys n) :
    (mapOf n k).lookup key = some (.var (k + (keys n).idxOf key)) := by
  unfold mapOf
  generalize keys n = l at h
  induction l generalizing k with
  | nil => exact absurd h List.not_mem_nil
  | cons key' l ih =>
    rw [List.zipIdx_cons, List.map_cons]
    by_cases he : key = key'
    · rw [he, List.lookup_cons_self, List.idxOf_cons_self, Nat.add_zero]
    · rw [List.lookup_cons, beq_false_of_ne he, List.idxOf_cons_ne _ (Ne.symm he)]
      simp only
      rw [ih ((List.mem_cons.mp h).resolve_left he), Nat.add_right_comm, Nat.add_assoc]

/-- The variable of a key. -/
theorem mapGetValue_mapOf {k i j l : Nat} (hij : i < j) (h : (i + 1, j + 1, l) ∈ keys n) :
    mapGetValue (i + 1, j + 1, l) (mapOf n k) =
      some (.var (k + (keys n).idxOf (i + 1, j + 1, l))) := by
  rw [mapGetValue, Nat.min_eq_left (by simp only; omega), Nat.max_eq_right (by simp only; omega)]
  exact lookup_mapOf h

/-- The order of the two vertices does not matter. -/
theorem mapGetValue_comm (a b l : Nat) (map : List (Key × Term)) :
    mapGetValue (a, b, l) map = mapGetValue (b, a, l) map := by
  simp only [mapGetValue, Nat.min_comm a b, Nat.max_comm a b]

/-- The variables of the map are known, and say how far the vertices are apart. -/
def ReadsMap (w : World bee) (G : Graph n) (map : List (Key × Term)) : Prop :=
  ∀ i j l, i ≠ j → i < n → j < n → 1 ≤ l → l ≤ n - 1 →
    ∃ x, mapGetValue (i + 1, j + 1, l) map = some x ∧ Reads w x (truth (within G l i j))

/-- The value of the variable for two vertices and a length. -/
def level (τ : Nat → Int) (map : List (Key × Term)) (l i j : Nat) : Int :=
  ((mapGetValue (i + 1, j + 1, l) map).getD (.int 0)).eval τ

theorem level_comm (τ : Nat → Int) (map : List (Key × Term)) (l i j : Nat) :
    level τ map l i j = level τ map l j i := by
  rw [level, level, mapGetValue_comm]

theorem level_eq {τ : Nat → Int} {map : List (Key × Term)} {l i j : Nat} {x : Term}
    (h : mapGetValue (i + 1, j + 1, l) map = some x) : level τ map l i j = x.eval τ := by
  rw [level, h, Option.getD_some]

/-- A map with the variables from `k` on. -/
theorem readsMap_mapOf {w : World bee} {k : Nat}
    (hknown : ∀ x, k ≤ x → x < k + (keys n).length → w.known x)
    (hval : ∀ i j l, i < j → j < n → (i + 1, j + 1, l) ∈ keys n →
      w.values (k + (keys n).idxOf (i + 1, j + 1, l)) = truth (within G l i j)) :
    ReadsMap w G (mapOf n k) := by
  have hlt : ∀ i j l, i < j → j < n → 1 ≤ l → l ≤ n - 1 →
      ∃ x, mapGetValue (i + 1, j + 1, l) (mapOf n k) = some x ∧
        Reads w x (truth (within G l i j)) := by
    intro i j l hij hj hl hl'
    have hmem : (i + 1, j + 1, l) ∈ keys n := mem_keys.mpr ⟨i, j, l, hij, hj, hl, hl', rfl⟩
    refine ⟨_, mapGetValue_mapOf hij hmem, fun y hy => ?_, hval i j l hij hj hmem⟩
    rw [List.mem_singleton.mp hy]
    exact hknown _ (Nat.le_add_right _ _)
      (Nat.add_lt_add_left (List.idxOf_lt_length_of_mem hmem) k)
  intro i j l hne hi hj hl hl'
  rcases Nat.lt_or_gt_of_ne hne with h | h
  · exact hlt i j l h hj hl hl'
  · rw [mapGetValue_comm, within_comm l hi hj]
    exact hlt j i l h hi hl hl'

/-! ## The constraints of a key -/

/-- What the constraints of a key say about the variables of the map. -/
def Says (G : Graph n) (map : List (Key × Term)) (τ : Nat → Int) (l i j : Nat) : Prop :=
  level τ map l i j = truth (if l = 1 then G.adj i j else
    level τ map (l - 1) i j == 1 ||
      (others n i j).any fun k => level τ map (l - 1) i k == 1 && G.adj k j)

/-- A constraint on what is known. -/
theorem makes_post_known {w : World bee} {c : Constraint}
    (hterms : ∀ t ∈ c.terms, ∀ y ∈ t.vars, w.known y) (hc : c.Holds w.values) :
    Makes (post c) w fun _ w' => c ∈ w'.store.posted :=
  makes_post (fun y hy => by
    obtain ⟨t, ht, hy⟩ := List.mem_flatMap.mp hy
    exact w.known_lt y (hterms t ht y hy)) hc

theorem ReadsMap.mono {w w' : World bee} {map : List (Key × Term)} (h : ReadsMap w G map)
    (hle : w.Le w') : ReadsMap w' G map := fun i j l hne hi hj hl hl' => by
  obtain ⟨x, hx, hread⟩ := h i j l hne hi hj hl hl'
  exact ⟨x, hx, hread.mono hle⟩

section Key

variable {aux : Auxs} (haux : aux.Documented) {w w' : World bee} {adj : Rows}
  {map : List (Key × Term)} (hadj : ReadsMatrix w adj n fun i j => truth (G.adj i j))
  (hknown : ∀ x, w.known x → w'.known x) (hw : w.Agrees w'.values) (hmap : ReadsMap w' G map)
  {i j l : Nat} (hij : i < j) (hj : j < n)
include haux hadj hknown hw hmap hij hj

/-- The first length: `X` and `Eij` are the same. -/
theorem encodeKey_one (hn : 1 ≤ n - 1) :
    Makes (encodeKey aux adj map (i + 1, j + 1, 1)) w' fun _ w'' =>
      ∀ τ, w''.store.Sat bee τ → w.Agrees τ → Says G map τ 1 i j := by
  obtain ⟨x, hx, hread⟩ := hmap i j 1 hij.ne (by omega) hj le_rfl hn
  obtain ⟨e, he, hcell⟩ := cell_of_reads haux hadj (show i < n by omega) hj
  rw [within_one (by omega) hij.ne] at hread
  have hterms : ∀ y, y ∈ x.vars ∨ y ∈ e.vars → w'.known y := fun y hy =>
    hy.elim (hread.known y) fun hy => hknown y (hcell.known y hy)
  unfold encodeKey
  simp only [if_true]
  refine makes_lift hx (makes_lift he ?_)
  refine (makes_post_known (fun t ht y hy => hterms y ?_) ?_).bind fun _ w₁ hle₁ hc₁ =>
    (makes_post_known (fun t ht y hy => hle₁.known y (hterms y ?_)) ?_).imp
      fun _ w₂ hle₂ hc₂ τ hτ hag => ?_
  · simp only [Constraint.terms, List.mem_cons, List.not_mem_nil, or_false] at ht
    rcases ht with rfl | rfl
    · exact Or.inl hy
    · exact Or.inr hy
  · simp only [Constraint.Holds, List.map_cons, Term.eval, hread.eval, hcell.agrees hw]
    cases G.adj i j <;> rfl
  · simp only [Constraint.terms, List.mem_cons, List.not_mem_nil, or_false] at ht
    rcases ht with rfl | rfl
    · exact Or.inl hy
    · exact Or.inr hy
  · simp only [Constraint.Holds, List.map_cons, Term.eval, (hread.mono hle₁).eval,
      hcell.agrees fun y hy => (hle₁.known_values (hknown y hy)).trans (hw y hy)]
    cases G.adj i j <;> rfl
  · have h1 := hτ _ (hle₂.posted _ hc₁)
    have h2 := hτ _ hc₂
    simp only [bee, Constraint.Holds, List.map_cons, List.map_nil, Term.eval,
      hcell.agrees hag] at h1 h2
    rw [Says, level_eq hx, if_pos rfl]
    cases hadj' : G.adj i j
    · simp only [hadj', truth, List.any_cons, List.any_nil, Bool.false_eq_true, if_false] at h1 ⊢
      simp at h1
      omega
    · simp only [hadj', truth, List.any_cons, List.any_nil, if_true] at h2 ⊢
      simpa using h2

omit hij in
/-- **The paths** of one edge less, each with an edge from its end: their variables stand for the
two parts, in every solution. -/
theorem pathsReifs_spec (hl : 1 ≤ l) (hl' : l ≤ n - 1) (hi : i < n) :
    Makes (pathsReifs aux ((others n i j).map fun k => ((i + 1, k + 1, l), k + 1, j + 1)) adj map)
      w' fun ts w'' =>
        ReadsAll w'' ts ((others n i j).map fun k => truth (within G l i k && G.adj k j)) ∧
        ∀ τ, w''.store.Sat bee τ → w.Agrees τ → ts.map (Term.eval τ) =
          (others n i j).map fun k => truth (level τ map l i k == 1 && G.adj k j) := by
  refine (Makes.mapM₂ (R := fun k (path : Key × Nat × Nat) =>
      path = ((i + 1, k + 1, l), k + 1, j + 1) ∧ k ∈ others n i j)
    (List.forall₂_map_right_iff.mpr (List.forall₂_same.mpr fun k hk => ⟨rfl, hk⟩))
    (fun k t w₁ => Reads w₁ t (truth (within G l i k && G.adj k j)) ∧
      ∀ τ, w₁.store.Sat bee τ → w.Agrees τ →
        t.eval τ = truth (level τ map l i k == 1 && G.adj k j))
    (fun k t w₁ w₂ hle h => ⟨h.1.mono hle, fun τ hτ => h.2 τ fun c hc => hτ c (hle.posted c hc)⟩)
    fun k path hpath w₁ hle => ?_).imp fun ts w'' _ hts => ⟨?_, fun τ hτ hag => ?_⟩
  · obtain ⟨rfl, hk⟩ := hpath
    obtain ⟨hk, hki, -⟩ := mem_others.mp hk
    obtain ⟨y, hy, hread⟩ := hmap.mono hle i k l (Ne.symm hki) hi hk hl hl'
    obtain ⟨e, he, hcell⟩ := cell_of_reads haux hadj hk hj
    refine makes_lift hy (makes_lift he ?_)
    refine (makes_defined_posted (fun z t ht v hv => ?_) fun τ z hτ => ?_).imp
      fun t w₂ hle₂ h => ⟨h.2, fun τ hτ hag => ?_⟩
    · simp only [Constraint.terms, List.mem_cons, List.not_mem_nil, or_false] at ht
      rcases ht with rfl | rfl | rfl
      · exact Or.inl (List.mem_singleton.mp hv)
      · exact Or.inr (hread.known v hv)
      · exact Or.inr (hle.known v (hknown v (hcell.known v hv)))
    · have hag : w.Agrees τ := fun v hv => (hle.agrees hτ v (hknown v hv)).trans (hw v hv)
      simp [Constraint.Holds, hread.agrees hτ, hcell.agrees hag, Term.eval]
    · have hand := hτ _ h.1
      simp only [bee, Constraint.Holds, List.map_cons, List.map_nil, hcell.agrees hag,
        List.all_cons, List.all_nil, truth_beq_one, Bool.and_true] at hand
      rw [hand, level_eq hy]
  · exact readsAll_of_forall₂ (hts.imp fun _ _ h => h.1)
  · rw [← List.forall₂_eq_eq_eq, List.forall₂_map_left_iff, List.forall₂_map_right_iff]
    exact hts.flip.imp fun _ _ h => h.2 τ hτ hag

/-- A longer one: `X` says that a path of one edge less ends in `J`, or in a neighbour of `J`. -/
theorem encodeKey_succ (hl : 2 ≤ l) (hl' : l ≤ n - 1) :
    Makes (encodeKey aux adj map (i + 1, j + 1, l)) w' fun _ w'' =>
      ∀ τ, w''.store.Sat bee τ → w.Agrees τ → Says G map τ l i j := by
  obtain ⟨x, hx, hread⟩ := hmap i j l hij.ne (by omega) hj (by omega) hl'
  obtain ⟨x', hx', hread'⟩ := hmap i j (l - 1) hij.ne (by omega) hj (by omega) (by omega)
  have hpaths : ((between 1 n).filter fun k => k ≠ i + 1 ∧ k ≠ j + 1).map
      (fun k => ((i + 1, k, l - 1), k, j + 1)) =
        (others n i j).map fun k => ((i + 1, k + 1, l - 1), k + 1, j + 1) := by
    rw [between_one, List.filter_map, List.map_map, others]
    congr 1
    exact List.filter_congr fun k _ => by simp
  unfold encodeKey
  simp only [if_neg (show ¬ l = 1 by omega), hadj.length, hpaths]
  refine (pathsReifs_spec haux hadj hknown hw hmap hj (show 1 ≤ l - 1 by omega) (by omega)
    (by omega)).bind fun ts w₁ hle₁ hts => makes_lift hx' (makes_lift hx ?_)
  refine (makes_post_known (fun t ht y hy => ?_) ?_).imp fun _ w₂ hle₂ hc τ hτ hag => ?_
  · simp only [Constraint.terms, List.mem_cons] at ht
    rcases ht with rfl | rfl | ht
    · exact (hread.mono hle₁).known y hy
    · exact (hread'.mono hle₁).known y hy
    · exact hts.1.known t ht y hy
  · have hstep := within_step (G := G) (show 1 ≤ l - 1 by omega) i j
    rw [Nat.sub_add_cancel (by omega)] at hstep
    simp only [Constraint.Holds, List.map_cons, (hread.mono hle₁).eval, (hread'.mono hle₁).eval,
      hts.1.eval, hstep, List.any_cons, List.any_map, Function.comp_def, truth_beq_one]
  · have hor := hτ _ hc
    simp only [bee, Constraint.Holds, List.map_cons,
      hts.2 τ (fun c hc => hτ c (hle₂.posted c hc)) hag, List.any_cons, List.any_map,
      Function.comp_def, truth_beq_one] at hor
    rw [Says, if_neg (by omega), level_eq hx, level_eq hx', hor]

theorem encodeKey_spec (hl : 1 ≤ l) (hl' : l ≤ n - 1) :
    Makes (encodeKey aux adj map (i + 1, j + 1, l)) w' fun _ w'' =>
      ∀ τ, w''.store.Sat bee τ → w.Agrees τ → Says G map τ l i j := by
  by_cases h1 : l = 1
  · subst h1
    exact encodeKey_one haux hadj hknown hw hmap hij hj hl'
  · exact encodeKey_succ haux hadj hknown hw hmap hij hj (by omega) hl'

end Key

/-! ## The solution -/

/-- **The lengths, one after another**: all pairs of one length are settled by the one before. -/
theorem levels_determined {map : List (Key × Term)} {τ : Nat → Int}
    (h : ∀ i j l, i < j → j < n → 1 ≤ l → l ≤ n - 1 → Says G map τ l i j) {l : Nat}
    (hl : 1 ≤ l) (hl' : l ≤ n - 1) :
    ∀ i < n, ∀ j < n, i ≠ j → level τ map l i j = truth (within G l i j) := by
  induction l, hl using Nat.le_induction with
  | base =>
    have hlt : ∀ i j, i < j → j < n → level τ map 1 i j = truth (within G 1 i j) :=
      fun i j hij hj => by
        have := h i j 1 hij hj le_rfl hl'
        rwa [Says, if_pos rfl, ← within_one (by omega) hij.ne] at this
    intro i hi j hj hne
    rcases Nat.lt_or_gt_of_ne hne with hij | hij
    · exact hlt i j hij hj
    · rw [level_comm, within_comm 1 hi hj]
      exact hlt j i hij hi
  | succ l hl ih =>
    have ih := ih (by omega)
    have hlt : ∀ i j, i < j → j < n →
        level τ map (l + 1) i j = truth (within G (l + 1) i j) := fun i j hij hj => by
      have hkeys := h i j (l + 1) hij hj (by omega) hl'
      rw [Says, if_neg (by omega), Nat.add_sub_cancel] at hkeys
      rw [hkeys, within_step hl, ih i (by omega) j hj hij.ne, truth_beq_one]
      congr 2
      rw [Bool.eq_iff_iff, List.any_eq_true, List.any_eq_true]
      refine exists_congr fun k => and_congr_right fun hk => ?_
      obtain ⟨hk, hki, -⟩ := mem_others.mp hk
      rw [ih i (by omega) k hk (Ne.symm hki), truth_beq_one]
    intro i hi j hj hne
    rcases Nat.lt_or_gt_of_ne hne with hij | hij
    · exact hlt i j hij hj
    · rw [level_comm, within_comm (l + 1) hi hj]
      exact hlt j i hij hi

/-- So is the variable of every key. -/
theorem value_of_levels {w : World bee} {k : Nat} (hmap : ReadsMap w G (mapOf n k)) {τ : Nat → Int}
    (h : ∀ i j l, i < j → j < n → 1 ≤ l → l ≤ n - 1 → Says G (mapOf n k) τ l i j) {x : Nat}
    (hge : k ≤ x) (hlt : x < k + (keys n).length) : τ x = w.values x := by
  have hidx : x - k < (keys n).length := by omega
  obtain ⟨i, j, l, hij, hj, hl, hl', hkey⟩ := mem_keys.mp (List.getElem_mem hidx)
  have hmem : (i + 1, j + 1, l) ∈ keys n := hkey ▸ List.getElem_mem hidx
  have hvar : mapGetValue (i + 1, j + 1, l) (mapOf n k) = some (.var x) := by
    rw [mapGetValue_mapOf hij hmem, ← hkey, (nodup_keys n).idxOf_getElem,
      Nat.add_sub_cancel' hge]
  obtain ⟨y, hy, hread⟩ := hmap i j l hij.ne (by omega) hj hl hl'
  obtain rfl : Term.var x = y := Option.some.inj (hvar.symm.trans hy)
  have hlevel := levels_determined h hl hl' i (by omega) j hj hij.ne
  rw [level_eq hvar] at hlevel
  exact hlevel.trans hread.eval.symm

/-- **The encoding** makes a map that says how far the vertices are apart. -/
theorem encodeShortestPaths_spec {aux : Auxs} (haux : aux.Documented) {w : World bee} {adj : Rows}
    (hadj : ReadsMatrix w adj n fun i j => truth (G.adj i j)) :
    Makes (encodeShortestPaths aux adj) w fun map w' => ReadsMap w' G map := by
  unfold encodeShortestPaths
  rw [hadj.length]
  -- the values that the variables are to have
  let k := w.store.next
  let τ : Nat → Int := fun x => if x < k then w.values x else
    let key := (keys n).getD (x - k) (0, 0, 0)
    truth (within G key.2.2 (key.1 - 1) (key.2.1 - 1))
  refine makes_alloc_later (mapCreate_eq n w.store) (Nat.le_add_right _ _) rfl (τ := τ)
    (fun x hx => if_pos hx) fun w₁ hs hv hk => ?_
  have hknown : ∀ x, w.known x → w₁.known x := fun x hx => (hk x).mpr (Or.inl hx)
  have hag : w.Agrees w₁.values := fun x hx => by
    rw [hv]
    exact if_pos (w.known_lt x hx)
  have hmap : ReadsMap w₁ G (mapOf n k) := by
    refine readsMap_mapOf (fun x hx hx' => (hk x).mpr (Or.inr ⟨hx, hx'⟩))
      fun i j l hij hj hmem => ?_
    have hidx := List.idxOf_lt_length_of_mem hmem
    have hkey : (keys n).getD (k + (keys n).idxOf (i + 1, j + 1, l) - k) (0, 0, 0) =
        (i + 1, j + 1, l) := by
      rw [Nat.add_sub_cancel_left, List.getD_eq_getElem _ _ hidx, List.getElem_idxOf hidx]
    rw [hv]
    simp only [τ, if_neg (show ¬ k + (keys n).idxOf (i + 1, j + 1, l) < k by omega), hkey,
      Nat.add_sub_cancel]
  rw [map_fst_mapOf]
  refine (Makes.forM (fun (key : Key) (w' : World bee) => ∀ τ, w'.store.Sat bee τ → w.Agrees τ →
      Says G (mapOf n k) τ key.2.2 (key.1 - 1) (key.2.1 - 1))
    (fun key w' w'' hle h τ hτ => h τ fun c hc => hτ c (hle.posted c hc))
    fun key hkey w₂ hle => ?_).bind fun _ w₃ hle hkeys => ?_
  · obtain ⟨i, j, l, hij, hj, hl, hl', rfl⟩ := mem_keys.mp hkey
    exact encodeKey_spec haux hadj (fun x hx => hle.known x (hknown x hx))
      (fun x hx => (hle.known_values (hknown x hx)).trans (hag x hx)) (hmap.mono hle) hij hj hl hl'
  · refine makes_pure ⟨fun σ hσ hagσ x hx => ?_, hmap.mono hle⟩
    rcases (hk x).mp hx with hx' | ⟨hge, hlt⟩
    · exact (hagσ x hx').trans (hag x hx').symm
    · exact value_of_levels hmap (fun i j l hij hj hl hl' => hkeys (i + 1, j + 1, l)
        (mem_keys.mpr ⟨i, j, l, hij, hj, hl, hl', rfl⟩) σ hσ hagσ) hge hlt

/-- **The constraints have one solution, and it holds the distances.** Given the adjacency matrix of
`G`, the constraints of `encode_shortest_paths` can be satisfied and force every variable that they
create; the variable at `p(I,J,L)` is true iff `J` is at distance at most `L` from `I`. -/
theorem shortestPaths_exact {aux : Auxs} (haux : aux.Documented) {n : Nat} (G : Graph n)
    {adj : Rows} {k : Nat} {σ₀ : Nat → Int} (hadjVars : ∀ row ∈ adj, ∀ t ∈ row, ∀ x ∈ t.vars, x < k)
    (hadj : adj.map (·.map (Term.eval σ₀)) =
      (List.range n).map fun i => (List.range n).map fun j => truth (G.adj i j)) :
    ∃ map s σ, encodeShortestPaths aux adj ⟨k, []⟩ = some (map, s) ∧ (∀ x < k, σ x = σ₀ x) ∧
      s.Sat bee σ ∧ ∀ τ, (∀ x < k, τ x = σ₀ x) → s.Sat bee τ → (∀ x < s.next, τ x = σ x) ∧
        ∀ i j : Fin n, i < j → ∀ l, 1 ≤ l → l ≤ n - 1 →
          ∃ x, mapGetValue (i + 1, j + 1, l) map = some x ∧
            (x.eval τ = 1 ↔ G.toSimple.edist i j ≤ l) ∧
            (x.eval τ = -1 ↔ l < G.toSimple.edist i j) := by
  let w : World bee := ⟨⟨k, []⟩, σ₀, (· < k), False, by simp, fun _ h => absurd h (by simp),
    fun _ h => h⟩
  obtain ⟨map, w', hrun, hle, hset, hmap⟩ := encodeShortestPaths_spec haux (w := w)
    (readsMatrix_of_map hadjVars hadj)
  refine ⟨map, w'.store, w'.values, hrun, fun x hx => hle.values x hx, w'.sat, fun τ hτ hsat => ?_⟩
  have hagrees := hle.forced τ hsat fun x hx => hτ x hx
  refine ⟨fun x hx => hagrees x ?_, fun i j hij l hl hl' => ?_⟩
  · rcases Nat.lt_or_ge x k with h | h
    · exact hle.known x h
    · exact hset.resolve_left id x h hx
  · obtain ⟨x, hx, hread⟩ := hmap i j l (Fin.val_ne_of_ne hij.ne) i.isLt j.isLt hl hl'
    refine ⟨x, hx, ?_⟩
    rw [hread.agrees hagrees, ← not_le, ← within_iff]
    cases within G l i j <;> simp [truth]

/-- Two edges in a row. -/
def twoEdges : Graph 3 where
  adj i j := decide ((i = 1 ∨ j = 1) ∧ i ≠ j ∧ i < 3 ∧ j < 3)
  symm i j := decide_eq_decide.mpr (by omega)
  irrefl i := decide_eq_false (by omega)
  bound i j h := (of_decide_eq_true h).2.2.1

theorem shortestPaths_exact_twoEdges :
    ∃ map s σ, encodeShortestPaths Generation.standard
        (symmetricMatrix 3 (.int (-1)) fun i j => i + j - 1) ⟨3, []⟩ = some (map, s) ∧
      (∀ x < 3, σ x = if x = 1 then -1 else 1) ∧
      s.Sat bee σ ∧ ∀ τ, (∀ x < 3, τ x = if x = 1 then -1 else 1) → s.Sat bee τ →
        (∀ x < s.next, τ x = σ x) ∧
        ∀ i j : Fin 3, i < j → ∀ l, 1 ≤ l → l ≤ 3 - 1 →
          ∃ x, mapGetValue (i + 1, j + 1, l) map = some x ∧
            (x.eval τ = 1 ↔ twoEdges.toSimple.edist i j ≤ l) ∧
            (x.eval τ = -1 ↔ l < twoEdges.toSimple.edist i j) :=
  shortestPaths_exact Generation.standard_documented twoEdges (by decide) (by decide)

end SymBreak.ShortestPaths
