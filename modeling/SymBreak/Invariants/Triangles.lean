import SymBreak.Invariants.Solutions

/-!
# Triangles

The keys of `pair_invariants:inv_triangles` and `vertex_invariants:inv_triangles` are sorted
triples, one for every set of three vertices (`countP_triples`); a set with both vertices of a pair
is found twice, as the value wants it.

Results:
* `trianglesReifMap_spec`, `mapGetValues_spec`: the map holds the triangles;
* **`invTriangles_spec`**: the solution of the pair invariant.
-/

namespace SymBreak.PairInvariants

open Declare Bee Invariants

variable {n : Nat} {w w' : World bee} {G : Graph n}

/-! ## Triples and sets -/

theorem mem_triples {t : Nat × Nat × Nat} : t ∈ triples n ↔
    ∃ a b c, a < b ∧ b < c ∧ c < n ∧ t = (a + 1, b + 1, c + 1) := by
  obtain ⟨x, y, z⟩ := t
  simp only [triples, List.mem_flatMap, List.mem_map, List.mem_filter, mem_between,
    decide_eq_true_eq, Prod.mk.injEq]
  constructor
  · rintro ⟨a, ha, b, ⟨hb, hab⟩, c, ⟨hc, hbc⟩, rfl, rfl, rfl⟩
    exact ⟨a - 1, b - 1, c - 1, by omega, by omega, by omega, by omega, by omega, by omega⟩
  · rintro ⟨a, b, c, hab, hbc, hc, rfl, rfl, rfl⟩
    exact ⟨a + 1, by omega, b + 1, ⟨by omega, by omega⟩, c + 1, ⟨by omega, by omega⟩, rfl, rfl,
      rfl⟩

/-- The vertices of a key. -/
def vertices (t : Nat × Nat × Nat) : Finset Nat := {t.1 - 1, t.2.1 - 1, t.2.2 - 1}

theorem nodup_triples (n : Nat) : (triples n).Nodup := by
  unfold triples
  refine List.nodup_flatMap.mpr ⟨fun a _ => List.nodup_flatMap.mpr ⟨fun b _ =>
    ((nodup_between b n).filter _).map fun c c' h => by simpa using h, ?_⟩, ?_⟩
  · refine ((nodup_between a n).filter _).imp fun {b b'} hb t h h' => hb ?_
    obtain ⟨c, -, rfl⟩ := List.mem_map.mp h
    obtain ⟨c', -, he⟩ := List.mem_map.mp h'
    exact (Prod.mk.inj (Prod.mk.inj he).2).1.symm
  · refine (nodup_between 1 n).imp fun {a a'} ha t h h' => ha ?_
    obtain ⟨b, -, h⟩ := List.mem_flatMap.mp h
    obtain ⟨c, -, rfl⟩ := List.mem_map.mp h
    obtain ⟨b', -, h'⟩ := List.mem_flatMap.mp h'
    obtain ⟨c', -, he⟩ := List.mem_map.mp h'
    exact (Prod.mk.inj he).1.symm

/-- Different keys have different sets. -/
theorem nodup_vertices (n : Nat) : ((triples n).map vertices).Nodup := by
  refine (nodup_triples n).map_on fun t ht t' ht' h => ?_
  obtain ⟨a, b, c, hab, hbc, -, rfl⟩ := mem_triples.mp ht
  obtain ⟨a', b', c', hab', hbc', -, rfl⟩ := mem_triples.mp ht'
  have hmem : ∀ x, (x = a ∨ x = b ∨ x = c) ↔ (x = a' ∨ x = b' ∨ x = c') := fun x => by
    have := Finset.ext_iff.mp h x
    simpa [vertices] using this
  have h1 := (hmem a).mp (by simp)
  have h2 := (hmem b).mp (by simp)
  have h3 := (hmem c).mp (by simp)
  have h4 := (hmem a').mpr (by simp)
  simp only [Prod.mk.injEq]
  omega

/-- Every set of three vertices has its key. -/
theorem mem_map_vertices {s : Finset Nat} :
    s ∈ (triples n).map vertices ↔ s ∈ (Finset.range n).powersetCard 3 := by
  rw [Finset.mem_powersetCard, List.mem_map]
  constructor
  · rintro ⟨t, ht, rfl⟩
    obtain ⟨a, b, c, hab, hbc, hc, rfl⟩ := mem_triples.mp ht
    refine ⟨fun x hx => ?_, Finset.card_eq_three.mpr ⟨a, b, c, by omega, by omega, by omega, rfl⟩⟩
    simp only [vertices, Finset.mem_insert, Finset.mem_singleton] at hx
    rw [Finset.mem_range]
    omega
  · rintro ⟨hs, hcard⟩
    obtain ⟨x, y, z, hxy, hxz, hyz, rfl⟩ := Finset.card_eq_three.mp hcard
    have hlt : ∀ v, v = x ∨ v = y ∨ v = z → v < n := fun v hv =>
      Finset.mem_range.mp (hs (by simpa using hv))
    -- the three in order
    obtain ⟨a, b, c, hab, hbc, hset⟩ : ∃ a b c, a < b ∧ b < c ∧
        ∀ v, (v = a ∨ v = b ∨ v = c) ↔ (v = x ∨ v = y ∨ v = z) := by
      rcases Nat.lt_or_gt_of_ne hxy with h1 | h1 <;> rcases Nat.lt_or_gt_of_ne hxz with h2 | h2 <;>
        rcases Nat.lt_or_gt_of_ne hyz with h3 | h3
      · exact ⟨x, y, z, h1, h3, fun v => by omega⟩
      · exact ⟨x, z, y, h2, h3, fun v => by omega⟩
      · omega
      · exact ⟨z, x, y, h2, h1, fun v => by omega⟩
      · exact ⟨y, x, z, h1, h2, fun v => by omega⟩
      · omega
      · exact ⟨y, z, x, h3, h2, fun v => by omega⟩
      · exact ⟨z, y, x, h3, h1, fun v => by omega⟩
    refine ⟨(a + 1, b + 1, c + 1), mem_triples.mpr ⟨a, b, c, hab, hbc,
      hlt c ((hset c).mp (by simp)), rfl⟩, Finset.ext fun v => ?_⟩
    simpa [vertices] using hset v

/-- What is counted of the keys is counted of the sets. -/
theorem countP_triples {q : Nat × Nat × Nat → Bool} {Q : Finset Nat → Prop} [DecidablePred Q]
    (h : ∀ t ∈ triples n, q t = true ↔ Q (vertices t)) :
    (triples n).countP q = (((Finset.range n).powersetCard 3).filter Q).card := by
  have hset : ((Finset.range n).powersetCard 3).filter Q =
      (((triples n).map vertices).filter fun s => Q s).toFinset := Finset.ext fun s => by
    rw [Finset.mem_filter, List.mem_toFinset, List.mem_filter, mem_map_vertices, decide_eq_true_eq]
  rw [hset, List.toFinset_card_of_nodup ((nodup_vertices n).filter _),
    ← List.countP_eq_length_filter, List.countP_map]
  exact List.countP_congr fun t ht => by simpa using h t ht

/-! ## Keys of a vertex -/

/-- The three edges are there. -/
def isTriangle (G : Graph n) (t : Nat × Nat × Nat) : Bool :=
  G.adj (t.1 - 1) (t.2.1 - 1) && G.adj (t.1 - 1) (t.2.2 - 1) && G.adj (t.2.1 - 1) (t.2.2 - 1)

theorem isTriangle_eq (G : Graph n) {t : Nat × Nat × Nat} (ht : t ∈ triples n) :
    isTriangle G t = clique G (vertices t) := by
  obtain ⟨a, b, c, hab, hbc, -, rfl⟩ := mem_triples.mp ht
  rw [Bool.eq_iff_iff]
  simp only [isTriangle, clique, vertices, Nat.add_sub_cancel, Bool.and_eq_true,
    decide_eq_true_eq, Finset.forall_mem_insert, Finset.mem_singleton, forall_eq]
  rw [G.symm b a, G.symm c a, G.symm c b]
  have h1 : a ≠ b := by omega
  have h2 : a ≠ c := by omega
  have h3 : b ≠ c := by omega
  simp only [ne_eq, not_true, false_imp_iff, true_and, and_true, h1, h2, h3, h1.symm, h2.symm,
    h3.symm, not_false_iff, true_imp_iff]
  tauto

/-- The keys that a vertex is a member of. -/
theorem countP_withMember (i : Nat) (q : Nat × Nat × Nat → Bool) :
    ((triples n).flatMap (withMember (i + 1))).countP q =
      (triples n).countP fun t => decide (i ∈ vertices t) && q t := by
  have h : ∀ l : List (Nat × Nat × Nat), (∀ t ∈ l, t ∈ triples n) →
      (l.flatMap (withMember (i + 1))).countP q =
        l.countP fun t => decide (i ∈ vertices t) && q t := by
    intro l
    induction l with
    | nil => exact fun _ => rfl
    | cons t l ih =>
      intro hl
      rw [List.forall_mem_cons] at hl
      rw [List.flatMap_cons, List.countP_append, ih hl.2, List.countP_cons, Nat.add_comm]
      refine congrArg _ ?_
      obtain ⟨a, b, c, hab, hbc, -, rfl⟩ := mem_triples.mp hl.1
      have hcases : i = a ∧ b ≠ i ∧ c ≠ i ∨ i = b ∧ a ≠ i ∧ c ≠ i ∨ i = c ∧ a ≠ i ∧ b ≠ i ∨
          a ≠ i ∧ b ≠ i ∧ c ≠ i := by omega
      rcases hcases with ⟨rfl, h1, h2⟩ | ⟨rfl, h1, h2⟩ | ⟨rfl, h1, h2⟩ | ⟨h1, h2, h3⟩
      · simp [withMember, vertices, h1, h2, List.countP_cons]
      · simp [withMember, vertices, h1, h2, List.countP_cons]
      · simp [withMember, vertices, h1, h2, List.countP_cons]
      · simp [withMember, vertices, h1, h2, h3, h1.symm, h2.symm, h3.symm]
  exact h _ fun _ => id

/-- **The triangles of a vertex**, or the triples that are none, among its keys. -/
theorem countP_keys (G : Graph n) (b : Bool) (i : Nat) :
    ((triples n).flatMap (withMember (i + 1))).countP (fun t => isTriangle G t == b) =
      triplesWith G b i := by
  rw [countP_withMember]
  exact countP_triples fun t ht => by simp [isTriangle_eq G ht]

/-- A vertex is in at most `(n - 1) (n - 2) / 2` sets of three. -/
theorem triplesWith_le (G : Graph n) (b : Bool) {i : Nat} (hi : i < n) :
    triplesWith G b i ≤ (n - 1) * (n - 2) / 2 := by
  have hcard : ((Finset.range n).erase i).card = n - 1 := by
    rw [Finset.card_erase_of_mem (Finset.mem_range.mpr hi), Finset.card_range]
  have hle : triplesWith G b i ≤ (((Finset.range n).erase i).powersetCard 2).card := by
    have hmem : ∀ {s : Finset Nat}, s ∈ ((Finset.range n).powersetCard 3).filter
        (fun s => i ∈ s ∧ clique G s = b) → s ⊆ Finset.range n ∧ s.card = 3 ∧ i ∈ s := fun hs => by
      obtain ⟨h1, h2, -⟩ := Finset.mem_filter.mp hs
      exact ⟨(Finset.mem_powersetCard.mp h1).1, (Finset.mem_powersetCard.mp h1).2, h2⟩
    refine Finset.card_le_card_of_injOn (fun s => s.erase i) (fun s hs => ?_)
      fun s hs s' hs' h => ?_
    · obtain ⟨hsub, h3, his⟩ := hmem hs
      exact Finset.mem_powersetCard.mpr ⟨Finset.erase_subset_erase i hsub, by
        rw [Finset.card_erase_of_mem his, h3]⟩
    · have e := congrArg (insert i) h
      rwa [Finset.insert_erase (hmem hs).2.2, Finset.insert_erase (hmem hs').2.2] at e
  rwa [Finset.card_powersetCard, hcard, Nat.choose_two_right, Nat.sub_sub] at hle

/-! ## The map -/

/-- Every key of the map has its triangle. -/
def ReadsTriangles (w : World bee) (G : Graph n) (map : List ((Nat × Nat × Nat) × Term)) : Prop :=
  List.Forall₂ (fun t e => e.1 = t ∧ Reads w e.2 (truth (isTriangle G t))) (triples n) map

theorem ReadsTriangles.mono {map : List ((Nat × Nat × Nat) × Term)} (h : ReadsTriangles w G map)
    (hle : w.Le w') : ReadsTriangles w' G map := h.imp fun _ _ h => ⟨h.1, h.2.mono hle⟩

section

variable {aux : Auxs} (haux : aux.Documented) {adj : Rows}
  (hadj : ReadsMatrix w adj n fun i j => truth (G.adj i j))
include haux hadj

theorem trianglesReifMap_spec :
    Makes (trianglesReifMap aux adj) w fun map w' => ReadsTriangles w' G map := by
  unfold trianglesReifMap
  rw [hadj.length]
  refine Makes.mapM (fun t (e : (Nat × Nat × Nat) × Term) w' => e.1 = t ∧
    Reads w' e.2 (truth (isTriangle G t))) (fun _ _ _ _ hle h => ⟨h.1, h.2.mono hle⟩)
    fun t ht w' hle => ?_
  obtain ⟨a, b, c, hab, hbc, hc, rfl⟩ := mem_triples.mp ht
  refine (andCells_spec haux (hadj.mono hle) (a := a) (b := b) (c := a) (d := c) (e := b) (f := c)
    (by omega) (by omega) (by omega)).bind fun x w₁ _ hx => makes_pure ⟨rfl, hx⟩

end

/-- The values of keys of the map. -/
theorem mapGetValues_spec {map : List ((Nat × Nat × Nat) × Term)} (h : ReadsTriangles w G map)
    {keys : List (Nat × Nat × Nat)} (hkeys : ∀ t ∈ keys, t ∈ triples n) :
    ∃ vars, trianglesMapGetValues map keys = some vars ∧
      ReadsAll w vars (keys.map fun t => truth (isTriangle G t)) := by
  have hlookup : ∀ t ∈ triples n, ∃ x, List.lookup t map = some x ∧
      Reads w x (truth (isTriangle G t)) := by
    unfold ReadsTriangles at h
    generalize triples n = l at h
    intro t ht
    induction h with
    | nil => exact absurd ht (by simp)
    | @cons t' e l map he _ ih =>
      obtain ⟨k, x⟩ := e
      obtain ⟨rfl, hx⟩ := he
      by_cases htk : t = k
      · subst htk
        exact ⟨x, List.lookup_cons_self, hx⟩
      · obtain ⟨y, hy, hread⟩ := ih ((List.mem_cons.mp ht).resolve_left htk)
        refine ⟨y, ?_, hread⟩
        rw [List.lookup_cons, beq_false_of_ne htk, hy]
  unfold trianglesMapGetValues
  induction keys with
  | nil => exact ⟨[], rfl, by simp, rfl⟩
  | cons t keys ih =>
    rw [List.forall_mem_cons] at hkeys
    obtain ⟨x, hx, hread⟩ := hlookup t hkeys.1
    obtain ⟨vars, hvars, hreads⟩ := ih hkeys.2
    exact ⟨x :: vars, by rw [List.mapM_cons, hx, hvars]; rfl, hread.cons hreads⟩

/-- The keys that a vertex is a member of are keys of the map. -/
theorem mem_withMember {i : Nat} {t : Nat × Nat × Nat}
    (h : t ∈ (triples n).flatMap (withMember i)) : t ∈ triples n := by
  obtain ⟨t', ht', h⟩ := List.mem_flatMap.mp h
  obtain ⟨-, -, rfl⟩ := List.mem_map.mp h
  exact ht'

/-- The keys of a pair are those of its vertices. -/
theorem perm_triangleKeys (n i j : Nat) : (triangleKeys n i j).Perm
    ((triples n).flatMap (withMember i) ++ (triples n).flatMap (withMember j)) :=
  (List.flatMap_append_perm _ _ _).symm

/-- The bound of `new_int` is large enough. -/
theorem noTriangles_le (G : Graph n) {i j : Nat} (hij : i < j) (hj : j < n) :
    (noTriangles n).val G i j ≤ (n * (n - 1) * (n - 2) / 3 : Int) := by
  obtain ⟨m, rfl⟩ : ∃ m, n = m + 2 := ⟨n - 2, by omega⟩
  have h1 := triplesWith_le G false (show i < m + 2 by omega)
  have h2 := triplesWith_le G false hj
  have hhalf : (m + 2 - 1) * (m + 2 - 2) / 2 * 2 ≤ (m + 1) * m := Nat.div_mul_le_self _ 2
  have hthird : (m + 1) * m * 3 ≤ (m + 2) * ((m + 1) * m) := by
    rcases Nat.eq_zero_or_pos m with rfl | hm
    · simp
    · rw [Nat.mul_comm]
      exact Nat.mul_le_mul_right _ (by omega)
  have hsum : (triplesWith G false i + triplesWith G false j) * 3 ≤ (m + 2) * ((m + 1) * m) :=
    (Nat.mul_le_mul_right 3 (by omega)).trans hthird
  refine Int.le_ediv_of_mul_le (by decide) ?_
  have e : ((m + 2 : Nat) * ((m + 2 : Nat) - 1) * ((m + 2 : Nat) - 2) : Int) =
      (((m + 2) * ((m + 1) * m) : Nat) : Int) := by
    push_cast
    ring
  rw [e]
  change ((triplesWith G false i : Int) + triplesWith G false j) * 3 ≤ _
  exact_mod_cast hsum

theorem invTriangles_spec {aux : Auxs} (haux : aux.Documented) {adj : Rows}
    (hadj : ReadsMatrix w adj n fun i j => truth (G.adj i j)) :
    Makes (invTriangles aux adj) w fun m w' =>
      ReadsMatrix w' m n (entries (noTriangles n) G) := by
  unfold invTriangles
  refine (trianglesReifMap_spec haux hadj).bind fun map w₁ hle₁ hmap => ?_
  rw [hadj.length]
  refine pairMatrix_spec haux ((noTriangles n).symm G) fun w' hle i j hij hj x hx hval => ?_
  have hperm := perm_triangleKeys n (i + 1) (j + 1)
  obtain ⟨vars, hvars, hread⟩ := mapGetValues_spec (hmap.mono hle) fun t ht =>
    (List.mem_append.mp (hperm.mem_iff.mp ht)).elim mem_withMember mem_withMember
  refine makes_lift hvars ?_
  have hcount : (noTriangles n).val G i j =
      (triangleKeys n (i + 1) (j + 1)).countP fun t => !isTriangle G t := by
    have hnot : ∀ t, (!isTriangle G t) = (isTriangle G t == false) := fun t => by simp
    simp only [hnot]
    rw [hperm.countP_eq, List.countP_append, countP_keys, countP_keys]
    rfl
  refine makes_countEq hx (hval.trans hcount) ?_ hread.neg
  rw [← hcount]
  exact noTriangles_le G hij hj

end SymBreak.PairInvariants
