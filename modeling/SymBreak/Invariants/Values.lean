import SymBreak.Graph
import Mathlib.Data.Finset.Powerset

/-!
# What the invariants say of a graph

The values of the pair invariants and of the vertex invariants, apart from their encodings. Each is
a `PairValue` or a `VertexValue`: a number for every pair or vertex of every graph, with the proofs
that it does not depend on the order of the pair, and that it goes along with a permutation of the
vertices.
-/

namespace SymBreak.Invariants

open Matrix

variable {n : Nat}

/-- A number for every pair of vertices that goes along with permutations of the vertices. -/
structure PairValue (n : Nat) where
  val : Graph n → Nat → Nat → Int
  symm : ∀ G i j, val G i j = val G j i
  permute : ∀ G {p : List Nat}, p.Perm (List.range n) → ∀ {i j}, i < n → j < n →
    val (G.permute p) i j = val G (image p i) (image p j)

/-- A number for every vertex that goes along with permutations of the vertices. -/
structure VertexValue (n : Nat) where
  val : Graph n → Nat → Int
  permute : ∀ G {p : List Nat}, p.Perm (List.range n) → ∀ {i}, i < n →
    val (G.permute p) i = val G (image p i)

/-! ## Lists of vertices -/

/-- The vertices but two. -/
def others (n i j : Nat) : List Nat := (List.range n).filter fun k => k ≠ i && k ≠ j

theorem mem_others {i j k : Nat} : k ∈ others n i j ↔ k < n ∧ k ≠ i ∧ k ≠ j := by
  simp [others]

theorem others_comm (n i j : Nat) : others n i j = others n j i :=
  List.filter_congr fun _ _ => Bool.and_comm _ _

section Permute

variable {p : List Nat} (hp : p.Perm (List.range n))
include hp

/-- A permutation goes through all vertices. -/
theorem perm_range : ((List.range n).map (image p)).Perm (List.range n) := by
  refine (List.perm_ext_iff_of_nodup
    (List.nodup_range.map (image_injective hp)) List.nodup_range).mpr fun k => ?_
  rw [List.mem_map, List.mem_range]
  constructor
  · rintro ⟨i, hi, rfl⟩
    exact image_lt hp le_rfl (List.mem_range.mp hi)
  · intro hk
    obtain ⟨i, hi, rfl⟩ := exists_image hp le_rfl hk
    exact ⟨i, List.mem_range.mpr hi, rfl⟩

theorem perm_others (i j : Nat) :
    ((others n i j).map (image p)).Perm (others n (image p i) (image p j)) := by
  have h := (perm_range hp).filter fun k => k ≠ image p i && k ≠ image p j
  rw [List.filter_map] at h
  refine List.Perm.trans (List.Perm.of_eq ?_) h
  refine congrArg (List.map (image p)) (List.filter_congr fun k _ => ?_)
  simp [(image_injective hp).eq_iff]

theorem perm_product : (((List.range n).product (List.range n)).map
    fun q => (image p q.1, image p q.2)).Perm ((List.range n).product (List.range n)) := by
  have h := (perm_range hp).product (perm_range hp)
  refine List.Perm.trans (List.Perm.of_eq ?_) h
  simp only [List.product, List.map_flatMap, List.flatMap_map, List.map_map]
  rfl

end Permute

/-- What is counted along two lists that go along. -/
theorem countP_of_perm {α β : Type} {l : List α} {l' : List β} {φ : α → β} {f : α → Bool}
    {g : β → Bool} (h : (l.map φ).Perm l') (hfg : ∀ a ∈ l, f a = g (φ a)) :
    l.countP f = l'.countP g := by
  rw [← h.countP_eq, List.countP_map]
  exact List.countP_congr fun a ha => by rw [hfg a ha]; rfl

theorem any_of_perm {α β : Type} {l : List α} {l' : List β} {φ : α → β} {f : α → Bool}
    {g : β → Bool} (h : (l.map φ).Perm l') (hfg : ∀ a ∈ l, f a = g (φ a)) : l.any f = l'.any g := by
  rw [← h.any_eq, List.any_map, Bool.eq_iff_iff, List.any_eq_true, List.any_eq_true]
  exact exists_congr fun a => and_congr_right fun ha => by rw [hfg a ha]; rfl

theorem sum_of_perm {α β : Type} {l : List α} {l' : List β} {φ : α → β} {f : α → Int}
    {g : β → Int} (h : (l.map φ).Perm l') (hfg : ∀ a ∈ l, f a = g (φ a)) :
    (l.map f).sum = (l'.map g).sum := by
  rw [← (h.map g).sum_eq, List.map_map]
  exact congrArg List.sum (List.map_congr_left hfg)

theorem swap_product (l : List Nat) (hl : l.Nodup) :
    ((l.product l).map Prod.swap).Perm (l.product l) := by
  refine (List.perm_ext_iff_of_nodup ((hl.product hl).map Prod.swap_injective)
    (hl.product hl)).mpr fun q => ?_
  obtain ⟨a, b⟩ := q
  simp [and_comm]

/-! ## The pair invariants -/

section Pairs

variable {p : List Nat} {i k : Nat}

theorem degree_permute {G : Graph n} (hp : p.Perm (List.range n)) (hi : i < n) :
    (G.permute p).degree i = G.degree (image p i) :=
  countP_of_perm (perm_range hp) fun _ hk => G.permute_adj p hi (List.mem_range.mp hk)

/-- A combination of the degrees that does not depend on their order. -/
def extremeDeg (n : Nat) (f : Int → Int → Int) (hf : ∀ a b, f a b = f b a) : PairValue n where
  val G i j := f (G.degree i) (G.degree j)
  symm _ _ _ := hf _ _
  permute G p hp i j hi hj := by rw [degree_permute hp hi, degree_permute hp hj]

def minDeg (n : Nat) : PairValue n := extremeDeg n min min_comm

def maxDeg (n : Nat) : PairValue n := extremeDeg n max max_comm

/-- The common neighbours. -/
def common (n : Nat) : PairValue n where
  val G i j := (List.range n).countP fun k => G.adj i k && G.adj j k
  symm _ _ _ := congrArg Nat.cast (List.countP_congr fun _ _ => by rw [Bool.and_comm])
  permute G p hp i j hi hj := congrArg Nat.cast (countP_of_perm (perm_range hp) fun k hk => by
    have hk := List.mem_range.mp hk
    rw [G.permute_adj p hi hk, G.permute_adj p hj hk])

/-- The negated invariant. -/
def PairValue.neg (v : PairValue n) : PairValue n where
  val G i j := -v.val G i j
  symm G i j := congrArg Neg.neg (v.symm G i j)
  permute G _ hp _ _ hi hj := congrArg Neg.neg (v.permute G hp hi hj)

/-- Adjacency, as `1` and `0`. -/
def adjacency (n : Nat) : PairValue n where
  val G i j := if G.adj i j then 1 else 0
  symm G i j := by rw [G.symm]
  permute G p _ i j hi hj := by rw [G.permute_adj p hi hj]

/-- The vertices adjacent to neither. -/
def antiCommon (n : Nat) : PairValue n where
  val G i j := (others n i j).countP fun k => !G.adj i k && !G.adj j k
  symm G i j := by
    rw [others_comm]
    exact congrArg Nat.cast (List.countP_congr fun _ _ => by rw [Bool.and_comm])
  permute G p hp i j hi hj := congrArg Nat.cast (countP_of_perm (perm_others hp i j) fun k hk => by
    have hk := (mem_others.mp hk).1
    rw [G.permute_adj p hi hk, G.permute_adj p hj hk])

/-- The degrees of the vertices that are not common neighbours, added up. -/
def sumDegrees (n : Nat) : PairValue n where
  val G i j := ((others n i j).map fun k =>
    if !G.adj i k || !G.adj j k then (G.degree k : Int) else 0).sum
  symm G i j := by
    rw [others_comm]
    exact congrArg List.sum (List.map_congr_left fun _ _ => by rw [Bool.or_comm])
  permute G p hp i j hi hj := sum_of_perm (perm_others hp i j) fun k hk => by
    have hk := (mem_others.mp hk).1
    rw [G.permute_adj p hi hk, G.permute_adj p hj hk, degree_permute hp hk]

/-- The pairs off `i` and `j` that do not make a path of length `3`. -/
def noLen3Paths (n : Nat) : PairValue n where
  val G i j := ((List.range n).product (List.range n)).countP fun q =>
    (q.1 ≠ q.2 && q.1 ≠ i && q.1 ≠ j && q.2 ≠ i && q.2 ≠ j) &&
      !(G.adj i q.1 && G.adj q.1 q.2 && G.adj q.2 j)
  symm G i j := congrArg Nat.cast (countP_of_perm (swap_product _ List.nodup_range) fun q _ => by
    simp only [Prod.fst_swap, Prod.snd_swap]
    rw [G.symm j q.2, G.symm q.2 q.1, G.symm q.1 i, Bool.eq_iff_iff]
    grind)
  permute G p hp i j hi hj := congrArg Nat.cast (countP_of_perm (perm_product hp) fun q hq => by
    obtain ⟨h1, h2⟩ := List.pair_mem_product.mp (show (q.1, q.2) ∈ _ from hq)
    rw [List.mem_range] at h1 h2
    rw [G.permute_adj p hi h1, G.permute_adj p h1 h2, G.permute_adj p h2 hj]
    simp only [ne_eq, (image_injective hp).eq_iff])

/-- The distance is at most `2`. -/
def near (G : Graph n) (i k : Nat) : Bool :=
  G.adj i k || (others n i k).any fun m => G.adj i m && G.adj k m

theorem near_comm (G : Graph n) (i k : Nat) : near G i k = near G k i := by
  unfold near
  rw [G.symm, others_comm]
  exact congrArg _ (List.any_congr rfl fun _ => Bool.and_comm _ _)

theorem near_permute {G : Graph n} (hp : p.Perm (List.range n)) (hi : i < n) (hk : k < n) :
    near (G.permute p) i k = near G (image p i) (image p k) := by
  unfold near
  rw [G.permute_adj p hi hk]
  refine congrArg _ (any_of_perm (perm_others hp i k) fun m hm => ?_)
  have hm := (mem_others.mp hm).1
  rw [G.permute_adj p hi hm, G.permute_adj p hk hm]

/-- The vertices at distance at most `2` of one of the two. -/
def dist2 (n : Nat) : PairValue n where
  val G i j := (others n i j).countP fun k => near G i k || near G j k
  symm G i j := by
    rw [others_comm]
    exact congrArg Nat.cast (List.countP_congr fun _ _ => by rw [Bool.or_comm])
  permute G p hp i j hi hj := congrArg Nat.cast (countP_of_perm (perm_others hp i j) fun k hk => by
    have hk := (mem_others.mp hk).1
    rw [near_permute hp hi hk, near_permute hp hj hk])

/-- The set is a clique. -/
def clique (G : Graph n) (s : Finset Nat) : Bool :=
  decide (∀ a ∈ s, ∀ b ∈ s, a ≠ b → G.adj a b = true)

/-- The sets of three vertices, one of them `i`, that are triangles (`b = true`) or are none. -/
def triplesWith (G : Graph n) (b : Bool) (i : Nat) : Nat :=
  (((Finset.range n).powersetCard 3).filter fun s => i ∈ s ∧ clique G s = b).card

theorem triplesWith_permute {G : Graph n} (hp : p.Perm (List.range n)) (b : Bool) :
    triplesWith (G.permute p) b i = triplesWith G b (image p i) := by
  let f : Nat ↪ Nat := ⟨image p, image_injective hp⟩
  have hrange : (Finset.range n).map f = Finset.range n := by
    refine Finset.ext fun k => ?_
    simp only [Finset.mem_map, Finset.mem_range]
    constructor
    · rintro ⟨m, hm, rfl⟩
      exact image_lt hp le_rfl hm
    · exact fun hk => exists_image hp le_rfl hk
  unfold triplesWith
  conv_rhs => rw [← hrange, Finset.powersetCard_map, Finset.filter_map, Finset.card_map]
  refine congrArg Finset.card (Finset.filter_congr fun s hs => ?_)
  have hs := (Finset.mem_powersetCard.mp hs).1
  have hclique : clique (G.permute p) s = clique G (s.map f) := by
    refine decide_eq_decide.mpr ?_
    rw [Finset.forall_mem_map]
    refine forall₂_congr fun a ha => ?_
    rw [Finset.forall_mem_map]
    refine forall₂_congr fun c hc => ?_
    rw [G.permute_adj p (Finset.mem_range.mp (hs ha)) (Finset.mem_range.mp (hs hc)),
      f.injective.ne_iff]
    rfl
  rw [hclique]
  refine and_congr_left fun _ => ?_
  exact (Finset.mem_map' f).symm

/-- The triples that are no triangles, counted for both vertices. -/
def noTriangles (n : Nat) : PairValue n where
  val G i j := triplesWith G false i + triplesWith G false j
  symm _ _ _ := Int.add_comm _ _
  permute G p hp i j hi hj := by rw [triplesWith_permute hp, triplesWith_permute hp]

end Pairs

/-! ## The vertex invariants -/

def degree (n : Nat) : VertexValue n where
  val G i := G.degree i
  permute G p hp i hi := by rw [degree_permute hp hi]

/-- The triangles with the vertex. -/
def triangles (n : Nat) : VertexValue n where
  val G i := triplesWith G true i
  permute G p hp i hi := by rw [triplesWith_permute hp]

/-- The other vertices at distance at most `2`. -/
def nearVertices (n : Nat) : VertexValue n where
  val G i := (others n i i).countP (near G i)
  permute _ _ hp i hi := congrArg Nat.cast (countP_of_perm (perm_others hp i i) fun _ hk =>
    near_permute hp hi (mem_others.mp hk).1)

end SymBreak.Invariants
