import SymBreak.Lib.Backtrack
import SymBreak.Lib.Hamilton

/-!
# Backtracking searches for Hamiltonian paths

The enumeration of a backtracking search whose candidates are unvisited neighbours lists Hamiltonian
paths (`hamPath_of_mem_enum`), and it lists each one whose next vertex, at every place, is a
candidate (`mem_enum_of_hamPath`). When that holds of every Hamiltonian path that begins with a
given one, the enumeration is exactly these (`Exact.mem_enum`).

A search may prune a branch by the number of unvisited neighbours of a vertex (`free`). The section
on free neighbours holds what the rest of a Hamiltonian path says about these numbers:
* `free_pos_of_rest`: two vertices or more are left, so each of them has a free neighbour;
* `free_two_of_rest`: a vertex left with one free neighbour is the first or the last;
* `free_of_next`: an unvisited neighbour of the next vertex keeps a free neighbour besides it.
-/

namespace SymBreak.PathSearch

open Hamilton Backtrack

variable {V : Type} {adj : V → V → Prop} {verts : List V}

/-! ## Enumerated paths -/

section Enum

variable {cands : List V → List V} {path : List V} {d : Nat}

/-- What is offered are unvisited neighbours. -/
def OffersNeighbors (adj : V → V → Prop) (verts : List V) (cands : List V → List V) : Prop :=
  ∀ v p u, u ∈ cands (v :: p) → adj v u ∧ u ∉ v :: p ∧ u ∈ verts

theorem chain_of_offered (hc : OffersNeighbors adj verts cands) {v : V} {p : List V}
    (hch : (v :: p).reverse.IsChain adj) (hnd : (v :: p).Nodup) (hv : ∀ x ∈ v :: p, x ∈ verts) :
    ∀ t, Offered cands (v :: p) (t ++ v :: p) →
      (t ++ v :: p).reverse.IsChain adj ∧ (t ++ v :: p).Nodup ∧ ∀ x ∈ t ++ v :: p, x ∈ verts := by
  intro t
  induction t with
  | nil => exact fun _ => ⟨hch, hnd, hv⟩
  | cons u t ih =>
    intro hoff
    obtain ⟨ih1, ih2, ih3⟩ := ih fun w q hq hl => hoff w q (hq.trans (List.suffix_cons u _)) hl
    obtain ⟨w, q, hw⟩ : ∃ w q, t ++ v :: p = w :: q := by cases t <;> simp
    have hu : u ∈ cands (t ++ v :: p) := hoff u _ (List.suffix_refl _) (by simp)
    rw [hw] at hu ih1 ih2 ih3
    obtain ⟨h1, h2, h3⟩ := hc w q u hu
    rw [List.cons_append, hw]
    refine ⟨?_, List.nodup_cons.mpr ⟨h2, ih2⟩, List.forall_mem_cons.mpr ⟨h3, ih3⟩⟩
    rw [List.reverse_cons]
    refine List.IsChain.append ih1 (List.isChain_singleton u) ?_
    intro x hx y hy
    rw [List.getLast?_reverse, List.head?_cons, Option.mem_def, Option.some_inj] at hx
    rw [List.head?_cons, Option.mem_def, Option.some_inj] at hy
    rw [← hx, ← hy]
    exact h1

/-- **Enumerated paths are Hamiltonian paths.** -/
theorem hamPath_of_mem_enum (hc : OffersNeighbors adj verts cands) {v : V} {p : List V}
    (hch : (v :: p).reverse.IsChain adj) (hnd : (v :: p).Nodup) (hv : ∀ x ∈ v :: p, x ∈ verts)
    (hlen : (v :: p).length + d = verts.length) {l : List V} (hl : l ∈ enum cands d (v :: p)) :
    IsHamPath adj verts l ∧ Offered cands (v :: p) l.reverse := by
  rw [← List.reverse_reverse l, mem_enum] at hl
  obtain ⟨⟨t, ht⟩, hlength, hoff⟩ := hl
  rw [← ht] at hoff
  obtain ⟨h1, h2, h3⟩ := chain_of_offered hc hch hnd hv t hoff
  rw [ht] at h1 h2 h3 hoff
  rw [List.reverse_reverse] at h1
  refine ⟨⟨(List.subperm_of_subset (List.nodup_reverse.mp h2) fun x hx => h3 x
    (List.mem_reverse.mpr hx)).perm_of_length_le ?_, h1⟩, hoff⟩
  rw [← hlen, ← hlength, List.length_reverse]

/-- **A Hamiltonian path is enumerated**, when its next vertex is a candidate at every place. -/
theorem mem_enum_of_hamPath (hlen : path.length + d = verts.length) {l : List V}
    (hl : IsHamPath adj verts (path.reverse ++ l))
    (hc : ∀ p u l', path.reverse ++ l = p.reverse ++ u :: l' → path.length ≤ p.length →
      u ∈ cands p) : path.reverse ++ l ∈ enum cands d path := by
  rw [← List.reverse_reverse (path.reverse ++ l), mem_enum]
  refine ⟨⟨l.reverse, by simp⟩, ?_, fun u p hup hle => ?_⟩
  · rw [List.length_reverse, hl.1.length_eq, hlen]
  · obtain ⟨t, ht⟩ := hup
    refine hc p u t.reverse ?_ hle
    rw [← List.reverse_reverse (path.reverse ++ l), ← ht]
    simp

/-- **A search with exact candidates**: they are unvisited neighbours, each once, and the next
vertex of a Hamiltonian path that begins with `start` is always among them. -/
structure Exact (adj : V → V → Prop) (verts start : List V) (cands : List V → List V) : Prop where
  offers : OffersNeighbors adj verts cands
  nodup : ∀ p, (cands p).Nodup
  next : ∀ p u l, start <:+ p → IsHamPath adj verts (p.reverse ++ u :: l) → u ∈ cands p

/-- **It enumerates the Hamiltonian paths that begin with `start`**, and nothing else. -/
theorem Exact.mem_enum {v : V} {p : List V} (h : Exact adj verts (v :: p) cands)
    (hch : (v :: p).reverse.IsChain adj) (hnd : (v :: p).Nodup) (hv : ∀ x ∈ v :: p, x ∈ verts)
    (hlen : (v :: p).length + d = verts.length) {l : List V} :
    l ∈ enum cands d (v :: p) ↔ IsHamPath adj verts l ∧ (v :: p).reverse <+: l := by
  constructor
  · intro hl
    refine ⟨(hamPath_of_mem_enum h.offers hch hnd hv hlen hl).1, ?_⟩
    have := List.reverse_prefix.mpr (suffix_of_mem_enum hl)
    rwa [List.reverse_reverse] at this
  · rintro ⟨hl, t, rfl⟩
    refine mem_enum_of_hamPath hlen hl fun q u l' he hle => h.next q u l' ?_ (he ▸ hl)
    -- both are beginnings of the path, and `q` is the longer one
    have hs : (v :: p).reverse <+: q.reverse ++ u :: l' := he ▸ List.prefix_append _ t
    rw [← List.reverse_prefix]
    exact List.prefix_of_prefix_length_le hs (List.prefix_append _ _) (by simpa using hle)

/-- **A search without pruning** enumerates the paths of its length that begin with `v :: p`. -/
theorem mem_enum_of_neighbors
    (hc : ∀ v p u, u ∈ cands (v :: p) ↔ adj v u ∧ u ∉ v :: p ∧ u ∈ verts) {v : V} {p : List V}
    (hch : (v :: p).reverse.IsChain adj) (hnd : (v :: p).Nodup) (hv : ∀ x ∈ v :: p, x ∈ verts)
    {l : List V} : l ∈ enum cands d (v :: p) ↔
      (l.IsChain adj ∧ l.Nodup ∧ ∀ x ∈ l, x ∈ verts) ∧ (v :: p).reverse <+: l ∧
        l.length = (v :: p).length + d := by
  nth_rewrite 1 [← List.reverse_reverse l]
  rw [mem_enum, List.length_reverse, ← List.reverse_suffix, List.reverse_reverse]
  constructor
  · rintro ⟨⟨t, ht⟩, hlen, hoff⟩
    rw [← ht] at hoff
    obtain ⟨h1, h2, h3⟩ := chain_of_offered (fun v p u => (hc v p u).mp) hch hnd hv t hoff
    rw [ht] at h1 h2 h3
    rw [List.reverse_reverse] at h1
    exact ⟨⟨h1, List.nodup_reverse.mp h2, fun x hx => h3 x (List.mem_reverse.mpr hx)⟩, ⟨t, ht⟩,
      hlen⟩
  · rintro ⟨⟨h1, h2, h3⟩, hs, hlen⟩
    refine ⟨hs, hlen, fun u q hq hle => ?_⟩
    obtain ⟨w, q, rfl⟩ := List.exists_cons_of_ne_nil (l := q) (by
      rintro rfl
      exact absurd hle (by simp))
    have hrev : (u :: w :: q).IsChain fun a b => adj b a :=
      (List.isChain_reverse.mpr (by simpa using h1)).suffix hq
    have hndq : (u :: w :: q).Nodup := (List.nodup_reverse.mpr h2).sublist hq.sublist
    exact (hc w q u).mpr ⟨(List.isChain_cons_cons.mp hrev).1, (List.nodup_cons.mp hndq).1,
      h3 u (List.mem_reverse.mp (hq.subset List.mem_cons_self))⟩

end Enum

/-! ## Free neighbours -/

section Free

variable [DecidableEq V]

/-- The number of neighbours, listed by `nb`, that are not on the path. -/
def free (nb : V → List V) (path : List V) (x : V) : Nat :=
  ((nb x).filter fun y => decide (y ∉ path)).length

variable {nb : V → List V}

theorem free_nil (x : V) : free nb [] x = (nb x).length := by
  unfold free
  rw [List.filter_eq_self.mpr (by simp)]

/-- One more vertex on the path. -/
theorem free_cons (hnd : ∀ v, (nb v).Nodup) {v : V} {p : List V} (hv : v ∉ p) (x : V) :
    free nb p x = free nb (v :: p) x + if v ∈ nb x then 1 else 0 := by
  unfold free
  have key : ∀ l : List V, l.Nodup → (l.filter fun y => decide (y ∉ p)).length =
      (l.filter fun y => decide (y ∉ v :: p)).length + if v ∈ l then 1 else 0 := by
    intro l hl
    induction l with
    | nil => rfl
    | cons a l ih =>
      obtain ⟨ha, hl⟩ := List.nodup_cons.mp hl
      have := ih hl
      by_cases hav : a = v
      · subst hav
        rw [if_neg ha] at this
        rw [List.filter_cons_of_pos (by simpa using hv), List.filter_cons_of_neg (by simp),
          if_pos List.mem_cons_self, List.length_cons, this]
      · have hmem : v ∈ a :: l ↔ v ∈ l := by simp [Ne.symm hav]
        simp only [hmem]
        by_cases hap : a ∈ p
        · rw [List.filter_cons_of_neg (by simpa using hap),
            List.filter_cons_of_neg (by simp [hap]), this]
        · rw [List.filter_cons_of_pos (by simpa using hap),
            List.filter_cons_of_pos (by simp [hap, hav]), List.length_cons, List.length_cons, this]
          omega
  exact key (nb x) (hnd x)

theorem free_pos {p : List V} {x y : V} (hy : y ∈ nb x) (hyp : y ∉ p) : 1 ≤ free nb p x :=
  List.length_pos_of_mem (List.mem_filter.mpr ⟨hy, by simpa using hyp⟩)

theorem free_two {p : List V} {x y z : V} (hy : y ∈ nb x) (hyp : y ∉ p) (hz : z ∈ nb x)
    (hzp : z ∉ p) (hne : y ≠ z) : 2 ≤ free nb p x := by
  unfold free
  have hsub : [y, z] ⊆ (nb x).filter fun y => decide (y ∉ p) := by
    intro w hw
    simp only [List.mem_cons, List.not_mem_nil, or_false] at hw
    rcases hw with rfl | rfl
    · exact List.mem_filter.mpr ⟨hy, by simpa using hyp⟩
    · exact List.mem_filter.mpr ⟨hz, by simpa using hzp⟩
  exact (List.subperm_of_subset (by simpa using hne) hsub).length_le

variable (hs : ∀ a b, adj a b → adj b a) (hnb : ∀ v x, x ∈ nb v ↔ adj v x) {p l : List V}
  (hl : IsHamPath adj verts (p.reverse ++ l)) (hverts : verts.Nodup)
include hl

omit [DecidableEq V] in
theorem chain_rest : l.IsChain adj := (List.isChain_append.mp hl.2).2.1

omit [DecidableEq V] in
/-- The vertices left are those not on the path. -/
theorem mem_rest {x : V} (hx : x ∈ verts) (hp : x ∉ p) : x ∈ l := by
  have := hl.1.mem_iff.mpr hx
  rw [List.mem_append, List.mem_reverse] at this
  exact this.resolve_left hp

include hverts

omit [DecidableEq V] in
theorem nodup_rest : l.Nodup ∧ ∀ x ∈ l, x ∉ p := by
  have hnd : (p.reverse ++ l).Nodup := hl.1.nodup_iff.mpr hverts
  obtain ⟨-, h2, h3⟩ := List.nodup_append.mp hnd
  exact ⟨h2, fun x hx hp => h3 x (List.mem_reverse.mpr hp) x hx rfl⟩

include hs hnb

/-- **While two vertices or more are left, each has a free neighbour.** -/
theorem free_pos_of_rest (h2 : 2 ≤ l.length) {x : V} (hx : x ∈ l) : 1 ≤ free nb p x := by
  obtain ⟨y, hy, hxy⟩ := chain_neighbor hs (chain_rest hl) h2 hx
  exact free_pos ((hnb x y).mpr hxy) ((nodup_rest hl hverts).2 y hy)

/-- **A vertex left that is neither the next nor the last has two.** -/
theorem free_two_of_rest {x : V} (hx : x ∈ l) (hhead : l.head? ≠ some x)
    (hlast : l.getLast? ≠ some x) : 2 ≤ free nb p x := by
  obtain ⟨hnd, hout⟩ := nodup_rest hl hverts
  obtain ⟨y, hy, z, hz, hne, hxy, hxz⟩ :=
    chain_two_neighbors hs (chain_rest hl) hnd hx hhead hlast
  exact free_two ((hnb x y).mpr hxy) (hout y hy) ((hnb x z).mpr hxz) (hout z hz) hne

/-- **A neighbour of the next vertex has a free one besides it**, while two more are left. -/
theorem free_of_next {u : V} {l' : List V} (he : l = u :: l') (h2 : 2 ≤ l'.length) {x : V}
    (hx : x ∈ verts) (hp : x ∉ p) (hux : adj u x) (hne : x ≠ u) :
    (∃ y, y ∈ nb x ∧ y ∉ u :: p) ∧ 2 ≤ free nb p x := by
  obtain ⟨hnd, hout⟩ := nodup_rest hl hverts
  have hxl := mem_rest hl hx hp
  have hch := chain_rest hl
  subst he
  have hxl' : x ∈ l' := (List.mem_cons.mp hxl).resolve_left hne
  obtain ⟨y, hy, hxy⟩ := chain_neighbor hs hch.tail h2 hxl'
  have hyu : y ≠ u := fun h => (List.nodup_cons.mp hnd).1 (h ▸ hy)
  have hyp := hout y (List.mem_cons_of_mem u hy)
  refine ⟨⟨y, (hnb x y).mpr hxy, ?_⟩, ?_⟩
  · rw [List.mem_cons, not_or]
    exact ⟨hyu, hyp⟩
  · exact free_two ((hnb x y).mpr hxy) hyp ((hnb x u).mpr (hs _ _ hux))
      (hout u List.mem_cons_self) hyu

end Free

end SymBreak.PathSearch
