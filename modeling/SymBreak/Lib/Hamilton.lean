import Mathlib.Data.List.Cycle
import Mathlib.Data.List.GetD

/-!
# Hamiltonian paths and cycles

Over a relation `adj` on the vertices `verts`: a Hamiltonian path is a rearrangement of `verts`
whose consecutive members are adjacent, a Hamiltonian cycle one whose last member is adjacent to the
first as well. Cycles are compared by their unordered edges (`CycleEdge`, `SameCycle`), so a
rotation or a reversal is the same cycle.

Results:
* `IsHamCycle.start_edge`, `start_at`: a cycle through the edge `{a, b}` can be written from `a` on
  with `b` next, and from any vertex but `b` on with `a, b` consecutive;
* `cycleEdge_iff`: a vertex of a cycle has exactly two neighbours on it;
* **`sameCycle_of_edges`**: a cycle whose edges are edges of a second cycle on the same vertices is
  that cycle;
* `eq_of_sameCycle`: a cycle is determined by its edges and its first two members;
* `Dihedral.trans`, **`sameCycle_iff_dihedral`**: having the same edges is being a rotation,
  possibly reversed, and that is an equivalence;
* `chain_neighbor`, `chain_two_neighbors`: the degrees inside a path, from which a path search
  prunes.
-/

namespace SymBreak.Hamilton

variable {V : Type*}

section Defs

variable (adj : V → V → Prop) (verts : List V)

/-- `p` visits every vertex once, along adjacent vertices. -/
def IsHamPath (p : List V) : Prop := p.Perm verts ∧ p.IsChain adj

/-- `c` visits every vertex once, along adjacent vertices, and closes. -/
def IsHamCycle (c : List V) : Prop := c.Perm verts ∧ (c : Cycle V).Chain adj

/-- `a` and `b` are consecutive on the cycle `c`, in one of the two directions. -/
def CycleEdge (c : List V) (a b : V) : Prop :=
  ∃ r, c.IsRotated (a :: b :: r) ∨ c.IsRotated (b :: a :: r)

/-- The two cycles have the same edges. -/
def SameCycle (c d : List V) : Prop := ∀ a b, CycleEdge c a b ↔ CycleEdge d a b

/-- `d` is `c` after a rotation, possibly followed by a reversal. -/
def Dihedral (c d : List V) : Prop := ∃ m, d = c.rotate m ∨ d = (c.rotate m).reverse

end Defs

theorem rotated_append (s t : List V) : (s ++ t).IsRotated (t ++ s) := List.isRotated_append

/-! ## Edges of a cycle -/

theorem CycleEdge.symm {c : List V} {a b : V} (h : CycleEdge c a b) : CycleEdge c b a := by
  obtain ⟨r, h | h⟩ := h
  · exact ⟨r, Or.inr h⟩
  · exact ⟨r, Or.inl h⟩

theorem CycleEdge.mem_left {c : List V} {a b : V} (h : CycleEdge c a b) : a ∈ c := by
  obtain ⟨r, h | h⟩ := h
  · exact h.mem_iff.mpr (by simp)
  · exact h.mem_iff.mpr (by simp)

theorem SameCycle.symm {c d : List V} (h : SameCycle c d) : SameCycle d c :=
  fun a b => (h a b).symm

theorem SameCycle.trans {c d e : List V} (h : SameCycle c d) (h' : SameCycle d e) :
    SameCycle c e :=
  fun a b => (h a b).trans (h' a b)

/-- Two rotations of a list without repetitions that start with one vertex are one list. -/
theorem eq_of_isRotated_cons {v : V} {l l' : List V} (hn : (v :: l).Nodup)
    (h : (v :: l).IsRotated (v :: l')) : l = l' := by
  obtain ⟨n, hrot⟩ := h
  have hlen : 0 < (v :: l).length := by simp
  have hmod : n % (v :: l).length < (v :: l).length := Nat.mod_lt _ hlen
  have h0 : (v :: l)[n % (v :: l).length] = (v :: l)[0] := by
    have e := List.getElem_rotate (v :: l) n 0 (by simp)
    simp only [hrot, List.getElem_cons_zero, Nat.zero_add] at e
    exact e.symm
  have hz : n % (v :: l).length = 0 := hn.getElem_inj_iff.mp h0
  rw [← List.rotate_mod, hz, List.rotate_zero] at hrot
  exact (List.cons.inj hrot).2

/-- A list of at least three members, from one of them on. -/
theorem exists_rotation {c : List V} {v : V} (hv : v ∈ c) (hc : 3 ≤ c.length) :
    ∃ x m y, c.IsRotated (v :: x :: (m ++ [y])) := by
  obtain ⟨s, t, rfl⟩ := List.append_of_mem hv
  have hrot : (s ++ v :: t).IsRotated (v :: (t ++ s)) := by
    simpa using rotated_append s (v :: t)
  have hlen : 2 ≤ (t ++ s).length := by
    simp only [List.length_append, List.length_cons] at hc ⊢
    omega
  generalize t ++ s = l at hrot hlen
  match l, hlen with
  | x :: z :: l, _ =>
    obtain ⟨m, y, hm⟩ : ∃ m y, z :: l = m ++ [y] :=
      ⟨_, _, (List.dropLast_append_getLast (List.cons_ne_nil z l)).symm⟩
    rw [hm] at hrot
    exact ⟨x, m, y, hrot⟩

/-- **A vertex has two neighbours on a cycle**: the next one and the one before. -/
theorem cycleEdge_iff {c m : List V} {v x y z : V} (hn : c.Nodup)
    (h : c.IsRotated (v :: x :: (m ++ [y]))) : CycleEdge c v z ↔ z = x ∨ z = y := by
  have hn' : (v :: x :: (m ++ [y])).Nodup := h.nodup_iff.mp hn
  have hback : (v :: x :: (m ++ [y])).IsRotated (y :: v :: x :: m) := by
    simpa using rotated_append (v :: x :: m) [y]
  constructor
  · rintro ⟨r, hr | hr⟩
    · have e := eq_of_isRotated_cons hn' (h.symm.trans hr)
      exact Or.inl (List.cons.inj e).1.symm
    · have hr' : (z :: v :: r).IsRotated (v :: (r ++ [z])) := by
        simpa using rotated_append [z] (v :: r)
      have e := eq_of_isRotated_cons hn' ((h.symm.trans hr).trans hr')
      rw [← List.cons_append] at e
      exact Or.inr (List.cons.inj (List.append_inj' e rfl).2).1.symm
  · rintro (rfl | rfl)
    · exact ⟨_, Or.inl h⟩
    · exact ⟨_, Or.inr (h.trans hback)⟩

/-- **A cycle whose edges all lie on a second cycle is that cycle.** -/
theorem sameCycle_of_edges {c d : List V} (hp : c.Perm d) (hn : c.Nodup) (hc : 3 ≤ c.length)
    (h : ∀ a b, CycleEdge c a b → CycleEdge d a b) : SameCycle c d := by
  refine fun a b => ⟨h a b, fun hab => ?_⟩
  obtain ⟨x, m, y, hx⟩ := exists_rotation (hp.mem_iff.mpr hab.mem_left) hc
  obtain ⟨x', m', y', hx'⟩ := exists_rotation hab.mem_left (hp.length_eq ▸ hc)
  have hne : x ≠ y := by
    have := hx.nodup_iff.mp hn
    simp only [List.nodup_cons, List.mem_append, List.mem_singleton, not_or] at this
    exact this.2.1.2
  -- both neighbours on `c` are among the two neighbours on `d`, so they are those two
  have hd := hp.nodup_iff.mp hn
  have e₁ := (cycleEdge_iff hd hx').mp (h a x ((cycleEdge_iff hn hx).mpr (Or.inl rfl)))
  have e₂ := (cycleEdge_iff hd hx').mp (h a y ((cycleEdge_iff hn hx).mpr (Or.inr rfl)))
  have e₃ := (cycleEdge_iff hd hx').mp hab
  rw [cycleEdge_iff hn hx]
  grind

theorem sameCycle_of_isRotated {c d : List V} (h : c.IsRotated d) : SameCycle c d := by
  have key : ∀ {c d : List V}, c.IsRotated d → ∀ a b, CycleEdge c a b → CycleEdge d a b := by
    rintro c d h a b ⟨r, hr⟩
    exact ⟨r, hr.imp h.symm.trans h.symm.trans⟩
  exact fun a b => ⟨key h a b, key h.symm a b⟩

theorem sameCycle_reverse (c : List V) : SameCycle c c.reverse := by
  have key : ∀ {c : List V} {a b : V}, CycleEdge c a b → CycleEdge c.reverse a b := by
    have hrev : ∀ {c r : List V} {a b : V}, c.IsRotated (a :: b :: r) →
        c.reverse.IsRotated (b :: a :: r.reverse) := fun {c r a b} h => by
      refine h.reverse.trans ?_
      simpa using rotated_append r.reverse [b, a]
    rintro c a b ⟨r, h | h⟩
    · exact ⟨_, Or.inr (hrev h)⟩
    · exact ⟨_, Or.inl (hrev h)⟩
  refine fun a b => ⟨key, fun h => ?_⟩
  rw [← List.reverse_reverse c]
  exact key h

/-- A cycle through `{a, b}` can be written from `a` on with `b` next. -/
theorem CycleEdge.exists_sameCycle {c : List V} {a b : V} (h : CycleEdge c a b) :
    ∃ r, SameCycle c (a :: b :: r) ∧ c.Perm (a :: b :: r) := by
  obtain ⟨r, h | h⟩ := h
  · exact ⟨r, sameCycle_of_isRotated h, h.perm⟩
  · have hrot : (b :: a :: r).reverse.IsRotated (a :: b :: r.reverse) := by
      simpa using rotated_append r.reverse [a, b]
    exact ⟨r.reverse, ((sameCycle_of_isRotated h).trans (sameCycle_reverse _)).trans
      (sameCycle_of_isRotated hrot), (h.perm.trans (List.reverse_perm _).symm).trans hrot.perm⟩

/-- **A cycle is determined by its edges and its first two members.** -/
theorem eq_of_sameCycle {a b : V} : ∀ {r r' p : List V}, (p ++ a :: b :: r).Nodup →
    (p ++ a :: b :: r').Nodup → r.length = r'.length →
    SameCycle (p ++ a :: b :: r) (p ++ a :: b :: r') → r = r' := by
  intro r
  induction r generalizing a b with
  | nil => exact fun {r' _} _ _ hlen _ => (List.length_eq_zero_iff.mp hlen.symm).symm
  | cons z r ih =>
    intro r' p hn hn' hlen hsame
    obtain ⟨z', r', rfl⟩ := List.exists_cons_of_length_eq_add_one hlen.symm
    -- the neighbours of `b` are `a` and the next member
    have hrot : ∀ (z : V) (r : List V), (p ++ a :: b :: z :: r).IsRotated
        (b :: z :: ((r ++ p) ++ [a])) := fun z r => by
      simpa using rotated_append (p ++ [a]) (b :: z :: r)
    have hz : z = z' := by
      have hedge := (hsame b z).mp ((cycleEdge_iff hn (hrot z r)).mpr (Or.inl rfl))
      refine ((cycleEdge_iff hn' (hrot z' r')).mp hedge).resolve_right ?_
      rintro rfl
      have := (List.nodup_append.mp hn).2.1
      simp at this
    subst hz
    have hsplit : ∀ r, p ++ a :: b :: z :: r = (p ++ [a]) ++ b :: z :: r := fun r => by simp
    rw [hsplit] at hn hn' hsame
    rw [hsplit] at hsame
    exact congrArg _ (ih hn hn' (by simpa using hlen) hsame)

/-! ## Rotations and reversals -/

theorem dihedral_iff {c d : List V} : Dihedral c d ↔ c.IsRotated d ∨ c.IsRotated d.reverse := by
  constructor
  · rintro ⟨m, rfl | rfl⟩
    · exact Or.inl ⟨m, rfl⟩
    · exact Or.inr ⟨m, (List.reverse_reverse _).symm⟩
  · rintro (⟨m, rfl⟩ | ⟨m, h⟩)
    · exact ⟨m, Or.inl rfl⟩
    · exact ⟨m, Or.inr (by rw [h, List.reverse_reverse])⟩

theorem Dihedral.refl (c : List V) : Dihedral c c :=
  dihedral_iff.mpr (Or.inl (List.IsRotated.refl c))

theorem Dihedral.symm {c d : List V} (h : Dihedral c d) : Dihedral d c := by
  rw [dihedral_iff] at h ⊢
  rcases h with h | h
  · exact Or.inl h.symm
  · exact Or.inr (List.isRotated_reverse_comm_iff.mp h.symm)

theorem Dihedral.trans {c d e : List V} (h : Dihedral c d) (h' : Dihedral d e) : Dihedral c e := by
  rw [dihedral_iff] at h h' ⊢
  rcases h with h | h <;> rcases h' with h' | h'
  · exact Or.inl (h.trans h')
  · exact Or.inr (h.trans h')
  · exact Or.inr (h.trans h'.reverse)
  · exact Or.inl (h.trans (List.isRotated_reverse_comm_iff.mpr h'))

theorem Dihedral.perm {c d : List V} (h : Dihedral c d) : c.Perm d := by
  rcases dihedral_iff.mp h with h | h
  · exact h.perm
  · exact h.perm.trans (List.reverse_perm d)

theorem Dihedral.sameCycle {c d : List V} (h : Dihedral c d) : SameCycle c d := by
  rcases dihedral_iff.mp h with h | h
  · exact sameCycle_of_isRotated h
  · exact (sameCycle_of_isRotated h).trans (sameCycle_reverse d).symm

/-- **Having the same edges** is being a rotation, possibly reversed. -/
theorem sameCycle_iff_dihedral {c d : List V} (hc : c.Nodup) (hd : d.Nodup)
    (hlen : c.length = d.length) (h3 : 3 ≤ c.length) : SameCycle c d ↔ Dihedral c d := by
  refine ⟨fun h => ?_, Dihedral.sameCycle⟩
  obtain ⟨v, hv⟩ := List.exists_mem_of_length_pos (l := c) (by omega)
  obtain ⟨x, m, y, hx⟩ := exists_rotation hv h3
  have hedge : CycleEdge c v x := (cycleEdge_iff hc hx).mpr (Or.inl rfl)
  have hedge' := (h v x).mp hedge
  obtain ⟨r, hr⟩ := hedge'
  -- the second cycle, or its reverse, goes on with the same neighbour
  obtain ⟨e, r', hde, he⟩ : ∃ e r', Dihedral d e ∧ e = v :: x :: r' := by
    rcases hr with hr | hr
    · exact ⟨_, r, dihedral_iff.mpr (Or.inl hr), rfl⟩
    · have hback : (x :: v :: r).reverse.IsRotated (v :: x :: r.reverse) := by
        simpa using rotated_append r.reverse [v, x]
      exact ⟨_, r.reverse, dihedral_iff.mpr (Or.inr (List.isRotated_reverse_comm_iff.mp
        (hr.reverse.trans hback))), rfl⟩
  subst he
  have hrest := eq_of_sameCycle (p := []) (hx.nodup_iff.mp hc) (hde.perm.nodup_iff.mp hd) (by
    have h₁ := hx.perm.length_eq
    have h₂ := hde.perm.length_eq
    simp only [List.length_cons] at h₁ h₂
    omega) ((sameCycle_of_isRotated hx).symm.trans (h.trans hde.sameCycle))
  rw [← hrest] at hde
  exact (dihedral_iff.mpr (Or.inl hx)).trans hde.symm

/-! ## Cycles -/

section Cycles

variable {adj : V → V → Prop} {verts : List V}

theorem IsHamCycle.rotate {c d : List V} (h : IsHamCycle adj verts c) (hcd : c.IsRotated d) :
    IsHamCycle adj verts d :=
  ⟨hcd.perm.symm.trans h.1, by rw [← Cycle.coe_eq_coe.mpr hcd]; exact h.2⟩

/-- A cycle is a path whose ends are adjacent. -/
theorem isHamCycle_iff_path {p : List V} (hp : p ≠ []) :
    IsHamCycle adj verts p ↔ IsHamPath adj verts p ∧ adj (p.getLast hp) (p.head hp) := by
  obtain ⟨a, l, rfl⟩ := List.exists_cons_of_ne_nil hp
  rw [IsHamCycle, IsHamPath, Cycle.chain_coe_cons, ← List.cons_append, List.isChain_append,
    and_assoc]
  simp [List.getLast?_eq_getLast_of_ne_nil hp]

/-- The same on an array. -/
theorem isHamCycle_iff_getD (d : V) {p : List V} (hp : 1 ≤ p.length) : IsHamCycle adj verts p ↔
    IsHamPath adj verts p ∧ adj (p.getD (p.length - 1) d) (p.getD 0 d) := by
  rw [isHamCycle_iff_path (List.ne_nil_of_length_pos hp), List.getLast_eq_getElem,
    List.head_eq_getElem, List.getD_eq_getElem _ _ hp,
    List.getD_eq_getElem _ _ (show p.length - 1 < p.length by omega)]

theorem IsHamCycle.reverse (hs : ∀ a b, adj a b → adj b a) {c : List V}
    (h : IsHamCycle adj verts c) : IsHamCycle adj verts c.reverse := by
  rcases List.eq_nil_or_concat c with rfl | ⟨l, a, rfl⟩
  · exact h
  have hrot : (l.concat a).IsRotated (a :: l) := by
    rw [List.concat_eq_append]
    exact List.isRotated_concat a l
  have hc := (h.rotate hrot).2
  refine ⟨(List.reverse_perm _).trans h.1, ?_⟩
  rw [List.concat_eq_append, List.reverse_append, List.reverse_singleton, List.singleton_append,
    Cycle.chain_coe_cons]
  rw [Cycle.chain_coe_cons] at hc
  have hrev := List.isChain_reverse.mpr (hc.imp fun a b hab => hs a b hab)
  simpa using hrev

theorem IsHamCycle.rel (hs : ∀ a b, adj a b → adj b a) {c : List V} {a b : V}
    (hc : IsHamCycle adj verts c) (h : CycleEdge c a b) : adj a b := by
  have key : ∀ {x y : V} {r : List V}, c.IsRotated (x :: y :: r) → adj x y := by
    intro x y r hr
    have := (hc.rotate hr).2
    rw [Cycle.chain_coe_cons, List.cons_append, List.isChain_cons_cons] at this
    exact this.1
  obtain ⟨r, h | h⟩ := h
  · exact key h
  · exact hs _ _ (key h)

/-- A cycle through `{a, b}`, from `a` on with `b` next. -/
theorem IsHamCycle.start_edge (hs : ∀ a b, adj a b → adj b a) {c : List V} {a b : V}
    (hc : IsHamCycle adj verts c) (h : CycleEdge c a b) :
    ∃ r, IsHamCycle adj verts (a :: b :: r) := by
  obtain ⟨r, h | h⟩ := h
  · exact ⟨r, hc.rotate h⟩
  · have hrot : (b :: a :: r).reverse.IsRotated (a :: b :: r.reverse) := by
      simpa using rotated_append r.reverse [a, b]
    exact ⟨r.reverse, ((hc.rotate h).reverse hs).rotate hrot⟩

/-- The same cycle from any vertex but `b` on, with `a` and `b` consecutive. -/
theorem IsHamCycle.start_at {a b s : V} {r : List V} (hc : IsHamCycle adj verts (a :: b :: r))
    (hs : s ∈ verts) (hb : s ≠ b) :
    ∃ x y, IsHamCycle adj verts (s :: (x ++ y)) ∧ (s :: x).getLast? = some a ∧
      y.head? = some b := by
  by_cases ha : s = a
  · subst ha
    exact ⟨[], b :: r, by simpa using hc, rfl, rfl⟩
  · have hr : s ∈ r := by
      have := hc.1.mem_iff.mpr hs
      simpa [ha, hb] using this
    obtain ⟨u, w, rfl⟩ := List.append_of_mem hr
    have hrot : (a :: b :: (u ++ s :: w)).IsRotated (s :: ((w ++ [a]) ++ (b :: u))) := by
      simpa using rotated_append (a :: b :: u) (s :: w)
    exact ⟨w ++ [a], b :: u, hc.rotate hrot, by rw [← List.cons_append, List.getLast?_concat], rfl⟩

/-- Consecutive members of a cycle are its edges. -/
theorem chain_of_cycleEdge {adj : V → V → Prop} {a : V} {l : List V} (hl : l ≠ [])
    (he : ∀ x y, CycleEdge (a :: l) x y → adj x y) : ∀ (t s : List V), a :: l = s ++ t → t ≠ [] →
      (t ++ [a]).IsChain adj
  | [], _, _, ht => absurd rfl ht
  | [x], s, hs, _ => by
    obtain ⟨s', rfl⟩ : ∃ s', s = a :: s' := by
      cases s with
      | nil => exact absurd (List.cons.inj hs).2 hl
      | cons b s' => exact ⟨s', by rw [(List.cons.inj hs).1]⟩
    have hrot : (a :: l).IsRotated (x :: a :: s') := by
      rw [hs]
      exact rotated_append (a :: s') [x]
    exact List.isChain_pair.mpr (he x a ⟨s', Or.inl hrot⟩)
  | x :: y :: t, s, hs, _ => by
    have hrot : (a :: l).IsRotated (x :: y :: (t ++ s)) := by
      rw [hs]
      exact rotated_append s (x :: y :: t)
    refine List.isChain_cons_cons.mpr ⟨he x y ⟨_, Or.inl hrot⟩, ?_⟩
    exact chain_of_cycleEdge hl he (y :: t) (s ++ [x]) (by rw [hs]; simp) (List.cons_ne_nil y t)

/-- A cycle is determined by its edges: over another relation that holds along them it is a cycle
too. -/
theorem IsHamCycle.of_edges {adj' : V → V → Prop} {c : List V} (h : IsHamCycle adj verts c)
    (hc : 2 ≤ c.length) (he : ∀ a b, CycleEdge c a b → adj' a b) : IsHamCycle adj' verts c := by
  match c, hc with
  | a :: b :: l, _ =>
    refine ⟨h.1, ?_⟩
    rw [Cycle.chain_coe_cons]
    exact chain_of_cycleEdge (List.cons_ne_nil b l) he _ [] rfl (List.cons_ne_nil a _)

end Cycles

/-! ## Relabellings -/

section Map

variable {W : Type*} {f : V → W}

theorem cycleEdge_map (hf : Function.Injective f) {c : List V} {a b : V} :
    CycleEdge (c.map f) (f a) (f b) ↔ CycleEdge c a b := by
  have key : ∀ {x y : V}, (∃ r, (c.map f).IsRotated (f x :: f y :: r)) ↔
      ∃ r, c.IsRotated (x :: y :: r) := fun {x y} => by
    constructor
    · rintro ⟨r, k, hk⟩
      rw [← List.map_rotate] at hk
      obtain ⟨x', l, hl, hx, hl'⟩ := List.map_eq_cons_iff.mp hk
      obtain ⟨y', l', rfl, hy, -⟩ := List.map_eq_cons_iff.mp hl'
      rw [hf hx, hf hy] at hl
      exact ⟨l', k, hl⟩
    · rintro ⟨r, h⟩
      exact ⟨r.map f, by simpa using h.map f⟩
  unfold CycleEdge
  rw [exists_or, exists_or, key, key]

/-- Cycles whose images are the same. -/
theorem SameCycle.of_map (hf : Function.Injective f) {c d : List V}
    (h : SameCycle (c.map f) (d.map f)) : SameCycle c d := fun a b => by
  rw [← cycleEdge_map hf, ← cycleEdge_map hf]
  exact h _ _

theorem IsHamCycle.map {adj : V → V → Prop} {adj' : W → W → Prop} {verts : List V} {verts' : List W}
    {c : List V} (h : IsHamCycle adj verts c) (hadj : ∀ a b, adj a b → adj' (f a) (f b))
    (hv : (verts.map f).Perm verts') : IsHamCycle adj' verts' (c.map f) := by
  refine ⟨(h.1.map f).trans hv, ?_⟩
  rw [← Cycle.map_coe, Cycle.chain_map]
  exact h.2.imp fun a b hab => hadj a b hab

end Map

/-! ## Degrees inside a path -/

section Chains

variable {adj : V → V → Prop} (hs : ∀ a b, adj a b → adj b a) {l : List V} {x : V}
include hs

/-- A vertex of a path of at least two vertices has a neighbour on it. -/
theorem chain_neighbor (h : l.IsChain adj) (hl : 2 ≤ l.length) (hx : x ∈ l) :
    ∃ y ∈ l, adj x y := by
  obtain ⟨s, t, rfl⟩ := List.append_of_mem hx
  match t with
  | y :: t =>
    have := (List.isChain_append.mp h).2.1
    exact ⟨y, by simp, (List.isChain_cons_cons.mp this).1⟩
  | [] =>
    rcases List.eq_nil_or_concat s with rfl | ⟨s', y, rfl⟩
    · simp at hl
    · have := (List.isChain_append.mp h).2.2 y (by simp) x (by simp)
      exact ⟨y, by simp, hs _ _ this⟩

/-- A vertex inside a path has two neighbours on it. -/
theorem chain_two_neighbors (h : l.IsChain adj) (hn : l.Nodup) (hx : x ∈ l)
    (hhead : l.head? ≠ some x) (hlast : l.getLast? ≠ some x) :
    ∃ y ∈ l, ∃ z ∈ l, y ≠ z ∧ adj x y ∧ adj x z := by
  obtain ⟨s, t, rfl⟩ := List.append_of_mem hx
  obtain ⟨z, t, rfl⟩ : ∃ z t', t = z :: t' := by
    cases t with
    | nil => simp at hlast
    | cons z t => exact ⟨z, t, rfl⟩
  rcases List.eq_nil_or_concat s with rfl | ⟨s, y, rfl⟩
  · simp at hhead
  · have h1 := (List.isChain_append.mp h).2.2 y (by simp) x (by simp)
    have h2 := (List.isChain_cons_cons.mp (List.isChain_append.mp h).2.1).1
    refine ⟨y, by simp, z, by simp, ?_, hs _ _ h1, h2⟩
    rintro rfl
    have := (List.nodup_append.mp hn).2.2 y (by simp) y (by simp)
    exact this rfl

end Chains

/-! ## Segments of a numbered cycle -/

/-- The numbers from `a` to `b`, up or down. -/
def seg (a b : Nat) : List Nat :=
  if a ≤ b then List.range' a (b + 1 - a) else (List.range' b (a + 1 - b)).reverse

theorem mem_seg {a b x : Nat} : x ∈ seg a b ↔ min a b ≤ x ∧ x ≤ max a b := by
  unfold seg
  by_cases h : a ≤ b
  · rw [if_pos h, List.mem_range'_1]
    omega
  · rw [if_neg h, List.mem_reverse, List.mem_range'_1]
    omega

theorem nodup_seg (a b : Nat) : (seg a b).Nodup := by
  unfold seg
  by_cases h : a ≤ b
  · rw [if_pos h]
    exact List.nodup_range'
  · rw [if_neg h, List.nodup_reverse]
    exact List.nodup_range'

theorem head?_seg (a b : Nat) : (seg a b).head? = some a := by
  unfold seg
  by_cases h : a ≤ b
  · rw [if_pos h, List.head?_range', if_neg (by omega)]
  · rw [if_neg h, List.head?_reverse, List.getLast?_range', if_neg (by omega)]
    exact congrArg some (by omega)

theorem getLast?_seg (a b : Nat) : (seg a b).getLast? = some b := by
  unfold seg
  by_cases h : a ≤ b
  · rw [if_pos h, List.getLast?_range', if_neg (by omega)]
    exact congrArg some (by omega)
  · rw [if_neg h, List.getLast?_reverse, List.head?_range', if_neg (by omega)]

section Segments

variable {adj : Nat → Nat → Prop} (hs : ∀ a b, adj a b → adj b a) {n : Nat}
  (hstep : ∀ t, t + 1 < n → adj t (t + 1))
include hs hstep

theorem chain_seg {a b : Nat} (ha : a < n) (hb : b < n) : (seg a b).IsChain adj := by
  have up : ∀ a b, a ≤ b → b < n → (List.range' a (b + 1 - a)).IsChain adj := fun a b hab hb => by
    refine List.isChain_iff_getElem.mpr fun i hi => ?_
    rw [List.length_range'] at hi
    simp only [List.getElem_range', Nat.one_mul]
    exact hstep (a + i) (by omega)
  unfold seg
  by_cases h : a ≤ b
  · rw [if_pos h]
    exact up a b h hb
  · rw [if_neg h, List.isChain_reverse]
    exact (up b a (by omega) ha).imp fun x y hxy => hs x y hxy

/-- Segments one after another, each linked to the next, are a chain. -/
theorem chain_segs : ∀ (a b : Nat) (segs : List (Nat × Nat)), a < n → b < n →
    (∀ s ∈ segs, s.1 < n ∧ s.2 < n) → ((a, b) :: segs).IsChain (fun s t => adj s.2 t.1) →
    (seg a b ++ segs.flatMap fun s => seg s.1 s.2).IsChain adj
  | a, b, [], ha, hb, _, _ => by
    rw [List.flatMap_nil, List.append_nil]
    exact chain_seg hs hstep ha hb
  | a, b, (c, d) :: segs, ha, hb, hlt, hlink => by
    obtain ⟨⟨hc, hd⟩, hlt'⟩ := List.forall_mem_cons.mp hlt
    obtain ⟨h1, h2⟩ := List.isChain_cons_cons.mp hlink
    rw [List.flatMap_cons]
    refine List.IsChain.append (chain_seg hs hstep ha hb) (chain_segs c d segs hc hd hlt' h2) ?_
    intro x hx y hy
    rw [getLast?_seg, Option.mem_def, Option.some_inj] at hx
    rw [List.head?_append_of_ne_nil _ (by
      intro h
      have := head?_seg c d
      rw [h] at this
      exact absurd this (by simp)), head?_seg, Option.mem_def, Option.some_inj] at hy
    rw [← hx, ← hy]
    exact h1

end Segments

/-! ## The cycle `0, 1, …, n - 1` -/

theorem range_eq_cons {n : Nat} (hn : 0 < n) : List.range n = 0 :: List.range' 1 (n - 1) := by
  obtain ⟨m, rfl⟩ : ∃ m, n = m + 1 := ⟨n - 1, by omega⟩
  rw [List.range_eq_range', List.range'_succ]
  rfl

theorem range_isRotated {n i : Nat} (hi : i + 1 < n) :
    ∃ r, (List.range n).IsRotated (i :: (i + 1) :: r) := by
  obtain ⟨k, rfl⟩ : ∃ k, n = i + (k + 2) := ⟨n - i - 2, by omega⟩
  have hsplit : List.range (i + (k + 2)) =
      List.range' 0 i ++ i :: (i + 1) :: List.range' (i + 2) k := by
    rw [List.range_eq_range', ← List.range'_append_1, List.range'_succ, List.range'_succ,
      Nat.zero_add]
  rw [hsplit]
  exact ⟨_, rotated_append _ _⟩

theorem range_isRotated_wrap {n : Nat} (hn : 2 ≤ n) :
    ∃ r, (List.range n).IsRotated ((n - 1) :: 0 :: r) := by
  obtain ⟨k, rfl⟩ : ∃ k, n = k + 2 := ⟨n - 2, by omega⟩
  have hsplit : List.range (k + 2) = (0 :: List.range' 1 k) ++ [k + 1] := by
    rw [List.range_succ, List.range_eq_range', List.range'_succ]
  rw [hsplit]
  exact ⟨_, rotated_append _ _⟩

/-- Its edges. -/
theorem cycleEdge_range {n a b : Nat} (hn : 3 ≤ n) : CycleEdge (List.range n) a b ↔
    (b = a + 1 ∧ b < n) ∨ (a = b + 1 ∧ a < n) ∨ (a = 0 ∧ b = n - 1) ∨ (b = 0 ∧ a = n - 1) := by
  constructor
  · -- the list is a Hamiltonian cycle over this relation
    intro h
    have hcyc : IsHamCycle (fun a b : Nat => (b = a + 1 ∧ b < n) ∨ (a = b + 1 ∧ a < n) ∨
        (a = 0 ∧ b = n - 1) ∨ (b = 0 ∧ a = n - 1)) (List.range n) (List.range n) := by
      have hl : List.range n ≠ [] := by simp; omega
      refine (isHamCycle_iff_path hl).mpr ⟨⟨List.Perm.refl _, ?_⟩, ?_⟩
      · refine List.isChain_iff_getElem.mpr fun i hi => Or.inl ?_
        rw [List.length_range] at hi
        simpa only [List.getElem_range, true_and] using hi
      · rw [List.getLast_range, List.head_range]
        omega
    exact hcyc.rel (fun a b h => by omega) h
  · rintro (⟨rfl, h⟩ | ⟨rfl, h⟩ | ⟨rfl, rfl⟩ | ⟨rfl, rfl⟩)
    · obtain ⟨r, hr⟩ := range_isRotated h
      exact ⟨r, Or.inl hr⟩
    · obtain ⟨r, hr⟩ := range_isRotated h
      exact ⟨r, Or.inr hr⟩
    · obtain ⟨r, hr⟩ := range_isRotated_wrap (n := n) (by omega)
      exact ⟨r, Or.inr hr⟩
    · obtain ⟨r, hr⟩ := range_isRotated_wrap (n := n) (by omega)
      exact ⟨r, Or.inl hr⟩

end SymBreak.Hamilton
