import SymBreak.Isomorphism
import Mathlib.Data.Fin.Basic
import Mathlib.Data.List.OfFn

/-!
# Pairs of isomorphic graphs as models

The model every length step starts from (`CanonizingLexImplicationsAlg.cc:52-56`): on a new model,
the variables of two graphs `g1` and `g2` and of a permutation `perm`, and the constraint that
`perm` maps one to the other. `Encodes σ A B p` says that the assignment `σ` gives `g1` the graph
`A`, `g2` the graph `B` and `perm` the list `p`.

Results:
* `exists_encodes`, `agree_of_encodes`: every `A`, `B`, `p` is encoded, by one assignment of the
  variables declared;
* `encodes_decode`: an assignment in which `perm` is a permutation encodes what `decodeIntArray`
  reads;
* **`posts_iso`**: the clauses of `isomorphic` post that `B` is the image of `A` under `p`;
* **`isomorphic_exact`**: the models of the whole encoding are the triples with `A.permute p = B`,
  one model each.
-/

namespace SymBreak

open Cnf Matrix ConstraintSolver

/-- The references of two graphs and a permutation, and the solver that holds their clauses. -/
structure IsoModel where
  g1 : Matrix BoolVarRef
  g2 : Matrix BoolVarRef
  perm : List IntVarRef
  solver : ConstraintSolver

/-- A new model with the variables of two graphs and a permutation. -/
def declare (n : Nat) : IsoModel :=
  let s := newModel
  let (g1, s) := s.newAdjMatrix n
  let (g2, s) := s.newAdjMatrix n
  let (perm, s) := s.newPermutation n
  ⟨g1, g2, perm, s⟩

/-- ... and the isomorphism between them. -/
def isoModel (n : Nat) : IsoModel :=
  let m := declare n
  { m with solver := m.solver.isomorphic m.g1 m.g2 m.perm }

@[simp] theorem isoModel_g1 (n : Nat) : (isoModel n).g1 = (declare n).g1 := rfl

@[simp] theorem isoModel_g2 (n : Nat) : (isoModel n).g2 = (declare n).g2 := rfl

@[simp] theorem isoModel_perm (n : Nat) : (isoModel n).perm = (declare n).perm := rfl

variable {n : Nat} {σ τ : Assignment}

/-! ## The variables declared -/

/-- The Boolean for "`k` goes to `c`" in the model of `n` vertices. -/
def bit (n : Nat) : Nat → Nat → BoolVarRef :=
  permBit (2 + n * (n - 1) / 2 + n * (n - 1) / 2) n

/-- What the declarations amount to. -/
structure Declared (n : Nat) (m : IsoModel) : Prop where
  g1 : Numbered 2 falseConst n m.g1
  g2 : Numbered (2 + n * (n - 1) / 2) falseConst n m.g2
  length_perm : m.perm.length = n
  ints : ∀ k < n, m.solver.ints.getD (m.perm.getD k 0) default =
    ⟨0, n - 1, (List.range n).map (bit n k)⟩
  nVars : m.solver.nVars = 1 + n * (n - 1) / 2 + n * (n - 1) / 2 + n * n
  ok : m.solver.Ok
  cache : m.solver.CacheOk
  sat : ∀ σ, Sat σ m.solver.clauses ↔ σ 0 = true ∧ (∀ k < n, ExactlyOne σ n (bit n k)) ∧
    ∀ c < n, ExactlyOne σ n fun k => bit n k c

theorem ok_newModel : newModel.Ok := by
  intro c hc l hl
  simp only [newModel, newBoolVar, addClause, List.nil_append, List.mem_singleton] at hc
  subst hc
  rw [List.mem_singleton.mp hl]
  decide

theorem sat_newModel : Sat σ newModel.clauses ↔ σ 0 = true := by
  simp [newModel, newBoolVar, addClause, toLit, Lit.eval]

theorem ConstraintSolver.Ok.advance {s : ConstraintSolver} (h : s.Ok) (k : Nat) :
    (s.advance k).Ok :=
  h.below.mono (Nat.le_add_right _ _)

theorem declared (n : Nat) : Declared n (declare n) := by
  obtain ⟨hg1, hs1⟩ := newAdjMatrix_spec (s := newModel) n
  obtain ⟨hg2, hs2⟩ := newAdjMatrix_spec (s := newModel.advance (n * (n - 1) / 2)) n
  have hp := newPermutation_spec
    (s := (newModel.advance (n * (n - 1) / 2)).advance (n * (n - 1) / 2)) n
  have e : declare n = ⟨(newModel.newAdjMatrix n).1,
      ((newModel.advance (n * (n - 1) / 2)).newAdjMatrix n).1,
      (((newModel.advance (n * (n - 1) / 2)).advance (n * (n - 1) / 2)).newPermutation n).1,
      (((newModel.advance (n * (n - 1) / 2)).advance (n * (n - 1) / 2)).newPermutation n).2⟩ := by
    have h : declare n = ⟨(newModel.newAdjMatrix n).1,
        ((newModel.newAdjMatrix n).2.newAdjMatrix n).1,
        (((newModel.newAdjMatrix n).2.newAdjMatrix n).2.newPermutation n).1,
        (((newModel.newAdjMatrix n).2.newAdjMatrix n).2.newPermutation n).2⟩ := rfl
    rw [hs1, hs2] at h
    exact h
  rw [e]
  refine ⟨hg1, hg2, hp.length, hp.ints, hp.nVars, hp.ok ((ok_newModel.advance _).advance _), ?_,
    fun σ => ?_⟩
  · intro b1 b2 t ht
    rw [hp.cache] at ht
    exact absurd ht List.not_mem_nil
  · rw [hp.sat, clauses_advance, clauses_advance, sat_newModel]
    rfl

/-! ## Reading a graph off an assignment -/

/-- The entries of `g` have the values of the adjacency matrix of `A`. -/
def Reads (σ : Assignment) (g : Matrix BoolVarRef) (A : Graph n) : Prop :=
  ∀ i < n, ∀ j < n, getBoolAssignment σ (g.get i j) = A.adj i j

/-- The entries of `g` off the diagonal have the values of the adjacency matrix of `A`. -/
def ReadsEdges (σ : Assignment) (g : Matrix BoolVarRef) (A : Graph n) : Prop :=
  ∀ i < n, ∀ j < n, i ≠ j → getBoolAssignment σ (g.get i j) = A.adj i j

theorem Reads.edges {g : Matrix BoolVarRef} {A : Graph n} (h : Reads σ g A) : ReadsEdges σ g A :=
  fun i hi j hj _ => h i hi j hj

/-- The graph that the assignment gives `g`. -/
def graphOf (n : Nat) (σ : Assignment) (g : Matrix BoolVarRef) : Graph n where
  adj i j := decide (i < n) && decide (j < n) && decide (i ≠ j) &&
    getBoolAssignment σ (g.get (min i j) (max i j))
  symm i j := by
    rw [Nat.min_comm, Nat.max_comm, Bool.and_comm (decide (i < n))]
    simp only [ne_comm]
  irrefl i := by simp
  bound i j h := by simp only [Bool.and_eq_true, decide_eq_true_eq] at h; exact h.1.1.1

section Numbered

variable {base : Nat} {g : Matrix BoolVarRef}

/-- The entry at the `k`-th pair is reference `base + k`. -/
theorem Matrix.Numbered.get_upper {d : Int} (h : Numbered base d n g) {k i j : Nat}
    (hk : (upperPairs n)[k]? = some (i, j)) :
    k < n * (n - 1) / 2 ∧ g.get i j = ((base + k : Nat) : Int) := by
  obtain ⟨hlt, he⟩ := List.getElem?_eq_some_iff.mp hk
  have hlen : k < n * (n - 1) / 2 := by
    rw [← length_pairs .upperTriangleRows n]
    exact hlt
  have h' := congrArg (fun l => l[k]?) h.upper
  simp only [List.getElem?_map, hk, Option.map_some, List.getElem?_range', hlen] at h'
  refine ⟨hlen, ?_⟩
  simpa using h'

theorem getElem?_upperPairs {i j : Nat} (hij : i < j) (hj : j < n) :
    ∃ k : Nat, (upperPairs n)[k]? = some (i, j) := by
  obtain ⟨k, hk, he⟩ := List.getElem_of_mem (mem_upperPairs.mpr ⟨hij, hj⟩)
  exact ⟨k, by rw [List.getElem?_eq_getElem hk, he]⟩

/-- The pair of a position. -/
theorem exists_upperPair {k : Nat} (hk : k < n * (n - 1) / 2) :
    ∃ i j, i < j ∧ j < n ∧ (upperPairs n)[k]? = some (i, j) := by
  have hlt : k < (upperPairs n).length := by
    rw [← length_pairs .upperTriangleRows n] at hk
    exact hk
  obtain ⟨hij, hj⟩ := mem_upperPairs.mp (List.getElem_mem hlt)
  exact ⟨_, _, hij, hj, List.getElem?_eq_getElem hlt⟩

variable {d : Int} (h : Numbered base d n g) (hbase : 0 < base)
include h hbase

theorem Matrix.Numbered.edgeRefs {N : Nat} (hN : base + n * (n - 1) / 2 ≤ N + 1) :
    EdgeRefs N n g := by
  have upper : ∀ {i j : Nat}, i < j → j < n → RefBelow N (g.get i j) := by
    intro i j hij hj
    obtain ⟨k, hk⟩ := getElem?_upperPairs hij hj
    obtain ⟨hlt, he⟩ := h.get_upper hk
    rw [he]
    exact refBelow_natCast (by omega) (by omega)
  intro i hi j hj hne
  rcases Nat.lt_or_gt_of_ne hne with hlt | hgt
  · exact upper hlt hj
  · rw [h.symm i j hi hj]
    exact upper hgt hi

theorem Matrix.Numbered.value (σ : Assignment) {k i j : Nat}
    (hk : (upperPairs n)[k]? = some (i, j)) :
    getBoolAssignment σ (g.get i j) = σ (base - 1 + k) := by
  rw [(h.get_upper hk).2, getBoolAssignment_natCast (by omega)]
  congr 1
  omega

/-- The edges of a graph are read off when the upper triangle is. -/
theorem Matrix.Numbered.readsEdges_of {A : Graph n}
    (hA : ∀ k i j, (upperPairs n)[k]? = some (i, j) → σ (base - 1 + k) = A.adj i j) :
    ReadsEdges σ g A := by
  have upper : ∀ {i j : Nat}, i < j → j < n → getBoolAssignment σ (g.get i j) = A.adj i j := by
    intro i j hij hj
    obtain ⟨k, hk⟩ := getElem?_upperPairs hij hj
    rw [h.value hbase σ hk, hA k i j hk]
  intro i hi j hj hne
  rcases Nat.lt_or_gt_of_ne hne with hlt | hgt
  · exact upper hlt hj
  · rw [h.symm i j hi hj, A.symm]
    exact upper hgt hi

/-- The value of a variable of the graph that the assignment gives. -/
theorem Matrix.Numbered.graphOf_adj (σ : Assignment) {k i j : Nat}
    (hk : (upperPairs n)[k]? = some (i, j)) : σ (base - 1 + k) = (graphOf n σ g).adj i j := by
  have hlt := mem_upperPairs.mp (List.mem_of_getElem? hk)
  rw [← h.value hbase σ hk]
  simp only [graphOf, Nat.min_eq_left (Nat.le_of_lt hlt.1), Nat.max_eq_right (Nat.le_of_lt hlt.1)]
  have h1 : i < n := by omega
  have h2 : i ≠ j := by omega
  simp [h1, h2, hlt.2]

theorem Matrix.Numbered.readsEdges_graphOf (σ : Assignment) : ReadsEdges σ g (graphOf n σ g) :=
  h.readsEdges_of hbase fun _ _ _ hk => h.graphOf_adj hbase σ hk

/-- An assignment with the same edge variables gives the same edges. -/
theorem Matrix.Numbered.readsEdges_congr {N : Nat} (hN : base + n * (n - 1) / 2 ≤ N + 1)
    {A : Graph n} (hσ : ReadsEdges σ g A) (hag : AgreeBelow N σ τ) : ReadsEdges τ g A := by
  intro i hi j hj hne
  rw [← hσ i hi j hj hne]
  exact (getBoolAssignment_congr hag (h.edgeRefs hbase hN i hi j hj hne)).symm

omit h hbase in
/-- A graph is read off when its edges are, with `false` on the diagonal. -/
theorem ReadsEdges.reads (h : Numbered base falseConst n g) (h0 : σ 0 = true) {A : Graph n}
    (hA : ReadsEdges σ g A) : Reads σ g A := by
  intro i hi j hj
  by_cases hij : i = j
  · subst hij
    rw [h.diag i hi, A.irrefl]
    simp [falseConst, getBoolAssignment, toLit, Lit.eval, h0]
  · exact hA i hi j hj hij

end Numbered

theorem reads_unique {g : Matrix BoolVarRef} {A B : Graph n} (hA : Reads σ g A)
    (hB : Reads σ g B) : A = B :=
  Graph.ext_of_lt fun i j hi hj => by rw [← hA i hi j hj, hB i hi j hj]

/-! ## Encodings -/

/-- `σ` gives `g1` the graph `A`, `g2` the graph `B` and the permutation variables the list `p`. -/
structure Encodes (m : IsoModel) (σ : Assignment) (A B : Graph n) (p : List Nat) : Prop where
  trueVar : σ 0 = true
  g1 : Reads σ m.g1 A
  g2 : Reads σ m.g2 B
  perm : ∀ k < n, ∀ c < n, getBoolAssignment σ (bit n k c) = decide (image p k = c)

theorem getBoolAssignment_bit (σ : Assignment) (k c : Nat) : getBoolAssignment σ (bit n k c) =
    σ (1 + n * (n - 1) / 2 + n * (n - 1) / 2 + (k * n + c)) := by
  rw [bit, permBit, getBoolAssignment_natCast (by omega)]
  congr 1
  omega

/-- The assignment of the variables declared that encodes `A`, `B` and `p`. -/
def encoding (A B : Graph n) (p : List Nat) : Assignment := fun v =>
  let K := n * (n - 1) / 2
  let edge (G : Graph n) (k : Nat) : Bool :=
    let ij := (upperPairs n).getD k (0, 0)
    G.adj ij.1 ij.2
  if v = 0 then true
  else if v < 1 + K then edge A (v - 1)
  else if v < 1 + K + K then edge B (v - (1 + K))
  else
    let w := v - (1 + K + K)
    decide (image p (w / n) = w % n)

/-- **Every pair of graphs and every list is encoded.** -/
theorem encodes_encoding {m : IsoModel} (hm : Declared n m) (A B : Graph n) (p : List Nat) :
    Encodes m (encoding A B p) A B p where
  trueVar := rfl
  g1 := by
    refine ReadsEdges.reads hm.g1 rfl (hm.g1.readsEdges_of (by omega) fun k i j hk => ?_)
    have hlt := (hm.g1.get_upper hk).1
    have hd : (upperPairs n).getD k (0, 0) = (i, j) := by
      rw [List.getD_eq_getElem?_getD, hk, Option.getD_some]
    simp only [encoding]
    rw [if_neg (by omega), if_pos (by omega), show 2 - 1 + k - 1 = k by omega, hd]
  g2 := by
    refine ReadsEdges.reads hm.g2 rfl (hm.g2.readsEdges_of (by omega) fun k i j hk => ?_)
    have hlt := (hm.g2.get_upper hk).1
    have hd : (upperPairs n).getD k (0, 0) = (i, j) := by
      rw [List.getD_eq_getElem?_getD, hk, Option.getD_some]
    simp only [encoding]
    rw [if_neg (by omega), if_neg (by omega), if_pos (by omega),
      show 2 + n * (n - 1) / 2 - 1 + k - (1 + n * (n - 1) / 2) = k by omega, hd]
  perm := by
    intro k hk c hc
    rw [getBoolAssignment_bit]
    simp only [encoding]
    rw [if_neg (by omega), if_neg (by omega), if_neg (by omega), Nat.add_sub_cancel_left,
      Matrix.pos_div hc, Matrix.pos_mod hc]

/-- **... by one assignment of the variables declared.** -/
theorem agree_of_encodes {m : IsoModel} (hm : Declared n m) {A B : Graph n} {p : List Nat}
    (hσ : Encodes m σ A B p) (hτ : Encodes m τ A B p) : AgreeBelow m.solver.nVars σ τ := by
  have graph : ∀ {base : Nat} {g : Matrix BoolVarRef} {G : Graph n},
      Numbered base falseConst n g → 0 < base → Reads σ g G → Reads τ g G →
      ∀ k < n * (n - 1) / 2, σ (base - 1 + k) = τ (base - 1 + k) := by
    intro base g G hg hbase h1 h2 k hk
    obtain ⟨i, j, hij, hj, he⟩ := exists_upperPair hk
    rw [← hg.value hbase σ he, ← hg.value hbase τ he, h1 i (by omega) j hj, h2 i (by omega) j hj]
  intro v hv
  rw [hm.nVars] at hv
  rcases Nat.lt_or_ge v 1 with h0 | h0
  · obtain rfl : v = 0 := by omega
    rw [hσ.trueVar, hτ.trueVar]
  rcases Nat.lt_or_ge v (1 + n * (n - 1) / 2) with h1 | h1
  · have := graph hm.g1 (by omega) hσ.g1 hτ.g1 (v - 1) (by omega)
    rwa [show 2 - 1 + (v - 1) = v by omega] at this
  rcases Nat.lt_or_ge v (1 + n * (n - 1) / 2 + n * (n - 1) / 2) with h2 | h2
  · have := graph hm.g2 (by omega) hσ.g2 hτ.g2 (v - (1 + n * (n - 1) / 2)) (by omega)
    rwa [show 2 + n * (n - 1) / 2 - 1 + (v - (1 + n * (n - 1) / 2)) = v by omega] at this
  · have hn : 0 < n := by
      rcases Nat.eq_zero_or_pos n with rfl | h
      · simp at hv; omega
      · exact h
    let w := v - (1 + n * (n - 1) / 2 + n * (n - 1) / 2)
    have hw : w / n < n := Nat.div_lt_of_lt_mul (by omega)
    have hwm : w % n < n := Nat.mod_lt _ hn
    have hv' : v = 1 + n * (n - 1) / 2 + n * (n - 1) / 2 + (w / n * n + w % n) := by
      rw [Nat.div_add_mod']
      omega
    rw [hv', ← getBoolAssignment_bit σ, ← getBoolAssignment_bit τ, hσ.perm _ hw _ hwm,
      hτ.perm _ hw _ hwm]

theorem Encodes.sat {m : IsoModel} (hm : Declared n m) {A B : Graph n} {p : List Nat}
    (h : Encodes m σ A B p) (hp : p.Perm (List.range n)) : Sat σ m.solver.clauses := by
  have hlt : ∀ k < n, image p k < n := fun k hk => image_lt hp le_rfl hk
  exact (hm.sat σ).mpr
    ⟨h.trueVar, rows_of_readsPerm h.perm hlt,
      (cols_iff h.perm (length_of_perm_range hp)).mpr hp⟩

/-- **A model encodes what `decodeIntArray` reads**, and that is a permutation. -/
theorem encodes_decode {m : IsoModel} (hm : Declared n m) {s : ConstraintSolver}
    (hints : s.ints = m.solver.ints) (hσ : Sat σ m.solver.clauses) :
    Encodes m σ (graphOf n σ m.g1) (graphOf n σ m.g2) (s.decodeIntArray σ m.perm) ∧
      (s.decodeIntArray σ m.perm).Perm (List.range n) := by
  obtain ⟨h0, hrows, hcols⟩ := (hm.sat σ).mp hσ
  obtain ⟨hlen, -, hdec⟩ := decode_spec hm.length_perm (hints ▸ hm.ints) hrows
  have he : Encodes m σ (graphOf n σ m.g1) (graphOf n σ m.g2) (s.decodeIntArray σ m.perm) :=
    ⟨h0, (hm.g1.readsEdges_graphOf (by omega) σ).reads hm.g1 h0,
      (hm.g2.readsEdges_graphOf (by omega) σ).reads hm.g2 h0, hdec⟩
  exact ⟨he, (cols_iff hdec hlen).mp hcols⟩

/-! ## The isomorphism -/

theorem Declared.permRefs {m : IsoModel} (hm : Declared n m) :
    PermRefs m.solver n m.perm (bit n) :=
  permRefs_of_ints (by omega) (by rw [hm.nVars]; omega) hm.ints fun σ hσ =>
    ((hm.sat σ).mp hσ).2.2

theorem Declared.edgeRefs_g1 {m : IsoModel} (hm : Declared n m) :
    EdgeRefs m.solver.nVars n m.g1 :=
  hm.g1.edgeRefs (by omega) (by rw [hm.nVars]; omega)

theorem Declared.edgeRefs_g2 {m : IsoModel} (hm : Declared n m) :
    EdgeRefs m.solver.nVars n m.g2 :=
  hm.g2.edgeRefs (by omega) (by rw [hm.nVars]; omega)

/-- An encoding is kept when the variables declared are. -/
theorem Encodes.congr {m : IsoModel} (hm : Declared n m) {A B : Graph n} {p : List Nat}
    (h : Encodes m σ A B p) (hag : AgreeBelow m.solver.nVars σ τ) : Encodes m τ A B p := by
  have h0 : τ 0 = true := by rw [← hag 0 (by rw [hm.nVars]; omega), h.trueVar]
  refine ⟨h0, ?_, ?_, fun k hk c hc => ?_⟩
  · exact (hm.g1.readsEdges_congr (by omega) (by rw [hm.nVars]; omega) h.g1.edges hag).reads
      hm.g1 h0
  · exact (hm.g2.readsEdges_congr (by omega) (by rw [hm.nVars]; omega) h.g2.edges hag).reads
      hm.g2 h0
  · rw [← h.perm k hk c hc]
    exact (getBoolAssignment_congr hag (hm.permRefs.below k hk c hc)).symm

/-- `B` is the image of `A` under `p`, entry by entry. -/
def IsImage (A B : Graph n) (p : List Nat) : Prop :=
  ∀ k < n, ∀ l < n, A.adj (image p k) (image p l) = B.adj k l

theorem isImage_iff {A B : Graph n} {p : List Nat} : IsImage A B p ↔ A.permute p = B := by
  constructor
  · intro h
    exact Graph.ext_of_lt fun i j hi hj => by rw [Graph.permute_adj A p hi hj, h i hi j hj]
  · rintro rfl k hk l hl
    rw [Graph.permute_adj A p hk hl]

/-- **The pairs above the diagonal suffice**, as the pairs sent to them. -/
theorem upper_iff_isImage {A B : Graph n} {p : List Nat} (hp : p.Perm (List.range n))
    {R : Nat × Nat → Prop} (hR : ∀ k < n, ∀ l < n, k ≠ l →
      (R (image p k, image p l) ↔ A.adj (image p k) (image p l) = B.adj k l)) :
    (∀ ij ∈ upperPairs n, R ij) ↔ IsImage A B p := by
  constructor
  · intro h
    have upper : ∀ k < n, ∀ l < n, image p k < image p l →
        A.adj (image p k) (image p l) = B.adj k l := fun k hk l hl hkl =>
      (hR k hk l hl fun e => hkl.ne (e ▸ rfl)).mp
        (h _ (mem_upperPairs.mpr ⟨hkl, image_lt hp le_rfl hl⟩))
    intro k hk l hl
    rcases Nat.lt_trichotomy (image p k) (image p l) with hkl | hkl | hkl
    · exact upper k hk l hl hkl
    · obtain rfl := image_injective hp hkl
      rw [A.irrefl, B.irrefl]
    · rw [A.symm, B.symm]
      exact upper l hl k hk hkl
  · rintro himg ⟨i, j⟩ hij
    obtain ⟨hlt, hj⟩ := mem_upperPairs.mp hij
    obtain ⟨k, hk, rfl⟩ := exists_image hp le_rfl (hlt.trans hj)
    obtain ⟨l, hl, rfl⟩ := exists_image hp le_rfl hj
    exact (hR k hk l hl fun e => hlt.ne (e ▸ rfl)).mpr (himg k hk l hl)

/-- The relation posted by `isomorphic`, read on the graphs. -/
theorem isoRelation_iff {m : IsoModel} {A B : Graph n} {p : List Nat} (h : Encodes m σ A B p)
    (hp : p.Perm (List.range n)) : (∀ ij ∈ upperPairs n, getBoolAssignment σ (m.g1.get ij.1 ij.2) =
      (offDiag n).any (sendsEdge (bit n) m.g2 ij.1 ij.2 · σ)) ↔ IsImage A B p := by
  have hlt : ∀ {k : Nat}, k < n → image p k < n := fun hk => image_lt hp le_rfl hk
  -- the disjunction at `(p k, p l)` is the entry of `B` at `(k, l)`
  have hany : ∀ k < n, ∀ l < n, k ≠ l → (offDiag n).any
      (sendsEdge (bit n) m.g2 (image p k) (image p l) · σ) = B.adj k l := by
    intro k hk l hl hne
    rw [Bool.eq_iff_iff, List.any_eq_true]
    constructor
    · rintro ⟨⟨k', l'⟩, hkl, hs⟩
      obtain ⟨hk', hl', -⟩ := mem_offDiag.mp hkl
      simp only [sendsEdge, h.perm k' hk' _ (hlt hk), h.perm l' hl' _ (hlt hl), h.g2 k' hk' l' hl',
        Bool.and_eq_true, decide_eq_true_eq] at hs
      rw [image_injective hp hs.1.1, image_injective hp hs.1.2] at hs
      exact hs.2
    · intro hB
      refine ⟨(k, l), mem_offDiag.mpr ⟨hk, hl, hne⟩, ?_⟩
      simp [sendsEdge, h.perm k hk _ (hlt hk), h.perm l hl _ (hlt hl), h.g2 k hk l hl, hB]
  exact upper_iff_isImage hp fun k hk l hl hne => by
    rw [h.g1 _ (hlt hk) _ (hlt hl), hany k hk l hl hne]

/-- **The isomorphism constraint**, on the variables declared: whatever the model encodes, `B` is
the image of `A`. -/
theorem posts_iso (n : Nat) : ∃ P, Posts (declare n).solver (isoModel n).solver P ∧
    ∀ σ A B p, Encodes (declare n) σ A B p → p.Perm (List.range n) →
      (P σ ↔ IsImage (A : Graph n) B p) := by
  have hm := declared n
  exact ⟨_, posts_isomorphic hm.ok hm.g1.nRows hm.permRefs hm.edgeRefs_g1 hm.edgeRefs_g2,
    fun σ A B p h hp => isoRelation_iff h hp⟩

/-- `σ` satisfies the encoding, with `g1 = A`, `g2 = B` and `decodeIntArray(perm) = p`. -/
structure IsoModel.Solves (n : Nat) (σ : Assignment) (A B : Graph n) (p : List Nat) : Prop where
  sat : Sat σ (isoModel n).solver.clauses
  g1 : Reads σ (isoModel n).g1 A
  g2 : Reads σ (isoModel n).g2 B
  perm : (isoModel n).solver.decodeIntArray σ (isoModel n).perm = p

theorem solves_iff {A B : Graph n} {p : List Nat} : IsoModel.Solves n σ A B p ↔
    Sat σ (isoModel n).solver.clauses ∧ Encodes (declare n) σ A B p ∧ p.Perm (List.range n) := by
  obtain ⟨P, hP, -⟩ := posts_iso n
  have hm := declared n
  constructor
  · rintro ⟨hσ, h1, h2, hp⟩
    obtain ⟨he, hperm⟩ := encodes_decode hm hP.ints (hP.ext.sat_old hσ)
    change (isoModel n).solver.decodeIntArray σ (declare n).perm = p at hp
    rw [hp] at he hperm
    exact ⟨hσ, ⟨he.trueVar, h1, h2, he.perm⟩, hperm⟩
  · rintro ⟨hσ, he, hp⟩
    exact ⟨hσ, he.g1, he.g2,
      decode_eq hm.length_perm (hP.ints ▸ hm.ints) he.perm (length_of_perm_range hp)
        fun k hk => image_lt hp le_rfl hk⟩

/-- **The isomorphism encoding is exact.** For graphs `A`, `B` on `n` vertices and any map `p` of
the vertices, the clauses of `newAdjMatrix` (twice), `newPermutation` and `isomorphic` have a model
with `g1 = A`, `g2 = B` and `decodeIntArray(perm) = p` iff `p` is a permutation with `A[p(k)][p(l)]
= B[k][l]` for all `k`, `l`, that is `A.permute(p) = B`; and then the values of all variables are
unique. -/
theorem isomorphic_exact (n : Nat) (A B : Graph n) (p : Fin n → Fin n) :
    ((∃ σ, IsoModel.Solves n σ A B (List.ofFn fun k => (p k : Nat))) ↔
      Function.Bijective p ∧ ∀ k l : Fin n, A.adj (p k) (p l) = B.adj k l) ∧
    ((∀ k l : Fin n, A.adj (p k) (p l) = B.adj k l) ↔
      A.permute (List.ofFn fun k => (p k : Nat)) = B) ∧
    ∀ σ τ, IsoModel.Solves n σ A B (List.ofFn fun k => (p k : Nat)) →
      IsoModel.Solves n τ A B (List.ofFn fun k => (p k : Nat)) →
      AgreeBelow (isoModel n).solver.nVars σ τ := by
  have hm := declared n
  obtain ⟨P, hP, hiff⟩ := posts_iso n
  have himage : ∀ k : Fin n, image (List.ofFn fun k => (p k : Nat)) k = p k := fun k => by
    rw [image_of_lt (by simp)]
    simp
  have himg : IsImage A B (List.ofFn fun k => (p k : Nat)) ↔
      ∀ k l : Fin n, A.adj (p k) (p l) = B.adj k l := by
    constructor
    · intro h k l
      rw [← himage k, ← himage l]
      exact h k k.isLt l l.isLt
    · intro h k hk l hl
      rw [himage ⟨k, hk⟩, himage ⟨l, hl⟩]
      exact h ⟨k, hk⟩ ⟨l, hl⟩
  have hbij : Function.Bijective p ↔ (List.ofFn fun k => (p k : Nat)).Perm (List.range n) := by
    rw [← Finite.surjective_iff_bijective, perm_range_iff (by simp)]
    constructor
    · intro h c hc
      obtain ⟨k, hk⟩ := h ⟨c, hc⟩
      exact ⟨k, k.isLt, by rw [himage k, hk]⟩
    · intro h c
      obtain ⟨k, hk, he⟩ := h c c.isLt
      exact ⟨⟨k, hk⟩, Fin.ext (by rw [← himage ⟨k, hk⟩, he])⟩
  refine ⟨⟨?_, ?_⟩, himg.symm.trans isImage_iff, ?_⟩
  · rintro ⟨σ, hσ⟩
    obtain ⟨hsat, he, hp⟩ := solves_iff.mp hσ
    exact ⟨hbij.mpr hp, himg.mp ((hiff σ A B _ he hp).mp (hP.ext.sound σ hsat))⟩
  · rintro ⟨hb, hAB⟩
    have hp := hbij.mp hb
    have he := encodes_encoding hm A B (List.ofFn fun k => (p k : Nat))
    obtain ⟨τ, hag, hτ⟩ := hP.ext.complete _ (he.sat hm hp)
      ((hiff _ A B _ he hp).mpr (himg.mpr hAB))
    exact ⟨τ, solves_iff.mpr ⟨hτ, he.congr hm hag, hp⟩⟩
  · intro σ τ hσ hτ
    obtain ⟨hsat, he, -⟩ := solves_iff.mp hσ
    obtain ⟨hsat', he', -⟩ := solves_iff.mp hτ
    exact hP.ext.unique σ τ hsat hsat' (agree_of_encodes hm he he')

end SymBreak
