import SymBreak.Connectives
import SymBreak.Graph

/-!
# The isomorphism encoding

What `newAdjMatrix`, `newPermutation` and `isomorphic` (`ConstraintSolver.cc:94-105, 256-327,
382-406`) post.
-/

namespace SymBreak.ConstraintSolver

open Cnf Matrix

variable {s s' : ConstraintSolver} {N : Nat} {σ τ : Assignment} {b b1 b2 b3 t : Int}

/-! ## Exactly one -/

/-- The clauses of `atMostOne`. -/
def atMostOneRefs : List BoolVarRef → List (List BoolVarRef)
  | [] => []
  | b :: bools => bools.map (fun b' => [neg b, neg b']) ++ atMostOneRefs bools

/-- The clauses of `exactlyOne`. -/
def exactlyOneRefs (bools : List BoolVarRef) : List (List BoolVarRef) :=
  bools :: atMostOneRefs bools

theorem atMostOne_eq (bools : List BoolVarRef) (s : ConstraintSolver) :
    s.atMostOne bools = s.post (atMostOneRefs bools) := by
  induction bools generalizing s with
  | nil => exact post_nil.symm
  | cons b bools ihb =>
    have hrow : ∀ (l : List BoolVarRef) (s : ConstraintSolver),
        l.foldl (fun s b' => s.addClause [toLit (neg b), toLit (neg b')]) s =
          s.post (l.map fun b' => [neg b, neg b']) := by
      intro l
      induction l with
      | nil => exact fun s => post_nil.symm
      | cons b' l ih =>
        intro s
        rw [List.foldl_cons, ih, List.map_cons]
        exact post_post (D := [[neg b, neg b']])
    rw [atMostOne, hrow, ihb, post_post]
    rfl

theorem exactlyOne_eq (bools : List BoolVarRef) :
    s.exactlyOne bools = s.post (exactlyOneRefs bools) := by
  rw [exactlyOne, atMostOne_eq]
  exact post_post (D := [bools])

theorem means_atMostOne {bools : List BoolVarRef} (h : ∀ b ∈ bools, b ≠ 0) :
    Means σ (atMostOneRefs bools) ↔ Exclusive σ bools := by
  induction bools with
  | nil => simp [atMostOneRefs, Exclusive]
  | cons b bools ih =>
    rw [List.forall_mem_cons] at h
    rw [atMostOneRefs, means_append, ih h.2, Exclusive, Exclusive, List.pairwise_cons]
    refine and_congr_left fun _ => ?_
    simp only [Means, List.mem_map, forall_exists_index, and_imp, forall_apply_eq_imp_iff₂]
    refine forall₂_congr fun b' hb' => ?_
    simp only [List.mem_cons, List.not_mem_nil, or_false, exists_eq_or_imp, exists_eq_left,
      getBoolAssignment_neg h.1, getBoolAssignment_neg (h.2 b' hb')]
    cases getBoolAssignment σ b <;> cases getBoolAssignment σ b' <;> simp

theorem refsBelow_atMostOne {bools : List BoolVarRef} (h : ∀ b ∈ bools, RefBelow N b) :
    RefsBelow N (atMostOneRefs bools) := by
  induction bools with
  | nil => exact List.forall_mem_nil _
  | cons b bools ih =>
    rw [List.forall_mem_cons] at h
    intro c hc b' hb'
    rcases List.mem_append.mp hc with hc | hc
    · obtain ⟨d, hd, rfl⟩ := List.mem_map.mp hc
      simp only [List.mem_cons, List.not_mem_nil, or_false] at hb'
      rcases hb' with rfl | rfl
      · exact refBelow_neg.mpr h.1
      · exact refBelow_neg.mpr (h.2 d hd)
    · exact ih h.2 c hc b' hb'

theorem refsBelow_exactlyOne {bools : List BoolVarRef} (h : ∀ b ∈ bools, RefBelow N b) :
    RefsBelow N (exactlyOneRefs bools) :=
  List.forall_mem_cons.mpr ⟨h, refsBelow_atMostOne h⟩

/-- Exactly one of the first `n` references is true. -/
def ExactlyOne (σ : Assignment) (n : Nat) (f : Nat → BoolVarRef) : Prop :=
  (∃ c < n, getBoolAssignment σ (f c) = true) ∧ ∀ c < n, ∀ c' < n,
    getBoolAssignment σ (f c) = true → getBoolAssignment σ (f c') = true → c = c'

theorem means_exactlyOne {n : Nat} {f : Nat → BoolVarRef} (h : ∀ c < n, f c ≠ 0) :
    Means σ (exactlyOneRefs ((List.range n).map f)) ↔ ExactlyOne σ n f := by
  rw [exactlyOneRefs, means_cons, means_atMostOne (by simpa using h)]
  refine and_congr (by simp) ?_
  simp only [Exclusive, List.pairwise_iff_getElem, List.length_map, List.length_range,
    List.getElem_map, List.getElem_range]
  constructor
  · intro hex c hc c' hc' h1 h2
    rcases Nat.lt_trichotomy c c' with hlt | rfl | hlt
    · exact absurd ⟨h1, h2⟩ (hex c c' hc hc' hlt)
    · rfl
    · exact absurd ⟨h2, h1⟩ (hex c' c hc' hc hlt)
  · rintro huniq c c' hc hc' hlt ⟨h1, h2⟩
    have := huniq c hc c' hc' h1 h2
    omega

/-- Several times exactly one of `n` references. -/
theorem means_exactlyOnes {n : Nat} {g : Nat → Nat → BoolVarRef} (hg : ∀ a b, g a b ≠ 0) :
    Means σ ((List.range n).flatMap fun a => exactlyOneRefs ((List.range n).map (g a))) ↔
      ∀ a < n, ExactlyOne σ n (g a) := by
  rw [means_flatMap]
  simp only [List.mem_range]
  exact forall₂_congr fun a _ => means_exactlyOne fun c _ => hg a c

theorem refsBelow_exactlyOnes {n : Nat} {g : Nat → Nat → BoolVarRef}
    (hg : ∀ a < n, ∀ b < n, RefBelow N (g a b)) :
    RefsBelow N ((List.range n).flatMap fun a => exactlyOneRefs ((List.range n).map (g a))) := by
  refine refsBelow_flatMap fun a ha => refsBelow_exactlyOne fun b hb => ?_
  obtain ⟨c, hc, rfl⟩ := List.mem_map.mp hb
  exact hg a (List.mem_range.mp ha) c (List.mem_range.mp hc)

/-! ## Variables of a matrix and of a permutation -/

/-- `k` fresh variables. -/
def advance (s : ConstraintSolver) (k : Nat) : ConstraintSolver :=
  { s with
    nVars := s.nVars + k
    nextBoolID := s.nextBoolID + k
    nextBoolID_eq := by rw [s.nextBoolID_eq]; omega }

@[simp] theorem nVars_advance (k : Nat) : (s.advance k).nVars = s.nVars + k := rfl

@[simp] theorem nextBoolID_advance (k : Nat) : (s.advance k).nextBoolID = s.nextBoolID + k := rfl

@[simp] theorem clauses_advance (k : Nat) : (s.advance k).clauses = s.clauses := rfl

@[simp] theorem ints_advance (k : Nat) : (s.advance k).ints = s.ints := rfl

@[simp] theorem nVars_pushInt (v : IntVar) : (s.pushInt v).nVars = s.nVars := rfl

@[simp] theorem clauses_pushInt (v : IntVar) : (s.pushInt v).clauses = s.clauses := rfl

@[simp] theorem ints_pushInt (v : IntVar) : (s.pushInt v).ints = s.ints ++ [v] := rfl

theorem iterate_newBoolVar (k : Nat) :
    (fun s : ConstraintSolver => s.newBoolVar.2)^[k] s = s.advance k := by
  induction k with
  | zero => rfl
  | succ k ih =>
    rw [Function.iterate_succ_apply', ih]
    rfl

/-- **`newAdjMatrix`** numbers the pairs row by row and puts `false` on the diagonal. -/
theorem newAdjMatrix_spec (n : Nat) :
    Numbered s.nextBoolID falseConst n (s.newAdjMatrix n).1 ∧
      (s.newAdjMatrix n).2 = s.advance (n * (n - 1) / 2) := by
  have h := numberPairs_spec nextBoolID (fun s => s.newBoolVar.2)
    (fun g i => g.set i i (neg trueConst)) (n := n) (d := falseConst) (fun _ => rfl) s
    fun g i hr hc hi _ => ⟨hr, hc, fun a b ha hb => by
      rw [get_set (by omega) (by omega) (by omega)]
      rfl⟩
  rw [iterate_newBoolVar] at h
  exact h

/-- The Boolean for "`k` goes to `c`" of a permutation whose variables start at `base`. -/
def permBit (base n k c : Nat) : BoolVarRef := ((base + k * n + c : Nat) : Int)

theorem newBools_eq (l : List Nat) :
    l.foldl (fun r _ => (r.1 ++ [r.2.newBoolVar.1], r.2.newBoolVar.2))
      (([], s) : List BoolVarRef × ConstraintSolver) =
      ((List.range l.length).map fun c : Nat => ((s.nextBoolID + c : Nat) : Int),
        s.advance l.length) := by
  induction l using List.reverseRecOn with
  | nil => rfl
  | append_singleton l i ih =>
    rw [List.foldl_append, ih, List.length_append, List.length_singleton, List.range_succ,
      List.map_append]
    rfl

theorem newIntVar_eq (lb ub : Int) :
    let k := (ub + 1 - lb).toNat
    let bools := (List.range k).map fun c : Nat => ((s.nextBoolID + c : Nat) : Int)
    s.newIntVar lb ub = (s.nextIntID,
      ((s.advance k).post (exactlyOneRefs bools)).pushInt ⟨lb, ub, bools⟩) := by
  have h : s.newIntVar lb ub = (fun r : List BoolVarRef × ConstraintSolver =>
      (s.nextIntID, (r.2.exactlyOne r.1).pushInt ⟨lb, ub, r.1⟩))
      ((List.range (ub + 1 - lb).toNat).foldl (fun r _ =>
        (r.1 ++ [r.2.newBoolVar.1], r.2.newBoolVar.2)) ([], s)) := rfl
  rw [h, newBools_eq, List.length_range]
  simp only [exactlyOne_eq]

/-- What the first loop of `newPermutation` has made after `m` turns. -/
structure PermRows (s : ConstraintSolver) (n m : Nat) (r : List IntVarRef × ConstraintSolver) :
    Prop where
  perm : r.1 = List.range' s.ints.length m
  nVars : r.2.nVars = s.nVars + m * n
  clauses : r.2.clauses = s.clauses ++ ((List.range m).flatMap fun k =>
    exactlyOneRefs ((List.range n).map (permBit s.nextBoolID n k))).map (List.map toLit)
  ints : r.2.ints = s.ints ++ (List.range m).map fun k =>
    ⟨0, n - 1, (List.range n).map (permBit s.nextBoolID n k)⟩
  cache : r.2.iffReifCache = s.iffReifCache

theorem permRows (s : ConstraintSolver) (n : Nat) : ∀ m, m ≤ n → PermRows s n m
    ((List.range m).foldl (fun (perm, s) _ =>
      (perm ++ [(s.newIntVar 0 (n - 1)).1], (s.newIntVar 0 (n - 1)).2)) ([], s)) := by
  intro m
  induction m with
  | zero => exact fun _ => ⟨rfl, by simp, by simp, by simp, rfl⟩
  | succ m ih =>
    intro hm
    obtain ⟨hp, hn, hc, hi, hcache⟩ := ih (by omega)
    simp only [List.range_succ, List.foldl_append, List.foldl_cons, List.foldl_nil]
    generalize (List.range m).foldl (fun (perm, s) _ =>
      (perm ++ [(s.newIntVar 0 (n - 1)).1], (s.newIntVar 0 (n - 1)).2)) ([], s) = r at *
    have hbase : r.2.nextBoolID = s.nextBoolID + m * n := by
      rw [r.2.nextBoolID_eq, hn, s.nextBoolID_eq]
      omega
    have hv : r.2.newIntVar 0 (n - 1) = (r.2.nextIntID,
        ((r.2.advance n).post
            (exactlyOneRefs ((List.range n).map (permBit s.nextBoolID n m)))).pushInt
          ⟨0, n - 1, (List.range n).map (permBit s.nextBoolID n m)⟩) := by
      have h := newIntVar_eq (s := r.2) 0 (n - 1)
      rw [show ((n : Int) - 1 + 1 - 0).toNat = n by omega, hbase] at h
      exact h
    rw [hv]
    refine ⟨?_, ?_, ?_, ?_, hcache⟩
    · rw [hp, r.2.nextIntID_eq, hi, List.range'_1_concat]
      simp
    · rw [nVars_pushInt, nVars_post, nVars_advance, hn, Nat.add_mul, Nat.one_mul, Nat.add_assoc]
    · rw [clauses_pushInt, clauses_post, clauses_advance, hc, List.append_assoc, ← List.map_append,
        List.range_succ, List.flatMap_append, List.flatMap_singleton]
    · rw [ints_pushInt, ints_post, ints_advance, hi, List.append_assoc, List.range_succ,
        List.map_append, List.map_singleton]

/-- A loop whose turns post clauses that depend on the integers only. -/
theorem foldl_post {ι : Type*} {f : ConstraintSolver → ι → ConstraintSolver}
    {D : ι → List (List BoolVarRef)} {ints : List IntVar} (l : List ι) (s : ConstraintSolver)
    (hs : s.ints = ints) (h : ∀ s', s'.ints = ints → ∀ i ∈ l, f s' i = s'.post (D i)) :
    l.foldl f s = s.post (l.flatMap D) := by
  induction l generalizing s with
  | nil => exact post_nil.symm
  | cons i l ih =>
    rw [List.foldl_cons, h s hs i List.mem_cons_self, ih (s.post (D i)) hs
      fun s' hs' j hj => h s' hs' j (List.mem_cons_of_mem i hj), post_post, List.flatMap_cons]

/-- What `newPermutation` makes: the variables of a permutation, and clauses that say that it is
one. -/
structure PermVars (s : ConstraintSolver) (n : Nat) (r : List IntVarRef × ConstraintSolver) :
    Prop where
  length : r.1.length = n
  nVars : r.2.nVars = s.nVars + n * n
  mono : ∀ c ∈ s.clauses, c ∈ r.2.clauses
  ok : s.Ok → r.2.Ok
  cache : r.2.iffReifCache = s.iffReifCache
  ints : ∀ k < n, r.2.ints.getD (r.1.getD k 0) default =
    ⟨0, n - 1, (List.range n).map (permBit s.nextBoolID n k)⟩
  sat : ∀ σ, Sat σ r.2.clauses ↔ Sat σ s.clauses ∧
    (∀ k < n, ExactlyOne σ n (permBit s.nextBoolID n k)) ∧
    ∀ c < n, ExactlyOne σ n fun k => permBit s.nextBoolID n k c

theorem PermRows.getD_ints {n k : Nat} {r : List IntVarRef × ConstraintSolver}
    (h : PermRows s n n r) (hk : k < n) : r.2.ints.getD (s.ints.length + k) default =
      ⟨0, n - 1, (List.range n).map (permBit s.nextBoolID n k)⟩ := by
  rw [h.ints, List.getD_append_right _ _ _ _ (by omega), Nat.add_sub_cancel_left,
    List.getD_eq_getElem _ _ (by simpa using hk)]
  simp

/-- The Booleans for the value `c`. -/
theorem PermRows.column {n c : Nat} {r : List IntVarRef × ConstraintSolver}
    (h : PermRows s n n r) (hc : c < n) :
    (r.1.map fun v => (r.2.ints.getD v default).bools.getD c 0) =
      (List.range n).map fun k => permBit s.nextBoolID n k c := by
  rw [h.perm, List.range'_eq_map_range, List.map_map]
  refine List.map_congr_left fun k hk => ?_
  rw [List.mem_range] at hk
  rw [Function.comp_apply, Nat.add_comm, Nat.add_comm k, h.getD_ints hk,
    List.getD_eq_getElem _ _ (by simpa using hc)]
  simp

theorem permBit_ne_zero (n k c : Nat) : permBit s.nextBoolID n k c ≠ 0 := by
  rw [permBit, s.nextBoolID_eq]
  exact Int.natCast_ne_zero.mpr (by omega)

theorem refBelow_permBit {n k c : Nat} (hk : k < n) (hc : c < n) :
    RefBelow (s.nVars + n * n) (permBit s.nextBoolID n k c) := by
  have := Matrix.pos_lt hk hc
  rw [permBit, s.nextBoolID_eq]
  exact refBelow_natCast (by omega) (by omega)

/-- **`newPermutation`** makes `n` integers in `0, …, n - 1` that take every value once. -/
theorem newPermutation_spec (n : Nat) : PermVars s n (s.newPermutation n) := by
  have hrows := permRows s n n le_rfl
  have h : s.newPermutation n =
      (fun r : List IntVarRef × ConstraintSolver => (r.1, (List.range n).foldl (fun s num =>
        s.exactlyOne (r.1.map fun v => (s.ints.getD v default).bools.getD num 0)) r.2))
      ((List.range n).foldl (fun (perm, s) _ =>
        (perm ++ [(s.newIntVar 0 (n - 1)).1], (s.newIntVar 0 (n - 1)).2)) ([], s)) := rfl
  rw [h]
  generalize (List.range n).foldl (fun (perm, s) _ =>
    (perm ++ [(s.newIntVar 0 (n - 1)).1], (s.newIntVar 0 (n - 1)).2)) ([], s) = r at *
  have hloop := foldl_post (f := fun s num =>
      s.exactlyOne (r.1.map fun v => (s.ints.getD v default).bools.getD num 0))
    (D := fun c => exactlyOneRefs ((List.range n).map fun k => permBit s.nextBoolID n k c))
    (List.range n) r.2 rfl fun s' hs' num hnum => by
      rw [exactlyOne_eq, hs', hrows.column (List.mem_range.mp hnum)]
  simp only [hloop]
  refine ⟨by simp [hrows.perm], hrows.nVars, fun c hc => ?_, fun hs => ?_, hrows.cache,
    fun k hk => ?_, fun σ => ?_⟩
  · rw [clauses_post, hrows.clauses]
    exact List.mem_append_left _ (List.mem_append_left _ hc)
  · rw [Ok, nVars_post, clauses_post, hrows.nVars, hrows.clauses]
    exact below_append (below_append (hs.below.mono (by omega))
      (refsBelow_exactlyOnes fun k hk c hc => refBelow_permBit hk hc).below)
      (refsBelow_exactlyOnes fun c hc k hk => refBelow_permBit hk hc).below
  · have e : r.1.getD k 0 = s.ints.length + k := by
      rw [hrows.perm, List.getD_eq_getElem _ _ (by simpa using hk)]
      simp
    rw [ints_post, e, hrows.getD_ints hk]
  · rw [clauses_post, hrows.clauses, sat_append, sat_append, sat_map_toLit, sat_map_toLit,
      means_exactlyOnes fun k c => permBit_ne_zero n k c,
      means_exactlyOnes (g := fun c k => permBit s.nextBoolID n k c) fun c k =>
        permBit_ne_zero n k c, and_assoc]

/-! ## The relation posted by `isomorphic` -/

/-- The pairs `(k, l)` with `k ≠ l`, row by row. -/
def offDiag (n : Nat) : List (Nat × Nat) :=
  (List.range n).flatMap fun k => ((List.range n).filter fun l => k ≠ l).map fun l => (k, l)

theorem mem_offDiag {n k l : Nat} : (k, l) ∈ offDiag n ↔ k < n ∧ l < n ∧ k ≠ l := by
  simp only [offDiag, List.mem_flatMap, List.mem_range, List.mem_map, List.mem_filter,
    decide_eq_true_eq, Prod.mk.injEq]
  constructor
  · rintro ⟨a, ha, b, ⟨hb, hne⟩, rfl, rfl⟩
    exact ⟨ha, hb, hne⟩
  · rintro ⟨hk, hl, hne⟩
    exact ⟨k, hk, l, ⟨hl, hne⟩, rfl, rfl⟩

theorem nodup_offDiag (n : Nat) : (offDiag n).Nodup :=
  nodup_rows List.nodup_range fun _ => List.nodup_range.filter _

/-- The references `bit k c` are those of the integers `perm`, and no value is taken twice. -/
structure PermRefs (s : ConstraintSolver) (n : Nat) (perm : List IntVarRef)
    (bit : Nat → Nat → BoolVarRef) : Prop where
  ref : ∀ k < n, ∀ c < n, s.intEqReif (perm.getD k 0) c = bit k c
  below : ∀ k < n, ∀ c < n, RefBelow s.nVars (bit k c)
  col : ∀ σ, Sat σ s.clauses → ∀ c < n, ∀ k < n, ∀ k' < n,
    getBoolAssignment σ (bit k c) = true → getBoolAssignment σ (bit k' c) = true → k = k'

/-- The integers of `newPermutation` have such references, wherever its bits start. -/
theorem permRefs_of_ints {base : Nat} (hbase : 0 < base) (hle : base + n * n ≤ s.nVars + 1)
    (hints : ∀ k < n, s.ints.getD (perm.getD k 0) default =
      ⟨0, n - 1, (List.range n).map (permBit base n k)⟩)
    (hcols : ∀ σ, Sat σ s.clauses → ∀ c < n, ExactlyOne σ n fun k => permBit base n k c) :
    PermRefs s n perm (permBit base n) where
  ref := by
    intro k hk c hc
    simp only [intEqReif, hints k hk, Int.sub_zero, Int.toNat_natCast]
    rw [List.getD_eq_getElem _ _ (by simpa using hc)]
    simp
  below := by
    intro k hk c hc
    have := Matrix.pos_lt hk hc
    rw [permBit]
    exact refBelow_natCast (by omega) (by omega)
  col := by
    intro σ hσ c hc k hk k' hk' h1 h2
    exact (hcols σ hσ c hc).2 k hk k' hk' h1 h2

/-- The entries off the diagonal are variables that exist. -/
def EdgeRefs (N n : Nat) (g : Matrix BoolVarRef) : Prop :=
  ∀ i < n, ∀ j < n, i ≠ j → RefBelow N (g.get i j)

/-- The reference made for `k` and `l` at the pair `(i, j)`: `k` goes to `i`, `l` to `j`, and
`{k, l}` is an edge of `g2`. -/
def sendsEdge (bit : Nat → Nat → BoolVarRef) (g2 : Matrix BoolVarRef) (i j : Nat)
    (kl : Nat × Nat) (σ : Assignment) : Bool :=
  getBoolAssignment σ (bit kl.1 i) && getBoolAssignment σ (bit kl.2 j) &&
    getBoolAssignment σ (g2.get kl.1 kl.2)

section Isomorphic

variable {n : Nat} {g1 g2 : Matrix BoolVarRef} {perm : List IntVarRef}
  {bit : Nat → Nat → BoolVarRef}

/-- The turn of `isomorphic` at `(k, l)`. -/
def isoTerm (g2 : Matrix BoolVarRef) (perm : List IntVarRef) (i j : Nat) (s : ConstraintSolver)
    (kl : Nat × Nat) : BoolVarRef × ConstraintSolver :=
  (s.newBoolVar.1, s.newBoolVar.2.boolAndReif3 (s.intEqReif (perm.getD kl.1 0) i)
    (s.intEqReif (perm.getD kl.2 0) j) (g2.get kl.1 kl.2) s.newBoolVar.1)

/-- The turn of `isomorphic` at the pair `(i, j)`. -/
def isoPair (n : Nat) (g1 g2 : Matrix BoolVarRef) (perm : List IntVarRef) (s : ConstraintSolver)
    (ij : Nat × Nat) : ConstraintSolver :=
  let r := collect (isoTerm g2 perm ij.1 ij.2) s (offDiag n)
  r.2.boolArrayOrReif r.1 (g1.get ij.1 ij.2)

/-- `isomorphic` as one loop over the pairs. -/
theorem isomorphic_eq (hr : g1.nRows = n) :
    s.isomorphic g1 g2 perm = (upperPairs n).foldl (isoPair n g1 g2 perm) s := by
  have inner : ∀ (i j : Nat) (r : List BoolVarRef × ConstraintSolver),
      (List.range n).foldl (fun r k => (List.range n).foldl (fun r l =>
        if k ≠ l then
          (r.1 ++ [(isoTerm g2 perm i j r.2 (k, l)).1], (isoTerm g2 perm i j r.2 (k, l)).2)
        else r) r) r =
      (offDiag n).foldl (collectTurn (isoTerm g2 perm i j)) r := by
    intro i j r
    simp only [offDiag, List.foldl_flatMap, List.foldl_map, List.foldl_filter, decide_eq_true_eq,
      collectTurn]
  have outer : s.isomorphic g1 g2 perm = (List.range n).foldl (fun s i =>
      (List.range' (i + 1) (n - (i + 1))).foldl (fun s j =>
        (fun r : List BoolVarRef × ConstraintSolver => r.2.boolArrayOrReif r.1 (g1.get i j))
          ((List.range n).foldl (fun r k => (List.range n).foldl (fun r l =>
            if k ≠ l then
              (r.1 ++ [(isoTerm g2 perm i j r.2 (k, l)).1], (isoTerm g2 perm i j r.2 (k, l)).2)
            else r) r) ([], s))) s) s := by
    rw [isomorphic, hr]
    rfl
  rw [outer, upperPairs, List.foldl_flatMap]
  simp only [List.foldl_map, inner]
  rfl

theorem PermRefs.posts {Q : Assignment → Prop} (h : PermRefs s n perm bit) (hp : Posts s s' Q) :
    PermRefs s' n perm bit where
  ref := fun k hk c hc => by rw [intEqReif, hp.ints]; exact h.ref k hk c hc
  below := fun k hk c hc => (h.below k hk c hc).mono hp.le
  col := fun σ hσ => h.col σ (hp.ext.sat_old hσ)

theorem EdgeRefs.mono {M : Nat} {g : Matrix BoolVarRef} (h : EdgeRefs N n g) (hle : N ≤ M) :
    EdgeRefs M n g :=
  fun i hi j hj hij => (h i hi j hj hij).mono hle

theorem sendsEdge_congr (hp : PermRefs s n perm bit) (h2 : EdgeRefs s.nVars n g2) {i j : Nat}
    (hi : i < n) (hj : j < n) {kl : Nat × Nat} (hkl : kl ∈ offDiag n)
    (hag : AgreeBelow s.nVars σ τ) : sendsEdge bit g2 i j kl σ = sendsEdge bit g2 i j kl τ := by
  obtain ⟨hk, hl, hne⟩ := mem_offDiag.mp hkl
  rw [sendsEdge, sendsEdge, getBoolAssignment_congr hag (hp.below _ hk _ hi),
    getBoolAssignment_congr hag (hp.below _ hl _ hj),
    getBoolAssignment_congr hag (h2 _ hk _ hl hne)]

theorem posts_isoTerm (hs : s.Ok) (hp : PermRefs s n perm bit) (h2 : EdgeRefs s.nVars n g2)
    {i j : Nat} (hi : i < n) (hj : j < n) {kl : Nat × Nat} (hkl : kl ∈ offDiag n) :
    let r := isoTerm g2 perm i j s kl
    Posts s r.2 (fun _ => True) ∧ RefBelow r.2.nVars r.1 ∧ ∀ σ, Sat σ r.2.clauses →
      getBoolAssignment σ r.1 = sendsEdge bit g2 i j kl σ := by
  obtain ⟨hk, hl, hne⟩ := mem_offDiag.mp hkl
  have b1 := hp.below _ hk _ hi
  have b2 := hp.below _ hl _ hj
  have b3 := h2 _ hk _ hl hne
  simp only [isoTerm, hp.ref _ hk _ hi, hp.ref _ hl _ hj, boolAndReif3_eq]
  have hm : ∀ σ, Means σ (andReif3 (bit kl.1 i) (bit kl.2 j) (g2.get kl.1 kl.2) s.newBoolVar.1) ↔
      getBoolAssignment σ s.newBoolVar.1 = sendsEdge bit g2 i j kl σ :=
    fun σ => means_andReif3 b1.1 b2.1 b3.1 refBelow_newBoolVar.1
  refine ⟨posts_define hs (refsBelow_andReif3 (b1.mono (Nat.le_succ _)) (b2.mono (Nat.le_succ _))
    (b3.mono (Nat.le_succ _)) refBelow_newBoolVar) (fun σ _ => hm σ)
    fun σ τ hag => sendsEdge_congr hp h2 hi hj hkl hag, refBelow_newBoolVar, fun σ hσ => ?_⟩
  rw [clauses_post, sat_append, sat_map_toLit] at hσ
  exact (hm σ).mp hσ.2

/-- At most one pair `(k, l)` sends an edge to `(i, j)`. -/
theorem sendsEdge_exclusive (g2 : Matrix BoolVarRef) (hp : PermRefs s n perm bit)
    (hσ : Sat σ s.clauses) {i j : Nat} (hi : i < n) (hj : j < n) :
    ((offDiag n).map (sendsEdge bit g2 i j · σ)).Pairwise fun a b => ¬ (a = true ∧ b = true) := by
  rw [List.pairwise_map]
  refine (nodup_offDiag n).imp_of_mem fun {a b} ha hb hab => ?_
  rintro ⟨h1, h2⟩
  obtain ⟨hk, hl, -⟩ := mem_offDiag.mp ha
  obtain ⟨hk', hl', -⟩ := mem_offDiag.mp hb
  simp only [sendsEdge, Bool.and_eq_true] at h1 h2
  exact hab (Prod.ext (hp.col σ hσ i hi _ hk _ hk' h1.1.1 h2.1.1)
    (hp.col σ hσ j hj _ hl _ hl' h1.1.2 h2.1.2))

theorem posts_isoPair (hs : s.Ok) (hp : PermRefs s n perm bit) (h1 : EdgeRefs s.nVars n g1)
    (h2 : EdgeRefs s.nVars n g2) {ij : Nat × Nat} (hij : ij ∈ upperPairs n) :
    Posts s (isoPair n g1 g2 perm s ij) fun σ => getBoolAssignment σ (g1.get ij.1 ij.2) =
      (offDiag n).any (sendsEdge bit g2 ij.1 ij.2 · σ) := by
  obtain ⟨i, j⟩ := ij
  have hlt := mem_upperPairs.mp hij
  have hi : i < n := by omega
  have hj : j < n := hlt.2
  obtain ⟨hr, hlen1, hb, hv⟩ := posts_collect (g := isoTerm g2 perm i j)
    (v := fun kl σ => sendsEdge bit g2 i j kl σ) hs (offDiag n) fun kl hkl s' hs' =>
      posts_isoTerm hs'.ok (hp.posts hs') (h2.mono hs'.le) hi hj hkl
  simp only [isoPair]
  generalize collect (isoTerm g2 perm i j) s (offDiag n) = r at *
  have hlen : 2 ≤ r.1.length := by
    have hsub : [(i, j), (j, i)].Subperm (offDiag n) := by
      refine List.subperm_of_subset (by simp; omega) fun x hx => ?_
      simp only [List.mem_cons, List.not_mem_nil, or_false] at hx
      rcases hx with rfl | rfl <;> exact mem_offDiag.mpr (by omega)
    simpa [hlen1] using hsub.length_le
  have hij' : RefBelow s.nVars (g1.get i j) := h1 i hi j hj (by omega)
  refine hr.trans_true (posts_arrayOrReif hr.ok hlen hb (fun σ hσ => ?_)
    (hij'.mono hr.le)) (fun σ hσ => ?_) fun σ τ hag h => ?_
  · have hex := sendsEdge_exclusive g2 hp (hr.ext.sat_old hσ) hi hj
    rw [← hv σ hσ, List.pairwise_map] at hex
    exact hex
  · have e : r.1.any (getBoolAssignment σ) = (r.1.map (getBoolAssignment σ)).any id := by
      simp [List.any_map]
    rw [e, hv σ hσ]
    simp [List.any_map]
  · rw [← getBoolAssignment_congr hag hij', h]
    exact any_congr_mem fun kl hkl => sendsEdge_congr hp h2 hi hj hkl hag

/-- **`isomorphic`** posts that `g1` is the image of `g2`: an edge of `g1` is where the permutation
sends an edge of `g2`. -/
theorem posts_isomorphic (hs : s.Ok) (hr : g1.nRows = n) (hp : PermRefs s n perm bit)
    (h1 : EdgeRefs s.nVars n g1) (h2 : EdgeRefs s.nVars n g2) :
    Posts s (s.isomorphic g1 g2 perm) fun σ => ∀ ij ∈ upperPairs n,
      getBoolAssignment σ (g1.get ij.1 ij.2) =
        (offDiag n).any (sendsEdge bit g2 ij.1 ij.2 · σ) := by
  rw [isomorphic_eq hr]
  refine posts_foldl hs (upperPairs n) (fun ij hij s' Q hs' =>
    posts_isoPair hs'.ok (hp.posts hs') (h1.mono hs'.le) (h2.mono hs'.le) hij) ?_
  rintro ⟨i, j⟩ hij σ τ hag h
  have hlt := mem_upperPairs.mp hij
  rw [← getBoolAssignment_congr hag (h1 i (by omega) j hlt.2 (by omega)), h]
  exact any_congr_mem fun kl hkl => sendsEdge_congr hp h2 (by omega) hlt.2 hkl hag

end Isomorphic

/-! ## Reading a permutation off an assignment -/

section ReadsPerm

variable {n : Nat} {bits : Nat → Nat → BoolVarRef} {p : List Nat} {perm : List IntVarRef}

/-- The references `bits k c` have the values "`k` goes to `c`" of `p`. -/
def ReadsPerm (n : Nat) (σ : Assignment) (bits : Nat → Nat → BoolVarRef) (p : List Nat) : Prop :=
  ∀ k < n, ∀ c < n, getBoolAssignment σ (bits k c) = decide (image p k = c)

/-- When every row has exactly one true entry, `decodeIntArray` reads it. -/
theorem decode_spec (hlen : perm.length = n)
    (hints : ∀ k < n, s.ints.getD (perm.getD k 0) default =
      ⟨0, n - 1, (List.range n).map (bits k)⟩)
    (hrows : ∀ k < n, ExactlyOne σ n (bits k)) :
    (s.decodeIntArray σ perm).length = n ∧
      (∀ k < n, image (s.decodeIntArray σ perm) k < n) ∧
      ReadsPerm n σ bits (s.decodeIntArray σ perm) := by
  have hlen' : (s.decodeIntArray σ perm).length = n := by
    rw [decodeIntArray, List.length_map, hlen]
  have hval : ∀ k < n, ∃ c₀ < n, image (s.decodeIntArray σ perm) k = c₀ ∧
      getBoolAssignment σ (bits k c₀) = true := by
    intro k hk
    obtain ⟨⟨c₀, hc₀, hv₀⟩, huniq⟩ := hrows k hk
    refine ⟨c₀, hc₀, ?_, hv₀⟩
    have hfind : ((List.range n).map (bits k)).findIdx? (getBoolAssignment σ) = some c₀ := by
      rw [List.findIdx?_eq_some_iff_getElem]
      refine ⟨by simpa using hc₀, by simpa using hv₀, fun j hj hvj => ?_⟩
      exact absurd (huniq j (hj.trans hc₀) c₀ hc₀ (by simpa using hvj) hv₀) hj.ne
    rw [image_of_lt (hlen' ▸ hk)]
    simp only [decodeIntArray, List.getElem_map]
    rw [← List.getD_eq_getElem perm 0 (hlen ▸ hk)]
    simp only [getIntAssignment, hints k hk, hfind, Int.zero_add, Int.toNat_natCast]
  refine ⟨hlen', fun k hk => ?_, fun k hk c hc => ?_⟩
  · obtain ⟨c₀, hc₀, he, -⟩ := hval k hk
    rwa [he]
  · obtain ⟨c₀, hc₀, he, hv₀⟩ := hval k hk
    rw [he]
    by_cases hcc : c₀ = c
    · subst hcc
      rw [hv₀, decide_eq_true rfl]
    · rw [decide_eq_false hcc, ← Bool.not_eq_true]
      exact fun h => hcc ((hrows k hk).2 c₀ hc₀ c hc hv₀ h)

/-- The rows of a list of vertices. -/
theorem rows_of_readsPerm (h : ReadsPerm n σ bits p) (hp : ∀ k < n, image p k < n) :
    ∀ k < n, ExactlyOne σ n (bits k) := by
  intro k hk
  refine ⟨⟨image p k, hp k hk, by rw [h k hk _ (hp k hk), decide_eq_true rfl]⟩, ?_⟩
  intro c hc c' hc' h1 h2
  rw [h k hk c hc, decide_eq_true_eq] at h1
  rw [h k hk c' hc', decide_eq_true_eq] at h2
  rw [← h1, h2]

/-- The columns say that the list is a permutation. -/
theorem cols_iff (h : ReadsPerm n σ bits p) (hlen : p.length = n) :
    (∀ c < n, ExactlyOne σ n fun k => bits k c) ↔ p.Perm (List.range n) := by
  constructor
  · intro hcols
    rw [perm_range_iff hlen]
    intro c hc
    obtain ⟨⟨k, hk, hv⟩, -⟩ := hcols c hc
    rw [h k hk c hc, decide_eq_true_eq] at hv
    exact ⟨k, hk, hv⟩
  · intro hperm c hc
    obtain ⟨k, hk, hv⟩ := exists_image hperm le_rfl hc
    refine ⟨⟨k, hk, by rw [h k hk c hc, decide_eq_true hv]⟩, ?_⟩
    intro k hk k' hk' h1 h2
    simp only [h k hk c hc, h k' hk' c hc, decide_eq_true_eq] at h1 h2
    exact image_injective hperm (h1.trans h2.symm)

/-- A list read off is decoded back. -/
theorem decode_eq (hlen : perm.length = n)
    (hints : ∀ k < n, s.ints.getD (perm.getD k 0) default =
      ⟨0, n - 1, (List.range n).map (bits k)⟩)
    (h : ReadsPerm n σ bits p) (hlen' : p.length = n) (hp : ∀ k < n, image p k < n) :
    s.decodeIntArray σ perm = p := by
  obtain ⟨hl, -, hdec⟩ := decode_spec hlen hints (rows_of_readsPerm h hp)
  refine List.ext_getElem (hl.trans hlen'.symm) fun k hk hk' => ?_
  have hkn : k < n := hlen' ▸ hk'
  have e := hdec k hkn _ (hp k hkn)
  rw [h k hkn _ (hp k hkn), decide_eq_true rfl, eq_comm, decide_eq_true_eq] at e
  rwa [image_of_lt hk, image_of_lt hk'] at e

end ReadsPerm

end SymBreak.ConstraintSolver
