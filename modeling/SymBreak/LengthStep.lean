import SymBreak.CounterexampleLoop
import SymBreak.Reduction
import SymBreak.CanonizingLexImplicationsAlg

/-!
# One length of the canonizing algorithm

The loop that looks for implications of one length, and the turn around it
(`CanonizingLexImplicationsAlg.cc:51-94`), for any correct solver and any subgraph.

Results:
* **`findImplications_spec`**: the loop ends, and the graphs that are left have no counterexample;
* **`lengthStep_spec`**: after the step for length `i`, the graphs that contain the subgraph and
  satisfy the set satisfy every lex implication of length `i`;
* **`canonize_spec`**: so does every length before, also after the reductions, and the set that
  comes out of the loop over the lengths is canonizing.
-/

namespace SymBreak.CanonizingLexImplicationsAlg

open Cnf Matrix ConstraintSolver Graph

variable {solver : SatSolver} {n : Nat} {idx : CanonicalIndexing}

/-- The implications of one length, by their permutations. -/
def ofLength (i : Nat) (perms : List (List Nat)) : List LexImplication := perms.map (⟨·, i⟩)

theorem valid_ofLength {i : Nat} (hpos : 1 ≤ i) (hle : i ≤ n * (n - 1) / 2)
    {perms : List (List Nat)} (h : ∀ p ∈ perms, p.Perm (List.range n)) :
    ∀ imp ∈ ofLength i perms, Valid n imp := by
  intro imp himp
  obtain ⟨p, hp, rfl⟩ := List.mem_map.mp himp
  exact ⟨⟨n, le_rfl, h p hp⟩, hpos, hle⟩

/-! ## The search for counterexamples -/

/-- The implications posted on `g1` hold of the first graph. -/
theorem posted_implications (idx : CanonicalIndexing) (imps : List LexImplication)
    {s : ConstraintSolver} {R : Graph n → Graph n → List Nat → Prop} (h : Posted n s R)
    (hv : ∀ imp ∈ imps, Valid n imp) :
    ∃ s', imps.foldlM (postImplication idx (declare n).g1) s = .ok s' ∧
      Posted n s' fun A B p => R A B p ∧ Satisfies idx imps A := by
  induction imps generalizing s R with
  | nil => exact ⟨s, rfl, h.congr fun A B p _ => by simp⟩
  | cons imp imps ih =>
    obtain ⟨hv₁, hv₂⟩ := List.forall_mem_cons.mp hv
    obtain ⟨s₁, hs₁, h₁⟩ := h.lexImplication idx hv₁
    obtain ⟨s₂, hs₂, h₂⟩ := ih h₁ hv₂
    refine ⟨s₂, ?_, h₂.congr fun A B p _ => ?_⟩
    · rw [List.foldlM_cons, postImplication, hs₁]
      exact hs₂
    · rw [and_assoc, ← satisfies_cons]

section Find

variable (hsolver : solver.Correct) {i : Nat} (hpos : 1 ≤ i) (hle : i ≤ n * (n - 1) / 2)
  {R : Graph n → Graph n → List Nat → Prop} {s : ConstraintSolver}

theorem ceLoop_findImplications (solver : SatSolver) (idx : CanonicalIndexing)
    (g1 : Matrix BoolVarRef) (perm : List IntVarRef) (i : Nat) :
    CeLoop solver perm (fun s q => postImplication idx g1 s ⟨q, i⟩) (fun acc q => acc ++ [⟨q, i⟩])
      (findImplications solver idx g1 perm i) where
  turn fuel s acc model hm := by rw [findImplications, hm]
  stop fuel s acc hm := by rw [findImplications, hm]

include hpos hle in
theorem posts_implication :
    PostsOnFirst (n := n) (fun s q => postImplication idx (declare n).g1 s ⟨q, i⟩)
      fun q A => SatisfiesImp idx ⟨q, i⟩ A :=
  fun h hq => h.lexImplication idx ⟨⟨n, le_rfl, hq⟩, hpos, hle⟩

theorem foldl_ofLength (found : List (List Nat)) (set : List LexImplication) :
    found.foldl (fun acc q => acc ++ [⟨q, i⟩]) set = set ++ ofLength i found := by
  induction found generalizing set with
  | nil => exact (List.append_nil set).symm
  | cons q found ih =>
    rw [List.foldl_cons, ih, List.append_assoc, ofLength, ofLength, List.map_cons,
      List.singleton_append]

include hsolver hpos hle

/-- **The search for counterexamples of length `i` ends**, and the graphs that satisfy what it finds
have no image whose string is smaller there. -/
theorem findImplications_spec (h : Posted n s R)
    (himage : ∀ A B p, R A B p → A.permute p = B)
    (hsmaller : ∀ A B p, R A B p → ¬ Lex.Implication i (A.string idx) (B.string idx))
    (canonizingSet : List LexImplication) :
    ∃ found : List (List Nat), found.Nodup ∧ (∀ p ∈ found, p.Perm (List.range n)) ∧
      Converges (fun fuel => findImplications solver idx (declare n).g1 (declare n).perm i fuel s
        canonizingSet) (.ok (canonizingSet ++ ofLength i found)) ∧
      ∀ A B p, p.Perm (List.range n) → R A B p → ¬ Satisfies idx (ofLength i found) A := by
  have hR : Counterexamples (fun q A => SatisfiesImp idx ⟨q, i⟩ A) [] R := by
    refine ⟨fun A B p hp hRAB himp => ?_, fun A B p _ => List.forall_mem_nil _⟩
    rw [SatisfiesImp, indexing_matrix_permute idx A hp le_rfl, himage A B p hRAB] at himp
    exact hsmaller A B p hRAB himp
  obtain ⟨found, hnd, hperm, hconv, hnone⟩ := (ceLoop_findImplications solver idx _ _ i).spec
    hsolver (posts_implication hpos hle) h hR List.nodup_nil (List.forall_mem_nil _) canonizingSet
  exact ⟨found, hnd, hperm, foldl_ofLength found canonizingSet ▸ hconv, fun A B p hp hRAB hall =>
    hnone A B p hp hRAB fun q hq => hall _ (List.mem_map_of_mem hq)⟩

end Find

/-! ## The lengths -/

/-- The parameters of the three computations: what is embedded, what is given, how it is reduced. -/
structure Problem where
  embed : Matrix BoolVarRef → ConstraintSolver → ConstraintSolver
  impSet : List LexImplication
  reduce : List LexImplication → Except (Halt Exn) (List LexImplication)

variable {P : Problem}

/-- The problem is the one of the graphs of `C`: `embed` posts `C`, and what `reduce` keeps is
equivalent to all on the graphs of `C` that satisfy the implications given. -/
structure Problem.About (P : Problem) (idx : CanonicalIndexing) (C : Graph n → Prop) : Prop where
  embed : ∀ {s : ConstraintSolver} {R : Graph n → Graph n → List Nat → Prop}, Posted n s R →
    Posted n (P.embed (declare n).g1 s) fun A B p => R A B p ∧ C A
  impSet : ∀ imp ∈ P.impSet, Valid n imp
  reduce : ∀ delta, (∀ imp ∈ delta, Valid n imp) → ∃ reduced, P.reduce delta = .ok reduced ∧
    (∀ imp ∈ reduced, imp ∈ delta) ∧ ∀ G : Graph n, Satisfies idx P.impSet G → C G →
      Satisfies idx reduced G → Satisfies idx delta G

/-- The graphs of `C` that satisfy the implications given and those of `delta`. -/
def Problem.Left (P : Problem) (idx : CanonicalIndexing) (C : Graph n → Prop)
    (delta : List LexImplication) (G : Graph n) : Prop :=
  C G ∧ Satisfies idx P.impSet G ∧ Satisfies idx delta G

/-- The steps of a run that ends with `delta` find no implication twice. `seq i` is the set before
length `i`. -/
def Problem.FindsOnce (P : Problem) (solver : SatSolver) (n : Nat) (idx : CanonicalIndexing)
    (delta : List LexImplication) : Prop :=
  ∃ seq : Nat → List LexImplication, seq 1 = [] ∧ seq (1 + maxLen n) = delta ∧
    ∀ i, 1 ≤ i → i < 1 + maxLen n →
      (∃ found, found.Nodup ∧ Converges (fun fuel =>
        lengthStep solver n idx P.embed P.impSet fuel (seq i) i) (.ok (seq i ++ found))) ∧
      Converges (fun fuel => lengthTurn solver n idx P.embed P.impSet P.reduce fuel (seq i) i)
        (.ok (seq (i + 1)))

section Lengths

variable (hsolver : solver.Correct) {C : Graph n → Prop} (hP : P.About idx C)
include hsolver hP

/-- **The step for length `i`**: it finds each implication once, and the graphs left satisfy every
lex implication of that length. -/
theorem lengthStep_spec {i : Nat} (hpos : 1 ≤ i) (hle : i ≤ n * (n - 1) / 2)
    {delta : List LexImplication} (hd : ∀ imp ∈ delta, Valid n imp) :
    ∃ found : List LexImplication, found.Nodup ∧ (∀ imp ∈ found, Valid n imp) ∧
      Converges (fun fuel => lengthStep solver n idx P.embed P.impSet fuel delta i)
        (.ok (delta ++ found)) ∧
      ∀ G, P.Left idx C (delta ++ found) G → ∀ p : Relabelling n,
        Lex.Holds (string idx) (fun (p : Relabelling n) G => G.permute p.1) G (p, i) := by
  obtain ⟨s₁, hs₁, h₁⟩ := (hP.embed (posted_iso n)).lexLt idx hpos hle
  obtain ⟨s₂, hs₂, h₂⟩ := posted_implications idx P.impSet h₁ hP.impSet
  obtain ⟨s₃, hs₃, h₃⟩ := posted_implications idx delta h₂ hd
  obtain ⟨found, hnd, hperm, hconv, hnone⟩ := findImplications_spec hsolver hpos hle h₃
    (fun A B p h => isImage_iff.mp h.1.1.1.1) (fun A B p h => h.1.1.2) delta
  refine ⟨ofLength i found, ?_, valid_ofLength hpos hle hperm, hconv.congr fun fuel => ?_, ?_⟩
  · exact hnd.map fun p q h => (LexImplication.mk.inj h).1
  · simp only [lengthStep, isoModel_g1, isoModel_g2, isoModel_perm, hs₁, hs₂, hs₃, ok_bind]
  · rintro G ⟨hC, himp, hG⟩ p
    rw [satisfies_append] at hG
    by_contra hnot
    -- the image is a counterexample under a permutation of all vertices
    obtain ⟨m, hm, hpm⟩ := p.2
    obtain ⟨q, hq, hqG⟩ := isomorphic_iff.mp (permute_isomorphic G hpm hm)
    exact hnone G _ q hq ⟨⟨⟨⟨isImage_iff.mpr hqG.symm, hC⟩, hnot⟩, himp⟩, hG.1⟩ hG.2

/-- What every turn carries on: the lengths before `i` are closed, also after a reduction. -/
theorem lengthTurn_spec {i : Nat} (hpos : 1 ≤ i) (hle : i < 1 + maxLen n)
    {delta : List LexImplication} (hd : ∀ imp ∈ delta, Valid n imp)
    (hcl : ClosedUpTo idx (i - 1) (P.Left idx C delta)) :
    ∃ delta' : List LexImplication,
      Converges (fun fuel => lengthTurn solver n idx P.embed P.impSet P.reduce fuel delta i)
        (.ok delta') ∧ (∀ imp ∈ delta', Valid n imp) ∧
      ClosedUpTo idx i (P.Left idx C delta') := by
  obtain ⟨found, -, hf, hconv, hholds⟩ :=
    lengthStep_spec hsolver hP hpos (by unfold maxLen at hle; omega) hd
  have hv : ∀ imp ∈ delta ++ found, Valid n imp := List.forall_mem_append.mpr ⟨hd, hf⟩
  have hcl' : ClosedUpTo idx i (P.Left idx C (delta ++ found)) := by
    obtain ⟨j, rfl⟩ : ∃ j, i = j + 1 := ⟨i - 1, by omega⟩
    refine Lex.closed_succ (Lex.closed_mono hcl fun G hG => ⟨hG.1, hG.2.1, ?_⟩) hholds
    exact (satisfies_append.mp hG.2.2).1
  by_cases hlen : i % 5 = 0 ∨ i = maxLen n
  · obtain ⟨reduced, hred, hsub, heq⟩ := hP.reduce _ hv
    refine ⟨reduced, Converges.bind_ok hconv ?_, fun imp h => hv imp (hsub imp h),
      Lex.closed_mono hcl' fun G hG => ⟨hG.1, hG.2.1, heq G hG.2.1 hG.1 hG.2.2⟩⟩
    simp only [if_pos hlen]
    exact Converges.of_eq fun _ => hred
  · refine ⟨delta ++ found, Converges.bind_ok hconv ?_, hv, hcl'⟩
    simp only [if_neg hlen]
    exact Converges.const _

/-- **The loop over the lengths** ends with implications that, together with those given, are
satisfied by the graphs of `C` of minimal string only. -/
theorem canonize_spec : ∃ delta : List LexImplication,
    Converges (fun fuel => canonize solver n idx P.embed P.impSet P.reduce fuel) (.ok delta) ∧
      P.FindsOnce solver n idx delta ∧ (∀ imp ∈ delta, Valid n imp) ∧
      ∀ G : Graph n, C G → (Satisfies idx (P.impSet ++ delta) G ↔ LexMin idx G) := by
  obtain ⟨seq, hs, hturn, hinv, hfold⟩ := Converges.foldlM_range'
    (f := fun fuel => lengthTurn solver n idx P.embed P.impSet P.reduce fuel)
    (P := fun i delta => (∀ imp ∈ delta, Valid n imp) ∧
      ClosedUpTo idx (i - 1) (P.Left idx C delta)) (maxLen n) 1 []
    ⟨by simp, Lex.closed_zero _⟩ fun i delta h1 h2 ⟨hd, hcl⟩ =>
      lengthTurn_spec hsolver hP h1 h2 hd hcl
  obtain ⟨hv, hcl⟩ := hinv (1 + maxLen n) (by omega) le_rfl
  rw [Nat.add_sub_cancel_left] at hcl
  refine ⟨seq (1 + maxLen n), hfold, ⟨seq, hs, rfl, fun i h1 h2 => ⟨?_, hturn i h1 h2⟩⟩, hv,
    fun G hC => ⟨fun hG => ?_, fun hG => ?_⟩⟩
  · obtain ⟨found, hnd, -, hconv, -⟩ := lengthStep_spec hsolver hP h1
      (by unfold maxLen at h2; omega) (hinv i h1 (by omega)).1
    exact ⟨found, hnd, hconv⟩
  · rw [satisfies_append] at hG
    exact lexMin_of_closed hcl ⟨hC, hG⟩
  · exact satisfies_of_lexMin hG (List.forall_mem_append.mpr ⟨hP.impSet, hv⟩)

end Lengths

end SymBreak.CanonizingLexImplicationsAlg
