import SymBreak.LexOrder
import Mathlib.Data.List.TakeWhile

/-!
# Smaller isomorphic copies of partial graphs

What `notLexLeader` (`ConstraintSolver.cc:330-380`) posts for a partial adjacency matrix `g1`: the
variables of a permutation `p` and of a graph `g2`, covering clauses that make `g2` the image of
`g1` under `p` with undefined entries read as edges, and the strict order on the entries before the
first undefined one.

Results:
* `coverPair_eq`, `groundedStrings_eq`: the two loops as lists;
* `covers_iff`: the covering clauses say that `g2` is the image;
* **`notLexLeader_exact`**: the permutations decoded from the models, what a model means for the
  completions of `g1`, and for `g1` itself when it is fully defined.
-/

namespace SymBreak

open Cnf Matrix ConstraintSolver

variable {n : Nat} {σ τ : Assignment} {s : ConstraintSolver}

/-! ## Partial graphs -/

/-- A symmetric matrix of entries true, false or undefined. -/
structure PartialGraph (n : Nat) where
  matrix : Matrix LBool
  nRows_eq : matrix.nRows = n
  nCols_eq : matrix.nCols = n
  symm : ∀ i < n, ∀ j < n, matrix.get i j = matrix.get j i

namespace PartialGraph

variable (g : PartialGraph n)

/-- The graph with the undefined entries read as edges. -/
def plus : Graph n where
  adj i j := decide (i < n ∧ j < n ∧ i ≠ j ∧ g.matrix.get i j ≠ .l_False)
  symm i j := by
    refine decide_eq_decide.mpr ?_
    constructor
    · rintro ⟨hi, hj, hne, h⟩
      exact ⟨hj, hi, hne.symm, by rwa [g.symm j hj i hi]⟩
    · rintro ⟨hj, hi, hne, h⟩
      exact ⟨hi, hj, hne.symm, by rwa [g.symm i hi j hj]⟩
  irrefl i := by simp
  bound i j h := (of_decide_eq_true h).1

/-- The pairs, row by row, before the first undefined entry. -/
def grounded : List (Nat × Nat) :=
  (upperPairs n).takeWhile fun ij => decide (g.matrix.get ij.1 ij.2 ≠ .l_Undef)

/-- The entries of `g` on the grounded prefix. -/
def groundedString : List Bool :=
  g.grounded.map fun ij => decide (g.matrix.get ij.1 ij.2 = .l_True)

/-- `H` has the defined entries of `g`. -/
def Completes (g : PartialGraph n) (H : Graph n) : Prop :=
  ∀ i < n, ∀ j < n, i ≠ j → g.matrix.get i j ≠ .l_Undef →
    H.adj i j = decide (g.matrix.get i j = .l_True)

/-- No entry off the diagonal is undefined. -/
def Defined (g : PartialGraph n) : Prop :=
  ∀ i < n, ∀ j < n, i ≠ j → g.matrix.get i j ≠ .l_Undef

end PartialGraph

namespace Graph

/-- The image under `p`: `(p i, p j)` is an edge iff `(i, j)` is one of `G`. -/
def imageUnder (G : Graph n) (p : List Nat) : Graph n where
  adj a b := decide (a < n) && decide (b < n) && G.adj (p.idxOf a) (p.idxOf b)
  symm a b := by rw [G.symm, Bool.and_comm (decide (a < n))]
  irrefl a := by simp [G.irrefl]
  bound a b h := by simp only [Bool.and_eq_true, decide_eq_true_eq] at h; exact h.1.1

theorem isImage_imageUnder (G : Graph n) {p : List Nat} (hp : p.Perm (List.range n)) :
    IsImage (G.imageUnder p) G p := by
  have hlen := length_of_perm_range hp
  have hidx : ∀ k < n, p.idxOf (image p k) = k := fun k hk => by
    rw [image_of_lt (hlen ▸ hk)]
    exact (hp.nodup_iff.mpr List.nodup_range).idxOf_getElem k (hlen ▸ hk)
  intro k hk l hl
  have hk' : image p k < n := image_lt hp le_rfl hk
  have hl' : image p l < n := image_lt hp le_rfl hl
  simp only [imageUnder, hidx k hk, hidx l hl, hk', hl', decide_true, Bool.true_and]

/-- The image is determined. -/
theorem eq_imageUnder {G K : Graph n} {p : List Nat} (hp : p.Perm (List.range n)) :
    IsImage K G p ↔ K = G.imageUnder p := by
  constructor
  · intro h
    refine ext_of_lt fun a b ha hb => ?_
    obtain ⟨k, hk, rfl⟩ := exists_image hp le_rfl ha
    obtain ⟨l, hl, rfl⟩ := exists_image hp le_rfl hb
    rw [h k hk l hl, isImage_imageUnder G hp k hk l hl]
  · rintro rfl
    exact isImage_imageUnder G hp

theorem isomorphic_imageUnder (G : Graph n) {p : List Nat} (hp : p.Perm (List.range n)) :
    Isomorphic G (G.imageUnder p) := by
  have h := permute_isomorphic (G.imageUnder p) hp le_rfl
  rw [isImage_iff.mp (isImage_imageUnder G hp)] at h
  exact h.symm

/-- More edges, more edges in the image. -/
theorem imageUnder_mono {G H : Graph n} (h : ∀ i j, G.adj i j = true → H.adj i j = true)
    (p : List Nat) (a b : Nat) (hab : (G.imageUnder p).adj a b = true) :
    (H.imageUnder p).adj a b = true := by
  simp only [imageUnder, Bool.and_eq_true] at hab ⊢
  exact ⟨hab.1, h _ _ hab.2⟩

end Graph

/-! ## The loops as lists -/

section Choose

variable {ι : Type*} (q : ι → Prop) [DecidablePred q]

/-- The references collected at the members that satisfy `q`. -/
def chosen (l : List ι) (ts : List BoolVarRef) : List BoolVarRef :=
  ((l.zip ts).filter fun it => q it.1).map Prod.snd

theorem mem_chosen {q : ι → Prop} [DecidablePred q] {l : List ι} {ts : List BoolVarRef}
    {b : BoolVarRef} (h : b ∈ chosen q l ts) : b ∈ ts := by
  simp only [chosen, List.mem_map, List.mem_filter] at h
  obtain ⟨⟨i, t⟩, ⟨hz, -⟩, rfl⟩ := h
  exact (List.of_mem_zip hz).2

/-- One of the references chosen is true. -/
theorem exists_chosen {l : List ι} {ts : List BoolVarRef} {v : ι → Bool}
    (h : ts.map (getBoolAssignment σ) = l.map v) :
    (∃ b ∈ chosen q l ts, getBoolAssignment σ b = true) ↔ ∃ i ∈ l, q i ∧ v i = true := by
  induction l generalizing ts with
  | nil => simp [chosen]
  | cons i l ih =>
    cases ts with
    | nil => exact absurd h (by simp)
    | cons t ts =>
      rw [List.map_cons, List.map_cons, List.cons.injEq] at h
      have ih' := ih h.2
      simp only [chosen] at ih'
      by_cases hq : q i
      · simp only [chosen, List.zip_cons_cons, List.filter_cons, hq, decide_true, if_true,
          List.map_cons, List.mem_cons, exists_eq_or_imp, h.1, ih', true_and]
      · simp only [chosen, List.zip_cons_cons, List.filter_cons, hq, decide_false,
          List.mem_cons, exists_eq_or_imp, false_and, false_or, ih', Bool.false_eq_true,
          if_false]

variable {g : ConstraintSolver → ι → BoolVarRef × ConstraintSolver}

theorem length_collect (l : List ι) : (collect g s l).1.length = l.length := by
  induction l using List.reverseRecOn with
  | nil => rfl
  | append_singleton l i ih =>
    rw [collect_concat, collectTurn, List.length_append, ih, List.length_append,
      List.length_singleton, List.length_singleton]

theorem chosen_concat (l : List ι) (i : ι) {ts : List BoolVarRef} (t : BoolVarRef)
    (h : l.length = ts.length) :
    chosen q (l ++ [i]) (ts ++ [t]) = chosen q l ts ++ if q i then [t] else [] := by
  rw [chosen, List.zip_append h, List.filter_append, List.map_append]
  by_cases hq : q i <;> simp [chosen, hq]

/-- A loop that collects references on two lists. -/
theorem foldl_chosen (l : List ι) :
    l.foldl (fun r i => if q i then (r.1, r.2.1 ++ [(g r.2.2 i).1], (g r.2.2 i).2)
      else (r.1 ++ [(g r.2.2 i).1], r.2.1, (g r.2.2 i).2))
      (([], [], s) : List BoolVarRef × List BoolVarRef × ConstraintSolver) =
    (chosen (fun i => ¬ q i) l (collect g s l).1, chosen q l (collect g s l).1,
      (collect g s l).2) := by
  induction l using List.reverseRecOn with
  | nil => rfl
  | append_singleton l i ih =>
    rw [List.foldl_append, ih, List.foldl_cons, List.foldl_nil, collect_concat, collectTurn,
      chosen_concat _ _ _ _ (length_collect l).symm, chosen_concat _ _ _ _ (length_collect l).symm]
    by_cases hq : q i <;> simp [hq]

end Choose

/-- The turn of `coverPair` at `(i1, j1)`. -/
def coverTerm (perm : List IntVarRef) (i2 j2 : Nat) (s : ConstraintSolver) (ij : Nat × Nat) :
    BoolVarRef × ConstraintSolver :=
  (s.newBoolVar.1, s.newBoolVar.2.boolAndReif (s.newBoolVar.2.intEqReif (perm.getD ij.1 0) i2)
    (s.newBoolVar.2.intEqReif (perm.getD ij.2 0) j2) s.newBoolVar.1)

/-- The entry of `g1` is false. -/
abbrev NonEdge (g1 : Matrix LBool) (ij : Nat × Nat) : Prop := g1.get ij.1 ij.2 = .l_False

theorem coverPair_eq {g1 : Matrix LBool} (hr : g1.nRows = n) (g2 : Matrix BoolVarRef)
    (perm : List IntVarRef) (i2 j2 : Nat) : s.coverPair g1 g2 perm i2 j2 =
      (collect (coverTerm perm i2 j2) s (offDiag n)).2.post
        [chosen (fun ij => ¬ NonEdge g1 ij) (offDiag n)
            (collect (coverTerm perm i2 j2) s (offDiag n)).1 ++ [neg (g2.get i2 j2)],
          chosen (NonEdge g1) (offDiag n) (collect (coverTerm perm i2 j2) s (offDiag n)).1 ++
            [g2.get i2 j2]] := by
  have h := foldl_chosen (s := s) (g := coverTerm perm i2 j2) (NonEdge g1) (offDiag n)
  simp only [offDiag, List.foldl_flatMap, List.foldl_map, List.foldl_filter,
    decide_eq_true_eq] at h
  have e : s.coverPair g1 g2 perm i2 j2 =
      (fun r : List BoolVarRef × List BoolVarRef × ConstraintSolver =>
        (r.2.2.boolArrayOr (r.1 ++ [neg (g2.get i2 j2)])).boolArrayOr (r.2.1 ++ [g2.get i2 j2]))
      ((List.range n).foldl (fun r i1 => (List.range n).foldl (fun r j1 =>
        if i1 ≠ j1 then
          if NonEdge g1 (i1, j1) then (r.1, r.2.1 ++ [(coverTerm perm i2 j2 r.2.2 (i1, j1)).1],
            (coverTerm perm i2 j2 r.2.2 (i1, j1)).2)
          else (r.1 ++ [(coverTerm perm i2 j2 r.2.2 (i1, j1)).1], r.2.1,
            (coverTerm perm i2 j2 r.2.2 (i1, j1)).2)
        else r) r) ([], [], s)) := by
    rw [coverPair, hr]
    rfl
  rw [e, h]
  simp only [boolArrayOr_eq, post_post]
  rfl

/-- The turn of `groundedStrings` at a pair. -/
def groundTurn (g1 : Matrix LBool) (g2 : Matrix BoolVarRef)
    (r : List BoolVarRef × List BoolVarRef × Bool) (ij : Nat × Nat) :
    List BoolVarRef × List BoolVarRef × Bool :=
  if r.2.2 then
    if g1.get ij.1 ij.2 ≠ .l_Undef then
      (r.1 ++ [if g1.get ij.1 ij.2 = .l_True then trueConst else falseConst],
        r.2.1 ++ [g2.get ij.1 ij.2], true)
    else (r.1, r.2.1, false)
  else (r.1, r.2.1, false)

/-- After an undefined entry nothing is added. -/
theorem foldl_groundTurn_false (g1 : Matrix LBool) (g2 : Matrix BoolVarRef) (l : List (Nat × Nat))
    (a b : List BoolVarRef) : l.foldl (groundTurn g1 g2) (a, b, false) = (a, b, false) := by
  induction l with
  | nil => rfl
  | cons ij l ih => exact ih

theorem foldl_groundTurn (g1 : Matrix LBool) (g2 : Matrix BoolVarRef) (l : List (Nat × Nat))
    (a b : List BoolVarRef) : ∃ flag, l.foldl (groundTurn g1 g2) (a, b, true) =
      (a ++ (l.takeWhile fun ij => decide (g1.get ij.1 ij.2 ≠ .l_Undef)).map (fun ij =>
          if g1.get ij.1 ij.2 = .l_True then trueConst else falseConst),
        b ++ (l.takeWhile fun ij => decide (g1.get ij.1 ij.2 ≠ .l_Undef)).map
          (fun ij => g2.get ij.1 ij.2), flag) := by
  induction l generalizing a b with
  | nil => exact ⟨true, by simp⟩
  | cons ij l ih =>
    by_cases hu : g1.get ij.1 ij.2 = .l_Undef
    · have e : groundTurn g1 g2 (a, b, true) ij = (a, b, false) := by simp [groundTurn, hu]
      exact ⟨false, by rw [List.foldl_cons, e, foldl_groundTurn_false]; simp [hu]⟩
    · have e : groundTurn g1 g2 (a, b, true) ij =
          (a ++ [if g1.get ij.1 ij.2 = .l_True then trueConst else falseConst],
            b ++ [g2.get ij.1 ij.2], true) := by simp [groundTurn, hu]
      obtain ⟨flag, hf⟩ := ih (a ++ [if g1.get ij.1 ij.2 = .l_True then trueConst
        else falseConst]) (b ++ [g2.get ij.1 ij.2])
      refine ⟨flag, ?_⟩
      rw [List.foldl_cons, e, hf]
      simp [hu]

/-- The strings compared are those of the grounded prefix. -/
theorem groundedStrings_eq (g : PartialGraph n) (g2 : Matrix BoolVarRef) :
    groundedStrings g.matrix g2 =
      (g.grounded.map fun ij =>
        if g.matrix.get ij.1 ij.2 = .l_True then trueConst else falseConst,
      g.grounded.map fun ij => g2.get ij.1 ij.2) := by
  obtain ⟨flag, hf⟩ := foldl_groundTurn g.matrix g2 (upperPairs n) [] []
  simp only [upperPairs, List.foldl_flatMap, List.foldl_map] at hf
  have e : groundedStrings g.matrix g2 =
      (fun r : List BoolVarRef × List BoolVarRef × Bool => (r.1, r.2.1))
      ((List.range n).foldl (fun r i => (List.range' (i + 1) (n - (i + 1))).foldl (fun r j =>
        groundTurn g.matrix g2 r (i, j)) r) ([], [], true)) := by
    rw [groundedStrings, g.nRows_eq]
    rfl
  rw [e, hf]
  rfl

/-! ## The covering clauses -/

section Covers

variable {g1 : Matrix LBool} {g2 : Matrix BoolVarRef} {perm : List IntVarRef}
  {bits : Nat → Nat → BoolVarRef}

/-- `i1` goes to `i2` and `j1` to `j2`. -/
def sends (bits : Nat → Nat → BoolVarRef) (i2 j2 : Nat) (ij : Nat × Nat) (σ : Assignment) : Bool :=
  getBoolAssignment σ (bits ij.1 i2) && getBoolAssignment σ (bits ij.2 j2)

/-- An edge of `g2` is where an entry of `g1` that is not false goes, the others where a false one
does. -/
def Covers (n : Nat) (g1 : Matrix LBool) (g2 : Matrix BoolVarRef) (bits : Nat → Nat → BoolVarRef)
    (σ : Assignment) (ij : Nat × Nat) : Prop :=
  ((∃ kl ∈ offDiag n, ¬ NonEdge g1 kl ∧ sends bits ij.1 ij.2 kl σ = true) ∨
      getBoolAssignment σ (g2.get ij.1 ij.2) = false) ∧
    ((∃ kl ∈ offDiag n, NonEdge g1 kl ∧ sends bits ij.1 ij.2 kl σ = true) ∨
      getBoolAssignment σ (g2.get ij.1 ij.2) = true)

theorem sends_congr (hp : PermRefs s n perm bits) {i j : Nat} (hi : i < n) (hj : j < n)
    {kl : Nat × Nat} (hkl : kl ∈ offDiag n) (hag : AgreeBelow s.nVars σ τ) :
    sends bits i j kl σ = sends bits i j kl τ := by
  obtain ⟨hk, hl, -⟩ := mem_offDiag.mp hkl
  rw [sends, sends, getBoolAssignment_congr hag (hp.below _ hk _ hi),
    getBoolAssignment_congr hag (hp.below _ hl _ hj)]

theorem posts_coverTerm (hs : s.Ok) (hp : PermRefs s n perm bits) {i j : Nat} (hi : i < n)
    (hj : j < n) {kl : Nat × Nat} (hkl : kl ∈ offDiag n) :
    let r := coverTerm perm i j s kl
    Posts s r.2 (fun _ => True) ∧ RefBelow r.2.nVars r.1 ∧ ∀ σ, Sat σ r.2.clauses →
      getBoolAssignment σ r.1 = sends bits i j kl σ := by
  obtain ⟨hk, hl, -⟩ := mem_offDiag.mp hkl
  have b1 := hp.below _ hk _ hi
  have b2 := hp.below _ hl _ hj
  have e1 : s.newBoolVar.2.intEqReif (perm.getD kl.1 0) i = bits kl.1 i := hp.ref _ hk _ hi
  have e2 : s.newBoolVar.2.intEqReif (perm.getD kl.2 0) j = bits kl.2 j := hp.ref _ hl _ hj
  simp only [coverTerm, e1, e2, boolAndReif_eq]
  have hm : ∀ σ, Means σ (andReif (bits kl.1 i) (bits kl.2 j) s.newBoolVar.1) ↔
      getBoolAssignment σ s.newBoolVar.1 = sends bits i j kl σ :=
    fun σ => means_andReif b1.1 b2.1 refBelow_newBoolVar.1
  refine ⟨posts_define hs (refsBelow_andReif (b1.mono (Nat.le_succ _)) (b2.mono (Nat.le_succ _))
    refBelow_newBoolVar) (fun σ _ => hm σ) fun σ τ hag => sends_congr hp hi hj hkl hag,
    refBelow_newBoolVar, fun σ hσ => ?_⟩
  rw [clauses_post, sat_append, sat_map_toLit] at hσ
  exact (hm σ).mp hσ.2

theorem local_covers (hp : PermRefs s n perm bits) (h2 : EdgeRefs s.nVars n g2) {ij : Nat × Nat}
    (hij : ij ∈ upperPairs n) : Local s.nVars fun σ => Covers n g1 g2 bits σ ij := by
  obtain ⟨i, j⟩ := ij
  have hlt := mem_upperPairs.mp hij
  have hi : i < n := hlt.1.trans hlt.2
  intro σ τ hag h
  have hg := getBoolAssignment_congr hag (h2 i hi j hlt.2 hlt.1.ne)
  have hex : ∀ (q : Nat × Nat → Prop), (∃ kl ∈ offDiag n, q kl ∧ sends bits i j kl σ = true) →
      ∃ kl ∈ offDiag n, q kl ∧ sends bits i j kl τ = true := by
    rintro q ⟨kl, hkl, hq, hs⟩
    exact ⟨kl, hkl, hq, by rw [← sends_congr hp hi hlt.2 hkl hag, hs]⟩
  exact ⟨h.1.imp (hex _) fun e => hg ▸ e, h.2.imp (hex _) fun e => hg ▸ e⟩

/-- **`coverPair`** posts the covering clauses. -/
theorem posts_coverPair (hs : s.Ok) (hr : g1.nRows = n) (hp : PermRefs s n perm bits)
    (h2 : EdgeRefs s.nVars n g2) {ij : Nat × Nat} (hij : ij ∈ upperPairs n) :
    Posts s (s.coverPair g1 g2 perm ij.1 ij.2) fun σ => Covers n g1 g2 bits σ ij := by
  have hloc : Local s.nVars fun σ => Covers n g1 g2 bits σ ij := local_covers hp h2 hij
  obtain ⟨i, j⟩ := ij
  have hlt := mem_upperPairs.mp hij
  have hi : i < n := hlt.1.trans hlt.2
  have hb2 := h2 i hi j hlt.2 hlt.1.ne
  obtain ⟨hc, -, hb, hv⟩ := posts_collect (g := coverTerm perm i j)
    (v := fun kl σ => sends bits i j kl σ) hs (offDiag n) fun kl hkl s' hs' =>
      posts_coverTerm hs'.ok (hp.posts hs') hi hlt.2 hkl
  rw [coverPair_eq hr]
  refine hc.trans_true (posts_post hc.ok ?_) (fun σ hσ => ?_) hloc
  · simp only [RefsBelow, List.forall_mem_cons, List.forall_mem_append, refBelow_neg]
    have h2' := hb2.mono hc.le
    exact ⟨⟨fun t ht => hb t (mem_chosen ht), h2', List.forall_mem_nil _⟩,
      ⟨fun t ht => hb t (mem_chosen ht), h2', List.forall_mem_nil _⟩, List.forall_mem_nil _⟩
  · rw [means_cons, means_cons, and_iff_left means_nil]
    simp only [List.mem_append, List.mem_singleton, or_and_right, exists_or, exists_eq_left,
      exists_chosen _ (hv σ hσ), getBoolAssignment_neg hb2.1, Bool.not_eq_true', Covers]

/-- The covering clauses say that `g2` is the image of `g1`, undefined entries read as edges. -/
theorem covers_iff (g : PartialGraph n) {p : List Nat} (hp : p.Perm (List.range n))
    (hbits : ReadsPerm n σ bits p) {K : Graph n} (hK : ReadsEdges σ g2 K) :
    (∀ ij ∈ upperPairs n, Covers n g.matrix g2 bits σ ij) ↔ IsImage K g.plus p := by
  have hlt : ∀ {k : Nat}, k < n → image p k < n := fun hk => image_lt hp le_rfl hk
  -- the one pair sent to `(p k, p l)` is `(k, l)`
  have hsends : ∀ k < n, ∀ l < n, k ≠ l → ∀ q : Nat × Nat → Prop,
      (∃ kl ∈ offDiag n, q kl ∧ sends bits (image p k) (image p l) kl σ = true) ↔ q (k, l) := by
    intro k hk l hl hne q
    constructor
    · rintro ⟨⟨k', l'⟩, hkl, hq, hs⟩
      obtain ⟨hk', hl', -⟩ := mem_offDiag.mp hkl
      rw [sends, hbits k' hk' _ (hlt hk), hbits l' hl' _ (hlt hl), Bool.and_eq_true,
        decide_eq_true_eq, decide_eq_true_eq] at hs
      rwa [image_injective hp hs.1, image_injective hp hs.2] at hq
    · intro hq
      refine ⟨(k, l), mem_offDiag.mpr ⟨hk, hl, hne⟩, hq, ?_⟩
      rw [sends, hbits k hk _ (hlt hk), hbits l hl _ (hlt hl)]
      simp
  refine upper_iff_isImage hp fun k hk l hl hne => ?_
  rw [Covers, hsends k hk l hl hne, hsends k hk l hl hne,
    hK _ (hlt hk) _ (hlt hl) ((image_injective hp).ne hne)]
  by_cases hq : NonEdge g.matrix (k, l) <;> cases hadj : K.adj (image p k) (image p l) <;>
    simp_all [PartialGraph.plus, NonEdge]

end Covers

/-! ## The variables -/

/-- The permutation variables of `notLexLeader` on a new model, and the solver after them. -/
def leaderPerm (n : Nat) : List IntVarRef × ConstraintSolver := newModel.newPermutation n

/-- The graph variables, and the solver after them. -/
def leaderGraph (n : Nat) : Matrix BoolVarRef × ConstraintSolver := (leaderPerm n).2.newAdjMatrix n

/-- What the declarations amount to. -/
structure LeaderVars (n : Nat) : Prop where
  g2 : Numbered (2 + n * n) falseConst n (leaderGraph n).1
  length_perm : (leaderPerm n).1.length = n
  ints : ∀ k < n, (leaderGraph n).2.ints.getD ((leaderPerm n).1.getD k 0) default =
    ⟨0, n - 1, (List.range n).map (permBit 2 n k)⟩
  nVars : (leaderGraph n).2.nVars = 1 + n * n + n * (n - 1) / 2
  ok : (leaderGraph n).2.Ok
  sat : ∀ σ, Sat σ (leaderGraph n).2.clauses ↔ σ 0 = true ∧
    (∀ k < n, ExactlyOne σ n (permBit 2 n k)) ∧ ∀ c < n, ExactlyOne σ n fun k => permBit 2 n k c

theorem leaderVars (n : Nat) : LeaderVars n := by
  have hp := newPermutation_spec (s := newModel) n
  obtain ⟨hg, hs⟩ := newAdjMatrix_spec (s := (leaderPerm n).2) n
  have hn : (leaderPerm n).2.nVars = 1 + n * n := hp.nVars
  have hnext : (leaderPerm n).2.nextBoolID = 2 + n * n := by
    rw [(leaderPerm n).2.nextBoolID_eq, hn]
    omega
  have hs' : (leaderGraph n).2 = (leaderPerm n).2.advance (n * (n - 1) / 2) := hs
  refine ⟨hnext ▸ hg, hp.length, ?_, ?_, ?_, fun σ => ?_⟩
  · rw [hs', ints_advance]
    exact hp.ints
  · rw [hs', nVars_advance, hn]
  · rw [hs']
    exact (hp.ok ok_newModel).advance _
  · rw [hs', clauses_advance]
    exact (hp.sat σ).trans (and_congr_left fun _ => sat_newModel)

theorem LeaderVars.permRefs (h : LeaderVars n) :
    PermRefs (leaderGraph n).2 n (leaderPerm n).1 (permBit 2 n) :=
  permRefs_of_ints (by omega) (by rw [h.nVars]; omega) h.ints fun σ hσ =>
    ((h.sat σ).mp hσ).2.2

theorem LeaderVars.edgeRefs (h : LeaderVars n) :
    EdgeRefs (leaderGraph n).2.nVars n (leaderGraph n).1 :=
  h.g2.edgeRefs (by omega) (by rw [h.nVars]; omega)

/-- `σ` gives the permutation variables the list `p` and the graph variables the graph `K`. -/
structure LeaderReads (n : Nat) (σ : Assignment) (p : List Nat) (K : Graph n) : Prop where
  trueVar : σ 0 = true
  perm : ReadsPerm n σ (permBit 2 n) p
  g2 : ReadsEdges σ (leaderGraph n).1 K

/-- The assignment of the variables that reads `p` and `K`. -/
def leaderEncoding (K : Graph n) (p : List Nat) : Assignment := fun v =>
  if v = 0 then true
  else if v < 1 + n * n then decide (image p ((v - 1) / n) = (v - 1) % n)
  else
    let ij := (upperPairs n).getD (v - (1 + n * n)) (0, 0)
    K.adj ij.1 ij.2

theorem leaderReads_encoding (K : Graph n) (p : List Nat) :
    LeaderReads n (leaderEncoding K p) p K where
  trueVar := rfl
  perm := by
    intro k hk c hc
    have hlt := Matrix.pos_lt hk hc
    rw [permBit, getBoolAssignment_natCast (by omega), leaderEncoding, if_neg (by omega),
      if_pos (by omega), show 2 + k * n + c - 1 - 1 = k * n + c by omega, Matrix.pos_div hc,
      Matrix.pos_mod hc]
  g2 := by
    refine (leaderVars n).g2.readsEdges_of (by omega) fun k i j hk => ?_
    have hd : (upperPairs n).getD k (0, 0) = (i, j) := by
      rw [List.getD_eq_getElem?_getD, hk, Option.getD_some]
    rw [leaderEncoding, if_neg (by omega), if_neg (by omega),
      show 2 + n * n - 1 + k - (1 + n * n) = k by omega]
    simp only [hd]

/-- A model reads the permutation decoded. -/
theorem leaderReads_decode {s : ConstraintSolver} (hints : s.ints = (leaderGraph n).2.ints)
    (hσ : Sat σ (leaderGraph n).2.clauses) :
    LeaderReads n σ (s.decodeIntArray σ (leaderPerm n).1) (graphOf n σ (leaderGraph n).1) ∧
      (s.decodeIntArray σ (leaderPerm n).1).Perm (List.range n) := by
  have hm := leaderVars n
  obtain ⟨h0, hrows, hcols⟩ := (hm.sat σ).mp hσ
  obtain ⟨hlen, -, hdec⟩ := decode_spec hm.length_perm (hints ▸ hm.ints) hrows
  exact ⟨⟨h0, hdec, hm.g2.readsEdges_graphOf (by omega) σ⟩, (cols_iff hdec hlen).mp hcols⟩

theorem LeaderReads.sat {p : List Nat} {K : Graph n} (h : LeaderReads n σ p K)
    (hp : p.Perm (List.range n)) : Sat σ (leaderGraph n).2.clauses :=
  ((leaderVars n).sat σ).mpr ⟨h.trueVar, rows_of_readsPerm h.perm fun _ hk => image_lt hp le_rfl hk,
    (cols_iff h.perm (length_of_perm_range hp)).mpr hp⟩

/-! ## The models -/

namespace PartialGraph

/-- The entries of `K` on the grounded prefix of `g`. -/
def onGrounded (g : PartialGraph n) (K : Graph n) : List Bool :=
  g.grounded.map fun ij => K.adj ij.1 ij.2

theorem lt_of_mem_grounded {g : PartialGraph n} {ij : Nat × Nat} (h : ij ∈ g.grounded) :
    ij.1 < n ∧ ij.2 < n ∧ ij.1 ≠ ij.2 ∧ g.matrix.get ij.1 ij.2 ≠ .l_Undef := by
  obtain ⟨i, j⟩ := ij
  have hlt := mem_upperPairs.mp (List.takeWhile_subset _ h)
  have hu := List.mem_takeWhile_imp h
  exact ⟨hlt.1.trans hlt.2, hlt.2, hlt.1.ne, of_decide_eq_true hu⟩

theorem onGrounded_of_completes {g : PartialGraph n} {H : Graph n} (h : g.Completes H) :
    g.onGrounded H = g.groundedString := by
  refine List.map_congr_left fun ij hij => ?_
  obtain ⟨hi, hj, hne, hu⟩ := lt_of_mem_grounded hij
  exact h _ hi _ hj hne hu

/-- Smaller on the grounded prefix, smaller as a string. -/
theorem string_lt_of_onGrounded {g : PartialGraph n} {K H : Graph n}
    (h : g.onGrounded K < g.onGrounded H) :
    K.string .upperTriangleRows < H.string .upperTriangleRows := by
  obtain ⟨rest, hrest⟩ : g.grounded <+: upperPairs n := List.takeWhile_prefix _
  rw [Graph.string_eq, Graph.string_eq, pairs, ← hrest, List.map_append, List.map_append]
  exact Lex.append_lt_append (by simp) (by simp) h

/-- A completion has edges of `plus` only. -/
theorem plus_of_completes {g : PartialGraph n} {H : Graph n} (h : g.Completes H) (i j : Nat)
    (hij : H.adj i j = true) : g.plus.adj i j = true := by
  have hi := H.bound i j hij
  have hj := H.lt_right hij
  have hne := H.ne_of_adj hij
  refine decide_eq_true ⟨hi, hj, hne, fun hf => ?_⟩
  have := h i hi j hj hne (by rw [hf]; decide)
  rw [hij, hf] at this
  exact absurd this (by decide)

/-- **A smaller image of `plus` is one of every completion.** -/
theorem not_lexMin {g : PartialGraph n} {p : List Nat} (hp : p.Perm (List.range n))
    (hlt : g.onGrounded (g.plus.imageUnder p) < g.groundedString) {H : Graph n}
    (hH : g.Completes H) : ¬ Graph.LexMin .upperTriangleRows H := by
  intro hmin
  -- fewer edges on the grounded prefix
  have hle : g.onGrounded (H.imageUnder p) ≤ g.onGrounded (g.plus.imageUnder p) :=
    Lex.map_le_map fun ij _ => Bool.le_iff_imp.mpr
      (Graph.imageUnder_mono (plus_of_completes hH) p ij.1 ij.2)
  rw [← onGrounded_of_completes hH] at hlt
  exact absurd (string_lt_of_onGrounded (hle.trans_lt hlt))
    (not_lt.mpr (hmin _ (H.isomorphic_imageUnder hp)))

theorem grounded_of_defined {g : PartialGraph n} (hg : g.Defined) : g.grounded = upperPairs n := by
  refine List.takeWhile_eq_self_iff.mpr fun ij hij => ?_
  obtain ⟨i, j⟩ := ij
  have hlt := mem_upperPairs.mp hij
  exact decide_eq_true (hg i (hlt.1.trans hlt.2) j hlt.2 hlt.1.ne)

theorem plus_of_defined {g : PartialGraph n} (hg : g.Defined) {H : Graph n} (hH : g.Completes H) :
    g.plus = H := by
  refine Graph.ext_of_lt fun i j hi hj => ?_
  by_cases hij : i = j
  · subst hij
    rw [Graph.irrefl, Graph.irrefl]
  · have hu := hg i hi j hj hij
    rw [hH i hi j hj hij hu]
    cases he : g.matrix.get i j with
    | l_True => simp [plus, hi, hj, hij, he]
    | l_False => simp [plus, he]
    | l_Undef => exact absurd he hu

/-- Fully defined, a graph that is not minimal has a smaller image. -/
theorem exists_smaller {g : PartialGraph n} (hg : g.Defined) {H : Graph n} (hH : g.Completes H)
    (hmin : ¬ Graph.LexMin .upperTriangleRows H) : ∃ p : List Nat, p.Perm (List.range n) ∧
      g.onGrounded (g.plus.imageUnder p) < g.groundedString := by
  obtain ⟨K, hK⟩ := not_forall.mp hmin
  obtain ⟨hiso, hlt⟩ := Classical.not_imp.mp hK
  obtain ⟨p, hp, he⟩ := Graph.isomorphic_iff.mp hiso.symm
  have hstr : ∀ G : Graph n, g.onGrounded G = G.string .upperTriangleRows := fun G => by
    rw [onGrounded, grounded_of_defined hg, Graph.string_eq]
    rfl
  refine ⟨p, hp, ?_⟩
  rw [plus_of_defined hg hH, ← (Graph.eq_imageUnder hp).mp (isImage_iff.mpr he.symm),
    ← onGrounded_of_completes hH, hstr, hstr]
  exact not_le.mp hlt

end PartialGraph

theorem refBelow_trueConst {N : Nat} (h : 1 ≤ N) : RefBelow N trueConst := ⟨by decide, h⟩

/-- **What `notLexLeader` posts**, on the variables declared. -/
theorem posts_notLexLeader (g : PartialGraph n) : ∃ s P,
    newModel.notLexLeader g.matrix = .ok ((leaderPerm n).1, s) ∧
      Posts (leaderGraph n).2 s P ∧ ∀ σ p K, LeaderReads n σ p K → p.Perm (List.range n) →
        (P σ ↔ K = g.plus.imageUnder p ∧ g.onGrounded K < g.groundedString) := by
  have hm := leaderVars n
  have hcov := posts_foldl (s := (leaderGraph n).2)
    (f := fun s (ij : Nat × Nat) => s.coverPair g.matrix (leaderGraph n).1 (leaderPerm n).1 ij.1
      ij.2)
    (P := fun (ij : Nat × Nat) σ => Covers n g.matrix (leaderGraph n).1 (permBit 2 n) σ ij) hm.ok
    (upperPairs n) (fun ij hij s' Q hs' => posts_coverPair hs'.ok g.nRows_eq (hm.permRefs.posts hs')
      (hm.edgeRefs.mono hs'.le) hij) fun ij hij => local_covers hm.permRefs hm.edgeRefs hij
  have r1 : ∀ b ∈ (g.grounded.map fun ij => if g.matrix.get ij.1 ij.2 = .l_True then trueConst
      else falseConst), RefBelow (leaderGraph n).2.nVars b := by
    refine List.forall_mem_map.mpr fun ij _ => ?_
    have h1 : RefBelow (leaderGraph n).2.nVars trueConst :=
      refBelow_trueConst (by rw [hm.nVars]; omega)
    split
    · exact h1
    · exact refBelow_neg.mpr h1
  have r2 : ∀ b ∈ (g.grounded.map fun ij => (leaderGraph n).1.get ij.1 ij.2),
      RefBelow (leaderGraph n).2.nVars b := by
    refine List.forall_mem_map.mpr fun ij hij => ?_
    obtain ⟨hi, hj, hne, -⟩ := PartialGraph.lt_of_mem_grounded hij
    exact hm.edgeRefs _ hi _ hj hne
  obtain ⟨s, hs, hlt⟩ := posts_arraysLexLt hcov.ok (by simp)
    (fun b hb => (r2 b hb).mono hcov.le) fun b hb => (r1 b hb).mono hcov.le
  refine ⟨s, _, ?_, hcov.and hlt fun σ τ hag h => ?_, fun σ p K hσ hp => ?_⟩
  · have e : newModel.notLexLeader g.matrix =
        (((upperPairs n).foldl (fun s ij => s.coverPair g.matrix (leaderGraph n).1
            (leaderPerm n).1 ij.1 ij.2) (leaderGraph n).2).boolArraysLexLt
          (groundedStrings g.matrix (leaderGraph n).1).2
          (groundedStrings g.matrix (leaderGraph n).1).1 >>= fun s =>
            .ok ((leaderPerm n).1, s)) := by
      rw [notLexLeader, g.nRows_eq, upperPairs, List.foldl_flatMap]
      simp only [List.foldl_map]
      rfl
    rw [e, groundedStrings_eq, hs, ok_bind]
  · rwa [← values_congr hag r1, ← values_congr hag r2]
  · rw [covers_iff g hp hσ.perm hσ.g2, Graph.eq_imageUnder hp]
    refine and_congr_right fun _ => ?_
    have e1 : values σ (g.grounded.map fun ij => if g.matrix.get ij.1 ij.2 = .l_True then trueConst
        else falseConst) = g.groundedString := by
      rw [values, List.map_map]
      refine List.map_congr_left fun ij _ => ?_
      by_cases h : g.matrix.get ij.1 ij.2 = .l_True <;>
        simp [h, getBoolAssignment, toLit, Lit.eval, trueConst, falseConst, hσ.trueVar]
    have e2 : values σ (g.grounded.map fun ij => (leaderGraph n).1.get ij.1 ij.2) =
        g.onGrounded K := by
      rw [values, List.map_map]
      refine List.map_congr_left fun ij hij => ?_
      obtain ⟨hi, hj, hne, -⟩ := PartialGraph.lt_of_mem_grounded hij
      exact hσ.g2 _ hi _ hj hne
    rw [e1, e2]

/-- **`notLexLeader` finds the smaller images**: on a new solver, the permutations decoded from the
models are those `p` for which the image of `g1` under `p`, undefined entries read as edges, is
smaller than `g1` on the grounded prefix. So a model means that no completion of `g1` has the
row-wise least string of its class; and a fully defined `g1` has a model iff its string is not
least. -/
theorem notLexLeader_exact (g1 : PartialGraph n) : ∃ perm s,
    newModel.notLexLeader g1.matrix = .ok (perm, s) ∧
    (∀ p, (∃ σ, Sat σ s.clauses ∧ s.decodeIntArray σ perm = p) ↔ p.Perm (List.range n) ∧
      g1.onGrounded (g1.plus.imageUnder p) < g1.groundedString) ∧
    (Satisfiable s.clauses → ∀ H, g1.Completes H → ¬ Graph.LexMin .upperTriangleRows H) ∧
    (g1.Defined → ∀ H, g1.Completes H →
      (Satisfiable s.clauses ↔ ¬ Graph.LexMin .upperTriangleRows H)) := by
  obtain ⟨s, P, hs, hP, hiff⟩ := posts_notLexLeader g1
  have hmodels : ∀ p, (∃ σ, Sat σ s.clauses ∧ s.decodeIntArray σ (leaderPerm n).1 = p) ↔
      p.Perm (List.range n) ∧ g1.onGrounded (g1.plus.imageUnder p) < g1.groundedString := by
    intro p
    constructor
    · rintro ⟨σ, hσ, rfl⟩
      obtain ⟨hread, hp⟩ := leaderReads_decode hP.ints (hP.ext.sat_old hσ)
      obtain ⟨he, hlt⟩ := (hiff σ _ _ hread hp).mp (hP.ext.sound σ hσ)
      exact ⟨hp, he ▸ hlt⟩
    · rintro ⟨hp, hlt⟩
      have hread := leaderReads_encoding (g1.plus.imageUnder p) p
      obtain ⟨τ, hag, hτ⟩ := hP.ext.complete _ (hread.sat hp)
        ((hiff _ p _ hread hp).mpr ⟨rfl, hlt⟩)
      refine ⟨τ, hτ, decode_eq (leaderVars n).length_perm (hP.ints ▸ (leaderVars n).ints)
        (fun k hk c hc => ?_) (length_of_perm_range hp) fun k hk => image_lt hp le_rfl hk⟩
      rw [← hread.perm k hk c hc]
      exact (getBoolAssignment_congr hag ((leaderVars n).permRefs.below k hk c hc)).symm
  refine ⟨(leaderPerm n).1, s, hs, hmodels, fun ⟨σ, hσ⟩ H hH => ?_, fun hg H hH =>
    ⟨fun ⟨σ, hσ⟩ => ?_, fun hmin => ?_⟩⟩
  · obtain ⟨hp, hlt⟩ := (hmodels _).mp ⟨σ, hσ, rfl⟩
    exact PartialGraph.not_lexMin hp hlt hH
  · obtain ⟨hp, hlt⟩ := (hmodels _).mp ⟨σ, hσ, rfl⟩
    exact PartialGraph.not_lexMin hp hlt hH
  · obtain ⟨p, hp⟩ := PartialGraph.exists_smaller hg hH hmin
    obtain ⟨σ, hσ, -⟩ := (hmodels p).mpr hp
    exact ⟨σ, hσ⟩

end SymBreak
