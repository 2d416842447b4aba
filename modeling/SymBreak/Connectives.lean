import SymBreak.Posting

/-!
# Conjunctions and disjunctions

What the reified connectives post (`ConstraintSolver.cc:226-254, 269-289`). `boolArrayAndReif` and
`boolArrayOrReif` are one loop (`chainLoop`) over a binary reification; `Chains` says what that has
to define for the loop to be right.

Results:
* **`posts_arrayReif`**: a chain of reifications posts that `t` is the value along the array;
* `posts_arrayAndReif`: the conjunction of the array;
* `posts_arrayOrReif`: the disjunction of mutually exclusive references.
-/

namespace SymBreak.ConstraintSolver

open Cnf

variable {s s' : ConstraintSolver} {N : Nat} {σ τ : Assignment} {b b1 b2 b3 t : Int}

/-! ## Two or three references -/

/-- The clauses of `boolAndReif(b1, b2, t)`. -/
def andReif (b1 b2 t : BoolVarRef) : List (List BoolVarRef) :=
  [[b1, neg t], [b2, neg t], [neg b1, neg b2, t]]

/-- The clauses of `boolAndReif(b1, b2, b3, t)`. -/
def andReif3 (b1 b2 b3 t : BoolVarRef) : List (List BoolVarRef) :=
  [[b1, neg t], [b2, neg t], [b3, neg t], [neg b1, neg b2, neg b3, t]]

/-- The clauses of `boolOrReif(b1, b2, t)`. -/
def orReif (b1 b2 t : BoolVarRef) : List (List BoolVarRef) :=
  [[b1, b2, neg t], [b1, neg b2, t], [neg b1, b2, t]]

theorem boolAndReif_eq : s.boolAndReif b1 b2 t = s.post (andReif b1 b2 t) := by
  simp only [boolAndReif, boolOr_eq, boolOr3_eq, post_post]
  rfl

theorem boolAndReif3_eq : s.boolAndReif3 b1 b2 b3 t = s.post (andReif3 b1 b2 b3 t) := by
  simp only [boolAndReif3, boolOr_eq, boolArrayOr_eq, post_post]
  rfl

theorem boolOrReif_eq : s.boolOrReif b1 b2 t = s.post (orReif b1 b2 t) := by
  simp only [boolOrReif, boolOr3_eq, post_post]
  rfl

theorem means_andReif (h1 : b1 ≠ 0) (h2 : b2 ≠ 0) (ht : t ≠ 0) :
    Means σ (andReif b1 b2 t) ↔
      getBoolAssignment σ t = (getBoolAssignment σ b1 && getBoolAssignment σ b2) := by
  simp only [andReif, means_cons, means_nil, List.mem_cons, List.not_mem_nil, or_false,
    exists_eq_or_imp, exists_eq_left, getBoolAssignment_neg h1, getBoolAssignment_neg h2,
    getBoolAssignment_neg ht]
  cases getBoolAssignment σ b1 <;> cases getBoolAssignment σ b2 <;>
    cases getBoolAssignment σ t <;> simp

theorem means_andReif3 (h1 : b1 ≠ 0) (h2 : b2 ≠ 0) (h3 : b3 ≠ 0) (ht : t ≠ 0) :
    Means σ (andReif3 b1 b2 b3 t) ↔ getBoolAssignment σ t =
      (getBoolAssignment σ b1 && getBoolAssignment σ b2 && getBoolAssignment σ b3) := by
  simp only [andReif3, means_cons, means_nil, List.mem_cons, List.not_mem_nil, or_false,
    exists_eq_or_imp, exists_eq_left, getBoolAssignment_neg h1, getBoolAssignment_neg h2,
    getBoolAssignment_neg h3, getBoolAssignment_neg ht]
  cases getBoolAssignment σ b1 <;> cases getBoolAssignment σ b2 <;>
    cases getBoolAssignment σ b3 <;> cases getBoolAssignment σ t <;> simp

/-- The three clauses define the disjunction, unless both disjuncts are true. -/
theorem means_orReif (h1 : b1 ≠ 0) (h2 : b2 ≠ 0) (ht : t ≠ 0)
    (hex : ¬ (getBoolAssignment σ b1 = true ∧ getBoolAssignment σ b2 = true)) :
    Means σ (orReif b1 b2 t) ↔
      getBoolAssignment σ t = (getBoolAssignment σ b1 || getBoolAssignment σ b2) := by
  simp only [orReif, means_cons, means_nil, List.mem_cons, List.not_mem_nil, or_false,
    exists_eq_or_imp, exists_eq_left, getBoolAssignment_neg h1, getBoolAssignment_neg h2,
    getBoolAssignment_neg ht]
  revert hex
  cases getBoolAssignment σ b1 <;> cases getBoolAssignment σ b2 <;>
    cases getBoolAssignment σ t <;> simp

theorem refsBelow_andReif (h1 : RefBelow N b1) (h2 : RefBelow N b2) (ht : RefBelow N t) :
    RefsBelow N (andReif b1 b2 t) := by
  simp only [RefsBelow, andReif, List.forall_mem_cons, List.not_mem_nil, false_implies,
    implies_true, and_true, refBelow_neg]
  exact ⟨⟨h1, ht⟩, ⟨h2, ht⟩, h1, h2, ht⟩

theorem refsBelow_andReif3 (h1 : RefBelow N b1) (h2 : RefBelow N b2) (h3 : RefBelow N b3)
    (ht : RefBelow N t) : RefsBelow N (andReif3 b1 b2 b3 t) := by
  simp only [RefsBelow, andReif3, List.forall_mem_cons, List.not_mem_nil, false_implies,
    implies_true, and_true, refBelow_neg]
  exact ⟨⟨h1, ht⟩, ⟨h2, ht⟩, ⟨h3, ht⟩, h1, h2, h3, ht⟩

theorem refsBelow_orReif (h1 : RefBelow N b1) (h2 : RefBelow N b2) (ht : RefBelow N t) :
    RefsBelow N (orReif b1 b2 t) := by
  simp only [RefsBelow, orReif, List.forall_mem_cons, List.not_mem_nil, false_implies,
    implies_true, and_true, refBelow_neg]
  exact ⟨⟨h1, h2, ht⟩, ⟨h1, h2, ht⟩, h1, h2, ht⟩

/-! ## Chains -/

section Chain

variable {reif : BoolVarRef → BoolVarRef → BoolVarRef → List (List BoolVarRef)}
  {op : Bool → Bool → Bool} {bvars : List BoolVarRef}

/-- The value of `op` along the first `m + 1` references. -/
def chainValue (op : Bool → Bool → Bool) (bvars : List BoolVarRef) (σ : Assignment) : Nat → Bool
  | 0 => getBoolAssignment σ (bvars.getD 0 0)
  | m + 1 => op (chainValue op bvars σ m) (getBoolAssignment σ (bvars.getD (m + 1) 0))

/-- The first `m` turns of the loop: a fresh reference for the accumulator and the next member. -/
def chainLoop (reif : BoolVarRef → BoolVarRef → BoolVarRef → List (List BoolVarRef))
    (bvars : List BoolVarRef) (s : ConstraintSolver) (m : Nat) : BoolVarRef × ConstraintSolver :=
  (List.range' 1 m).foldl (fun r i =>
    (r.2.newBoolVar.1, r.2.newBoolVar.2.post (reif r.1 (bvars.getD i 0) r.2.newBoolVar.1)))
    (bvars.getD 0 0, s)

theorem chainLoop_succ (m : Nat) : chainLoop reif bvars s (m + 1) =
    (fun r : BoolVarRef × ConstraintSolver => (r.2.newBoolVar.1, r.2.newBoolVar.2.post
      (reif r.1 (bvars.getD (m + 1) 0) r.2.newBoolVar.1))) (chainLoop reif bvars s m) := by
  rw [chainLoop, List.range'_1_concat, List.foldl_append, Nat.add_comm 1 m]
  rfl

/-- `reif b1 b2 t` defines `t` as `op`, in either order, on a reference `b` for the chain so far and
the next member. -/
structure Chains (reif : BoolVarRef → BoolVarRef → BoolVarRef → List (List BoolVarRef))
    (op : Bool → Bool → Bool) (bvars : List BoolVarRef) (s : ConstraintSolver) : Prop where
  below : ∀ {N b1 b2 t}, RefBelow N b1 → RefBelow N b2 → RefBelow N t →
    RefsBelow N (reif b1 b2 t)
  means : ∀ {σ m b t}, Sat σ s.clauses → m + 1 < bvars.length → b ≠ 0 →
    bvars.getD (m + 1) 0 ≠ 0 → t ≠ 0 → getBoolAssignment σ b = chainValue op bvars σ m →
    (Means σ (reif b (bvars.getD (m + 1) 0) t) ↔
      getBoolAssignment σ t = chainValue op bvars σ (m + 1)) ∧
    (Means σ (reif (bvars.getD (m + 1) 0) b t) ↔
      getBoolAssignment σ t = chainValue op bvars σ (m + 1))

theorem chainValue_congr (hb : ∀ b ∈ bvars, RefBelow N b) (hag : AgreeBelow N σ τ) {m : Nat}
    (hm : m < bvars.length) : chainValue op bvars σ m = chainValue op bvars τ m := by
  induction m with
  | zero => exact getBoolAssignment_congr hag (refBelow_getD hb hm)
  | succ m ih =>
    rw [chainValue, chainValue, ih (by omega), getBoolAssignment_congr hag (refBelow_getD hb hm)]

variable (hs : s.Ok) (hb : ∀ b ∈ bvars, RefBelow s.nVars b) (h : Chains reif op bvars s)
include hs hb h

/-- The accumulator: after `m` turns it stands for the first `m + 1` references. -/
theorem posts_chainLoop {m : Nat} (hm : m < bvars.length) :
    Posts s (chainLoop reif bvars s m).2 (fun _ => True) ∧
      RefBelow (chainLoop reif bvars s m).2.nVars (chainLoop reif bvars s m).1 ∧
      ∀ σ, Sat σ (chainLoop reif bvars s m).2.clauses →
        getBoolAssignment σ (chainLoop reif bvars s m).1 = chainValue op bvars σ m := by
  induction m with
  | zero => exact ⟨posts_refl hs, refBelow_getD hb hm, fun σ _ => rfl⟩
  | succ m ih =>
    obtain ⟨hp, hti, hv⟩ := ih (by omega)
    rw [chainLoop_succ]
    generalize chainLoop reif bvars s m = r at *
    have hbm := (refBelow_getD hb hm).mono hp.le
    have hmeans : ∀ σ, Sat σ r.2.clauses →
        (Means σ (reif r.1 (bvars.getD (m + 1) 0) r.2.newBoolVar.1) ↔
          getBoolAssignment σ r.2.newBoolVar.1 = chainValue op bvars σ (m + 1)) := fun σ hσ =>
      (h.means (hp.ext.sat_old hσ) hm hti.1 hbm.1 refBelow_newBoolVar.1 (hv σ hσ)).1
    have hd := posts_define hp.ok (h.below (hti.mono (Nat.le_succ _)) (hbm.mono (Nat.le_succ _))
      refBelow_newBoolVar) hmeans fun σ τ hag =>
        chainValue_congr (fun b hb' => (hb b hb').mono hp.le) hag hm
    refine ⟨hp.true_true hd, refBelow_newBoolVar, fun σ hσ => ?_⟩
    have hσ' := hd.ext.sat_old hσ
    rw [clauses_post, sat_append, sat_map_toLit] at hσ
    exact (hmeans σ hσ').mp hσ.2

/-- **A chain of reifications** posts that `t` is the value along the array. -/
theorem posts_arrayReif (hlen : 2 ≤ bvars.length) (ht : RefBelow s.nVars t) :
    Posts s ((chainLoop reif bvars s (bvars.length - 2)).2.post
        (reif (bvars.getD (bvars.length - 1) 0) (chainLoop reif bvars s (bvars.length - 2)).1 t))
      fun σ => getBoolAssignment σ t = chainValue op bvars σ (bvars.length - 1) := by
  obtain ⟨m, hm⟩ : ∃ m, bvars.length = m + 2 := ⟨bvars.length - 2, by omega⟩
  rw [hm, Nat.add_sub_cancel, show m + 2 - 1 = m + 1 from rfl]
  obtain ⟨hp, hti, hv⟩ := posts_chainLoop hs hb h (m := m) (by omega)
  have hlast := refBelow_getD hb (show m + 1 < bvars.length by omega)
  refine hp.trans_true (posts_post hp.ok (h.below (hlast.mono hp.le) hti (ht.mono hp.le)))
    (fun σ hσ => ?_) fun σ τ hag hσ => ?_
  · exact (h.means (hp.ext.sat_old hσ) (by omega) hti.1 hlast.1 ht.1 (hv σ hσ)).2
  · rw [← getBoolAssignment_congr hag ht, hσ, chainValue_congr hb hag (by omega)]

end Chain

/-- No two of the references are true together. -/
def Exclusive (σ : Assignment) (bools : List BoolVarRef) : Prop :=
  bools.Pairwise fun b b' => ¬ (getBoolAssignment σ b = true ∧ getBoolAssignment σ b' = true)

theorem exclusive_any {l l' : List BoolVarRef} (h : Exclusive σ (l ++ b :: l')) :
    ¬ (l.any (getBoolAssignment σ) = true ∧ getBoolAssignment σ b = true) := by
  rintro ⟨hl, hb⟩
  obtain ⟨c, hc, hv⟩ := List.any_eq_true.mp hl
  exact (List.pairwise_append.mp h).2.2 c hc b (by simp) ⟨hv, hb⟩

/-- A list of references, cut at position `m`. -/
theorem take_cons_drop {bvars : List BoolVarRef} {m : Nat} (h : m < bvars.length) :
    bvars = bvars.take m ++ bvars.getD m 0 :: bvars.drop (m + 1) := by
  rw [List.getD_eq_getElem _ _ h, List.cons_getElem_drop_succ, List.take_append_drop]

theorem take_succ_getD {bvars : List BoolVarRef} {m : Nat} (h : m < bvars.length) :
    bvars.take (m + 1) = bvars.take m ++ [bvars.getD m 0] := by
  rw [List.getD_eq_getElem _ _ h, List.take_append_getElem]

/-! ## Arrays -/

section Arrays

variable {bvars : List BoolVarRef}

theorem boolArrayAndReif_eq : s.boolArrayAndReif bvars t =
    (chainLoop andReif bvars s (bvars.length - 2)).2.post
      (andReif (bvars.getD (bvars.length - 1) 0)
        (chainLoop andReif bvars s (bvars.length - 2)).1 t) := by
  simp only [boolArrayAndReif, boolAndReif_eq]
  rfl

theorem boolArrayOrReif_eq : s.boolArrayOrReif bvars t =
    (chainLoop orReif bvars s (bvars.length - 2)).2.post
      (orReif (bvars.getD (bvars.length - 1) 0)
        (chainLoop orReif bvars s (bvars.length - 2)).1 t) := by
  simp only [boolArrayOrReif, boolOrReif_eq]
  rfl

theorem chainValue_and {m : Nat} (hm : m < bvars.length) :
    chainValue and bvars σ m = (bvars.take (m + 1)).all (getBoolAssignment σ) := by
  induction m with
  | zero =>
    rw [take_succ_getD hm]
    simp [chainValue]
  | succ m ih =>
    rw [chainValue, ih (by omega), take_succ_getD hm]
    simp

theorem chainValue_or {m : Nat} (hm : m < bvars.length) :
    chainValue or bvars σ m = (bvars.take (m + 1)).any (getBoolAssignment σ) := by
  induction m with
  | zero =>
    rw [take_succ_getD hm]
    simp [chainValue]
  | succ m ih =>
    rw [chainValue, ih (by omega), take_succ_getD hm]
    simp

theorem chains_and : Chains andReif and bvars s where
  below := refsBelow_andReif
  means := by
    intro σ m b t _ _ hb hm ht hv
    rw [means_andReif hb hm ht, means_andReif hm hb ht, hv, chainValue, Bool.and_comm]
    exact ⟨by rw [Bool.and_comm], Iff.rfl⟩

/-- Mutually exclusive references: the clauses of `boolOrReif` define their disjunction. -/
theorem chains_or (hex : ∀ σ, Sat σ s.clauses → Exclusive σ bvars) : Chains orReif or bvars s where
  below := refsBelow_orReif
  means := by
    intro σ m b t hσ hlt hb hm ht hv
    have hnot : ¬ (getBoolAssignment σ b = true ∧
        getBoolAssignment σ (bvars.getD (m + 1) 0) = true) := by
      have h := hex σ hσ
      rw [take_cons_drop hlt] at h
      rw [hv, chainValue_or (by omega)]
      exact exclusive_any h
    rw [means_orReif hb hm ht hnot, means_orReif hm hb ht fun h => hnot h.symm, hv, chainValue,
      Bool.or_comm]
    exact ⟨by rw [Bool.or_comm], Iff.rfl⟩

/-- **`boolArrayAndReif`** posts that `t` is the conjunction. -/
theorem posts_arrayAndReif (hs : s.Ok) (hlen : 2 ≤ bvars.length)
    (hb : ∀ b ∈ bvars, RefBelow s.nVars b) (ht : RefBelow s.nVars t) :
    Posts s (s.boolArrayAndReif bvars t) fun σ =>
      getBoolAssignment σ t = bvars.all (getBoolAssignment σ) := by
  rw [boolArrayAndReif_eq]
  refine (posts_arrayReif hs hb chains_and hlen ht).congr fun σ _ => ?_
  rw [chainValue_and (by omega), Nat.sub_add_cancel (by omega), List.take_length]

/-- **`boolArrayOrReif`** on mutually exclusive references posts that `t` is their disjunction. -/
theorem posts_arrayOrReif (hs : s.Ok) (hlen : 2 ≤ bvars.length)
    (hb : ∀ b ∈ bvars, RefBelow s.nVars b) (hex : ∀ σ, Sat σ s.clauses → Exclusive σ bvars)
    (ht : RefBelow s.nVars t) : Posts s (s.boolArrayOrReif bvars t) fun σ =>
      getBoolAssignment σ t = bvars.any (getBoolAssignment σ) := by
  rw [boolArrayOrReif_eq]
  refine (posts_arrayReif hs hb (chains_or hex) hlen ht).congr fun σ _ => ?_
  rw [chainValue_or (by omega), Nat.sub_add_cancel (by omega), List.take_length]

end Arrays

end SymBreak.ConstraintSolver
