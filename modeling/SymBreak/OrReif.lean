import SymBreak.AddedClauses

/-!
# Reified disjunctions

What the clauses of `boolOrReif` and `boolArrayOrReif` (`ConstraintSolver.cc:269-289`) allow. The
clause that both literals true make `t` true is missing, so from two true members of an array on the
reference for their disjunction may have either value (`Possible`); `boolArrayOrReif` reads the only
member of an array of one twice.

Results:
* `possible_concat`: what may be read of one more member;
* `extendable_arrayOrReif`: what the clauses of `boolArrayOrReif` allow;
* **`orReif_exact_iff`**: when `t` is the disjunction.
-/

namespace SymBreak.ConstraintSolver

open Cnf

variable {s s' : ConstraintSolver} {F : Formula} {σ τ : Assignment} {b b1 b2 b3 t : Int}
  {bvars : List BoolVarRef}

/-- The values that a reference for the disjunction may have. -/
def Possible (bs : List Bool) (v : Bool) : Prop := v = bs.any id ∨ 2 ≤ bs.count true

theorem possible_singleton {b v : Bool} : Possible [b] v ↔ v = b := by
  cases b <;> simp [Possible]

/-- **One more member.** -/
theorem possible_concat {bs : List Bool} {b v : Bool} : Possible (bs ++ [b]) v ↔
    ∃ u, Possible bs u ∧ ((u = true ∧ b = true) ∨ v = (u || b)) := by
  have hcount : bs.count true = 0 ↔ bs.any id = false := by
    rw [List.count_eq_zero, List.any_eq_false]
    exact ⟨fun h x hx => by simpa using fun he : x = true => h (he ▸ hx),
      fun h hx => by simpa using h true hx⟩
  simp only [Possible, List.any_append, List.count_append, List.count_singleton, List.any_cons,
    List.any_nil, Bool.exists_bool, id_eq, Bool.or_false]
  generalize bs.count true = c at hcount ⊢
  generalize bs.any id = a at hcount ⊢
  cases a <;> cases b <;> cases v <;> simp at hcount ⊢ <;> grind

theorem means_orReif_iff (h1 : b1 ≠ 0) (h2 : b2 ≠ 0) (ht : t ≠ 0) : Means σ (orReif b1 b2 t) ↔
    (getBoolAssignment σ b1 = true ∧ getBoolAssignment σ b2 = true) ∨
      getBoolAssignment σ t = (getBoolAssignment σ b1 || getBoolAssignment σ b2) := by
  by_cases hex : getBoolAssignment σ b1 = true ∧ getBoolAssignment σ b2 = true
  · refine iff_of_true ?_ (Or.inl hex)
    simp [orReif, hex.1, hex.2]
  · rw [means_orReif h1 h2 ht hex, or_iff_right hex]

/-! ## Chains -/

/-- The values of `σ` can be completed to a model in which the reference `b` has the value `v`. -/
def Reaches (N : Nat) (s : ConstraintSolver) (σ : Assignment) (b : BoolVarRef) (v : Bool) : Prop :=
  ∃ τ, AgreeBelow N σ τ ∧ Sat τ s.clauses ∧ getBoolAssignment τ b = v

/-- The fresh reference of a turn: it is read of the reference so far, `b1`, and of `b2`. -/
theorem reaches_turn {N : Nat} (hs : s.Ok) (hN : N ≤ s.nVars) (h1 : RefBelow s.nVars b1)
    (h2 : RefBelow N b2) {v : Bool} :
    Reaches N (s.newBoolVar.2.post (orReif b1 b2 s.newBoolVar.1)) σ s.newBoolVar.1 v ↔
      ∃ u, Reaches N s σ b1 u ∧ ((u = true ∧ getBoolAssignment σ b2 = true) ∨
        v = (u || getBoolAssignment σ b2)) := by
  have hfresh : ∀ τ : Assignment, getBoolAssignment τ s.newBoolVar.1 = τ s.nVars := fun τ => by
    change getBoolAssignment τ (s.nextBoolID : Nat) = _
    rw [getBoolAssignment_natCast (by rw [s.nextBoolID_eq]; omega), s.nextBoolID_eq,
      Nat.add_sub_cancel]
  have hsat : ∀ τ, Sat τ (s.newBoolVar.2.post (orReif b1 b2 s.newBoolVar.1)).clauses ↔
      Sat τ s.clauses ∧ ((getBoolAssignment τ b1 = true ∧ getBoolAssignment τ b2 = true) ∨
        τ s.nVars = (getBoolAssignment τ b1 || getBoolAssignment τ b2)) := fun τ => by
    rw [clauses_post, sat_append, sat_map_toLit, means_orReif_iff h1.1 h2.1 refBelow_newBoolVar.1,
      hfresh]
    rfl
  constructor
  · rintro ⟨τ, hag, hτ, hv⟩
    obtain ⟨hold, hnew⟩ := (hsat τ).mp hτ
    rw [getBoolAssignment_congr hag h2, ← hv, hfresh]
    exact ⟨_, ⟨τ, hag, hold, rfl⟩, hnew⟩
  · rintro ⟨u, ⟨τ, hag, hτ, rfl⟩, hu⟩
    -- the fresh variable may be given the value
    have hup := agreeBelow_update s.nVars τ v
    refine ⟨Function.update τ s.nVars v, hag.trans (hup.mono hN), (hsat _).mpr ⟨?_, ?_⟩, ?_⟩
    · exact (hup.sat hs.below).mp hτ
    · rw [Function.update_self, ← getBoolAssignment_congr hup h1,
        ← getBoolAssignment_congr (hag.trans (hup.mono hN)) h2]
      exact hu
    · rw [hfresh, Function.update_self]

/-- The last clauses, for a reference `t` that existed before, in either order. -/
theorem reaches_last {N : Nat} {D : List (List BoolVarRef)}
    (hD : D = orReif b1 b2 t ∨ D = orReif b2 b1 t) (h1 : RefBelow s.nVars b1) (h2 : RefBelow N b2)
    (ht : RefBelow N t) : (∃ τ, AgreeBelow N σ τ ∧ Sat τ (s.post D).clauses) ↔
      ∃ u, Reaches N s σ b1 u ∧ ((u = true ∧ getBoolAssignment σ b2 = true) ∨
        getBoolAssignment σ t = (u || getBoolAssignment σ b2)) := by
  have hmeans : ∀ τ, Means τ D ↔ (getBoolAssignment τ b1 = true ∧ getBoolAssignment τ b2 = true) ∨
      getBoolAssignment τ t = (getBoolAssignment τ b1 || getBoolAssignment τ b2) := fun τ => by
    rcases hD with rfl | rfl
    · exact means_orReif_iff h1.1 h2.1 ht.1
    · rw [means_orReif_iff h2.1 h1.1 ht.1, and_comm, Bool.or_comm]
  have hsat : ∀ τ, AgreeBelow N σ τ → (Sat τ (s.post D).clauses ↔
      Sat τ s.clauses ∧ ((getBoolAssignment τ b1 = true ∧ getBoolAssignment σ b2 = true) ∨
        getBoolAssignment σ t = (getBoolAssignment τ b1 || getBoolAssignment σ b2))) :=
    fun τ hag => by
      rw [clauses_post, sat_append, sat_map_toLit, hmeans, getBoolAssignment_congr hag h2,
        getBoolAssignment_congr hag ht]
  constructor
  · rintro ⟨τ, hag, hτ⟩
    obtain ⟨hold, hnew⟩ := (hsat τ hag).mp hτ
    exact ⟨_, ⟨τ, hag, hold, rfl⟩, hnew⟩
  · rintro ⟨u, ⟨τ, hag, hτ, rfl⟩, hu⟩
    exact ⟨τ, hag, (hsat τ hag).mpr ⟨hτ, hu⟩⟩

theorem reaches_bare (b : BoolVarRef) {v : Bool} (hb : RefBelow s.nVars b) :
    Reaches s.nVars s.bare σ b v ↔ v = getBoolAssignment σ b := by
  constructor
  · rintro ⟨τ, hag, -, rfl⟩
    rw [getBoolAssignment_congr hag hb]
  · rintro rfl
    exact ⟨σ, AgreeBelow.refl _ σ, sat_nil σ, rfl⟩

/-- **The reference for the disjunction so far.** -/
theorem reaches_chainLoop (hb : ∀ b ∈ bvars, RefBelow s.nVars b) {m : Nat}
    (hm : m < bvars.length) : let r := chainLoop orReif bvars s.bare m
    r.2.Ok ∧ s.nVars ≤ r.2.nVars ∧ RefBelow r.2.nVars r.1 ∧ ∀ σ v, Reaches s.nVars r.2 σ r.1 v ↔
      Possible ((bvars.take (m + 1)).map (getBoolAssignment σ)) v := by
  induction m with
  | zero =>
    refine ⟨ok_bare s, Nat.le_refl _, refBelow_getD hb hm, fun σ v => ?_⟩
    refine (reaches_bare _ (refBelow_getD hb hm)).trans ?_
    rw [take_succ_getD hm]
    exact possible_singleton.symm
  | succ m ih =>
    obtain ⟨hok, hle, hacc, hr⟩ := ih (by omega)
    rw [chainLoop_succ]
    generalize chainLoop orReif bvars s.bare m = r at *
    have hbm := refBelow_getD hb hm
    refine ⟨?_, hle.trans (Nat.le_succ _), refBelow_newBoolVar, fun σ v => ?_⟩
    · exact below_append (hok.below.mono (Nat.le_succ _)) (refsBelow_orReif
        (hacc.mono (Nat.le_succ _)) (hbm.mono (hle.trans (Nat.le_succ _)))
        refBelow_newBoolVar).below
    · rw [reaches_turn hok hle hacc hbm, take_succ_getD hm, List.map_append, List.map_singleton,
        possible_concat]
      exact exists_congr fun u => and_congr_left fun _ => hr σ u

/-! ## What the clauses allow -/

/-- The members that `boolArrayOrReif` reads: the only one of an array of one twice. -/
def orInputs (bvars : List BoolVarRef) : List BoolVarRef :=
  bvars.take (bvars.length - 2 + 1) ++ [bvars.getD (bvars.length - 1) 0]

theorem orInputs_of_two_le (h : 2 ≤ bvars.length) : orInputs bvars = bvars := by
  rw [orInputs, show bvars.length - 2 + 1 = bvars.length - 1 by omega,
    ← take_succ_getD (by omega), Nat.sub_add_cancel (by omega), List.take_length]

theorem orInputs_singleton (b : BoolVarRef) : orInputs [b] = [b, b] := rfl

/-- **`boolArrayOrReif`** -/
theorem extendable_arrayOrReif (hne : bvars ≠ []) (hb : ∀ b ∈ bvars, RefBelow s.nVars b)
    (ht : RefBelow s.nVars t) : Extendable s (s.boolArrayOrReif bvars t) σ ↔
      Possible ((orInputs bvars).map (getBoolAssignment σ)) (getBoolAssignment σ t) := by
  have hlen : 0 < bvars.length := List.length_pos_iff.mpr hne
  have honto : s.boolArrayOrReif bvars t = onto s.clauses (s.bare.boolArrayOrReif bvars t) := by
    conv_lhs => rw [← onto_bare s, boolArrayOrReif_eq, chainLoop_onto, post_onto]
    rw [boolArrayOrReif_eq]
  obtain ⟨-, -, hacc, hr⟩ := reaches_chainLoop hb (show bvars.length - 2 < bvars.length by omega)
  rw [honto, extendable_onto rfl, boolArrayOrReif_eq,
    reaches_last (Or.inr rfl) hacc (refBelow_getD hb (by omega)) ht, orInputs, List.map_append,
    List.map_singleton, possible_concat]
  exact exists_congr fun u => and_congr_left fun _ => hr σ u

section Literals

variable (h1 : RefBelow s.nVars b1) (h2 : RefBelow s.nVars b2) (ht : RefBelow s.nVars t)
include h1 h2 ht

/-- `boolOrReif` of two literals. -/
theorem extendable_orReif : Extendable s (s.boolOrReif b1 b2 t) σ ↔
    Possible [getBoolAssignment σ b1, getBoolAssignment σ b2] (getBoolAssignment σ t) := by
  have e : s.boolOrReif b1 b2 t = onto s.clauses (s.bare.post (orReif b1 b2 t)) := by
    rw [boolOrReif_eq, ← post_onto, onto_bare]
  rw [e, extendable_onto rfl]
  refine (reaches_last (s := s.bare) (Or.inl rfl) h1 h2 ht).trans ?_
  rw [show [getBoolAssignment σ b1, getBoolAssignment σ b2] =
    [getBoolAssignment σ b1] ++ [getBoolAssignment σ b2] from rfl, possible_concat]
  exact exists_congr fun u => and_congr_left fun _ => (reaches_bare b1 h1).trans
    possible_singleton.symm

/-- `boolOrReif` of three literals. -/
theorem extendable_orReif3 (h3 : RefBelow s.nVars b3) :
    Extendable s (s.boolOrReif3 b1 b2 b3 t) σ ↔ Possible [getBoolAssignment σ b1,
      getBoolAssignment σ b2, getBoolAssignment σ b3] (getBoolAssignment σ t) := by
  have e : s.boolOrReif3 b1 b2 b3 t = onto s.clauses
      ((s.bare.newBoolVar.2.post (orReif b1 b2 s.bare.newBoolVar.1)).post
        (orReif s.bare.newBoolVar.1 b3 t)) := by
    conv_lhs => rw [← onto_bare s]
    simp only [boolOrReif3, boolOrReif_eq, newBoolVar_onto, post_onto]
  rw [e, extendable_onto rfl]
  refine (reaches_last (N := s.nVars) (Or.inl rfl) refBelow_newBoolVar h3 ht).trans ?_
  rw [show [getBoolAssignment σ b1, getBoolAssignment σ b2, getBoolAssignment σ b3] =
    [getBoolAssignment σ b1] ++ [getBoolAssignment σ b2] ++ [getBoolAssignment σ b3] from rfl,
    possible_concat]
  refine exists_congr fun u => and_congr_left fun _ =>
    (reaches_turn (ok_bare s) le_rfl h1 h2).trans ?_
  rw [possible_concat]
  exact exists_congr fun u => and_congr_left fun _ => (reaches_bare b1 h1).trans
    possible_singleton.symm

end Literals

/-! ## When the clauses define the disjunction -/

/-- The reference must have the value of the disjunction unless two members are true and it is
false. -/
theorem possible_iff_any {bs : List Bool} {v : Bool} :
    (Possible bs v ↔ v = bs.any id) ↔ v = true ∨ bs.count true ≤ 1 := by
  have hany : 2 ≤ bs.count true → bs.any id = true := fun h =>
    List.any_eq_true.mpr ⟨true, List.count_pos_iff.mp (by omega), rfl⟩
  unfold Possible
  rcases Nat.lt_or_ge (bs.count true) 2 with h | h
  · simp [Nat.not_le.mpr h, Nat.le_of_lt_succ h]
  · simp [h, hany h, Nat.not_le.mpr (Nat.lt_of_lt_of_le Nat.one_lt_two h)]

/-- **When the reified disjunctions are exact**: `t` is true, or at most one of the literals is. An
array of one literal is exact when `t` is true or the literal is false. -/
theorem orReif_exact_iff (s : ConstraintSolver) (σ : Assignment) {t : BoolVarRef}
    (ht : RefBelow s.nVars t) :
    (∀ bvars : List BoolVarRef, bvars ≠ [] → (∀ b ∈ bvars, RefBelow s.nVars b) →
      ((Extendable s (s.boolArrayOrReif bvars t) σ ↔
          getBoolAssignment σ t = bvars.any (getBoolAssignment σ)) ↔
        (getBoolAssignment σ t = true ∨ bvars.countP (getBoolAssignment σ) ≤ 1 ∧
          (bvars.length = 1 → bvars.countP (getBoolAssignment σ) = 0)))) ∧
    (∀ b1 b2, RefBelow s.nVars b1 → RefBelow s.nVars b2 →
      ((Extendable s (s.boolOrReif b1 b2 t) σ ↔
          getBoolAssignment σ t = (getBoolAssignment σ b1 || getBoolAssignment σ b2)) ↔
        (getBoolAssignment σ t = true ∨ [b1, b2].countP (getBoolAssignment σ) ≤ 1))) ∧
    ∀ b1 b2 b3, RefBelow s.nVars b1 → RefBelow s.nVars b2 → RefBelow s.nVars b3 →
      ((Extendable s (s.boolOrReif3 b1 b2 b3 t) σ ↔ getBoolAssignment σ t =
          (getBoolAssignment σ b1 || getBoolAssignment σ b2 || getBoolAssignment σ b3)) ↔
        (getBoolAssignment σ t = true ∨ [b1, b2, b3].countP (getBoolAssignment σ) ≤ 1)) := by
  have hcount : ∀ l : List BoolVarRef, (l.map (getBoolAssignment σ)).count true =
      l.countP (getBoolAssignment σ) := fun l => by
    rw [List.count, List.countP_map]
    exact List.countP_congr fun b _ => by simp
  have hexact : ∀ l : List BoolVarRef, (Possible (l.map (getBoolAssignment σ))
      (getBoolAssignment σ t) ↔ getBoolAssignment σ t = l.any (getBoolAssignment σ)) ↔
        (getBoolAssignment σ t = true ∨ l.countP (getBoolAssignment σ) ≤ 1) := fun l => by
    rw [← hcount, ← possible_iff_any, List.any_map]
    rfl
  refine ⟨fun bvars hne hb => ?_, fun b1 b2 h1 h2 => ?_, fun b1 b2 b3 h1 h2 h3 => ?_⟩
  · rw [extendable_arrayOrReif hne hb ht]
    rcases Nat.lt_or_ge bvars.length 2 with hlt | hge
    · obtain ⟨b, rfl⟩ := List.length_eq_one_iff.mp
        (Nat.le_antisymm (Nat.le_of_lt_succ hlt) (List.length_pos_iff.mpr hne))
      have hpair := hexact [b, b]
      rw [orInputs_singleton]
      cases hv : getBoolAssignment σ b <;> simpa [hv] using hpair
    · rw [orInputs_of_two_le hge, hexact]
      exact or_congr_right (and_iff_left fun h => by omega).symm
  · rw [extendable_orReif h1 h2 ht, ← hexact]
    simp only [List.map_cons, List.map_nil, List.any_cons, List.any_nil, Bool.or_false]
  · rw [extendable_orReif3 h1 h2 ht h3, ← hexact]
    simp only [List.map_cons, List.map_nil, List.any_cons, List.any_nil, Bool.or_false,
      Bool.or_assoc]

/-- The solver with three variables beside the constant. -/
def threeVars : ConstraintSolver := newModel.newBoolVar.2.newBoolVar.2.newBoolVar.2

theorem orReif_exact_iff_threeVars :
    ((Extendable threeVars (threeVars.boolArrayOrReif [2, 3] 4) (fun v => v == 1) ↔
        getBoolAssignment (fun v => v == 1) 4 =
          [2, 3].any (getBoolAssignment fun v => v == 1)) ↔
      (getBoolAssignment (fun v => v == 1) 4 = true ∨
        [2, 3].countP (getBoolAssignment fun v => v == 1) ≤ 1 ∧
          ([2, 3].length = 1 → [2, 3].countP (getBoolAssignment fun v => v == 1) = 0))) :=
  have h2 : RefBelow threeVars.nVars 2 := by unfold RefBelow; decide
  have h3 : RefBelow threeVars.nVars 3 := by unfold RefBelow; decide
  have h4 : RefBelow threeVars.nVars 4 := by unfold RefBelow; decide
  (orReif_exact_iff threeVars (fun v => v == 1) h4).1 [2, 3] (List.cons_ne_nil _ _)
    (List.forall_mem_cons.mpr ⟨h2, List.forall_mem_singleton.mpr h3⟩)

/-- Two true literals leave the reference for their disjunction free, and so does an array of one
true literal. -/
theorem orReif_not_exact :
    ¬ (Extendable threeVars (threeVars.boolArrayOrReif [2, 3] 4) (fun v => v != 3) ↔
      getBoolAssignment (fun v => v != 3) 4 = [2, 3].any (getBoolAssignment fun v => v != 3)) ∧
    ¬ (Extendable threeVars (threeVars.boolArrayOrReif [2] 4) (fun v => v != 3) ↔
      getBoolAssignment (fun v => v != 3) 4 = [2].any (getBoolAssignment fun v => v != 3)) ∧
    ¬ (Extendable threeVars (threeVars.boolOrReif 2 3 4) (fun v => v != 3) ↔
      getBoolAssignment (fun v => v != 3) 4 =
        (getBoolAssignment (fun v => v != 3) 2 || getBoolAssignment (fun v => v != 3) 3)) := by
  have h2 : RefBelow threeVars.nVars 2 := by unfold RefBelow; decide
  have h3 : RefBelow threeVars.nVars 3 := by unfold RefBelow; decide
  have h4 : RefBelow threeVars.nVars 4 := by unfold RefBelow; decide
  have e2 : getBoolAssignment (fun v => v != 3) 2 = true := by decide
  have e3 : getBoolAssignment (fun v => v != 3) 3 = true := by decide
  have e4 : getBoolAssignment (fun v => v != 3) 4 = false := by decide
  rw [extendable_arrayOrReif (List.cons_ne_nil _ _)
      (List.forall_mem_cons.mpr ⟨h2, List.forall_mem_singleton.mpr h3⟩) h4,
    extendable_arrayOrReif (List.cons_ne_nil _ _) (List.forall_mem_singleton.mpr h2) h4,
    extendable_orReif h2 h3 h4]
  simp [orInputs, Possible, e2, e3, e4]

end SymBreak.ConstraintSolver
