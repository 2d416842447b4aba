import SymBreak.Glucose.SolverTypes
import SymBreak.Lib.Implication
import Mathlib.Data.List.Nodup

/-!
# The trail

Model of the assignment of `core/Solver.h`: the values, the trail of the literals that are true in
the order they were set, the start of each decision level on it, and the reason and the level of
each variable. A vector indexed by variables is a function.

`TrailOk` says how these agree. It is kept by setting a literal (`TrailOk.push`), by a new level
(`TrailOk.newDecisionLevel`) and by giving levels up (`TrailOk.cut`); a level is a segment of the
trail (`TrailOk.mem_take_iff_level`).
-/

namespace SymBreak.Glucose

open Cnf

/-- The assignment of a `Solver`. -/
structure Trail where
  nVars : Nat
  assigns : Var → LBool
  vardata : Var → VarData
  trail : List Lit
  trailLim : List Nat

namespace Trail

variable (t : Trail)

/-- `value(Lit)` (`Solver.h:398`) -/
def value (p : Lit) : LBool := (t.assigns p.var).xor p.sign

def level (x : Var) : Nat := (t.vardata x).level

def reason (x : Var) : Option CRef := (t.vardata x).reason

def decisionLevel : Nat := t.trailLim.length

def nAssigns : Nat := t.trail.length

def newDecisionLevel : Trail := { t with trailLim := t.trailLim ++ [t.trail.length] }

/-- The assignments of `uncheckedEnqueue` (`Solver.cc:764-766`). -/
def push (p : Lit) (source : Option CRef) : Trail :=
  { t with
    assigns := Function.update t.assigns p.var (LBool.ofBool !p.sign)
    vardata := Function.update t.vardata p.var ⟨source, t.decisionLevel⟩
    trail := t.trail ++ [p] }

/-- The start of level `l + 1` on the trail, `trail_lim[l]`. -/
def lim (l : Nat) : Nat := t.trailLim.getD l t.trail.length

/-- What is left when the levels above `l` are given up. -/
def cut (l : Nat) : Trail :=
  { t with
    assigns := fun x =>
      if x ∈ (t.trail.drop (t.lim l)).map Lit.var then .l_Undef else t.assigns x
    trail := t.trail.take (t.lim l)
    trailLim := t.trailLim.take l }

/-- The level of a position on the trail. -/
def levelAt (i : Nat) : Nat := t.trailLim.countP (· ≤ i)

end Trail

/-- How the members of a trail agree. -/
structure TrailOk (t : Trail) : Prop where
  nodup : (t.trail.map Lit.var).Nodup
  below : ∀ p ∈ t.trail, p.var < t.nVars
  value : ∀ p, t.value p = .l_True ↔ p ∈ t.trail
  sorted : t.trailLim.Pairwise (· ≤ ·)
  lim_le : ∀ l ∈ t.trailLim, l ≤ t.trail.length
  level : ∀ i p, t.trail[i]? = some p → t.level p.var = t.levelAt i

namespace TrailOk

variable {t : Trail} {p q : Lit} {i j l n : Nat}

/-! ## Values -/

theorem value_neg_eq_true : t.value p.neg = .l_True ↔ t.value p = .l_False :=
  LBool.xor_not_eq_true

theorem value_eq_false (h : TrailOk t) : t.value p = .l_False ↔ p.neg ∈ t.trail := by
  rw [← h.value, value_neg_eq_true]

theorem value_eq_undef_iff : t.value p = .l_Undef ↔ t.assigns p.var = .l_Undef :=
  LBool.xor_eq_undef

theorem value_eq_undef (h : TrailOk t) :
    t.value p = .l_Undef ↔ p ∉ t.trail ∧ p.neg ∉ t.trail := by
  rw [← h.value, ← h.value_eq_false]
  cases t.value p <;> simp

/-- A variable has no value when it is not on the trail. -/
theorem assigns_eq_undef (h : TrailOk t) {x : Var} :
    t.assigns x = .l_Undef ↔ x ∉ t.trail.map Lit.var := by
  rw [← value_eq_undef_iff (p := ⟨x, false⟩), h.value_eq_undef, List.mem_map]
  constructor
  · rintro ⟨h1, h2⟩ ⟨q, hq, hqx⟩
    rcases eq_or_eq_neg (p := q) (q := ⟨x, false⟩) hqx with rfl | rfl
    · exact h1 hq
    · exact h2 hq
  · exact fun hno => ⟨fun h1 => hno ⟨_, h1, rfl⟩, fun h2 => hno ⟨_, h2, rfl⟩⟩

theorem neg_notMem (h : TrailOk t) (hp : p ∈ t.trail) : p.neg ∉ t.trail := by
  rw [← h.value_eq_false, (h.value p).mpr hp]
  simp

/-- A variable stands once on the trail. -/
theorem index_unique (h : TrailOk t) (hp : t.trail[i]? = some p) (hq : t.trail[j]? = some q)
    (hv : p.var = q.var) : i = j := by
  obtain ⟨hi, hpi⟩ := List.getElem?_eq_some_iff.mp hp
  obtain ⟨hj, hqj⟩ := List.getElem?_eq_some_iff.mp hq
  have hmi : (t.trail.map Lit.var)[i]? = some p.var := by rw [List.getElem?_map, hp]; rfl
  have hmj : (t.trail.map Lit.var)[j]? = some p.var := by rw [List.getElem?_map, hq, hv]; rfl
  exact (List.getElem?_inj (by simpa using hi) h.nodup).mp (hmi.trans hmj.symm)

theorem eq_of_var_eq (h : TrailOk t) (hp : p ∈ t.trail) (hq : q ∈ t.trail) (hv : p.var = q.var) :
    p = q := by
  rcases eq_or_eq_neg hv with rfl | rfl
  · rfl
  · exact absurd hp (h.neg_notMem hq)

/-- A literal whose position is known is in no other part of the trail. -/
theorem mem_take_iff_lt (h : TrailOk t) (hp : t.trail[i]? = some p) :
    p ∈ t.trail.take n ↔ i < n := by
  rw [mem_take_iff]
  constructor
  · rintro ⟨j, hj, hpj⟩
    exact h.index_unique hp hpj rfl ▸ hj
  · exact fun hi => ⟨i, hi, hp⟩

theorem length_le (h : TrailOk t) : t.trail.length ≤ t.nVars := by
  have hsub : t.trail.map Lit.var ⊆ List.range t.nVars := by
    intro x hx
    obtain ⟨p, hp, rfl⟩ := List.mem_map.mp hx
    exact List.mem_range.mpr (h.below p hp)
  simpa using (h.nodup.subperm hsub).length_le

/-! ## Levels -/

theorem levelAt_mono (hij : i ≤ j) : t.levelAt i ≤ t.levelAt j :=
  List.countP_mono_left fun l _ h => by
    simp only [decide_eq_true_eq] at h ⊢
    exact h.trans hij

theorem levelAt_le : t.levelAt i ≤ t.decisionLevel := List.countP_le_length

theorem lim_eq (hl : l < t.decisionLevel) : t.lim l = t.trailLim[l] := by
  rw [Trail.lim, List.getD_eq_getElem?_getD, List.getElem?_eq_getElem hl, Option.getD_some]

theorem lim_eq_length (hl : t.decisionLevel ≤ l) : t.lim l = t.trail.length := by
  rw [Trail.lim, List.getD_eq_getElem?_getD, List.getElem?_eq_none hl, Option.getD_none]

/-- Level `l` ends where level `l + 1` starts. -/
theorem levelAt_le_iff (h : TrailOk t) (hl : l < t.decisionLevel) :
    t.levelAt i ≤ l ↔ i < t.lim l := by
  have hsorted := List.pairwise_iff_getElem.mp h.sorted
  have hsplit : t.levelAt i = (t.trailLim.take l).countP (· ≤ i) +
      (t.trailLim.drop l).countP (· ≤ i) := by
    rw [Trail.levelAt, ← List.countP_append, List.take_append_drop]
  rw [hsplit, lim_eq hl]
  constructor
  · intro hle
    by_contra hlt
    have hall : (t.trailLim.take l).countP (· ≤ i) = l := by
      rw [List.countP_eq_length.mpr, List.length_take]
      · exact Nat.min_eq_left (Nat.le_of_lt hl)
      intro x hx
      obtain ⟨k, hk, hkx⟩ := mem_take_iff.mp hx
      obtain ⟨hk', rfl⟩ := List.getElem?_eq_some_iff.mp hkx
      have := hsorted k l hk' hl hk
      simp only [decide_eq_true_eq]
      omega
    have hone : 0 < (t.trailLim.drop l).countP (· ≤ i) := by
      rw [List.countP_pos_iff]
      refine ⟨t.trailLim[l], ?_, by simpa using Nat.le_of_not_lt hlt⟩
      rw [List.drop_eq_getElem_cons hl]
      exact List.mem_cons_self
    omega
  · intro hlt
    have hnone : (t.trailLim.drop l).countP (· ≤ i) = 0 := by
      rw [List.countP_eq_zero]
      intro x hx
      obtain ⟨k, hkx⟩ := List.mem_iff_getElem?.mp hx
      rw [List.getElem?_drop] at hkx
      obtain ⟨hk, rfl⟩ := List.getElem?_eq_some_iff.mp hkx
      have : t.trailLim[l] ≤ t.trailLim[l + k] := by
        rcases Nat.eq_zero_or_pos k with rfl | hk0
        · exact Nat.le_refl _
        · exact hsorted l (l + k) hl hk (by omega)
      simp only [decide_eq_true_eq]
      omega
    have hle : (t.trailLim.take l).countP (· ≤ i) ≤ l :=
      (List.countP_le_length).trans (by rw [List.length_take]; omega)
    omega

theorem lim_mem (hl : l < t.decisionLevel) : t.lim l ∈ t.trailLim := by
  rw [lim_eq hl]
  exact List.getElem_mem hl

theorem lim_le_length (h : TrailOk t) (l : Nat) : t.lim l ≤ t.trail.length := by
  rcases Nat.lt_or_ge l t.decisionLevel with hl | hl
  · exact h.lim_le _ (lim_mem hl)
  · rw [lim_eq_length hl]

/-- A position beyond the start of the last level is of that level. -/
theorem levelAt_eq (hi : ∀ l ∈ t.trailLim, l ≤ i) : t.levelAt i = t.decisionLevel := by
  rw [Trail.levelAt, List.countP_eq_length.mpr]
  · rfl
  · exact fun l hl => by simpa using hi l hl

theorem level_le (h : TrailOk t) (hp : p ∈ t.trail) : t.level p.var ≤ t.decisionLevel := by
  obtain ⟨i, hi⟩ := List.mem_iff_getElem?.mp hp
  rw [h.level i p hi]
  exact levelAt_le

/-- The literals set before level `l + 1` are those of the levels up to `l`. -/
theorem mem_take_iff_level (h : TrailOk t) :
    p ∈ t.trail.take (t.lim l) ↔ p ∈ t.trail ∧ t.level p.var ≤ l := by
  rcases Nat.lt_or_ge l t.decisionLevel with hl | hl
  · constructor
    · intro hp
      have hmem := List.mem_of_mem_take hp
      obtain ⟨i, hi⟩ := List.mem_iff_getElem?.mp hmem
      rw [h.mem_take_iff_lt hi] at hp
      exact ⟨hmem, by rw [h.level i p hi, h.levelAt_le_iff hl]; exact hp⟩
    · rintro ⟨hmem, hle⟩
      obtain ⟨i, hi⟩ := List.mem_iff_getElem?.mp hmem
      rw [h.level i p hi, h.levelAt_le_iff hl] at hle
      exact (h.mem_take_iff_lt hi).mpr hle
  · rw [lim_eq_length hl, List.take_length]
    exact ⟨fun hp => ⟨hp, (h.level_le hp).trans hl⟩, And.left⟩

/-- Literals set earlier are of no later level. -/
theorem level_mono (h : TrailOk t) (hp : t.trail[i]? = some p) (hq : t.trail[j]? = some q)
    (hij : i ≤ j) : t.level p.var ≤ t.level q.var := by
  rw [h.level i p hp, h.level j q hq]
  exact levelAt_mono hij

/-! ## Setting a literal -/

theorem mem_push {source : Option CRef} : q ∈ (t.push p source).trail ↔ q ∈ t.trail ∨ q = p := by
  simp [Trail.push]

theorem push_getElem? {source : Option CRef} (i : Nat) :
    (t.push p source).trail[i]? =
      if i = t.trail.length then some p else t.trail[i]? := by
  rw [Trail.push, List.getElem?_append]
  by_cases hlt : i < t.trail.length
  · rw [if_pos hlt, if_neg (Nat.ne_of_lt hlt)]
  · rw [if_neg hlt]
    by_cases heq : i = t.trail.length
    · simp [heq]
    · rw [if_neg heq, List.getElem?_eq_none (by simp; omega), List.getElem?_eq_none (by omega)]

theorem push_value {source : Option CRef} (hq : q.var ≠ p.var) :
    (t.push p source).value q = t.value q := by
  simp [Trail.push, Trail.value, hq]

theorem push_value_self (t : Trail) (p : Lit) (source : Option CRef) :
    (t.push p source).value p = .l_True := by
  simp [Trail.push, Trail.value]

theorem push_level {source : Option CRef} {x : Var} (hx : x ≠ p.var) :
    (t.push p source).level x = t.level x := by
  simp [Trail.push, Trail.level, hx]

theorem push_level_self (t : Trail) (p : Lit) (source : Option CRef) :
    (t.push p source).level p.var = t.decisionLevel := by
  simp [Trail.push, Trail.level]

theorem push_reason {source : Option CRef} {x : Var} (hx : x ≠ p.var) :
    (t.push p source).reason x = t.reason x := by
  simp [Trail.push, Trail.reason, hx]

theorem push_reason_self (t : Trail) (p : Lit) (source : Option CRef) :
    (t.push p source).reason p.var = source := by
  simp [Trail.push, Trail.reason]

/-- A variable on the trail is not the one that is set now. -/
theorem var_ne (h : TrailOk t) (hp : t.value p = .l_Undef) (hq : q ∈ t.trail) : q.var ≠ p.var := by
  intro hv
  rw [h.value_eq_undef] at hp
  rcases eq_or_eq_neg hv with rfl | rfl
  · exact hp.1 hq
  · exact hp.2 hq

/-- **Setting a literal** that has no value. -/
theorem push (h : TrailOk t) (hp : t.value p = .l_Undef) (hlt : p.var < t.nVars)
    (source : Option CRef) : TrailOk (t.push p source) where
  nodup := by
    have hnew : p.var ∉ t.trail.map Lit.var := by
      rw [← h.assigns_eq_undef]
      exact value_eq_undef_iff.mp hp
    simp only [Trail.push, List.map_append, List.map_cons, List.map_nil]
    exact List.nodup_append.mpr ⟨h.nodup, List.nodup_singleton _, fun x hx y hy hxy => by
      rw [List.mem_singleton] at hy
      exact hnew (hy ▸ hxy ▸ hx)⟩
  below q hq := by
    rcases mem_push.mp hq with hq | rfl
    · exact h.below q hq
    · exact hlt
  value q := by
    rw [mem_push]
    by_cases hqp : q.var = p.var
    · have hq : q ∉ t.trail := fun hq => h.var_ne hp hq hqp
      rcases eq_or_eq_neg hqp with rfl | rfl
      · simp [push_value_self]
      · rw [value_neg_eq_true, push_value_self]
        simp [hq, neg_ne]
    · rw [push_value hqp, h.value]
      exact ⟨Or.inl, fun hq => hq.resolve_right fun hq => hqp (hq ▸ rfl)⟩
  sorted := h.sorted
  lim_le l hl := (h.lim_le l hl).trans (by simp [Trail.push])
  level i q hi := by
    rw [push_getElem?] at hi
    split at hi
    · rename_i heq
      obtain rfl := Option.some.inj hi
      rw [push_level_self, heq]
      exact (levelAt_eq (t := t) h.lim_le).symm
    · rw [push_level (h.var_ne hp (List.mem_of_getElem? hi))]
      exact h.level i q hi

/-! ## A new level -/

theorem newDecisionLevel_levelAt (hi : i < t.trail.length) :
    t.newDecisionLevel.levelAt i = t.levelAt i := by
  simp [Trail.newDecisionLevel, Trail.levelAt, hi]

theorem newDecisionLevel (h : TrailOk t) : TrailOk t.newDecisionLevel where
  nodup := h.nodup
  below := h.below
  value := h.value
  sorted := by
    refine List.pairwise_append.mpr ⟨h.sorted, List.pairwise_singleton _ _, fun l hl k hk => ?_⟩
    rw [List.mem_singleton] at hk
    exact hk ▸ h.lim_le l hl
  lim_le l hl := by
    rcases List.mem_append.mp hl with hl | hl
    · exact h.lim_le l hl
    · rw [List.mem_singleton.mp hl]
      exact Nat.le_refl _
  level i p hi := by
    exact (h.level i p hi).trans
      (newDecisionLevel_levelAt (t := t) (List.getElem?_eq_some_iff.mp hi).1).symm

/-! ## Giving levels up -/

theorem mem_cut (h : TrailOk t) : p ∈ (t.cut l).trail ↔ p ∈ t.trail ∧ t.level p.var ≤ l :=
  h.mem_take_iff_level

theorem cut_getElem? (i : Nat) :
    (t.cut l).trail[i]? = if i < t.lim l then t.trail[i]? else none :=
  List.getElem?_take ..

theorem cut_assigns (h : TrailOk t) {x : Var} (hx : x ∈ (t.cut l).trail.map Lit.var) :
    (t.cut l).assigns x = t.assigns x := by
  have hdisj : x ∉ (t.trail.drop (t.lim l)).map Lit.var := by
    have hnodup := h.nodup
    rw [← List.take_append_drop (t.lim l) t.trail, List.map_append] at hnodup
    exact fun hx' => (List.nodup_append.mp hnodup).2.2 _ hx _ hx' rfl
  simp only [Trail.cut, if_neg hdisj]

theorem cut_levelAt (h : TrailOk t) (hl : l ≤ t.decisionLevel) (hi : i < t.lim l) :
    (t.cut l).levelAt i = t.levelAt i := by
  rcases Nat.lt_or_eq_of_le hl with hl | rfl
  · have hsplit : t.levelAt i = (t.trailLim.take l).countP (· ≤ i) +
        (t.trailLim.drop l).countP (· ≤ i) := by
      rw [Trail.levelAt, ← List.countP_append, List.take_append_drop]
    have hnone : (t.trailLim.drop l).countP (· ≤ i) = 0 := by
      have hle : t.levelAt i ≤ l := (h.levelAt_le_iff hl).mpr hi
      rw [List.countP_eq_zero]
      intro x hx hxi
      obtain ⟨k, hkx⟩ := List.mem_iff_getElem?.mp hx
      rw [List.getElem?_drop] at hkx
      obtain ⟨hk, rfl⟩ := List.getElem?_eq_some_iff.mp hkx
      have : t.trailLim[l] ≤ t.trailLim[l + k] := by
        rcases Nat.eq_zero_or_pos k with rfl | hk0
        · exact Nat.le_refl _
        · exact List.pairwise_iff_getElem.mp h.sorted l (l + k) hl hk (by omega)
      rw [lim_eq hl] at hi
      simp only [decide_eq_true_eq] at hxi
      omega
    rw [hsplit, hnone]
    rfl
  · simp only [Trail.cut, Trail.levelAt, Trail.decisionLevel, List.take_length]

/-- **Giving levels up.** -/
theorem cut (h : TrailOk t) (hl : l ≤ t.decisionLevel) : TrailOk (t.cut l) where
  nodup := h.nodup.sublist ((List.take_sublist _ _).map _)
  below p hp := h.below p (List.mem_of_mem_take hp)
  value p := by
    by_cases hx : p.var ∈ (t.cut l).trail.map Lit.var
    · obtain ⟨q, hq, hqp⟩ := List.mem_map.mp hx
      rw [Trail.value, h.cut_assigns hx]
      refine (h.value p).trans ⟨fun hp => ?_, List.mem_of_mem_take⟩
      exact h.eq_of_var_eq (List.mem_of_mem_take hq) hp hqp ▸ hq
    · have hundef : (t.cut l).assigns p.var = .l_Undef := by
        by_cases hd : p.var ∈ (t.trail.drop (t.lim l)).map Lit.var
        · simp only [Trail.cut, if_pos hd]
        · simp only [Trail.cut, if_neg hd]
          rw [h.assigns_eq_undef, ← List.take_append_drop (t.lim l) t.trail, List.map_append,
            List.mem_append]
          exact not_or.mpr ⟨hx, hd⟩
      rw [Trail.value, hundef]
      refine ⟨fun hno => absurd hno (by simp [LBool.xor]), fun hp => ?_⟩
      exact absurd (List.mem_map_of_mem hp) hx
  sorted := h.sorted.sublist (List.take_sublist _ _)
  lim_le k hk := by
    obtain ⟨i, hi, hik⟩ := mem_take_iff.mp hk
    obtain ⟨hilen, rfl⟩ := List.getElem?_eq_some_iff.mp hik
    simp only [Trail.cut, List.length_take]
    refine Nat.le_min.mpr ⟨?_, h.lim_le _ (List.getElem_mem hilen)⟩
    rcases Nat.lt_or_eq_of_le hl with hl | rfl
    · rw [lim_eq hl]
      exact List.pairwise_iff_getElem.mp h.sorted i l hilen hl hi
    · rw [lim_eq_length (Nat.le_refl _)]
      exact h.lim_le _ (List.getElem_mem hilen)
  level i p hi := by
    rw [cut_getElem?] at hi
    split at hi
    · rename_i hlt
      rw [h.cut_levelAt hl hlt]
      exact h.level i p hi
    · exact absurd hi (by simp)

theorem cut_decisionLevel (hl : l ≤ t.decisionLevel) : (t.cut l).decisionLevel = l := by
  simp only [Trail.cut, Trail.decisionLevel, List.length_take]
  exact Nat.min_eq_left hl

end TrailOk

end SymBreak.Glucose
