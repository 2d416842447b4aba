import SymBreak.Glucose.Removal
import SymBreak.Glucose.UnitPropagation
import Mathlib.Data.Finset.Basic

/-!
# Known clauses

The solver learns no clause twice, as long as it removes none. A clause, as the set of its
literals, is known while it is in the database or true at level 0 (`Known`). Propagation,
backtracking and new clauses keep what is known, and so does removing the clauses that are true at
level 0. A clause whose literals are all false, and one of them only since the current level, is
not known (`not_known`): it would have been propagated before.
-/

namespace SymBreak.Glucose

open Cnf

/-- The clause is in the database, or true at level 0. -/
def Known (s : State) (c : Finset Lit) : Prop :=
  (∃ cr, s.Live cr ∧ (s.ca cr).lits.toFinset = c) ∨
    ∃ p ∈ c, p ∈ s.trail ∧ s.level p.var = 0

/-- What was known stays known. -/
def Keeps (s s' : State) : Prop := ∀ c, Known s c → Known s' c

variable {F : Formula} {s s' : State} {p : Lit} {c : Finset Lit} {k l : Nat}

theorem Keeps.refl (s : State) : Keeps s s := fun _ => id

theorem Keeps.trans {s'' : State} (h : Keeps s s') (h' : Keeps s' s'') : Keeps s s'' :=
  fun c hc => h' c (h c hc)

theorem Grown.keeps (h : Grown s s') : Keeps s s' := by
  rintro c (⟨cr, hcr, rfl⟩ | ⟨p, hp, hpt, hzero⟩)
  · exact Or.inl ⟨cr, h.live.mpr hcr, List.toFinset_eq_of_perm _ _ (h.perm cr)⟩
  · exact Or.inr ⟨p, hp, h.trail.subset hpt, (h.level hpt).trans hzero⟩

theorem Removed.keeps (h : Removed (FixedTrue s) s s') : Keeps s s' := by
  have hfixed : ∀ p, p ∈ s.trail ∧ s.level p.var = 0 → p ∈ s'.trail ∧ s'.level p.var = 0 := by
    intro p hp
    rw [h.trail, h.level]
    exact hp
  rintro c (⟨cr, hcr, rfl⟩ | ⟨p, hp, hpt⟩)
  · rcases h.gone cr hcr with hlive | ⟨p, hp, hpt⟩
    · exact Or.inl ⟨cr, hlive, by rw [h.lits]⟩
    · exact Or.inr ⟨p, List.mem_toFinset.mpr hp, hfixed p hpt⟩
  · exact Or.inr ⟨p, hp, hfixed p hpt⟩

theorem keeps_cut (hok : TrailOk s.toTrail) (l : Nat) :
    Keeps s { s with toTrail := s.toTrail.cut l } := by
  rintro c (hcr | ⟨p, hp, hpt, hzero⟩)
  · exact Or.inl hcr
  · exact Or.inr ⟨p, hp, hok.mem_cut.mpr ⟨hpt, hzero ▸ Nat.zero_le l⟩, hzero⟩

/-- **A conflict is new**: a clause whose literals are all false, where one is of a level that is
not propagated yet, and the others of levels up to `l` that are. -/
theorem not_known (hok : StateOk F s) (hw : Watched s k) (hk : s.lim l ≤ k)
    (hfalse : ∀ q ∈ c, q.neg ∈ s.trail) (hp : ∀ q ∈ c, q ≠ p → s.level q.var ≤ l) :
    ¬ Known s c := by
  rintro (⟨cr, hcr, rfl⟩ | ⟨q, hq, hqt, _⟩)
  · have hfalse : ∀ q ∈ (s.ca cr).lits, q.neg ∈ s.trail := fun q hq =>
      hfalse q (List.mem_toFinset.mpr hq)
    -- one of the two watched literals is not `p`, and so it was propagated
    obtain ⟨q, hq, hqp⟩ : ∃ q ∈ (s.ca cr).lits.take 2, q ≠ p := by
      have hsize := hok.db.size cr hcr.1
      rw [Clause.take_two hsize]
      by_cases h : (s.ca cr).get 0 = p
      · refine ⟨(s.ca cr).get 1, by simp, fun h' => ?_⟩
        exact Clause.get_ne hsize (hok.db.nodup cr hcr.1) (h.trans h'.symm)
      · exact ⟨_, List.mem_cons_self, h⟩
    have hqc := List.mem_of_mem_take hq
    have hqk : q.neg ∈ s.trail.take (s.lim l) := hok.trail.mem_take_iff_level.mpr
      ⟨hfalse q hqc, hp q (List.mem_toFinset.mpr hqc) hqp⟩
    obtain ⟨r, hr, hrt, _⟩ := hw cr hcr q hq ((List.take_prefix_take_left hk).subset hqk)
    exact hok.trail.neg_notMem hrt (hfalse r hr)
  · exact hok.trail.neg_notMem hqt (hfalse q hq)

end SymBreak.Glucose
