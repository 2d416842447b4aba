import SymBreak.Lib.Cnf
import Mathlib.Data.Set.Card
import Mathlib.Data.Set.Finite.List

/-!
# Counting models up to a projection

The values that some literals take in the models of a formula (`projections`), and the clause that
rules one vector of values out (`block`). Literals may be repeated or complementary, and there may
be none.

Results:
* `clauseHolds_block`: the clause says that the literals do not all have these values;
* `projections_block`: with the clause, exactly this vector is gone;
* **`ncard_projections_block`**: there is one fewer.
-/

namespace SymBreak.Cnf

variable {F : Formula} {ls : List Lit} {σ τ : Assignment}

/-- The values of the literals. -/
def evals (σ : Assignment) (ls : List Lit) : List Bool := ls.map fun l => l.eval σ

/-- The vectors of values that extend to a model. -/
def projections (F : Formula) (ls : List Lit) : Set (List Bool) :=
  {v | ∃ σ, Sat σ F ∧ evals σ ls = v}

/-- The clause against the values in `σ`. -/
def block (σ : Assignment) (ls : List Lit) : Clause :=
  ls.map fun l => if l.eval σ = true then l.neg else l

/-- **The clause says that some literal has another value.** -/
theorem clauseHolds_block : ClauseHolds τ (block σ ls) ↔ evals τ ls ≠ evals σ ls := by
  have hlit : ∀ l : Lit, (if l.eval σ = true then l.neg else l).eval τ = true ↔
      l.eval τ ≠ l.eval σ := fun l => by
    by_cases h : l.eval σ = true
    · rw [if_pos h, Lit.eval_neg, h]
      simp
    · rw [if_neg h, (Bool.not_eq_true _).mp h]
      simp
  unfold evals block
  rw [ne_eq, List.map_inj_left, not_forall]
  constructor
  · rintro ⟨l', hl', h⟩
    obtain ⟨l, hl, rfl⟩ := List.mem_map.mp hl'
    exact ⟨l, fun e => (hlit l).mp h (e hl)⟩
  · rintro ⟨l, h⟩
    obtain ⟨hl, hne⟩ := Classical.not_imp.mp h
    exact ⟨_, List.mem_map.mpr ⟨l, hl, rfl⟩, (hlit l).mpr hne⟩

theorem finite_projections (F : Formula) (ls : List Lit) : (projections F ls).Finite := by
  refine (List.finite_length_eq Bool ls.length).subset ?_
  rintro v ⟨σ, -, rfl⟩
  exact List.length_map _

/-- **With the clause, exactly one vector is gone.** -/
theorem projections_block : projections (F ++ [block σ ls]) ls =
    projections F ls \ {evals σ ls} := by
  ext v
  constructor
  · rintro ⟨τ, hτ, rfl⟩
    obtain ⟨hF, hblock⟩ := sat_append.mp hτ
    exact ⟨⟨τ, hF, rfl⟩, clauseHolds_block.mp (hblock _ (List.mem_singleton_self _))⟩
  · rintro ⟨⟨τ, hF, rfl⟩, hne⟩
    refine ⟨τ, sat_append.mpr ⟨hF, fun c hc => ?_⟩, rfl⟩
    rw [List.mem_singleton.mp hc]
    exact clauseHolds_block.mpr hne

/-- **Blocking the values of a model** leaves one vector fewer. -/
theorem ncard_projections_block (hσ : Sat σ F) :
    (projections F ls).ncard = (projections (F ++ [block σ ls]) ls).ncard + 1 := by
  have hmem : evals σ ls ∈ projections F ls := ⟨σ, hσ, rfl⟩
  rw [projections_block]
  exact (Set.ncard_sdiff_singleton_add_one hmem (finite_projections F ls)).symm

/-- There is no vector iff there is no model. -/
theorem ncard_projections_eq_zero : (projections F ls).ncard = 0 ↔ ¬ Satisfiable F := by
  rw [Set.ncard_eq_zero (finite_projections F ls), Set.eq_empty_iff_forall_notMem]
  constructor
  · rintro h ⟨σ, hσ⟩
    exact h _ ⟨σ, hσ, rfl⟩
  · rintro h v ⟨σ, hσ, -⟩
    exact h ⟨σ, hσ⟩

end SymBreak.Cnf
