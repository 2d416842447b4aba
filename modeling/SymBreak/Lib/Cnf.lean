import Mathlib.Data.List.Basic
import Mathlib.Logic.Function.Basic
import Mathlib.Order.Nat
import Mathlib.Tactic.Common

/-!
# CNF formulas and constraints posted onto them

Literals, clauses and formulas over variables `0, 1, 2, …`, as a SAT solver holds them. An encoding
adds clauses and fresh variables to a formula. `Extends N F N' F' P` says what such a step does:
`F'` over the first `N'` variables is `F` over the first `N` with the constraint `P` posted, and
the fresh variables are auxiliary:

* every model of `F'` is a model of `F` that satisfies `P` (`mono`, `sound`);
* every model of `F` that satisfies `P` extends to one of `F'` (`complete`);
* it does so in one way (`unique`).

Steps compose (`Extends.trans`): the second constraint may speak about the fresh variables of the
first, as long as the models of the first fix it in terms of the old ones. The steps an encoding is
made of are `extends_clauses` (clauses over the variables that exist) and `extends_define` (a fresh
variable with its defining clauses); variables may also be declared first and defined later
(`Extends.declare`).

`search` decides satisfiability by trying every assignment, and `irredundant` drops the clauses
that the others entail, one at a time.
-/

namespace SymBreak.Cnf

/-- A literal: a variable, negated when `sign` is set. -/
structure Lit where
  var : Nat
  sign : Bool
  deriving DecidableEq, Repr

abbrev Clause := List Lit

abbrev Formula := List Clause

abbrev Assignment := Nat → Bool

/-- The value of a literal. -/
def Lit.eval (σ : Assignment) (l : Lit) : Bool := xor l.sign (σ l.var)

/-- The complement of a literal. -/
def Lit.neg (l : Lit) : Lit := { l with sign := !l.sign }

@[simp] theorem Lit.eval_neg (σ : Assignment) (l : Lit) : l.neg.eval σ = !l.eval σ := by
  simp [Lit.eval, Lit.neg]

def ClauseHolds (σ : Assignment) (c : Clause) : Prop := ∃ l ∈ c, l.eval σ = true

def Sat (σ : Assignment) (F : Formula) : Prop := ∀ c ∈ F, ClauseHolds σ c

def Satisfiable (F : Formula) : Prop := ∃ σ, Sat σ F

def Entails (F : Formula) (c : Clause) : Prop := ∀ σ, Sat σ F → ClauseHolds σ c

instance (σ : Assignment) (c : Clause) : Decidable (ClauseHolds σ c) := by
  unfold ClauseHolds; infer_instance

instance (σ : Assignment) (F : Formula) : Decidable (Sat σ F) := by
  unfold Sat; infer_instance

@[simp] theorem sat_nil (σ : Assignment) : Sat σ [] := by simp [Sat]

@[simp] theorem sat_cons {σ : Assignment} {c : Clause} {F : Formula} :
    Sat σ (c :: F) ↔ ClauseHolds σ c ∧ Sat σ F := by
  simp [Sat]

@[simp] theorem sat_append {σ : Assignment} {F G : Formula} :
    Sat σ (F ++ G) ↔ Sat σ F ∧ Sat σ G := by
  simp only [Sat, List.mem_append, or_imp, forall_and]

@[simp] theorem clauseHolds_nil (σ : Assignment) : ¬ ClauseHolds σ [] := by simp [ClauseHolds]

@[simp] theorem clauseHolds_cons {σ : Assignment} {l : Lit} {c : Clause} :
    ClauseHolds σ (l :: c) ↔ l.eval σ = true ∨ ClauseHolds σ c := by
  simp [ClauseHolds]

theorem Sat.mono {σ : Assignment} {F G : Formula} (h : Sat σ G) (hsub : ∀ c ∈ F, c ∈ G) :
    Sat σ F :=
  fun c hc => h c (hsub c hc)

/-! ## Variables -/

/-- `σ` and `τ` agree on the variables below `N`. -/
def AgreeBelow (N : Nat) (σ τ : Assignment) : Prop := ∀ v, v < N → σ v = τ v

/-- Every variable of the clause is below `N`. -/
def ClauseBelow (N : Nat) (c : Clause) : Prop := ∀ l ∈ c, l.var < N

/-- Every variable of the formula is below `N`. -/
def Below (N : Nat) (F : Formula) : Prop := ∀ c ∈ F, ClauseBelow N c

theorem AgreeBelow.refl (N : Nat) (σ : Assignment) : AgreeBelow N σ σ := fun _ _ => rfl

theorem AgreeBelow.symm {N : Nat} {σ τ : Assignment} (h : AgreeBelow N σ τ) :
    AgreeBelow N τ σ :=
  fun v hv => (h v hv).symm

theorem AgreeBelow.trans {N : Nat} {σ τ ρ : Assignment} (h : AgreeBelow N σ τ)
    (h' : AgreeBelow N τ ρ) : AgreeBelow N σ ρ :=
  fun v hv => (h v hv).trans (h' v hv)

theorem AgreeBelow.mono {N M : Nat} {σ τ : Assignment} (h : AgreeBelow M σ τ) (hle : N ≤ M) :
    AgreeBelow N σ τ :=
  fun v hv => h v (Nat.lt_of_lt_of_le hv hle)

theorem AgreeBelow.eval {N : Nat} {σ τ : Assignment} (h : AgreeBelow N σ τ) {l : Lit}
    (hl : l.var < N) : l.eval σ = l.eval τ := by
  unfold Lit.eval
  rw [h _ hl]

theorem AgreeBelow.clauseHolds {N : Nat} {σ τ : Assignment} (h : AgreeBelow N σ τ) {c : Clause}
    (hc : ClauseBelow N c) : ClauseHolds σ c ↔ ClauseHolds τ c :=
  exists_congr fun l => and_congr_right fun hl => by rw [h.eval (hc l hl)]

theorem AgreeBelow.sat {N : Nat} {σ τ : Assignment} (h : AgreeBelow N σ τ) {F : Formula}
    (hF : Below N F) : Sat σ F ↔ Sat τ F :=
  forall₂_congr fun c hc => h.clauseHolds (hF c hc)

theorem below_nil (N : Nat) : Below N [] := by simp [Below]

theorem below_append {N : Nat} {F G : Formula} (hF : Below N F) (hG : Below N G) :
    Below N (F ++ G) := by
  intro c hc
  rcases List.mem_append.mp hc with hc | hc
  · exact hF c hc
  · exact hG c hc

theorem Below.mono {N M : Nat} {F : Formula} (h : Below N F) (hle : N ≤ M) : Below M F :=
  fun c hc l hl => Nat.lt_of_lt_of_le (h c hc l hl) hle

/-- Changing a variable that does not exist yet. -/
theorem agreeBelow_update (N : Nat) (σ : Assignment) (b : Bool) :
    AgreeBelow N σ (Function.update σ N b) := by
  intro v hv
  rw [Function.update_of_ne (by omega)]

/-! ## Posting a constraint -/

/-- The constraint reads variables below `N` only. -/
def Local (N : Nat) (P : Assignment → Prop) : Prop := ∀ σ τ, AgreeBelow N σ τ → P σ → P τ

/-- `F'` over `N'` variables is `F` over `N` variables with `P` posted and the fresh variables
auxiliary. -/
structure Extends (N : Nat) (F : Formula) (N' : Nat) (F' : Formula) (P : Assignment → Prop) :
    Prop where
  le : N ≤ N'
  below : Below N' F'
  mono : ∀ c ∈ F, c ∈ F'
  sound : ∀ σ, Sat σ F' → P σ
  complete : ∀ σ, Sat σ F → P σ → ∃ τ, AgreeBelow N σ τ ∧ Sat τ F'
  unique : ∀ σ τ, Sat σ F' → Sat τ F' → AgreeBelow N σ τ → AgreeBelow N' σ τ

section Extends

variable {N N₁ N₂ : Nat} {F F₁ F₂ : Formula} {P Q R : Assignment → Prop}

theorem Extends.sat_old (h : Extends N F N₁ F₁ P) {σ : Assignment} (hσ : Sat σ F₁) : Sat σ F :=
  hσ.mono h.mono

theorem Extends.refl (hF : Below N F) : Extends N F N F fun _ => True where
  le := le_rfl
  below := hF
  mono := fun _ h => h
  sound := fun _ _ => trivial
  complete := fun σ h _ => ⟨σ, AgreeBelow.refl N σ, h⟩
  unique := fun _ _ _ _ h => h

/-- The constraint may be rewritten on the models of the formula it is posted onto. -/
theorem Extends.congr (h : Extends N F N₁ F₁ P) (hPQ : ∀ σ, Sat σ F → (P σ ↔ Q σ)) :
    Extends N F N₁ F₁ Q where
  le := h.le
  below := h.below
  mono := h.mono
  sound := fun σ hσ => (hPQ σ (h.sat_old hσ)).mp (h.sound σ hσ)
  complete := fun σ hσ hQ => h.complete σ hσ ((hPQ σ hσ).mpr hQ)
  unique := h.unique

/-- **Posting one constraint after another.** `Q` may read the fresh variables of the first step;
`R` says the same about the old ones. -/
theorem Extends.trans (h : Extends N F N₁ F₁ P) (h' : Extends N₁ F₁ N₂ F₂ Q)
    (hQR : ∀ σ, Sat σ F₁ → (Q σ ↔ R σ)) (hR : Local N R) :
    Extends N F N₂ F₂ fun σ => P σ ∧ R σ where
  le := h.le.trans h'.le
  below := h'.below
  mono := fun c hc => h'.mono c (h.mono c hc)
  sound := fun σ hσ =>
    ⟨h.sound σ (h'.sat_old hσ), (hQR σ (h'.sat_old hσ)).mp (h'.sound σ hσ)⟩
  complete := by
    rintro σ hσ ⟨hP, hr⟩
    obtain ⟨τ, hστ, hτ⟩ := h.complete σ hσ hP
    obtain ⟨ρ, hτρ, hρ⟩ := h'.complete τ hτ ((hQR τ hτ).mpr (hR σ τ hστ hr))
    exact ⟨ρ, hστ.trans (hτρ.mono h.le), hρ⟩
  unique := fun σ τ hσ hτ hag =>
    h'.unique σ τ hσ hτ (h.unique σ τ (h'.sat_old hσ) (h'.sat_old hτ) hag)

/-- The models on the variables that existed before are those of `F` that satisfy `P`. -/
theorem Extends.projects (h : Extends N F N₁ F₁ P) (hF : Below N F) (hP : Local N P)
    (σ : Assignment) : (∃ τ, AgreeBelow N σ τ ∧ Sat τ F₁) ↔ Sat σ F ∧ P σ := by
  constructor
  · rintro ⟨τ, hag, hτ⟩
    exact ⟨(hag.sat hF).mpr (h.sat_old hτ), hP τ σ hag.symm (h.sound τ hτ)⟩
  · rintro ⟨hσ, hPσ⟩
    exact h.complete σ hσ hPσ

/-- The assignment with `f i` at variable `N + i`. -/
def setAbove (N : Nat) (f : Nat → Assignment → Bool) (σ : Assignment) : Assignment :=
  fun v => if v < N then σ v else f (v - N) σ

theorem agreeBelow_setAbove (N : Nat) (f : Nat → Assignment → Bool) (σ : Assignment) :
    AgreeBelow N σ (setAbove N f σ) :=
  fun _ hv => (if_pos hv).symm

theorem setAbove_add (N : Nat) (f : Nat → Assignment → Bool) (σ : Assignment) (i : Nat) :
    setAbove N f σ (N + i) = f i σ := by
  rw [setAbove, if_neg (by omega), Nat.add_sub_cancel_left]

/-- **Variables declared before they are defined.** `k` fresh variables are made; what is posted on
all of them fixes each in terms of the old ones, and says `R` about these. -/
theorem Extends.declare {k : Nat} {f : Nat → Assignment → Bool} (hF : Below N F)
    (h : Extends (N + k) F N₁ F₁ fun σ => (∀ i < k, σ (N + i) = f i σ) ∧ P σ)
    (hf : ∀ i < k, ∀ σ τ, AgreeBelow N σ τ → f i σ = f i τ)
    (hPR : ∀ σ, (∀ i < k, σ (N + i) = f i σ) → (P σ ↔ R σ)) (hR : Local N R) :
    Extends N F N₁ F₁ R where
  le := (Nat.le_add_right N k).trans h.le
  below := h.below
  mono := h.mono
  sound := fun σ hσ => (hPR σ (h.sound σ hσ).1).mp (h.sound σ hσ).2
  complete := by
    intro σ hσ hr
    have hag := agreeBelow_setAbove N f σ
    have hdef : ∀ i < k, setAbove N f σ (N + i) = f i (setAbove N f σ) := fun i hi => by
      rw [setAbove_add, hf i hi σ _ hag]
    obtain ⟨ρ, hτρ, hρ⟩ := h.complete _ ((hag.sat hF).mp hσ)
      ⟨hdef, (hPR _ hdef).mpr (hR σ _ hag hr)⟩
    exact ⟨ρ, hag.trans (hτρ.mono (Nat.le_add_right N k)), hρ⟩
  unique := by
    intro σ τ hσ hτ hag
    refine h.unique σ τ hσ hτ fun v hv => ?_
    rcases Nat.lt_or_ge v N with hlt | hge
    · exact hag v hlt
    · obtain ⟨i, rfl⟩ := Nat.exists_eq_add_of_le hge
      have hi : i < k := Nat.add_lt_add_iff_left.mp hv
      rw [(h.sound σ hσ).1 i hi, (h.sound τ hτ).1 i hi, hf i hi σ τ hag]

/-- Clauses over the variables that exist. -/
theorem extends_clauses (hF : Below N F) {D : Formula} (hD : Below N D) :
    Extends N F N (F ++ D) fun σ => Sat σ D where
  le := le_rfl
  below := below_append hF hD
  mono := fun _ h => List.mem_append_left _ h
  sound := fun _ hσ => (sat_append.mp hσ).2
  complete := fun σ hσ hP => ⟨σ, AgreeBelow.refl N σ, sat_append.mpr ⟨hσ, hP⟩⟩
  unique := fun _ _ _ _ h => h

/-- A fresh variable with clauses that define it from the variables that exist. -/
theorem extends_define (hF : Below N F) {D : Formula} (hD : Below (N + 1) D)
    {f : Assignment → Bool} (hdef : ∀ σ, Sat σ F → (Sat σ D ↔ σ N = f σ))
    (hf : ∀ σ τ, AgreeBelow N σ τ → f σ = f τ) :
    Extends N F (N + 1) (F ++ D) fun _ => True where
  le := Nat.le_succ N
  below := below_append (hF.mono (Nat.le_succ N)) hD
  mono := fun _ h => List.mem_append_left _ h
  sound := fun _ _ => trivial
  complete := by
    intro σ hσ _
    have hag := agreeBelow_update N σ (f σ)
    have hτ : Sat (Function.update σ N (f σ)) F := (hag.sat hF).mp hσ
    refine ⟨_, hag, sat_append.mpr ⟨hτ, (hdef _ hτ).mpr ?_⟩⟩
    rw [Function.update_self]
    exact hf _ _ hag
  unique := by
    intro σ τ hσ hτ hag v hv
    obtain ⟨hσF, hσD⟩ := sat_append.mp hσ
    obtain ⟨hτF, hτD⟩ := sat_append.mp hτ
    rcases Nat.lt_or_ge v N with hlt | hge
    · exact hag v hlt
    · obtain rfl : v = N := by omega
      rw [(hdef σ hσF).mp hσD, (hdef τ hτF).mp hτD, hf σ τ hag]

end Extends

/-! ## A solver that tries every assignment -/

/-- A bound above every variable of the formula. -/
def numVars (F : Formula) : Nat :=
  (F.map fun c => (c.map fun l => l.var + 1).foldr max 0).foldr max 0

/-- Every assignment that is `false` from `N` on. -/
def assignments : Nat → List Assignment
  | 0 => [fun _ => false]
  | N + 1 => (assignments N).flatMap fun σ => [false, true].map (Function.update σ N)

/-- The first assignment that satisfies the formula. -/
def search (F : Formula) : Option Assignment :=
  (assignments (numVars F)).find? fun σ => decide (Sat σ F)

theorem le_foldr_max {l : List Nat} {x : Nat} (h : x ∈ l) : x ≤ l.foldr max 0 := by
  induction l with
  | nil => exact absurd h List.not_mem_nil
  | cons y l ih =>
    rw [List.foldr_cons]
    rcases List.mem_cons.mp h with rfl | h
    · exact Nat.le_max_left _ _
    · exact Nat.le_trans (ih h) (Nat.le_max_right _ _)

theorem below_numVars (F : Formula) : Below (numVars F) F := by
  intro c hc l hl
  have h1 : l.var + 1 ≤ (c.map fun l => l.var + 1).foldr max 0 :=
    le_foldr_max (List.mem_map_of_mem hl)
  have h2 : (c.map fun l => l.var + 1).foldr max 0 ≤ numVars F :=
    le_foldr_max (List.mem_map_of_mem (f := fun c : Clause => (c.map _).foldr max 0) hc)
  omega

theorem exists_mem_assignments (σ : Assignment) (N : Nat) :
    ∃ τ ∈ assignments N, AgreeBelow N σ τ := by
  induction N with
  | zero => exact ⟨fun _ => false, by simp [assignments], fun v hv => absurd hv (Nat.not_lt_zero v)⟩
  | succ N ih =>
    obtain ⟨τ, hτ, hag⟩ := ih
    refine ⟨Function.update τ N (σ N), ?_, fun v hv => ?_⟩
    · simp only [assignments, List.mem_flatMap, List.mem_map]
      exact ⟨τ, hτ, σ N, by cases σ N <;> simp, rfl⟩
    · rcases Nat.lt_or_ge v N with hlt | hge
      · exact (hag.trans (agreeBelow_update N τ _)) v hlt
      · obtain rfl : v = N := by omega
        rw [Function.update_self]

theorem search_sound {F : Formula} {σ : Assignment} (h : search F = some σ) : Sat σ F := by
  simpa using List.find?_some h

theorem search_complete {F : Formula} (h : Satisfiable F) : ∃ σ, search F = some σ := by
  obtain ⟨σ, hσ⟩ := h
  obtain ⟨τ, hτ, hag⟩ := exists_mem_assignments σ (numVars F)
  have hsat : Sat τ F := (hag.sat (below_numVars F)).mp hσ
  exact Option.isSome_iff_exists.mp (List.find?_isSome.mpr ⟨τ, hτ, by simpa using hsat⟩)

/-! ## Dropping entailed clauses -/

/-- `F` together with the complement of every literal of `c`. -/
def refute (F : Formula) (c : Clause) : Formula := F ++ c.map fun l => [l.neg]

theorem sat_refute {σ : Assignment} {F : Formula} {c : Clause} :
    Sat σ (refute F c) ↔ Sat σ F ∧ ¬ ClauseHolds σ c := by
  rw [refute, sat_append]
  refine and_congr_right fun _ => ?_
  simp [Sat, ClauseHolds]

theorem entails_of_search {F : Formula} {c : Clause} (h : search (refute F c) = none) :
    Entails F c := by
  intro σ hσ
  by_contra hc
  obtain ⟨τ, hτ⟩ := search_complete ⟨σ, sat_refute.mpr ⟨hσ, hc⟩⟩
  rw [h] at hτ
  exact absurd hτ (by simp)

/-- The positions, counted from `i`, of the clauses of `cs` that `F`, the clauses `kept` so far and
the clauses still to come do not entail. -/
def irredundantFrom (F kept : Formula) : Nat → List Clause → List Nat
  | _, [] => []
  | i, c :: cs =>
    if (search (refute (F ++ kept ++ cs) c)).isNone then irredundantFrom F kept (i + 1) cs
    else i :: irredundantFrom F (kept ++ [c]) (i + 1) cs

/-- The positions left when the entailed clauses are dropped one at a time. -/
def irredundant (F : Formula) (cs : List Clause) : List Nat := irredundantFrom F [] 0 cs

theorem irredundantFrom_bounds (F : Formula) (cs : List Clause) (kept : Formula) (i j : Nat)
    (h : j ∈ irredundantFrom F kept i cs) : i ≤ j ∧ j < i + cs.length := by
  induction cs generalizing kept i with
  | nil => exact absurd h List.not_mem_nil
  | cons c cs ih =>
    simp only [irredundantFrom] at h
    rw [List.length_cons]
    split at h
    · have := ih kept (i + 1) h
      omega
    · rcases List.mem_cons.mp h with rfl | h
      · omega
      · have := ih _ (i + 1) h
        omega

theorem irredundantFrom_entails {σ : Assignment} (F : Formula) (hF : Sat σ F) :
    ∀ (cs : List Clause) (kept : Formula) (i : Nat), Sat σ kept →
      (∀ j ∈ irredundantFrom F kept i cs, ∀ c, cs[j - i]? = some c → ClauseHolds σ c) → Sat σ cs
  | [], _, _, _, _ => sat_nil σ
  | c :: cs, kept, i, hk, h => by
    simp only [irredundantFrom] at h
    have shift : ∀ {j d}, i + 1 ≤ j → cs[j - (i + 1)]? = some d → (c :: cs)[j - i]? = some d := by
      intro j d hj hd
      rw [show j - i = (j - (i + 1)) + 1 by omega, List.getElem?_cons_succ]
      exact hd
    split at h
    · rename_i hs
      have hcs := irredundantFrom_entails F hF cs kept (i + 1) hk fun j hj d hd =>
        h j hj d (shift (irredundantFrom_bounds F cs kept (i + 1) j hj).1 hd)
      refine sat_cons.mpr ⟨?_, hcs⟩
      exact entails_of_search (Option.isNone_iff_eq_none.mp hs) σ
        (sat_append.mpr ⟨sat_append.mpr ⟨hF, hk⟩, hcs⟩)
    · have hc : ClauseHolds σ c := h i List.mem_cons_self c (by simp)
      refine sat_cons.mpr ⟨hc, ?_⟩
      refine irredundantFrom_entails F hF cs (kept ++ [c]) (i + 1)
        (sat_append.mpr ⟨hk, by simpa using hc⟩) fun j hj d hd => ?_
      exact h j (List.mem_cons_of_mem i hj) d
        (shift (irredundantFrom_bounds F cs _ (i + 1) j hj).1 hd)

/-- **The clauses that stay entail the ones dropped**, together with `F`. -/
theorem irredundant_entails {σ : Assignment} {F : Formula} {cs : List Clause} (hF : Sat σ F)
    (h : ∀ j ∈ irredundant F cs, ∀ c, cs[j]? = some c → ClauseHolds σ c) : Sat σ cs :=
  irredundantFrom_entails F hF cs [] 0 (sat_nil σ) h

theorem irredundant_lt {F : Formula} {cs : List Clause} {j : Nat} (h : j ∈ irredundant F cs) :
    j < cs.length := by
  have := irredundantFrom_bounds F cs [] 0 j h
  omega

end SymBreak.Cnf
