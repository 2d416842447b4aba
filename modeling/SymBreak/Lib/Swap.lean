import SymBreak.Lib.Lex

/-!
# Strings and swaps

A string is read off an object position by position, a block at each. An involution `σ` of the
positions gives the string of the swapped object. When the string of the object is not larger, what
is moved first decides: keep the positions `p` that come before `σ p`, and compare the blocks there
with those at `σ p` (`leads_filter`).

`Leads s s' r r'` says that `r` and `r'` decide between `s` and `s'`. It is kept when strings are
put one after another (`Leads.append`, `Leads.flatMap`), so a chain of strings is decided by the
chain of what decides each.
-/

namespace SymBreak.Swap

open Lex

variable {α : Type*} [LinearOrder α] {s s' t t' r r' u u' : List α}

/-- A common prefix is not compared. -/
theorem append_le_append_left (s u v : List α) : s ++ u ≤ s ++ v ↔ u ≤ v := by
  induction s with
  | nil => exact Iff.rfl
  | cons a s ih =>
    rw [← ih, ← not_lt, ← not_lt, List.cons_append, List.cons_append, List.cons_lt_cons_iff]
    simp

/-- Of two strings that are ordered, the first parts are. -/
theorem lt_or_eq_of_append_le [Inhabited α] (hs : s.length = s'.length) (ht : t.length = t'.length)
    (h : s ++ t ≤ s' ++ t') : s < s' ∨ s = s' ∧ t ≤ t' := by
  rcases lt_trichotomy s s' with hlt | rfl | hgt
  · exact Or.inl hlt
  · exact Or.inr ⟨rfl, (append_le_append_left s t t').mp h⟩
  · exact absurd h (not_le.mpr (append_lt_append hs.symm ht.symm hgt))

/-- The rows `r` and `r'` decide between the strings `s` and `s'`. -/
structure Leads (s s' r r' : List α) : Prop where
  length : s.length = s'.length
  length_row : r.length = r'.length
  le : s ≤ s' → r ≤ r'
  eq : s ≤ s' → r = r' → s = s'

theorem Leads.nil : Leads ([] : List α) [] [] [] := ⟨rfl, rfl, fun _ => le_rfl, fun _ _ => rfl⟩

/-- What is read twice alike decides nothing. -/
theorem Leads.skip (h : Leads s s' r r') (b : List α) : Leads (b ++ s) (b ++ s') r r' where
  length := by rw [List.length_append, List.length_append, h.length]
  length_row := h.length_row
  le hle := h.le ((append_le_append_left b s s').mp hle)
  eq hle hr := by rw [h.eq ((append_le_append_left b s s').mp hle) hr]

variable [Inhabited α]

/-- **Strings one after another** are decided by their rows one after another. -/
theorem Leads.append (h : Leads s s' r r') (h' : Leads t t' u u') :
    Leads (s ++ t) (s' ++ t') (r ++ u) (r' ++ u') where
  length := by rw [List.length_append, List.length_append, h.length, h'.length]
  length_row := by rw [List.length_append, List.length_append, h.length_row, h'.length_row]
  le hle := by
    rcases lt_or_eq_of_append_le h.length h'.length hle with hlt | ⟨rfl, ht⟩
    · rcases (h.le hlt.le).lt_or_eq with hr | rfl
      · exact (append_lt_append h.length_row h'.length_row hr).le
      · exact absurd (h.eq hlt.le rfl) hlt.ne
    · rcases (h.le le_rfl).lt_or_eq with hr | rfl
      · exact (append_lt_append h.length_row h'.length_row hr).le
      · exact (append_le_append_left r u u').mpr (h'.le ht)
  eq hle hru := by
    obtain ⟨rfl, rfl⟩ := List.append_inj hru h.length_row
    rcases lt_or_eq_of_append_le h.length h'.length hle with hlt | ⟨rfl, ht⟩
    · exact absurd (h.eq hlt.le rfl) hlt.ne
    · rw [h'.eq ht rfl]

/-- The same for a list of strings. -/
theorem Leads.flatMap {C : Type*} {cs : List C} {f f' g g' : C → List α}
    (h : ∀ c ∈ cs, Leads (f c) (f' c) (g c) (g' c)) :
    Leads (cs.flatMap f) (cs.flatMap f') (cs.flatMap g) (cs.flatMap g') := by
  induction cs with
  | nil => exact Leads.nil
  | cons c cs ih =>
    rw [List.forall_mem_cons] at h
    simp only [List.flatMap_cons]
    exact h.1.append (ih h.2)

/-- Blocks that differ decide before anything that follows. -/
theorem leads_of_ne {b b' : List α} (hb : b.length = b'.length) (hs : s.length = s'.length)
    (hr : r.length = r'.length) (hne : b ≠ b') : Leads (b ++ s) (b' ++ s') (b ++ r) (b' ++ r') where
  length := by rw [List.length_append, List.length_append, hb, hs]
  length_row := by rw [List.length_append, List.length_append, hb, hr]
  le hle := by
    rcases lt_or_eq_of_append_le hb hs hle with hlt | ⟨he, -⟩
    · exact (append_lt_append hb hr hlt).le
    · exact absurd he hne
  eq _ he := absurd (List.append_inj he hb).1 hne

section Positions

variable {P : Type*} {ps : List P} {σ : P → P} {f : P → List α}

/-- **What is moved first decides.** The positions are listed in the order `R`; a position that is
not kept is fixed by `σ`, or its image comes before it. -/
theorem leads_filter {R : P → P → Prop} (hR : ps.Pairwise R) (hasymm : ∀ p q, R p q → ¬ R q p)
    (hσ : ∀ p ∈ ps, σ (σ p) = p) (hmem : ∀ p ∈ ps, σ p ∈ ps)
    (hf : ∀ p, (f p).length = (f (σ p)).length)
    (keep : P → Bool) (hkeep : ∀ p ∈ ps, keep p = true ∨ σ p = p ∨ R (σ p) p) :
    Leads (ps.flatMap f) (ps.flatMap (f ∘ σ)) ((ps.filter keep).flatMap f)
      ((ps.filter keep).flatMap (f ∘ σ)) := by
  have hlen : ∀ l : List P, (l.flatMap f).length = (l.flatMap (f ∘ σ)).length := fun l => by
    rw [List.length_flatMap, List.length_flatMap]
    exact congrArg List.sum (List.map_congr_left fun p _ => hf p)
  -- induction on what is still to be read, where all that was read before is unchanged
  have go : ∀ suf pre, pre ++ suf = ps → (∀ q ∈ pre, f q = f (σ q)) →
      Leads (suf.flatMap f) (suf.flatMap (f ∘ σ)) ((suf.filter keep).flatMap f)
        ((suf.filter keep).flatMap (f ∘ σ)) := by
    intro suf
    induction suf with
    | nil => exact fun _ _ _ => Leads.nil
    | cons p suf ih =>
      intro pre hps hpre
      have hp : p ∈ ps := by rw [← hps]; simp
      have hnext : f p = f (σ p) → Leads (suf.flatMap f) (suf.flatMap (f ∘ σ))
          ((suf.filter keep).flatMap f) ((suf.filter keep).flatMap (f ∘ σ)) := fun heq =>
        ih (pre ++ [p]) (by rw [← hps]; simp) fun q hq => by
          rcases List.mem_append.mp hq with hq | hq
          · exact hpre q hq
          · rw [List.mem_singleton.mp hq, heq]
      cases hk : keep p with
      | true =>
        simp only [List.flatMap_cons, List.filter_cons, hk, if_true, Function.comp_apply]
        by_cases heq : f p = f (σ p)
        · rw [← heq]
          exact Leads.append ⟨rfl, rfl, fun _ => le_rfl, fun _ _ => rfl⟩ (hnext heq)
        · exact leads_of_ne (hf p) (hlen suf) (hlen _) heq
      | false =>
        have heq : f p = f (σ p) := by
          rcases hkeep p hp with hk' | hfix | hbefore
          · rw [hk] at hk'
            exact absurd hk' (by decide)
          · rw [hfix]
          · -- its image was read before
            have hold : σ p ∈ pre := by
              have hmem' := hmem p hp
              rw [← hps, List.mem_append] at hmem'
              refine hmem'.resolve_right fun hsuf => ?_
              rcases List.mem_cons.mp hsuf with he | he
              · rw [he] at hbefore
                exact hasymm p p hbefore hbefore
              · rw [← hps, List.pairwise_append] at hR
                exact hasymm _ _ hbefore ((List.pairwise_cons.mp hR.2.1).1 _ he)
            rw [hpre _ hold, hσ p hp]
        simp only [List.flatMap_cons, List.filter_cons, hk, Bool.false_eq_true, if_false,
          Function.comp_apply]
        rw [← heq]
        exact (hnext heq).skip (f p)
  exact go ps [] rfl (by simp)

end Positions

end SymBreak.Swap
