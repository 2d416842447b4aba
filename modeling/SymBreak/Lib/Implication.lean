import SymBreak.Lib.Cnf

/-!
# Implied literals

The literals that a solver holds true, in the order in which it set them (`M`), where each is a
guess or was implied by a clause whose other literals were false before. A set `S` of such literals
is closed over a set `K` when each literal of `S` is in `K`, or implied from literals of `S` that
were set before it and from literals that the formula entails.

* **`Closed.implied`**: the formula and the literals of `K` entail those of `S`;
* `Closed.learn`: if all literals of an entailed clause are false in `S`, then the formula entails
  that some literal of `K` is false. This is the clause that conflict analysis learns, where `K` is
  the cut through the implication graph.
-/

namespace SymBreak.Cnf

/-- `q` is false by a literal of `S` among the first `i` of `M`, or in every model. -/
def FalseBefore (F : Formula) (M : List Lit) (S : Lit → Prop) (i : Nat) (q : Lit) : Prop :=
  Entails F [q.neg] ∨ S q.neg ∧ q.neg ∈ M.take i

/-- Each literal of `S` is in `K` or implied by literals of `S` set before it. -/
def Closed (F : Formula) (M : List Lit) (K S : Lit → Prop) : Prop :=
  ∀ (i : Nat) (p : Lit), M[i]? = some p → S p → K p ∨
    ∃ c, Entails F c ∧ ∀ q ∈ c, q ≠ p → FalseBefore F M S i q

variable {F : Formula} {M : List Lit} {K S : Lit → Prop} {σ : Assignment}

theorem mem_take_iff {α : Type} {l : List α} {n : Nat} {a : α} :
    a ∈ l.take n ↔ ∃ i, i < n ∧ l[i]? = some a := by
  rw [List.mem_iff_getElem?]
  refine exists_congr fun i => ?_
  rw [List.getElem?_take]
  by_cases h : i < n
  · simp [h]
  · simp [h]

theorem Entails.neg_false {q : Lit} (h : Entails F [q.neg]) (hσ : Sat σ F) :
    q.eval σ = false := by
  have := h σ hσ
  simpa using this

/-- **The formula and `K` entail `S`**, by induction on the order in which the literals were set. -/
theorem Closed.implied (h : Closed F M K S) (hσ : Sat σ F)
    (hK : ∀ p ∈ M, K p → p.eval σ = true) {p : Lit} (hp : p ∈ M) (hS : S p) :
    p.eval σ = true := by
  have key : ∀ (i : Nat) (p : Lit), M[i]? = some p → S p → p.eval σ = true := by
    intro i
    induction i using Nat.strong_induction_on with
    | _ i ih =>
      intro p hi hp
      rcases h i p hi hp with hKp | ⟨c, hc, hfalse⟩
      · exact hK p (List.mem_of_getElem? hi) hKp
      · obtain ⟨q, hq, hqσ⟩ := hc σ hσ
        by_cases hqp : q = p
        · exact hqp ▸ hqσ
        · rcases hfalse q hq hqp with hent | ⟨hqS, hqM⟩
          · exact absurd hqσ (by rw [hent.neg_false hσ]; exact Bool.false_ne_true)
          · obtain ⟨j, hj, hjq⟩ := mem_take_iff.mp hqM
            have := ih j hj q.neg hjq hqS
            rw [Lit.eval_neg, hqσ] at this
            exact absurd this (by simp)
  obtain ⟨i, hi⟩ := List.mem_iff_getElem?.mp hp
  exact key i p hi hS

/-- **The clause learnt from a conflict**: if every literal of the entailed clause `c` is false in
`S`, then every clause that holds the complements of `K` is entailed. -/
theorem Closed.learn (h : Closed F M K S) {c d : Clause} (hc : Entails F c)
    (hfalse : ∀ q ∈ c, FalseBefore F M S M.length q) (hd : ∀ p ∈ M, K p → p.neg ∈ d) :
    Entails F d := by
  intro σ hσ
  by_contra hno
  have hK : ∀ p ∈ M, K p → p.eval σ = true := by
    intro p hp hKp
    by_contra hpσ
    exact hno ⟨p.neg, hd p hp hKp, by simpa using hpσ⟩
  obtain ⟨q, hq, hqσ⟩ := hc σ hσ
  rcases hfalse q hq with hent | ⟨hqS, hqM⟩
  · exact absurd hqσ (by rw [hent.neg_false hσ]; exact Bool.false_ne_true)
  · rw [List.take_length] at hqM
    have := h.implied hσ hK hqM hqS
    rw [Lit.eval_neg, hqσ] at this
    exact absurd this (by simp)

end SymBreak.Cnf
