import Mathlib.Order.Lattice
import Mathlib.Data.List.GetD
import Mathlib.Data.List.Lex
import Mathlib.Tactic.Common

/-!
# Lexicographic order by lex implications

For two strings of one length, `s ≤ t` in the lexicographic order says that at every position
where the strings agree so far, the entry of `s` is at most the entry of `t`. `Implication ℓ s t`
is that condition at the `ℓ`-th position alone. A *lex implication* `(p, ℓ)` asks it of the string
of an object `x` and the string of its image `act p x`.

Results:
* `le_iff_implications`: `s ≤ t` iff `Implication ℓ s t` for every length `ℓ`.
* `ClosedUpTo ℓ C`: the objects in `C` satisfy every lex implication of length at most `ℓ`, for
  every `p`. It starts at `0` (`closed_zero`) and grows by one length at a time (`closed_succ`).
* **`minimal_of_closed`**: when an image that agrees on all but the last position agrees
  everywhere, a class closed up to `K - 1` holds minimal objects only.
* `holds_of_minimal`: a minimal object satisfies every lex implication.
-/

namespace SymBreak.Lex

variable {α : Type*} [LinearOrder α] [Inhabited α]

/-- The lex implication of length `ℓ`: if `s` and `t` agree on the first `ℓ - 1` positions, then
the entry of `s` at position `ℓ - 1` is at most the entry of `t`. -/
def Implication (ℓ : Nat) (s t : List α) : Prop :=
  s.take (ℓ - 1) = t.take (ℓ - 1) → s.getD (ℓ - 1) default ≤ t.getD (ℓ - 1) default

instance (ℓ : Nat) (s t : List α) : Decidable (Implication ℓ s t) := by
  unfold Implication; infer_instance

/-- Strings of one length agree on a prefix when they do position by position. -/
theorem take_eq_take_iff {β : Type*} [Inhabited β] {s t : List β} (h : s.length = t.length)
    {m : Nat} :
    s.take m = t.take m ↔ ∀ i < m, s.getD i default = t.getD i default := by
  constructor
  · intro heq i hi
    have e : ∀ l : List β, l.getD i default = (l.take m).getD i default := fun l => by
      rw [List.getD_eq_getElem?_getD, List.getD_eq_getElem?_getD, List.getElem?_take_of_lt hi]
    rw [e s, e t, heq]
  · intro hget
    refine List.ext_getElem (by simp [h]) fun i hi hi' => ?_
    simp only [List.length_take] at hi hi'
    have := hget i (by omega)
    rw [List.getD_eq_getElem _ _ (by omega), List.getD_eq_getElem _ _ (by omega)] at this
    simpa only [List.getElem_take] using this

/-- An implication depends on the positions up to its length. -/
theorem implication_take {ℓ K : Nat} (hpos : 1 ≤ ℓ) (hle : ℓ ≤ K) {s t : List α} :
    Implication ℓ (s.take K) (t.take K) ↔ Implication ℓ s t := by
  have hget : ∀ l : List α, (l.take K).getD (ℓ - 1) default = l.getD (ℓ - 1) default := fun l => by
    rw [List.getD_eq_getElem?_getD, List.getD_eq_getElem?_getD,
      List.getElem?_take_of_lt (by omega)]
  rw [Implication, List.take_take, List.take_take, Nat.min_eq_left (by omega), hget, hget]
  rfl

/-- A strict inequality of strings of one length has a first difference. -/
theorem lt_iff_first_diff {s t : List α} (h : s.length = t.length) :
    s < t ↔ ∃ i, i < s.length ∧ s.take i = t.take i ∧ s.getD i default < t.getD i default := by
  rw [List.lt_iff_exists]
  constructor
  · rintro (⟨-, hlt⟩ | ⟨i, hs, ht, heq, hlt⟩)
    · omega
    · refine ⟨i, hs, ?_, ?_⟩
      · refine List.ext_getElem (by simp only [List.length_take]; omega) fun j hj hj' => ?_
        simp only [List.length_take] at hj
        simp only [List.getElem_take]
        exact heq j (by omega)
      · rw [List.getD_eq_getElem _ _ hs, List.getD_eq_getElem _ _ ht]
        exact hlt
  · rintro ⟨i, hs, heq, hlt⟩
    refine Or.inr ⟨i, hs, h ▸ hs, fun j hj => ?_, ?_⟩
    · have hj' : j < (s.take i).length := by simp only [List.length_take]; omega
      have hj'' : j < (t.take i).length := by rw [← heq]; exact hj'
      have e : (s.take i)[j] = (t.take i)[j] := by congr 1
      simpa only [List.getElem_take] using e
    · rw [List.getD_eq_getElem _ _ hs, List.getD_eq_getElem _ _ (h ▸ hs)] at hlt
      exact hlt

/-- Strings are ordered when their entries are. -/
theorem map_le_map {ι : Type*} {f g : ι → α} {l : List ι} (h : ∀ i ∈ l, f i ≤ g i) :
    l.map f ≤ l.map g := by
  rw [← not_lt, lt_iff_first_diff (by simp)]
  rintro ⟨i, hi, -, hlt⟩
  rw [List.length_map] at hi
  rw [List.getD_eq_getElem _ _ (by simpa using hi), List.getD_eq_getElem _ _ (by simpa using hi),
    List.getElem_map, List.getElem_map] at hlt
  exact absurd hlt (not_lt.mpr (h _ (List.getElem_mem _)))

/-- A smaller prefix makes the string smaller. -/
theorem append_lt_append {s t u v : List α} (h : s.length = t.length) (h' : u.length = v.length)
    (hlt : s < t) : s ++ u < t ++ v := by
  obtain ⟨i, hi, heq, hd⟩ := (lt_iff_first_diff h).mp hlt
  have hi' : i < t.length := h ▸ hi
  refine (lt_iff_first_diff (by rw [List.length_append, List.length_append, h, h'])).mpr
    ⟨i, ?_, ?_, ?_⟩
  · rw [List.length_append]
    exact hi.trans_le (Nat.le_add_right _ _)
  · rw [List.take_append_of_le_length hi.le, List.take_append_of_le_length hi'.le, heq]
  · rwa [List.getD_append _ _ _ _ hi, List.getD_append _ _ _ _ hi']

/-- **`s ≤ t` is every lex implication at once.** -/
theorem le_iff_implications {s t : List α} (h : s.length = t.length) :
    s ≤ t ↔ ∀ ℓ, 1 ≤ ℓ → ℓ ≤ s.length → Implication ℓ s t := by
  rw [← not_lt, lt_iff_first_diff h.symm]
  constructor
  · intro hn ℓ h1 hℓ heq
    by_contra hlt
    exact hn ⟨ℓ - 1, by omega, heq.symm, not_le.mp hlt⟩
  · rintro himp ⟨i, hi, heq, hlt⟩
    have := himp (i + 1) (by omega) (by omega) (by simpa using heq.symm)
    rw [Nat.add_sub_cancel] at this
    exact absurd hlt (not_lt.mpr this)

/-- Rearrangements that agree on all but the last position agree everywhere. -/
theorem eq_of_perm_of_take {β : Type*} {s t : List β} {K : Nat} (hp : s.Perm t)
    (hs : s.length = K) (h : s.take (K - 1) = t.take (K - 1)) : s = t := by
  have hdrop : (s.drop (K - 1)).Perm (t.drop (K - 1)) := by
    rw [← List.take_append_drop (K - 1) s, ← List.take_append_drop (K - 1) t, h] at hp
    exact (List.perm_append_left_iff _).mp hp
  have hlen : (s.drop (K - 1)).length ≤ 1 := by rw [List.length_drop]; omega
  have e : s.drop (K - 1) = t.drop (K - 1) := by
    match hd : s.drop (K - 1), hlen with
    | [], _ => rw [hd] at hdrop; exact hdrop.nil_eq
    | [a], _ => rw [hd] at hdrop; exact (List.perm_singleton.mp hdrop.symm).symm
  rw [← List.take_append_drop (K - 1) s, h, e, List.take_append_drop]

/-! ## Canonizing sets -/

section Canonizing

variable {X P : Type*} (str : X → List α) (act : P → X → X)

/-- `x` satisfies the lex implication `(p, ℓ)`. -/
def Holds (x : X) (imp : P × Nat) : Prop := Implication imp.2 (str x) (str (act imp.1 x))

/-- The string of `x` is the least among its images. -/
def Minimal (x : X) : Prop := ∀ p, str x ≤ str (act p x)

/-- The members of `C` satisfy every lex implication of length at most `ℓ`. -/
def ClosedUpTo (ℓ : Nat) (C : X → Prop) : Prop :=
  ∀ x, C x → ∀ p j, 1 ≤ j → j ≤ ℓ → Holds str act x (p, j)

variable {str act}

theorem closed_zero (C : X → Prop) : ClosedUpTo str act 0 C := fun _ _ _ j h1 h0 => by omega

theorem closed_mono {ℓ : Nat} {C C' : X → Prop} (h : ClosedUpTo str act ℓ C)
    (hsub : ∀ x, C' x → C x) : ClosedUpTo str act ℓ C' :=
  fun x hx => h x (hsub x hx)

/-- One more length. -/
theorem closed_succ {ℓ : Nat} {C : X → Prop} (h : ClosedUpTo str act ℓ C)
    (hs : ∀ x, C x → ∀ p, Holds str act x (p, ℓ + 1)) : ClosedUpTo str act (ℓ + 1) C := by
  intro x hx p j h1 hj
  rcases Nat.lt_or_ge ℓ j with hlt | hle
  · obtain rfl : j = ℓ + 1 := by omega
    exact hs x hx p
  · exact h x hx p j h1 hle

variable {K : Nat} (hlen : ∀ x, (str x).length = K)
include hlen

theorem minimal_iff {x : X} :
    Minimal str act x ↔ ∀ p ℓ, 1 ≤ ℓ → ℓ ≤ K → Holds str act x (p, ℓ) := by
  refine forall_congr' fun p => ?_
  rw [le_iff_implications ((hlen x).trans (hlen _).symm), hlen]
  rfl

/-- **A minimal object satisfies every lex implication.** -/
theorem holds_of_minimal {x : X} (h : Minimal str act x) {p : P} {ℓ : Nat} (h1 : 1 ≤ ℓ)
    (hℓ : ℓ ≤ K) : Holds str act x (p, ℓ) :=
  (minimal_iff hlen).mp h p ℓ h1 hℓ

/-- **Closed up to the last length but one is enough**, when an image that agrees with `x` on all
but the last position agrees with it everywhere. -/
theorem minimal_of_closed {C : X → Prop} (h : ClosedUpTo str act (K - 1) C)
    (hlast : ∀ x p, (str x).take (K - 1) = (str (act p x)).take (K - 1) →
      str x = str (act p x)) {x : X} (hx : C x) : Minimal str act x := by
  rw [minimal_iff hlen]
  intro p ℓ h1 hℓ
  rcases Nat.lt_or_ge (K - 1) ℓ with hlt | hle
  · obtain rfl : ℓ = K := by omega
    intro heq
    rw [← hlast x p heq]
  · exact h x hx p ℓ h1 hle

end Canonizing

end SymBreak.Lex
