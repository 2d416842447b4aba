import Mathlib.Data.List.Basic
import Mathlib.Tactic.Common

/-!
# Loops with fuel

A `while` loop whose termination is a theorem, not a shape, is written with a fuel argument: it
returns `.error .outOfFuel` when the fuel runs out. `Converges f a` says that the loop terminates
with result `a`: from some fuel on, every amount of fuel gives `a`. A result is unique
(`Converges.unique`), and convergence composes along `>>=` (`Converges.bind`) and along a counting
loop with an invariant (`Converges.foldlM_range'`).
-/

namespace SymBreak

/-- Why a computation stopped without a result: the fuel of a loop ran out, or it raised `e`. -/
inductive Halt (ε : Type) where
  | outOfFuel
  | raised (e : ε)
  deriving DecidableEq, Repr

@[simp] theorem ok_bind {α β ε : Type} (a : α) (f : α → Except ε β) :
    ((Except.ok a : Except ε α) >>= f) = f a := rfl

/-- A loop over a list, each of whose turns returns. -/
theorem mapM_ok {α β ε : Type} {f : α → Except ε β} {g : α → β} {l : List α}
    (h : ∀ a ∈ l, f a = .ok (g a)) : l.mapM f = .ok (l.map g) := by
  induction l with
  | nil => rfl
  | cons a l ih =>
    obtain ⟨ha, hl⟩ := List.forall_mem_cons.mp h
    rw [List.mapM_cons, ha, ih hl]
    rfl

/-- From some fuel on, `f` gives `a`. -/
def Converges {α : Type} (f : Nat → α) (a : α) : Prop := ∃ N, ∀ k, N ≤ k → f k = a

namespace Converges

variable {α β ε : Type}

theorem const (a : α) : Converges (fun _ => a) a := ⟨0, fun _ _ => rfl⟩

theorem of_eq {f : Nat → α} {a : α} (h : ∀ k, f k = a) : Converges f a := ⟨0, fun k _ => h k⟩

/-- **A loop has one result.** -/
theorem unique {f : Nat → α} {a b : α} (ha : Converges f a) (hb : Converges f b) : a = b := by
  obtain ⟨N, hN⟩ := ha
  obtain ⟨M, hM⟩ := hb
  rw [← hN (max N M) (Nat.le_max_left _ _), hM (max N M) (Nat.le_max_right _ _)]

theorem congr {f g : Nat → α} {a : α} (h : ∀ k, f k = g k) (hf : Converges f a) :
    Converges g a := by
  obtain ⟨N, hN⟩ := hf
  exact ⟨N, fun k hk => by rw [← h k]; exact hN k hk⟩

/-- One more unit of fuel, consumed by the loop head. -/
theorem succ {f : Nat → α} {a : α} (h : Converges (fun k => f (k + 1)) a) : Converges f a := by
  obtain ⟨N, hN⟩ := h
  refine ⟨N + 1, fun k hk => ?_⟩
  have := hN (k - 1) (by omega)
  simpa only [Nat.sub_add_cancel (show 1 ≤ k by omega)] using this

theorem bind {f : Nat → Except ε α} {g : α → Nat → Except ε β} {x : Except ε α}
    {y : α → Except ε β} (hf : Converges f x) (hg : ∀ a, x = .ok a → Converges (g a) (y a)) :
    Converges (fun k => f k >>= fun a => g a k) (x >>= y) := by
  obtain ⟨N, hN⟩ := hf
  cases x with
  | error e => exact ⟨N, fun k hk => by simp only [hN k hk]; rfl⟩
  | ok a =>
    obtain ⟨M, hM⟩ := hg a rfl
    refine ⟨max N M, fun k hk => ?_⟩
    simp only [hN k (Nat.le_trans (Nat.le_max_left _ _) hk)]
    exact hM k (Nat.le_trans (Nat.le_max_right _ _) hk)

theorem bind_ok {f : Nat → Except ε α} {g : α → Nat → Except ε β} {a : α} {y : Except ε β}
    (hf : Converges f (.ok a)) (hg : Converges (g a) y) :
    Converges (fun k => f k >>= fun a => g a k) y :=
  bind (x := .ok a) (y := fun _ => y) hf fun b hb => by cases hb; exact hg

theorem bind_error {f : Nat → Except ε α} {g : α → Nat → Except ε β} {e : ε}
    (hf : Converges f (.error e)) : Converges (fun k => f k >>= fun a => g a k) (.error e) :=
  bind (x := .error e) (y := fun _ => .error e) hf fun _ h => by cases h

/-- **A counting loop**, each of whose bodies converges: the values after every turn. Where `P`
holds before the loop and every turn carries it on, it holds after every turn. -/
theorem foldlM_range' {f : Nat → α → Nat → Except ε α} {P : Nat → α → Prop} :
    ∀ (len start : Nat) (a : α), P start a →
      (∀ i a, start ≤ i → i < start + len → P i a →
        ∃ b, Converges (fun k => f k a i) (.ok b) ∧ P (i + 1) b) →
      ∃ seq : Nat → α, seq start = a ∧
        (∀ i, start ≤ i → i < start + len →
          Converges (fun k => f k (seq i) i) (.ok (seq (i + 1)))) ∧
        (∀ i, start ≤ i → i ≤ start + len → P i (seq i)) ∧
        Converges (fun k => (List.range' start len).foldlM (f k) a) (.ok (seq (start + len)))
  | 0, start, a, h0, _ => ⟨fun _ => a, rfl, fun i h1 h2 => by omega, fun i h1 h2 => by
      obtain rfl : i = start := by omega
      exact h0, const _⟩
  | len + 1, start, a, h0, step => by
    obtain ⟨b, hb, hPb⟩ := step start a (Nat.le_refl _) (by omega) h0
    obtain ⟨seq, hs, hturn, hP, hfold⟩ := foldlM_range' len (start + 1) b hPb
      fun i c h1 h2 => step i c (by omega) (by omega)
    -- the first turn in front of the others
    have later : ∀ i, start < i → (if i ≤ start then a else seq i) = seq i :=
      fun i hi => if_neg (by omega)
    refine ⟨fun i => if i ≤ start then a else seq i, if_pos (Nat.le_refl _), fun i h1 h2 => ?_,
      fun i h1 h2 => ?_, ?_⟩
    · simp only [later (i + 1) (by omega)]
      rcases Nat.eq_or_lt_of_le h1 with rfl | hlt
      · simpa only [Nat.le_refl, if_true, hs] using hb
      · simpa only [later i hlt] using hturn i (by omega) (by omega)
    · rcases Nat.eq_or_lt_of_le h1 with rfl | hlt
      · simpa only [Nat.le_refl, if_true] using h0
      · simpa only [later i hlt] using hP i (by omega) (by omega)
    · simp only [later (start + (len + 1)) (by omega)]
      rw [show start + (len + 1) = start + 1 + len by omega]
      simp only [List.range'_succ, List.foldlM_cons]
      exact bind_ok hb hfold

end Converges

end SymBreak
