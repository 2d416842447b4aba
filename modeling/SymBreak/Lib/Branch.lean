import Mathlib.Logic.Relation
import Mathlib.Tactic.Common

/-!
# Searches that branch

A solver stands in a world and keeps a stack of alternatives. It changes its world or fails
(`infer`), goes on in one world and leaves an alternative on the stack (`decide`), accepts its
world, or, after a failure or an acceptance, takes the last alternative up (`retry`). What each of
these may do is a relation of the solver; the order is left to it.

Three rules for whole runs, each from what single steps do:
* `Sound.run`: an invariant of the worlds holds throughout, and what is accepted is good;
* `Covers.run`: what is sought is accepted, or can still be reached;
* `Progress.finishes`: from every state the search can come to its end.
-/

namespace SymBreak.Branch

variable {W D A : Type}

/-- A solver: what it may do in a world, with an alternative, and at the end of a branch. -/
structure Solver (W D A : Type) where
  infer : W → Option W → Prop
  decide : W → W → D → Prop
  retry : D → W → Prop
  accept : W → A → Prop

/-- A state: `current` is `none` after a failure or an acceptance. -/
structure State (W D A : Type) where
  current : Option W
  stack : List D
  accepted : List A

namespace Solver

variable (S : Solver W D A)

/-- The steps. -/
inductive Step : State W D A → State W D A → Prop
  | infer {w c st acc} (h : S.infer w c) : Step ⟨some w, st, acc⟩ ⟨c, st, acc⟩
  | decide {w w' d st acc} (h : S.decide w w' d) :
      Step ⟨some w, st, acc⟩ ⟨some w', d :: st, acc⟩
  | accept {w a st acc} (h : S.accept w a) : Step ⟨some w, st, acc⟩ ⟨none, st, a :: acc⟩
  | retry {d w st acc} (h : S.retry d w) : Step ⟨none, d :: st, acc⟩ ⟨some w, st, acc⟩

/-- The runs. -/
def Run : State W D A → State W D A → Prop := Relation.ReflTransGen S.Step

end Solver

/-- A search before its first step. -/
def State.start (w : W) : State W D A := ⟨some w, [], []⟩

/-- The search is over. -/
def State.Finished (s : State W D A) : Prop := s.current = none ∧ s.stack = []

variable {S : Solver W D A} {Ok : W → Prop} {Left : D → Prop} {Good : A → Prop}

/-! ## Invariants -/

/-- Every step keeps `Ok` of the worlds and leaves alternatives with `Left`; what is accepted in
such a world is `Good`. -/
structure Sound (S : Solver W D A) (Ok : W → Prop) (Left : D → Prop) (Good : A → Prop) : Prop where
  infer : ∀ {w w'}, Ok w → S.infer w (some w') → Ok w'
  decide : ∀ {w w' d}, Ok w → S.decide w w' d → Ok w' ∧ Left d
  retry : ∀ {d w}, Left d → S.retry d w → Ok w
  accept : ∀ {w a}, Ok w → S.accept w a → Good a

/-- The invariant of a state. -/
structure Inv (Ok : W → Prop) (Left : D → Prop) (Good : A → Prop) (s : State W D A) : Prop where
  current : ∀ w, s.current = some w → Ok w
  stack : ∀ d ∈ s.stack, Left d
  accepted : ∀ a ∈ s.accepted, Good a

theorem inv_start {w : W} (h : Ok w) : Inv Ok Left Good (State.start w) where
  current w' hw := by
    obtain rfl := Option.some.inj hw
    exact h
  stack d hd := absurd hd (by simp [State.start])
  accepted a ha := absurd ha (by simp [State.start])

theorem Sound.step (h : Sound S Ok Left Good) {s s' : State W D A} (hs : S.Step s s')
    (hi : Inv Ok Left Good s) : Inv Ok Left Good s' := by
  cases hs with
  | @infer w c st acc hinfer =>
    refine ⟨fun w' hw => ?_, hi.stack, hi.accepted⟩
    obtain rfl : c = some w' := hw
    exact h.infer (hi.current w rfl) hinfer
  | @decide w w' d st acc hdec =>
    obtain ⟨hok, hleft⟩ := h.decide (hi.current w rfl) hdec
    refine ⟨fun w₁ hw => ?_, List.forall_mem_cons.mpr ⟨hleft, hi.stack⟩, hi.accepted⟩
    obtain rfl := Option.some.inj hw
    exact hok
  | @accept w a st acc hacc =>
    exact ⟨fun _ hw => absurd hw (by simp), hi.stack,
      List.forall_mem_cons.mpr ⟨h.accept (hi.current w rfl) hacc, hi.accepted⟩⟩
  | @retry d w st acc hretry =>
    obtain ⟨hleft, hst⟩ := List.forall_mem_cons.mp hi.stack
    refine ⟨fun w₁ hw => ?_, hst, hi.accepted⟩
    obtain rfl := Option.some.inj hw
    exact h.retry hleft hretry

/-- **Every run keeps the invariant.** -/
theorem Sound.run (h : Sound S Ok Left Good) {s s' : State W D A} (hs : S.Run s s')
    (hi : Inv Ok Left Good s) : Inv Ok Left Good s' := by
  induction hs with
  | refl => exact hi
  | tail _ hstep ih => exact h.step hstep ih

/-! ## Nothing is lost -/

/-- What is sought lies in the world (`inWorld`), in the alternative (`inLeft`), or is what was
accepted (`isSought`); no step in a world with `Ok` loses it. -/
structure Covers (S : Solver W D A) (Ok : W → Prop) (Left : D → Prop) (inWorld : W → Prop)
    (inLeft : D → Prop) (isSought : A → Prop) : Prop where
  infer : ∀ {w c}, Ok w → inWorld w → S.infer w c → ∃ w', c = some w' ∧ inWorld w'
  decide : ∀ {w w' d}, Ok w → inWorld w → S.decide w w' d → inWorld w' ∨ inLeft d
  retry : ∀ {d w}, Left d → inLeft d → S.retry d w → inWorld w
  accept : ∀ {w a}, Ok w → inWorld w → S.accept w a → isSought a

/-- It was accepted, or can still be reached. -/
def State.Keeps (inWorld : W → Prop) (inLeft : D → Prop) (isSought : A → Prop)
    (s : State W D A) : Prop :=
  (∃ a ∈ s.accepted, isSought a) ∨ (∃ w, s.current = some w ∧ inWorld w) ∨ ∃ d ∈ s.stack, inLeft d

variable {inWorld : W → Prop} {inLeft : D → Prop} {isSought : A → Prop}

theorem Covers.step (h : Covers S Ok Left inWorld inLeft isSought) {s s' : State W D A}
    (hs : S.Step s s') (hi : Inv Ok Left Good s) (hk : s.Keeps inWorld inLeft isSought) :
    s'.Keeps inWorld inLeft isSought := by
  cases hs with
  | @infer w c st acc hinfer =>
    rcases hk with hacc | ⟨w₁, hw, hin⟩ | hst
    · exact Or.inl hacc
    · obtain rfl := Option.some.inj hw
      exact Or.inr (Or.inl (h.infer (hi.current w rfl) hin hinfer))
    · exact Or.inr (Or.inr hst)
  | @decide w w' d st acc hdec =>
    rcases hk with hacc | ⟨w₁, hw, hin⟩ | ⟨d', hd', hin⟩
    · exact Or.inl hacc
    · obtain rfl := Option.some.inj hw
      rcases h.decide (hi.current w rfl) hin hdec with hw' | hd
      · exact Or.inr (Or.inl ⟨w', rfl, hw'⟩)
      · exact Or.inr (Or.inr ⟨d, List.mem_cons_self, hd⟩)
    · exact Or.inr (Or.inr ⟨d', List.mem_cons_of_mem d hd', hin⟩)
  | @accept w a st acc hacc =>
    rcases hk with ⟨a', ha', hs⟩ | ⟨w₁, hw, hin⟩ | hst
    · exact Or.inl ⟨a', List.mem_cons_of_mem a ha', hs⟩
    · obtain rfl := Option.some.inj hw
      exact Or.inl ⟨a, List.mem_cons_self, h.accept (hi.current w rfl) hin hacc⟩
    · exact Or.inr (Or.inr hst)
  | @retry d w st acc hretry =>
    obtain ⟨hleft, -⟩ := List.forall_mem_cons.mp hi.stack
    rcases hk with hacc | ⟨w₁, hw, -⟩ | ⟨d', hd', hin⟩
    · exact Or.inl hacc
    · exact absurd hw (by simp)
    · rcases List.mem_cons.mp hd' with rfl | hd'
      · exact Or.inr (Or.inl ⟨w, rfl, h.retry hleft hin hretry⟩)
      · exact Or.inr (Or.inr ⟨d', hd', hin⟩)

/-- **No run loses what is sought.** -/
theorem Covers.run (h : Covers S Ok Left inWorld inLeft isSought) (hsound : Sound S Ok Left Good)
    {s s' : State W D A} (hs : S.Run s s') (hi : Inv Ok Left Good s)
    (hk : s.Keeps inWorld inLeft isSought) : s'.Keeps inWorld inLeft isSought := by
  induction hs with
  | refl => exact hk
  | tail hrun hstep ih => exact h.step hstep (hsound.run hrun hi) ih

/-! ## The end -/

/-- In every world with `Ok` the solver can do something that makes the measure smaller, or
accept. -/
structure Progress (S : Solver W D A) (Ok : W → Prop) (Left : D → Prop) (μ : W → Nat) : Prop where
  world : ∀ {w}, Ok w →
    (∃ c, S.infer w c ∧ ∀ w', c = some w' → μ w' < μ w) ∨
    (∃ w' d w'', S.decide w w' d ∧ S.retry d w'' ∧ μ w' < μ w ∧ μ w'' < μ w) ∨
    ∃ a, S.accept w a
  left : ∀ {d}, Left d → ∃ w, S.retry d w

variable {μ : W → Nat}

/-- What is below a world can be searched to its end. -/
theorem Progress.closes (h : Progress S Ok Left μ) (hsound : Sound S Ok Left Good) {w : W}
    (hw : Ok w) (st : List D) (acc : List A) :
    ∃ acc', S.Run ⟨some w, st, acc⟩ ⟨none, st, acc'⟩ := by
  induction hm : μ w using Nat.strongRecOn generalizing w st acc with
  | _ m ih =>
    subst hm
    rcases h.world hw with ⟨c, hinfer, hlt⟩ | ⟨w', d, w'', hdec, hretry, hlt, hlt'⟩ | ⟨a, hacc⟩
    · have hstep : S.Step ⟨some w, st, acc⟩ ⟨c, st, acc⟩ := Solver.Step.infer hinfer
      cases c with
      | none => exact ⟨acc, Relation.ReflTransGen.single hstep⟩
      | some w' =>
        obtain ⟨acc', hrun⟩ := ih _ (hlt w' rfl) (hsound.infer hw hinfer) st acc rfl
        exact ⟨acc', (Relation.ReflTransGen.single hstep).trans hrun⟩
    · obtain ⟨hok, hleft⟩ := hsound.decide hw hdec
      obtain ⟨acc₁, hrun₁⟩ := ih _ hlt hok (d :: st) acc rfl
      obtain ⟨acc₂, hrun₂⟩ := ih _ hlt' (hsound.retry hleft hretry) st acc₁ rfl
      have h₁ : S.Step ⟨some w, st, acc⟩ _ := Solver.Step.decide hdec
      have h₂ : S.Step ⟨none, d :: st, acc₁⟩ _ := Solver.Step.retry hretry
      exact ⟨acc₂, ((Relation.ReflTransGen.single h₁).trans hrun₁).trans
        ((Relation.ReflTransGen.single h₂).trans hrun₂)⟩
    · exact ⟨a :: acc, Relation.ReflTransGen.single (Solver.Step.accept hacc)⟩

/-- **From every state the search can come to its end.** -/
theorem Progress.finishes (h : Progress S Ok Left μ) (hsound : Sound S Ok Left Good)
    {s : State W D A} (hi : Inv Ok Left Good s) : ∃ s', S.Run s s' ∧ s'.Finished := by
  have below : ∀ (st : List D) (acc : List A), (∀ d ∈ st, Left d) →
      ∃ s', S.Run ⟨none, st, acc⟩ s' ∧ s'.Finished := by
    intro st
    induction st with
    | nil => exact fun acc _ => ⟨_, Relation.ReflTransGen.refl, rfl, rfl⟩
    | cons d st ih =>
      intro acc hst
      obtain ⟨hleft, hst⟩ := List.forall_mem_cons.mp hst
      obtain ⟨w, hretry⟩ := h.left hleft
      obtain ⟨acc', hrun⟩ := h.closes hsound (hsound.retry hleft hretry) st acc
      obtain ⟨s', hrun', hfin⟩ := ih acc' hst
      have hstep : S.Step ⟨none, d :: st, acc⟩ _ := Solver.Step.retry hretry
      exact ⟨s', ((Relation.ReflTransGen.single hstep).trans hrun).trans hrun', hfin⟩
  obtain ⟨c, st, acc⟩ := s
  cases c with
  | none => exact below st acc hi.stack
  | some w =>
    obtain ⟨acc', hrun⟩ := h.closes hsound (hi.current w rfl) st acc
    obtain ⟨s', hrun', hfin⟩ := below st acc' hi.stack
    exact ⟨s', hrun.trans hrun', hfin⟩

end SymBreak.Branch
