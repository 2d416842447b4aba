import Mathlib.Data.List.Forall2
import Mathlib.Logic.Function.Basic
import Mathlib.Tactic.Common

/-!
# Posting constraints over fresh variables

An encoder takes fresh variables from a supply and posts constraints on them (`Post`). The
constraints belong to a `Language`: which variables they have and when values satisfy them.

A `World` is a store together with values that satisfy what is posted, and the variables known so
far. `w.Le w'`: the store of `w'` has more variables and constraints, its values extend those of
`w`, and whatever satisfies the constraints of `w'` and has the known values of `w` has the known
values of `w'`. So `Makes m w Q`, that the encoder `m` leads from `w` to such a world with `Q`, says
both that `m` loses no solution and that it determines what it makes known. Unless the world is
`free`, every variable that `m` creates is known in the end.

`Makes.bind`, `Makes.forM` and `Makes.mapM` are the rules for whole encoders, `makes_alloc`,
`makes_fresh`, `makes_post` and `makes_define` those for single steps. Where constraints refer to
variables that only later ones determine, `makes_alloc_later` declares these variables first.
-/

namespace SymBreak.Declare

/-- Constraints `C` on variables with values in `V`. -/
structure Language (V C : Type) where
  vars : C → List Nat
  Holds : (Nat → V) → C → Prop
  congr : ∀ {c σ τ}, (∀ x ∈ vars c, τ x = σ x) → Holds σ c → Holds τ c

/-- What was posted, and the next fresh variable. -/
structure Store (C : Type) where
  next : Nat
  posted : List C

/-- An encoder. -/
abbrev Post (C : Type) := StateT (Store C) Option

variable {V C α β : Type}

/-- A fresh variable. -/
def fresh : Post C Nat := fun s => some (s.next, { s with next := s.next + 1 })

/-- Post a constraint. -/
def post (c : C) : Post C Unit := fun s => some ((), { s with posted := s.posted ++ [c] })

/-! ## Worlds -/

variable {L : Language V C}

/-- The values satisfy what is posted. -/
def Store.Sat (L : Language V C) (s : Store C) (τ : Nat → V) : Prop := ∀ c ∈ s.posted, L.Holds τ c

/-- A store with values that satisfy it, and the variables known. In a `free` world new variables
need not be determined. -/
structure World (L : Language V C) where
  store : Store C
  values : Nat → V
  known : Nat → Prop
  free : Prop
  below : ∀ c ∈ store.posted, ∀ x ∈ L.vars c, x < store.next
  sat : store.Sat L values
  known_lt : ∀ x, known x → x < store.next

namespace World

/-- The values are those known. -/
def Agrees (w : World L) (τ : Nat → V) : Prop := ∀ x, w.known x → τ x = w.values x

/-- `w'` extends `w`, and determines what it makes known. -/
structure Le (w w' : World L) : Prop where
  next : w.store.next ≤ w'.store.next
  posted : ∀ c ∈ w.store.posted, c ∈ w'.store.posted
  values : ∀ x < w.store.next, w'.values x = w.values x
  known : ∀ x, w.known x → w'.known x
  free : w'.free ↔ w.free
  forced : ∀ τ, w'.store.Sat L τ → w.Agrees τ → w'.Agrees τ

theorem Le.refl (w : World L) : w.Le w :=
  ⟨Nat.le_refl _, fun _ h => h, fun _ _ => rfl, fun _ h => h, Iff.rfl, fun _ _ h => h⟩

theorem Le.trans {w w' w'' : World L} (h : w.Le w') (h' : w'.Le w'') : w.Le w'' where
  next := Nat.le_trans h.next h'.next
  posted c hc := h'.posted c (h.posted c hc)
  values x hx := (h'.values x (Nat.lt_of_lt_of_le hx h.next)).trans (h.values x hx)
  known x hx := h'.known x (h.known x hx)
  free := h'.free.trans h.free
  forced τ hτ hk := h'.forced τ hτ (h.forced τ (fun c hc => hτ c (h'.posted c hc)) hk)

/-- What was known keeps its value. -/
theorem Le.known_values {w w' : World L} (h : w.Le w') {x : Nat} (hx : w.known x) :
    w'.values x = w.values x := h.values x (w.known_lt x hx)

theorem Le.agrees {w w' : World L} (h : w.Le w') {τ : Nat → V} (hτ : w'.Agrees τ) : w.Agrees τ :=
  fun x hx => (hτ x (h.known x hx)).trans (h.known_values hx)

end World

/-! ## Encoders -/

/-- What is new in `w'` is known there. -/
def World.Settles (w w' : World L) : Prop :=
  w.free ∨ ∀ x, w.store.next ≤ x → x < w'.store.next → w'.known x

theorem World.Settles.trans {w w' w'' : World L} (h : w.Settles w') (h' : w'.Settles w'')
    (hle : w.Le w') (hle' : w'.Le w'') : w.Settles w'' := by
  rcases h with hf | h
  · exact Or.inl hf
  · rcases h' with hf | h'
    · exact Or.inl (hle.free.mp hf)
    · refine Or.inr fun x hx hx' => ?_
      rcases Nat.lt_or_ge x w'.store.next with hlt | hge
      · exact hle'.known x (h x hx hlt)
      · exact h' x hge hx'

/-- `m` leads from `w` to a world that extends it, where what is new is known, and that has `Q`. -/
def Makes (m : Post C α) (w : World L) (Q : α → World L → Prop) : Prop :=
  ∃ a w', m w.store = some (a, w'.store) ∧ w.Le w' ∧ w.Settles w' ∧ Q a w'

variable {m : Post C α} {w : World L} {Q : α → World L → Prop}

theorem Makes.imp {Q' : α → World L → Prop} (h : Makes m w Q)
    (hQ : ∀ a w', w.Le w' → Q a w' → Q' a w') : Makes m w Q' := by
  obtain ⟨a, w', hm, hle, hset, hq⟩ := h
  exact ⟨a, w', hm, hle, hset, hQ a w' hle hq⟩

theorem makes_pure {a : α} (h : Q a w) : Makes (pure a) w Q :=
  ⟨a, w, rfl, World.Le.refl w, Or.inr fun _ hx hx' => absurd hx' (Nat.not_lt.mpr hx), h⟩

/-- **One encoder after another.** -/
theorem Makes.bind {f : α → Post C β} {R : β → World L → Prop} (h : Makes m w Q)
    (hf : ∀ a w', w.Le w' → Q a w' → Makes (f a) w' R) : Makes (m >>= f) w R := by
  obtain ⟨a, w', hm, hle, hset, hq⟩ := h
  obtain ⟨b, w'', hf', hle', hset', hr⟩ := hf a w' hle hq
  refine ⟨b, w'', ?_, hle.trans hle', hset.trans hset' hle hle', hr⟩
  change (m w.store).bind (fun p => f p.1 p.2) = _
  rw [hm]
  exact hf'

/-- A step that may fail, and does not. -/
theorem makes_lift {o : Option α} {a : α} (ho : o = some a) {f : α → Post C β}
    {R : β → World L → Prop} (h : Makes (f a) w R) : Makes (liftM o >>= f) w R := by
  subst ho
  exact h

/-- **A loop.** What a turn achieves is kept by the later ones. -/
theorem Makes.forM {l : List β} {f : β → Post C PUnit} (P : β → World L → Prop)
    (hP : ∀ b w w', w.Le w' → P b w → P b w')
    (h : ∀ b ∈ l, ∀ w', w.Le w' → Makes (f b) w' fun _ w'' => P b w'') :
    Makes (l.forM f) w fun _ w' => ∀ b ∈ l, P b w' := by
  induction l generalizing w with
  | nil => exact makes_pure (by simp)
  | cons b l ih =>
    refine (h b List.mem_cons_self w (World.Le.refl w)).bind fun _ w₁ hle hb => ?_
    refine (ih fun b' hb' w' hw' => h b' (List.mem_cons_of_mem b hb') w' (hle.trans hw')).imp
      fun _ w₂ hle₂ hl => ?_
    exact List.forall_mem_cons.mpr ⟨hP b w₁ w₂ hle₂ hb, hl⟩

/-- **A loop that collects**, over a list known to be that of `ks`. -/
theorem Makes.mapM₂ {K : Type} {R : K → β → Prop} {ks : List K} {l : List β} {f : β → Post C α}
    (hl : List.Forall₂ R ks l) (P : K → α → World L → Prop)
    (hP : ∀ k a w w', w.Le w' → P k a w → P k a w')
    (h : ∀ k b, R k b → ∀ w', w.Le w' → Makes (f b) w' fun a w'' => P k a w'') :
    Makes (l.mapM f) w fun as w' => List.Forall₂ (fun k a => P k a w') ks as := by
  induction hl generalizing w with
  | nil => exact makes_pure List.Forall₂.nil
  | @cons k b ks l hb _ ih =>
    rw [List.mapM_cons]
    refine (h k b hb w (World.Le.refl w)).bind fun a w₁ hle ha => ?_
    refine (ih fun k' b' hb' w' hw' => h k' b' hb' w' (hle.trans hw')).bind fun as w₂ hle₂ hl => ?_
    exact makes_pure (List.Forall₂.cons (hP k a w₁ w₂ hle₂ ha) hl)

theorem Makes.mapM {l : List β} {f : β → Post C α} (P : β → α → World L → Prop)
    (hP : ∀ b a w w', w.Le w' → P b a w → P b a w')
    (h : ∀ b ∈ l, ∀ w', w.Le w' → Makes (f b) w' fun a w'' => P b a w'') :
    Makes (l.mapM f) w fun as w' => List.Forall₂ (fun b a => P b a w') l as :=
  Makes.mapM₂ (R := fun a b => a = b ∧ b ∈ l) (List.forall₂_same.mpr fun _ hb => ⟨rfl, hb⟩) P hP
    fun k b hb => by
      obtain ⟨rfl, hb⟩ := hb
      exact h k hb

/-! ## Steps -/

/-- **Fresh variables**, with any values. What follows makes them known. -/
theorem makes_alloc {a : α} {s : Store C} (hm : m w.store = some (a, s))
    (hnext : w.store.next ≤ s.next) (hposted : s.posted = w.store.posted) {τ : Nat → V}
    (hτ : ∀ x < w.store.next, τ x = w.values x) {f : α → Post C β} {R : β → World L → Prop}
    (hf : ∀ w', w.Le w' → w'.store = s → w'.values = τ → Makes (f a) w' fun b w'' =>
      (∀ x, w.store.next ≤ x → x < s.next → w''.known x) ∧ R b w'') : Makes (m >>= f) w R := by
  have hlt : ∀ {x}, x < w.store.next → x < s.next := fun h => Nat.lt_of_lt_of_le h hnext
  let w' : World L := ⟨s, τ, w.known, w.free,
    fun c hc x hx => hlt (w.below c (hposted ▸ hc) x hx), fun c hc => by
      rw [hposted] at hc
      exact L.congr (fun x hx => hτ x (w.below c hc x hx)) (w.sat c hc),
    fun x hx => hlt (w.known_lt x hx)⟩
  have hle : w.Le w' := ⟨hnext, fun c hc => by rwa [show w'.store.posted = _ from hposted], hτ,
    fun _ h => h, Iff.rfl, fun σ _ hk x hx => (hk x hx).trans (hτ x (w.known_lt x hx)).symm⟩
  obtain ⟨b, w'', hf', hle', hset, hknown, hr⟩ := hf w' hle rfl rfl
  refine ⟨b, w'', ?_, hle.trans hle', hset.imp_right fun hset x hx hx' => ?_, hr⟩
  · change (m w.store).bind (fun p => f p.1 p.2) = _
    rw [hm]
    exact hf'
  · rcases Nat.lt_or_ge x s.next with hlt | hge
    · exact hknown x hx hlt
    · exact hset x hge hx'

/-- **Fresh variables that only all of what follows determines.** It may take them as known, and is
to give them these values in the end. -/
theorem makes_alloc_later {a : α} {s : Store C} (hm : m w.store = some (a, s))
    (hnext : w.store.next ≤ s.next) (hposted : s.posted = w.store.posted) {τ : Nat → V}
    (hτ : ∀ x < w.store.next, τ x = w.values x) {f : α → Post C β} {R : β → World L → Prop}
    (hf : ∀ w' : World L, w'.store = s → w'.values = τ →
      (∀ x, w'.known x ↔ w.known x ∨ w.store.next ≤ x ∧ x < s.next) →
      Makes (f a) w' fun b w'' =>
        (∀ σ, w''.store.Sat L σ → w.Agrees σ → w'.Agrees σ) ∧ R b w'') :
    Makes (m >>= f) w R := by
  have hlt : ∀ {x}, x < w.store.next → x < s.next := fun h => Nat.lt_of_lt_of_le h hnext
  let w' : World L := ⟨s, τ, fun x => w.known x ∨ w.store.next ≤ x ∧ x < s.next, w.free,
    fun c hc x hx => hlt (w.below c (hposted ▸ hc) x hx), fun c hc => by
      rw [hposted] at hc
      exact L.congr (fun x hx => hτ x (w.below c hc x hx)) (w.sat c hc),
    fun x hx => hx.elim (fun h => hlt (w.known_lt x h)) fun h => h.2⟩
  obtain ⟨b, w'', hf', hle, hset, hforced, hr⟩ := hf w' rfl rfl fun _ => Iff.rfl
  refine ⟨b, w'', ?_, ⟨Nat.le_trans hnext hle.next, fun c hc => ?_, fun x hx => ?_, fun x hx => ?_,
    hle.free, fun σ hσ hk => hle.forced σ hσ (hforced σ hσ hk)⟩,
    hset.imp_right fun hset x hx hx' => ?_, hr⟩
  · change (m w.store).bind (fun p => f p.1 p.2) = _
    rw [hm]
    exact hf'
  · exact hle.posted c (by rwa [show w'.store.posted = _ from hposted])
  · exact (hle.values x (hlt hx)).trans (hτ x hx)
  · exact hle.known x (Or.inl hx)
  · rcases Nat.lt_or_ge x s.next with hlt | hge
    · exact hle.known x (Or.inr ⟨hx, hlt⟩)
    · exact hset x hge hx'

/-- A fresh variable. -/
theorem makes_fresh (v : V) {f : Nat → Post C β} {R : β → World L → Prop}
    (hf : ∀ x w', w.Le w' → x < w'.store.next → w'.values x = v →
      Makes (f x) w' fun b w'' => w''.known x ∧ R b w'') : Makes (fresh >>= f) w R := by
  refine makes_alloc (s := { w.store with next := w.store.next + 1 }) rfl (Nat.le_succ _) rfl
    (fun x hx => Function.update_of_ne (Nat.ne_of_lt hx) v w.values) fun w' hle hs hv => ?_
  refine (hf w.store.next w' hle (hs ▸ Nat.lt_succ_self _) (hv ▸ Function.update_self ..)).imp
    fun b w'' _ h => ⟨fun x hx hx' => ?_, h.2⟩
  rw [Nat.le_antisymm (Nat.le_of_lt_succ hx') hx]
  exact h.1

/-- **A constraint that holds** makes known what it determines. -/
theorem makes_define {c : C} (P : Nat → Prop) (hP : ∀ x, P x → x < w.store.next)
    (hb : ∀ y ∈ L.vars c, y < w.store.next) (hc : L.Holds w.values c)
    (hdet : ∀ τ, w.store.Sat L τ → w.Agrees τ → L.Holds τ c → ∀ x, P x → τ x = w.values x) :
    Makes (post c) w fun _ w' => c ∈ w'.store.posted ∧ ∀ x, P x → w'.known x := by
  refine ⟨(), ⟨{ w.store with posted := w.store.posted ++ [c] }, w.values,
    fun y => P y ∨ w.known y, w.free, List.forall_mem_append.mpr ⟨w.below, by simpa using hb⟩,
    List.forall_mem_append.mpr ⟨w.sat, by simpa using hc⟩, fun y hy => ?_⟩, rfl, ?_,
    Or.inr fun _ hx hx' => absurd hx' (Nat.not_lt.mpr hx),
    List.mem_append_right _ List.mem_cons_self, fun x hx => Or.inl hx⟩
  · exact hy.elim (hP y) (w.known_lt y)
  · refine ⟨Nat.le_refl _, fun _ h => List.mem_append_left _ h, fun _ _ => rfl, fun _ h => Or.inr h,
      Iff.rfl, fun τ hτ hk y hy => ?_⟩
    obtain ⟨hold, hnew⟩ := List.forall_mem_append.mp hτ
    exact hy.elim (hdet τ hold hk (hnew c List.mem_cons_self) y) (hk y)

/-- A constraint that holds. -/
theorem makes_post {c : C} (hb : ∀ y ∈ L.vars c, y < w.store.next) (hc : L.Holds w.values c) :
    Makes (post c) w fun _ w' => c ∈ w'.store.posted :=
  (makes_define (fun _ => False) (fun _ h => h.elim) hb hc fun _ _ _ _ _ h => h.elim).imp
    fun _ _ _ h => h.1

end SymBreak.Declare
