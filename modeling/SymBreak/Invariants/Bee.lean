import SymBreak.Lib.Declare
import SymBreak.Graph

/-!
# Constraints of BEE

The constraints that `pair_invariants.pl` and `vertex_invariants.pl` post, with their standard
meaning, and what these files use of the libraries of BEE (`Auxs`), which are not in the repository.
A logic variable is a number, from a supply; a truth value is `1` or `-1`, as BEE writes it, so a
minus negates Booleans and integers alike. `Auxs.Documented` is what is relied on: matrices are
symmetric, of fresh variables, and `degrees` gives the degrees.

`Reads w t v`: the term `t` is known in the world `w` and has the value `v`; `ReadsAll` and
`ReadsMatrix` are the same for lists and matrices. They are kept when more is posted.
-/

namespace SymBreak.Bee

open Declare

/-! ## Terms and constraints -/

/-- A term: a logic variable, an integer or a negation. -/
inductive Term
  | var (x : Nat)
  | int (k : Int)
  | neg (t : Term)

namespace Term

def vars : Term → List Nat
  | .var x => [x]
  | .int _ => []
  | .neg t => t.vars

def eval (σ : Nat → Int) : Term → Int
  | .var x => σ x
  | .int k => k
  | .neg t => -(t.eval σ)

theorem eval_congr {σ τ : Nat → Int} : ∀ {t : Term}, (∀ x ∈ t.vars, τ x = σ x) → t.eval τ = t.eval σ
  | .var x, h => h x List.mem_cons_self
  | .int _, _ => rfl
  | .neg t, h => congrArg Neg.neg (eval_congr (t := t) h)

end Term

/-- Truth values are `1` and `-1`. -/
def truth (b : Bool) : Int := if b then 1 else -1

@[simp] theorem truth_eq_one {b : Bool} : truth b = 1 ↔ b = true := by
  cases b <;> simp [truth]

@[simp] theorem truth_beq_one (b : Bool) : (truth b == 1) = b := by
  cases b <;> rfl

@[simp] theorem neg_truth (b : Bool) : -truth b = truth !b := by
  cases b <;> rfl

/-- The constraints that the invariants post. -/
inductive Constraint
  | newInt (x : Term) (lo hi : Int)
  | newIntMulK (x y : Term) (k : Int)
  | intMin (x y z : Term)
  | intMax (x y z : Term)
  | intEqReif (x : Term) (k : Int) (b : Term)
  | boolArrayOr (bs : List Term)
  | boolArrayAndReif (bs : List Term) (b : Term)
  | boolArrayOrReif (bs : List Term) (b : Term)
  | boolArraySumEq (bs : List Term) (x : Term)
  | intArraySumCondEq (bs xs : List Term) (x : Term)
  | intArraysLex (xs ys : List Term)

namespace Constraint

def terms : Constraint → List Term
  | .newInt x _ _ => [x]
  | .newIntMulK x y _ => [x, y]
  | .intMin x y z => [x, y, z]
  | .intMax x y z => [x, y, z]
  | .intEqReif x _ b => [x, b]
  | .boolArrayOr bs => bs
  | .boolArrayAndReif bs b => b :: bs
  | .boolArrayOrReif bs b => b :: bs
  | .boolArraySumEq bs x => x :: bs
  | .intArraySumCondEq bs xs x => x :: (bs ++ xs)
  | .intArraysLex xs ys => xs ++ ys

/-- The meaning of a constraint. -/
def Holds (σ : Nat → Int) : Constraint → Prop
  | .newInt x lo hi => lo ≤ x.eval σ ∧ x.eval σ ≤ hi
  | .newIntMulK x y k => x.eval σ = y.eval σ * k
  | .intMin x y z => z.eval σ = min (x.eval σ) (y.eval σ)
  | .intMax x y z => z.eval σ = max (x.eval σ) (y.eval σ)
  | .intEqReif x k b => b.eval σ = truth (x.eval σ == k)
  | .boolArrayOr bs => (bs.map (Term.eval σ)).any (· == 1) = true
  | .boolArrayAndReif bs b => b.eval σ = truth ((bs.map (Term.eval σ)).all (· == 1))
  | .boolArrayOrReif bs b => b.eval σ = truth ((bs.map (Term.eval σ)).any (· == 1))
  | .boolArraySumEq bs x => x.eval σ = (bs.map (Term.eval σ)).count 1
  | .intArraySumCondEq bs xs x => x.eval σ =
      (List.zipWith (fun b y => if b = 1 then y else 0) (bs.map (Term.eval σ))
        (xs.map (Term.eval σ))).sum
  | .intArraysLex xs ys => xs.map (Term.eval σ) ≤ ys.map (Term.eval σ)

end Constraint

/-- A constraint depends on the values of its terms. -/
theorem Constraint.holds_congr {c : Constraint} {σ τ : Nat → Int}
    (ht : ∀ t ∈ c.terms, t.eval τ = t.eval σ) (hc : c.Holds σ) : c.Holds τ := by
  have hmap : ∀ ts : List Term, (∀ t ∈ ts, t ∈ c.terms) →
      ts.map (Term.eval τ) = ts.map (Term.eval σ) := fun ts hts =>
    List.map_congr_left fun t h => ht t (hts t h)
  cases c with
  | newInt x lo hi => simpa only [Holds, ht x (by simp [terms])] using hc
  | newIntMulK x y k => simpa only [Holds, ht x (by simp [terms]), ht y (by simp [terms])] using hc
  | intMin x y z | intMax x y z =>
    simpa only [Holds, ht x (by simp [terms]), ht y (by simp [terms]),
      ht z (by simp [terms])] using hc
  | intEqReif x k b => simpa only [Holds, ht x (by simp [terms]), ht b (by simp [terms])] using hc
  | boolArrayOr bs => simpa only [Holds, hmap bs (by simp [terms])] using hc
  | boolArrayAndReif bs b | boolArrayOrReif bs b =>
    simpa only [Holds, ht b (by simp [terms]), hmap bs (by simp +contextual [terms])] using hc
  | boolArraySumEq bs x =>
    simpa only [Holds, ht x (by simp [terms]), hmap bs (by simp +contextual [terms])] using hc
  | intArraySumCondEq bs xs x =>
    simpa only [Holds, ht x (by simp [terms]), hmap bs (by simp +contextual [terms]),
      hmap xs (by simp +contextual [terms])] using hc
  | intArraysLex xs ys =>
    simpa only [Holds, hmap xs (by simp +contextual [terms]),
      hmap ys (by simp +contextual [terms])] using hc

/-- The constraints as a language. -/
def bee : Language Int Constraint where
  vars c := c.terms.flatMap Term.vars
  Holds := Constraint.Holds
  congr h := Constraint.holds_congr fun t ht =>
    Term.eval_congr fun x hx => h x (List.mem_flatMap.mpr ⟨t, ht, hx⟩)

/-! ## Lists and matrices -/

/-- `nth1(I, List, Elem)` -/
def nth1 {α : Type} (i : Nat) (l : List α) : Option α := if i = 0 then none else l[i - 1]?

/-- `nth1(I, List, _, Rest)` -/
def nth1Rest {α : Type} (i : Nat) (l : List α) : Option (List α) :=
  if i = 0 ∨ l.length < i then none else some (l.eraseIdx (i - 1))

/-- `between(Low, High, X)`, all solutions. -/
def between (low high : Nat) : List Nat := List.range' low (high + 1 - low)

/-- A matrix, by rows. -/
abbrev Rows := List (List Term)

/-- The predicates of BEE's own libraries: `auxAdjacencyMatrix:createAdjacencyMatrix`,
`auxAdjacencyMatrix:degrees` and `auxMatrix:matrixGetCell`. -/
structure Auxs where
  createAdjacencyMatrix : Nat → Term → Post Constraint Rows
  degrees : Rows → Post Constraint (List Term)
  matrixGetCell : Rows → Nat → Nat → Option Term

/-- The symmetric matrix with `d` on the diagonal and the variable `x i j` at `i < j`. -/
def symmetricMatrix (n : Nat) (d : Term) (x : Nat → Nat → Nat) : Rows :=
  (List.range n).map fun i => (List.range n).map fun j =>
    if i = j then d else .var (x (min i j) (max i j))

/-! ## What is known -/

/-- The term is known in `w`, and has the value `v`. -/
structure Reads (w : World bee) (t : Term) (v : Int) : Prop where
  known : ∀ x ∈ t.vars, w.known x
  eval : t.eval w.values = v

/-- The terms are known in `w`, and have the values `vs`. -/
structure ReadsAll (w : World bee) (ts : List Term) (vs : List Int) : Prop where
  known : ∀ t ∈ ts, ∀ x ∈ t.vars, w.known x
  eval : ts.map (Term.eval w.values) = vs

/-- The matrix is known in `w`, and has the entries `v i j`. -/
structure ReadsMatrix (w : World bee) (m : Rows) (n : Nat) (v : Nat → Nat → Int) : Prop where
  length : m.length = n
  row : ∀ i < n, ∃ row, m[i]? = some row ∧ ReadsAll w row ((List.range n).map (v i))

variable {w w' : World bee} {t : Term} {ts : List Term} {v : Int} {vs : List Int}

/-- Values that agree with those known give known terms their values. -/
theorem Reads.agrees (h : Reads w t v) {τ : Nat → Int} (hτ : w.Agrees τ) : t.eval τ = v :=
  (Term.eval_congr fun x hx => hτ x (h.known x hx)).trans h.eval

theorem ReadsAll.agrees (h : ReadsAll w ts vs) {τ : Nat → Int} (hτ : w.Agrees τ) :
    ts.map (Term.eval τ) = vs :=
  (List.map_congr_left fun t ht =>
    Term.eval_congr fun x hx => hτ x (h.known t ht x hx)).trans h.eval

theorem agrees_of_le (h : w.Le w') : w.Agrees w'.values := fun _ hx => h.known_values hx

theorem Reads.mono (h : Reads w t v) (hle : w.Le w') : Reads w' t v :=
  ⟨fun x hx => hle.known x (h.known x hx), h.agrees (agrees_of_le hle)⟩

theorem ReadsAll.mono (h : ReadsAll w ts vs) (hle : w.Le w') : ReadsAll w' ts vs :=
  ⟨fun t ht x hx => hle.known x (h.known t ht x hx), h.agrees (agrees_of_le hle)⟩

theorem ReadsAll.cons_inv {v : Int} (h : ReadsAll w ts (v :: vs)) :
    ∃ t ts', ts = t :: ts' ∧ Reads w t v ∧ ReadsAll w ts' vs := by
  obtain ⟨t, ts', rfl, ht, hts⟩ := List.map_eq_cons_iff.mp h.eval
  exact ⟨t, ts', rfl, ⟨h.known t List.mem_cons_self, ht⟩,
    fun t' ht' => h.known t' (List.mem_cons_of_mem t ht'), hts⟩

theorem Reads.cons (h : Reads w t v) (hs : ReadsAll w ts vs) : ReadsAll w (t :: ts) (v :: vs) :=
  ⟨List.forall_mem_cons.mpr ⟨h.known, hs.known⟩, by rw [List.map_cons, h.eval, hs.eval]⟩

/-- The negated list. -/
theorem ReadsAll.neg {α : Type} {l : List α} {f : α → Bool}
    (h : ReadsAll w ts (l.map fun a => truth (f a))) :
    ReadsAll w (ts.map .neg) (l.map fun a => truth !f a) := by
  refine ⟨fun t ht => ?_, ?_⟩
  · obtain ⟨t', ht', rfl⟩ := List.mem_map.mp ht
    exact h.known t' ht'
  · have := congrArg (List.map Neg.neg) h.eval
    simpa [Function.comp_def, Term.eval] using this

/-- Term by term. -/
theorem ReadsAll.forall₂ (h : ReadsAll w ts vs) : List.Forall₂ (fun v t => Reads w t v) vs ts := by
  induction vs generalizing ts with
  | nil =>
    obtain rfl := List.map_eq_nil_iff.mp h.eval
    exact List.Forall₂.nil
  | cons v vs ih =>
    obtain ⟨t, ts, rfl, ht, hts⟩ := h.cons_inv
    exact List.Forall₂.cons ht (ih hts)

theorem readsAll_of_forall₂ {α : Type} {l : List α} {f : α → Int}
    (h : List.Forall₂ (fun a t => Reads w t (f a)) l ts) : ReadsAll w ts (l.map f) := by
  induction h with
  | nil => exact ⟨by simp, rfl⟩
  | cons h _ ih => exact h.cons ih

/-- Row by row. -/
theorem ReadsMatrix.forall₂ {m : Rows} {n : Nat} {v : Nat → Nat → Int} (h : ReadsMatrix w m n v) :
    List.Forall₂ (fun i row => ReadsAll w row ((List.range n).map (v i))) (List.range n) m := by
  rw [List.forall₂_iff_get]
  refine ⟨by rw [List.length_range, h.length], fun i hi hi' => ?_⟩
  rw [List.length_range] at hi
  obtain ⟨row, hrow, hr⟩ := h.row i hi
  rw [List.getElem?_eq_getElem hi', Option.some_inj] at hrow
  rw [List.get_eq_getElem, List.get_eq_getElem, List.getElem_range, hrow]
  exact hr

theorem readsMatrix_of_forall₂ {m : Rows} {n : Nat} {v : Nat → Nat → Int}
    (h : List.Forall₂ (fun i row => ReadsAll w row ((List.range n).map (v i))) (List.range n) m) :
    ReadsMatrix w m n v := by
  have hlen : m.length = n := by simpa using h.length_eq.symm
  refine ⟨hlen, fun i hi => ⟨_, List.getElem?_eq_getElem (hlen.symm ▸ hi), ?_⟩⟩
  have := h.get (by simpa using hi) (hlen.symm ▸ hi)
  simpa using this

/-- It is known wherever its variables are, with the same values. -/
theorem ReadsMatrix.of_agrees {m : Rows} {n : Nat} {v : Nat → Nat → Int} (h : ReadsMatrix w m n v)
    (hknown : ∀ x, w.known x → w'.known x) (hw : w.Agrees w'.values) : ReadsMatrix w' m n v := by
  refine ⟨h.length, fun i hi => ?_⟩
  obtain ⟨row, hrow, hr⟩ := h.row i hi
  exact ⟨row, hrow, fun t ht x hx => hknown x (hr.known t ht x hx), hr.agrees hw⟩

theorem ReadsMatrix.mono {m : Rows} {n : Nat} {v : Nat → Nat → Int} (h : ReadsMatrix w m n v)
    (hle : w.Le w') : ReadsMatrix w' m n v := h.of_agrees hle.known (agrees_of_le hle)

/-- The entries of a matrix that is known. -/
theorem ReadsMatrix.agrees {m : Rows} {n : Nat} {v : Nat → Nat → Int} (h : ReadsMatrix w m n v)
    {τ : Nat → Int} (hτ : w.Agrees τ) :
    m.map (·.map (Term.eval τ)) = (List.range n).map fun i => (List.range n).map (v i) := by
  rw [← List.forall₂_eq_eq_eq, List.forall₂_map_left_iff, List.forall₂_map_right_iff]
  exact h.forall₂.flip.imp fun _ _ h => h.agrees hτ

/-- A matrix of known terms has the entries that it is evaluated to. -/
theorem readsMatrix_of_map {m : Rows} {n : Nat} {v : Nat → Nat → Int}
    (hknown : ∀ row ∈ m, ∀ t ∈ row, ∀ x ∈ t.vars, w.known x)
    (h : m.map (·.map (Term.eval w.values)) =
      (List.range n).map fun i => (List.range n).map (v i)) :
    ReadsMatrix w m n v := by
  have hlen : m.length = n := by simpa using congrArg List.length h
  refine ⟨hlen, fun i hi => ⟨_, List.getElem?_eq_getElem (hlen.symm ▸ hi),
    hknown _ (List.getElem_mem _), ?_⟩⟩
  have hi' := congrArg (fun l => l[i]?) h
  simpa [List.getElem?_eq_getElem (hlen.symm ▸ hi), hi] using hi'

/-- A logic variable that a constraint defines. -/
def define (c : Term → Constraint) : Post Constraint Term := do
  let z ← fresh
  post (c (.var z))
  return .var z

/-- `new_int(X,0,Max), bool_array_sum_eq(Bs,X)` -/
def countEq (x : Term) (max : Int) (bs : List Term) : Post Constraint Unit := do
  post (.newInt x 0 max)
  post (.boolArraySumEq bs x)

theorem ReadsMatrix.congr {m : Rows} {n : Nat} {v v' : Nat → Nat → Int} (h : ReadsMatrix w m n v)
    (hv : ∀ i < n, ∀ j < n, v i j = v' i j) : ReadsMatrix w m n v' := by
  refine ⟨h.length, fun i hi => ?_⟩
  obtain ⟨row, hrow, hr⟩ := h.row i hi
  refine ⟨row, hrow, hr.known, hr.eval.trans (List.map_congr_left fun j hj => ?_)⟩
  exact hv i hi j (List.mem_range.mp hj)

/-- A new integer that counts. -/
def countOf (max : Int) (bs : List Term) : Post Constraint Term := do
  let x ← fresh
  countEq (.var x) max bs
  return .var x

/-- What is relied on of BEE's libraries: a cell is the entry of its row; a new matrix is symmetric,
of fresh variables, and posts nothing; `degrees` gives the degrees, as known terms, and may leave
other variables free. -/
structure Auxs.Documented (aux : Auxs) : Prop where
  matrixGetCell : ∀ m i j, aux.matrixGetCell m i j = (nth1 i m).bind (nth1 j)
  createAdjacencyMatrix : ∀ n d s, ∃ x s',
    aux.createAdjacencyMatrix n d s = some (symmetricMatrix n d x, s') ∧ s'.posted = s.posted ∧
      s.next ≤ s'.next ∧ (∀ i j, i < j → j < n → s.next ≤ x i j ∧ x i j < s'.next) ∧
      (∀ i j k l, i < j → j < n → k < l → l < n → x i j = x k l → i = k ∧ j = l) ∧
      ∀ y, s.next ≤ y → y < s'.next → ∃ i j, i < j ∧ j < n ∧ y = x i j
  degrees : ∀ (w : World bee), w.free → ∀ {n : Nat} (G : Graph n) (m : Rows),
    ReadsMatrix w m n (fun i j => truth (G.adj i j)) → Makes (aux.degrees m) w fun ds w' =>
      ReadsAll w' ds ((List.range n).map fun i => (G.degree i : Int))

/-! ## Posting -/

/-- **A constraint that gives a variable the value it has** is posted and makes it known. -/
theorem makes_known_posted {c : Constraint} {x : Nat} (hx : x < w.store.next)
    (hterms : ∀ t ∈ c.terms, ∀ y ∈ t.vars, y = x ∨ w.known y)
    (hc : ∀ τ, w.store.Sat bee τ → w.Agrees τ → (c.Holds τ ↔ τ x = w.values x)) :
    Makes (post c) w fun _ w' => c ∈ w'.store.posted ∧ w'.known x := by
  refine (makes_define (· = x) (by rintro _ rfl; exact hx) (fun y hy => ?_)
    ((hc _ w.sat fun _ _ => rfl).mpr rfl) ?_).imp fun _ _ _ h => ⟨h.1, h.2 x rfl⟩
  · obtain ⟨t, ht, hy⟩ := List.mem_flatMap.mp hy
    rcases hterms t ht y hy with rfl | hk
    · exact hx
    · exact w.known_lt y hk
  · rintro τ hτ hk hcτ _ rfl
    exact (hc τ hτ hk).mp hcτ

theorem makes_known {c : Constraint} {x : Nat} (hx : x < w.store.next)
    (hterms : ∀ t ∈ c.terms, ∀ y ∈ t.vars, y = x ∨ w.known y)
    (hc : ∀ τ, w.store.Sat bee τ → w.Agrees τ → (c.Holds τ ↔ τ x = w.values x)) :
    Makes (post c) w fun _ w' => w'.known x :=
  (makes_known_posted hx hterms hc).imp fun _ _ _ h => h.2

theorem makes_newInt {x : Nat} (hx : x < w.store.next) {lo hi : Int} (hlo : lo ≤ w.values x)
    (hhi : w.values x ≤ hi) : Makes (post (.newInt (.var x) lo hi)) w fun _ w' =>
      Constraint.newInt (.var x) lo hi ∈ w'.store.posted :=
  makes_post (by simpa [bee, Constraint.terms, Term.vars] using hx) ⟨hlo, hhi⟩

/-- **A defined variable** is known, with the value that its constraint gives. -/
theorem makes_defined_posted {c : Term → Constraint}
    (hterms : ∀ z, ∀ t ∈ (c (.var z)).terms, ∀ y ∈ t.vars, y = z ∨ w.known y)
    (hc : ∀ τ z, w.Agrees τ → ((c (.var z)).Holds τ ↔ τ z = v)) :
    Makes (define c) w fun t w' => c t ∈ w'.store.posted ∧ Reads w' t v := by
  refine makes_fresh v fun z w₁ hle hz hv => ?_
  refine (makes_known_posted hz (fun t ht y hy => (hterms z t ht y hy).imp_right (hle.known y))
    fun τ _ hτ => ?_).bind fun _ w₂ hle₂ hk => ?_
  · rw [hc τ z (hle.agrees hτ), hv]
  · refine makes_pure ⟨hk.2, hk.1, fun y hy => ?_, (hle₂.values z hz).trans hv⟩
    rw [List.mem_singleton.mp hy]
    exact hk.2

theorem makes_defined {c : Term → Constraint}
    (hterms : ∀ z, ∀ t ∈ (c (.var z)).terms, ∀ y ∈ t.vars, y = z ∨ w.known y)
    (hc : ∀ τ z, w.Agrees τ → ((c (.var z)).Holds τ ↔ τ z = v)) :
    Makes (define c) w fun t w' => Reads w' t v :=
  (makes_defined_posted hterms hc).imp fun _ _ _ h => h.2

/-- **A count** that is within its bound. -/
theorem makes_countEq {α : Type} {x : Nat} {l : List α} {f : α → Bool} {max : Int}
    (hx : x < w.store.next) (hv : w.values x = l.countP f) (hmax : (l.countP f : Int) ≤ max)
    {bs : List Term} (hbs : ReadsAll w bs (l.map fun a => truth (f a))) :
    Makes (countEq (.var x) max bs) w fun _ w' => w'.known x := by
  refine (makes_newInt hx (by rw [hv]; exact Int.natCast_nonneg _) (by rw [hv]; exact hmax)).bind
    fun _ w₁ hle _ => ?_
  refine makes_known (Nat.lt_of_lt_of_le hx hle.next) (fun t ht y hy => ?_) fun τ _ hτ => ?_
  · rcases List.mem_cons.mp ht with rfl | ht
    · exact Or.inl (List.mem_singleton.mp hy)
    · exact Or.inr (hle.known y (hbs.known t ht y hy))
  · have hcount : (l.map fun a => truth (f a)).count 1 = l.countP f := by
      rw [List.count, List.countP_map]
      exact List.countP_congr fun a _ => by simp
    simp only [Constraint.Holds, Term.eval]
    rw [hbs.agrees (hle.agrees hτ), hcount, hle.values x hx, hv]

theorem makes_countOf {α : Type} {l : List α} {f : α → Bool} {max : Int}
    (hmax : (l.countP f : Int) ≤ max) {bs : List Term}
    (hbs : ReadsAll w bs (l.map fun a => truth (f a))) :
    Makes (countOf max bs) w fun t w' => Reads w' t (l.countP f) := by
  refine makes_fresh (l.countP f : Int) fun x w₁ hle hx hv => ?_
  refine (makes_countEq hx hv hmax (hbs.mono hle)).bind fun _ w₂ hle₂ hk => ?_
  refine makes_pure ⟨hk, fun y hy => ?_, (hle₂.values x hx).trans hv⟩
  rw [List.mem_singleton.mp hy]
  exact hk

end SymBreak.Bee
