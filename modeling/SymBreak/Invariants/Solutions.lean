import SymBreak.Invariants.PairInvariants
import SymBreak.Invariants.Values
import Mathlib.Algebra.Order.BigOperators.Group.List

/-!
# The solutions of the pair invariants

In a world where the adjacency matrix is that of a graph, the constraints of every pair invariant
can be satisfied, and force the values of `Values.lean` on its matrix: no bound of a `new_int` is
too small.

Results:
* **`pairMatrix_spec`**: a matrix holds what its turns make known;
-/

namespace SymBreak.PairInvariants

open Declare Bee Invariants

variable {n : Nat} {w w' : World bee}

/-! ## Lists -/

theorem nth1_succ {α : Type} (i : Nat) (l : List α) : nth1 (i + 1) l = l[i]? := by
  simp [nth1]

theorem mem_between {a b k : Nat} : k ∈ between a b ↔ a ≤ k ∧ k ≤ b := by
  unfold between
  rw [List.mem_range'_1]
  omega

theorem nodup_between (a b : Nat) : (between a b).Nodup := List.nodup_range'

theorem between_one (n : Nat) : between 1 n = (List.range n).map (· + 1) := by
  unfold between
  rw [List.range'_eq_map_range, Nat.add_sub_cancel]
  exact List.map_congr_left fun i _ => Nat.add_comm 1 i

/-- The pairs of vertices. -/
theorem mem_pairs {p : Nat × Nat} :
    p ∈ pairs n ↔ ∃ i j, i < j ∧ j < n ∧ p = (i + 1, j + 1) := by
  obtain ⟨a, b⟩ := p
  simp only [pairs, List.mem_flatMap, List.mem_map, List.mem_filter, mem_between,
    decide_eq_true_eq, Prod.mk.injEq]
  constructor
  · rintro ⟨i, hi, j, ⟨hj, hij⟩, rfl, rfl⟩
    exact ⟨i - 1, j - 1, by omega, by omega, by omega, by omega⟩
  · rintro ⟨i, j, hij, hj, rfl, rfl⟩
    exact ⟨i + 1, by omega, j + 1, ⟨by omega, by omega⟩, rfl, rfl⟩

/-- Deleting two columns. -/
theorem eraseIdx_range {i j : Nat} (hij : i < j) (hj : j < n) :
    ((List.range n).eraseIdx j).eraseIdx i = others n i j := by
  have h1 : (List.range n).eraseIdx j = (List.range n).erase j := by
    have := (List.nodup_range (n := n)).erase_getElem j (by simpa using hj)
    rwa [List.getElem_range, eq_comm] at this
  have h2 : ((List.range n).eraseIdx j).eraseIdx i = ((List.range n).eraseIdx j).erase i := by
    have hi : i < ((List.range n).eraseIdx j).length := by
      rw [List.length_eraseIdx_of_lt (by simpa using hj), List.length_range]
      omega
    have := (List.nodup_range.eraseIdx j).erase_getElem i hi
    rwa [List.getElem_eraseIdx_of_lt _ hij, List.getElem_range, eq_comm] at this
  rw [h2, h1, List.Nodup.erase_eq_filter (List.nodup_range.erase j),
    List.Nodup.erase_eq_filter List.nodup_range, List.filter_filter]
  exact List.filter_congr fun k _ => by rw [Bool.eq_iff_iff]; simp

theorem length_others {i j : Nat} (hij : i < j) (hj : j < n) : (others n i j).length = n - 2 := by
  have hj' : j < (List.range n).length := by simpa using hj
  rw [← eraseIdx_range hij hj, List.length_eraseIdx_of_lt, List.length_eraseIdx_of_lt hj',
    List.length_range]
  · omega
  · rw [List.length_eraseIdx_of_lt hj', List.length_range]
    omega

theorem countP_others_le {i j : Nat} (hij : i < j) (hj : j < n) (f : Nat → Bool) :
    (others n i j).countP f ≤ n - 2 := by
  rw [← length_others hij hj]
  exact List.countP_le_length

/-- `shorten` keeps the columns of the other vertices. -/
theorem shorten_of_reads {row : List Term} {u : Nat → Int}
    (h : ReadsAll w row ((List.range n).map u)) {i j : Nat} (hij : i < j) (hj : j < n) :
    ∃ vec, shorten (i + 1) (j + 1) row = some vec ∧ ReadsAll w vec ((others n i j).map u) := by
  have hlen : row.length = n := by simpa using congrArg List.length h.eval
  have hlen' : (row.eraseIdx j).length = n - 1 := by
    rw [List.length_eraseIdx_of_lt (by omega), hlen]
  refine ⟨(row.eraseIdx j).eraseIdx i, ?_, fun t ht => h.known t
    (List.mem_of_mem_eraseIdx (List.mem_of_mem_eraseIdx ht)), ?_⟩
  · unfold shorten nth1Rest
    rw [if_neg (by omega), if_neg (by omega), Option.bind_some, Nat.add_sub_cancel,
      if_neg (by omega)]
    rfl
  · rw [← List.eraseIdx_map, ← List.eraseIdx_map, h.eval, List.eraseIdx_map, List.eraseIdx_map,
      eraseIdx_range hij hj]

/-! ## Gates -/

/-- The gate computes the operation. -/
structure Computes (gate : Term → Term → Term → Constraint) (op : Bool → Bool → Bool) : Prop where
  vars : ∀ x y z, ∀ t ∈ (gate x y z).terms, ∀ v ∈ t.vars, v ∈ z.vars ∨ v ∈ x.vars ∨ v ∈ y.vars
  holds : ∀ σ x y z a b, x.eval σ = truth a → y.eval σ = truth b →
    ((gate x y z).Holds σ ↔ z.eval σ = truth (op a b))

theorem andGate_computes : Computes andGate (· && ·) where
  vars x y z := by simp +contextual [andGate, Constraint.terms]
  holds σ x y z a b hx hy := by
    simp [andGate, Constraint.Holds, hx, hy]

theorem orGate_computes : Computes orGate (· || ·) where
  vars x y z := by simp +contextual [orGate, Constraint.terms]
  holds σ x y z a b hx hy := by
    simp [orGate, Constraint.Holds, hx, hy]

theorem nandGate_computes : Computes nandGate (!· || !·) where
  vars x y z := by simp +contextual [nandGate, Constraint.terms, Term.vars]
  holds σ x y z a b hx hy := by
    simp [nandGate, Constraint.Holds, Term.eval, hx, hy]

theorem norGate_computes : Computes norGate (!· && !·) where
  vars x y z := by simp +contextual [norGate, Constraint.terms, Term.vars]
  holds σ x y z a b hx hy := by
    simp [norGate, Constraint.Holds, Term.eval, hx, hy]

variable {gate : Term → Term → Term → Constraint} {op : Bool → Bool → Bool}

/-- **The gates of two rows.** -/
theorem bitwise_spec {α : Type} (hgate : Computes gate op) {l : List α} {f g : α → Bool} :
    ∀ {w : World bee} {xs ys : List Term}, ReadsAll w xs (l.map fun a => truth (f a)) →
      ReadsAll w ys (l.map fun a => truth (g a)) → Makes (bitwise gate xs ys) w fun zs w' =>
        ReadsAll w' zs (l.map fun a => truth (op (f a) (g a))) := by
  induction l with
  | nil =>
    intro w xs ys hxs hys
    obtain rfl := List.map_eq_nil_iff.mp hxs.eval
    obtain rfl := List.map_eq_nil_iff.mp hys.eval
    exact makes_pure ⟨by simp, rfl⟩
  | cons a l ih =>
    intro w xs ys hxs hys
    obtain ⟨x, xs, rfl, hx, hxs⟩ := hxs.cons_inv
    obtain ⟨y, ys, rfl, hy, hys⟩ := hys.cons_inv
    refine (makes_defined (v := truth (op (f a) (g a))) (fun z t ht v hv => ?_)
      fun τ z hτ => ?_).bind fun z w₁ hle hz => ?_
    · rcases hgate.vars x y (.var z) t ht v hv with h | h | h
      · exact Or.inl (List.mem_singleton.mp h)
      · exact Or.inr (hx.known v h)
      · exact Or.inr (hy.known v h)
    · exact hgate.holds τ x y _ _ _ (hx.agrees hτ) (hy.agrees hτ)
    · refine (ih (hxs.mono hle) (hys.mono hle)).bind fun zs w₂ hle₂ hzs => makes_pure ?_
      exact (hz.mono hle₂).cons hzs

/-! ## Matrices -/

/-- A row of a matrix that is known. -/
theorem nth1_of_reads {m : Rows} {v : Nat → Nat → Int} (h : ReadsMatrix w m n v) {i : Nat}
    (hi : i < n) : ∃ row, nth1 (i + 1) m = some row ∧
      ReadsAll w row ((List.range n).map (v i)) := by
  rw [nth1_succ]
  exact h.row i hi

/-- An element of a list that is known. -/
theorem nth1_of_readsAll {α : Type} {ts : List Term} {l : List α} {f : α → Int}
    (h : ReadsAll w ts (l.map f)) {i : Nat} (hi : i < l.length) :
    ∃ t, nth1 (i + 1) ts = some t ∧ Reads w t (f l[i]) := by
  have hlen : ts.length = l.length := by simpa using congrArg List.length h.eval
  have hget : ts[i]? = some ts[i] := List.getElem?_eq_getElem (by omega)
  refine ⟨ts[i], by rw [nth1_succ, hget], h.known _ (List.getElem_mem _), ?_⟩
  have := congrArg (fun l => l[i]?) h.eval
  simpa [List.getElem?_eq_getElem hi, hget] using this

/-- The matrix of the values of an invariant, with zeros on the diagonal. -/
def entries (v : PairValue n) (G : Graph n) (i j : Nat) : Int := if i = j then 0 else v.val G i j

theorem degree_lt (G : Graph n) {i : Nat} (hi : i < n) : G.degree i < n := by
  have hle : G.degree i ≤ (List.range n).length := List.countP_le_length
  rw [List.length_range] at hle
  refine lt_of_le_of_ne hle fun h => ?_
  have hall := List.countP_eq_length.mp (h.trans List.length_range.symm) i (List.mem_range.mpr hi)
  rw [G.irrefl] at hall
  exact absurd hall (by decide)

section

variable {aux : Auxs} (haux : aux.Documented)
include haux

/-- A cell of a matrix that is known. -/
theorem cell_of_reads {m : Rows} {v : Nat → Nat → Int} (h : ReadsMatrix w m n v) {i j : Nat}
    (hi : i < n) (hj : j < n) :
    ∃ t, aux.matrixGetCell m (i + 1) (j + 1) = some t ∧ Reads w t (v i j) := by
  obtain ⟨row, hrow, hr⟩ := nth1_of_reads h hi
  obtain ⟨t, ht, hread⟩ := nth1_of_readsAll hr (i := j) (by simpa using hj)
  refine ⟨t, by rw [haux.matrixGetCell, hrow, Option.bind_some, ht], ?_⟩
  simpa using hread

omit haux in
/-- The variables of a matrix may have any values. -/
theorem exists_values {x : Nat → Nat → Nat} (hinj : ∀ i j k l, i < j → j < n → k < l → l < n →
      x i j = x k l → i = k ∧ j = l) (v : Nat → Nat → Int) (σ : Nat → Int) :
    ∃ τ : Nat → Int, (∀ y, (∀ i j, i < j → j < n → y ≠ x i j) → τ y = σ y) ∧
      ∀ i j, i < j → j < n → τ (x i j) = v i j := by
  classical
  let cellOf : Nat → Prop := fun y => ∃ q : Nat × Nat, q.1 < q.2 ∧ q.2 < n ∧ y = x q.1 q.2
  refine ⟨fun y => if h : cellOf y then v h.choose.1 h.choose.2 else σ y, fun y hy => ?_,
    fun i j hij hj => ?_⟩
  · refine dif_neg ?_
    rintro ⟨q, h1, h2, hq⟩
    exact hy q.1 q.2 h1 h2 hq
  · have h : cellOf (x i j) := ⟨(i, j), hij, hj, rfl⟩
    obtain ⟨h1, h2, h3⟩ := h.choose_spec
    obtain ⟨hi', hj'⟩ := hinj _ _ _ _ hij hj h1 h2 h3
    exact (dif_pos h).trans (by rw [← hi', ← hj'])

omit haux in
/-- A symmetric matrix of variables that are known. -/
theorem reads_symmetricMatrix {d : Int} {x : Nat → Nat → Nat} {v : Nat → Nat → Int}
    (hsymm : ∀ i j, v i j = v j i) (hknown : ∀ i j, i < j → j < n → w.known (x i j))
    (hval : ∀ i j, i < j → j < n → w.values (x i j) = v i j) :
    ReadsMatrix w (symmetricMatrix n (.int d) x) n fun i j => if i = j then d else v i j := by
  refine ⟨by simp [symmetricMatrix], fun i hi => ?_⟩
  refine ⟨(List.range n).map fun j => if i = j then .int d else .var (x (min i j) (max i j)),
    by simp [symmetricMatrix, hi], fun t ht y hy => ?_, ?_⟩
  · obtain ⟨j, hj, rfl⟩ := List.mem_map.mp ht
    have hj := List.mem_range.mp hj
    by_cases hij : i = j
    · simp [hij, Term.vars] at hy
    · rw [if_neg hij] at hy
      rw [List.mem_singleton.mp hy]
      exact hknown _ _ (by omega) (by omega)
  · rw [List.map_map]
    refine List.map_congr_left fun j hj => ?_
    have hj := List.mem_range.mp hj
    by_cases hij : i = j
    · simp [hij, Term.eval]
    · simp only [Function.comp_apply, if_neg hij, Term.eval]
      rw [hval _ _ (by omega) (by omega)]
      rcases Nat.lt_or_gt_of_ne hij with h | h
      · rw [Nat.min_eq_left h.le, Nat.max_eq_right h.le]
      · rw [Nat.min_eq_right h.le, Nat.max_eq_left h.le, hsymm]

/-- **A matrix holds what its turns make known.** -/
theorem pairMatrix_spec {d : Int} {turn : Nat → Nat → Term → Post Constraint Unit}
    {v : Nat → Nat → Int} (hsymm : ∀ i j, v i j = v j i)
    (hturn : ∀ w', w.Le w' → ∀ i j, i < j → j < n → ∀ x, x < w'.store.next →
      w'.values x = v i j → Makes (turn (i + 1) (j + 1) (.var x)) w' fun _ w'' => w''.known x) :
    Makes (pairMatrix aux n d turn) w fun m w' =>
      ReadsMatrix w' m n fun i j => if i = j then d else v i j := by
  obtain ⟨x, s, hm, hposted, hnext, hrange, hinj, hall⟩ :=
    haux.createAdjacencyMatrix n (.int d) w.store
  -- the values that the cells are to have
  obtain ⟨τ, hτ, hcell⟩ := exists_values hinj v w.values
  refine makes_alloc hm hnext hposted (fun y hy => hτ y fun i j hij hj he => ?_)
    fun w₁ hle hs hv => ?_
  · have := (hrange i j hij hj).1
    omega
  have hget : ∀ i j, i < j → j < n → aux.matrixGetCell (symmetricMatrix n (.int d) x) (i + 1)
      (j + 1) = some (.var (x i j)) := fun i j hij hj => by
    rw [haux.matrixGetCell, nth1_succ]
    simp [symmetricMatrix, nth1_succ, hij.ne, show i < n by omega, hj, hij.le]
  refine (Makes.forM (fun p w' => w'.known (x (p.1 - 1) (p.2 - 1)))
    (fun _ _ _ hle h => hle.known _ h) fun p hp w₂ hle₂ => ?_).bind fun _ w₃ hle₃ hknown => ?_
  · obtain ⟨i, j, hij, hj, rfl⟩ := mem_pairs.mp hp
    have hx := (hrange i j hij hj).2
    refine makes_lift (hget i j hij hj) (hturn w₂ (hle.trans hle₂) i j hij hj _
      (Nat.lt_of_lt_of_le (hs ▸ hx) hle₂.next) ?_)
    rw [hle₂.values _ (hs ▸ hx), hv, hcell i j hij hj]
  · have hk : ∀ i j, i < j → j < n → w₃.known (x i j) := fun i j hij hj =>
      hknown (i + 1, j + 1) (mem_pairs.mpr ⟨i, j, hij, hj, rfl⟩)
    refine makes_pure ⟨fun y hy hy' => ?_, reads_symmetricMatrix hsymm hk fun i j hij hj => ?_⟩
    · obtain ⟨i, j, hij, hj, rfl⟩ := hall y hy hy'
      exact hk i j hij hj
    rw [hle₃.values _ (hs ▸ (hrange i j hij hj).2), hv, hcell i j hij hj]

/-! ## The invariants of degrees -/

variable {G : Graph n} {adj : Rows} {ds : List Term}

theorem extremeDeg_spec (hds : ReadsAll w ds ((List.range n).map fun i => (G.degree i : Int)))
    {extreme : Term → Term → Term → Constraint} {f : Int → Int → Int} (hf : ∀ a b, f a b = f b a)
    (hone : ∀ a b, f a b = a ∨ f a b = b) (hterms : ∀ x y z, (extreme x y z).terms = [x, y, z])
    (hholds : ∀ σ x y z, (extreme x y z).Holds σ ↔ z.eval σ = f (x.eval σ) (y.eval σ)) :
    Makes (extremeDeg aux extreme ds) w fun m w' =>
      ReadsMatrix w' m n (entries (Invariants.extremeDeg n f hf) G) := by
  have hlen : ds.length = n := by simpa using congrArg List.length hds.eval
  unfold extremeDeg
  rw [hlen]
  refine pairMatrix_spec haux (Invariants.extremeDeg n f hf |>.symm G) ?_
  intro w' hle i j hij hj x hx hv
  obtain ⟨di, hdi, hri⟩ := nth1_of_readsAll (hds.mono hle) (i := i) (by simp; omega)
  obtain ⟨dj, hdj, hrj⟩ := nth1_of_readsAll (hds.mono hle) (i := j) (by simpa using hj)
  rw [List.getElem_range] at hri hrj
  refine makes_lift hdi (makes_lift hdj ?_)
  have hdeg : ∀ k < n, (G.degree k : Int) ≤ n - 1 := fun k hk => by
    have := degree_lt G hk
    omega
  have hval : 0 ≤ w'.values x ∧ w'.values x ≤ n - 1 := by
    have hi := hdeg i (by omega)
    have hj := hdeg j hj
    rw [hv]
    change 0 ≤ f _ _ ∧ f _ _ ≤ _
    rcases hone (G.degree i) (G.degree j) with h | h <;> rw [h] <;> omega
  refine (makes_newInt hx hval.1 hval.2).bind fun _ w₁ hle₁ _ => ?_
  refine makes_known (Nat.lt_of_lt_of_le hx hle₁.next) (fun t ht y hy => ?_) fun τ _ hτ => ?_
  · rw [hterms] at ht
    simp only [List.mem_cons, List.not_mem_nil, or_false] at ht
    rcases ht with rfl | rfl | rfl
    · exact Or.inr ((hri.mono hle₁).known y hy)
    · exact Or.inr ((hrj.mono hle₁).known y hy)
    · exact Or.inl (List.mem_singleton.mp hy)
  · rw [hholds, (hri.mono hle₁).agrees hτ, (hrj.mono hle₁).agrees hτ, hle₁.values x hx, hv]
    rfl

theorem invMinDeg_spec (hds : ReadsAll w ds ((List.range n).map fun i => (G.degree i : Int))) :
    Makes (invMinDeg aux ds) w fun m w' => ReadsMatrix w' m n (entries (minDeg n) G) :=
  extremeDeg_spec haux hds min_comm min_choice (fun _ _ _ => rfl) fun _ _ _ _ => Iff.rfl

theorem invMaxDeg_spec (hds : ReadsAll w ds ((List.range n).map fun i => (G.degree i : Int))) :
    Makes (invMaxDeg aux ds) w fun m w' => ReadsMatrix w' m n (entries (maxDeg n) G) :=
  extremeDeg_spec haux hds max_comm max_choice (fun _ _ _ => rfl) fun _ _ _ _ => Iff.rfl

/-! ## The invariants that count -/

/-- What `cut` leaves of a row. -/
def Cuts (n : Nat) (cut : Nat → Nat → List Term → Option (List Term))
    (idx : Nat → Nat → List Nat) : Prop :=
  ∀ (w : World bee) (row : List Term) (u : Nat → Int), ReadsAll w row ((List.range n).map u) →
    ∀ i j, i < j → j < n → ∃ vec, cut (i + 1) (j + 1) row = some vec ∧
      ReadsAll w vec ((idx i j).map u)

omit haux in
theorem cuts_shorten : Cuts n shorten (others n) := fun _ _ _ h _ _ hij hj =>
  shorten_of_reads h hij hj

omit haux in
theorem cuts_none : Cuts n (fun _ _ row => some row) fun _ _ => List.range n :=
  fun _ row _ h _ _ _ _ => ⟨row, rfl, h⟩

variable {cut : Nat → Nat → List Term → Option (List Term)} {idx : Nat → Nat → List Nat}
  {m : Rows} {P : Nat → Nat → Bool} {i j : Nat}

omit haux in
theorem rowGates_spec (hm : ReadsMatrix w m n fun i k => truth (P i k)) (hcut : Cuts n cut idx)
    (hgate : Computes gate op) (hij : i < j) (hj : j < n) :
    Makes (rowGates m cut gate (i + 1) (j + 1)) w fun zs w' =>
      ReadsAll w' zs ((idx i j).map fun k => truth (op (P i k) (P j k))) := by
  obtain ⟨ri, hri, hreadi⟩ := nth1_of_reads hm (i := i) (by omega)
  obtain ⟨rj, hrj, hreadj⟩ := nth1_of_reads hm hj
  obtain ⟨vec1, hvec1, hread1⟩ := hcut w ri _ hreadi i j hij hj
  obtain ⟨vec2, hvec2, hread2⟩ := hcut w rj _ hreadj i j hij hj
  exact makes_lift hri (makes_lift hrj (makes_lift hvec1 (makes_lift hvec2
    (bitwise_spec hgate hread1 hread2))))

theorem countGates_spec (hm : ReadsMatrix w m n fun i k => truth (P i k)) (hcut : Cuts n cut idx)
    (hgate : Computes gate op) (v : PairValue n)
    (hv : ∀ i j, i < j → j < n → v.val G i j = (idx i j).countP fun k => op (P i k) (P j k))
    {max : Int} (hmax : ∀ i j, i < j → j < n → v.val G i j ≤ max) :
    Makes (countGates aux n m cut gate max) w fun m' w' => ReadsMatrix w' m' n (entries v G) := by
  refine pairMatrix_spec haux (v.symm G) fun w' hle i j hij hj x hx hval => ?_
  refine (rowGates_spec (hm.mono hle) hcut hgate hij hj).bind fun zs w₁ hle₁ hzs => ?_
  refine makes_countEq (Nat.lt_of_lt_of_le hx hle₁.next) ?_ ?_ hzs
  · rw [hle₁.values x hx, hval, hv i j hij hj]
  · rw [← hv i j hij hj]
    exact hmax i j hij hj

variable (hadj : ReadsMatrix w adj n fun i j => truth (G.adj i j))
include hadj

theorem invCommon_spec : Makes (invCommon aux adj) w fun m w' =>
    ReadsMatrix w' m n (entries (common n) G) := by
  unfold invCommon
  rw [hadj.length]
  refine countGates_spec haux hadj cuts_none andGate_computes (common n) (fun _ _ _ _ => rfl)
    fun i j _ hj => ?_
  have h : ((List.range n).countP fun k => G.adj i k && G.adj j k) ≤ G.degree j :=
    List.countP_mono_left fun k _ h => (Bool.and_eq_true_iff.mp h).2
  have hlt := degree_lt G hj
  change (((List.range n).countP fun k => G.adj i k && G.adj j k : Nat) : Int) ≤ _
  omega

theorem invAntiCommon_spec : Makes (invAntiCommon aux adj) w fun m w' =>
    ReadsMatrix w' m n (entries (antiCommon n) G) := by
  unfold invAntiCommon
  rw [hadj.length]
  refine countGates_spec haux hadj cuts_shorten norGate_computes (antiCommon n)
    (fun _ _ _ _ => rfl) fun i j hij hj => ?_
  have h := countP_others_le hij hj fun k => !G.adj i k && !G.adj j k
  change (((others n i j).countP fun k => !G.adj i k && !G.adj j k : Nat) : Int) ≤ _
  omega

theorem invAdj_spec : Makes (invAdj aux adj) w fun m w' =>
    ReadsMatrix w' m n (entries (adjacency n) G) := by
  unfold invAdj
  rw [hadj.length]
  refine pairMatrix_spec haux ((adjacency n).symm G) fun w' hle i j hij hj x hx hval => ?_
  obtain ⟨t, ht, hread⟩ := cell_of_reads haux (hadj.mono hle) (i := i) (by omega) hj
  refine makes_lift ht ?_
  have hval : w'.values x = if G.adj i j then 1 else 0 := hval
  have h01 : 0 ≤ w'.values x ∧ w'.values x ≤ 1 := by
    rw [hval]
    split <;> decide
  refine (makes_newInt hx h01.1 h01.2).bind fun _ w₁ hle₁ hnew => ?_
  refine makes_known (Nat.lt_of_lt_of_le hx hle₁.next) (fun t' ht' y hy => ?_) fun τ hτ hk => ?_
  · simp only [Constraint.terms, List.mem_cons, List.not_mem_nil, or_false] at ht'
    rcases ht' with rfl | rfl
    · exact Or.inl (List.mem_singleton.mp hy)
    · exact Or.inr ((hread.mono hle₁).known y hy)
  · -- the domain leaves `0` and `1`
    obtain ⟨hlo, hhi⟩ := hτ _ hnew
    simp only [Term.eval] at hlo hhi
    rw [hle₁.values x hx, hval]
    simp only [Constraint.Holds, (hread.mono hle₁).agrees hk, Term.eval]
    rcases (show τ x = 0 ∨ τ x = 1 by omega) with h | h <;> rw [h] <;> cases G.adj i j <;> decide

omit haux hadj in
/-- The product with `-1`. -/
theorem multiplyMatrixByConst_spec {v : PairValue n} (hm : ReadsMatrix w m n (entries v G)) :
    Makes (multiplyMatrixByConst m) w fun m' w' => ReadsMatrix w' m' n (entries v.neg G) := by
  refine (Makes.mapM₂ (R := fun i row => ReadsAll w row ((List.range n).map (entries v G i)))
    hm.forall₂ (fun i row' w' => ReadsAll w' row' ((List.range n).map (entries v.neg G i)))
    (fun _ _ _ _ hle h => h.mono hle) fun i row hrow w₁ hle => ?_).imp fun m' w' _ hm' =>
      readsMatrix_of_forall₂ hm'
  have hneg : ∀ k, -entries v G i k = entries v.neg G i k := fun k => by
    simp only [entries, PairValue.neg]
    split <;> simp
  refine (Makes.mapM₂ (hrow.mono hle).forall₂ (fun u y w' => Reads w' y (-u))
    (fun _ _ _ _ hle h => h.mono hle) fun u x hread w₂ hle₂ => ?_).imp fun row' w' _ h => ?_
  · refine makes_defined (fun z t ht y hy => ?_) fun τ z hτ => ?_
    · simp only [Constraint.terms, List.mem_cons, List.not_mem_nil, or_false] at ht
      rcases ht with rfl | rfl
      · exact Or.inl (List.mem_singleton.mp hy)
      · exact Or.inr (hle₂.known y (hread.known y hy))
    · simp only [Constraint.Holds, hread.agrees (hle₂.agrees hτ), Term.eval, Int.mul_neg,
        Int.mul_one]
  · have := readsAll_of_forall₂ h
    simpa only [List.map_map, Function.comp_def, hneg] using this

theorem invMinusCommon_spec : Makes (invMinusCommon aux adj) w fun m w' =>
    ReadsMatrix w' m n (entries (common n).neg G) :=
  (invCommon_spec haux hadj).bind fun _ _ _ hm => multiplyMatrixByConst_spec hm

/-- `inv_sum_degrees_common_neighbors` -/
theorem invSumDegreesCommonNeighbors_spec
    (hds : ReadsAll w ds ((List.range n).map fun i => (G.degree i : Int))) :
    Makes (invSumDegreesCommonNeighbors aux adj ds) w fun m w' =>
      ReadsMatrix w' m n (entries (sumDegrees n) G) := by
  unfold invSumDegreesCommonNeighbors
  rw [hadj.length]
  refine pairMatrix_spec haux ((sumDegrees n).symm G) fun w' hle i j hij hj x hx hval => ?_
  obtain ⟨ri, hri, hreadi⟩ := nth1_of_reads (hadj.mono hle) (i := i) (by omega)
  obtain ⟨rj, hrj, hreadj⟩ := nth1_of_reads (hadj.mono hle) hj
  obtain ⟨vec1, hvec1, hread1⟩ := shorten_of_reads hreadi hij hj
  obtain ⟨vec2, hvec2, hread2⟩ := shorten_of_reads hreadj hij hj
  obtain ⟨vecDs, hvecDs, hreadDs⟩ := shorten_of_reads (hds.mono hle) hij hj
  refine makes_lift hri (makes_lift hrj (makes_lift hvec1 (makes_lift hvec2
    (makes_lift hvecDs ?_))))
  refine (bitwise_spec nandGate_computes hread1 hread2).bind fun xs w₁ hle₁ hxs => ?_
  have hx₁ := Nat.lt_of_lt_of_le hx hle₁.next
  have hval₁ : w₁.values x = (sumDegrees n).val G i j := (hle₁.values x hx).trans hval
  have hterm : ∀ k ∈ others n i j,
      0 ≤ (if !G.adj i k || !G.adj j k then (G.degree k : Int) else 0) ∧
        (if !G.adj i k || !G.adj j k then (G.degree k : Int) else 0) ≤ n - 1 := fun k hk => by
    have := degree_lt G (mem_others.mp hk).1
    split <;> omega
  have hbound : 0 ≤ (sumDegrees n).val G i j ∧ (sumDegrees n).val G i j ≤ (n - 1) * (n - 1) := by
    refine ⟨List.sum_nonneg (List.forall_mem_map.mpr fun k hk => (hterm k hk).1), ?_⟩
    refine (List.sum_le_card_nsmul _ _
      (List.forall_mem_map.mpr fun k hk => (hterm k hk).2)).trans ?_
    rw [List.length_map, length_others hij hj, nsmul_eq_mul]
    exact Int.mul_le_mul_of_nonneg_right (by omega) (by omega)
  refine (makes_newInt hx₁ (hval₁ ▸ hbound.1) (hval₁ ▸ hbound.2)).bind fun _ w₂ hle₂ _ => ?_
  refine makes_known (Nat.lt_of_lt_of_le hx₁ hle₂.next) (fun t ht y hy => ?_) fun τ _ hτ => ?_
  · simp only [Constraint.terms, List.mem_cons, List.mem_append] at ht
    rcases ht with rfl | ht | ht
    · exact Or.inl (List.mem_singleton.mp hy)
    · exact Or.inr ((hxs.mono hle₂).known t ht y hy)
    · exact Or.inr ((hreadDs.mono (hle₁.trans hle₂)).known t ht y hy)
  · simp only [Constraint.Holds, (hxs.mono hle₂).agrees hτ,
      (hreadDs.mono (hle₁.trans hle₂)).agrees hτ, Term.eval, hle₂.values x hx₁, hval₁]
    rw [List.zipWith_map, List.zipWith_self]
    simp only [truth_eq_one]
    rfl

/-! ## Distance two -/

theorem dist2Matrix_spec : Makes (dist2Matrix aux adj) w fun m w' =>
    ReadsMatrix w' m n fun i k => truth (i ≠ k && near G i k) := by
  unfold dist2Matrix
  rw [hadj.length]
  refine (pairMatrix_spec (v := fun i k => truth (near G i k)) haux
    (fun i k => by rw [near_comm]) fun w' hle i j hij hj x hx hval => ?_).imp fun m w' _ hm =>
      hm.congr fun i _ k _ => ?_
  · obtain ⟨t, ht, hread⟩ := cell_of_reads haux (hadj.mono hle) (i := i) (by omega) hj
    refine makes_lift ht ((rowGates_spec (hadj.mono hle) cuts_shorten andGate_computes hij
      hj).bind fun xs w₁ hle₁ hxs => ?_)
    refine makes_known (Nat.lt_of_lt_of_le hx hle₁.next) (fun t' ht' y hy => ?_) fun τ _ hτ => ?_
    · simp only [Constraint.terms, List.mem_cons] at ht'
      rcases ht' with rfl | rfl | ht'
      · exact Or.inl (List.mem_singleton.mp hy)
      · exact Or.inr ((hread.mono hle₁).known y hy)
      · exact Or.inr (hxs.known t' ht' y hy)
    · simp only [Constraint.Holds, List.map_cons, (hread.mono hle₁).agrees hτ, hxs.agrees hτ,
        Term.eval, hle₁.values x hx, hval, List.any_cons, List.any_map, Function.comp_def,
        truth_beq_one]
      rfl
  · by_cases hik : i = k
    · simp [hik, truth]
    · simp [hik]

theorem invDist2_spec : Makes (invDist2 aux adj) w fun m w' =>
    ReadsMatrix w' m n (entries (dist2 n) G) := by
  unfold invDist2
  refine (dist2Matrix_spec haux hadj).bind fun m w₁ _ hm => ?_
  rw [hadj.length, hm.length]
  refine countGates_spec haux hm cuts_shorten orGate_computes (dist2 n) (fun i j _ _ => ?_)
    fun i j hij hj => ?_
  · refine congrArg Nat.cast (List.countP_congr fun k hk => ?_)
    obtain ⟨-, hi, hj⟩ := mem_others.mp hk
    simp [hi.symm, hj.symm]
  · have h := countP_others_le hij hj fun k => near G i k || near G j k
    change (((others n i j).countP fun k => near G i k || near G j k : Nat) : Int) ≤ _
    omega

theorem invMinusDist2_spec : Makes (invMinusDist2 aux adj) w fun m w' =>
    ReadsMatrix w' m n (entries (dist2 n).neg G) :=
  (invDist2_spec haux hadj).bind fun _ _ _ hm => multiplyMatrixByConst_spec hm

/-! ## Paths -/

/-- The conjunction of three cells. -/
theorem andCells_spec {a b c d e f : Nat} (hab : a < n ∧ b < n) (hcd : c < n ∧ d < n)
    (hef : e < n ∧ f < n) :
    Makes (andCells aux adj (a + 1, b + 1) (c + 1, d + 1) (e + 1, f + 1)) w fun t w' =>
      Reads w' t (truth (G.adj a b && G.adj c d && G.adj e f)) := by
  obtain ⟨x, hx, hreadx⟩ := cell_of_reads haux hadj hab.1 hab.2
  obtain ⟨y, hy, hready⟩ := cell_of_reads haux hadj hcd.1 hcd.2
  obtain ⟨z, hz, hreadz⟩ := cell_of_reads haux hadj hef.1 hef.2
  refine makes_lift hx (makes_lift hy (makes_lift hz
    (makes_defined (fun v t ht u hu => ?_) fun τ v hτ => ?_)))
  · simp only [Constraint.terms, List.mem_cons, List.not_mem_nil, or_false] at ht
    rcases ht with rfl | rfl | rfl | rfl
    · exact Or.inl (List.mem_singleton.mp hu)
    · exact Or.inr (hreadx.known u hu)
    · exact Or.inr (hready.known u hu)
    · exact Or.inr (hreadz.known u hu)
  · simp [Constraint.Holds, hreadx.agrees hτ, hready.agrees hτ, hreadz.agrees hτ, Term.eval,
      Bool.and_assoc]

omit haux hadj in
theorem len3Paths_eq (n i j : Nat) : len3Paths n (i + 1) (j + 1) =
    (((List.range n).product (List.range n)).filter fun q =>
      q.1 ≠ q.2 && q.1 ≠ i && q.1 ≠ j && q.2 ≠ i && q.2 ≠ j).map
        fun q => (q.1 + 1, q.2 + 1) := by
  unfold len3Paths
  rw [between_one, List.flatMap_map, show ((List.range n).flatMap fun a => ((List.range n).map
    (· + 1)).map fun b => (a + 1, b)) = ((List.range n).product (List.range n)).map
      fun q => (q.1 + 1, q.2 + 1) by
    simp [List.product, List.map_flatMap, Function.comp_def], List.filter_map]
  refine congrArg _ (List.filter_congr fun q _ => ?_)
  simp [Bool.and_assoc]

theorem invLen3Paths_spec : Makes (invLen3Paths aux adj) w fun m w' =>
    ReadsMatrix w' m n (entries (noLen3Paths n) G) := by
  unfold invLen3Paths
  rw [hadj.length]
  refine pairMatrix_spec haux ((noLen3Paths n).symm G) fun w' hle i j hij hj x hx hval => ?_
  let path : Nat × Nat → Bool := fun q =>
    G.adj i (q.1 - 1) && G.adj (q.1 - 1) (q.2 - 1) && G.adj (q.2 - 1) j
  refine (Makes.mapM (fun q t w₁ => Reads w₁ t (truth (path q))) (fun _ _ _ _ hle h => h.mono hle)
    fun q hq w₁ hle₁ => ?_).bind fun ts w₁ hle₁ hts => ?_
  · rw [len3Paths_eq] at hq
    obtain ⟨⟨a, b⟩, hab, rfl⟩ := List.mem_map.mp hq
    obtain ⟨ha, hb⟩ := List.pair_mem_product.mp (List.mem_filter.mp hab).1
    rw [List.mem_range] at ha hb
    exact andCells_spec haux (hadj.mono (hle.trans hle₁)) ⟨by omega, ha⟩ ⟨ha, hb⟩ ⟨hb, hj⟩
  · have hcount : (noLen3Paths n).val G i j =
        (len3Paths n (i + 1) (j + 1)).countP fun q => !path q := by
      rw [len3Paths_eq, List.countP_map, List.countP_filter]
      exact congrArg Nat.cast (List.countP_congr fun q _ => by
        simp only [path, Function.comp_apply, Nat.add_sub_cancel, Bool.and_comm])
    have hlen : (len3Paths n (i + 1) (j + 1)).length ≤ n * n := by
      rw [len3Paths_eq, List.length_map]
      refine (List.length_filter_le _ _).trans ?_
      change (List.range n ×ˢ List.range n).length ≤ n * n
      rw [List.length_product, List.length_range]
    refine makes_countEq (Nat.lt_of_lt_of_le hx hle₁.next) ?_ ?_ (readsAll_of_forall₂ hts).neg
    · rw [hle₁.values x hx, hval, hcount]
    · exact_mod_cast List.countP_le_length.trans hlen

end

end SymBreak.PairInvariants
