import SymBreak.Lib.Loop
import Mathlib.Order.RelClasses
import Mathlib.Data.List.Perm.Basic

/-!
# Sorting

Model of `mtl/Sort.h`: selection sort up to 15 elements, quicksort above. The scans of the
partition have no bounds check; here a read outside the array is an error. `lt` is any comparison
that is asymmetric and negatively transitive, a strict weak order.

Results:
* `partition_spec`: the scans stay inside the array, and neither part is empty;
* **`sort_sorted`**: `sort` returns the elements in order;
* `sort_subtype`: so it does when `lt` is such an order on the elements of the array only.
-/

namespace SymBreak.Mtl

/-- What a run can fail at: a read outside an array, a division by zero, or an assertion. -/
inductive Fault where
  | outOfRange
  | divisionByZero
  | assertion (expr : String)
  deriving DecidableEq, Repr

variable {α : Type} (lt : α → α → Prop) [DecidableRel lt]

/-- Swap `array[i]` and `array[j]`. -/
def swap (xs : List α) (i j : Nat) : List α :=
  match xs[i]?, xs[j]? with
  | some x, some y => (xs.set i y).set j x
  | _, _ => xs

/-- `lt(array[i], array[j])` -/
def ltAt (xs : List α) (i j : Nat) : Bool :=
  match xs[i]?, xs[j]? with
  | some x, some y => decide (lt x y)
  | _, _ => false

/-- `best_i` after the inner loop (`Sort.h:45-49`). -/
def bestIndex (xs : List α) (i : Nat) : Nat :=
  (List.range' (i + 1) (xs.length - (i + 1))).foldl
    (fun best j => if ltAt lt xs j best then j else best) i

/-- `selectionSort` (`Sort.h:38-52`) -/
def selectionSort (xs : List α) : List α :=
  (List.range (xs.length - 1)).foldl (fun xs i => swap xs i (bestIndex lt xs i)) xs

/-- `do i++; while(lt(array[i], pivot))` (`Sort.h:69`), from the elements behind `i` on. -/
def scanUp (pivot : α) : List α → Nat → Except (Halt Fault) Nat
  | [], _ => .error (.raised .outOfRange)
  | x :: xs, i => if lt x pivot then scanUp pivot xs (i + 1) else .ok i

/-- `do j--; while(lt(pivot, array[j]))` (`Sort.h:70`) -/
def scanDown (xs : List α) (pivot : α) : Nat → Except (Halt Fault) Nat
  | 0 => .error (.raised .outOfRange)
  | j + 1 =>
    match xs[j]? with
    | none => .error (.raised .outOfRange)
    | some x => if lt pivot x then scanDown xs pivot j else .ok j

/-- `for(;;)` (`Sort.h:68-75`), where `i` is the next position to scan up. -/
def partitionLoop (pivot : α) : Nat → List α → Nat → Nat → Except (Halt Fault) (List α × Nat)
  | 0, _, _, _ => .error .outOfFuel
  | fuel + 1, xs, i, j => do
    let i ← scanUp lt pivot (xs.drop i) i
    let j ← scanDown lt xs pivot j
    if j ≤ i then .ok (xs, i) else partitionLoop pivot fuel (swap xs i j) (i + 1) j

/-- `sort` (`Sort.h:56-80`) with fuel for the recursion. -/
def sortRec : Nat → List α → Except (Halt Fault) (List α)
  | 0, _ => .error .outOfFuel
  | fuel + 1, xs =>
    if xs.length ≤ 15 then .ok (selectionSort lt xs)
    else
      match xs[xs.length / 2]? with
      | none => .error (.raised .outOfRange)
      | some pivot => do
        let (xs, i) ← partitionLoop lt pivot (xs.length + 1) xs 0 xs.length
        let left ← sortRec fuel (xs.take i)
        let right ← sortRec fuel (xs.drop i)
        .ok (left ++ right)

/-- `sort` of a whole vector. -/
def sort (xs : List α) : Except (Halt Fault) (List α) := sortRec lt (xs.length + 1) xs

/-! ## Swapping -/

variable {lt} {xs : List α} {pivot x : α} {i j k : Nat}

theorem swap_eq (hi : i < xs.length) (hj : j < xs.length) :
    swap xs i j = (xs.set i xs[j]).set j xs[i] := by
  unfold swap
  rw [List.getElem?_eq_getElem hi, List.getElem?_eq_getElem hj]

theorem swap_perm (xs : List α) (i j : Nat) : (swap xs i j).Perm xs := by
  by_cases h : i < xs.length ∧ j < xs.length
  · rw [swap_eq h.1 h.2]
    exact List.set_set_perm h.1 h.2
  · unfold swap
    rcases not_and_or.mp h with h | h
    · rw [List.getElem?_eq_none (Nat.le_of_not_lt h)]
    · rw [List.getElem?_eq_none (Nat.le_of_not_lt h)]
      split
      · rename_i hx
        exact absurd hx (by simp)
      · exact List.Perm.refl xs

@[simp] theorem length_swap (xs : List α) (i j : Nat) : (swap xs i j).length = xs.length :=
  (swap_perm xs i j).length_eq

/-- The element at a position after a swap. -/
theorem getElem?_swap (hi : i < xs.length) (hj : j < xs.length) (k : Nat) :
    (swap xs i j)[k]? = if k = j then xs[i]? else if k = i then xs[j]? else xs[k]? := by
  rw [swap_eq hi hj, List.getElem?_set, List.getElem?_set, List.length_set,
    List.getElem?_eq_getElem hi, List.getElem?_eq_getElem hj]
  by_cases hkj : j = k
  · subst hkj
    simp [hj]
  · rw [if_neg hkj, if_neg (Ne.symm hkj)]
    by_cases hki : i = k
    · subst hki
      simp [hi]
    · rw [if_neg hki, if_neg (Ne.symm hki)]

/-! ## Selection sort -/

omit [DecidableRel lt] in
theorem not_lt_self [Std.Asymm lt] (x : α) : ¬ lt x x := fun h => Std.Asymm.asymm _ _ h h

theorem ltAt_eq (hi : i < xs.length) (hj : j < xs.length) :
    ltAt lt xs i j = decide (lt xs[i] xs[j]) := by
  unfold ltAt
  rw [List.getElem?_eq_getElem hi, List.getElem?_eq_getElem hj]

/-- `best` is the position of a least element among those from `i` to `e`. -/
def LeastFrom (lt : α → α → Prop) (xs : List α) (i e best : Nat) : Prop :=
  i ≤ best ∧ best < xs.length ∧
    ∀ k x y, i ≤ k → k < e → xs[k]? = some x → xs[best]? = some y → ¬ lt x y

/-- The first `m` elements are in order, and none behind them is less than one of them. -/
def SortedUpTo (lt : α → α → Prop) (xs : List α) (m : Nat) : Prop :=
  ∀ i j x y, i < j → i < m → xs[i]? = some x → xs[j]? = some y → ¬ lt y x

omit [DecidableRel lt] in
theorem SortedUpTo.pairwise {m : Nat} (h : SortedUpTo lt xs m) (hm : xs.length ≤ m + 1) :
    xs.Pairwise fun x y => ¬ lt y x := by
  rw [List.pairwise_iff_getElem]
  intro i j hi hj hij
  exact h i j _ _ hij (by omega) (List.getElem?_eq_getElem hi) (List.getElem?_eq_getElem hj)

section Order

variable [Std.Asymm lt] [IsOrderConnected α lt]

/-- **One turn of the inner loop** moves to the next element if that is less. -/
theorem LeastFrom.step {e best : Nat} (h : LeastFrom lt xs i e best) (hi : i ≤ e)
    (he : e < xs.length) :
    LeastFrom lt xs i (e + 1) (if ltAt lt xs e best then e else best) := by
  obtain ⟨hle, hb, hmin⟩ := h
  rw [ltAt_eq he hb]
  by_cases hlt : lt xs[e] xs[best]
  · rw [decide_eq_true hlt, if_pos rfl]
    refine ⟨hi, he, fun k x y hk hke hx hy hxy => ?_⟩
    obtain rfl : xs[e] = y := by simpa [he] using hy
    rcases Nat.lt_succ_iff_lt_or_eq.mp hke with hke | rfl
    · refine hmin k x _ hk hke hx (List.getElem?_eq_getElem hb) ?_
      exact (IsOrderConnected.conn _ _ _ hxy).resolve_right fun h' => Std.Asymm.asymm _ _ h' hlt
    · obtain rfl : xs[k] = x := by simpa [he] using hx
      exact not_lt_self _ hxy
  · rw [decide_eq_false hlt, if_neg Bool.false_ne_true]
    refine ⟨hle, hb, fun k x y hk hke hx hy => ?_⟩
    rcases Nat.lt_succ_iff_lt_or_eq.mp hke with hke | rfl
    · exact hmin k x y hk hke hx hy
    · obtain rfl : xs[k] = x := by simpa [he] using hx
      obtain rfl : xs[best] = y := by simpa [hb] using hy
      exact hlt

/-- **The inner loop** finds a least element of those from `i` on. -/
theorem bestIndex_spec (hi : i < xs.length) :
    LeastFrom lt xs i xs.length (bestIndex lt xs i) := by
  have key : ∀ len, i + 1 + len ≤ xs.length → LeastFrom lt xs i (i + 1 + len)
      ((List.range' (i + 1) len).foldl
        (fun best j => if ltAt lt xs j best then j else best) i) := by
    intro len
    induction len with
    | zero =>
      intro _
      refine ⟨Nat.le_refl i, hi, fun k x y h1 h2 hx hy => ?_⟩
      obtain rfl : k = i := by omega
      obtain rfl : x = y := Option.some.inj (hx.symm.trans hy)
      exact not_lt_self _
    | succ len ih =>
      intro hlen
      rw [List.range'_1_concat, List.foldl_append]
      exact (ih (by omega)).step (by omega) (by omega)
  have := key (xs.length - (i + 1)) (by omega)
  rwa [show i + 1 + (xs.length - (i + 1)) = xs.length by omega] at this

/-- **One turn of the outer loop** puts a least of the remaining elements in its place. -/
theorem SortedUpTo.step {m : Nat} (h : SortedUpTo lt xs m) (hm : m < xs.length) :
    SortedUpTo lt (swap xs m (bestIndex lt xs m)) (m + 1) := by
  obtain ⟨hle, hb, hmin⟩ : LeastFrom lt xs m xs.length (bestIndex lt xs m) := bestIndex_spec hm
  intro i j x y hij him hx hy
  rw [getElem?_swap hm hb] at hx hy
  rcases Nat.lt_succ_iff_lt_or_eq.mp him with him | rfl
  · rw [if_neg (by omega), if_neg (by omega)] at hx
    split at hy
    · exact h i m x y (by omega) him hx hy
    · split at hy
      · exact h i _ x y (by omega) him hx hy
      · exact h i j x y hij him hx hy
  · have hx : xs[bestIndex lt xs i]? = some x := by
      split at hx
      · rename_i heq
        rwa [← heq]
      · simpa using hx
    split at hy
    · exact hmin i y x (Nat.le_refl i) hm hy hx
    · rw [if_neg (by omega)] at hy
      exact hmin j y x (by omega) (List.getElem?_eq_some_iff.mp hy).1 hy hx

theorem selectionSort_spec (xs : List α) :
    (selectionSort lt xs).Perm xs ∧ (selectionSort lt xs).Pairwise fun x y => ¬ lt y x := by
  have key : ∀ m, m ≤ xs.length - 1 →
      ((List.range m).foldl (fun xs i => swap xs i (bestIndex lt xs i)) xs).Perm xs ∧
        SortedUpTo lt ((List.range m).foldl (fun xs i => swap xs i (bestIndex lt xs i)) xs) m := by
    intro m
    induction m with
    | zero => exact fun _ => ⟨List.Perm.refl xs, fun i j x y _ h => absurd h (Nat.not_lt_zero i)⟩
    | succ m ih =>
      intro hm
      obtain ⟨hperm, hsorted⟩ := ih (by omega)
      rw [List.range_succ, List.foldl_append]
      exact ⟨(swap_perm _ _ _).trans hperm, hsorted.step (by rw [hperm.length_eq]; omega)⟩
  obtain ⟨hperm, hsorted⟩ := key (xs.length - 1) (Nat.le_refl _)
  exact ⟨hperm, hsorted.pairwise (by rw [hperm.length_eq]; omega)⟩

end Order

/-! ## The partition -/

/-- Scanning up stops at the first element that is not less than the pivot. -/
theorem scanUp_spec : ∀ (ys : List α) (i : Nat), (∃ y ∈ ys, ¬ lt y pivot) →
    ∃ n y, scanUp lt pivot ys i = .ok (i + n) ∧ ys[n]? = some y ∧ ¬ lt y pivot ∧
      ∀ k z, k < n → ys[k]? = some z → lt z pivot
  | [], _, ⟨_, hy, _⟩ => absurd hy List.not_mem_nil
  | y :: ys, i, hex => by
    by_cases hy : lt y pivot
    · have hex : ∃ y ∈ ys, ¬ lt y pivot := by
        obtain ⟨z, hz, hlt⟩ := hex
        rcases List.mem_cons.mp hz with rfl | hz
        · exact absurd hy hlt
        · exact ⟨z, hz, hlt⟩
      obtain ⟨n, z, hrun, hz, hlt, hbelow⟩ := scanUp_spec ys (i + 1) hex
      refine ⟨n + 1, z, ?_, hz, hlt, fun k w hk hw => ?_⟩
      · rw [scanUp, if_pos hy, hrun, Nat.add_assoc, Nat.add_comm 1 n]
      · cases k with
        | zero => exact Option.some.inj hw ▸ hy
        | succ k => exact hbelow k w (by omega) hw
    · exact ⟨0, y, by rw [scanUp, if_neg hy, Nat.add_zero], rfl, hy,
        fun k z hk => absurd hk (Nat.not_lt_zero k)⟩

/-- Scanning down stops at the last element that is not greater than the pivot. -/
theorem scanDown_spec : ∀ j, j ≤ xs.length → (∃ k y, k < j ∧ xs[k]? = some y ∧ ¬ lt pivot y) →
    ∃ j' y, scanDown lt xs pivot j = .ok j' ∧ j' < j ∧ xs[j']? = some y ∧ ¬ lt pivot y ∧
      ∀ k z, j' < k → k < j → xs[k]? = some z → lt pivot z
  | 0, _, ⟨k, _, hk, _⟩ => absurd hk (Nat.not_lt_zero k)
  | j + 1, hj, hex => by
    have hget : xs[j]? = some xs[j] := List.getElem?_eq_getElem hj
    by_cases hy : lt pivot xs[j]
    · have hex : ∃ k y, k < j ∧ xs[k]? = some y ∧ ¬ lt pivot y := by
        obtain ⟨k, y, hk, hky, hlt⟩ := hex
        rcases Nat.lt_succ_iff_lt_or_eq.mp hk with hk | rfl
        · exact ⟨k, y, hk, hky, hlt⟩
        · exact absurd (Option.some.inj (hget.symm.trans hky) ▸ hy) hlt
      obtain ⟨j', y, hrun, hj', hy', hlt, habove⟩ := scanDown_spec j (by omega) hex
      refine ⟨j', y, ?_, by omega, hy', hlt, fun k z h1 h2 hz => ?_⟩
      · simp only [scanDown, hget, hy, if_true, hrun]
      · rcases Nat.lt_succ_iff_lt_or_eq.mp h2 with h2 | rfl
        · exact habove k z h1 h2 hz
        · exact Option.some.inj (hget.symm.trans hz) ▸ hy
    · refine ⟨j, xs[j], ?_, by omega, hget, hy, fun k z h1 h2 => by omega⟩
      simp only [scanDown, hget, hy, if_false]

/-- What holds when the partition is about to scan up from `i` and down from `j`: the elements below
`i` are not greater than the pivot and those from `j` on not less; both scans have an element that
stops them, and the first part will not be empty. -/
structure Partitioned (lt : α → α → Prop) (pivot : α) (xs : List α) (i j : Nat) : Prop where
  le : j ≤ xs.length
  low : ∀ k x, k < i → xs[k]? = some x → ¬ lt pivot x
  high : ∀ k x, j ≤ k → xs[k]? = some x → ¬ lt x pivot
  up : ∃ k x, i ≤ k ∧ xs[k]? = some x ∧ ¬ lt x pivot
  down : ∃ k x, k < j ∧ (0 < i ∨ 0 < k) ∧ xs[k]? = some x ∧ ¬ lt pivot x

section Order

variable [Std.Asymm lt]

omit [DecidableRel lt] [Std.Asymm lt] in
/-- A misplaced pair is exchanged. -/
theorem Partitioned.swap {i j : Nat} {a b : α} (hij : i < j) (ha : xs[i]? = some a)
    (hb : xs[j]? = some b) (hap : ¬ lt a pivot) (hpb : ¬ lt pivot b)
    (hlow : ∀ k x, k < i → xs[k]? = some x → ¬ lt pivot x)
    (hhigh : ∀ k x, j < k → xs[k]? = some x → ¬ lt x pivot) :
    Partitioned lt pivot (swap xs i j) (i + 1) j := by
  have hilen : i < xs.length := (List.getElem?_eq_some_iff.mp ha).1
  have hjlen : j < xs.length := (List.getElem?_eq_some_iff.mp hb).1
  have hswap := getElem?_swap hilen hjlen
  refine ⟨?_, fun k x hk hx => ?_, fun k x hk hx => ?_, ?_, ?_⟩
  · rw [length_swap]
    omega
  · rw [hswap, if_neg (by omega)] at hx
    split at hx
    · exact Option.some.inj (hb.symm.trans hx) ▸ hpb
    · exact hlow k x (by omega) hx
  · rw [hswap] at hx
    split at hx
    · exact Option.some.inj (ha.symm.trans hx) ▸ hap
    · rw [if_neg (by omega)] at hx
      exact hhigh k x (by omega) hx
  · exact ⟨j, a, by omega, by rw [hswap, if_pos rfl, ha], hap⟩
  · refine ⟨i, b, by omega, Or.inl (by omega), ?_, hpb⟩
    rw [hswap, if_neg (by omega), if_pos rfl, hb]

/-- **The partition** stays inside the array and splits it at the pivot into two parts, neither of
which is empty. -/
theorem partition_spec : ∀ (fuel : Nat) (xs : List α) (i j : Nat), j < fuel →
    Partitioned lt pivot xs i j →
    ∃ ys m, partitionLoop lt pivot fuel xs i j = .ok (ys, m) ∧ ys.Perm xs ∧
      0 < m ∧ m < ys.length ∧
      (∀ x ∈ ys.take m, ¬ lt pivot x) ∧ (∀ x ∈ ys.drop m, ¬ lt x pivot) := by
  intro fuel
  induction fuel with
  | zero => exact fun xs i j h => absurd h (Nat.not_lt_zero j)
  | succ fuel ih =>
    intro xs i j hfuel hP
    obtain ⟨k, x, hik, hkx, hx⟩ := hP.up
    have hmem : x ∈ xs.drop i := by
      rw [List.mem_iff_getElem?]
      exact ⟨k - i, by rw [List.getElem?_drop, Nat.add_sub_cancel' hik, hkx]⟩
    obtain ⟨n, a, hup, ha, hap, hbelow⟩ := scanUp_spec (xs.drop i) i ⟨x, hmem, hx⟩
    rw [List.getElem?_drop] at ha
    obtain ⟨k, y, hkj, hpos, hky, hy⟩ := hP.down
    obtain ⟨j', b, hdown, hj', hb, hpb, habove⟩ := scanDown_spec j hP.le ⟨k, y, hkj, hky, hy⟩
    have hilen : i + n < xs.length := (List.getElem?_eq_some_iff.mp ha).1
    have hlow : ∀ k x, k < i + n → xs[k]? = some x → ¬ lt pivot x := by
      intro k x hk hx
      rcases Nat.lt_or_ge k i with hki | hki
      · exact hP.low k x hki hx
      · refine fun h => Std.Asymm.asymm _ _ h (hbelow (k - i) x (by omega) ?_)
        rw [List.getElem?_drop, Nat.add_sub_cancel' hki, hx]
    have hhigh : ∀ k x, j' < k → xs[k]? = some x → ¬ lt x pivot := by
      intro k x hk hx
      rcases Nat.lt_or_ge k j with hkj | hkj
      · exact fun h => Std.Asymm.asymm _ _ h (habove k x hk hkj hx)
      · exact hP.high k x hkj hx
    unfold partitionLoop
    rw [hup, ok_bind, hdown, ok_bind]
    split
    · -- the scans have met
      rename_i hle
      refine ⟨xs, i + n, rfl, List.Perm.refl xs, ?_, hilen, fun x hx => ?_, fun x hx => ?_⟩
      · rcases hpos with h | h
        · omega
        · by_contra hzero
          have : j' < k := by omega
          exact hy (habove k y this hkj hky)
      · obtain ⟨k, hk⟩ := List.mem_iff_getElem?.mp hx
        rw [List.getElem?_take] at hk
        split at hk
        · exact hlow k x ‹_› hk
        · exact absurd hk (by simp)
      · obtain ⟨k, hk⟩ := List.mem_iff_getElem?.mp hx
        rw [List.getElem?_drop] at hk
        rcases Nat.lt_or_ge j' (i + n + k) with h | h
        · exact hhigh _ x h hk
        · obtain rfl : k = 0 := by omega
          exact Option.some.inj (ha.symm.trans hk) ▸ hap
    · -- a misplaced pair is exchanged
      rename_i hlt
      have hPs := Partitioned.swap (Nat.lt_of_not_le hlt) ha hb hap hpb hlow hhigh
      obtain ⟨ys, m, hrun, hperm, hrest⟩ := ih _ _ _ (by omega) hPs
      exact ⟨ys, m, hrun, hperm.trans (swap_perm xs _ _), hrest⟩

omit [DecidableRel lt] in
/-- A whole array of more than 15 elements, before the first scan. -/
theorem partitioned_start (hlen : 15 < xs.length) :
    Partitioned lt (xs[xs.length / 2]) xs 0 xs.length := by
  have hget : xs[xs.length / 2]? = some (xs[xs.length / 2]) :=
    List.getElem?_eq_getElem (by omega)
  refine ⟨Nat.le_refl _, fun k x h => absurd h (Nat.not_lt_zero k), fun k x hk hx => ?_, ?_, ?_⟩
  · rw [List.getElem?_eq_none hk] at hx
    exact absurd hx (by simp)
  · exact ⟨_, _, Nat.zero_le _, hget, not_lt_self _⟩
  · exact ⟨_, _, by omega, Or.inr (by omega), hget, not_lt_self _⟩

variable [IsOrderConnected α lt]

theorem sortRec_spec : ∀ (fuel : Nat) (xs : List α), xs.length < fuel →
    ∃ ys, sortRec lt fuel xs = .ok ys ∧ ys.Perm xs ∧ ys.Pairwise fun x y => ¬ lt y x := by
  intro fuel
  induction fuel with
  | zero => exact fun xs h => absurd h (Nat.not_lt_zero _)
  | succ fuel ih =>
    intro xs hfuel
    unfold sortRec
    split
    · exact ⟨_, rfl, selectionSort_spec xs⟩
    · rename_i hlen
      rw [List.getElem?_eq_getElem (show xs.length / 2 < xs.length by omega)]
      have hstart : Partitioned lt _ xs 0 xs.length :=
        partitioned_start (Nat.lt_of_not_le hlen)
      obtain ⟨ys, m, hrun, hperm, hpos, hm, hlow, hhigh⟩ :=
        partition_spec (xs.length + 1) xs 0 xs.length (Nat.lt_succ_self _) hstart
      have hys := hperm.length_eq
      obtain ⟨left, hleft, hpl, hsl⟩ := ih (ys.take m) (by rw [List.length_take]; omega)
      obtain ⟨right, hright, hpr, hsr⟩ := ih (ys.drop m) (by rw [List.length_drop]; omega)
      refine ⟨left ++ right, ?_, ?_, ?_⟩
      · simp only [hrun, ok_bind, hleft, hright]
      · refine (hpl.append hpr).trans ?_
        rwa [List.take_append_drop]
      · refine List.pairwise_append.mpr ⟨hsl, hsr, fun x hx y hy hlt => ?_⟩
        rcases IsOrderConnected.conn _ xs[xs.length / 2] _ hlt with h | h
        · exact hhigh y (hpr.subset hy) h
        · exact hlow x (hpl.subset hx) h

variable (lt) in
/-- **`sort` sorts**: it returns the elements it was given, in order, and neither reads outside the
array nor fails to return. -/
theorem sort_sorted (xs : List α) :
    ∃ ys, sort lt xs = .ok ys ∧ ys.Perm xs ∧ ys.Pairwise fun x y => ¬ lt y x :=
  sortRec_spec _ xs (Nat.lt_succ_self _)

/-- An array that is partitioned. -/
theorem sort_sorted_range : ∃ ys, sort (· < ·) (List.range 20).reverse = .ok ys ∧
    ys.Perm (List.range 20).reverse ∧ ys.Pairwise fun x y => ¬ y < x :=
  haveI : IsOrderConnected Nat (· < ·) := ⟨fun _ b _ h => (Nat.lt_or_ge _ b).imp_right
    fun hb => Nat.lt_of_le_of_lt hb h⟩
  sort_sorted (· < ·) (List.range 20).reverse

end Order

/-! ## Sorting through a map -/

section Map

variable {β : Type} (f : β → α) (lt) (ys : List β)

theorem swap_map (i j : Nat) : swap (ys.map f) i j = (swap ys i j).map f := by
  unfold swap
  rw [List.getElem?_map, List.getElem?_map]
  cases ys[i]? with
  | none => rfl
  | some x =>
    cases ys[j]? with
    | none => rfl
    | some y => simp only [Option.map_some, List.map_set]

theorem ltAt_map (i j : Nat) :
    ltAt lt (ys.map f) i j = ltAt (fun x y => lt (f x) (f y)) ys i j := by
  unfold ltAt
  rw [List.getElem?_map, List.getElem?_map]
  cases ys[i]? with
  | none => rfl
  | some x =>
    cases ys[j]? with
    | none => rfl
    | some y => rfl

theorem selectionSort_map :
    selectionSort lt (ys.map f) = (selectionSort (fun x y => lt (f x) (f y)) ys).map f := by
  have hbest : ∀ (ys : List β) (i : Nat),
      bestIndex lt (ys.map f) i = bestIndex (fun x y => lt (f x) (f y)) ys i := by
    intro ys i
    unfold bestIndex
    simp only [ltAt_map, List.length_map]
  unfold selectionSort
  rw [List.length_map]
  refine List.foldl_hom (List.map f) fun zs i => ?_
  rw [hbest, swap_map]

theorem scanUp_map (pivot : β) : ∀ (ys : List β) (i : Nat),
    scanUp lt (f pivot) (ys.map f) i = scanUp (fun x y => lt (f x) (f y)) pivot ys i
  | [], _ => rfl
  | y :: ys, i => by
    rw [List.map_cons]
    unfold scanUp
    rw [scanUp_map pivot ys (i + 1)]

theorem scanDown_map (pivot : β) : ∀ j, scanDown lt (ys.map f) (f pivot) j =
    scanDown (fun x y => lt (f x) (f y)) ys pivot j
  | 0 => rfl
  | j + 1 => by
    unfold scanDown
    rw [List.getElem?_map, scanDown_map pivot j]
    cases ys[j]? with
    | none => rfl
    | some y => rfl

theorem partitionLoop_map (pivot : β) : ∀ (fuel : Nat) (ys : List β) (i j : Nat),
    partitionLoop lt (f pivot) fuel (ys.map f) i j =
      (partitionLoop (fun x y => lt (f x) (f y)) pivot fuel ys i j).map
        fun r => (r.1.map f, r.2) := by
  intro fuel
  induction fuel with
  | zero => exact fun _ _ _ => rfl
  | succ fuel ih =>
    intro ys i j
    unfold partitionLoop
    rw [← List.map_drop, scanUp_map]
    cases scanUp (fun x y => lt (f x) (f y)) pivot (ys.drop i) i with
    | error e => rfl
    | ok i =>
      simp only [ok_bind]
      rw [scanDown_map]
      cases scanDown (fun x y => lt (f x) (f y)) ys pivot j with
      | error e => rfl
      | ok j =>
        simp only [ok_bind]
        split
        · rfl
        · rw [swap_map, ih]

/-- **Sorting commutes with a map**, when the elements are compared through it. -/
theorem sortRec_map : ∀ (fuel : Nat) (ys : List β), sortRec lt fuel (ys.map f) =
    (sortRec (fun x y => lt (f x) (f y)) fuel ys).map (List.map f) := by
  intro fuel
  induction fuel with
  | zero => exact fun _ => rfl
  | succ fuel ih =>
    intro ys
    unfold sortRec
    rw [List.length_map]
    split
    · rw [selectionSort_map]
      rfl
    · rw [List.getElem?_map]
      cases ys[ys.length / 2]? with
      | none => rfl
      | some pivot =>
        simp only [Option.map_some]
        rw [partitionLoop_map]
        cases partitionLoop (fun x y => lt (f x) (f y)) pivot (ys.length + 1) ys 0 ys.length with
        | error e => rfl
        | ok r =>
          obtain ⟨zs, i⟩ := r
          simp only [Except.map, ok_bind]
          rw [← List.map_take, ← List.map_drop, ih, ih]
          cases sortRec (fun x y => lt (f x) (f y)) fuel (zs.take i) with
          | error e => rfl
          | ok left =>
            cases sortRec (fun x y => lt (f x) (f y)) fuel (zs.drop i) with
            | error e => rfl
            | ok right => simp [Except.map]

end Map

/-- **Sorting** by a comparison that is a strict weak order on the elements at hand. -/
theorem sort_subtype (P : α → Prop) (hP : ∀ x ∈ xs, P x)
    [Std.Asymm fun x y : { x // P x } => lt x y]
    [IsOrderConnected { x // P x } fun x y => lt x y] :
    ∃ ys, sort lt xs = .ok ys ∧ ys.Perm xs ∧ ys.Pairwise fun x y => ¬ lt y x := by
  obtain ⟨zs, rfl⟩ : ∃ zs : List { x // P x }, xs = zs.map Subtype.val :=
    ⟨xs.attachWith P hP, (List.attachWith_map_subtype_val ..).symm⟩
  obtain ⟨ys, hrun, hperm, hsorted⟩ :
      ∃ ys, sortRec (fun x y : { x // P x } => lt x y) (zs.length + 1) zs = .ok ys ∧
        ys.Perm zs ∧ ys.Pairwise fun x y : { x // P x } => ¬ lt y x :=
    sortRec_spec (zs.length + 1) zs (Nat.lt_succ_self _)
  refine ⟨ys.map Subtype.val, ?_, hperm.map _, List.pairwise_map.mpr hsorted⟩
  unfold sort
  rw [List.length_map, sortRec_map, hrun]
  rfl

end SymBreak.Mtl
