import SymBreak.Mtl.Sort
import Mathlib.Data.Nat.ModEq

/-!
# Bounded queues

Model of `bqueue` (`core/BoundedQueue.h`), the moving averages that decide about restarts: an array
that is filled round and round, with the sum of what it holds. The solver only pushes and clears.

`Holds q n xs` says that `q` of size `n` has seen the pushes `xs` since it was cleared. Pushing
keeps it (`Holds.push`), so in every run the assertion of `push` holds and the queue gives the sum
and the average of the last `n` values, and is valid when there were so many (**`run_window`**). The
average of no values is a division by zero.
-/

namespace SymBreak.Glucose

abbrev Result (α : Type) := Except (Halt Mtl.Fault) α

/-- `bqueue` (`BoundedQueue.h:33-41`) -/
structure BQueue where
  elems : List Nat
  first : Nat
  last : Nat
  sumofqueue : Nat
  maxsize : Nat
  queuesize : Nat
  deriving DecidableEq, Repr

namespace BQueue

/-- `initSize` of a new queue (`BoundedQueue.h:45`, `growTo`) -/
def initSize (size : Nat) : BQueue := ⟨List.replicate size 0, 0, 0, 0, size, 0⟩

/-- `elems[first] = x; if ((++first) == maxsize) {first = 0; last = 0;}` -/
def store (q : BQueue) (x : Nat) : BQueue :=
  let q := { q with sumofqueue := q.sumofqueue + x, elems := q.elems.set q.first x }
  if q.first + 1 = q.maxsize then { q with first := 0, last := 0 }
  else { q with first := q.first + 1 }

/-- `push` (`BoundedQueue.h:47-58`) -/
def push (q : BQueue) (x : Nat) : Result BQueue :=
  if q.queuesize = q.maxsize then
    if q.last ≠ q.first then .error (.raised (.assertion "last==first"))
    else .ok (store { q with
      sumofqueue := q.sumofqueue - q.elems.getD q.last 0
      last := if q.last + 1 = q.maxsize then 0 else q.last + 1 } x)
  else .ok (store { q with queuesize := q.queuesize + 1 } x)

def getsum (q : BQueue) : Nat := q.sumofqueue

/-- `getavg` (`BoundedQueue.h:64`) -/
def getavg (q : BQueue) : Result Nat :=
  if q.queuesize = 0 then .error (.raised .divisionByZero)
  else .ok (q.sumofqueue / q.queuesize)

def isvalid (q : BQueue) : Bool := q.queuesize == q.maxsize

/-- `fastclear` (`BoundedQueue.h:99`) -/
def fastclear (q : BQueue) : BQueue :=
  { q with first := 0, last := 0, queuesize := 0, sumofqueue := 0 }

/-! ## The window -/

/-- The last `n` values. -/
def window (n : Nat) (xs : List Nat) : List Nat := xs.drop (xs.length - n)

/-- The queue of size `n` has seen the pushes `xs` since it was cleared. -/
structure Holds (q : BQueue) (n : Nat) (xs : List Nat) : Prop where
  maxsize : q.maxsize = n
  length : q.elems.length = n
  queuesize : q.queuesize = min xs.length n
  sum : q.sumofqueue = (window n xs).sum
  first : q.first = xs.length % n
  last : q.last = if xs.length < n then 0 else xs.length % n
  elems : ∀ j, j < xs.length → xs.length ≤ j + n → q.elems[j % n]? = xs[j]?

variable {q q' : BQueue} {n x : Nat} {xs : List Nat}

theorem holds_initSize (n : Nat) : Holds (initSize n) n [] := by
  refine ⟨rfl, List.length_replicate, by simp [initSize], by simp [initSize, window], ?_, ?_, ?_⟩
  · simp [initSize]
  · simp [initSize]
  · exact fun j h => absurd h (Nat.not_lt_zero j)

theorem Holds.fastclear (h : Holds q n xs) : Holds q.fastclear n [] := by
  refine ⟨h.maxsize, h.length, by simp [BQueue.fastclear], by simp [BQueue.fastclear, window],
    ?_, ?_, ?_⟩
  · simp [BQueue.fastclear]
  · simp [BQueue.fastclear]
  · exact fun j h => absurd h (Nat.not_lt_zero j)

theorem window_all (h : xs.length ≤ n) : window n xs = xs := by
  rw [window, Nat.sub_eq_zero_of_le h, List.drop_zero]

/-- The window moves on by one value. -/
theorem window_push (h : n ≤ xs.length) (hn : 0 < n) :
    window n xs = xs[xs.length - n] :: window (n - 1) xs := by
  unfold window
  rw [List.drop_eq_getElem_cons (by omega), show xs.length - n + 1 = xs.length - (n - 1) by omega]

theorem window_append (xs : List Nat) (x : Nat) (hn : 0 < n) :
    window n (xs ++ [x]) = window (n - 1) xs ++ [x] := by
  unfold window
  rw [List.length_append, List.length_singleton, List.drop_append_of_le_length (by omega),
    show xs.length + 1 - n = xs.length - (n - 1) by omega]

/-- The element that a full queue gives up. -/
theorem Holds.oldest (h : Holds q n xs) (hn : 0 < n) (hfull : n ≤ xs.length) :
    q.elems.getD q.last 0 = xs[xs.length - n] := by
  have := h.elems (xs.length - n) (by omega) (by omega)
  rw [← Nat.mod_eq_sub_mod hfull,
    List.getElem?_eq_getElem (show xs.length - n < xs.length by omega)] at this
  rw [h.last, if_neg (by omega), List.getD_eq_getElem?_getD, this, Option.getD_some]

theorem succ_mod {m n : Nat} (hn : 0 < n) :
    (m + 1) % n = if m % n + 1 = n then 0 else m % n + 1 := by
  have hlt := Nat.mod_lt m hn
  rw [Nat.add_mod]
  by_cases h1 : n = 1
  · subst h1
    simp [Nat.mod_one]
  · rw [Nat.mod_eq_of_lt (show 1 < n by omega)]
    split
    · rename_i h
      rw [h, Nat.mod_self]
    · exact Nat.mod_eq_of_lt (by omega)

/-- `store` adds the new value in front, when the sum, the size and the rear are already those of
the new window. -/
theorem holds_store (hn : 0 < n) (hmax : q.maxsize = n) (hlength : q.elems.length = n)
    (hsize : q.queuesize = min (xs.length + 1) n)
    (hsum : q.sumofqueue + x = (window n (xs ++ [x])).sum) (hfirst : q.first = xs.length % n)
    (hlast : (xs.length + 1) % n ≠ 0 →
      q.last = if xs.length + 1 < n then 0 else (xs.length + 1) % n)
    (helems : ∀ j, j < xs.length → xs.length < j + n → q.elems[j % n]? = xs[j]?) :
    Holds (q.store x) n (xs ++ [x]) := by
  have hlen : (xs ++ [x]).length = xs.length + 1 := by simp
  have hmod := succ_mod (m := xs.length) hn
  have helems' : ∀ j, j < (xs ++ [x]).length → (xs ++ [x]).length ≤ j + n →
      (q.elems.set q.first x)[j % n]? = (xs ++ [x])[j]? := by
    intro j hj hle
    rw [hlen] at hj hle
    rw [List.getElem?_set, hfirst, hlength]
    rcases Nat.lt_succ_iff_lt_or_eq.mp hj with hj | rfl
    · have hne : xs.length % n ≠ j % n := by
        intro h
        have hdvd := (Nat.modEq_iff_dvd' hj.le).mp h.symm
        exact absurd (Nat.le_of_dvd (by omega) hdvd) (by omega)
      rw [if_neg hne, List.getElem?_append_left hj]
      exact helems j hj (by omega)
    · rw [if_pos rfl, if_pos (Nat.mod_lt _ hn)]
      simp
  unfold store
  simp only [hmax, hfirst]
  rw [hfirst] at helems'
  by_cases hwrap : xs.length % n + 1 = n
  · rw [if_pos hwrap] at hmod ⊢
    refine ⟨rfl, by rwa [List.length_set], by rwa [hlen], hsum, by rw [hlen, hmod], ?_, helems'⟩
    rw [hlen, hmod, ite_self]
  · rw [if_neg hwrap] at hmod ⊢
    refine ⟨rfl, by rwa [List.length_set], by rwa [hlen], hsum, by rw [hlen, hmod], ?_, helems'⟩
    rw [hlen]
    exact hlast (by omega)

/-- **A push** is recorded, and its assertion holds. -/
theorem Holds.push (h : Holds q n xs) (hn : 0 < n) (x : Nat) :
    ∃ q', q.push x = .ok q' ∧ Holds q' n (xs ++ [x]) := by
  unfold BQueue.push
  by_cases hfull : n ≤ xs.length
  · -- the oldest value leaves the window
    have hsize : q.queuesize = q.maxsize := by
      rw [h.queuesize, h.maxsize, Nat.min_eq_right hfull]
    have hlast : q.last = xs.length % n := by rw [h.last, if_neg (Nat.not_lt.mpr hfull)]
    have hsum : q.sumofqueue - q.elems.getD q.last 0 + x = (window n (xs ++ [x])).sum := by
      rw [h.oldest hn hfull, h.sum, window_push hfull hn, window_append xs x hn, List.sum_cons,
        List.sum_append, List.sum_singleton, Nat.add_sub_cancel_left]
    rw [if_pos hsize, if_neg (not_not.mpr (hlast.trans h.first.symm))]
    refine ⟨_, rfl, holds_store hn h.maxsize h.length ?_ hsum h.first (fun hne => ?_)
      fun j hj hle => h.elems j hj hle.le⟩
    · rw [hsize, h.maxsize]
      omega
    · simp only [hlast, h.maxsize]
      rw [if_neg (show ¬ xs.length + 1 < n by omega)]
      exact (succ_mod hn).symm
  · -- there is room
    have hlt : xs.length < n := Nat.lt_of_not_le hfull
    have hsize : q.queuesize = xs.length := by rw [h.queuesize, Nat.min_eq_left hlt.le]
    have hsum : q.sumofqueue + x = (window n (xs ++ [x])).sum := by
      rw [h.sum, window_all hlt.le, window_all (by simpa using Nat.succ_le_of_lt hlt),
        List.sum_append, List.sum_singleton]
    rw [if_neg (by rw [hsize, h.maxsize]; omega)]
    refine ⟨_, rfl, holds_store hn h.maxsize h.length ?_ hsum h.first (fun hne => ?_)
      fun j hj hle => h.elems j hj hle.le⟩
    · rw [Nat.min_eq_left hlt]
      exact congrArg (· + 1) hsize
    · have hlt' : xs.length + 1 < n := by
        rcases Nat.lt_or_eq_of_le (Nat.succ_le_of_lt hlt) with hlt | heq
        · exact hlt
        · exact absurd (by rw [← heq, Nat.mod_self]) hne
      rw [if_pos hlt', h.last, if_pos hlt]

/-- **The average** of an empty window is a division by zero. -/
theorem Holds.getavg (h : Holds q n xs) (hn : 0 < n) :
    q.getavg = if xs = [] then .error (.raised .divisionByZero)
      else .ok ((window n xs).sum / (window n xs).length) := by
  have hsize : q.queuesize = (window n xs).length := by
    rw [h.queuesize, window, List.length_drop]
    omega
  have hzero : (window n xs).length = 0 ↔ xs = [] := by
    rw [window, List.length_drop, ← List.length_eq_zero_iff]
    omega
  unfold BQueue.getavg
  simp only [hsize, hzero, h.sum]

/-! ## Runs -/

/-- A call of the solver. -/
inductive Op where
  | push (x : Nat)
  | fastclear

/-- One call. -/
def Op.run (q : BQueue) : Op → Result BQueue
  | .push x => q.push x
  | .fastclear => .ok q.fastclear

/-- The values pushed since the last `fastclear`. -/
def Op.pushed (xs : List Nat) : Op → List Nat
  | .push x => xs ++ [x]
  | .fastclear => []

theorem Holds.run (h : Holds q n xs) (hn : 0 < n) : ∀ ops : List Op,
    ∃ q', ops.foldlM Op.run q = .ok q' ∧ Holds q' n (ops.foldl Op.pushed xs) := by
  intro ops
  induction ops generalizing q xs with
  | nil => exact ⟨q, rfl, h⟩
  | cons op ops ih =>
    cases op with
    | push x =>
      obtain ⟨q', hpush, hq'⟩ := h.push hn x
      obtain ⟨q'', hrun, hq''⟩ := ih hq'
      exact ⟨q'', by rw [List.foldlM_cons, Op.run, hpush, ok_bind, hrun], hq''⟩
    | fastclear =>
      obtain ⟨q'', hrun, hq''⟩ := ih h.fastclear
      exact ⟨q'', by rw [List.foldlM_cons, Op.run, ok_bind, hrun], hq''⟩

/-- **The queue is a window**: after any calls it holds the last `n` values pushed since it was
cleared, and is valid when there were that many. It has an average when there was one. -/
theorem run_window (n : Nat) (hn : 0 < n) (ops : List Op) :
    ∃ q, ops.foldlM Op.run (initSize n) = .ok q ∧
      q.getsum = (window n (ops.foldl Op.pushed [])).sum ∧
      q.getavg = (if ops.foldl Op.pushed [] = [] then .error (.raised .divisionByZero)
        else .ok ((window n (ops.foldl Op.pushed [])).sum /
          (window n (ops.foldl Op.pushed [])).length)) ∧
      (q.isvalid = true ↔ n ≤ (ops.foldl Op.pushed []).length) := by
  obtain ⟨q, hrun, h⟩ := (holds_initSize n).run hn ops
  refine ⟨q, hrun, h.sum, h.getavg hn, ?_⟩
  rw [isvalid, beq_iff_eq, h.queuesize, h.maxsize]
  omega

theorem run_window_three : ∃ q,
    [Op.push 5, .fastclear, .push 1, .push 2, .push 3, .push 4].foldlM Op.run (initSize 3) = .ok q ∧
      q.getsum = (window 3 [1, 2, 3, 4]).sum ∧
      q.getavg = (if [1, 2, 3, 4] = [] then .error (.raised .divisionByZero)
        else .ok ((window 3 [1, 2, 3, 4]).sum / (window 3 [1, 2, 3, 4]).length)) ∧
      (q.isvalid = true ↔ 3 ≤ [1, 2, 3, 4].length) :=
  run_window 3 (by decide) _

/-- After `fastclear` there is nothing to divide by. -/
example : ((initSize 3).push 5).bind (fun q => q.fastclear.getavg) =
    .error (.raised .divisionByZero) := rfl

end BQueue

end SymBreak.Glucose
