import SymBreak.Graph
import Mathlib.Data.Nat.Choose.Basic

/-!
# Reading a graph from a file

Model of `GraphReaderWriter::readGraph` (`core/GraphReaderWriter.cc:13-36`): the loop that skips to
a line, the search for the order of a triangle of that length, and the loop that fills the matrix.
A file is its characters; `getline` is that of the standard library.

Results:
* `skipLines_eq`: the loop stops one line early;
* `order_eq_iff`: the order is that of the shortest triangle that holds the line;
* `get_decode`: the line is read row by row of the whole matrix, not of its triangle;
* **`readGraph_iff`**: so the `k`-th line is returned iff the line before it happens to spell the
  first rows of the adjacency matrix.
-/

namespace SymBreak

/-! ## The stream -/

/-- A `std::ifstream`: the characters still to come, and whether neither `eofbit` nor `failbit` is
set. -/
structure Ifstream where
  rest : List Char
  good : Bool

/-- `std::getline(input, line)`: the stream and the line after it, and whether it succeeds. A stream
that is not good leaves the line as it was; the end of the file ends a line that has characters. -/
def getline (input : Ifstream) (line : List Char) : Ifstream × List Char × Bool :=
  if input.good then
    let line := input.rest.takeWhile (· ≠ '\n')
    match input.rest.dropWhile (· ≠ '\n') with
    | [] => (⟨[], false⟩, line, !line.isEmpty)
    | _ :: rest => (⟨rest, true⟩, line, true)
  else (input, line, false)

namespace GraphReaderWriter

open Matrix

/-! ## `readGraph` -/

/-- `while (i++ < k && std::getline(input, line))` (`GraphReaderWriter.cc:15-18`), where `i++ < k`
still holds `turns` times. -/
def skipLines : Nat → Ifstream → List Char → List Char
  | 0, _, line => line
  | turns + 1, input, line =>
    match getline input line with
    | (input, line, true) => skipLines turns input line
    | (_, line, false) => line

/-- `while (sum < line.size())` (`GraphReaderWriter.cc:23-26`): every turn adds to `sum`. -/
def orderLoop (size : Nat) : Nat → Nat → Nat → Nat
  | 0, _, n => n
  | fuel + 1, sum, n => if sum < size then orderLoop size fuel (sum + n) (n + 1) else n

/-- The order (`GraphReaderWriter.cc:20-26`). -/
def order (size : Nat) : Nat := orderLoop size size 0 1

/-- The matrix (`GraphReaderWriter.cc:27-32`). -/
def decode (line : List Char) : Matrix Int :=
  let n := order line.length
  (List.range line.length).foldl (fun adj j =>
    let r := j / n
    let c := j % n
    adj.set r c (if line.getD j '0' = '0' then 0 else 1)) (new n n)

/-- `readGraph` (`GraphReaderWriter.cc:13-36`): before the loop `i` is `1` and the line empty. -/
def readGraph (file : List Char) (k : Int) : Matrix Int :=
  decode (skipLines (k - 1).toNat ⟨file, true⟩ [])

/-! ## The loop over the lines -/

theorem getline_line {l rest line : List Char} (h : '\n' ∉ l) :
    getline ⟨l ++ '\n' :: rest, true⟩ line = (⟨rest, true⟩, l, true) := by
  have hall : ∀ c ∈ l, (decide (c ≠ '\n')) = true := fun c hc =>
    decide_eq_true fun he => h (he ▸ hc)
  rw [getline, if_pos rfl]
  simp only [List.takeWhile_append_of_pos hall, List.dropWhile_append_of_pos hall]
  simp

/-- **The loop stops one line early**: `turns` lines are read where there are more, and the last of
them is what it leaves. -/
theorem skipLines_eq (turns : Nat) (rest line : List Char)
    (h : turns < (rest.splitOn '\n').length) : skipLines turns ⟨rest, true⟩ line =
      if turns = 0 then line else (rest.splitOn '\n').getD (turns - 1) [] := by
  induction turns generalizing rest line with
  | zero => rfl
  | succ turns ih =>
    -- there is an end of line, since another line comes after it
    have hmem : '\n' ∈ rest := by
      by_contra hno
      rw [List.splitOn_eq_singleton hno] at h
      exact absurd h (by simp)
    obtain ⟨l, rest, rfl, hl⟩ := List.eq_append_cons_of_mem hmem
    rw [List.splitOn_append_cons_self_of_not_mem hl] at h ⊢
    rw [List.length_cons, Nat.add_lt_add_iff_right] at h
    rw [if_neg (Nat.succ_ne_zero turns), Nat.add_sub_cancel, skipLines, getline_line hl]
    simp only
    rw [ih rest l h]
    cases turns with
    | zero => rfl
    | succ turns => rfl

/-! ## The order -/

theorem triangle_le {a b : Nat} (h : a ≤ b) : a * (a - 1) / 2 ≤ b * (b - 1) / 2 :=
  Nat.div_le_div_right (Nat.mul_le_mul h (Nat.sub_le_sub_right h 1))

/-- The search, from `n` on: the first triangle that is large enough. -/
theorem orderLoop_spec {size : Nat} (fuel n : Nat) (hn : 1 ≤ n)
    (hfuel : size ≤ n * (n - 1) / 2 + fuel) :
    let N := orderLoop size fuel (n * (n - 1) / 2) n
    n ≤ N ∧ size ≤ N * (N - 1) / 2 ∧ (N = n ∨ (N - 1) * (N - 2) / 2 < size) := by
  induction fuel generalizing n with
  | zero => exact ⟨le_rfl, hfuel, Or.inl rfl⟩
  | succ fuel ih =>
    rw [orderLoop]
    by_cases hlt : n * (n - 1) / 2 < size
    · rw [if_pos hlt, ← Nat.triangle_succ]
      have hsucc := Nat.triangle_succ n
      obtain ⟨hle, hsize, hlast⟩ := ih (n + 1) (by omega) (by omega)
      refine ⟨by omega, hsize, Or.inr ?_⟩
      rcases hlast with heq | hlast
      · rw [heq]
        exact hlt
      · exact hlast
    · rw [if_neg hlt]
      exact ⟨le_rfl, by omega, Or.inl rfl⟩

theorem order_spec (size : Nat) : size ≤ order size * (order size - 1) / 2 ∧
    (order size = 1 ∨ (order size - 1) * (order size - 2) / 2 < size) :=
  (orderLoop_spec size 1 le_rfl (by omega)).2

/-- **The order** is that of the shortest triangle that holds the line. -/
theorem order_eq_iff {n size : Nat} (hn : 2 ≤ n) :
    order size = n ↔ (n - 1) * (n - 2) / 2 < size ∧ size ≤ n * (n - 1) / 2 := by
  obtain ⟨hle, hlast⟩ := order_spec size
  constructor
  · rintro rfl
    exact ⟨hlast.resolve_left (by omega), hle⟩
  · rintro ⟨hlt, hle'⟩
    rcases Nat.lt_trichotomy (order size) n with h | h | h
    · have hmono := hle.trans (triangle_le (show order size ≤ n - 1 by omega))
      exact absurd hlt (Nat.not_lt.mpr hmono)
    · exact h
    · have hmono := hle'.trans (triangle_le (show n ≤ order size - 1 by omega))
      exact absurd (hlast.resolve_left (by omega)) (Nat.not_lt.mpr hmono)

/-! ## The matrix -/

/-- **The line is read row by row** of the whole matrix; entries beyond it are `0`. -/
theorem get_decode (line : List Char) : let n := order line.length
    (decode line).nRows = n ∧ (decode line).nCols = n ∧ ∀ i < n, ∀ j < n,
      (decode line).get i j =
        if i * n + j < line.length ∧ line.getD (i * n + j) '0' ≠ '0' then 1 else 0 := by
  intro n
  have hsize : line.length ≤ n * n :=
    (order_spec line.length).1.trans
      ((Nat.div_le_self _ _).trans (Nat.mul_le_mul_left n (Nat.sub_le n 1)))
  have loop : ∀ m ≤ line.length,
      let adj := (List.range m).foldl (fun (adj : Matrix Int) j =>
        adj.set (j / n) (j % n) (if line.getD j '0' = '0' then 0 else 1)) (new n n)
      adj.nRows = n ∧ adj.nCols = n ∧ ∀ i < n, ∀ j < n,
        adj.get i j = if i * n + j < m ∧ line.getD (i * n + j) '0' ≠ '0' then 1 else 0 := by
    intro m
    induction m with
    | zero =>
      refine fun _ => ⟨rfl, rfl, fun i _ j _ => ?_⟩
      rw [List.range_zero, List.foldl_nil, get_new, if_neg (by omega)]
      rfl
    | succ m ih =>
      intro hm
      obtain ⟨hr, hc, hget⟩ := ih (by omega)
      obtain ⟨hdiv, hmod⟩ := div_mod_lt (show m < n * n by omega)
      rw [List.range_succ, List.foldl_append, List.foldl_cons, List.foldl_nil]
      refine ⟨hr, hc, fun i hi j hj => ?_⟩
      rw [get_set (by omega) (by omega) (by omega), hget i hi j hj]
      by_cases hpos : i * n + j = m
      · subst hpos
        rw [pos_div hj, pos_mod hj, if_pos ⟨rfl, rfl⟩]
        by_cases hzero : line.getD (i * n + j) '0' = '0'
        · rw [if_pos hzero, if_neg fun h => h.2 hzero]
        · rw [if_neg hzero, if_pos ⟨Nat.lt_succ_self _, hzero⟩]
      · have hne : ¬ (i = m / n ∧ j = m % n) := by
          rintro ⟨rfl, rfl⟩
          exact hpos (Nat.div_add_mod' m n)
        have hlt : i * n + j < m ↔ i * n + j < m + 1 := by omega
        rw [if_neg hne]
        exact if_congr (and_congr_left' hlt) rfl rfl
  exact loop line.length le_rfl

/-! ## The graph -/

/-- The triangle of a graph, as characters. -/
def triangleLine (idx : CanonicalIndexing) {n : Nat} (G : Graph n) : List Char :=
  (G.string idx).map fun b => if b then '1' else '0'

/-- `n` by `n`, and the entry of a pair says whether it is an edge. -/
structure IsAdjacencyMatrix {n : Nat} (adj : Matrix Int) (G : Graph n) : Prop where
  nRows : adj.nRows = n
  nCols : adj.nCols = n
  get : ∀ i < n, ∀ j < n, adj.get i j = if G.adj i j then 1 else 0

/-- The line is the beginning of the rows of the adjacency matrix, with no edge after its end, and
of a length for which the order is `n`. -/
structure SpellsRows {n : Nat} (line : List Char) (G : Graph n) : Prop where
  lt : (n - 1) * (n - 2) / 2 < line.length
  le : line.length ≤ n * (n - 1) / 2
  edge : ∀ i < n, ∀ j < n,
    (G.adj i j = true ↔ i * n + j < line.length ∧ line.getD (i * n + j) '0' ≠ '0')

theorem one_iff {p q : Prop} [Decidable p] [Decidable q] :
    (if p then 1 else 0 : Int) = (if q then 1 else 0) ↔ (p ↔ q) := by
  by_cases hp : p <;> by_cases hq : q <;> simp [hp, hq]

theorem decode_iff {n : Nat} (hn : 2 ≤ n) {line : List Char} {G : Graph n} :
    IsAdjacencyMatrix (decode line) G ↔ SpellsRows line G := by
  obtain ⟨hr, hc, hget⟩ := get_decode line
  constructor
  · intro h
    have horder : order line.length = n := hr.symm.trans h.nRows
    obtain ⟨hlt, hle⟩ := (order_eq_iff hn).mp horder
    refine ⟨hlt, hle, fun i hi j hj => ?_⟩
    rw [horder] at hget
    exact one_iff.mp ((h.get i hi j hj).symm.trans (hget i hi j hj))
  · intro h
    have horder : order line.length = n := (order_eq_iff hn).mpr ⟨h.lt, h.le⟩
    rw [horder] at hr hc hget
    refine ⟨hr, hc, fun i hi j hj => ?_⟩
    rw [hget i hi j hj]
    exact one_iff.mpr (h.edge i hi j hj).symm

/-- **`readGraph` returns the graph of the `k`-th line iff there is a line before it, and that one
spells the first rows of the adjacency matrix.** -/
theorem readGraph_iff {n : Nat} (hn : 2 ≤ n) (idx : CanonicalIndexing) (G : Graph n)
    (file : List Char) {k : Nat} (hk : 1 ≤ k)
    (hline : (file.splitOn '\n')[k - 1]? = some (triangleLine idx G)) :
    IsAdjacencyMatrix (readGraph file k) G ↔
      2 ≤ k ∧ SpellsRows ((file.splitOn '\n').getD (k - 2) []) G := by
  obtain ⟨hlt, -⟩ := List.getElem?_eq_some_iff.mp hline
  have hturns : ((k : Int) - 1).toNat = k - 1 := by omega
  rw [readGraph, hturns, skipLines_eq _ _ _ hlt, decode_iff hn]
  by_cases hone : k = 1
  · rw [if_pos (by omega)]
    exact ⟨fun h => absurd h.lt (Nat.not_lt_zero _), fun h => absurd h.1 (by omega)⟩
  · rw [if_neg (by omega), Nat.sub_sub]
    exact ⟨fun h => ⟨by omega, h⟩, fun h => h.2⟩

/-- Four vertices, the first two of them adjacent. -/
def firstEdge : Graph 4 where
  adj i j := decide (i + j = 1)
  symm i j := by rw [Nat.add_comm]
  irrefl i := decide_eq_false (by omega)
  bound i j h := by
    have := of_decide_eq_true h
    omega

theorem spellsRows_firstEdge : SpellsRows ['0', '1', '0', '0', '1', '0'] firstEdge :=
  ⟨by decide, by decide, by decide⟩

theorem readGraph_iff_firstEdge : IsAdjacencyMatrix
    (readGraph ['0', '1', '0', '0', '1', '0', '\n', '1', '0', '0', '0', '0', '0'] (2 : Nat))
    firstEdge :=
  (readGraph_iff (by decide) .upperTriangleRows firstEdge _ (by decide) (by decide +kernel)).mpr
    ⟨le_rfl, spellsRows_firstEdge⟩

/-- The edge of two vertices is not read back: from the first line nothing is read, and a line in
front of it that is the same puts the edge on the diagonal. -/
theorem readGraph_wrong :
    ((['1'].splitOn '\n')[1 - 1]? = some (triangleLine .upperTriangleRows (Graph.complete 2)) ∧
      (readGraph ['1'] 1).nRows = 1 ∧
      ¬ IsAdjacencyMatrix (readGraph ['1'] 1) (Graph.complete 2)) ∧
    ((['1', '\n', '1'].splitOn '\n')[2 - 1]? =
        some (triangleLine .upperTriangleRows (Graph.complete 2)) ∧
      (readGraph ['1', '\n', '1'] 2).get 0 0 = 1 ∧
      ¬ IsAdjacencyMatrix (readGraph ['1', '\n', '1'] 2) (Graph.complete 2)) := by
  have hrows : (readGraph ['1'] 1).nRows = 1 := by decide +kernel
  have hdiag : (readGraph ['1', '\n', '1'] 2).get 0 0 = 1 := by decide +kernel
  refine ⟨⟨by decide +kernel, hrows, fun h => ?_⟩, by decide +kernel, hdiag, fun h => ?_⟩
  · exact absurd (hrows.symm.trans h.nRows) (by decide)
  · exact absurd (hdiag.symm.trans (h.get 0 (by decide) 0 (by decide))) (by decide)

end GraphReaderWriter

end SymBreak
