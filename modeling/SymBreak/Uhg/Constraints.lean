import SymBreak.Uhg.SymmetryBreaking

/-!
# The constraints of a search

Model of the methods of `UHGSearch` that post constraints before the search (`UHGSearch.java:25-161,
247-325`). A state of the model is the graph with the pairs fixed so far and the constraints handed
to Choco, each with its array of variables as the code filled it: an entry that was not assigned is
null. A method that throws leaves behind what it had handed over until then (`Thrown`).

Results:
* `fill_eq`: what an array holds after the loop that fills it;
* `posts_eq`: a loop that posts one constraint in every turn;
* `degreeSum_eq`, `chordSum_eq`: the sums over the undecided variables of a row, and of all rows;
* **`degreeSum_holds`, `chordSum_holds`**: while all that is fixed are the cycle and non-edges,
  these sums say what they should of the degrees and of the number of chords, however many non-edges
  are fixed;
* **`filled_degreeSum`, `filled_chordSum`**: their arrays are filled iff no non-edge is fixed.
-/

namespace SymBreak

namespace Graph

variable {n : Nat}

/-- The number of edges that are not on the cycle `0, 1, …, n - 1`. -/
def chords (G : Graph n) : Nat :=
  (Uhg.allVars n).countP fun e => G.adj e.1 e.2 && decide (Uhg.Utils.cycleDist e.1 e.2 n ≠ 1)

end Graph

namespace Uhg

open Graph

variable {n : Nat}

/-! ## Model -/

/-- The variable of a pair of vertices, named by the pair as `getEdge` returns it
(`AdjMatrixBoolVar.java:14-22`): the smaller vertex comes first. -/
abbrev BoolVar := Nat × Nat

/-- The operators of `model.sum`. -/
inductive Operator where
  | eq
  | lt
  | gt
  deriving DecidableEq, Repr

/-- The comparison that an operator stands for. -/
def Operator.Compares : Operator → Int → Int → Prop
  | .eq, a, b => a = b
  | .lt, a, b => a < b
  | .gt, a, b => a > b

/-- What is handed to `model.sum`, `model.or` and `model.lexLessEq`. -/
inductive Posted where
  | sum (vars : List (Option BoolVar)) (op : Operator) (c : Int)
  | or (vars : List (Option BoolVar))
  | lexLessEq (vec1 vec2 : List (Option BoolVar))
  deriving DecidableEq, Repr

namespace Posted

/-- The arrays have no null entries. -/
def Filled : Posted → Prop
  | .sum vars _ _ => ∀ v ∈ vars, v ≠ none
  | .or vars => ∀ v ∈ vars, v ≠ none
  | .lexLessEq vec1 vec2 => (∀ v ∈ vec1, v ≠ none) ∧ ∀ v ∈ vec2, v ≠ none

/-- The value of an entry in a complete graph. -/
def value (G : Graph n) : Option BoolVar → Bool
  | some v => G.adj v.1 v.2
  | none => false

/-- The constraint holds of a complete graph. -/
def Holds (G : Graph n) : Posted → Prop
  | .sum vars op c => op.Compares (vars.countP (value G)) c
  | .or vars => ∃ v ∈ vars, value G v = true
  | .lexLessEq vec1 vec2 => Uhg.lexLessEq (vec1.map (value G)) (vec2.map (value G))

@[simp] theorem filled_sum {vars : List (Option BoolVar)} {op : Operator} {c : Int} :
    (sum vars op c).Filled ↔ ∀ v ∈ vars, v ≠ none := Iff.rfl

@[simp] theorem filled_or {vars : List (Option BoolVar)} :
    (or vars).Filled ↔ ∀ v ∈ vars, v ≠ none := Iff.rfl

@[simp] theorem holds_sum {G : Graph n} {vars : List (Option BoolVar)} {op : Operator} {c : Int} :
    (sum vars op c).Holds G ↔ op.Compares (vars.countP (value G)) c := Iff.rfl

@[simp] theorem holds_lexLessEq {G : Graph n} {vec1 vec2 : List (Option BoolVar)} :
    (lexLessEq vec1 vec2).Holds G ↔
      Uhg.lexLessEq (vec1.map (value G)) (vec2.map (value G)) := Iff.rfl

@[simp] theorem holds_or {G : Graph n} {vars : List (Option BoolVar)} :
    (or vars).Holds G ↔ ∃ v ∈ vars, value G v = true := Iff.rfl

end Posted

/-- `UHGSearch`: the graph, what was handed to Choco, the lengths for which `PropNoCycle` was
posted, and the fields that `setCase` reads. -/
structure UHGSearch (n : Nat) where
  graph : UnknownGraph n
  posted : List Posted
  noCycle : List Int
  splitLevel : Nat
  split : Int

/-- A method threw in this state. -/
structure Thrown (n : Nat) where
  exn : Halt Exn
  search : UHGSearch n

/-- What a method returns or throws. -/
abbrev Outcome (n : Nat) := Except (Thrown n) (UHGSearch n)

/-- The state in the end, whether the method returned or threw. -/
def Outcome.final : Outcome n → UHGSearch n
  | .ok u => u
  | .error t => t.search

/-- `vars[index++] = v` for every `v`, in an array of the given size. -/
def fill (size : Nat) (vs : List (Option BoolVar)) :
    Except (Halt Exn) (List (Option BoolVar)) := do
  let vars ← vs.foldlM (fun (vars : List (Option BoolVar) × Nat) v =>
      if vars.2 < vars.1.length then .ok (vars.1.set vars.2 v, vars.2 + 1)
      else .error (.raised .indexOutOfBounds)) (List.replicate size none, 0)
  .ok vars.1

/-- `getEdgeVar` (`UnknownGraph.java:49-51`): null on the diagonal. -/
def getEdgeVar (n i j : Nat) : Except (Halt Exn) (Option BoolVar) :=
  if i < n ∧ j < n then .ok (if i < j then some (i, j) else if j < i then some (j, i) else none)
  else .error (.raised .indexOutOfBounds)

/-- The ends `(i - k + n) % n` and `i` of the chord of length `k` at `i`; the remainder is the one
of the division towards zero, and negative when `k` is too large. -/
def chordEnds (n k i : Nat) : Except (Halt Exn) (Nat × Nat) :=
  let a := ((i : Int) - k + n).tmod n
  if a < 0 then .error (.raised .indexOutOfBounds) else .ok (a.toNat, i)

/-- The variables of the chords of length `k`, one for every vertex. -/
def chordVars (n k : Nat) : Except (Halt Exn) (List (Option BoolVar)) :=
  (List.range n).mapM fun i => do
    let e ← chordEnds n k i
    getEdgeVar n e.1 e.2

/-- The loop of `numToChordSeq`; `i` is one more than the index. -/
def chordSeqLoop (base : Nat) : Nat → Nat → Nat → List Nat → Except (Halt Exn) (List Nat)
  | 0, _, _, _ => .error .outOfFuel
  | fuel + 1, num, i, v =>
    if 0 < num then
      if i = 0 then .error (.raised .indexOutOfBounds)
      else chordSeqLoop base fuel (num / base) (i - 1) (v.set (i - 1) (num % base))
    else .ok v

/-- `numToChordSeq` (`UHGSearch.java:300-309`) -/
def numToChordSeq (n splitLevel num fuel : Nat) : Except (Halt Exn) (List Nat) :=
  chordSeqLoop (n + 1) fuel num splitLevel (List.replicate splitLevel 0)

/-- `ds[i]` -/
def entry (ds : List Int) (i : Nat) : Except (Halt Exn) Int :=
  match ds[i]? with
  | some d => .ok d
  | none => .error (.raised .indexOutOfBounds)

namespace UHGSearch

/-- What throws in a state. -/
def attempt {α : Type} (u : UHGSearch n) : Except (Halt Exn) α → Except (Thrown n) α
  | .ok a => .ok a
  | .error e => .error ⟨e, u⟩

/-- Hand a constraint to Choco. -/
def post (u : UHGSearch n) (p : Posted) : UHGSearch n := { u with posted := u.posted ++ [p] }

/-- Hand over several. -/
def postAll (u : UHGSearch n) (ps : List Posted) : UHGSearch n :=
  { u with posted := u.posted ++ ps }

/-- `new UHGSearch(n)` (`UHGSearch.java:25-35`) -/
def new (n : Nat) : Except (Halt Exn) (UHGSearch n) := do
  let g ← fixHamCycle n
  .ok ⟨g, [], [], 3, -1⟩

/-- `girthAtLeast` (`UHGSearch.java:43-47`) -/
def girthAtLeast (k : Int) (u : UHGSearch n) : UHGSearch n :=
  { u with noCycle := u.noCycle ++ (List.range' 3 (k - 3).toNat).map fun i => (i : Int) }

/-- A sum over the undecided variables (`UHGSearch.java:50-83`). -/
def chordSum (op : Operator) (c : Int) (u : UHGSearch n) : Outcome n := do
  let vars ← u.attempt (fill (n * (n - 1) / 2 - n) ((undecided u.graph).map some))
  .ok (u.post (.sum vars op c))

/-- `numberOfChords` (`UHGSearch.java:74-83`) -/
def numberOfChords (m : Int) : UHGSearch n → Outcome n := chordSum .eq m

/-- `symmetryBreaking` (`UHGSearch.java:85-100`) -/
def symmetryBreaking (u : UHGSearch n) : Outcome n :=
  (Utils.dihedralGroupPermutations n).foldlM (fun u p => do
    let vec1 ← u.attempt ((allVars n).mapM fun e => getEdgeVar n e.1 e.2)
    let vec2 ← u.attempt ((allVars n).mapM fun e => getEdgeVar n (p.getD e.1 0) (p.getD e.2 0))
    .ok (u.post (.lexLessEq vec1 vec2))) u

/-- No chord of length `len` (`UHGSearch.java:107-115`); a contradiction is caught. -/
def excludeChords (len : Nat) (u : UHGSearch n) : Outcome n :=
  (List.range n).foldlM (fun u i => do
    let e ← u.attempt (chordEnds n len i)
    match u.graph.fixEdgeValue e.1 e.2 false with
    | .ok g => .ok { u with graph := g }
    | .error (.raised .contradiction) => .ok u
    | .error x => .error ⟨x, u⟩) u

/-- At least one chord of length `k` (`UHGSearch.java:119-130`). -/
def someChord (k : Nat) (u : UHGSearch n) : Outcome n := do
  let vars ← u.attempt (chordVars n k)
  .ok (u.post (.or vars))

/-- `shortestChord` (`UHGSearch.java:104-131`) -/
def shortestChord (k : Nat) (u : UHGSearch n) : Outcome n := do
  let u ← (List.range' 2 (k - 2)).foldlM (fun u len => excludeChords len u) u
  u.someChord k

/-- `longestChord` (`UHGSearch.java:133-161`) -/
def longestChord (k : Nat) (u : UHGSearch n) : Outcome n := do
  let u ← (List.range' (k + 1) (n / 2 - k)).foldlM (fun u len => excludeChords len u) u
  u.someChord k

/-- A sum for every vertex over the undecided variables of its row (`UHGSearch.java:247-287`). -/
def degreeSum (op : Operator) (c : Nat → Except (Halt Exn) Int) (u : UHGSearch n) : Outcome n :=
  (List.range n).foldlM (fun u i => do
    let vs ← u.attempt (((List.range n).filter fun j =>
      decide (i ≠ j ∧ u.graph.edgeStatus i j = .UNDEFINED)).mapM fun j => getEdgeVar n i j)
    let row ← u.attempt (fill (n - 3) vs)
    let c ← u.attempt (c i)
    .ok (u.post (.sum row op c))) u

/-- `fixDegrees` (`UHGSearch.java:247-259`) -/
def fixDegrees (ds : List Int) : UHGSearch n → Outcome n :=
  degreeSum .eq fun i => do
    let d ← entry ds i
    .ok (d - 2)

/-- `minDegree` (`UHGSearch.java:261-273`) -/
def minDegree (d : Int) : UHGSearch n → Outcome n := degreeSum .gt fun _ => .ok (d - 3)

/-- `maxDegree` (`UHGSearch.java:275-287`) -/
def maxDegree (d : Int) : UHGSearch n → Outcome n := degreeSum .lt fun _ => .ok (d - 1)

/-- `regular` (`UHGSearch.java:336-342`) -/
def regular (deg : Int) : UHGSearch n → Outcome n := fixDegrees (List.replicate n deg)

/-- `numberOfChordsOfLengthK` (`UHGSearch.java:312-325`): the variables are collected in a set. -/
def numberOfChordsOfLengthK (k cnt : Nat) (u : UHGSearch n) : Outcome n := do
  let kchords ← u.attempt (chordVars n k)
  .ok (u.post (.sum kchords.dedup .eq cnt))

/-- `setSplitLevel` (`UHGSearch.java:332-334`) -/
def setSplitLevel (val : Nat) (u : UHGSearch n) : UHGSearch n := { u with splitLevel := val }

/-- `setCase` (`UHGSearch.java:289-298`) -/
def setCase (num fuel : Nat) (u : UHGSearch n) : Outcome n := do
  let u := { u with split := num }
  let vec ← u.attempt (numToChordSeq n u.splitLevel num fuel)
  (vec.zipIdx 2).foldlM (fun u p => numberOfChordsOfLengthK p.2 p.1 u) u

end UHGSearch

/-! ## Arrays -/

theorem fill_eq {size : Nat} {vs : List (Option BoolVar)} (h : vs.length ≤ size) :
    fill size vs = .ok (vs ++ List.replicate (size - vs.length) none) := by
  -- the first `pre.length` entries are assigned, the others null
  have turns : ∀ (vs pre : List (Option BoolVar)) (m : Nat), vs.length ≤ m →
      vs.foldlM (m := Except (Halt Exn)) (fun (vars : List (Option BoolVar) × Nat) v =>
        if vars.2 < vars.1.length then .ok (vars.1.set vars.2 v, vars.2 + 1)
        else .error (.raised .indexOutOfBounds)) (pre ++ List.replicate m none, pre.length) =
      .ok (pre ++ (vs ++ List.replicate (m - vs.length) none), pre.length + vs.length) := by
    intro vs
    induction vs with
    | nil => exact fun pre m _ => rfl
    | cons v vs ih =>
      intro pre m hm
      obtain ⟨m, rfl⟩ : ∃ k, m = k + 1 := ⟨m - 1, by rw [List.length_cons] at hm; omega⟩
      rw [List.length_cons, Nat.add_le_add_iff_right] at hm
      have h' := ih (pre ++ [v]) m hm
      rw [List.foldlM_cons, if_pos (by simp), ok_bind, List.replicate_succ,
        List.set_append_right _ _ le_rfl, Nat.sub_self, List.set_cons_zero]
      rw [List.length_append, List.length_singleton, List.append_assoc, List.singleton_append] at h'
      rw [h', List.length_cons, Nat.add_sub_add_right, List.append_assoc, Nat.add_right_comm,
        Nat.add_assoc]
      rfl
  have h' := turns vs [] size h
  rw [List.nil_append, List.length_nil] at h'
  unfold fill
  rw [h']
  rfl

/-- The array is filled iff the variables are as many as its entries. -/
theorem filled_fill_iff {size : Nat} {vs : List BoolVar} (h : vs.length ≤ size) :
    (∀ v ∈ vs.map some ++ List.replicate (size - vs.length) none, v ≠ none) ↔
      vs.length = size := by
  constructor
  · intro hall
    by_contra hne
    exact hall none (List.mem_append_right _ (List.mem_replicate.mpr ⟨by omega, rfl⟩)) rfl
  · rintro rfl v hv
    rw [Nat.sub_self, List.replicate_zero, List.append_nil] at hv
    obtain ⟨e, -, rfl⟩ := List.mem_map.mp hv
    exact Option.some_ne_none e

/-- The variables that are true, in an array that may have null entries. -/
theorem countP_fill (G : Graph n) (vs : List BoolVar) (m : Nat) :
    (vs.map some ++ List.replicate m none).countP (Posted.value G) =
      vs.countP fun e => G.adj e.1 e.2 := by
  rw [List.countP_append, List.countP_map, List.countP_replicate]
  rfl

theorem entry_eq {ds : List Int} {i : Nat} (h : i < ds.length) :
    entry ds i = .ok (ds.getD i 0) := by
  unfold entry
  rw [List.getElem?_eq_getElem h, List.getD_eq_getElem _ _ h]

/-- The variable of a pair of different vertices. -/
def edgeVar (i j : Nat) : BoolVar := if i < j then (i, j) else (j, i)

theorem getEdgeVar_eq {i j : Nat} (hi : i < n) (hj : j < n) (hij : i ≠ j) :
    getEdgeVar n i j = .ok (some (edgeVar i j)) := by
  unfold getEdgeVar edgeVar
  rw [if_pos ⟨hi, hj⟩]
  by_cases h : i < j
  · rw [if_pos h, if_pos h]
  · rw [if_neg h, if_neg h, if_pos (by omega)]

@[simp] theorem adj_edgeVar (G : Graph n) (i j : Nat) :
    G.adj (edgeVar i j).1 (edgeVar i j).2 = G.adj i j := by
  unfold edgeVar
  split
  · rfl
  · exact G.symm j i

/-! ## Loops that post constraints -/

namespace UHGSearch

@[simp] theorem attempt_ok {α : Type} (u : UHGSearch n) (a : α) : u.attempt (.ok a) = .ok a := rfl

theorem postAll_nil (u : UHGSearch n) : u.postAll [] = u := by
  unfold postAll
  rw [List.append_nil]

/-- **A loop that posts one constraint in every turn.** -/
theorem posts_eq {ι : Type} {f : UHGSearch n → ι → Outcome n} {p : ι → Posted} (l : List ι)
    (u : UHGSearch n)
    (h : ∀ u' : UHGSearch n, u'.graph = u.graph → ∀ i ∈ l, f u' i = .ok (u'.post (p i))) :
    l.foldlM f u = .ok (u.postAll (l.map p)) := by
  induction l generalizing u with
  | nil =>
    rw [List.map_nil, postAll_nil]
    rfl
  | cons i l ih =>
    rw [List.foldlM_cons, h u rfl i List.mem_cons_self, ok_bind]
    refine (ih (u.post (p i)) fun u' hu' j hj => h u' hu' j (List.mem_cons_of_mem i hj)).trans ?_
    unfold postAll post
    rw [List.append_assoc, List.singleton_append, List.map_cons]

end UHGSearch

/-! ## Degrees and chords -/

theorem countP_and_add {α : Type} (p q : α → Bool) (l : List α) :
    l.countP p = l.countP (fun a => p a && q a) + l.countP fun a => p a && !q a := by
  induction l with
  | nil => rfl
  | cons a l ih =>
    simp only [List.countP_cons, ih]
    cases p a <;> cases q a <;> simp <;> omega

/-- The neighbours on the cycle. -/
theorem cycleGraph_adj_iff (hn : 3 ≤ n) {i j : Nat} (hi : i < n) : (cycleGraph n).Adj i j ↔
    j < n ∧ (j = i + 1 ∨ i = j + 1 ∨ (i = 0 ∧ j = n - 1) ∨ (j = 0 ∧ i = n - 1)) := by
  constructor
  · intro h
    have hj := (cycleGraph n).lt_right h
    rcases Nat.lt_or_gt_of_ne ((cycleGraph n).ne_of_adj h) with hij | hij
    · have := (Utils.cycleDist_eq_one hn hij hj).mp ((cycleGraph_adj hn hij hj).mp h)
      omega
    · have := (Utils.cycleDist_eq_one hn hij hi).mp ((cycleGraph_adj hn hij hi).mp h.symm)
      omega
  · rintro ⟨hj, h⟩
    rcases Nat.lt_trichotomy i j with hij | rfl | hij
    · exact (cycleGraph_adj hn hij hj).mpr ((Utils.cycleDist_eq_one hn hij hj).mpr (by omega))
    · omega
    · exact ((cycleGraph_adj hn hij hi).mpr
        ((Utils.cycleDist_eq_one hn hij hi).mpr (by omega))).symm

/-- Counting the elements of a list that are exactly those of another. -/
theorem countP_eq_length_of_mem {α : Type} {l : List α} (l' : List α) {p : α → Bool} (hl : l.Nodup)
    (hl' : l'.Nodup) (h : ∀ a, a ∈ l' ↔ a ∈ l ∧ p a = true) : l.countP p = l'.length := by
  rw [List.countP_eq_length_filter]
  refine ((List.perm_ext_iff_of_nodup (hl.filter _) hl').mpr fun a => ?_).length_eq
  rw [List.mem_filter, h]

/-- A vertex has two neighbours on the cycle. -/
theorem degree_cycleGraph (hn : 3 ≤ n) {i : Nat} (hi : i < n) : (cycleGraph n).degree i = 2 := by
  refine countP_eq_length_of_mem ([if i + 1 < n then i + 1 else 0,
    if i = 0 then n - 1 else i - 1]) List.nodup_range ?_ fun j => ?_
  · rw [List.nodup_cons, List.mem_singleton]
    refine ⟨?_, List.nodup_singleton _⟩
    split_ifs <;> omega
  · have h := cycleGraph_adj_iff hn hi (j := j)
    unfold Graph.Adj at h
    rw [h, List.mem_range, List.mem_cons, List.mem_singleton]
    split_ifs <;> omega

/-- The other vertices that are not its neighbours on the cycle. -/
theorem countP_chords (hn : 3 ≤ n) {i : Nat} (hi : i < n) :
    (List.range n).countP (fun j => decide (j ≠ i) && !(cycleGraph n).adj i j) = n - 3 := by
  have h1 := countP_and_add (fun j => decide (j ≠ i)) ((cycleGraph n).adj i) (List.range n)
  have h2 : (List.range n).countP (fun j => decide (j ≠ i) && (cycleGraph n).adj i j) = 2 := by
    rw [← degree_cycleGraph hn hi]
    refine List.countP_congr fun j _ => ?_
    rw [Bool.and_eq_true, decide_eq_true_iff, and_iff_right_of_imp fun h =>
      ((cycleGraph n).ne_of_adj h).symm]
  have h3 := List.length_eq_countP_add_countP (fun j => decide (j ≠ i)) (l := List.range n)
  have h4 : (List.range n).countP (fun j => decide ¬ (decide (j ≠ i)) = true) = 1 := by
    refine (countP_eq_length_of_mem [i] List.nodup_range (List.nodup_singleton i)
      fun j => ?_)
    rw [List.mem_singleton, List.mem_range, decide_eq_true_iff, decide_eq_true_iff, not_ne_iff]
    exact ⟨fun h => ⟨by omega, h⟩, fun h => h.2⟩
  rw [List.length_range] at h3
  omega

/-- The cycle has as many edges as vertices. -/
theorem countP_allVars (hn : 3 ≤ n) :
    (allVars n).countP (fun e => !(cycleGraph n).adj e.1 e.2) = n * (n - 1) / 2 - n := by
  have h1 := List.length_eq_countP_add_countP (fun e : Nat × Nat => (cycleGraph n).adj e.1 e.2)
    (l := allVars n)
  have h2 : (allVars n).countP (fun e => (cycleGraph n).adj e.1 e.2) = n := by
    refine (countP_eq_length_of_mem
      ((List.range n).map fun i => if i + 1 < n then (i, i + 1) else (0, i))
      (Matrix.nodup_pairs .upperTriangleRows n) ?_ fun e => ?_).trans (by
        rw [List.length_map, List.length_range])
    · refine (List.nodup_map_iff_inj_on List.nodup_range).mpr fun a ha b hb hab => ?_
      rw [List.mem_range] at ha hb
      split_ifs at hab <;> rw [Prod.mk.injEq] at hab <;> omega
    · obtain ⟨i, j⟩ := e
      change _ ↔ (i, j) ∈ Matrix.upperPairs n ∧ _
      rw [Matrix.mem_upperPairs, List.mem_map]
      constructor
      · rintro ⟨k, hk, he⟩
        rw [List.mem_range] at hk
        split_ifs at he with hlt
        · obtain ⟨rfl, rfl⟩ := Prod.mk.inj he
          exact ⟨⟨by omega, hlt⟩, (cycleGraph_adj_iff hn hk).mpr ⟨hlt, by omega⟩⟩
        · obtain ⟨rfl, rfl⟩ := Prod.mk.inj he
          exact ⟨⟨by omega, hk⟩, (cycleGraph_adj_iff hn (by omega)).mpr ⟨hk, by omega⟩⟩
      · rintro ⟨⟨hij, hj⟩, hadj⟩
        obtain ⟨-, h⟩ := (cycleGraph_adj_iff hn (by omega)).mp hadj
        rcases Nat.eq_or_lt_of_le (show i + 1 ≤ j from hij) with rfl | hlt
        · exact ⟨i, List.mem_range.mpr (by omega), if_pos hj⟩
        · refine ⟨j, List.mem_range.mpr hj, ?_⟩
          rw [if_neg (by omega), show i = 0 by omega]
  have h3 : (allVars n).length = n * (n - 1) / 2 := Matrix.length_pairs .upperTriangleRows n
  have h4 : (allVars n).countP (fun e => !(cycleGraph n).adj e.1 e.2) =
      (allVars n).countP fun e => decide ¬ (cycleGraph n).adj e.1 e.2 = true :=
    List.countP_congr fun e _ => by simp
  omega

section OnlyCycle

/-! ### While the fixed edges are those of the cycle -/

variable {g : UnknownGraph n} (hg : g.currentFixedGraph = cycleGraph n)
include hg

theorem value_eq_true {i j : Nat} : g.value i j = .TRUE ↔ (cycleGraph n).adj i j = true := by
  rw [← g.fixed_iff, hg]

/-- In a complete graph that agrees, the undecided edges are those that are not on the cycle. -/
theorem adj_and_undecided {G : Graph n} (hG : Agrees g G) (i j : Nat) :
    (G.adj i j && decide (g.value i j = .UNDEFINED)) =
      (G.adj i j && !(cycleGraph n).adj i j) := by
  have htrue := value_eq_true hg (i := i) (j := j)
  cases hadj : G.adj i j with
  | false => rfl
  | true =>
    rw [Bool.true_and, Bool.true_and, Bool.eq_iff_iff, decide_eq_true_iff, Bool.not_eq_true',
      ← Bool.not_eq_true, ← htrue]
    cases hv : g.value i j with
    | TRUE => simp
    | FALSE => exact absurd hadj (hG.excluded i j hv)
    | UNDEFINED => simp

/-- The undecided pairs of a row, as the code collects them. -/
def undecidedRow (g : UnknownGraph n) (i : Nat) : List Nat :=
  (List.range n).filter fun j => decide (i ≠ j ∧ g.edgeStatus i j = .UNDEFINED)

omit hg in
theorem mem_undecidedRow {i j : Nat} :
    j ∈ undecidedRow g i ↔ j < n ∧ i ≠ j ∧ g.value i j = .UNDEFINED := by
  unfold undecidedRow UnknownGraph.edgeStatus
  rw [List.mem_filter, List.mem_range, decide_eq_true_iff]
  refine and_congr_right fun _ => and_congr_right fun hij => ?_
  rw [if_neg hij]

/-- The entries of the array of a row: the undecided variables and the non-edges. -/
theorem length_undecidedRow (hn : 3 ≤ n) {i : Nat} (hi : i < n) :
    (undecidedRow g i).length +
      (List.range n).countP (fun j => decide (j ≠ i ∧ g.value i j = .FALSE)) = n - 3 := by
  rw [← countP_chords hn hi,
    countP_and_add (fun j => decide (j ≠ i) && !(cycleGraph n).adj i j)
      fun j => decide (g.value i j = .UNDEFINED)]
  refine congrArg₂ (· + ·) ?_ (List.countP_congr fun j _ => ?_)
  · unfold undecidedRow UnknownGraph.edgeStatus
    rw [← List.countP_eq_length_filter]
    refine List.countP_congr fun j _ => ?_
    by_cases hij : i = j
    · simp [hij]
    · have := value_eq_true hg (i := i) (j := j)
      cases hv : g.value i j <;> cases hc : (cycleGraph n).adj i j <;>
        simp [hv, hc, hij, Ne.symm hij] at this ⊢
  · have := value_eq_true hg (i := i) (j := j)
    cases hv : g.value i j <;> cases hc : (cycleGraph n).adj i j <;> simp [hv, hc] at this ⊢

/-- The array of a row. -/
def rowArray (g : UnknownGraph n) (i : Nat) : List (Option BoolVar) :=
  ((undecidedRow g i).map (edgeVar i)).map some ++
    List.replicate (n - 3 - ((undecidedRow g i).map (edgeVar i)).length) none

/-- The array of a row is filled iff no pair of the row is fixed to be a non-edge. -/
theorem filled_rowArray_iff (hn : 3 ≤ n) {i : Nat} (hi : i < n) :
    (∀ v ∈ rowArray g i, v ≠ none) ↔ ∀ j < n, j ≠ i → g.value i j ≠ .FALSE := by
  have hlen := length_undecidedRow hg hn hi
  unfold rowArray
  rw [filled_fill_iff (by rw [List.length_map]; omega), List.length_map]
  have hzero := List.countP_eq_zero (l := List.range n)
    (p := fun j => decide (j ≠ i ∧ g.value i j = .FALSE))
  simp only [List.mem_range, decide_eq_true_iff, not_and] at hzero
  rw [← hzero]
  omega

/-- The true variables in the array of a row: the neighbours that are not on the cycle. -/
theorem countP_rowArray (hn : 3 ≤ n) {i : Nat} (hi : i < n) {G : Graph n} (hG : Agrees g G) :
    (rowArray g i).countP (Posted.value G) + 2 = G.degree i := by
  unfold rowArray
  rw [countP_fill, List.countP_map, ← degree_cycleGraph hn hi]
  unfold Graph.degree
  rw [countP_and_add (G.adj i) (cycleGraph n |>.adj i), Nat.add_comm]
  refine congrArg₂ (· + ·) (List.countP_congr fun j _ => ?_) ?_
  · rw [Bool.and_eq_true, and_iff_right_of_imp fun h => ?_]
    exact hG.fixed i j (by rw [hg]; exact h)
  · unfold undecidedRow
    rw [List.countP_filter]
    refine List.countP_congr fun j _ => ?_
    simp only [Function.comp_apply, adj_edgeVar]
    rw [← adj_and_undecided hg hG, Bool.and_eq_true, Bool.and_eq_true, decide_eq_true_iff,
      decide_eq_true_iff]
    refine and_congr_right fun hadj => ?_
    have hij := G.ne_of_adj hadj
    unfold UnknownGraph.edgeStatus
    rw [if_neg hij, and_iff_right hij]

omit hg

namespace UHGSearch

/-- **The sums of the rows.** -/
theorem degreeSum_eq (hn : 3 ≤ n) (op : Operator) {c : Nat → Except (Halt Exn) Int} {c' : Nat → Int}
    (hc : ∀ i < n, c i = .ok (c' i)) (u : UHGSearch n)
    (hu : u.graph.currentFixedGraph = cycleGraph n) : u.degreeSum op c =
      .ok (u.postAll ((List.range n).map fun i => .sum (rowArray u.graph i) op (c' i))) := by
  refine posts_eq (p := fun i => .sum (rowArray u.graph i) op (c' i)) _ u fun u' hu' i hi => ?_
  rw [List.mem_range] at hi
  have hvars : (undecidedRow u.graph i).mapM (fun j => getEdgeVar n i j) =
      .ok ((undecidedRow u.graph i).map fun j => some (edgeVar i j)) := mapM_ok fun j hj => by
    obtain ⟨hlt, hij, -⟩ := mem_undecidedRow.mp hj
    exact getEdgeVar_eq hi hlt hij
  have hlen := length_undecidedRow hu hn hi
  have hsize : ((undecidedRow u.graph i).map fun j => some (edgeVar i j)).length ≤ n - 3 := by
    rw [List.length_map]
    omega
  have hfill := fill_eq hsize
  rw [hu']
  change (u'.attempt ((undecidedRow u.graph i).mapM fun j => getEdgeVar n i j) >>= _) = _
  rw [hvars, attempt_ok, ok_bind, hfill, attempt_ok, ok_bind, hc i hi, attempt_ok, ok_bind]
  unfold rowArray
  rw [List.map_map, List.length_map, List.length_map]
  rfl

end UHGSearch

include hg in
/-- **The sums of the rows say what they should of the degrees**, whatever non-edges are fixed. -/
theorem degreeSum_holds (hn : 3 ≤ n) {op : Operator} {c : Nat → Int} {G : Graph n}
    (hG : Agrees g G) :
    (∀ p ∈ (List.range n).map fun i => Posted.sum (rowArray g i) op (c i), p.Holds G) ↔
      ∀ i < n, op.Compares ((G.degree i : Int) - 2) (c i) := by
  simp only [List.forall_mem_map, List.mem_range]
  refine forall₂_congr fun i hi => ?_
  have hcount := countP_rowArray hg hn hi hG
  rw [Posted.holds_sum, ← hcount, Nat.cast_add, Nat.cast_ofNat, add_sub_cancel_right]

include hg in
/-- **Their arrays are filled** iff no non-edge is fixed. -/
theorem filled_degreeSum (hn : 3 ≤ n) {op : Operator} {c : Nat → Int} :
    (∀ p ∈ (List.range n).map fun i => Posted.sum (rowArray g i) op (c i), p.Filled) ↔
      ∀ i < n, ∀ j < n, j ≠ i → g.value i j ≠ .FALSE := by
  simp only [List.forall_mem_map, List.mem_range]
  exact forall₂_congr fun i hi => filled_rowArray_iff hg hn hi

/-- The array of all rows. -/
def chordArray (g : UnknownGraph n) : List (Option BoolVar) :=
  (undecided g).map some ++ List.replicate (n * (n - 1) / 2 - n - (undecided g).length) none

include hg in
/-- The undecided variables and the non-edges are those of the chords. -/
theorem length_undecided (hn : 3 ≤ n) : (undecided g).length +
    (allVars n).countP (fun e => decide (g.value e.1 e.2 = .FALSE)) = n * (n - 1) / 2 - n := by
  rw [← countP_allVars hn, countP_and_add (fun e => !(cycleGraph n).adj e.1 e.2)
    fun e : Nat × Nat => decide (g.value e.1 e.2 = .UNDEFINED)]
  unfold undecided
  rw [← List.countP_eq_length_filter]
  refine congrArg₂ (· + ·) (List.countP_congr fun e _ => ?_) (List.countP_congr fun e _ => ?_) <;>
    have := value_eq_true hg (i := e.1) (j := e.2) <;>
    cases hv : g.value e.1 e.2 <;> cases hc : (cycleGraph n).adj e.1 e.2 <;>
    simp [hv, hc] at this ⊢

include hg in
/-- The true variables in the array of all rows: the chords of the graph. -/
theorem countP_chordArray (hn : 3 ≤ n) {G : Graph n} (hG : Agrees g G) :
    (chordArray g).countP (Posted.value G) = G.chords := by
  unfold chordArray Graph.chords
  rw [countP_fill]
  unfold undecided
  rw [List.countP_filter]
  refine List.countP_congr fun e he => ?_
  obtain ⟨hlt, hbound⟩ := Matrix.mem_upperPairs.mp he
  have hcycle := cycleGraph_adj hn hlt hbound
  unfold Graph.Adj at hcycle
  rw [adj_and_undecided hg hG, Bool.and_eq_true, Bool.and_eq_true, decide_eq_true_iff, Ne,
    ← hcycle, Bool.not_eq_true', Bool.not_eq_true]

namespace UHGSearch

/-- **The sum of all rows.** -/
theorem chordSum_eq (hn : 3 ≤ n) (op : Operator) (c : Int) (u : UHGSearch n)
    (hu : u.graph.currentFixedGraph = cycleGraph n) :
    u.chordSum op c = .ok (u.post (.sum (chordArray u.graph) op c)) := by
  have hlen := length_undecided hu hn
  unfold chordSum chordArray
  rw [fill_eq (by rw [List.length_map]; omega), attempt_ok, ok_bind, List.length_map]

end UHGSearch

include hg in
/-- **The sum of all rows says what it should of the number of chords**, whatever non-edges are
fixed. -/
theorem chordSum_holds (hn : 3 ≤ n) {op : Operator} {c : Int} {G : Graph n} (hG : Agrees g G) :
    (Posted.sum (chordArray g) op c).Holds G ↔ op.Compares G.chords c := by
  rw [Posted.holds_sum, countP_chordArray hg hn hG]

include hg in
/-- **Its array is filled** iff no non-edge is fixed. -/
theorem filled_chordSum (hn : 3 ≤ n) {op : Operator} {c : Int} :
    (Posted.sum (chordArray g) op c).Filled ↔
      ∀ i j, i < j → j < n → g.value i j ≠ .FALSE := by
  have hlen := length_undecided hg hn
  unfold chordArray
  rw [Posted.filled_sum, filled_fill_iff (by omega)]
  have hzero := List.countP_eq_zero (l := allVars n)
    (p := fun e => decide (g.value e.1 e.2 = .FALSE))
  simp only [decide_eq_true_iff] at hzero
  have hall : (∀ i j, i < j → j < n → g.value i j ≠ .FALSE) ↔
      ∀ e ∈ allVars n, ¬ g.value e.1 e.2 = .FALSE :=
    ⟨fun h e he => h e.1 e.2 (Matrix.mem_upperPairs.mp he).1 (Matrix.mem_upperPairs.mp he).2,
      fun h i j hij hj => h (i, j) (Matrix.mem_upperPairs.mpr ⟨hij, hj⟩)⟩
  rw [hall, ← hzero]
  omega

end OnlyCycle

/-! ## Chords of one length -/

/-- The other end of the chord of length `k` at `i`. -/
def chordEnd (n k i : Nat) : Nat := (i + n - k) % n

theorem chordEnd_eq {k i : Nat} (hk : 0 < k) (hkn : k < n) (hi : i < n) :
    chordEnd n k i = if k ≤ i then i - k else i + n - k := by
  unfold chordEnd
  split_ifs with h
  · rw [show i + n - k = i - k + n by omega, Nat.add_mod_right, Nat.mod_eq_of_lt (by omega)]
  · exact Nat.mod_eq_of_lt (by omega)

theorem chordEnds_eq {k i : Nat} (hk : k ≤ n) : chordEnds n k i = .ok (chordEnd n k i, i) := by
  have h : ((i : Int) - k + n).tmod n = ((chordEnd n k i : Nat) : Int) := by
    rw [show (i : Int) - k + n = ((i + n - k : Nat) : Int) by omega]
    exact Int.ofNat_tmod _ _
  unfold chordEnds
  simp only [h, Int.toNat_natCast]
  rw [if_neg (by omega)]

/-- The variables of the chords of length `k`. -/
def kchords (n k : Nat) : List BoolVar := (List.range n).map fun i => edgeVar (chordEnd n k i) i

theorem chordVars_eq {k : Nat} (hk : 0 < k) (hkn : k < n) :
    chordVars n k = .ok ((kchords n k).map some) := by
  unfold kchords
  rw [List.map_map]
  refine mapM_ok fun i hi => ?_
  rw [List.mem_range] at hi
  have hend := chordEnd_eq hk hkn hi
  rw [chordEnds_eq hkn.le, ok_bind]
  exact getEdgeVar_eq (Nat.mod_lt _ (by omega)) hi (by split_ifs at hend <;> omega)

/-- The chords of length `k` are the pairs at this distance, which ever way round it is counted. -/
theorem mem_kchords {k : Nat} (hk : 0 < k) (hkn : k < n) {e : BoolVar} : e ∈ kchords n k ↔
    e ∈ allVars n ∧ Utils.cycleDist e.1 e.2 n = min k (n - k) := by
  obtain ⟨a, b⟩ := e
  change _ ↔ (a, b) ∈ Matrix.upperPairs n ∧ _
  unfold kchords
  rw [List.mem_map, Matrix.mem_upperPairs]
  constructor
  · rintro ⟨i, hi, he⟩
    rw [List.mem_range] at hi
    rw [chordEnd_eq hk hkn hi] at he
    have hab : a < b ∧ b < n ∧ (b - a = k ∨ b - a = n - k) := by
      unfold edgeVar at he
      split_ifs at he <;> rw [Prod.mk.injEq] at he <;> omega
    rw [Utils.cycleDist_eq hab.1 hab.2.1]
    omega
  · rintro ⟨⟨hab, hb⟩, hdist⟩
    rw [Utils.cycleDist_eq hab hb] at hdist
    rcases (show b - a = k ∨ b - a = n - k by omega) with h | h
    · refine ⟨b, List.mem_range.mpr hb, ?_⟩
      rw [chordEnd_eq hk hkn hb, if_pos (by omega), show b - k = a by omega]
      exact if_pos hab
    · refine ⟨a, List.mem_range.mpr (by omega), ?_⟩
      rw [chordEnd_eq hk hkn (by omega), if_neg (by omega), show a + n - k = b by omega]
      exact if_neg (by omega)

namespace UHGSearch

/-- Another graph. -/
def withGraph (u : UHGSearch n) (g : UnknownGraph n) : UHGSearch n := { u with graph := g }

/-- **The chords of one length become non-edges.** -/
theorem excludeChords_eq {len : Nat} (hlen : 2 ≤ len) (hlen' : len + 2 ≤ n) (u : UHGSearch n)
    (hu : u.graph.currentFixedGraph = cycleGraph n) : u.excludeChords len =
      .ok (u.withGraph (u.graph.exclude
        ((List.range n).map fun i => s(chordEnd n len i, i)))) := by
  have turns : ∀ (l : List Nat) (u : UHGSearch n), (∀ i ∈ l, i < n) →
      u.graph.currentFixedGraph = cycleGraph n →
      l.foldlM (fun u i => do
        let e ← u.attempt (chordEnds n len i)
        match u.graph.fixEdgeValue e.1 e.2 false with
        | .ok g => .ok { u with graph := g }
        | .error (.raised .contradiction) => .ok u
        | .error x => .error ⟨x, u⟩) u =
      (.ok (u.withGraph (u.graph.exclude (l.map fun i => s(chordEnd n len i, i)))) :
        Outcome n) := by
    intro l
    induction l with
    | nil =>
      intro u _ _
      rw [List.map_nil, UnknownGraph.exclude_nil]
      rfl
    | cons i l ih =>
      intro u hl hu
      obtain ⟨hi, hl⟩ := List.forall_mem_cons.mp hl
      have hend := chordEnd_eq (by omega) (by omega) hi (n := n) (k := len)
      have hfix := u.graph.fixEdgeValue_false (i := chordEnd n len i) (j := i)
        (Nat.mod_lt _ (by omega)) hi (by split_ifs at hend <;> omega)
      have hedge : ¬ u.graph.hasEdge (chordEnd n len i) i = true := by
        unfold UnknownGraph.hasEdge
        rw [hu]
        intro h
        have := (cycleGraph_adj_iff (by omega) hi).mp (Graph.Adj.symm h)
        split_ifs at hend <;> omega
      rw [if_neg hedge] at hfix
      rw [List.foldlM_cons, chordEnds_eq (by omega), attempt_ok, ok_bind]
      simp only [hfix]
      refine (ih (u.withGraph _) hl (by exact hu)).trans ?_
      exact congrArg (fun g => Except.ok (u.withGraph g)) (u.graph.exclude_append
        [s(chordEnd n len i, i)] (l.map fun i => s(chordEnd n len i, i))).symm
  exact turns (List.range n) u (fun i hi => List.mem_range.mp hi) hu

/-- The chords of several lengths become non-edges. -/
theorem excludeLengths_eq {lens : List Nat} (hlens : ∀ len ∈ lens, 2 ≤ len ∧ len + 2 ≤ n)
    (u : UHGSearch n) (hu : u.graph.currentFixedGraph = cycleGraph n) :
    lens.foldlM (fun u len => excludeChords len u) u =
      .ok (u.withGraph (u.graph.exclude
        (lens.flatMap fun len => (List.range n).map fun i => s(chordEnd n len i, i)))) := by
  induction lens generalizing u with
  | nil =>
    rw [List.flatMap_nil, UnknownGraph.exclude_nil]
    rfl
  | cons len lens ih =>
    obtain ⟨⟨h1, h2⟩, hlens⟩ := List.forall_mem_cons.mp hlens
    rw [List.foldlM_cons, excludeChords_eq h1 h2 u hu, ok_bind]
    refine (ih hlens (u.withGraph _) (by exact hu)).trans ?_
    rw [List.flatMap_cons, UnknownGraph.exclude_append]
    rfl

theorem someChord_eq {k : Nat} (hk : 0 < k) (hkn : k < n) (u : UHGSearch n) :
    u.someChord k = .ok (u.post (.or ((kchords n k).map some))) := by
  unfold someChord
  rw [chordVars_eq hk hkn, attempt_ok, ok_bind]

/-! ## Symmetry breaking -/

/-- The constraint for one permutation. -/
def lexConstraint (n : Nat) (p : List Nat) : Posted :=
  .lexLessEq ((allVars n).map fun e => some (edgeVar e.1 e.2))
    ((allVars n).map fun e => some (edgeVar (p.getD e.1 0) (p.getD e.2 0)))

theorem filled_lexConstraint (n : Nat) (p : List Nat) : (lexConstraint n p).Filled :=
  ⟨List.forall_mem_map.mpr fun _ _ => Option.some_ne_none _,
    List.forall_mem_map.mpr fun _ _ => Option.some_ne_none _⟩

/-- **The lex constraints**, one for every permutation. -/
theorem symmetryBreaking_eq (hn : 3 ≤ n) (u : UHGSearch n) : u.symmetryBreaking =
    .ok (u.postAll ((Utils.dihedralGroupPermutations n).map (lexConstraint n))) := by
  refine posts_eq (p := lexConstraint n) _ u fun u' _ p hp => ?_
  have hperm := perm_of_mem hn hp
  have hlen := hperm.length_eq.trans List.length_range
  have h1 : ((allVars n).mapM fun e => getEdgeVar n e.1 e.2) =
      .ok ((allVars n).map fun e => some (edgeVar e.1 e.2)) := mapM_ok fun e he => by
    obtain ⟨ha, hb, hab⟩ := bounds_of_mem he
    exact getEdgeVar_eq ha hb hab
  have h2 : ((allVars n).mapM fun e => getEdgeVar n (p.getD e.1 0) (p.getD e.2 0)) =
      .ok ((allVars n).map fun e => some (edgeVar (p.getD e.1 0) (p.getD e.2 0))) :=
    mapM_ok fun e he => by
      obtain ⟨ha, hb, hab⟩ := bounds_of_mem he
      rw [List.getD_eq_getElem _ _ (by omega), List.getD_eq_getElem _ _ (by omega)]
      refine getEdgeVar_eq (List.mem_range.mp (hperm.mem_iff.mp (List.getElem_mem _)))
        (List.mem_range.mp (hperm.mem_iff.mp (List.getElem_mem _))) fun h => hab ?_
      exact (List.Nodup.getElem_inj_iff (hperm.nodup_iff.mpr List.nodup_range)).mp h
  rw [h1, attempt_ok, ok_bind, h2, attempt_ok, ok_bind]
  rfl

/-- They say of a complete graph what they should. -/
theorem symmetryBreaking_holds {G : Graph n} :
    (∀ p ∈ (Utils.dihedralGroupPermutations n).map (lexConstraint n), p.Holds G) ↔
      Uhg.symmetryBreaking G := by
  rw [List.forall_mem_map]
  refine forall₂_congr fun p _ => ?_
  unfold lexConstraint
  rw [Posted.holds_lexLessEq, List.map_map, List.map_map]
  simp only [Function.comp_def, Posted.value, adj_edgeVar]

/-! ## The first state -/

/-- Nothing is fixed but the cycle, and nothing posted but the propagator. -/
def start (n : Nat) : UHGSearch n := ⟨.ofGraph (cycleGraph n), [], [], 3, -1⟩

theorem new_eq (hn : 3 ≤ n) : UHGSearch.new n = .ok (start n) := by
  unfold UHGSearch.new
  rw [fixHamCycle_eq hn, ok_bind]
  rfl

end UHGSearch

end Uhg

end SymBreak
