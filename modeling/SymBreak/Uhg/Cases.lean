import SymBreak.Uhg.Constraints
import Mathlib.Data.Nat.Digits.Lemmas
import Mathlib.Data.List.Dedup

/-!
# Splitting a search into cases

`setCase(num)` (`UHGSearch.java:289-325`) writes `num` in base `n + 1`, from the last digit
backwards, and posts that the `k`-th digit, from `k = 2` on, is the number of chords of length `k`.
The chords of lengths `k` and `n - k` are the same ones, and those of length `n / 2` are met twice;
they are collected in a set.

Results:
* `numToChordSeq_spec`: the digits of a case number, and `numToChordSeq_throws` when there are too
  many;
* `numToChordSeq_surjective`: every list of digits has its case;
* `countP_kchords`: the set holds the chords of one length, each of them once;
* **`setCase_partition`**: every solution of the model without cases is a solution of exactly one
  case.
-/

namespace SymBreak.Uhg

open Hamilton Graph

variable {n : Nat}

/-! ## Case numbers -/

/-- **The loop writes the digits** from the last one backwards, into the zeros in front of `rest`.
-/
theorem chordSeqLoop_spec {base : Nat} (hb : 2 ≤ base) {i num : Nat} (rest : List Nat)
    (h : num < base ^ i) :
    ∃ w : List Nat, w.length = i ∧ (∀ d ∈ w, d < base) ∧ Nat.ofDigits base w.reverse = num ∧
      Converges (fun fuel => chordSeqLoop base fuel num i (List.replicate i 0 ++ rest))
        (.ok (w ++ rest)) := by
  induction i generalizing num rest with
  | zero =>
    obtain rfl : num = 0 := by rwa [Nat.pow_zero, Nat.lt_one_iff] at h
    exact ⟨[], rfl, List.forall_mem_nil _, rfl, Converges.succ (Converges.of_eq fun fuel => by
      rw [chordSeqLoop, if_neg (by omega)]
      rfl)⟩
  | succ i ih =>
    rcases Nat.eq_zero_or_pos num with rfl | hpos
    · -- the digits that are left stay zero
      refine ⟨List.replicate (i + 1) 0, List.length_replicate, fun d hd => ?_, ?_,
        Converges.succ (Converges.of_eq fun fuel => ?_)⟩
      · rw [List.eq_of_mem_replicate hd]
        omega
      · rw [List.reverse_replicate]
        exact Nat.ofDigits_replicate_zero
      · rw [chordSeqLoop, if_neg (by omega)]
    · have hdiv : num / base < base ^ i := Nat.div_lt_of_lt_mul (by rwa [← Nat.pow_succ'])
      obtain ⟨w, hlen, hlt, hdigits, hrun⟩ := ih (num % base :: rest) hdiv
      rw [← List.singleton_append, ← List.append_assoc w] at hrun
      refine ⟨w ++ [num % base], by rw [List.length_append, hlen]; rfl, ?_, ?_,
        Converges.succ (hrun.congr fun fuel => ?_)⟩
      · intro d hd
        rcases List.mem_append.mp hd with hd | hd
        · exact hlt d hd
        · rw [List.mem_singleton.mp hd]
          exact Nat.mod_lt _ (by omega)
      · rw [List.reverse_append, List.reverse_singleton, List.singleton_append, Nat.ofDigits_cons,
          hdigits]
        exact Nat.mod_add_div num base
      · rw [chordSeqLoop, if_pos hpos, if_neg (by omega), Nat.add_sub_cancel,
          List.replicate_succ', List.append_assoc, List.set_append_right _ _ (by simp),
          List.length_replicate, Nat.sub_self]
        rfl

/-- The digits of a case number. -/
theorem numToChordSeq_spec {s num : Nat} (h : num < (n + 1) ^ s) (hn : 0 < n) :
    ∃ v : List Nat, v.length = s ∧ (∀ d ∈ v, d < n + 1) ∧
      Nat.ofDigits (n + 1) v.reverse = num ∧ Converges (numToChordSeq n s num) (.ok v) := by
  obtain ⟨w, hlen, hlt, hdigits, hrun⟩ := chordSeqLoop_spec (by omega) [] h
  rw [List.append_nil, List.append_nil] at hrun
  exact ⟨w, hlen, hlt, hdigits, hrun⟩

/-- **More digits than the array has entries** are written before its beginning. -/
theorem chordSeqLoop_throws {base : Nat} (hb : 2 ≤ base) {i num : Nat} (v : List Nat)
    (h : base ^ i ≤ num) :
    Converges (fun fuel => chordSeqLoop base fuel num i v)
      (.error (.raised .indexOutOfBounds)) := by
  have hpos : 0 < num := Nat.lt_of_lt_of_le (Nat.pow_pos (by omega)) h
  induction i generalizing num v with
  | zero =>
    refine Converges.succ (Converges.of_eq fun fuel => ?_)
    rw [chordSeqLoop, if_pos hpos, if_pos rfl]
  | succ i ih =>
    have h' : base ^ i ≤ num / base := by
      rw [Nat.le_div_iff_mul_le (by omega), ← Nat.pow_succ]
      exact h
    refine Converges.succ ((ih (v.set i (num % base)) h'
      (Nat.lt_of_lt_of_le (Nat.pow_pos (by omega)) h')).congr fun fuel => ?_)
    rw [chordSeqLoop, if_pos hpos, if_neg (by omega), Nat.add_sub_cancel]

theorem numToChordSeq_throws {s num : Nat} (h : (n + 1) ^ s ≤ num) (hn : 0 < n) :
    Converges (numToChordSeq n s num) (.error (.raised .indexOutOfBounds)) :=
  chordSeqLoop_throws (by omega) _ h

/-- **Every list of digits has exactly one case.** -/
theorem numToChordSeq_surjective (hn : 0 < n) {v : List Nat} (hv : ∀ d ∈ v, d < n + 1) :
    ∃ num, num < (n + 1) ^ v.length ∧ Converges (numToChordSeq n v.length num) (.ok v) ∧
      ∀ num' < (n + 1) ^ v.length, Converges (numToChordSeq n v.length num') (.ok v) →
        num' = num := by
  have hrev : ∀ d ∈ v.reverse, d < n + 1 := fun d hd => hv d (List.mem_reverse.mp hd)
  have hlt : Nat.ofDigits (n + 1) v.reverse < (n + 1) ^ v.length := by
    rw [← List.length_reverse]
    exact Nat.ofDigits_lt_base_pow_length (by omega) hrev
  refine ⟨_, hlt, ?_, fun num' hnum' hrun' => ?_⟩
  · obtain ⟨w, hlen, hw, hdigits, hrun⟩ := numToChordSeq_spec hlt hn
    have heq := Nat.ofDigits_inj_of_len_eq (by omega) (by simpa using hlen)
      (fun d hd => hw d (List.mem_reverse.mp hd)) hrev hdigits
    rwa [List.reverse_injective heq] at hrun
  · obtain ⟨w, -, -, hdigits, hrun⟩ := numToChordSeq_spec hnum' hn
    rw [← hdigits, Except.ok.inj (hrun.unique hrun')]

/-! ## The constraints of a case -/

end Uhg

namespace Graph

/-- The number of chords of length `k`; the length of a chord can be counted either way round. -/
def chordsOfLength (G : Graph n) (k : Nat) : Nat :=
  (Uhg.allVars n).countP fun e =>
    G.adj e.1 e.2 && decide (Uhg.Utils.cycleDist e.1 e.2 n = min k (n - k))

end Graph

namespace Uhg

/-- **The set of the chords of length `k`** holds each of them once. -/
theorem countP_kchords {k : Nat} (hk : 0 < k) (hkn : k < n) (G : Graph n) :
    (((kchords n k).map some).dedup).countP (Posted.value G) = G.chordsOfLength k := by
  rw [List.dedup_map_of_injective (Option.some_injective _), List.countP_map]
  unfold Graph.chordsOfLength
  rw [List.countP_eq_length_filter, List.countP_eq_length_filter]
  refine ((List.perm_ext_iff_of_nodup ((List.nodup_dedup _).filter _)
    ((Matrix.nodup_pairs .upperTriangleRows n).filter _)).mpr fun e => ?_).length_eq
  rw [List.mem_filter, List.mem_filter, List.mem_dedup, mem_kchords hk hkn, Bool.and_eq_true,
    decide_eq_true_iff]
  change (e ∈ allVars n ∧ _) ∧ G.adj e.1 e.2 = true ↔ e ∈ allVars n ∧ _
  tauto

/-- There are at most as many as vertices. -/
theorem chordsOfLength_le {k : Nat} (hk : 0 < k) (hkn : k < n) (G : Graph n) :
    G.chordsOfLength k ≤ n := by
  rw [← countP_kchords hk hkn G]
  calc _ ≤ ((kchords n k).map some).dedup.length := List.countP_le_length
    _ ≤ ((kchords n k).map some).length := (List.dedup_sublist _).length_le
    _ = n := by rw [List.length_map, kchords, List.length_map, List.length_range]

/-- What is posted for a case with the digits `v`. -/
def caseConstraints (n : Nat) (v : List Nat) : List Posted :=
  (v.zipIdx 2).map fun p => .sum ((kchords n p.2).map some).dedup .eq p.1

theorem filled_caseConstraints (v : List Nat) : ∀ p ∈ caseConstraints n v, p.Filled := by
  refine List.forall_mem_map.mpr fun p _ => Posted.filled_sum.mpr fun e he => ?_
  obtain ⟨a, -, rfl⟩ := List.mem_map.mp (List.mem_dedup.mp he)
  exact Option.some_ne_none a

/-- The lengths of a case with at most `n - 2` digits. -/
theorem length_of_mem_zipIdx {v : List Nat} (hv : v.length + 2 ≤ n) {p : Nat × Nat}
    (hp : p ∈ v.zipIdx 2) : 0 < p.2 ∧ p.2 < n := by
  obtain ⟨h1, h2, -⟩ := List.mem_zipIdx hp
  omega

/-- A list by its entries. -/
theorem forall_mem_zipIdx {v : List Nat} {k : Nat} {f : Nat → Nat} :
    (∀ p ∈ v.zipIdx k, p.1 = f p.2) ↔ v = (List.range' k v.length).map f := by
  induction v generalizing k with
  | nil => exact iff_of_true (List.forall_mem_nil _) rfl
  | cons d v ih =>
    rw [List.zipIdx_cons, List.forall_mem_cons, ih, List.length_cons, List.range'_succ,
      List.map_cons, List.cons.injEq]

/-- **The constraints of a case** hold iff its digits are the numbers of chords of every length. -/
theorem holds_caseConstraints {v : List Nat} (hv : v.length + 2 ≤ n) {G : Graph n} :
    (∀ p ∈ caseConstraints n v, p.Holds G) ↔
      v = (List.range' 2 v.length).map G.chordsOfLength := by
  rw [← forall_mem_zipIdx]
  unfold caseConstraints
  rw [List.forall_mem_map]
  refine forall₂_congr fun p hp => ?_
  obtain ⟨h1, h2⟩ := length_of_mem_zipIdx hv hp
  rw [Posted.holds_sum, countP_kchords h1 h2]
  exact Nat.cast_inj.trans eq_comm

namespace UHGSearch

/-- What `setCase` does, once the digits are known or `numToChordSeq` has thrown. -/
theorem setCase_converges (num : Nat) {x : Except (Halt Exn) (List Nat)} (u : UHGSearch n)
    (hrun : Converges (numToChordSeq n u.splitLevel num) x) :
    Converges (fun fuel => u.setCase num fuel)
      (attempt { u with split := num } x >>= fun vec =>
        (vec.zipIdx 2).foldlM (fun u p => numberOfChordsOfLengthK p.2 p.1 u)
          { u with split := num }) := by
  obtain ⟨N, hN⟩ := hrun
  exact ⟨N, fun fuel hfuel => by rw [← hN fuel hfuel]; rfl⟩

/-- The constraints of the digits, one after another. -/
theorem foldlM_kchords {v : List Nat} (hv : v.length + 2 ≤ n) (u : UHGSearch n) :
    (v.zipIdx 2).foldlM (fun u p => numberOfChordsOfLengthK p.2 p.1 u) u =
      .ok (u.postAll (caseConstraints n v)) := by
  refine posts_eq (p := fun p : Nat × Nat => .sum ((kchords n p.2).map some).dedup .eq p.1) _ u
    fun u' _ p hp => ?_
  obtain ⟨h1, h2⟩ := length_of_mem_zipIdx hv hp
  unfold numberOfChordsOfLengthK
  rw [chordVars_eq h1 h2, attempt_ok, ok_bind]

/-- What a case posts. -/
theorem setCase_eq {num : Nat} {v : List Nat} (hv : v.length + 2 ≤ n) (u : UHGSearch n)
    (hrun : Converges (numToChordSeq n u.splitLevel num) (.ok v)) :
    Converges (fun fuel => u.setCase num fuel)
      (.ok ({ u with split := num }.postAll (caseConstraints n v))) := by
  rw [← foldlM_kchords hv { u with split := (num : Int) }]
  exact u.setCase_converges num hrun

end UHGSearch

/-! ## The cases are a partition -/

/-- **The solutions of a model**: the complete graphs that agree with what is fixed, have no second
Hamiltonian cycle, and meet what was posted and the other constraints `Q`. -/
structure UHGSearch.Solution (u : UHGSearch n) (Q : Graph n → Prop) (G : Graph n) : Prop where
  agrees : Agrees u.graph G
  unique : UniqueHamCycle G
  posted : ∀ p ∈ u.posted, p.Holds G
  other : Q G

/-- The solutions of a model with more constraints. -/
theorem UHGSearch.solution_postAll {u : UHGSearch n} {Q : Graph n → Prop} {G : Graph n}
    {ps : List Posted} : (u.postAll ps).Solution Q G ↔ u.Solution Q G ∧ ∀ p ∈ ps, p.Holds G := by
  constructor
  · rintro ⟨h1, h2, h3, h4⟩
    obtain ⟨h3, h5⟩ := List.forall_mem_append.mp h3
    exact ⟨⟨h1, h2, h3, h4⟩, h5⟩
  · rintro ⟨⟨h1, h2, h3, h4⟩, h5⟩
    exact ⟨h1, h2, List.forall_mem_append.mpr ⟨h3, h5⟩, h4⟩

/-- **The cases partition the solutions**, whatever else is fixed, posted or required: with `s`
digits, `setCase` returns for every case number, all its arrays filled; a solution of a case is a
solution of the model without cases; and every such solution is a solution of exactly one case. -/
theorem setCase_partition {s : Nat} (hs : s + 2 ≤ n) (Q : Graph n → Prop) (u : UHGSearch n) :
    ∃ cases : Nat → UHGSearch n,
      (∀ num < (n + 1) ^ s,
        (∃ v : List Nat, v.length = s ∧ Converges (numToChordSeq n s num) (.ok v)) ∧
        Converges (fun fuel => (u.setSplitLevel s).setCase num fuel) (.ok (cases num)) ∧
        ∃ new, (cases num).posted = u.posted ++ new ∧ ∀ p ∈ new, p.Filled) ∧
      (∀ num < (n + 1) ^ s, ∀ G, (cases num).Solution Q G → u.Solution Q G) ∧
      ∀ G, u.Solution Q G → ∃! num, num < (n + 1) ^ s ∧ (cases num).Solution Q G := by
  have hspec := fun num (h : num < (n + 1) ^ s) => numToChordSeq_spec h (by omega)
  choose! digits hlen hlt _ hrun using hspec
  -- the state after a case differs from the one before in what is posted
  have hsol : ∀ num < (n + 1) ^ s, ∀ G,
      UHGSearch.Solution ({ u.setSplitLevel s with split := num }.postAll
        (caseConstraints n (digits num))) Q G ↔
      u.Solution Q G ∧ digits num = (List.range' 2 s).map G.chordsOfLength := fun num h G => by
    rw [UHGSearch.solution_postAll, holds_caseConstraints (by rw [hlen num h]; exact hs),
      hlen num h]
    exact and_congr_left fun _ => ⟨fun ⟨h1, h2, h3, h4⟩ => ⟨h1, h2, h3, h4⟩,
      fun ⟨h1, h2, h3, h4⟩ => ⟨h1, h2, h3, h4⟩⟩
  refine ⟨fun num => { u.setSplitLevel s with split := num }.postAll
    (caseConstraints n (digits num)), fun num h => ⟨⟨digits num, hlen num h, hrun num h⟩, ?_,
      caseConstraints n (digits num), rfl, filled_caseConstraints _⟩,
    fun num h G hG => ((hsol num h G).mp hG).1, fun G hG => ?_⟩
  · exact UHGSearch.setCase_eq (by rw [hlen num h]; exact hs) (u.setSplitLevel s) (hrun num h)
  · -- the digits of the case are the numbers of chords of the graph
    have hbound : ∀ d ∈ (List.range' 2 s).map G.chordsOfLength, d < n + 1 := by
      refine List.forall_mem_map.mpr fun k hk => ?_
      rw [List.mem_range'_1] at hk
      have := chordsOfLength_le (show 0 < k by omega) (by omega) G
      omega
    obtain ⟨num, hnum, hcase, huniq⟩ := numToChordSeq_surjective (by omega) hbound
    rw [List.length_map, List.length_range'] at hnum hcase huniq
    refine ⟨num, ⟨hnum, (hsol num hnum G).mpr ⟨hG, ?_⟩⟩, fun num' h => ?_⟩
    · exact Except.ok.inj ((hrun num hnum).unique hcase)
    · refine huniq num' h.1 ?_
      rw [← ((hsol num' h.1 G).mp h.2).2]
      exact hrun num' h.1

/-- For four vertices and two digits: the lengths 2 and 3, of which the second is that of the edges
of the cycle. -/
theorem setCase_partition_four : ∃ cases : Nat → UHGSearch 4, ∀ G : Graph 4,
    (UHGSearch.start 4).Solution (fun _ => True) G →
      ∃! num, num < 25 ∧ (cases num).Solution (fun _ => True) G := by
  obtain ⟨cases, -, -, h⟩ :=
    setCase_partition (n := 4) (s := 2) (by decide) (fun _ => True) (.start 4)
  exact ⟨cases, h⟩

end SymBreak.Uhg
