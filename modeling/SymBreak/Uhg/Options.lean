import SymBreak.Uhg.Cases
import SymBreak.Uhg.NearlyCubic

/-!
# The options of the search

`Main.main` (`Main.java:57-214`) turns the options of the command line into calls of the methods of
`UHGSearch`, in a fixed order. The methods for degrees and for the number of chords allocate their
arrays for a graph on which nothing is fixed but the cycle, and fill them with the variables that
are undecided at the time of the call; `shortestChord` and `longestChord` fix non-edges, and
`regular` is called after them.

Results:
* `Method.goes_of_counts`, `Method.goes_of_excludes`: what the methods hand over, and that it is
  right;
* `regular_right_iff`: `regular` hands over filled arrays iff no non-edge is fixed;
* `setCase_not_right`: with more than `n - 2` digits, the chords of length `n` are null;
* **`options_right_iff`**: exactly for which options every array is filled and every constraint says
  what it should;
* `regular_after_shortestChord`: options for which it is not.
-/

namespace SymBreak.Uhg

open Hamilton Graph UHGSearch

variable {n : Nat}

/-! ## Model -/

/-- A call of a method by `main`. Where `setCase` is called, `setSplitLevel` may come before it. -/
inductive Method where
  | symmetryBreaking
  | fixDegrees (ds : List Int)
  | minDegree (d : Int)
  | maxDegree (d : Int)
  | numberOfChords (m : Int)
  | shortestChord (k : Nat)
  | longestChord (k : Nat)
  | girthAtLeast (k : Int)
  | setCase (splitLevel : Option Nat) (num : Nat)
  | regular (deg : Int)
  deriving DecidableEq, Repr

namespace Method

/-- The level for which `setCase` is called. -/
def withLevel (splitLevel : Option Nat) (u : UHGSearch n) : UHGSearch n :=
  match splitLevel with
  | some val => u.setSplitLevel val
  | none => u

def run (fuel : Nat) : Method → UHGSearch n → Outcome n
  | symmetryBreaking, u => u.symmetryBreaking
  | fixDegrees ds, u => u.fixDegrees ds
  | minDegree d, u => u.minDegree d
  | maxDegree d, u => u.maxDegree d
  | numberOfChords m, u => u.numberOfChords m
  | shortestChord k, u => u.shortestChord k
  | longestChord k, u => u.longestChord k
  | girthAtLeast k, u => .ok (u.girthAtLeast k)
  | setCase splitLevel num, u => (withLevel splitLevel u).setCase num fuel
  | regular deg, u => u.regular deg

/-- **What a method asks** of a complete graph; without `setSplitLevel` the level is 3. -/
def Asks : Method → Graph n → Prop
  | symmetryBreaking, G => Uhg.symmetryBreaking G
  | fixDegrees ds, G => ∀ v < n, (G.degree v : Int) = ds.getD v 0
  | minDegree d, G => ∀ v < n, d ≤ G.degree v
  | maxDegree d, G => ∀ v < n, (G.degree v : Int) ≤ d
  | numberOfChords m, G => (G.chords : Int) = m
  | shortestChord k, G => 0 < G.chordsOfLength k
  | longestChord k, G => 0 < G.chordsOfLength k
  | girthAtLeast _, _ => True
  | setCase splitLevel num, G => ∀ v, Converges (numToChordSeq n (splitLevel.getD 3) num) (.ok v) →
      v = (List.range' 2 v.length).map G.chordsOfLength
  | regular deg, G => ∀ v < n, (G.degree v : Int) = deg

/-- **A call is right**: all arrays that it hands over are filled, and if it returns, the
constraints hold of a complete graph that agrees with what was fixed before iff this is what it
asks. -/
def Right (m : Method) (u : UHGSearch n) (r : Outcome n) : Prop :=
  ∃ new, r.final.posted = u.posted ++ new ∧ (∀ p ∈ new, p.Filled) ∧
    ∀ u', r = .ok u' → ∀ G, Agrees u.graph G → ((∀ p ∈ new, p.Holds G) ↔ m.Asks G)

/-- All calls are right, one after another until one throws. -/
def AllRight (u : UHGSearch n) : List Method → Prop
  | [] => True
  | m :: ms => ∃ r, Converges (fun fuel => m.run fuel u) r ∧ m.Right u r ∧
      ∀ u', r = .ok u' → AllRight u' ms

end Method

/-- The options that have to do with constraints (`Main.java:27-54`), as they were parsed. -/
structure Options where
  noSB : Bool
  ncDS : Option Int
  minDeg : Option Int
  maxDeg : Option Int
  chords : Option Int
  extremal : Bool
  shortestChord : Option Int
  longestChord : Option Int
  girth : Option Int
  split : Option Int
  splitLevel : Option Int
  reg : Option Int
  deriving DecidableEq, Repr

namespace Options

variable (n) (o : Options)

/-- The loop that looks for the sequence with the given index (`Main.java:91-100`). -/
def nearlyCubicDS : Option (List Int) :=
  o.ncDS.bind fun dsIndex =>
    ((Utils.nearlyCubicDS n).foldl (fun (s : Int × Option (List Int)) ds =>
      (s.1 - 1, if s.1 = 0 then some ds else s.2)) (dsIndex, none)).2

/-- The local variables of `main`, with their defaults (`Main.java:64-80`). -/
def minDegValue : Int := o.minDeg.getD (-1)
def maxDegValue : Int := o.maxDeg.getD (-1)
def shortest : Int := o.shortestChord.getD 0
def longest : Int := o.longestChord.getD 0
def girthValue : Int := o.girth.getD (-1)
def splitValue : Int := o.split.getD (-1)
def splitLevelValue : Int := o.splitLevel.getD (-1)
def deg : Int := o.reg.getD (-1)

/-- `chords` (`Main.java:110-117`) -/
def chordsValue : Int := if o.extremal then (n * n : Int) / 4 + 1 - n else o.chords.getD (-1)

/-- The calls for symmetry, degrees and the number of chords (`Main.java:158-186`). -/
def sums : List Method :=
  (if o.noSB then [] else [.symmetryBreaking]) ++
  ((match o.nearlyCubicDS n with | some ds => [.fixDegrees ds] | none => []) ++
  ((if o.minDegValue > 0 then [.minDegree o.minDegValue] else []) ++
  ((if o.maxDegValue > -1 then [.maxDegree o.maxDegValue] else []) ++
  if o.extremal ∨ o.chordsValue n > -1 then [.numberOfChords (o.chordsValue n)] else [])))

/-- The calls for the lengths of chords (`Main.java:189-197`). -/
def lengths : List Method :=
  (if o.shortest > 1 then [.shortestChord o.shortest.toNat] else []) ++
  if o.longest > 1 then [.longestChord o.longest.toNat] else []

/-- The call for the girth (`Main.java:199-202`). -/
def girths : List Method := if o.girthValue > -1 then [.girthAtLeast o.girthValue] else []

/-- The call for a case (`Main.java:203-210`). -/
def cases : List Method :=
  if o.splitValue > -1 then
    [.setCase (if o.splitLevelValue > -1 then some o.splitLevelValue.toNat else none)
      o.splitValue.toNat]
  else []

/-- The call for regular graphs (`Main.java:211-214`). -/
def regulars : List Method := if o.deg > -1 then [.regular o.deg] else []

/-- **The calls of `main`**, in its order. -/
def methods : List Method :=
  o.sums n ++ (o.lengths ++ (o.girths ++ (o.cases ++ o.regulars)))

/-- **All that `main` hands over is right.** -/
def Right : Prop := ∃ u, UHGSearch.new n = .ok u ∧ Method.AllRight u (o.methods n)

/-- The level for which `setCase` is called. -/
def level : Nat := if o.splitLevelValue > -1 then o.splitLevelValue.toNat else 3

/-- There is a case number, with more digits than the level. -/
def Overflows : Prop := o.splitValue > -1 ∧ (n + 1) ^ o.level ≤ o.splitValue.toNat

/-- A case is given for at most `n - 2` lengths, and `regular` is not called with chords excluded;
or `setCase` throws before. -/
def Fits : Prop :=
  o.Overflows n ∨
  (o.splitValue > -1 → o.level + 2 ≤ n) ∧
    (o.deg > -1 → o.shortest ≤ 2 ∧ (o.longest ≤ 1 ∨ ((n / 2 : Nat) : Int) ≤ o.longest))

instance : Decidable (o.Overflows n) := inferInstanceAs (Decidable (_ ∧ _))

instance : Decidable (o.Fits n) := inferInstanceAs (Decidable (_ ∨ _))

end Options

/-! ## Calls that return -/

namespace Method

/-- A call that returns is right iff what it posted is filled and says what it asks. -/
theorem right_ok_iff {m : Method} {u u' : UHGSearch n} {ps : List Posted}
    (h : u'.posted = u.posted ++ ps) : m.Right u (.ok u') ↔ (∀ p ∈ ps, p.Filled) ∧
      ∀ G, Agrees u.graph G → ((∀ p ∈ ps, p.Holds G) ↔ m.Asks G) := by
  constructor
  · rintro ⟨new, hnew, hfilled, hholds⟩
    obtain rfl : ps = new := List.append_cancel_left (h.symm.trans hnew)
    exact ⟨hfilled, hholds u' rfl⟩
  · rintro ⟨hfilled, hholds⟩
    exact ⟨ps, h, hfilled, fun _ _ => hholds⟩

/-- A call that returns in the state `u'`. -/
structure Goes (m : Method) (u u' : UHGSearch n) : Prop where
  converges : Converges (fun fuel => m.run fuel u) (.ok u')
  right : m.Right u (.ok u')

/-- Calls that all return, one after another. -/
def AllGo (u : UHGSearch n) : List Method → UHGSearch n → Prop
  | [], u' => u = u'
  | m :: ms, u' => ∃ u₁, m.Goes u u₁ ∧ AllGo u₁ ms u'

theorem allRight_cons_of_goes {m : Method} {u u₁ : UHGSearch n} (h : m.Goes u u₁)
    (ms : List Method) : AllRight u (m :: ms) ↔ AllRight u₁ ms := by
  constructor
  · rintro ⟨r, hr, -, hms⟩
    exact hms u₁ (hr.unique h.converges)
  · intro hms
    refine ⟨_, h.converges, h.right, fun u' hu' => ?_⟩
    rwa [← Except.ok.inj hu']

theorem allRight_append {as : List Method} {u u' : UHGSearch n} (h : AllGo u as u')
    (bs : List Method) : AllRight u (as ++ bs) ↔ AllRight u' bs := by
  induction as generalizing u with
  | nil =>
    obtain rfl : u = u' := h
    rfl
  | cons m as ih =>
    obtain ⟨u₁, hm, has⟩ := h
    rw [List.cons_append, allRight_cons_of_goes hm, ih has]

theorem allGo_append {as bs : List Method} {u u₁ u' : UHGSearch n} (h : AllGo u as u₁)
    (h' : AllGo u₁ bs u') : AllGo u (as ++ bs) u' := by
  induction as generalizing u with
  | nil =>
    obtain rfl : u = u₁ := h
    exact h'
  | cons m as ih =>
    obtain ⟨u₂, hm, has⟩ := h
    exact ⟨u₂, hm, ih has⟩

/-! ## The calls for degrees and the number of chords -/

/-- The methods that post sums, or lex constraints. -/
def Counts (n : Nat) : Method → Prop
  | symmetryBreaking => True
  | fixDegrees ds => ds.length = n
  | minDegree _ => True
  | maxDegree _ => True
  | numberOfChords _ => True
  | _ => False

section Counts

variable {u : UHGSearch n} (hu : u.graph.currentFixedGraph = cycleGraph n)
include hu

/-- The sums of the rows, whose arrays are filled iff no non-edge is fixed. -/
theorem degreeSum_right_iff (hn : 3 ≤ n) (m : Method) (op : Operator)
    {c : Nat → Except (Halt Exn) Int} (c' : Nat → Int) (hc : ∀ i < n, c i = .ok (c' i))
    (hrun : ∀ fuel, m.run fuel u = u.degreeSum op c)
    (hasks : ∀ G : Graph n, m.Asks G ↔ ∀ v < n, op.Compares ((G.degree v : Int) - 2) (c' v)) :
    ∃ u', Converges (fun fuel => m.run fuel u) (.ok u') ∧ u'.graph = u.graph ∧
      u'.splitLevel = u.splitLevel ∧
      (m.Right u (.ok u') ↔ ∀ i < n, ∀ j < n, j ≠ i → u.graph.value i j ≠ .FALSE) := by
  refine ⟨_, Converges.of_eq fun fuel => (hrun fuel).trans (degreeSum_eq hn op hc u hu), rfl, rfl,
    ?_⟩
  rw [right_ok_iff rfl, filled_degreeSum hu hn]
  exact and_iff_left fun G hG => (degreeSum_holds hu hn hG).trans (hasks G).symm

/-- What `fixDegrees` does with a sequence for all vertices. -/
theorem fixDegrees_right_iff (hn : 3 ≤ n) (m : Method) (ds : List Int) (hds : ds.length = n)
    (hrun : ∀ fuel, m.run fuel u = u.fixDegrees ds)
    (hasks : ∀ G : Graph n, m.Asks G ↔ ∀ v < n, (G.degree v : Int) = ds.getD v 0) :
    ∃ u', Converges (fun fuel => m.run fuel u) (.ok u') ∧ u'.graph = u.graph ∧
      u'.splitLevel = u.splitLevel ∧
      (m.Right u (.ok u') ↔ ∀ i < n, ∀ j < n, j ≠ i → u.graph.value i j ≠ .FALSE) := by
  refine degreeSum_right_iff hu hn m .eq (fun i => ds.getD i 0 - 2) (fun i hi => ?_) hrun
    fun G => ?_
  · rw [entry_eq (by omega), ok_bind]
  · rw [hasks]
    refine forall₂_congr fun v _ => ?_
    unfold Operator.Compares
    omega

/-- **`regular`** hands over filled arrays iff no non-edge is fixed. -/
theorem regular_right_iff (hn : 3 ≤ n) (deg : Int) :
    ∃ u', Converges (fun fuel => (regular deg).run fuel u) (.ok u') ∧
      ((regular deg).Right u (.ok u') ↔
        ∀ i < n, ∀ j < n, j ≠ i → u.graph.value i j ≠ .FALSE) := by
  obtain ⟨u', h1, -, -, h2⟩ := fixDegrees_right_iff hu hn (regular deg)
    (List.replicate n deg) List.length_replicate (fun _ => rfl) fun G => by
      refine forall₂_congr fun v hv => ?_
      rw [List.getD_eq_getElem _ _ (by rwa [List.length_replicate]), List.getElem_replicate]
  exact ⟨u', h1, h2⟩

/-- **The calls for degrees and the number of chords are right** as long as no non-edge is fixed. -/
theorem goes_of_counts (hn : 3 ≤ n) {m : Method} (hm : m.Counts n)
    (hfree : ∀ i j, u.graph.value i j ≠ .FALSE) :
    ∃ u', m.Goes u u' ∧ u'.graph = u.graph ∧ u'.splitLevel = u.splitLevel := by
  have hrow : ∀ i < n, ∀ j < n, j ≠ i → u.graph.value i j ≠ .FALSE := fun i _ j _ _ => hfree i j
  cases m with
  | symmetryBreaking =>
    refine ⟨_, ⟨Converges.of_eq fun _ => symmetryBreaking_eq hn u,
      (right_ok_iff rfl).mpr ⟨?_, fun G _ => symmetryBreaking_holds⟩⟩, rfl, rfl⟩
    exact List.forall_mem_map.mpr fun p _ => filled_lexConstraint n p
  | fixDegrees ds =>
    obtain ⟨u', h1, h2, h3, h4⟩ := fixDegrees_right_iff hu hn (fixDegrees ds) ds hm
      (fun _ => rfl) fun _ => Iff.rfl
    exact ⟨u', ⟨h1, h4.mpr hrow⟩, h2, h3⟩
  | minDegree d =>
    obtain ⟨u', h1, h2, h3, h4⟩ := degreeSum_right_iff hu hn (minDegree d) .gt
      (fun _ => d - 3) (fun _ _ => rfl) (fun _ => rfl) fun G =>
        forall₂_congr fun v _ => by
          unfold Operator.Compares
          omega
    exact ⟨u', ⟨h1, h4.mpr hrow⟩, h2, h3⟩
  | maxDegree d =>
    obtain ⟨u', h1, h2, h3, h4⟩ := degreeSum_right_iff hu hn (maxDegree d) .lt
      (fun _ => d - 1) (fun _ _ => rfl) (fun _ => rfl) fun G =>
        forall₂_congr fun v _ => by
          unfold Operator.Compares
          omega
    exact ⟨u', ⟨h1, h4.mpr hrow⟩, h2, h3⟩
  | numberOfChords c =>
    refine ⟨_, ⟨Converges.of_eq fun _ => chordSum_eq hn .eq c u hu, (right_ok_iff rfl).mpr
      ⟨?_, fun G hG => ?_⟩⟩, rfl, rfl⟩
    · exact List.forall_mem_singleton.mpr ((filled_chordSum hu hn).mpr fun i j _ _ => hfree i j)
    · exact List.forall_mem_singleton.trans (chordSum_holds hu hn hG)
  | regular deg => exact absurd hm id
  | shortestChord k => exact absurd hm id
  | longestChord k => exact absurd hm id
  | girthAtLeast k => exact absurd hm id
  | setCase l num => exact absurd hm id

end Counts

/-! ## The calls for the lengths of chords -/

/-- The pairs at several lengths. -/
def lengthPairs (n : Nat) (lens : List Nat) : List (Sym2 Nat) :=
  lens.flatMap fun len => (List.range n).map fun i => s(chordEnd n len i, i)

/-- A chord of length `k` exists iff one of the variables is true. -/
theorem someChord_holds {k : Nat} (hk : 0 < k) (hkn : k < n) {G : Graph n} :
    (Posted.or ((kchords n k).map some)).Holds G ↔ 0 < G.chordsOfLength k := by
  rw [Posted.holds_or, ← countP_kchords hk hkn, List.countP_pos_iff]
  simp only [List.mem_dedup]

/-- **Excluding lengths and asking for a chord of length `k`** is right, whatever is fixed. -/
theorem goes_of_excludes {m : Method} {lens : List Nat} {k : Nat} (hk : 0 < k) (hkn : k < n)
    (hlens : ∀ len ∈ lens, 2 ≤ len ∧ len + 2 ≤ n) {u : UHGSearch n}
    (hu : u.graph.currentFixedGraph = cycleGraph n)
    (hrun : ∀ fuel, m.run fuel u = do
      let u ← lens.foldlM (fun u len => excludeChords len u) u
      u.someChord k)
    (hasks : ∀ G : Graph n, m.Asks G ↔ 0 < G.chordsOfLength k) :
    ∃ u', m.Goes u u' ∧ u'.graph = u.graph.exclude (lengthPairs n lens) ∧
      u'.splitLevel = u.splitLevel := by
  refine ⟨(u.withGraph (u.graph.exclude (lengthPairs n lens))).post
    (.or ((kchords n k).map some)), ⟨Converges.of_eq fun fuel => ?_, ?_⟩, rfl, rfl⟩
  · rw [hrun, excludeLengths_eq hlens u hu, ok_bind, someChord_eq hk hkn]
    rfl
  · refine (right_ok_iff rfl).mpr ⟨List.forall_mem_singleton.mpr ?_, fun G _ => ?_⟩
    · exact Posted.filled_or.mpr (List.forall_mem_map.mpr fun _ _ => Option.some_ne_none _)
    · rw [List.forall_mem_singleton, hasks]
      exact someChord_holds hk hkn

theorem goes_shortestChord {k : Nat} (hk : 2 ≤ k) (hkn : k ≤ n / 2) {u : UHGSearch n}
    (hu : u.graph.currentFixedGraph = cycleGraph n) : ∃ u', (shortestChord k).Goes u u' ∧
      u'.graph = u.graph.exclude (lengthPairs n (List.range' 2 (k - 2))) ∧
      u'.splitLevel = u.splitLevel :=
  goes_of_excludes (by omega) (by omega) (fun len hlen => by
    rw [List.mem_range'_1] at hlen
    omega) hu (fun _ => rfl) fun _ => Iff.rfl

theorem goes_longestChord {k : Nat} (hk : 2 ≤ k) (hkn : k ≤ n / 2) {u : UHGSearch n}
    (hu : u.graph.currentFixedGraph = cycleGraph n) : ∃ u', (longestChord k).Goes u u' ∧
      u'.graph = u.graph.exclude (lengthPairs n (List.range' (k + 1) (n / 2 - k))) ∧
      u'.splitLevel = u.splitLevel :=
  goes_of_excludes (by omega) (by omega) (fun len hlen => by
    rw [List.mem_range'_1] at hlen
    omega) hu (fun _ => rfl) fun _ => Iff.rfl

/-- Which pairs are non-edges when lengths were excluded. -/
theorem value_exclude_lengths (hn : 3 ≤ n) {lens : List Nat}
    (hlens : ∀ len ∈ lens, 2 ≤ len ∧ len + 2 ≤ n) :
    (∀ i < n, ∀ j < n, j ≠ i → ((UnknownGraph.ofGraph (cycleGraph n)).exclude
      (lengthPairs n lens)).value i j ≠ .FALSE) ↔ lens = [] := by
  constructor
  · intro h
    by_contra hne
    obtain ⟨len, lens, rfl⟩ := List.exists_cons_of_ne_nil hne
    obtain ⟨h1, h2⟩ := hlens len List.mem_cons_self
    have hend := chordEnd_eq (n := n) (k := len) (i := 0) (by omega) (by omega) (by omega)
    rw [if_neg (by omega)] at hend
    refine h 0 (by omega) (chordEnd n len 0) (by omega) (by omega) (if_pos ⟨?_, ?_⟩)
    · refine List.mem_flatMap.mpr ⟨len, List.mem_cons_self, List.mem_map.mpr
        ⟨0, List.mem_range.mpr (by omega), Sym2.eq_swap⟩⟩
    · refine if_neg fun hadj => ?_
      have := (cycleGraph_adj_iff hn (show 0 < n by omega)).mp hadj
      omega
  · rintro rfl i _ j _ _
    rw [show lengthPairs n [] = [] from rfl, UnknownGraph.exclude_nil]
    change (if (cycleGraph n).adj i j then ESat.TRUE else .UNDEFINED) ≠ .FALSE
    split_ifs <;> exact ESat.noConfusion

/-! ## The call for a case -/

theorem posted_withLevel (l : Option Nat) (u : UHGSearch n) :
    (withLevel l u).posted = u.posted := by
  cases l <;> rfl

theorem graph_withLevel (l : Option Nat) (u : UHGSearch n) :
    (withLevel l u).graph = u.graph := by
  cases l <;> rfl

theorem splitLevel_withLevel (l : Option Nat) {u : UHGSearch n} (hu : u.splitLevel = 3) :
    (withLevel l u).splitLevel = l.getD 3 := by
  cases l with
  | none => exact hu
  | some val => rfl

/-- **A case of at most `n - 2` lengths** is right. -/
theorem goes_setCase {l : Option Nat} (num : Nat) (hn : 0 < n) (hl : l.getD 3 + 2 ≤ n)
    (hnum : num < (n + 1) ^ l.getD 3) {u : UHGSearch n} (hu : u.splitLevel = 3) :
    ∃ u', (setCase l num).Goes u u' ∧ u'.graph = u.graph := by
  obtain ⟨v, hlen, -, -, hrun⟩ := numToChordSeq_spec hnum hn
  have hlevel := splitLevel_withLevel l hu
  set u' := ({ withLevel l u with split := num } : UHGSearch n).postAll (caseConstraints n v)
  have hposted : u'.posted = u.posted ++ caseConstraints n v :=
    congrArg (· ++ caseConstraints n v) (posted_withLevel l u)
  refine ⟨u', ⟨UHGSearch.setCase_eq (by omega) (withLevel l u) (by rwa [hlevel]),
    (right_ok_iff hposted).mpr ⟨filled_caseConstraints v, fun G _ => ?_⟩⟩, graph_withLevel l u⟩
  rw [holds_caseConstraints (by omega)]
  refine ⟨fun h w hw => ?_, fun h => h v hrun⟩
  obtain rfl := Except.ok.inj (hrun.unique hw)
  exact h

/-- **A case number with too many digits** throws before anything is handed over. -/
theorem setCase_throws {l : Option Nat} {num : Nat} (hn : 0 < n)
    (hnum : (n + 1) ^ l.getD 3 ≤ num) {u : UHGSearch n} (hu : u.splitLevel = 3) (ms : List Method) :
    AllRight u (setCase l num :: ms) := by
  have hthrow := (withLevel l u).setCase_converges num
    (by rw [splitLevel_withLevel l hu]; exact numToChordSeq_throws hnum hn)
  refine ⟨_, hthrow, ⟨[], ?_, List.forall_mem_nil _, fun u' h => nomatch h⟩, fun u' h => nomatch h⟩
  rw [List.append_nil]
  exact posted_withLevel l u

/-- Whether it returns or throws, what was handed over before stays. -/
theorem posted_final_kchords (l : List (Nat × Nat)) (u : UHGSearch n) :
    ∃ ps, (Outcome.final (l.foldlM (fun u p => numberOfChordsOfLengthK p.2 p.1 u) u)).posted =
      u.posted ++ ps := by
  induction l generalizing u with
  | nil => exact ⟨[], (List.append_nil _).symm⟩
  | cons p l ih =>
    rw [List.foldlM_cons]
    unfold numberOfChordsOfLengthK
    cases chordVars n p.2 with
    | error e => exact ⟨[], (List.append_nil _).symm⟩
    | ok vars =>
      rw [attempt_ok, ok_bind, ok_bind]
      obtain ⟨ps, hps⟩ := ih (u.post (.sum vars.dedup .eq p.1))
      exact ⟨.sum vars.dedup .eq p.1 :: ps, hps.trans (List.append_assoc _ _ _)⟩

/-- A chord of length `n` would be one from a vertex to itself. -/
theorem chordVars_self : chordVars n n = .ok ((List.range n).map fun _ => none) := by
  refine mapM_ok fun i hi => ?_
  have hi := List.mem_range.mp hi
  rw [chordEnds_eq le_rfl, ok_bind]
  unfold chordEnd getEdgeVar
  rw [Nat.add_sub_cancel, Nat.mod_eq_of_lt hi, if_pos ⟨hi, hi⟩, if_neg (lt_irrefl i),
    if_neg (lt_irrefl i)]

/-- **A case of more than `n - 2` lengths** hands over an array with a null entry, for the length
`n`. -/
theorem setCase_not_right {l : Option Nat} {num : Nat} (hn : 2 ≤ n) (hl : n < l.getD 3 + 2)
    (hnum : num < (n + 1) ^ l.getD 3) {u : UHGSearch n} (hu : u.splitLevel = 3)
    (ms : List Method) : ¬ AllRight u (setCase l num :: ms) := by
  rintro ⟨r, hr, ⟨new, hnew, hfilled, -⟩, -⟩
  obtain ⟨v, hlen, -, -, hdigits⟩ := numToChordSeq_spec hnum (by omega)
  set u₂ : UHGSearch n := { withLevel l u with split := num } with hu₂
  have hcall : r = (v.zipIdx 2).foldlM (fun u p => numberOfChordsOfLengthK p.2 p.1 u) u₂ :=
    hr.unique ((withLevel l u).setCase_converges num (x := .ok v)
      (by rw [splitLevel_withLevel l hu]; exact hdigits))
  -- the lengths before `n` are as they should be
  have hfirst := foldlM_kchords (n := n) (v := v.take (n - 2)) (by rw [List.length_take]; omega) u₂
  set u₃ := u₂.postAll (caseConstraints n (v.take (n - 2))) with hu₃
  obtain ⟨d, w, hrest⟩ : ∃ d w, v.drop (n - 2) = d :: w :=
    List.exists_cons_of_length_pos (by rw [List.length_drop]; omega)
  have hsplit : v.zipIdx 2 = (v.take (n - 2)).zipIdx 2 ++ ((d, n) :: w.zipIdx (n + 1)) := by
    conv_lhs => rw [← List.take_append_drop (n - 2) v]
    rw [List.zipIdx_append, hrest, List.zipIdx_cons, List.length_take,
      show 2 + min (n - 2) v.length = n by omega]
  set bad : Posted := .sum (((List.range n).map fun _ => none).dedup) .eq d with hbad
  obtain ⟨ps, hps⟩ := posted_final_kchords (w.zipIdx (n + 1)) (u₃.post bad)
  have hlast : r = (w.zipIdx (n + 1)).foldlM
      (fun u p => numberOfChordsOfLengthK p.2 p.1 u) (u₃.post bad) := by
    rw [hcall, hsplit, List.foldlM_append, hfirst, ok_bind, List.foldlM_cons]
    unfold numberOfChordsOfLengthK
    rw [chordVars_self, attempt_ok, ok_bind, ok_bind]
  rw [← hlast, hnew] at hps
  have hmem : bad ∈ new := by
    have hbase : u₂.posted = u.posted := posted_withLevel l u
    change u.posted ++ new = ((u₂.posted ++ _) ++ [bad]) ++ ps at hps
    rw [hbase, List.append_assoc, List.append_assoc] at hps
    rw [List.append_cancel_left hps]
    exact List.mem_append_right _ (List.mem_append_left _ (List.mem_singleton_self bad))
  refine hfilled bad hmem none (List.mem_dedup.mpr (List.mem_map.mpr
    ⟨0, List.mem_range.mpr (by omega), rfl⟩)) rfl

end Method

/-- Calls for degrees and the number of chords, one after another. -/
theorem Method.allGo_of_counts (hn : 3 ≤ n) {ms : List Method} (hms : ∀ m ∈ ms, m.Counts n)
    {u : UHGSearch n} (hu : u.graph = .ofGraph (cycleGraph n)) :
    ∃ u', AllGo u ms u' ∧ u'.graph = u.graph ∧ u'.splitLevel = u.splitLevel := by
  induction ms generalizing u with
  | nil => exact ⟨u, rfl, rfl, rfl⟩
  | cons m ms ih =>
    obtain ⟨hm, hms⟩ := List.forall_mem_cons.mp hms
    obtain ⟨u₁, hgo, hgraph, hlevel⟩ := goes_of_counts (u := u) (by rw [hu]; rfl) hn hm
      fun i j => by
        rw [hu]
        change (if (cycleGraph n).adj i j then ESat.TRUE else .UNDEFINED) ≠ .FALSE
        split_ifs <;> exact ESat.noConfusion
    obtain ⟨u', hall, hgraph', hlevel'⟩ := ih hms (hgraph.trans hu)
    exact ⟨u', ⟨u₁, hgo, hall⟩, hgraph'.trans hgraph, hlevel'.trans hlevel⟩

/-! ## The options -/

namespace Options

variable {o : Options}

theorem length_of_nearlyCubicDS {ds : List Int} (h : o.nearlyCubicDS n = some ds) :
    ds.length = n := by
  have turns : ∀ (l : List (List Int)) (k : Int) (r : Option (List Int)),
      (l.foldl (fun (s : Int × Option (List Int)) ds =>
        (s.1 - 1, if s.1 = 0 then some ds else s.2)) (k, r)).2 = some ds →
      r = some ds ∨ ds ∈ l := by
    intro l
    induction l with
    | nil => exact fun k r h => Or.inl h
    | cons d l ih =>
      intro k r h
      rw [List.foldl_cons] at h
      rcases ih _ _ h with h' | h'
      · by_cases hk : k = 0
        · simp only [hk, if_true] at h'
          rw [Option.some.inj h']
          exact Or.inr List.mem_cons_self
        · simp only [hk, if_false] at h'
          exact Or.inl h'
      · exact Or.inr (List.mem_cons_of_mem _ h')
  obtain ⟨dsIndex, -, h⟩ := Option.bind_eq_some_iff.mp h
  rcases turns _ _ _ h with h | h
  · exact absurd h (by simp)
  · rw [nearlyCubicDS_eq] at h
    obtain ⟨e, -, rfl⟩ := List.mem_map.mp h
    exact length_degreesAt e

theorem eq_of_mem_ite {c : Prop} [Decidable c] {m m' : Method}
    (h : m ∈ if c then [m'] else []) : m = m' := by
  split_ifs at h
  · exact List.mem_singleton.mp h
  · exact absurd h List.not_mem_nil

theorem counts_of_mem_sums {m : Method} (hm : m ∈ o.sums n) : m.Counts n := by
  rcases List.mem_append.mp hm with hm | hm
  · split_ifs at hm
    · exact absurd hm List.not_mem_nil
    · rw [List.mem_singleton.mp hm]
      trivial
  rcases List.mem_append.mp hm with hm | hm
  · split at hm
    · rename_i ds hds
      rw [List.mem_singleton.mp hm]
      exact length_of_nearlyCubicDS hds
    · exact absurd hm List.not_mem_nil
  rcases List.mem_append.mp hm with hm | hm
  · rw [eq_of_mem_ite hm]
    trivial
  rcases List.mem_append.mp hm with hm | hm
  · rw [eq_of_mem_ite hm]
    trivial
  · rw [eq_of_mem_ite hm]
    trivial

/-- The lengths of which no chord is allowed. -/
def excluded (n : Nat) (o : Options) : List Nat :=
  (if o.shortest > 1 then List.range' 2 (o.shortest.toNat - 2) else []) ++
  if o.longest > 1 then List.range' (o.longest.toNat + 1) (n / 2 - o.longest.toNat) else []

theorem excluded_eq_nil : o.excluded n = [] ↔
    o.shortest ≤ 2 ∧ (o.longest ≤ 1 ∨ ((n / 2 : Nat) : Int) ≤ o.longest) := by
  unfold excluded
  rw [List.append_eq_nil_iff]
  refine and_congr ?_ ?_
  · split_ifs
    · rw [List.range'_eq_nil_iff]
      omega
    · exact iff_of_true rfl (by omega)
  · split_ifs
    · rw [List.range'_eq_nil_iff]
      omega
    · exact iff_of_true rfl (by omega)

theorem mem_excluded (hs : o.shortest ≤ (n / 2 : Nat)) {len : Nat} (h : len ∈ o.excluded n) :
    2 ≤ len ∧ len + 2 ≤ n := by
  rcases List.mem_append.mp h with h | h
  · split_ifs at h
    · rw [List.mem_range'_1] at h
      omega
    · exact absurd h List.not_mem_nil
  · split_ifs at h
    · rw [List.mem_range'_1] at h
      omega
    · exact absurd h List.not_mem_nil

/-- The calls for the lengths of chords are right. -/
theorem allGo_lengths (hs : o.shortest ≤ (n / 2 : Nat)) (hl : o.longest ≤ (n / 2 : Nat))
    {u : UHGSearch n} (hu : u.graph = .ofGraph (cycleGraph n)) :
    ∃ u', Method.AllGo u o.lengths u' ∧
      u'.graph = u.graph.exclude (Method.lengthPairs n (o.excluded n)) ∧
      u'.splitLevel = u.splitLevel := by
  have hshort : ∃ u₁, Method.AllGo u
      (if o.shortest > 1 then [.shortestChord o.shortest.toNat] else []) u₁ ∧
      u₁.graph = u.graph.exclude (Method.lengthPairs n
        (if o.shortest > 1 then List.range' 2 (o.shortest.toNat - 2) else [])) ∧
      u₁.splitLevel = u.splitLevel := by
    split_ifs with h
    · obtain ⟨u₁, hgo, hgraph, hlevel⟩ := Method.goes_shortestChord (k := o.shortest.toNat)
        (by omega) (by omega) (u := u) (by rw [hu]; rfl)
      exact ⟨u₁, ⟨u₁, hgo, rfl⟩, hgraph, hlevel⟩
    · exact ⟨u, rfl, (UnknownGraph.exclude_nil _).symm, rfl⟩
  obtain ⟨u₁, hall₁, hgraph₁, hlevel₁⟩ := hshort
  have hcycle : u₁.graph.currentFixedGraph = cycleGraph n := by
    rw [hgraph₁, hu]
    rfl
  have hlong : ∃ u', Method.AllGo u₁
      (if o.longest > 1 then [.longestChord o.longest.toNat] else []) u' ∧
      u'.graph = u₁.graph.exclude (Method.lengthPairs n
        (if o.longest > 1 then
          List.range' (o.longest.toNat + 1) (n / 2 - o.longest.toNat) else [])) ∧
      u'.splitLevel = u₁.splitLevel := by
    split_ifs with h
    · obtain ⟨u', hgo, hgraph, hlevel⟩ := Method.goes_longestChord (k := o.longest.toNat)
        (by omega) (by omega) hcycle
      exact ⟨u', ⟨u', hgo, rfl⟩, hgraph, hlevel⟩
    · exact ⟨u₁, rfl, (UnknownGraph.exclude_nil _).symm, rfl⟩
  obtain ⟨u', hall', hgraph', hlevel'⟩ := hlong
  refine ⟨u', Method.allGo_append hall₁ hall', ?_, hlevel'.trans hlevel₁⟩
  rw [hgraph', hgraph₁, ← UnknownGraph.exclude_append]
  unfold excluded Method.lengthPairs
  rw [List.flatMap_append]

/-- The call for the girth is right. -/
theorem allGo_girths (u : UHGSearch n) : ∃ u', Method.AllGo u o.girths u' ∧
    u'.graph = u.graph ∧ u'.splitLevel = u.splitLevel := by
  unfold girths
  split_ifs
  · exact ⟨_, ⟨_, ⟨Converges.const _, (Method.right_ok_iff (List.append_nil _).symm).mpr
      ⟨List.forall_mem_nil _, fun _ _ => iff_of_true (List.forall_mem_nil _) trivial⟩⟩, rfl⟩,
      rfl, rfl⟩
  · exact ⟨u, rfl, rfl, rfl⟩

/-- **The call for regular graphs** is right iff no lengths were excluded. -/
theorem allRight_regulars (hn : 3 ≤ n) (hs : o.shortest ≤ (n / 2 : Nat)) {u : UHGSearch n}
    (hu : u.graph = (UnknownGraph.ofGraph (cycleGraph n)).exclude
      (Method.lengthPairs n (o.excluded n))) :
    Method.AllRight u o.regulars ↔ (o.deg > -1 → o.excluded n = []) := by
  have hcycle : u.graph.currentFixedGraph = cycleGraph n := by
    rw [hu]
    rfl
  unfold regulars
  split_ifs with h
  · obtain ⟨u', hrun, hright⟩ := Method.regular_right_iff hcycle hn o.deg
    rw [hu, Method.value_exclude_lengths hn fun len hlen => mem_excluded hs hlen] at hright
    rw [forall_prop_of_true h, ← hright]
    constructor
    · rintro ⟨r, hr, hr', -⟩
      rwa [hr.unique hrun] at hr'
    · exact fun h' => ⟨_, hrun, h', fun _ _ => trivial⟩
  · exact iff_of_true trivial fun h' => absurd h' h

end Options

open Options in
/-- **The options for which all is right**: every array handed to `model.sum`, `model.or` and
`lexLessEq` is filled, and every constraint says what its method asks, whatever was fixed before,
iff `regular` does not come after excluded lengths and a case has at most `n - 2` lengths, or the
case number has too many digits and `setCase` throws. -/
theorem options_right_iff (hn : 5 ≤ n) (o : Options) (hs : o.shortest ≤ (n / 2 : Nat))
    (hl : o.longest ≤ (n / 2 : Nat)) : o.Right n ↔ o.Fits n := by
  have hn3 : 3 ≤ n := by omega
  -- the calls before `setCase` are right
  obtain ⟨u₁, hall₁, hgraph₁, hlevel₁⟩ := Method.allGo_of_counts hn3
    (fun m (hm : m ∈ o.sums n) => counts_of_mem_sums hm) (u := UHGSearch.start n) rfl
  obtain ⟨u₂, hall₂, hgraph₂, hlevel₂⟩ := allGo_lengths hs hl hgraph₁
  obtain ⟨u₃, hall₃, hgraph₃, hlevel₃⟩ := allGo_girths (o := o) u₂
  have hgraph : u₃.graph = (UnknownGraph.ofGraph (cycleGraph n)).exclude
      (Method.lengthPairs n (o.excluded n)) := by
    rw [hgraph₃, hgraph₂, hgraph₁]
    rfl
  have hlevel : u₃.splitLevel = 3 := by
    rw [hlevel₃, hlevel₂, hlevel₁]
    rfl
  have hright : o.Right n ↔ Method.AllRight u₃ (o.cases ++ o.regulars) := by
    unfold Options.Right Options.methods
    rw [UHGSearch.new_eq hn3]
    constructor
    · rintro ⟨u, hu, h⟩
      rw [← Except.ok.inj hu] at h
      rwa [Method.allRight_append hall₁, Method.allRight_append hall₂,
        Method.allRight_append hall₃] at h
    · intro h
      refine ⟨_, rfl, ?_⟩
      rwa [Method.allRight_append hall₁, Method.allRight_append hall₂,
        Method.allRight_append hall₃]
  rw [hright]
  unfold Options.Fits
  rw [← excluded_eq_nil]
  by_cases hsplit : o.splitValue > -1
  · -- a case is given
    set l := if o.splitLevelValue > -1 then some o.splitLevelValue.toNat else none with hldef
    have hcases : o.cases = [.setCase l o.splitValue.toNat] := if_pos hsplit
    have hlvl : l.getD 3 = o.level := by
      rw [hldef]
      unfold level
      split_ifs <;> rfl
    rw [hcases, List.singleton_append, forall_prop_of_true hsplit]
    by_cases hover : (n + 1) ^ o.level ≤ o.splitValue.toNat
    · exact iff_of_true (Method.setCase_throws (by omega) (by rwa [hlvl]) hlevel _)
        (Or.inl ⟨hsplit, hover⟩)
    · rw [or_iff_right fun h => hover h.2]
      by_cases hfit : o.level + 2 ≤ n
      · obtain ⟨u₄, hgo, hgraph₄⟩ := Method.goes_setCase (n := n) (l := l)
          o.splitValue.toNat (by omega) (by rwa [hlvl]) (by rw [hlvl]; omega) hlevel
        rw [Method.allRight_cons_of_goes hgo, and_iff_right hfit]
        exact allRight_regulars hn3 hs (hgraph₄.trans hgraph)
      · exact iff_of_false (Method.setCase_not_right (by omega) (by rw [hlvl]; omega)
          (by rw [hlvl]; omega) hlevel _) fun h => hfit h.1
  · have hcases : o.cases = [] := if_neg hsplit
    rw [hcases, List.nil_append, or_iff_right fun h => hsplit h.1,
      and_iff_right fun h => absurd h hsplit]
    exact allRight_regulars hn3 hs hgraph

/-- `-minDeg 3 -shortestChord 2 -longestChord 3 -split 5 -reg 4` on six vertices. -/
theorem options_right_iff_six : Options.Right 6
    ⟨false, none, some 3, none, none, false, some 2, some 3, none, some 5, none, some 4⟩ :=
  (options_right_iff (n := 6) (by decide) _ (by decide) (by decide)).mpr (by decide)

/-- **`-shortestChord 3 -reg 3`** on six vertices: `regular` finds the chords of length 2 fixed, and
its arrays are not filled. -/
theorem regular_after_shortestChord : ¬ ∀ (n : Nat) (o : Options), 5 ≤ n →
    (∀ k, o.shortestChord = some k → 2 ≤ k ∧ k ≤ (n / 2 : Nat)) →
    (∀ k, o.longestChord = some k → 2 ≤ k ∧ k ≤ (n / 2 : Nat)) → o.Right n := by
  intro h
  let o : Options :=
    ⟨true, none, none, none, none, false, some 3, none, none, none, none, some 3⟩
  obtain ⟨u, hu, hall⟩ := h 6 o (by decide)
    (fun k hk => by obtain rfl := Option.some.inj hk; decide) (fun k hk => nomatch hk)
  rw [UHGSearch.new_eq (by decide)] at hu
  obtain rfl := Except.ok.inj hu
  obtain ⟨u₁, hgo, hgraph, -⟩ := Method.goes_shortestChord (n := 6) (k := 3) (by decide)
    (by decide) (u := UHGSearch.start 6) rfl
  have hmethods : o.methods 6 = .shortestChord 3 :: o.regulars := by decide
  rw [hmethods, Method.allRight_cons_of_goes hgo,
    Options.allRight_regulars (by decide) (by decide) hgraph] at hall
  exact absurd (hall (by decide)) (by decide)

end SymBreak.Uhg
