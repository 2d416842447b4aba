import SymBreak.Reduction

/-!
# Reductions in one process

`runReducer` looks neither at the result of `system` nor at whether the output file could be opened,
and the names of the three files come from the process id alone, so that every reduction of a
process reads the same output file. Here a reduction is a step on that file: the command writes it,
or fails and leaves it as it was. The writers start their two files anew, which need not be kept.

* `Call.reply_of_some`: where the command succeeds, the list returned is equivalent to the input.
* `Call.right_of_none_iff`: where it fails, the numbers already in the file decide.
* `reductions_right_iff`: the two over every sequence of reductions.
* `missing_right_iff`: without the program, only lists that say nothing are reduced right.
-/

namespace SymBreak

open Cnf Matrix ConstraintSolver

namespace LexImplicationsReducer

/-! ## The output file -/

/-- The file `m_outFileName`: its lines, unless there is no such file. -/
abbrev OutFile := Option (List (List Char))

/-- What comes of the command: `./glucoseReducer` runs, or it fails. -/
abbrev Command := Option GlucoseReducer

/-- `system(command)`: a command that fails leaves the file as it was. -/
def system (command : Command) (tsFile : List Line) (impFile : ImpFile) (outFile : OutFile) :
    OutFile :=
  match command with
  | some glucoseReducer => some (glucoseReducer tsFile impFile)
  | none => outFile

/-- What `runReducer` reads (`LexImplicationsReducer.cc:174-183`): a file that cannot be opened has
no lines. -/
def readIndices : OutFile → List Int
  | some lines => lines.map fun line => atoi line.dropLast - 1
  | none => []

/-- What a reduction leaves: the list it returns, the members and the file. The only failure is to
read `leximps[res[i]]` outside the list. -/
structure Reply where
  result : Except (Halt Exn) (List LexImplication)
  members : LexImplicationsReducer
  outFile : OutFile

/-- `reduce` (`LexImplicationsReducer.cc:50-61`) on the output file. -/
def reduceIn (command : Command) (r : LexImplicationsReducer) (leximps : List LexImplication)
    (outFile : OutFile) : Reply :=
  let (r, tsFile) := r.writeTseitenCnfFile leximps
  let (r, impFile) := r.writeImplicationsCnfFile leximps
  let outFile := system command tsFile impFile outFile
  { result := (readIndices outFile).mapM (nth leximps), members := r, outFile }

/-- `reduceDelta` (`LexImplicationsReducer.cc:64-75`) on the output file. -/
def reduceDeltaIn (command : Command) (r : LexImplicationsReducer)
    (leximps delta : List LexImplication) (outFile : OutFile) : Reply :=
  let (r, tsFile) := r.writeTseitenCnfFileDelta leximps delta
  let (r, impFile) := r.writeImplicationsCnfFileDelta leximps delta
  let outFile := system command tsFile impFile outFile
  { result := (readIndices outFile).mapM (nth delta), members := r, outFile }

theorem nth_eq_ok {imps : List LexImplication} {i : Int} {imp : LexImplication}
    (h : nth imps i = .ok imp) :
    ∃ j : Nat, i = j ∧ j < imps.length ∧ imps.getD j default = imp := by
  cases i with
  | ofNat j =>
    simp only [nth] at h
    cases hj : imps[j]? with
    | none =>
      rw [hj] at h
      cases h
    | some imp' =>
      rw [hj] at h
      obtain rfl : imp' = imp := Except.ok.inj h
      obtain ⟨hlt, -⟩ := List.getElem?_eq_some_iff.mp hj
      exact ⟨j, rfl, hlt, by rw [List.getD_eq_getElem?_getD, hj, Option.getD_some]⟩
  | negSucc j => cases h

/-- Indexing succeeds on the numbers of the list alone. -/
theorem mapM_nth_iff {imps reduced : List LexImplication} {indices : List Int} :
    indices.mapM (nth imps) = .ok reduced ↔
      ∃ kept : List Nat, indices = kept.map (fun i : Nat => (i : Int)) ∧
        (∀ i ∈ kept, i < imps.length) ∧ reduced = kept.map (imps.getD · default) := by
  constructor
  · intro h
    induction indices generalizing reduced with
    | nil =>
      obtain rfl : [] = reduced := Except.ok.inj h
      exact ⟨[], rfl, by simp, rfl⟩
    | cons i indices ih =>
      rw [List.mapM_cons] at h
      cases hi : nth imps i with
      | error e =>
        rw [hi] at h
        cases h
      | ok imp =>
        rw [hi] at h
        cases hrest : indices.mapM (nth imps) with
        | error e =>
          rw [hrest] at h
          cases h
        | ok rest =>
          rw [hrest] at h
          obtain rfl : imp :: rest = reduced := Except.ok.inj h
          obtain ⟨kept, rfl, hlt, rfl⟩ := ih hrest
          obtain ⟨j, rfl, hj, hget⟩ := nth_eq_ok hi
          refine ⟨j :: kept, rfl, ?_, ?_⟩
          · rw [List.forall_mem_cons]
            exact ⟨hj, hlt⟩
          · rw [List.map_cons, hget]
  · rintro ⟨kept, rfl, hlt, rfl⟩
    exact mapM_nth kept hlt

/-- The implications kept, as a list and by their numbers. -/
theorem satisfies_map_getD {n : Nat} {idx : CanonicalIndexing} {G : Graph n}
    {imps : List LexImplication} {kept : List Nat} (hlt : ∀ i ∈ kept, i < imps.length) :
    Graph.Satisfies idx (kept.map (imps.getD · default)) G ↔
      ∀ i ∈ kept, ∀ imp, imps[i]? = some imp → Graph.SatisfiesImp idx imp G := by
  rw [Graph.Satisfies, List.forall_mem_map]
  refine forall₂_congr fun i hi => ?_
  rw [List.getElem?_eq_getElem (hlt i hi), List.getD_eq_getElem _ _ (hlt i hi)]
  exact ⟨fun h imp himp => Option.some.inj himp ▸ h, fun h => h _ rfl⟩

/-! ## Calls -/

/-- A reducer of the process: what it was constructed for, and its members as the calls so far left
them. -/
structure Reducer where
  n : Nat
  idx : CanonicalIndexing
  k : Nat
  le : k ≤ n
  sub : Option (Graph k)
  members : LexImplicationsReducer
  inv : Inv n (construct n idx sub) members

/-- A new reducer. -/
def Reducer.make (n : Nat) (idx : CanonicalIndexing) {k : Nat} (le : k ≤ n)
    (sub : Option (Graph k)) : Reducer :=
  { n, idx, k, le, sub
    members := construct n idx sub
    inv := (fresh_construct n idx sub).inv }

/-- The list to reduce, for `reduceDelta` after the list given. -/
inductive Request where
  | reduce (leximps : List LexImplication)
  | reduceDelta (leximps delta : List LexImplication)

/-- The implications given. -/
def Request.given : Request → List LexImplication
  | .reduce _ => []
  | .reduceDelta leximps _ => leximps

/-- The implications to reduce. -/
def Request.input : Request → List LexImplication
  | .reduce leximps => leximps
  | .reduceDelta _ delta => delta

/-- A call: implications of permutations of at most `n` vertices, and a command that fails or runs a
correct reducer. -/
structure Call where
  reducer : Reducer
  request : Request
  command : Command
  given : ∀ imp ∈ request.given, Graph.Valid reducer.n imp
  input : ∀ imp ∈ request.input, Graph.Valid reducer.n imp
  correct : ∀ glucoseReducer ∈ command, glucoseReducer.Correct

namespace Call

/-- The call on the file it finds. -/
def reply (call : Call) (outFile : OutFile) : Reply :=
  match call.request with
  | .reduce leximps => reduceIn call.command call.reducer.members leximps outFile
  | .reduceDelta leximps delta =>
    reduceDeltaIn call.command call.reducer.members leximps delta outFile

/-- The graphs the call is about: all of them, for `reduceDelta` those that satisfy the implications
given and contain the subgraph. -/
def Ground (call : Call) (G : Graph call.reducer.n) : Prop :=
  match call.request with
  | .reduce _ => True
  | .reduceDelta leximps _ =>
    Graph.Satisfies call.reducer.idx leximps G ∧
      ∀ H ∈ call.reducer.sub, G.induce call.reducer.k = H

/-- The call returns a list that is equivalent to its input. -/
def Right (call : Call) (result : Except (Halt Exn) (List LexImplication)) : Prop :=
  ∃ reduced, result = .ok reduced ∧ ∀ G, call.Ground G →
    (Graph.Satisfies call.reducer.idx reduced G ↔
      Graph.Satisfies call.reducer.idx call.request.input G)

/-- The numbers are a reduced list of the input: they are within it, and the implications they
number entail the others. -/
def Reduced (call : Call) (indices : List Int) : Prop :=
  ∃ kept : List Nat, indices = kept.map (fun i : Nat => (i : Int)) ∧
    (∀ i ∈ kept, i < call.request.input.length) ∧ ∀ G, call.Ground G →
      (∀ i ∈ kept, ∀ imp, call.request.input[i]? = some imp →
        Graph.SatisfiesImp call.reducer.idx imp G) →
      Graph.Satisfies call.reducer.idx call.request.input G

/-! ## The members -/

theorem valid_reduce {call : Call} {leximps : List LexImplication}
    (hreq : call.request = .reduce leximps) :
    ∀ imp ∈ leximps, Graph.Valid call.reducer.n imp := by
  simpa [hreq, Request.input] using call.input

theorem valid_reduceDelta {call : Call} {leximps delta : List LexImplication}
    (hreq : call.request = .reduceDelta leximps delta) :
    (∀ imp ∈ leximps, Graph.Valid call.reducer.n imp) ∧
      ∀ imp ∈ delta, Graph.Valid call.reducer.n imp :=
  ⟨by simpa [hreq, Request.given] using call.given, by simpa [hreq, Request.input] using call.input⟩

/-- The call leaves the members as an earlier call of a process may. -/
theorem inv_reply (call : Call) (outFile : OutFile) :
    Inv call.reducer.n (construct call.reducer.n call.reducer.idx call.reducer.sub)
      (call.reply outFile).members := by
  have h₀ := fresh_construct call.reducer.n call.reducer.idx call.reducer.sub
  rw [reply]
  cases hreq : call.request with
  | reduce leximps =>
    have hv := valid_reduce hreq
    obtain ⟨hi, -, hc⟩ := writeTseiten_spec h₀ call.reducer.inv hv
    obtain ⟨lines, hlines, -⟩ := impLines_spec h₀ hi hv hc
    simp only [reduceIn, writeImplicationsCnfFile, hlines]
    exact hi
  | reduceDelta leximps delta =>
    obtain ⟨hv, hd⟩ := valid_reduceDelta hreq
    obtain ⟨hi, -, hc⟩ := writeTseitenDelta_spec h₀ call.reducer.inv hv hd
    obtain ⟨lines, hlines, -⟩ := impLines_spec h₀ hi hd hc
    simp only [reduceDeltaIn, writeImplicationsCnfFileDelta, hlines]
    exact hi

/-- The reducer as the call leaves it, for a later call. -/
def after (call : Call) (outFile : OutFile) : Reducer :=
  { call.reducer with
    members := (call.reply outFile).members
    inv := call.inv_reply outFile }

/-! ## The list returned -/

/-- **A command that succeeds** makes the call right, whatever the file held. -/
theorem reply_of_some {call : Call} {glucoseReducer : GlucoseReducer}
    (hcommand : call.command = some glucoseReducer) (outFile : OutFile) :
    call.Right (call.reply outFile).result := by
  have hred := call.correct glucoseReducer hcommand
  rw [Right, reply, hcommand]
  simp only [Ground]
  cases hreq : call.request with
  | reduce leximps =>
    have hv := valid_reduce hreq
    obtain ⟨reduced, he, hsub, heq⟩ := reduce_construct call.reducer.inv hred hv
    exact ⟨reduced, he, fun G _ => ⟨heq G, fun h imp himp => h imp (hsub imp himp)⟩⟩
  | reduceDelta leximps delta =>
    obtain ⟨hv, hd⟩ := valid_reduceDelta hreq
    obtain ⟨reduced, he, hsub, heq⟩ :=
      reduceDelta_construct call.reducer.le call.reducer.inv hred hv hd
    exact ⟨reduced, he, fun G hG =>
      ⟨heq G hG.1 hG.2, fun h imp himp => h imp (hsub imp himp)⟩⟩

/-- A command that fails makes the call read the file it found. -/
theorem reply_of_none {call : Call} (hcommand : call.command = none) (outFile : OutFile) :
    (call.reply outFile).result = (readIndices outFile).mapM (nth call.request.input) ∧
      (call.reply outFile).outFile = outFile := by
  rw [reply, hcommand]
  cases call.request <;> exact ⟨rfl, rfl⟩

/-- **A command that fails** leaves the call right iff the numbers already in the file are a reduced
list of its input. -/
theorem right_of_none_iff {call : Call} (hcommand : call.command = none) (outFile : OutFile) :
    call.Right (call.reply outFile).result ↔ call.Reduced (readIndices outFile) := by
  rw [(reply_of_none hcommand outFile).1]
  constructor
  · rintro ⟨reduced, hok, heq⟩
    obtain ⟨kept, hkept, hlt, rfl⟩ := mapM_nth_iff.mp hok
    exact ⟨kept, hkept, hlt, fun G hG h => (heq G hG).mp ((satisfies_map_getD hlt).mpr h)⟩
  · rintro ⟨kept, hkept, hlt, hent⟩
    refine ⟨_, mapM_nth_iff.mpr ⟨kept, hkept, hlt, rfl⟩, fun G hG => ?_⟩
    rw [satisfies_map_getD hlt]
    exact ⟨hent G hG, fun h i _ imp himp => h imp (List.mem_of_getElem? himp)⟩

/-- No numbers are a reduced list of an input that says nothing. -/
theorem reduced_nil_iff {call : Call} : call.Reduced [] ↔ ∀ G, call.Ground G →
    Graph.Satisfies call.reducer.idx call.request.input G := by
  constructor
  · rintro ⟨kept, hkept, -, hent⟩ G hG
    obtain rfl : kept = [] := by simpa using hkept.symm
    exact hent G hG (by simp)
  · exact fun h => ⟨[], rfl, by simp, fun G hG _ => h G hG⟩

end Call

/-! ## Runs -/

/-- A call of a run, the file it found and what it returned. -/
structure Turn where
  call : Call
  found : OutFile
  result : Except (Halt Exn) (List LexImplication)

/-- The calls of a process, one after the other on the one output file. -/
def run (outFile : OutFile) : List Call → List Turn
  | [] => []
  | call :: calls =>
    ⟨call, outFile, (call.reply outFile).result⟩ :: run (call.reply outFile).outFile calls

/-- The call is right. -/
def Turn.Right (turn : Turn) : Prop := turn.call.Right turn.result

/-- The command succeeds, or the file already holds a reduced list of the call's input. -/
def Turn.Safe (turn : Turn) : Prop :=
  turn.call.command ≠ none ∨ turn.call.Reduced (readIndices turn.found)

/-- What holds of every call on every file holds along a run. -/
theorem forall_run {P : Turn → Prop}
    (h : ∀ (call : Call) outFile, P ⟨call, outFile, (call.reply outFile).result⟩)
    (outFile : OutFile) (calls : List Call) : ∀ turn ∈ run outFile calls, P turn := by
  induction calls generalizing outFile with
  | nil => simp [run]
  | cons call calls ih =>
    rw [run, List.forall_mem_cons]
    exact ⟨h call outFile, ih _⟩

/-- **As long as the commands fail, the file stays**: every call reads what the process found, or
what the last reduction that succeeded wrote for its own input. -/
theorem found_of_failed (outFile : OutFile) {calls : List Call}
    (hfail : ∀ call ∈ calls, call.command = none) :
    ∀ turn ∈ run outFile calls, turn.found = outFile ∧ turn.call.command = none := by
  induction calls with
  | nil => simp [run]
  | cons call calls ih =>
    rw [List.forall_mem_cons] at hfail
    rw [run, List.forall_mem_cons, (Call.reply_of_none hfail.1 outFile).2]
    exact ⟨⟨rfl, hfail.1⟩, ih hfail.2⟩

theorem turn_right_iff (call : Call) (outFile : OutFile) :
    (⟨call, outFile, (call.reply outFile).result⟩ : Turn).Right ↔
      (⟨call, outFile, (call.reply outFile).result⟩ : Turn).Safe := by
  rw [Turn.Right, Turn.Safe]
  cases hcommand : call.command with
  | some glucoseReducer => simp [Call.reply_of_some hcommand outFile]
  | none => simp [Call.right_of_none_iff hcommand outFile]

/-- **Without the program and without a file** a call is right iff its input holds of every graph it
is about: every other list is reduced to nothing. -/
theorem missing_right_iff {calls : List Call} (hfail : ∀ call ∈ calls, call.command = none) :
    ∀ turn ∈ run none calls, turn.result = .ok [] ∧ (turn.Right ↔ ∀ G, turn.call.Ground G →
      Graph.Satisfies turn.call.reducer.idx turn.call.request.input G) := by
  intro turn hturn
  obtain ⟨hfound, hcommand⟩ := found_of_failed none hfail turn hturn
  have hresult : turn.result = (turn.call.reply turn.found).result :=
    forall_run (P := fun turn => turn.result = (turn.call.reply turn.found).result)
      (fun _ _ => rfl) none calls turn hturn
  rw [hfound] at hresult
  refine ⟨hresult.trans (Call.reply_of_none hcommand none).1, ?_⟩
  rw [Turn.Right, hresult, Call.right_of_none_iff hcommand]
  exact Call.reduced_nil_iff

/-- **A reduction is right iff its command succeeds or the file already holds a reduced list.** In
every run of a process, whatever the output file held before: a call returns a list that is
equivalent to its input, for `reduceDelta` on the graphs that satisfy the implications given and
contain the subgraph, and reads nothing outside its input, iff its command succeeds or the numbers
left in the file are within its input and the implications they number entail the others. -/
theorem reductions_right_iff (outFile : OutFile) (calls : List Call) :
    ∀ turn ∈ run outFile calls, turn.Right ↔ turn.Safe :=
  forall_run turn_right_iff outFile calls

/-- A reducer that drops nothing. -/
def idleReducer : GlucoseReducer := fun _ impFile =>
  (List.range impFile.lines.length).map fun i => Nat.toDigits 10 (i + 1) ++ [' ']

theorem idleReducer_correct : idleReducer.Correct := by
  intro tsFile impFile
  refine ⟨List.range impFile.lines.length, ?_, fun i hi => List.mem_range.mp hi, fun σ _ h => ?_⟩
  · rw [idleReducer, List.forall₂_map_right_iff]
    exact List.forall₂_same.mpr fun i _ => ⟨' ', rfl⟩
  · rw [sat_fileFormula]
    intro l hl
    obtain ⟨i, hi, rfl⟩ := List.getElem_of_mem hl
    exact h i (List.mem_range.mpr hi) _ (List.getElem?_eq_getElem hi)

/-- A reducer of three vertices. -/
def threeReducer : Reducer :=
  Reducer.make 3 .upperTriangleRows (Nat.zero_le 3) (none : Option (Graph 0))

theorem valid_swap : Graph.Valid 3 ⟨[1, 0], 2⟩ :=
  ⟨⟨2, by decide, by decide⟩, by decide, by decide⟩

theorem valid_last : Graph.Valid 3 ⟨[0, 2, 1], 1⟩ :=
  ⟨⟨3, le_rfl, by decide⟩, by decide, by decide⟩

/-- Two implications and a reducer that runs. -/
def pairCall : Call where
  reducer := threeReducer
  request := .reduce [⟨[1, 0], 2⟩, ⟨[0, 2, 1], 1⟩]
  command := some idleReducer
  given := by simp [Request.given]
  input := by
    simp only [Request.input, List.forall_mem_cons, List.not_mem_nil, false_implies, implies_true,
      and_true]
    exact ⟨valid_swap, valid_last⟩
  correct := by
    rintro _ ⟨⟩
    exact idleReducer_correct

/-- One implication and a command that fails. -/
def swapCall : Call where
  reducer := threeReducer
  request := .reduce [⟨[1, 0], 2⟩]
  command := none
  given := by simp [Request.given]
  input := by
    simp only [Request.input, List.forall_mem_cons, List.not_mem_nil, false_implies, implies_true,
      and_true]
    exact valid_swap
  correct := by simp

/-- The graph with one edge, between vertices `0` and `2`. -/
def edgeGraph : Graph 3 where
  adj i j := decide (i = 0 ∧ j = 2 ∨ i = 2 ∧ j = 0)
  symm i j := decide_eq_decide.mpr (by omega)
  irrefl i := decide_eq_false (by omega)
  bound i j h := by
    have := of_decide_eq_true h
    omega

/-- The second of two reductions, whose command fails. -/
theorem reductions_right_iff_three :
    let outFile := (pairCall.reply none).outFile
    (⟨swapCall, outFile, (swapCall.reply outFile).result⟩ : Turn).Right ↔
      (⟨swapCall, outFile, (swapCall.reply outFile).result⟩ : Turn).Safe :=
  reductions_right_iff none [pairCall, swapCall] _ (List.mem_cons_of_mem _ List.mem_cons_self)

/-- A reduction whose command fails loses its implication, and after an earlier one of two
implications it reads outside its input. -/
theorem reductions_wrong :
    ((run none [swapCall]).map Turn.result = [.ok []] ∧
      ¬ ∀ turn ∈ run none [swapCall], turn.Right) ∧
    (run none [pairCall, swapCall]).map Turn.result =
      [.ok pairCall.request.input, .error (.raised .outOfRange)] := by
  refine ⟨⟨rfl, fun h => ?_⟩, rfl⟩
  have hfail : ∀ call ∈ [swapCall], call.command = none := by simp [swapCall]
  have hall := (missing_right_iff hfail _ List.mem_cons_self).2.mp (h _ List.mem_cons_self)
    edgeGraph trivial
  have himp : ¬ Graph.SatisfiesImp .upperTriangleRows ⟨[1, 0], 2⟩ edgeGraph := by
    unfold Graph.SatisfiesImp
    decide
  exact himp (hall _ List.mem_cons_self)

end LexImplicationsReducer

end SymBreak
