import SymBreak.Uhg.Constraints

/-!
# Nearly cubic degree sequences

`nearlyCubicDS(n)` (`Utils.java:197-211`) lists the degree sequences with two entries 4 and all
others 3. A search is run for each of them, with symmetry breaking: no one of these sequences is the
same after a turn or a flip of the cycle, so a search for a single one misses isomorphism classes,
and only the searches for all of them together find every class.

Results:
* `nearlyCubicDS_eq`: the list holds one sequence for every pair of vertices;
* `degree_permute`, `NearlyCubic.of_isomorphic`: degrees under relabelling;
* `nearlyCubicModel_eq`: the model with symmetry breaking and the degrees of one sequence;
* **`nearlyCubic_exact`**: all searches together find exactly one graph of every isomorphism class,
  and no graph is found by two of them.
-/

namespace SymBreak.Uhg

open Hamilton Graph Matrix

variable {n : Nat}

/-! ## The degree sequences -/

/-- `nearlyCubicDS` (`Utils.java:197-211`): one array is changed and changed back for every pair,
and copied in between. -/
def Utils.nearlyCubicDS (n : Nat) : List (List Int) :=
  ((allVars n).foldl (fun (s : List Int × List (List Int)) e =>
    let ds := (s.1.set e.2 4).set e.1 4
    ((ds.set e.2 3).set e.1 3, s.2 ++ [ds])) (List.replicate n 3, [])).2

/-- The sequence with the entries 4 at the two vertices. -/
def degreesAt (n : Nat) (e : Nat × Nat) : List Int := ((List.replicate n 3).set e.2 4).set e.1 4

theorem length_degreesAt (e : Nat × Nat) : (degreesAt n e).length = n := by
  unfold degreesAt
  rw [List.length_set, List.length_set, List.length_replicate]

theorem getD_degreesAt (e : Nat × Nat) {v : Nat} (hv : v < n) :
    (degreesAt n e).getD v 0 = if v = e.1 ∨ v = e.2 then 4 else 3 := by
  rw [List.getD_eq_getElem _ _ (by rwa [length_degreesAt])]
  unfold degreesAt
  rw [List.getElem_set, List.getElem_set, List.getElem_replicate]
  by_cases h1 : e.1 = v
  · rw [if_pos h1, if_pos (Or.inl h1.symm)]
  · by_cases h2 : e.2 = v
    · rw [if_neg h1, if_pos h2, if_pos (Or.inr h2.symm)]
    · rw [if_neg h1, if_neg h2, if_neg (by omega)]

/-- The array is changed back. -/
theorem set_degreesAt (e : Nat × Nat) :
    ((degreesAt n e).set e.2 3).set e.1 3 = List.replicate n 3 := by
  refine List.ext_getElem (by simp [length_degreesAt]) fun v h1 h2 => ?_
  rw [List.getElem_set, List.getElem_set, List.getElem_replicate]
  have hv : v < n := by rwa [List.length_replicate] at h2
  have hd := getD_degreesAt e hv
  rw [List.getD_eq_getElem _ _ (by rwa [length_degreesAt])] at hd
  split_ifs with h3 h4
  · rfl
  · rfl
  · rw [hd, if_neg (by omega)]

/-- **One sequence for every pair of vertices.** -/
theorem nearlyCubicDS_eq (n : Nat) :
    Utils.nearlyCubicDS n = (allVars n).map (degreesAt n) := by
  have turns : ∀ (l : List (Nat × Nat)) (all : List (List Int)),
      l.foldl (fun (s : List Int × List (List Int)) e =>
        let ds := (s.1.set e.2 4).set e.1 4
        ((ds.set e.2 3).set e.1 3, s.2 ++ [ds])) (List.replicate n 3, all) =
      (List.replicate n 3, all ++ l.map (degreesAt n)) := by
    intro l
    induction l with
    | nil => exact fun all => by rw [List.map_nil, List.append_nil]; rfl
    | cons e l ih =>
      intro all
      have hback := set_degreesAt (n := n) e
      unfold degreesAt at hback
      rw [List.foldl_cons]
      simp only [hback]
      rw [ih, List.map_cons, List.append_assoc]
      rfl
  unfold Utils.nearlyCubicDS
  rw [turns, List.nil_append]

/-- The sequence of a pair. -/
theorem mem_nearlyCubicDS {index : Nat} (h : index < (Utils.nearlyCubicDS n).length) :
    ∃ e, (allVars n)[index]? = some e ∧
      (Utils.nearlyCubicDS n)[index]? = some (degreesAt n e) := by
  rw [nearlyCubicDS_eq, List.length_map] at h
  refine ⟨(allVars n)[index], List.getElem?_eq_getElem h, ?_⟩
  rw [nearlyCubicDS_eq, List.getElem?_map, List.getElem?_eq_getElem h]
  rfl

/-! ## Degrees under relabelling -/

/-- **Two vertices of degree 4 and all others of degree 3.** -/
def NearlyCubic (G : Graph n) : Prop :=
  ∃ e ∈ allVars n, ∀ v < n, G.degree v = if v = e.1 ∨ v = e.2 then 4 else 3

theorem degree_permute (H : Graph n) {p : List Nat} (hp : p.Perm (List.range n)) {v : Nat}
    (hv : v < n) : (H.permute p).degree v = H.degree (image p v) := by
  unfold Graph.degree
  have hcongr : (List.range n).countP ((H.permute p).adj v) =
      (List.range n).countP (H.adj (image p v) ∘ image p) := List.countP_congr fun w hw => by
    rw [H.permute_adj p hv (List.mem_range.mp hw)]
    rfl
  rw [hcongr, ← List.countP_map, map_image_range hp]
  exact hp.countP_eq _

theorem NearlyCubic.of_isomorphic {G H : Graph n} (hG : NearlyCubic G) (h : Isomorphic G H) :
    NearlyCubic H := by
  obtain ⟨p, hp, rfl⟩ := isomorphic_iff.mp h
  obtain ⟨e, he, hdeg⟩ := hG
  obtain ⟨hlt, hbound⟩ := Matrix.mem_upperPairs.mp he
  have hmap := map_image_range hp
  have hinj := image_injective hp
  -- the two vertices are the images of others
  have hpre : ∀ v < n, ∃ w < n, image p w = v := fun v hv => by
    have hmem : v ∈ (List.range n).map (image p) := by
      rw [hmap, hp.mem_iff]
      exact List.mem_range.mpr hv
    obtain ⟨w, hw, rfl⟩ := List.mem_map.mp hmem
    exact ⟨w, List.mem_range.mp hw, rfl⟩
  obtain ⟨a, ha, hae⟩ := hpre e.1 (by omega)
  obtain ⟨b, hb, hbe⟩ := hpre e.2 hbound
  have hab : a ≠ b := by
    rintro rfl
    omega
  have hdeg' : ∀ v < n, (G.permute p).degree v = if v = a ∨ v = b then 4 else 3 := fun v hv => by
    have himage : image p v < n := by
      have hmem : image p v ∈ (List.range n).map (image p) :=
        List.mem_map_of_mem (List.mem_range.mpr hv)
      rw [hmap] at hmem
      exact List.mem_range.mp (hp.mem_iff.mp hmem)
    rw [degree_permute G hp hv, hdeg _ himage, ← hae, ← hbe]
    simp only [hinj.eq_iff]
  rcases Nat.lt_or_gt_of_ne hab with h' | h'
  · exact ⟨(a, b), Matrix.mem_upperPairs.mpr ⟨h', hb⟩, hdeg'⟩
  · refine ⟨(b, a), Matrix.mem_upperPairs.mpr ⟨h', ha⟩, fun v hv => ?_⟩
    rw [hdeg' v hv]
    simp only [or_comm]

/-! ## The searches -/

/-- The state before a search with one of the sequences (`Main.java:156-168`, with `-ncDS` and no
other option). -/
def nearlyCubicModel (ds : List Int) (u : UHGSearch n) : Outcome n := do
  let u ← u.symmetryBreaking
  u.fixDegrees ds

/-- What was posted holds of a complete graph. -/
def UHGSearch.Meets (u : UHGSearch n) (G : Graph n) : Prop := ∀ p ∈ u.posted, p.Holds G

/-- **Symmetry breaking and the degrees of one sequence.** -/
theorem nearlyCubicModel_eq (hn : 3 ≤ n) (e : Nat × Nat) :
    ∃ u, nearlyCubicModel (degreesAt n e) (.start n) = .ok u ∧
      u.graph = .ofGraph (cycleGraph n) ∧ (∀ p ∈ u.posted, p.Filled) ∧
      ∀ G : Graph n, G.ContainsCycle → (u.Meets G ↔ symmetryBreaking G ∧
        ∀ v < n, G.degree v = if v = e.1 ∨ v = e.2 then 4 else 3) := by
  set lexes := (Utils.dihedralGroupPermutations n).map (UHGSearch.lexConstraint n) with hlexes
  have hdegrees : ∀ i < n, (do
      let d ← entry (degreesAt n e) i
      .ok (d - 2) : Except (Halt Exn) Int) = .ok ((degreesAt n e).getD i 0 - 2) := fun i hi => by
    rw [entry_eq (by rwa [length_degreesAt]), ok_bind]
  have hsums := UHGSearch.degreeSum_eq hn .eq hdegrees ((UHGSearch.start n).postAll lexes) rfl
  refine ⟨((UHGSearch.start n).postAll lexes).postAll ((List.range n).map fun i =>
    .sum (rowArray (.ofGraph (cycleGraph n)) i) .eq ((degreesAt n e).getD i 0 - 2)), ?_, rfl, ?_,
    fun G hG => ?_⟩
  · unfold nearlyCubicModel
    rw [UHGSearch.symmetryBreaking_eq hn, ok_bind]
    exact hsums
  · refine List.forall_mem_append.mpr ⟨List.forall_mem_append.mpr ⟨List.forall_mem_nil _, ?_⟩, ?_⟩
    · exact List.forall_mem_map.mpr fun p _ => UHGSearch.filled_lexConstraint n p
    · refine (filled_degreeSum rfl hn).mpr fun i _ j _ _ => ?_
      -- nothing is fixed to be a non-edge
      change (if (cycleGraph n).adj i j then ESat.TRUE else .UNDEFINED) ≠ .FALSE
      split_ifs <;> exact ESat.noConfusion
  · have hagrees : Agrees (.ofGraph (cycleGraph n)) G :=
      agrees_ofGraph.mpr ((cycleGraph_sub_iff hn).mpr hG)
    refine (List.forall_mem_append.trans (and_congr (List.forall_mem_append.trans
      (and_iff_right (List.forall_mem_nil _))) Iff.rfl)).trans (and_congr
        UHGSearch.symmetryBreaking_holds ((degreeSum_holds rfl hn hagrees).trans
          (forall₂_congr fun v hv => ?_)))
    rw [getD_degreesAt e hv]
    unfold Operator.Compares
    split_ifs <;> omega

/-- Pairs with one degree sequence are equal. -/
theorem eq_of_degrees {G : Graph n} {e f : Nat × Nat} (he : e ∈ allVars n) (hf : f ∈ allVars n)
    (h : ∀ v < n, G.degree v = if v = e.1 ∨ v = e.2 then 4 else 3)
    (h' : ∀ v < n, G.degree v = if v = f.1 ∨ v = f.2 then 4 else 3) : e = f := by
  obtain ⟨he1, he2⟩ := Matrix.mem_upperPairs.mp he
  obtain ⟨hf1, hf2⟩ := Matrix.mem_upperPairs.mp hf
  have hiff : ∀ v < n, (v = e.1 ∨ v = e.2) ↔ (v = f.1 ∨ v = f.2) := fun v hv => by
    have hv' := (h v hv).symm.trans (h' v hv)
    split_ifs at hv' with h1 h2 h2
    · exact iff_of_true h1 h2
    · omega
    · omega
    · exact iff_of_false h1 h2
  have h1 := (hiff e.1 (by omega)).mp (Or.inl rfl)
  have h2 := (hiff e.2 he2).mp (Or.inr rfl)
  exact Prod.ext (by omega) (by omega)

/-- **The search of a model whose graph is the cycle** can finish, and has then accepted the graphs
that meet what was posted. -/
theorem model_exact (hn : 3 ≤ n) (P : Propagator) {u : UHGSearch n}
    (hu : u.graph = .ofGraph (cycleGraph n)) {s : SearchState n}
    (hrun : Run P u.Meets (.start u.graph) s) :
    (∃ s', Run P u.Meets s s' ∧ s'.Finished) ∧
      (s.Finished → ∀ G, G ∈ s.solutions ↔ UniqueHamCycle G ∧ u.Meets G) := by
  obtain ⟨g, hg, h⟩ := search_exact hn P u.Meets
  rw [fixHamCycle_eq hn] at hg
  obtain rfl := Except.ok.inj hg
  rw [hu] at hrun
  exact (h s hrun).2.2

/-- **The searches for all sequences together** find exactly one graph of every isomorphism class of
uniquely Hamiltonian graphs with two vertices of degree 4 and all others of degree 3, and no graph
is found by two of them. Every search can finish, and all arrays posted are filled. -/
theorem nearlyCubic_exact (hn : 5 ≤ n) (P : Propagator) :
    ∃ u₀ : UHGSearch n, UHGSearch.new n = .ok u₀ ∧ ∃ u : Nat → UHGSearch n,
      (∀ index ds, (Utils.nearlyCubicDS n)[index]? = some ds →
        nearlyCubicModel ds u₀ = .ok (u index) ∧ (∀ p ∈ (u index).posted, p.Filled) ∧
        ∃ s, Run P (u index).Meets (.start (u index).graph) s ∧ s.Finished) ∧
      ∀ s : Nat → SearchState n,
        (∀ index < (Utils.nearlyCubicDS n).length,
          Run P (u index).Meets (.start (u index).graph) (s index) ∧ (s index).Finished) →
        (∀ index < (Utils.nearlyCubicDS n).length, ∀ G ∈ (s index).solutions,
          UniquelyHamiltonian G ∧ NearlyCubic G) ∧
        (∀ H : Graph n, UniquelyHamiltonian H → NearlyCubic H →
          ∃! G, (∃ index < (Utils.nearlyCubicDS n).length, G ∈ (s index).solutions) ∧
            Isomorphic H G) ∧
        ∀ i < (Utils.nearlyCubicDS n).length, ∀ j < (Utils.nearlyCubicDS n).length, ∀ G,
          G ∈ (s i).solutions → G ∈ (s j).solutions → i = j := by
  have hn3 : 3 ≤ n := by omega
  have hmodel := fun index : Nat => nearlyCubicModel_eq hn3 ((allVars n).getD index (0, 0))
  choose u hu hgraph hfilled hmeets using hmodel
  have hlen : (Utils.nearlyCubicDS n).length = (allVars n).length := by
    rw [nearlyCubicDS_eq, List.length_map]
  have hget : ∀ {index e}, (allVars n)[index]? = some e → (allVars n).getD index (0, 0) = e :=
    fun {index e} he => by rw [List.getD_eq_getElem?_getD, he, Option.getD_some]
  refine ⟨_, UHGSearch.new_eq hn3, u, fun index ds hds => ?_, fun s hs => ?_⟩
  · obtain ⟨e, he, hds'⟩ := mem_nearlyCubicDS (List.getElem?_eq_some_iff.mp hds).1
    obtain rfl := Option.some.inj (hds.symm.trans hds')
    obtain ⟨s, hrun, hfin⟩ := (model_exact hn3 P (hgraph index) Relation.ReflTransGen.refl).1
    exact ⟨by rw [← hget he]; exact hu index, hfilled index, s, hrun, hfin⟩
  · -- the solutions of one search
    have hsol : ∀ index < (Utils.nearlyCubicDS n).length, ∃ e ∈ allVars n,
        (allVars n)[index]? = some e ∧ ∀ G, G ∈ (s index).solutions ↔ UniqueHamCycle G ∧
          symmetryBreaking G ∧
            ∀ v < n, G.degree v = if v = e.1 ∨ v = e.2 then 4 else 3 := fun index hindex => by
      obtain ⟨e, he, -⟩ := mem_nearlyCubicDS hindex
      obtain ⟨hrun, hfin⟩ := hs index hindex
      refine ⟨e, List.mem_of_getElem? he, he, fun G =>
        ((model_exact hn3 P (hgraph index) hrun).2 hfin G).trans (and_congr_right fun hG => ?_)⟩
      have h := hmeets index G hG.1
      rwa [hget he] at h
    refine ⟨fun index hindex G hG => ?_, fun H hH hdeg => ?_, fun i hi j hj G hGi hGj => ?_⟩
    · obtain ⟨e, he, -, h⟩ := hsol index hindex
      obtain ⟨hG, -, hdeg⟩ := (h G).mp hG
      exact ⟨hG.uniquelyHamiltonian hn3, e, he, hdeg⟩
    · obtain ⟨G, hiso, hG, hsym⟩ := exists_representative hn3 hH
      obtain ⟨e, he, hdeg⟩ := hdeg.of_isomorphic hiso
      obtain ⟨index, hindex, hget⟩ := List.getElem_of_mem he
      rw [← hlen] at hindex
      obtain ⟨f, -, hf, h⟩ := hsol index hindex
      obtain rfl : e = f := by
        rw [List.getElem?_eq_getElem (by rwa [← hlen]), hget] at hf
        exact Option.some.inj hf
      refine ⟨G, ⟨⟨index, hindex, (h G).mpr ⟨hG, hsym, hdeg⟩⟩, hiso⟩, ?_⟩
      rintro G' ⟨⟨index', hindex', hG'⟩, hiso'⟩
      obtain ⟨_, -, -, h'⟩ := hsol index' hindex'
      obtain ⟨hG', hsym', -⟩ := (h' G').mp hG'
      exact eq_of_isomorphic hn3 hG' hsym' hG hsym (hiso'.symm.trans hiso)
    · obtain ⟨e, he, hei, hi'⟩ := hsol i hi
      obtain ⟨f, hf, hfj, hj'⟩ := hsol j hj
      obtain rfl := eq_of_degrees he hf ((hi' G).mp hGi).2.2 ((hj' G).mp hGj).2.2
      have hnodup : (allVars n).Nodup := Matrix.nodup_pairs .upperTriangleRows n
      exact (List.getElem?_inj (by rwa [← hlen]) hnodup).mp (hei.trans hfj.symm)

/-- For six vertices some finished searches have found exactly one graph of every class. -/
theorem nearlyCubic_exact_six : ∃ s : Nat → SearchState 6,
    (∀ index < (Utils.nearlyCubicDS 6).length, (s index).Finished) ∧
    ∀ H : Graph 6, UniquelyHamiltonian H → NearlyCubic H →
      ∃! G, (∃ index < (Utils.nearlyCubicDS 6).length, G ∈ (s index).solutions) ∧
        Isomorphic H G := by
  obtain ⟨_, -, u, hmodels, h⟩ := nearlyCubic_exact (n := 6) (by decide) .PropOptimized
  have hruns : ∀ index < (Utils.nearlyCubicDS 6).length, ∃ s,
      Run .PropOptimized (u index).Meets (.start (u index).graph) s ∧ s.Finished :=
    fun index hindex => (hmodels index _ (List.getElem?_eq_getElem hindex)).2.2
  have : Nonempty (SearchState 6) := ⟨none, [], []⟩
  choose! s hs using hruns
  exact ⟨s, fun index hindex => (hs index hindex).2, (h s hs).2.1⟩

end SymBreak.Uhg
