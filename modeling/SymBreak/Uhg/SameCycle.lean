import SymBreak.Uhg.UnknownGraph

/-!
# Comparing cycles

Model of `Utils.isSameCycle` (`Utils.java:165-195`): both arrays are read from their least entry on,
in the direction of its larger neighbour. The source compares entries and nothing else, so the
entries here are of any linear order: the vertices, or all `int`s.

Results:
* `walk_one`, `walk_neg_one`: what is read is a rotation of the array, or of its reverse;
* `exists_reading`: it begins with the least entry and ends with the smaller of its neighbours;
* `reading_eq`: so all rotations and reversals of an array are read alike;
* `isSameCycle_iff`: `isSameCycle` is having the same edges;
* **`isSameCycle_dihedral`**: it is being a rotation, possibly reversed, and hence an equivalence.
-/

namespace SymBreak.Uhg.Utils

open Hamilton

variable {α : Type*} [LinearOrder α] [Inhabited α]

/-! ## Model -/

/-- `minIndex1`, `minIndex2` after the first loop (`Utils.java:174-181`). -/
def minIndex (c : List α) (k : Nat) : Nat :=
  (List.range k).foldl (fun minIndex i =>
    if c.getD minIndex default > c.getD i default then i else minIndex) 0

/-- `s1`, `s2` (`Utils.java:182-183`) -/
def direction (c : List α) (minIndex k : Nat) : Int :=
  if c.getD (mod ((minIndex : Int) - 1) k) default <
      c.getD (mod ((minIndex : Int) + 1) k) default then 1
  else -1

/-- The second loop (`Utils.java:187-193`). -/
def agreeFrom (c1 c2 : List α) (k : Nat) (s1 s2 : Int) : Nat → Nat → Nat → Bool
  | 0, _, _ => true
  | left + 1, j1, j2 =>
    if c1.getD j1 default ≠ c2.getD j2 default then false
    else agreeFrom c1 c2 k s1 s2 left (mod (j1 + s1) k) (mod (j2 + s2) k)

/-- `isSameCycle` (`Utils.java:165-195`) -/
def isSameCycle (c1 c2 : List α) : Bool :=
  if c1.length ≠ c2.length then false
  else
    let k := c1.length
    let minIndex1 := minIndex c1 k
    let minIndex2 := minIndex c2 k
    agreeFrom c1 c2 k (direction c1 minIndex1 k) (direction c2 minIndex2 k) k minIndex1 minIndex2

/-! ## What is read -/

/-- The entries read from an index on. -/
def walk (c : List α) (k : Nat) (s : Int) : Nat → Nat → List α
  | 0, _ => []
  | left + 1, j => c.getD j default :: walk c k s left (mod (j + s) k)

theorem agreeFrom_iff {c1 c2 : List α} {k : Nat} {s1 s2 : Int} (left j1 j2 : Nat) :
    agreeFrom c1 c2 k s1 s2 left j1 j2 = true ↔ walk c1 k s1 left j1 = walk c2 k s2 left j2 := by
  induction left generalizing j1 j2 with
  | zero => exact iff_of_true rfl rfl
  | succ left ih =>
    rw [agreeFrom, walk, walk, List.cons.injEq, ← ih]
    by_cases h : c1.getD j1 default = c2.getD j2 default
    · rw [if_neg (not_not.mpr h), and_iff_right h]
    · rw [if_pos h]
      exact iff_of_false Bool.false_ne_true fun h' => h h'.1

omit [LinearOrder α] in
@[simp] theorem length_walk (c : List α) (k : Nat) (s : Int) (left j : Nat) :
    (walk c k s left j).length = left := by
  induction left generalizing j with
  | zero => rfl
  | succ left ih => rw [walk, List.length_cons, ih]

theorem getD_walk (c : List α) {k : Nat} (hk : 0 < k) (s : Int) {left j i : Nat} (hj : j < k)
    (hi : i < left) : (walk c k s left j).getD i default = c.getD (mod (j + s * i) k) default := by
  induction left generalizing j i with
  | zero => omega
  | succ left ih =>
    rw [walk]
    cases i with
    | zero =>
      have hmod : mod ((j : Int) + s * (0 : Nat)) k = j := by
        rw [mod_of_eq hk 0 (by simp : (j : Int) + s * (0 : Nat) = j + 0 * k), Nat.mod_eq_of_lt hj]
      rw [List.getD_cons_zero, hmod]
    | succ i =>
      rw [List.getD_cons_succ, ih (mod_lt _ hk) (by omega)]
      congr 1
      refine Nat.cast_injective (R := Int) ?_
      rw [mod_eq _ hk, mod_eq _ hk, mod_eq _ hk, Int.emod_add_emod]
      congr 1
      push_cast
      ring

/-- **Forwards, a rotation.** -/
theorem walk_one {c : List α} {m : Nat} (hm : m < c.length) :
    walk c c.length 1 c.length m = c.rotate m := by
  refine List.ext_getElem (by simp) fun i h1 h2 => ?_
  rw [length_walk] at h1
  rw [← List.getD_eq_getElem _ default, getD_walk c (by omega) 1 hm h1, List.getElem_rotate,
    mod_of_eq (k := i + m) (by omega) 0 (by push_cast; ring), List.getD_eq_getElem]

/-- **Backwards, a rotation of the reverse.** -/
theorem walk_neg_one {c : List α} {m : Nat} (hm : m < c.length) :
    walk c c.length (-1) c.length m = (c.rotate (m + 1)).reverse := by
  refine List.ext_getElem (by simp) fun i h1 h2 => ?_
  rw [length_walk] at h1
  rw [← List.getD_eq_getElem _ default, getD_walk c (by omega) (-1) hm h1, List.getElem_reverse,
    List.getElem_rotate]
  have hindex : mod ((m : Int) + -1 * (i : Nat)) c.length =
      ((c.rotate (m + 1)).length - 1 - i + (m + 1)) % c.length :=
    mod_of_eq (by omega) (-1) (by rw [List.length_rotate]; omega)
  rw [hindex, List.getD_eq_getElem]

/-- What is read is a rotation of the array, possibly reversed. -/
theorem dihedral_walk {c : List α} {m : Nat} (hm : m < c.length) {s : Int} (hs : s = 1 ∨ s = -1) :
    Dihedral c (walk c c.length s c.length m) := by
  rcases hs with rfl | rfl
  · exact ⟨m, Or.inl (walk_one hm)⟩
  · exact ⟨m + 1, Or.inr (walk_neg_one hm)⟩

theorem direction_eq (c : List α) (m k : Nat) : direction c m k = 1 ∨ direction c m k = -1 := by
  unfold direction
  split
  · exact Or.inl rfl
  · exact Or.inr rfl

/-! ## The least entry and its neighbours -/

/-- **`minIndex` is the index of a least entry.** -/
theorem minIndex_spec (c : List α) {k : Nat} (hk : 0 < k) :
    minIndex c k < k ∧ ∀ i < k, c.getD (minIndex c k) default ≤ c.getD i default := by
  have key : ∀ k, (minIndex c k < k ∨ minIndex c k = 0) ∧
      ∀ i < k, c.getD (minIndex c k) default ≤ c.getD i default := by
    intro k
    induction k with
    | zero => exact ⟨Or.inr rfl, fun i hi => absurd hi (Nat.not_lt_zero i)⟩
    | succ k ih =>
      have hturn : minIndex c (k + 1) =
          if c.getD (minIndex c k) default > c.getD k default then k else minIndex c k := by
        unfold minIndex
        rw [List.range_succ, List.foldl_append]
        rfl
      obtain ⟨hbound, hmin⟩ := ih
      rw [hturn]
      split
      · next hlt =>
        refine ⟨Or.inl (Nat.lt_succ_self k), fun i hi => ?_⟩
        rcases Nat.lt_succ_iff_lt_or_eq.mp hi with hi | rfl
        · exact hlt.le.trans (hmin i hi)
        · exact le_refl _
      · next hle =>
        refine ⟨by omega, fun i hi => ?_⟩
        rcases Nat.lt_succ_iff_lt_or_eq.mp hi with hi | rfl
        · exact hmin i hi
        · exact not_lt.mp hle
  obtain ⟨hbound, hmin⟩ := key k
  exact ⟨by omega, hmin⟩

/-- The neighbours of an entry, read in its direction. -/
theorem direction_spec (c : List α) (m : Nat) {k : Nat} (hk : 1 < k) :
    c.getD (mod (m + direction c m k * (k - 1 : Nat)) k) default ≤
      c.getD (mod (m + direction c m k * (1 : Nat)) k) default := by
  have hmod : ∀ {a b : Int} (q : Int), a = b + q * k → mod a k = mod b k := fun q h => by
    refine Nat.cast_injective (R := Int) ?_
    rw [mod_eq _ (by omega), mod_eq _ (by omega), h, Int.add_mul_emod_self_right]
  have hk1 : ((k - 1 : Nat) : Int) = k - 1 := by omega
  by_cases h : c.getD (mod ((m : Int) - 1) k) default < c.getD (mod ((m : Int) + 1) k) default
  · have hs : direction c m k = 1 := if_pos h
    have hnext : mod ((m : Int) + 1 * (1 : Nat)) k = mod (m + 1) k := hmod 0 (by simp)
    have hlast : mod ((m : Int) + 1 * (k - 1 : Nat)) k = mod (m - 1) k :=
      hmod 1 (by rw [hk1]; ring)
    rw [hs, hnext, hlast]
    exact h.le
  · have hs : direction c m k = -1 := if_neg h
    have hnext : mod ((m : Int) + -1 * (1 : Nat)) k = mod (m - 1) k := hmod 0 (by simp; ring)
    have hlast : mod ((m : Int) + -1 * (k - 1 : Nat)) k = mod (m + 1) k :=
      hmod (-1) (by rw [hk1]; ring)
    rw [hs, hnext, hlast]
    exact not_lt.mp h

/-! ## The reading of an array -/

/-- What `isSameCycle` reads of an array. -/
def reading (c : List α) : List α :=
  walk c c.length (direction c (minIndex c c.length) c.length) c.length (minIndex c c.length)

theorem isSameCycle_iff_reading {c d : List α} (hlen : c.length = d.length) :
    isSameCycle c d = true ↔ reading c = reading d := by
  unfold isSameCycle reading
  rw [if_neg (not_not.mpr hlen)]
  simp only [agreeFrom_iff, hlen]

theorem dihedral_reading {c : List α} (hc : 1 ≤ c.length) : Dihedral c (reading c) :=
  dihedral_walk (minIndex_spec c hc).1 (direction_eq c _ _)

/-- **The least entry comes first, the smaller of its neighbours last.** -/
theorem exists_reading {c : List α} (hc : 1 ≤ c.length) :
    ∃ v t, reading c = v :: t ∧ (∀ x ∈ c, v ≤ x) ∧ ∀ h : t ≠ [], t.getLast h ≤ t.head h := by
  obtain ⟨hm, hmin⟩ := minIndex_spec c hc
  have hs := direction_eq c (minIndex c c.length) c.length
  have hdir := direction_spec c (minIndex c c.length) (k := c.length)
  have hlen := length_walk c c.length (direction c (minIndex c c.length) c.length) c.length
    (minIndex c c.length)
  have hget : ∀ i < c.length, (reading c).getD i default = _ := fun i hi =>
    getD_walk c hc (direction c (minIndex c c.length) c.length) hm hi
  change (reading c).length = c.length at hlen
  generalize reading c = r at hlen hget ⊢
  obtain ⟨v, t, rfl⟩ := List.exists_cons_of_length_pos (l := r) (by omega)
  refine ⟨v, t, rfl, fun x hx => ?_, fun ht => ?_⟩
  · obtain ⟨i, hi, rfl⟩ := List.getElem_of_mem hx
    have hv := hget 0 (by omega)
    rw [mod_of_eq (k := minIndex c c.length) hc 0 (by simp), Nat.mod_eq_of_lt hm] at hv
    have hle := hmin i hi
    rwa [← hv, List.getD_eq_getElem _ _ hi] at hle
  · have hk : 1 < c.length := by
      have := List.length_pos_iff.mpr ht
      rw [List.length_cons] at hlen
      omega
    have hlast : t.length = c.length - 1 := by
      rw [List.length_cons] at hlen
      omega
    have hle := hdir hk
    rw [← hget 1 hk, ← hget (c.length - 1) (by omega), ← hlast] at hle
    obtain ⟨w, t, rfl⟩ := List.exists_cons_of_ne_nil ht
    have hend : (v :: w :: t).getD (w :: t).length default = (w :: t).getLast ht := by
      rw [List.getLast_eq_getElem, List.getD_eq_getElem _ _ (by simp)]
      simp
    rw [hend] at hle
    exact hle

omit [Inhabited α] in
/-- A list whose ends are equal, without repetitions, is its own reverse. -/
theorem reverse_of_ends {t : List α} (hn : t.Nodup) (h : ∀ h : t ≠ [], t.getLast h ≤ t.head h)
    (h' : ∀ h : t ≠ [], t.head h ≤ t.getLast h) : t.reverse = t := by
  rcases t with _ | ⟨w, l⟩
  · rfl
  · rcases List.eq_nil_or_concat l with rfl | ⟨l, u, rfl⟩
    · rfl
    · have hends := le_antisymm (h (by simp)) (h' (by simp))
      simp only [List.concat_eq_append, List.head_cons, ne_eq, List.append_eq_nil_iff,
        List.cons_ne_self, and_false, not_false_eq_true, List.getLast_cons, List.getLast_append,
        List.getLast_singleton] at hends
      subst hends
      simp at hn

/-- **Rotations and reversals of an array are read alike.** -/
theorem reading_eq {c d : List α} (hn : c.Nodup) (hc : 1 ≤ c.length) (h : Dihedral c d) :
    reading c = reading d := by
  have hd : 1 ≤ d.length := h.perm.length_eq ▸ hc
  have hdih := ((dihedral_reading hc).symm.trans h).trans (dihedral_reading hd)
  have hnr := (dihedral_reading hc).perm.nodup_iff.mp hn
  have hmem : ∀ x, x ∈ c ↔ x ∈ reading c := fun x => (dihedral_reading hc).perm.mem_iff
  have hmem' : ∀ x, x ∈ c ↔ x ∈ reading d := fun x =>
    (h.trans (dihedral_reading hd)).perm.mem_iff
  obtain ⟨v, t, hr, hleast, hends⟩ := exists_reading hc
  obtain ⟨v', t', hr', hleast', hends'⟩ := exists_reading hd
  rw [hr] at hdih hnr hmem ⊢
  rw [hr'] at hdih hmem' ⊢
  obtain rfl : v = v' := le_antisymm
    (hleast v' ((hmem' v').mpr List.mem_cons_self))
    (hleast' v (h.perm.mem_iff.mp ((hmem v).mpr List.mem_cons_self)))
  rcases dihedral_iff.mp hdih with hrot | hrot
  · rw [eq_of_isRotated_cons hnr hrot]
  · -- read backwards, the neighbours of the least entry change places
    have hback : (v :: t').reverse.IsRotated (v :: t'.reverse) := by
      rw [List.reverse_cons]
      exact rotated_append t'.reverse [v]
    have hrev : t = t'.reverse := eq_of_isRotated_cons hnr (hrot.trans hback)
    have ht' : t' = t.reverse := by rw [hrev, List.reverse_reverse]
    subst ht'
    have hends'' : ∀ h : t ≠ [], t.head h ≤ t.getLast h := fun h => by
      have hle := hends' (by simpa using h)
      rwa [List.getLast_reverse, List.head_reverse] at hle
    rw [reverse_of_ends (List.nodup_cons.mp hnr).2 hends hends'']

/-- `isSameCycle` on arrays without repetitions. -/
theorem isSameCycle_iff_dihedral {c d : List α} (hn : c.Nodup) (hc : 1 ≤ c.length)
    (hlen : c.length = d.length) : isSameCycle c d = true ↔ Dihedral c d := by
  rw [isSameCycle_iff_reading hlen]
  refine ⟨fun h => ?_, reading_eq hn hc⟩
  have hd := dihedral_reading (c := d) (hlen ▸ hc)
  rw [← h] at hd
  exact (dihedral_reading hc).trans hd.symm

/-- **`isSameCycle` is having the same edges.** -/
theorem isSameCycle_iff {c d : List α} (hc : c.Nodup) (hd : d.Nodup) (hlen : c.length = d.length)
    (h3 : 3 ≤ c.length) : isSameCycle c d = true ↔ SameCycle c d := by
  rw [isSameCycle_iff_dihedral hc (by omega) hlen, sameCycle_iff_dihedral hc hd hlen h3]

/-! ## An equivalence -/

/-- The arrays of length `k` with pairwise different entries. -/
structure DistinctArray (α : Type*) (k : Nat) where
  /-- the entries -/
  entries : List α
  length_entries : entries.length = k
  nodup : entries.Nodup

/-- **`isSameCycle` on arrays of length at least 1 with pairwise different entries** is being a
rotation, possibly followed by a reversal; so it is an equivalence of such arrays. -/
theorem isSameCycle_dihedral {k : Nat} (hk : 1 ≤ k) :
    (∀ c1 c2 : DistinctArray α k, isSameCycle c1.entries c2.entries = true ↔
      ∃ m, c2.entries = c1.entries.rotate m ∨ c2.entries = (c1.entries.rotate m).reverse) ∧
    Equivalence fun c1 c2 : DistinctArray α k => isSameCycle c1.entries c2.entries = true := by
  have hiff : ∀ c1 c2 : DistinctArray α k,
      isSameCycle c1.entries c2.entries = true ↔ Dihedral c1.entries c2.entries := fun c1 c2 =>
    isSameCycle_iff_dihedral c1.nodup (hk.trans_eq c1.length_entries.symm)
      (c1.length_entries.trans c2.length_entries.symm)
  refine ⟨hiff, fun c => (hiff c c).mpr (Dihedral.refl _), fun {c d} h => ?_,
    fun {c d e} h h' => ?_⟩
  · exact (hiff d c).mpr ((hiff c d).mp h).symm
  · exact (hiff c e).mpr (((hiff c d).mp h).trans ((hiff d e).mp h'))

/-- Five `int`s, and the same cycle read backwards from another entry. -/
theorem isSameCycle_dihedral_int : isSameCycle [(-7 : Int), 4, 0, 9, 2] [0, 4, -7, 2, 9] = true :=
  ((isSameCycle_dihedral (k := 5) (by decide)).1 ⟨[-7, 4, 0, 9, 2], rfl, by decide⟩
    ⟨[0, 4, -7, 2, 9], rfl, by decide⟩).mpr ⟨3, Or.inr (by decide)⟩

end SymBreak.Uhg.Utils
