import Mathlib.Data.List.GetD
import Mathlib.Tactic.Common

/-!
# Arrays by reference

Arrays that are shared by reference (`Heap`): making one, and writing one entry of one. `Keeps own`
says that every array made before but the one at `own` is still what it was.
-/

namespace SymBreak

/-- The arrays made so far. The reference of an array is its number. -/
structure Heap (α : Type) where
  arrays : List (List α)

/-- A reference. -/
abbrev Ref := Nat

namespace Heap

variable {α : Type} {h h' h'' : Heap α} {own r : Ref}

/-- How many arrays there are. -/
def size (h : Heap α) : Nat := h.arrays.length

/-- The array at a reference. -/
def get (h : Heap α) (r : Ref) : List α := h.arrays.getD r []

/-- Make an array. -/
def alloc (h : Heap α) (a : List α) : Heap α × Ref := (⟨h.arrays ++ [a]⟩, h.size)

/-- Write one entry of an array. -/
def write (h : Heap α) (r : Ref) (j : Nat) (x : α) : Heap α :=
  ⟨h.arrays.set r ((h.get r).set j x)⟩

@[simp] theorem size_alloc (a : List α) : (h.alloc a).1.size = h.size + 1 := by
  simp [alloc, size]

@[simp] theorem size_write (j : Nat) (x : α) : (h.write r j x).size = h.size := by
  simp [write, size]

@[simp] theorem ref_alloc (a : List α) : (h.alloc a).2 = h.size := rfl

@[simp] theorem get_alloc (a : List α) : (h.alloc a).1.get h.size = a := by
  simp [alloc, get, size]

theorem get_write (hr : r < h.size) (j : Nat) (x : α) :
    (h.write r j x).get r = (h.get r).set j x := by
  have hlt : r < (h.arrays.set r ((h.get r).set j x)).length := by
    rw [List.length_set]
    exact hr
  rw [get, write, List.getD_eq_getElem _ _ hlt, List.getElem_set_self]

/-! ## What a part of a program leaves as it was -/

/-- Arrays are only added, and only the one at `own` is written. -/
structure Keeps (own : Ref) (h h' : Heap α) : Prop where
  size_le : h.size ≤ h'.size
  get_eq : ∀ r, r < h.size → r ≠ own → h'.get r = h.get r

theorem Keeps.refl (own : Ref) (h : Heap α) : Keeps own h h := ⟨Nat.le_refl _, fun _ _ _ => rfl⟩

theorem Keeps.trans (h₁ : Keeps own h h') (h₂ : Keeps own h' h'') : Keeps own h h'' where
  size_le := Nat.le_trans h₁.size_le h₂.size_le
  get_eq r hr hne := by
    rw [h₂.get_eq r (Nat.lt_of_lt_of_le hr h₁.size_le) hne, h₁.get_eq r hr hne]

/-- A new array changes no other. -/
theorem get_alloc_of_lt (a : List α) (hr : r < h.size) : (h.alloc a).1.get r = h.get r := by
  simp only [alloc, get, List.getD_append _ _ _ _ hr]

theorem keeps_alloc (own : Ref) (a : List α) : Keeps own h (h.alloc a).1 where
  size_le := by simp
  get_eq _ hr _ := get_alloc_of_lt a hr

theorem keeps_write (own : Ref) (j : Nat) (x : α) : Keeps own h (h.write own j x) where
  size_le := by simp
  get_eq r _ hne := by
    simp only [get, write, List.getD_eq_getElem?_getD, List.getElem?_set_ne (Ne.symm hne)]

end Heap

end SymBreak
