/-
Least-recently-used eviction as a fact about lists. A list holds weighted
items, the least recent first; to make room for `len` more, items leave at the
front, one at a time, until the rest and `len` fit the capacity (`evictFor`).
What stays is the longest suffix that fits.
-/
import Mathlib.Algebra.GroupWithZero.Nat
import Mathlib.Data.List.Basic

namespace Lib.Lru

variable {α : Type*} (weight : α → Nat)

def size (l : List α) : Nat := (l.map weight).sum

@[simp] theorem size_nil : size weight [] = 0 := rfl

@[simp] theorem size_cons (a : α) (l : List α) : size weight (a :: l) = weight a + size weight l := by
  simp [size]

theorem size_append (l₁ l₂ : List α) : size weight (l₁ ++ l₂) = size weight l₁ + size weight l₂ := by
  simp [size]

def evictFor (cap len : Nat) : List α → List α
  | [] => []
  | a :: l => if size weight (a :: l) + len > cap then evictFor cap len l else a :: l

variable {weight}

/-- Eviction looks at the weights only. -/
theorem evictFor_map {β : Type*} (f : β → α) (cap len : Nat) (l : List β) :
    evictFor weight cap len (l.map f) = (evictFor (fun b => weight (f b)) cap len l).map f := by
  induction l with
  | nil => rfl
  | cons a l ih =>
    have hs : size weight ((a :: l).map f) = size (fun b => weight (f b)) (a :: l) := by
      simp [size, Function.comp_def]
    rw [List.map_cons] at hs ⊢
    simp only [evictFor, hs]
    split
    · exact ih
    · rfl

theorem evictFor_suffix (cap len : Nat) (l : List α) : evictFor weight cap len l <:+ l := by
  induction l with
  | nil => exact List.suffix_rfl
  | cons a l ih =>
    rw [evictFor]
    split
    · exact ih.trans (List.suffix_cons a l)
    · exact List.suffix_rfl

end Lib.Lru
