/-
Lists of which one place is overwritten at a time, such as the states of
processes that take steps in turn: how many places have a property, what a sum
over the places comes to, and when one place at most has a property.
-/
import Mathlib.Algebra.GroupWithZero.Nat
import Mathlib.Data.List.Basic
import Mathlib.Data.List.Forall2

namespace Lib.Places

variable {α : Type*} {p : α → Bool} {l : List α} {i j : Nat} {a b : α}

/-- What stands at a place after one is overwritten. -/
theorem getElem?_set_cases (h : (l.set i b)[j]? = some a) :
    (j = i ∧ a = b) ∨ (j ≠ i ∧ l[j]? = some a) := by
  by_cases hji : j = i
  · subst hji
    have hlt : j < l.length := by
      have hlen := (List.getElem?_eq_some_iff.1 h).1
      rwa [List.length_set] at hlen
    rw [List.getElem?_set_self hlt] at h
    exact .inl ⟨rfl, (Option.some.inj h).symm⟩
  · rw [List.getElem?_set_ne (Ne.symm hji)] at h
    exact .inr ⟨hji, h⟩

theorem getElem?_set_of_some (h : l[i]? = some a) (b : α) : (l.set i b)[i]? = some b :=
  List.getElem?_set_self (List.getElem?_eq_some_iff.1 h).1

theorem forall_mem_set {P : α → Prop} (h : ∀ a ∈ l, P a) (hb : P b) : ∀ a ∈ l.set i b, P a := by
  intro a ha
  rcases List.mem_or_eq_of_mem_set ha with ha | rfl
  · exact h a ha
  · exact hb

/-- What stands at a place of two related lists. -/
theorem rel_getElem? {β : Type*} {R : α → β → Prop} {l' : List β} (h : List.Forall₂ R l l') (i : Nat) :
    Option.Rel R l[i]? l'[i]? := by
  induction h generalizing i with
  | nil => exact .none
  | cons hab _ ih =>
    cases i with
    | zero => exact .some hab
    | succ i => exact ih i

theorem forall₂_set {β : Type*} {R : α → β → Prop} {l' : List β} {b' : β}
    (h : List.Forall₂ R l l') (hb : R b b') (i : Nat) :
    List.Forall₂ R (l.set i b) (l'.set i b') := by
  induction h generalizing i with
  | nil => exact .nil
  | cons hab htail ih =>
    cases i with
    | zero => exact .cons hb htail
    | succ i => exact .cons hab (ih i)

/-- What is the same of the new element is the same of the list. -/
theorem map_set_of_eq {β : Type*} {f : α → β} (h : l[i]? = some a) (hb : f b = f a) :
    (l.set i b).map f = l.map f := by
  induction l generalizing i with
  | nil => cases h
  | cons x l ih =>
    cases i with
    | zero => cases h; rw [List.set_cons_zero, List.map_cons, List.map_cons, hb]
    | succ i => rw [List.set_cons_succ, List.map_cons, List.map_cons, ih h]

/-- Overwriting a place moves the count by that place. -/
theorem countP_set_add (h : l[i]? = some a) (b : α) :
    (l.set i b).countP p + (p a).toNat = l.countP p + (p b).toNat := by
  induction l generalizing i with
  | nil => cases h
  | cons x l ih =>
    cases i with
    | zero =>
      cases h
      simp only [List.set_cons_zero, List.countP_cons]
      cases p a <;> cases p b <;> simp
    | succ i =>
      have hi := ih h
      simp only [List.set_cons_succ, List.countP_cons]
      omega

/-- Overwriting a place moves a sum over the places by that place. -/
theorem sum_map_set_add {f : α → Nat} (h : l[i]? = some a) (b : α) :
    ((l.set i b).map f).sum + f a = (l.map f).sum + f b := by
  induction l generalizing i with
  | nil => cases h
  | cons x l ih =>
    cases i with
    | zero =>
      cases h
      simp only [List.set_cons_zero, List.map_cons, List.sum_cons]
      omega
    | succ i =>
      have hi := ih h
      simp only [List.set_cons_succ, List.map_cons, List.sum_cons]
      omega

/-- Two places with a property that one place at most has are one. -/
theorem eq_of_countP_le_one (h : l.countP p ≤ 1) (hi : l[i]? = some a) (ha : p a = true)
    (hj : l[j]? = some b) (hb : p b = true) : i = j := by
  induction l generalizing i j with
  | nil => cases hi
  | cons x l ih =>
    cases i with
    | zero =>
      cases hi
      cases j with
      | zero => rfl
      | succ j =>
        have hpos : 0 < l.countP p :=
          List.countP_pos_iff.2 ⟨b, List.mem_of_getElem? (i := j) hj, hb⟩
        rw [List.countP_cons_of_pos ha] at h
        omega
    | succ i =>
      cases j with
      | zero =>
        cases hj
        have hpos : 0 < l.countP p :=
          List.countP_pos_iff.2 ⟨a, List.mem_of_getElem? (i := i) hi, ha⟩
        rw [List.countP_cons_of_pos hb] at h
        omega
      | succ j =>
        have hl : l.countP p ≤ 1 := by
          have := List.countP_cons (p := p) (a := x) (l := l)
          omega
        rw [ih hl hi hj]

/-- A property that is counted twice is had at two places. -/
theorem exists_pair_of_countP (h : 2 ≤ l.countP p) :
    ∃ (i j : Nat) (a b : α), i < j ∧ l[i]? = some a ∧ l[j]? = some b ∧ p a = true ∧ p b = true := by
  induction l with
  | nil => simp at h
  | cons x l ih =>
    cases hx : p x with
    | true =>
      rw [List.countP_cons_of_pos hx] at h
      have hpos : 0 < l.countP p := by omega
      obtain ⟨b, hb, hpb⟩ := List.countP_pos_iff.1 hpos
      obtain ⟨j, hj⟩ := List.mem_iff_getElem?.1 hb
      exact ⟨0, j + 1, x, b, Nat.succ_pos j, rfl, hj, hx, hpb⟩
    | false =>
      rw [List.countP_cons_of_neg (by simp [hx])] at h
      obtain ⟨i, j, a, b, hij, hi, hj, ha, hb⟩ := ih h
      exact ⟨i + 1, j + 1, a, b, Nat.succ_lt_succ hij, hi, hj, ha, hb⟩

end Lib.Places
