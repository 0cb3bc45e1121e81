/-
The best elements of a list, as many as are wanted: the first ones of the list
when it is sorted. An element is among the `n` best when fewer than `n` stand
ahead of it, counted with repeats (`mem_best_iff`), so that it is settled
without sorting which elements are picked, and whether two of them are alike
(`nodup_map_best_iff`).
-/
import Mathlib.Data.List.Sort

namespace Lib

variable {α β : Type} [LinearOrder α]

/-- The elements ahead of `c`, counted with repeats. -/
def ahead (l : List α) (c : α) : Nat := l.countP fun a => decide (a < c)

/-- The `n` best elements, in order. -/
def best (n : Nat) (l : List α) : List α := (l.insertionSort (· ≤ ·)).take n

/-- The others. -/
def others (n : Nat) (l : List α) : List α := (l.insertionSort (· ≤ ·)).drop n

section

variable {n : Nat} {l : List α} {c c' : α}

theorem best_append_others (n : Nat) (l : List α) : (best n l ++ others n l).Perm l := by
  rw [best, others, List.take_append_drop]
  exact List.perm_insertionSort _ l

@[simp] theorem length_best (n : Nat) (l : List α) : (best n l).length = min n l.length := by
  simp [best]

theorem mem_of_best (h : c ∈ best n l) : c ∈ l :=
  (best_append_others n l).mem_iff.1 (List.mem_append_left _ h)

theorem best_or_others (h : c ∈ l) : c ∈ best n l ∨ c ∈ others n l :=
  List.mem_append.1 ((best_append_others n l).mem_iff.2 h)

/-- No other element is ahead of a best one. -/
theorem le_of_best (h : c ∈ best n l) (h' : c' ∈ others n l) : c ≤ c' := by
  have hsorted := List.pairwise_insertionSort (· ≤ ·) l
  rw [← List.take_append_drop n (l.insertionSort (· ≤ ·)), List.pairwise_append] at hsorted
  exact hsorted.2.2 c h c' h'

/-- Where there are others, the best are as many as were wanted. -/
theorem length_best_of_others (h : c ∈ others n l) : (best n l).length = n := by
  have hpos := List.length_pos_of_mem h
  simp only [others, List.length_drop, List.length_insertionSort] at hpos
  rw [length_best]
  omega

theorem ahead_eq (n : Nat) (l : List α) (c : α) :
    ahead l c = ahead (best n l) c + ahead (others n l) c := by
  unfold ahead
  rw [← List.countP_append, (best_append_others n l).countP_eq]

theorem ahead_mono (l : List α) (h : c' ≤ c) : ahead l c' ≤ ahead l c := by
  refine List.countP_mono_left fun a _ ha => ?_
  simp only [decide_eq_true_eq] at ha ⊢
  exact lt_of_lt_of_le ha h

theorem ahead_add_count_le (l : List α) (c : α) : ahead l c + l.count c ≤ l.length := by
  induction l with
  | nil => simp [ahead]
  | cons a l ih =>
    unfold ahead at ih ⊢
    rw [List.countP_cons, List.count_cons, List.length_cons]
    by_cases hlt : a < c
    · have hne : a ≠ c := ne_of_lt hlt
      simp [hlt, hne]
      omega
    · by_cases heq : a = c
      · simp [heq]
        omega
      · simp [hlt, heq]
        omega

/-- Among elements that are not behind `c`. -/
theorem ahead_add_count_eq (h : ∀ a ∈ l, a ≤ c) : ahead l c + l.count c = l.length := by
  induction l with
  | nil => simp [ahead]
  | cons a l ih =>
    have ih := ih fun b hb => h b (by simp [hb])
    unfold ahead at ih ⊢
    rw [List.countP_cons, List.count_cons, List.length_cons]
    rcases lt_or_eq_of_le (h a (by simp)) with hlt | heq
    · have hne : a ≠ c := ne_of_lt hlt
      simp [hlt, hne]
      omega
    · simp [heq]
      omega

/-- A best element, its copies and those ahead of it are among the `n` best. -/
theorem ahead_add_count_le_of_best (h : c ∈ best n l) : ahead l c + (best n l).count c ≤ n := by
  have hothers : ahead (others n l) c = 0 := by
    refine List.countP_eq_zero.2 fun a ha => ?_
    simpa using le_of_best h ha
  have hle := ahead_add_count_le (best n l) c
  rw [length_best] at hle
  rw [ahead_eq n l c, hothers]
  omega

/-- Ahead of another element, and alike, are the `n` best. -/
theorem le_ahead_add_count_of_others (h : c ∈ others n l) :
    n ≤ ahead l c + (best n l).count c := by
  have hall := ahead_add_count_eq fun a (ha : a ∈ best n l) => le_of_best ha h
  rw [length_best_of_others h] at hall
  rw [ahead_eq n l c]
  omega

/-- **Which elements are among the best.** -/
theorem mem_best_iff : c ∈ best n l ↔ c ∈ l ∧ ahead l c < n := by
  constructor
  · intro h
    have hle := ahead_add_count_le_of_best h
    have hpos := List.count_pos_iff.2 h
    exact ⟨mem_of_best h, by omega⟩
  · intro ⟨hl, hahead⟩
    rcases best_or_others (n := n) hl with h | h
    · exact h
    · have hle := le_ahead_add_count_of_others h
      exact List.count_pos_iff.1 (by omega)

/-- Elements alike under `f` do not both come among the first `n`: a repeat of
an element has all but one of `n` places taken ahead of it, and of two that
differ the worse one has all. -/
def Apart (f : α → β) (n : Nat) (l : List α) : Prop :=
  ∀ c ∈ l, (2 ≤ l.count c → n ≤ ahead l c + 1) ∧
    ∀ c' ∈ l, f c' = f c → c' < c → n ≤ ahead l c

/-- **When the best are different.** -/
theorem nodup_map_best_iff (f : α → β) : ((best n l).map f).Nodup ↔ Apart f n l := by
  constructor
  · intro h c hc
    refine ⟨fun htwice => ?_, fun c' hc' hf hlt => ?_⟩
    · have hone := List.nodup_iff_count_le_one.1 h.of_map c
      have hcount : (best n l).count c + (others n l).count c = l.count c := by
        rw [← List.count_append, (best_append_others n l).count_eq]
      have hother : c ∈ others n l := List.count_pos_iff.1 (by omega)
      have hle := le_ahead_add_count_of_others hother
      omega
    · by_contra hahead
      have hbest : c ∈ best n l := mem_best_iff.2 ⟨hc, by omega⟩
      have hbest' : c' ∈ best n l :=
        mem_best_iff.2 ⟨hc', by have := ahead_mono l hlt.le; omega⟩
      exact hlt.ne (List.inj_on_of_nodup_map h hbest' hbest hf)
  · intro h
    have hnodup : (best n l).Nodup := by
      refine List.nodup_iff_count_le_one.2 fun c => ?_
      by_contra htwice
      have hbest : c ∈ best n l := List.count_pos_iff.1 (by omega)
      have hle := ahead_add_count_le_of_best hbest
      have hcount : (best n l).count c ≤ l.count c := by
        rw [← (best_append_others n l).count_eq, List.count_append]
        omega
      have hahead := (h c (mem_of_best hbest)).1 (by omega)
      omega
    refine (List.nodup_map_iff_inj_on hnodup).2 fun c hc c' hc' hf => ?_
    rcases lt_trichotomy c c' with hlt | heq | hlt
    · have hahead := (h c' (mem_of_best hc')).2 c (mem_of_best hc) hf hlt
      have := (mem_best_iff.1 hc').2
      omega
    · exact heq
    · have hahead := (h c (mem_of_best hc)).2 c' (mem_of_best hc') hf.symm hlt
      have := (mem_best_iff.1 hc).2
      omega

/-- Elements that are all different under `f` are apart. -/
theorem apart_of_nodup {f : α → β} (h : (l.map f).Nodup) : Apart f n l := by
  intro c hc
  refine ⟨fun htwice => ?_, fun c' hc' hf hlt => ?_⟩
  · have hone := List.nodup_iff_count_le_one.1 h.of_map c
    omega
  · exact absurd (List.inj_on_of_nodup_map h hc' hc hf) hlt.ne

end

end Lib
