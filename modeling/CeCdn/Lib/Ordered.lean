/-
A finite set and a finite map, read in the order of their keys: how an ordered
set or map is iterated (`toList`, `entries`). The sort is an insertion sort, so
that a concrete iteration can be computed.
-/
import Mathlib.Algebra.Order.BigOperators.Group.List
import Mathlib.Algebra.Order.Ring.Nat
import Mathlib.Data.Finmap
import Mathlib.Data.List.Sort

namespace Lib.Ordered

variable {α β : Type} [LinearOrder α]

/-- The elements, the smallest first. -/
def toList (s : Finset α) : List α :=
  Quot.liftOn s.1 (List.insertionSort (· ≤ ·)) fun l l' h =>
    (((List.perm_insertionSort _ l).trans h).trans
      (List.perm_insertionSort _ l').symm).eq_of_pairwise'
        (List.pairwise_insertionSort _ l) (List.pairwise_insertionSort _ l')

theorem coe_toList (s : Finset α) : (toList s : Multiset α) = s.1 := by
  obtain ⟨⟨l⟩, hl⟩ := s
  exact Quot.sound (List.perm_insertionSort _ l)

@[simp] theorem mem_toList {s : Finset α} {a : α} : a ∈ toList s ↔ a ∈ s := by
  rw [← Multiset.mem_coe, coe_toList, Finset.mem_val]

theorem nodup_toList (s : Finset α) : (toList s).Nodup := by
  rw [← Multiset.coe_nodup, coe_toList]
  exact s.2

theorem pairwise_toList (s : Finset α) : (toList s).Pairwise (· < ·) := by
  have hle : (toList s).Pairwise (· ≤ ·) := by
    obtain ⟨⟨l⟩, hl⟩ := s
    exact List.pairwise_insertionSort (· ≤ ·) l
  exact hle.imp₂ (fun _ _ h hne => lt_of_le_of_ne h hne) (nodup_toList s)

/-- The entries, by key. -/
def entries (m : Finmap fun _ : α => β) : List (α × β) :=
  (toList m.keys).filterMap fun k => (m.lookup k).map fun b => (k, b)

theorem mem_entries {m : Finmap fun _ : α => β} {k : α} {b : β} :
    (k, b) ∈ entries m ↔ m.lookup k = some b := by
  simp only [entries, List.mem_filterMap, mem_toList, Finmap.mem_keys, Option.map_eq_some_iff]
  constructor
  · intro ⟨k', _, b', hl, he⟩
    cases he
    exact hl
  · intro hl
    exact ⟨k, Finmap.mem_of_lookup_eq_some hl, b, hl, rfl⟩

/-- A key is met once. -/
theorem nodup_keys_entries (m : Finmap fun _ : α => β) : ((entries m).map Prod.fst).Nodup := by
  rw [entries, List.map_filterMap]
  refine (nodup_toList m.keys).filterMap fun k k' a hk hk' => ?_
  simp only [Option.mem_def, Option.map_map, Option.map_eq_some_iff, Function.comp] at hk hk'
  obtain ⟨_, _, rfl⟩ := hk
  obtain ⟨_, _, rfl⟩ := hk'
  rfl

/-- A map whose values are replaced, each by a function of its key and itself. -/
theorem entries_eq_map {m m' : Finmap fun _ : α => β} {f : α → β → β}
    (h : ∀ k, m'.lookup k = (m.lookup k).map (f k)) :
    entries m' = (entries m).map fun e => (e.1, f e.1 e.2) := by
  have hkeys : m'.keys = m.keys := by
    ext k
    rw [Finmap.mem_keys, Finmap.mem_keys, ← Finmap.lookup_isSome, ← Finmap.lookup_isSome, h,
      Option.isSome_map]
  rw [entries, entries, hkeys, List.map_filterMap]
  refine List.filterMap_congr fun k _ => ?_
  rw [h, Option.map_map, Option.map_map]
  rfl

/-- A sum over the entries, of which only the one of `k` grows, by one at most. -/
theorem sum_entries_le_succ {m : Finmap fun _ : α => β} {f g : α × β → Nat} {k : α}
    (hk : ∀ e ∈ entries m, e.1 = k → g e ≤ f e + 1) (hne : ∀ e ∈ entries m, e.1 ≠ k → g e ≤ f e) :
    ((entries m).map g).sum ≤ ((entries m).map f).sum + 1 := by
  have hnd := nodup_keys_entries m
  generalize entries m = l at hnd hk hne
  induction l with
  | nil => exact Nat.zero_le _
  | cons e l ih =>
    rw [List.map_cons, List.nodup_cons] at hnd
    simp only [List.map_cons, List.sum_cons]
    have hk' : ∀ e' ∈ l, e'.1 = k → g e' ≤ f e' + 1 := fun e' he' =>
      hk e' (List.mem_cons_of_mem e he')
    have hne' : ∀ e' ∈ l, e'.1 ≠ k → g e' ≤ f e' := fun e' he' =>
      hne e' (List.mem_cons_of_mem e he')
    by_cases he : e.1 = k
    · -- no other entry has the key
      have hrest : (l.map g).sum ≤ (l.map f).sum := List.sum_le_sum fun e' he' =>
        hne' e' he' fun h => hnd.1 (he.trans h.symm ▸ List.mem_map_of_mem he')
      have hone := hk e List.mem_cons_self he
      omega
    · have hrest := ih hnd.2 hk' hne'
      have hone := hne e List.mem_cons_self he
      omega

end Lib.Ordered
