/-
A hash map: an association list with distinct keys (`AList`), and the order
its entries are iterated in, which the map does not fix. An operation that
iterates takes the order as an argument (`IterOrder`), so what holds for every
argument holds whatever the table's layout.
-/
import Mathlib.Algebra.GroupWithZero.Nat
import Mathlib.Algebra.Order.BigOperators.Group.List
import Mathlib.Data.List.AList
import Mathlib.Data.List.MinMax

namespace Lib

abbrev HashMap (α β : Type) := AList fun _ : α => β

/-- An order to iterate the maps of a type in: some arrangement of each one's
entries. -/
structure IterOrder (α β : Type) where
  iter : HashMap α β → List (Σ _ : α, β)
  perm : ∀ m, (iter m).Perm m.entries

/-- The order the entries are stored in. -/
def IterOrder.stored (α β : Type) : IterOrder α β := ⟨AList.entries, fun _ => .refl _⟩

namespace HashMap

variable {α β : Type}

/-! ## The entry a scan picks -/

/-- `iter().min_by_key(|(_, v)| f v)`, its key: the first entry in the order
whose value is least under `f`. -/
def minByKey (ord : IterOrder α β) (f : β → Nat) (m : HashMap α β) : Option α :=
  ((ord.iter m).argmin fun e => f e.2).map (·.1)

theorem minByKey_eq_none {ord : IterOrder α β} {f : β → Nat} {m : HashMap α β} :
    minByKey ord f m = none ↔ m.entries = [] := by
  rw [minByKey, Option.map_eq_none_iff, List.argmin_eq_none]
  exact ⟨fun h => by simpa [h] using ord.perm m, fun h => by simpa [h] using ord.perm m⟩

theorem minByKey_eq_some {ord : IterOrder α β} {f : β → Nat} {m : HashMap α β} {k : α}
    (h : minByKey ord f m = some k) :
    ∃ v, ⟨k, v⟩ ∈ m.entries ∧ ∀ e ∈ m.entries, f v ≤ f e.2 := by
  obtain ⟨e, he, rfl⟩ := Option.map_eq_some_iff.1 h
  refine ⟨e.2, (ord.perm m).mem_iff.1 (List.argmin_mem he), fun x hx => ?_⟩
  exact List.le_of_mem_argmin (f := fun e : Σ _ : α, β => f e.2) ((ord.perm m).mem_iff.2 hx) he

/-- When one entry is strictly least, every order picks it. -/
theorem minByKey_of_lt {ord : IterOrder α β} {f : β → Nat} {m : HashMap α β} {e : Σ _ : α, β}
    (he : e ∈ m.entries) (hlt : ∀ x ∈ m.entries, x ≠ e → f e.2 < f x.2) :
    minByKey ord f m = some e.1 := by
  cases h : minByKey ord f m with
  | none => rw [minByKey_eq_none] at h; simp [h] at he
  | some k =>
    obtain ⟨v, hv, hle⟩ := minByKey_eq_some h
    by_cases hve : (⟨k, v⟩ : Σ _ : α, β) = e
    · rw [← hve]
    · exact absurd (hle e he) (Nat.not_le.2 (hlt _ hv hve))

/-- The sum of a measure of the values. -/
def total (f : β → Nat) (m : HashMap α β) : Nat := (m.entries.map fun e => f e.2).sum

theorem total_of_perm {f : β → Nat} {m : HashMap α β} {l : List (Σ _ : α, β)}
    (h : l.Perm m.entries) : (l.map fun e => f e.2).sum = total f m :=
  (h.map fun e => f e.2).sum_nat

/-- `retain`. -/
def retain (p : α → β → Bool) (m : HashMap α β) : HashMap α β :=
  ⟨m.entries.filter fun e => p e.1 e.2, m.nodupKeys.sublist List.filter_sublist⟩

theorem length_retain_le (p : α → β → Bool) (m : HashMap α β) :
    (retain p m).entries.length ≤ m.entries.length := List.length_filter_le _ _

/-! ## Lookup -/

variable [DecidableEq α]

theorem lookup_eq_some_iff {m : HashMap α β} {k : α} {v : β} :
    m.lookup k = some v ↔ ⟨k, v⟩ ∈ m.entries := by
  rw [← Option.mem_def]; exact List.mem_dlookup_iff m.nodupKeys

theorem lookup_retain {p : α → β → Bool} {m : HashMap α β} {k : α} {v : β} :
    (retain p m).lookup k = some v ↔ m.lookup k = some v ∧ p k v = true := by
  simp only [lookup_eq_some_iff, retain, List.mem_filter]

theorem entries_erase (k : α) (m : HashMap α β) :
    (m.erase k).entries = m.entries.filter fun e => decide (e.1 ≠ k) := by
  obtain ⟨l, hl⟩ := m
  change l.kerase k = l.filter _
  induction l with
  | nil => rfl
  | cons e l ih =>
    have hcons := List.nodupKeys_cons.1 hl
    by_cases hk : k = e.1
    · subst hk
      have hrest : ∀ x ∈ l, decide (x.1 ≠ e.1) = true := fun x hx =>
        decide_eq_true fun hxe => hcons.1 (hxe ▸ List.mem_keys_of_mem hx)
      rw [List.kerase_cons_eq rfl, List.filter_cons, if_neg (by simp), List.filter_eq_self.2 hrest]
    · rw [List.kerase_cons_ne hk, List.filter_cons, if_pos (by simpa using Ne.symm hk), ih hcons.2]

/-- A map is an entry it holds and the rest. -/
theorem entries_perm_of_lookup {m : HashMap α β} {k : α} {v : β} (h : m.lookup k = some v) :
    m.entries.Perm (⟨k, v⟩ :: (m.erase k).entries) := by
  have hk : k ∈ m.entries.keys := List.mem_keys_of_mem (lookup_eq_some_iff.1 h)
  obtain ⟨w, l₁, l₂, -, hl, he⟩ := List.exists_of_kerase hk
  have hw : v = w := m.nodupKeys.eq_of_mk_mem (lookup_eq_some_iff.1 h) (by rw [hl]; simp)
  change m.entries.Perm (⟨k, v⟩ :: m.entries.kerase k)
  rw [he, hl, hw]
  exact List.perm_middle

theorem entries_insert (k : α) (v : β) (m : HashMap α β) :
    (m.insert k v).entries = ⟨k, v⟩ :: (m.erase k).entries := AList.entries_insert

@[simp] theorem erase_insert_self (k : α) (v : β) (m : HashMap α β) :
    (m.insert k v).erase k = m.erase k :=
  AList.ext (by
    change (List.kerase k (m.insert k v).entries) = _
    rw [entries_insert]
    exact List.kerase_cons_eq (s := (⟨k, v⟩ : Σ _ : α, β)) rfl)

theorem lookup_erase_eq (k k' : α) (m : HashMap α β) :
    (m.erase k).lookup k' = if k' = k then none else m.lookup k' := by
  split
  · next h => rw [h, AList.lookup_erase]
  · next h => exact AList.lookup_erase_ne h

theorem lookup_insert_eq (k k' : α) (v : β) (m : HashMap α β) :
    (m.insert k v).lookup k' = if k' = k then some v else m.lookup k' := by
  split
  · next h => rw [h, AList.lookup_insert]
  · next h => exact AList.lookup_insert_ne h

section

variable {m : HashMap α β} {k k' : α} {v w : β}

theorem lookup_erase_eq_some :
    (m.erase k).lookup k' = some w ↔ k' ≠ k ∧ m.lookup k' = some w := by
  rw [lookup_erase_eq]
  by_cases hk : k' = k
  · simp [hk]
  · simp [hk]

theorem lookup_insert_eq_some :
    (m.insert k v).lookup k' = some w ↔ (k' = k ∧ w = v) ∨ (k' ≠ k ∧ m.lookup k' = some w) := by
  rw [lookup_insert_eq]
  by_cases hk : k' = k
  · simp [hk, eq_comm]
  · simp [hk]

theorem lookup_erase_eq_none : (m.erase k).lookup k' = none ↔ k' = k ∨ m.lookup k' = none := by
  rw [lookup_erase_eq]
  by_cases hk : k' = k
  · simp [hk]
  · simp [hk]

theorem lookup_insert_eq_none :
    (m.insert k v).lookup k' = none ↔ k' ≠ k ∧ m.lookup k' = none := by
  rw [lookup_insert_eq]
  by_cases hk : k' = k
  · simp [hk]
  · simp [hk]

end

/-! ## Arrangements -/

/-- In any arrangement of the entries, the one under a key is found by a scan. -/
theorem find?_of_perm {m : HashMap α β} {l : List (Σ _ : α, β)} (h : l.Perm m.entries) (k : α) :
    l.find? (fun e => decide (e.1 = k)) = (m.lookup k).map fun v => ⟨k, v⟩ := by
  cases hm : m.lookup k with
  | none =>
    rw [Option.map_none, List.find?_eq_none]
    rintro ⟨k', v⟩ he hk
    obtain rfl : k' = k := by simpa using hk
    rw [lookup_eq_some_iff.2 (h.mem_iff.1 he)] at hm
    cases hm
  | some v =>
    rw [Option.map_some]
    cases hf : l.find? (fun e => decide (e.1 = k)) with
    | none =>
      rw [List.find?_eq_none] at hf
      exact absurd (decide_eq_true rfl) (hf ⟨k, v⟩ (h.mem_iff.2 (lookup_eq_some_iff.1 hm)))
    | some e =>
      obtain ⟨k', w⟩ := e
      obtain rfl : k' = k := by simpa using List.find?_some hf
      have hw := lookup_eq_some_iff.2 (h.mem_iff.1 (List.mem_of_find?_eq_some hf))
      rw [hm] at hw
      cases hw
      rfl

theorem perm_erase_of_perm {m : HashMap α β} {l : List (Σ _ : α, β)} (h : l.Perm m.entries)
    (k : α) : (l.filter fun e => decide (e.1 ≠ k)).Perm (m.erase k).entries := by
  rw [entries_erase]; exact h.filter _

/-! ## Sizes -/

theorem length_erase_le (m : HashMap α β) (k : α) :
    (m.erase k).entries.length ≤ m.entries.length := by
  rw [entries_erase]
  exact List.length_filter_le _ _

/-- Erasing a key of the map makes room for one. -/
theorem length_erase_of_mem {m : HashMap α β} {k : α} (h : k ∈ m) :
    (m.erase k).entries.length + 1 = m.entries.length := by
  obtain ⟨v, hv⟩ := Option.isSome_iff_exists.1 (AList.lookup_isSome.2 h)
  have hl := (entries_perm_of_lookup hv).length_eq
  rw [List.length_cons] at hl
  exact hl.symm

theorem length_insert (m : HashMap α β) (k : α) (v : β) :
    (m.insert k v).entries.length = (m.erase k).entries.length + 1 := by
  rw [entries_insert, List.length_cons]

/-! ## Totals -/

theorem total_erase {f : β → Nat} {m : HashMap α β} {k : α} {v : β} (h : m.lookup k = some v) :
    total f (m.erase k) + f v = total f m := by
  have := ((entries_perm_of_lookup h).map fun e => f e.2).sum_nat
  simp only [List.map_cons, List.sum_cons] at this
  simp only [total]; omega

/-! ## Counting by key -/

omit [DecidableEq α] in
theorem sum_indicator (p : α → Bool) (l : List α) :
    (l.map fun a => if p a then 1 else 0).sum = l.countP p := by
  induction l with
  | nil => rfl
  | cons a l ih => rw [List.map_cons, List.sum_cons, ih, List.countP_cons, Nat.add_comm]

/-- Summed over distinct keys, the items of each key are at most the items of
any. -/
theorem sum_countP_le (f : β → Option α) (l : List β) {ks : List α} (hnd : ks.Nodup) :
    (ks.map fun k => l.countP fun t => f t = some k).sum ≤ l.countP fun t => (f t).isSome := by
  induction l with
  | nil => simp
  | cons t l ih =>
    have hone : (ks.map fun k => if f t = some k then 1 else 0).sum ≤
        if (f t).isSome then 1 else 0 := by
      cases f t with
      | none => simp
      | some a =>
        have hcount : ks.countP (· == a) ≤ 1 := List.nodup_iff_count_le_one.1 hnd a
        rw [← sum_indicator] at hcount
        simpa [eq_comm (a := a)] using hcount
    simp only [List.countP_cons, decide_eq_true_eq, List.sum_map_add]
    omega

end HashMap

end Lib
