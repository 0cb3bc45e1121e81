/-
A bounded set of the keys admitted last: a hash set with a queue of its keys in
the order they came, which drops the oldest once it is over capacity.

What a ring is for is said of the list of all keys it ever admitted, its log:
the ring holds the last `capacity` keys of the log (`Remembers`). So a key comes
up twice in a log only with `capacity` other keys in between (`Spaced`). A key
that is refused stays where it is in the queue, so a ring need not hold the keys
it was asked of last (`Covers`): it does as long as it pushes none of them out.
-/
import CeCdn.Lib.Machine
import Mathlib.Data.Finset.Basic
import Mathlib.Data.List.DropRight

namespace Lib

/-- `set` is the hash set and `order` the queue, oldest first. -/
structure KeyRing (α : Type) where
  set : Finset α
  order : List α
  capacity : Nat

namespace KeyRing

variable {α : Type} [DecidableEq α]

/-- An empty ring; a capacity of `0` counts as `1`. -/
def new (capacity : Nat) : KeyRing α := ⟨∅, [], max capacity 1⟩

/-- Pop the queue while it is longer than the capacity. -/
def popWhileOver (cap : Nat) : Finset α → List α → Finset α × List α
  | set, [] => (set, [])
  | set, old :: order =>
    if (old :: order).length > cap then popWhileOver cap (set.erase old) order
    else (set, old :: order)

/-- Record a key; whether it was new. -/
def insert (k : α) (r : KeyRing α) : Bool × KeyRing α :=
  if k ∈ r.set then (false, r)
  else
    let p := popWhileOver r.capacity (Insert.insert k r.set) (r.order ++ [k])
    (true, { r with set := p.1, order := p.2 })

/-! ## The last keys of the log -/

/-- The ring holds the last `capacity` keys of the log, which are distinct. -/
structure Remembers (r : KeyRing α) (log : List α) : Prop where
  order_eq : r.order = log.rtake r.capacity
  set_eq : r.set = r.order.toFinset
  nodup : r.order.Nodup
  capacity_pos : 0 < r.capacity

theorem remembers_new (capacity : Nat) : Remembers (new capacity : KeyRing α) [] where
  order_eq := (List.rtake_nil _).symm
  set_eq := rfl
  nodup := List.nodup_nil
  capacity_pos := Nat.lt_of_lt_of_le Nat.zero_lt_one (Nat.le_max_right capacity 1)

omit [DecidableEq α] in
theorem length_rtake_le (n : Nat) (log : List α) : (log.rtake n).length ≤ n := by
  rw [List.rtake, List.length_drop]
  omega

theorem Remembers.length_le {r : KeyRing α} {log : List α} (h : r.Remembers log) :
    r.order.length ≤ r.capacity := h.order_eq ▸ length_rtake_le _ _

theorem popWhileOver_eq (cap : Nat) {order : List α} (h : order.Nodup) :
    popWhileOver cap order.toFinset order = ((order.rtake cap).toFinset, order.rtake cap) := by
  induction order with
  | nil => simp [popWhileOver]
  | cons old order ih =>
    obtain ⟨hold, hnd⟩ := List.nodup_cons.1 h
    unfold popWhileOver
    split
    · next hlong =>
      have hset : (old :: order).toFinset.erase old = order.toFinset := by
        rw [List.toFinset_cons, Finset.erase_insert (by simpa using hold)]
      have hdrop : (old :: order).rtake cap = order.rtake cap := by
        have hlen : (old :: order).length - cap = order.length - cap + 1 := by
          simp only [List.length_cons] at hlong ⊢; omega
        rw [List.rtake, hlen, List.drop_succ_cons, List.rtake]
      rw [hset, ih hnd, hdrop]
    · next hshort =>
      have hall : (old :: order).rtake cap = old :: order := by
        rw [List.rtake, Nat.sub_eq_zero_of_le (Nat.not_lt.1 hshort), List.drop_zero]
      rw [hall]

omit [DecidableEq α] in
/-- The last keys, of the last keys and one more. -/
theorem rtake_rtake_concat {n : Nat} (log : List α) (k : α) :
    (log.rtake n ++ [k]).rtake n = (log ++ [k]).rtake n := by
  cases n with
  | zero => simp
  | succ n =>
    rw [List.rtake_concat_succ, List.rtake_concat_succ]
    congr 1
    simp only [List.rtake, List.drop_drop, List.length_drop]
    congr 1
    omega

variable {r : KeyRing α} {log : List α}

theorem insert_fst (k : α) (r : KeyRing α) : (insert k r).1 = decide (k ∉ r.set) := by
  unfold insert
  split
  · next h => simp [h]
  · next h => simp [h]

theorem popWhileOver_subset (cap : Nat) : ∀ (order : List α) (set : Finset α),
    (popWhileOver cap set order).1 ⊆ set
  | [], _ => fun _ h => h
  | old :: order, set => by
    unfold popWhileOver
    split
    · exact fun k hk => Finset.mem_of_mem_erase (popWhileOver_subset cap order _ hk)
    · exact fun _ h => h

/-- A new key stays new when another is recorded. -/
theorem insert_fst_of_ne {k k' : α} (hne : k' ≠ k) (h : (insert k' r).1 = true) :
    (insert k' (insert k r).2).1 = true := by
  rw [insert_fst, decide_eq_true_eq] at h ⊢
  intro hmem
  unfold insert at hmem
  split at hmem
  · exact h hmem
  · rcases Finset.mem_insert.1 (popWhileOver_subset _ _ _ hmem) with heq | hold
    · exact hne heq
    · exact h hold

/-- A key is refused when it is among the last keys. -/
theorem Remembers.insert_fst (h : Remembers r log) (k : α) :
    (insert k r).1 = true ↔ k ∉ log.rtake r.capacity := by
  rw [KeyRing.insert_fst, decide_eq_true_eq, h.set_eq, List.mem_toFinset, h.order_eq]

/-- A key that is refused changes nothing. -/
theorem insert_refused {k : α} (h : (insert k r).1 = false) : (insert k r).2 = r := by
  unfold insert at h ⊢
  split
  · rfl
  · next hk => simp [hk] at h

theorem capacity_insert (k : α) (r : KeyRing α) : (insert k r).2.capacity = r.capacity := by
  unfold insert
  split <;> rfl

/-- A key that is admitted ends the log. -/
theorem Remembers.insert (h : Remembers r log) {k : α} (hk : (insert k r).1 = true) :
    Remembers (r.insert k).2 (log ++ [k]) := by
  have hset : k ∉ r.set := by
    intro hmem
    simp [KeyRing.insert, hmem] at hk
  have hnd : (r.order ++ [k]).Nodup := by
    rw [h.set_eq, List.mem_toFinset] at hset
    exact List.nodup_append.2 ⟨h.nodup, List.nodup_singleton k, by
      intro a ha b hb hab
      rw [List.mem_singleton.1 hb] at hab
      exact hset (hab ▸ ha)⟩
  have hins : Insert.insert k r.set = (r.order ++ [k]).toFinset := by
    rw [h.set_eq]
    ext a
    simp only [Finset.mem_insert, List.mem_toFinset, List.mem_append, List.mem_singleton, or_comm]
  have hpop := popWhileOver_eq r.capacity hnd
  have heq : (KeyRing.insert k r).2 =
      { r with
        set := ((r.order ++ [k]).rtake r.capacity).toFinset
        order := (r.order ++ [k]).rtake r.capacity } := by
    simp only [KeyRing.insert, if_neg hset, hins, hpop]
  rw [heq]
  refine ⟨?_, rfl, hnd.sublist (List.drop_sublist _ _), h.capacity_pos⟩
  simp only [h.order_eq, rtake_rtake_concat]

/-! ## How far apart a key comes twice -/

/-- Between two places of one key stand at least `n` places of other keys. -/
def Spaced (n : Nat) (log : List α) : Prop :=
  ∀ a k b c, log = a ++ k :: (b ++ k :: c) → n ≤ b.countP fun k' => decide (k' ≠ k)

theorem spaced_nil (n : Nat) : Spaced n ([] : List α) := by
  intro a k b c h
  simp at h

/-- A key that is not among the last `n` keeps a log spaced. -/
theorem Spaced.concat {n : Nat} (h : Spaced n log) {k : α} (hk : k ∉ log.rtake n) :
    Spaced n (log ++ [k]) := by
  intro a k' b c heq
  rcases List.eq_nil_or_concat c with rfl | ⟨c, x, rfl⟩
  · -- the later place is the new one: the last `n` keys lie between the two
    have heq' : log ++ [k] = (a ++ k' :: b) ++ [k'] := by simpa using heq
    obtain ⟨hlog, hkk⟩ := List.append_inj' heq' rfl
    obtain rfl : k = k' := by simpa using hkk
    have hlen : n ≤ b.length := by
      by_contra hlt
      refine hk ?_
      rw [hlog, List.rtake, List.length_append, List.length_cons,
        List.drop_append_of_le_length (by omega)]
      simp
    have htake : log.rtake n = b.rtake n := by
      have hdrop : (a ++ k :: b).length - n = (a ++ [k]).length + (b.length - n) := by
        simp only [List.length_append, List.length_cons, List.length_nil]; omega
      rw [hlog, List.rtake, hdrop, ← List.drop_drop, List.rtake]
      congr 1
      simp
    rw [htake] at hk
    calc n = (b.rtake n).length := by simp only [List.rtake, List.length_drop]; omega
      _ = (b.rtake n).countP fun k' => decide (k' ≠ k) := by
        rw [eq_comm, List.countP_eq_length]
        intro x hx
        exact decide_eq_true fun hxk => hk (hxk ▸ hx)
      _ ≤ b.countP _ := (List.drop_sublist _ _).countP_le
  · have heq' : log ++ [k] = (a ++ k' :: (b ++ k' :: c)) ++ [x] := by simpa using heq
    exact h a k' b c (List.append_inj' heq' rfl).1

/-- **A ring admits a key again only after `capacity` other keys.** -/
theorem Remembers.spaced_concat (h : Remembers r log) (hs : Spaced r.capacity log) {k : α}
    (hk : (KeyRing.insert k r).1 = true) : Spaced r.capacity (log ++ [k]) :=
  hs.concat ((h.insert_fst k).1 hk)

/-! ## Runs -/

/-- A ring that answers one key after another. -/
def step (r : KeyRing α) (k : α) : Bool × KeyRing α := insert k r

/-- The keys a run admits, in order. -/
def admitted (r : KeyRing α) (ks : List α) : List α :=
  (Machine.trace step r ks).filterMap fun t => if t.2.2 then some t.2.1 else none

theorem admitted_cons (r : KeyRing α) (k : α) (ks : List α) :
    admitted r (k :: ks) =
      (if (insert k r).1 then [k] else []) ++ admitted (insert k r).2 ks := by
  simp only [admitted, Machine.trace, step, List.filterMap_cons]
  split
  · next h => simp [show (insert k r).1 = false by simpa using h]
  · next k' h =>
    obtain ⟨hnew, rfl⟩ : (insert k r).1 = true ∧ k = k' := by simpa using h
    simp [hnew]

theorem remembers_run {r : KeyRing α} {log : List α} (h : Remembers r log) (ks : List α) :
    Remembers (Machine.final step r ks) (log ++ admitted r ks) := by
  induction ks generalizing r log with
  | nil => simpa [admitted, Machine.trace] using h
  | cons k ks ih =>
    rw [admitted_cons, Machine.final_cons, step]
    cases hk : (KeyRing.insert k r).1 with
    | true => simpa using ih (h.insert hk)
    | false =>
      rw [insert_refused hk]
      simpa using ih h

theorem capacity_final (r : KeyRing α) (ks : List α) :
    (Machine.final step r ks).capacity = r.capacity := by
  let Same (s : KeyRing α) : Prop := s.capacity = r.capacity
  have hstep : ∀ s k, Same s → Same (step s k).2 := fun s k hs => (capacity_insert k s).trans hs
  exact Machine.final_invariant hstep rfl ks

/-! ## The keys asked of last -/

/-- The ring holds every key of the last `capacity` calls. -/
def Covers (r : KeyRing α) (past : List α) : Prop := ∀ k ∈ past.rtake r.capacity, k ∈ r.order

/-- The key that a call pushes out of the queue: the oldest, when the ring is
full and does not hold the new one. -/
def pushedOut (r : KeyRing α) (k : α) : Option α :=
  if k ∈ r.set ∨ r.order.length < r.capacity then none else r.order.head?

variable {past : List α}

theorem Remembers.order_insert (h : Remembers r log) {k : α} (hk : k ∉ r.set) :
    (KeyRing.insert k r).2.order = (r.order ++ [k]).rtake r.capacity := by
  have hnew : (KeyRing.insert k r).1 = true := by rw [KeyRing.insert_fst]; simpa using hk
  rw [(h.insert hnew).order_eq, capacity_insert, h.order_eq, rtake_rtake_concat]

/-- After a call the ring holds the key, and what it held but for the one it
pushed out. -/
theorem Remembers.mem_order_insert (h : Remembers r log) (k x : α) :
    x ∈ (KeyRing.insert k r).2.order ↔ x = k ∨ (x ∈ r.order ∧ r.pushedOut k ≠ some x) := by
  have hmem : k ∈ r.set ↔ k ∈ r.order := by rw [h.set_eq, List.mem_toFinset]
  by_cases hk : k ∈ r.set
  · have hsame : (KeyRing.insert k r).2 = r := insert_refused (by simp [KeyRing.insert_fst, hk])
    have hnone : r.pushedOut k = none := by simp [pushedOut, hk]
    rw [hsame, hnone]
    constructor
    · intro hx
      exact .inr ⟨hx, by simp⟩
    · intro hx
      rcases hx with rfl | ⟨hx, -⟩
      · exact hmem.1 hk
      · exact hx
  · rw [h.order_insert hk]
    have hle : r.order.length ≤ r.capacity := by
      rw [h.order_eq, List.rtake, List.length_drop]; omega
    by_cases hroom : r.order.length < r.capacity
    · have hnone : r.pushedOut k = none := by simp [pushedOut, hroom]
      have hall : (r.order ++ [k]).rtake r.capacity = r.order ++ [k] := by
        rw [List.rtake, List.length_append, List.length_singleton,
          Nat.sub_eq_zero_of_le (by omega), List.drop_zero]
      rw [hall, hnone]
      simp [or_comm]
    · -- the ring is full: its oldest key makes room for the new one
      have hpos := h.capacity_pos
      have hnd := h.nodup
      have hout : r.pushedOut k = r.order.head? := by simp [pushedOut, hk, hroom]
      rw [hout]
      cases horder : r.order with
      | nil => simp [horder] at hle hroom; omega
      | cons old rest =>
        rw [horder] at hle hroom hnd
        have hlen : (old :: rest ++ [k]).length - r.capacity = 1 := by
          simp only [List.length_append, List.length_cons, List.length_nil] at hle hroom ⊢; omega
        have hold : old ∉ rest := (List.nodup_cons.1 hnd).1
        rw [List.rtake, hlen, List.cons_append, List.drop_succ_cons, List.drop_zero,
          List.head?_cons]
        simp only [List.mem_append, List.mem_cons, List.not_mem_nil, or_false, ne_eq,
          Option.some.injEq]
        grind

/-- **A ring goes on covering the last calls exactly when the key it pushes out
is none of them.** -/
theorem Covers.concat_iff (hc : Covers r past) (h : Remembers r log) (k : α) :
    Covers (KeyRing.insert k r).2 (past ++ [k]) ↔
      ∀ old ∈ r.pushedOut k, old ∉ past.rtake (r.capacity - 1) := by
  obtain ⟨m, hm⟩ := Nat.exists_eq_add_one_of_ne_zero h.capacity_pos.ne'
  have hlast : (past ++ [k]).rtake r.capacity = past.rtake (r.capacity - 1) ++ [k] := by
    rw [hm, List.rtake_concat_succ, Nat.add_sub_cancel]
  have hheld {x : α} (hx : x ∈ past.rtake (r.capacity - 1)) : x ∈ r.order := by
    refine hc x ?_
    rw [List.rtake] at hx ⊢
    exact (List.drop_sublist_drop_left past (by omega)).subset hx
  have hkout : r.pushedOut k ≠ some k := by
    unfold pushedOut
    split
    · simp
    · next hno =>
      intro hhead
      have hmem : k ∈ r.order := List.mem_of_mem_head? hhead
      exact hno (.inl (by rwa [h.set_eq, List.mem_toFinset]))
  rw [Covers, capacity_insert, hlast]
  simp only [h.mem_order_insert, List.mem_append, List.mem_singleton, Option.mem_def]
  constructor
  · intro hall old hout hrecent
    rcases hall old (.inl hrecent) with rfl | ⟨-, hkept⟩
    · exact hkout hout
    · exact hkept hout
  · intro hlate x hx
    rcases hx with hx | rfl
    · exact .inr ⟨hheld hx, fun hout => hlate x hout hx⟩
    · exact .inl rfl

/-- A run covers its last calls in every state exactly when no call pushes out
one of the last `capacity - 1` keys before it. -/
theorem covers_run_iff (h : Remembers r []) (ks : List α) :
    (∀ past, past <+: ks → Covers (Machine.final step r past) past) ↔
      ∀ past k, past ++ [k] <+: ks →
        ∀ old ∈ (Machine.final step r past).pushedOut k, old ∉ past.rtake (r.capacity - 1) := by
  have hstep (past : List α) (k : α) : Machine.final step r (past ++ [k]) =
      (KeyRing.insert k (Machine.final step r past)).2 := Machine.final_concat r past k
  constructor
  · intro hall past k hpre
    have hcov := hall past ((List.prefix_append past [k]).trans hpre)
    have hnext := hall (past ++ [k]) hpre
    rw [hstep] at hnext
    rw [← capacity_final r past]
    exact (hcov.concat_iff (remembers_run h past) k).1 hnext
  · intro hlate past
    induction past using List.reverseRecOn with
    | nil => intro _ k hk; simp at hk
    | append_singleton past k ih =>
      intro hpre
      have hcov := ih ((List.prefix_append past [k]).trans hpre)
      rw [hstep, hcov.concat_iff (remembers_run h past) k, capacity_final]
      exact hlate past k hpre

end KeyRing

end Lib
