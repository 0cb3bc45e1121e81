/-
Which edges replicas are placed on (`replication.rs`, and `pick_edges` of
`client.rs`): candidates are ranked by delivered work, liveness, memory and
id, and the first ones that are not excluded are selected.

A selection takes the first candidates, not the first ids: an id that is listed
twice is selected twice when both its candidates come far enough in front
(`select_best_iff`).
-/
import CeCdn.Lib.Best
import CeCdn.Lib.Word
import Mathlib.Data.Finset.Card
import Mathlib.Data.Prod.Lex
import Mathlib.Data.String.Basic

namespace CeCdn

open Lib Word

structure EdgeCandidate where
  nodeId : String
  deliveredWork : Nat
  lastSeenSecs : Nat
  memMb : Nat
deriving DecidableEq

namespace EdgeCandidate

/-- The comparator of `rank`. -/
def cmp (a b : EdgeCandidate) : Ordering :=
  (compare b.deliveredWork a.deliveredWork).then <|
    (compare a.lastSeenSecs b.lastSeenSecs).then <|
      (compare b.memMb a.memMb).then (compare a.nodeId b.nodeId)

/-- `a` ranks before `b`: more work, then seen more recently, then more memory,
then the smaller id. -/
def Before (a b : EdgeCandidate) : Prop :=
  b.deliveredWork < a.deliveredWork ∨ (a.deliveredWork = b.deliveredWork ∧
    (a.lastSeenSecs < b.lastSeenSecs ∨ (a.lastSeenSecs = b.lastSeenSecs ∧
      (b.memMb < a.memMb ∨ (a.memMb = b.memMb ∧ a.nodeId < b.nodeId)))))

end EdgeCandidate

/-- The candidates best-first; a stable sort. -/
def rank (candidates : List EdgeCandidate) : List EdgeCandidate :=
  candidates.insertionSort fun a b => (a.cmp b).isLE = true

def select (candidates : List EdgeCandidate) (n : Nat) (exclude : List String) : List String :=
  (((rank candidates).map EdgeCandidate.nodeId).filter fun id => id ∉ exclude).take n

/-! ## Discovery -/

structure AtlasEntry where
  nodeId : String
  lastSeenSecs : Nat
  memMb : Nat
deriving DecidableEq

/-- What `pick_edges` is answered: the advertised edges, the atlas, and the
delivered work in each edge's history, asked in the order of the edges. An
error is its text. -/
structure Discovery where
  findService : Except String (List String)
  atlas : Except String (List AtlasEntry)
  deliveredWork : Nat → String → Except String Nat

namespace Discovery

/-- The advertised edges; none if they cannot be found out. -/
def advertised (d : Discovery) : List String := d.findService.toOption.getD []

def candidates (d : Discovery) : List EdgeCandidate :=
  d.advertised.mapIdx fun i id =>
    let entry := (d.atlas.toOption.getD []).find? fun e => e.nodeId = id
    { nodeId := id
      deliveredWork := (d.deliveredWork i id).toOption.getD 0
      lastSeenSecs := (entry.map AtlasEntry.lastSeenSecs).getD u64Max
      memMb := (entry.map AtlasEntry.memMb).getD 0 }

def pickEdges (d : Discovery) (n : Nat) (exclude : List String) : List String :=
  select d.candidates n exclude

theorem map_nodeId_candidates (d : Discovery) :
    d.candidates.map EdgeCandidate.nodeId = d.advertised := by
  apply List.ext_getElem?
  intro i
  simp [candidates, Function.comp_def]

end Discovery

/-! ## The order of the ranking -/

namespace EdgeCandidate

/-- The signals, in the order in which they count. -/
def key (c : EdgeCandidate) : ℕᵒᵈ ×ₗ ℕ ×ₗ ℕᵒᵈ ×ₗ String :=
  toLex (OrderDual.toDual c.deliveredWork,
    toLex (c.lastSeenSecs, toLex (OrderDual.toDual c.memMb, c.nodeId)))

theorem key_injective : Function.Injective key := by
  intro a b h
  cases a
  cases b
  simpa [key, and_comm, and_assoc] using h

instance : LinearOrder EdgeCandidate := LinearOrder.lift' key key_injective

theorem lt_iff_before {a b : EdgeCandidate} : a < b ↔ a.Before b := by
  change key a < key b ↔ _
  simp only [key, Prod.Lex.toLex_lt_toLex, Before, OrderDual.toDual_lt_toDual,
    OrderDual.toDual_inj]

section

variable {α : Type} [LinearOrder α] {x y : α}

theorem isLE_compare : (compare x y).isLE = true ↔ x ≤ y := by
  rcases lt_trichotomy x y with h | h | h
  · simp [compare_lt_iff_lt.2 h, h.le]
  · simp [h]
  · simp [compare_gt_iff_gt.2 h, h]

/-- The first comparison that is no tie decides. -/
theorem isLE_then_compare {o : Ordering} :
    ((compare x y).then o).isLE = true ↔ x < y ∨ (x = y ∧ o.isLE = true) := by
  rcases lt_trichotomy x y with h | h | h
  · simp [compare_lt_iff_lt.2 h, h]
  · simp [h]
  · simp [compare_gt_iff_gt.2 h, h.le, h.ne']

end

/-- The comparator decides the order. -/
theorem isLE_cmp_iff {a b : EdgeCandidate} : (a.cmp b).isLE = true ↔ a ≤ b := by
  change _ ↔ key a ≤ key b
  simp only [cmp, isLE_then_compare, isLE_compare, key, Prod.Lex.toLex_le_toLex,
    OrderDual.toDual_lt_toDual, OrderDual.toDual_inj]
  rw [eq_comm (a := b.deliveredWork), eq_comm (a := b.memMb)]

end EdgeCandidate

/-! ## What is selected -/

/-- The candidates that are not excluded. -/
def allowed (candidates : List EdgeCandidate) (exclude : List String) : List EdgeCandidate :=
  candidates.filter fun c => c.nodeId ∉ exclude

section

variable {candidates : List EdgeCandidate} {n : Nat} {exclude : List String}

theorem rank_eq (candidates : List EdgeCandidate) :
    rank candidates = candidates.insertionSort (· ≤ ·) := by
  simp only [rank, EdgeCandidate.isLE_cmp_iff]

/-- Excluding before ranking comes to the same. -/
theorem filter_rank (candidates : List EdgeCandidate) (p : EdgeCandidate → Bool) :
    (rank candidates).filter p = rank (candidates.filter p) := by
  rw [rank_eq, rank_eq]
  have hperm : ((candidates.insertionSort (· ≤ ·)).filter p).Perm
      ((candidates.filter p).insertionSort (· ≤ ·)) :=
    ((List.perm_insertionSort _ _).filter _).trans (List.perm_insertionSort _ _).symm
  exact hperm.eq_of_pairwise' ((List.pairwise_insertionSort _ _).filter _)
    (List.pairwise_insertionSort _ _)

/-- A selection is the ids of the best candidates that are not excluded. -/
theorem select_eq (candidates : List EdgeCandidate) (n : Nat) (exclude : List String) :
    select candidates n exclude = (best n (allowed candidates exclude)).map EdgeCandidate.nodeId := by
  rw [select, List.filter_map, ← List.map_take, best, ← rank_eq, allowed, ← filter_rank]
  rfl

theorem mem_allowed {c : EdgeCandidate} :
    c ∈ allowed candidates exclude ↔ c ∈ candidates ∧ c.nodeId ∉ exclude := by
  simp [allowed]

theorem mem_select_iff {id : String} :
    id ∈ select candidates n exclude ↔
      ∃ c ∈ allowed candidates exclude, ahead (allowed candidates exclude) c < n ∧ c.nodeId = id := by
  simp only [select_eq, List.mem_map, mem_best_iff, and_assoc]

end

/-- The ids that may be selected. -/
def allowedIds (candidates : List EdgeCandidate) (exclude : List String) : Finset String :=
  ((allowed candidates exclude).map EdgeCandidate.nodeId).toFinset

/-- `c` is the best candidate of its id. -/
def IsBestOf (candidates : List EdgeCandidate) (id : String) (c : EdgeCandidate) : Prop :=
  c ∈ candidates ∧ c.nodeId = id ∧ ∀ c' ∈ candidates, c'.nodeId = id → ¬ c'.Before c

/-- `picked` is the `n` best distinct edges: no id twice, none excluded, as many
as there are up to `n`, and none left out whose best candidate ranks before
that of one taken. -/
structure PicksBest (candidates : List EdgeCandidate) (n : Nat) (exclude picked : List String) :
    Prop where
  distinct : picked.Nodup
  not_excluded : ∀ x ∈ picked, x ∉ exclude
  length : picked.length = min n (allowedIds candidates exclude).card
  best_first : ∀ x ∈ picked, ∀ y ∈ allowedIds candidates exclude, y ∉ picked →
    ∀ cx cy, IsBestOf candidates x cx → IsBestOf candidates y cy → ¬ cy.Before cx

section

variable {candidates : List EdgeCandidate} {n : Nat} {exclude : List String}

theorem mem_allowedIds {id : String} :
    id ∈ allowedIds candidates exclude ↔ ∃ c ∈ allowed candidates exclude, c.nodeId = id := by
  simp [allowedIds]

theorem not_excluded_of_select {id : String} (h : id ∈ select candidates n exclude) :
    id ∉ exclude := by
  obtain ⟨c, hc, -, rfl⟩ := mem_select_iff.1 h
  exact (mem_allowed.1 hc).2

/-- Ids without repeats are as many as they can be. -/
theorem length_select_of_nodup (h : (select candidates n exclude).Nodup) :
    (select candidates n exclude).length = min n (allowedIds candidates exclude).card := by
  have hsub : (select candidates n exclude).toFinset ⊆ allowedIds candidates exclude := by
    intro id hid
    obtain ⟨c, hc, -, rfl⟩ := mem_select_iff.1 (List.mem_toFinset.1 hid)
    exact mem_allowedIds.2 ⟨c, hc, rfl⟩
  have hle := Finset.card_le_card hsub
  rw [List.toFinset_card_of_nodup h] at hle
  have hcard : (allowedIds candidates exclude).card ≤ (allowed candidates exclude).length := by
    have := List.toFinset_card_le ((allowed candidates exclude).map EdgeCandidate.nodeId)
    rwa [List.length_map] at this
  rw [select_eq, List.length_map, length_best] at hle ⊢
  omega

/-- What is left out does not rank before what is taken. -/
theorem best_first_select {x y : String} (hx : x ∈ select candidates n exclude)
    (hy : y ∈ allowedIds candidates exclude) (hny : y ∉ select candidates n exclude)
    {cx cy : EdgeCandidate} (hcx : IsBestOf candidates x cx) (hcy : IsBestOf candidates y cy) :
    ¬ cy.Before cx := by
  obtain ⟨hcand, hid, hfirst⟩ := hcx
  obtain ⟨hcand', hid', -⟩ := hcy
  have hyx : y ∉ exclude := by
    obtain ⟨c, hc, rfl⟩ := mem_allowedIds.1 hy
    exact (mem_allowed.1 hc).2
  have hcy : cy ∈ allowed candidates exclude := mem_allowed.2 ⟨hcand', by rwa [hid']⟩
  obtain ⟨c, hc, hahead, hcid⟩ := mem_select_iff.1 hx
  intro hbefore
  -- `cx` is no worse than the candidate of its id that was taken
  have hle : cx ≤ c := by
    rw [← not_lt, EdgeCandidate.lt_iff_before]
    exact hfirst c (mem_allowed.1 hc).1 hcid
  have hlt : cy < cx := EdgeCandidate.lt_iff_before.2 hbefore
  have hmono := ahead_mono (allowed candidates exclude) (hlt.le.trans hle)
  exact hny (mem_select_iff.2 ⟨cy, hcy, by omega, hid'⟩)

end

/-- **When a selection picks the `n` best distinct edges.** For every list of
candidates, every number and every exclusion: exactly when no id comes twice
among the first `n` places of the candidates that are not excluded. It is so
when no id is listed twice. -/
theorem select_best_iff (candidates : List EdgeCandidate) (n : Nat) (exclude : List String) :
    (PicksBest candidates n exclude (select candidates n exclude) ↔
      Apart EdgeCandidate.nodeId n (allowed candidates exclude)) ∧
    (((allowed candidates exclude).map EdgeCandidate.nodeId).Nodup →
      PicksBest candidates n exclude (select candidates n exclude)) := by
  have hiff : PicksBest candidates n exclude (select candidates n exclude) ↔
      Apart EdgeCandidate.nodeId n (allowed candidates exclude) := by
    rw [← nodup_map_best_iff, ← select_eq]
    constructor
    · exact PicksBest.distinct
    · intro h
      exact ⟨h, fun x hx => not_excluded_of_select hx, length_select_of_nodup h,
        fun x hx y hy hny cx cy => best_first_select hx hy hny⟩
  exact ⟨hiff, fun h => hiff.2 (apart_of_nodup h)⟩

/-- An edge that is listed twice is selected twice, and another is left out. -/
theorem select_not_best :
    let candidates : List EdgeCandidate := [⟨"a", 5, 1, 1⟩, ⟨"a", 5, 1, 1⟩, ⟨"b", 1, 1, 1⟩]
    select candidates 2 [] = ["a", "a"] ∧ ¬ PicksBest candidates 2 [] (select candidates 2 []) := by
  intro candidates
  have hselect : select candidates 2 [] = ["a", "a"] := by decide +kernel
  refine ⟨hselect, fun h => ?_⟩
  rw [hselect] at h
  exact absurd h.distinct (by decide)

/-! ## The order of discovery -/

section

variable (candidates : List EdgeCandidate)

theorem rank_perm : (rank candidates).Perm candidates := by
  rw [rank_eq]
  exact List.perm_insertionSort _ _

/-- Each candidate ranks before every later one that is not the same. -/
theorem rank_sorted : (rank candidates).Pairwise fun a b => a.Before b ∨ a = b := by
  rw [rank_eq]
  refine (List.pairwise_insertionSort (· ≤ ·) candidates).imp fun {a b} hab => ?_
  rwa [← EdgeCandidate.lt_iff_before, ← le_iff_lt_or_eq]

variable {candidates} {candidates' : List EdgeCandidate}

/-- Two lists of the same candidates, each as often, have the same ranking. -/
theorem rank_eq_rank_iff : rank candidates = rank candidates' ↔ candidates.Perm candidates' := by
  constructor
  · intro h
    exact (rank_perm candidates).symm.trans (h ▸ rank_perm candidates')
  · intro h
    have hperm : (rank candidates).Perm (rank candidates') :=
      (rank_perm candidates).trans (h.trans (rank_perm candidates').symm)
    rw [rank_eq, rank_eq] at hperm ⊢
    -- a ranking is sorted by a linear order, in which only equal candidates tie
    exact hperm.eq_of_pairwise' (List.pairwise_insertionSort _ _) (List.pairwise_insertionSort _ _)

end

/-- **Placement does not depend on the order of discovery.** A ranking is a
permutation of the candidates, sorted by the documented order; candidates found
in another order have the same ranking, and the same edges are selected in the
same order. -/
theorem placement_of_perm (candidates : List EdgeCandidate) :
    (rank candidates).Perm candidates ∧
    ((rank candidates).Pairwise fun a b => a.Before b ∨ a = b) ∧
    ∀ candidates' : List EdgeCandidate, candidates'.Perm candidates →
      rank candidates' = rank candidates ∧
      ∀ n exclude, select candidates' n exclude = select candidates n exclude := by
  refine ⟨rank_perm candidates, rank_sorted candidates, fun candidates' h => ?_⟩
  have hrank : rank candidates' = rank candidates := rank_eq_rank_iff.2 h
  refine ⟨hrank, fun n exclude => ?_⟩
  rw [select, hrank, select]

theorem placement_of_perm_swapped :
    let a : EdgeCandidate := ⟨"a", 5, 1, 1⟩
    let b : EdgeCandidate := ⟨"b", 5, 1, 2⟩
    rank [b, a, b] = rank [a, b, b] ∧
      ∀ n exclude, select [b, a, b] n exclude = select [a, b, b] n exclude := by
  intro a b
  exact (placement_of_perm [a, b, b]).2.2 [b, a, b] (List.Perm.swap a b [b])

end CeCdn
