/-
The cache counters under the HTTP front-end. `get` counts a hit or a miss, and
`serve_cid` calls it twice on a cold miss: before it takes the single-flight
lock and under it. So hits and misses together are the requests that looked
their object up and once more those that missed (`reads_counted_once_iff`).
-/
import CeCdn.CacheFacts
import CeCdn.Lib.Places
import CeCdn.ServerFacts
import Mathlib.Data.Finset.Card

namespace CeCdn

open Lib Text Machine

/-- A `get` by a request: its first one or the one under the lock, and whether
it found the object. -/
structure Look where
  request : Nat
  again : Bool
  hit : Bool
deriving DecidableEq

/-- The `get` of a piece of a request. -/
def Task.look (i : Nat) (s : ServerState) (t : Task) : Option Look :=
  let hit := (s.edge.cache.get t.req.cid t.now).1.isSome
  match t.phase with
  | .lookup _ => some ⟨i, false, hit⟩
  | .recheck _ _ => some ⟨i, true, hit⟩
  | _ => none

def Sys.look (y : Sys) : Label → Option Look
  | .step i _ => (y.tasks[i]?).bind fun t => t.look i y.shared
  | _ => none

/-- The `get`s of a run. -/
def looks (env : ServerEnv) : Sys → List Label → List Look := events (Sys.step env) Sys.look

/-- The requests that looked their object up. -/
def lookedUp (log : List Look) : Finset Nat := (log.map Look.request).toFinset

/-- The `get`s of one request. -/
def looksOf (i : Nat) (log : List Look) : List Look := log.filter fun k => k.request == i

/-- Hits and misses are the requests that looked their object up, each of which
was counted once. -/
def ReadsCountedOnce (c : EdgeCache) (log : List Look) : Prop :=
  c.stats.hits + c.stats.misses = (lookedUp log).card ∧
  ∀ i ∈ lookedUp log, (looksOf i log).length = 1

/-! ## The looks of one request -/

/-- The `get`s of a request, by where it stands. -/
def Phase.Looked (i : Nat) (log : List Look) : Phase → Prop
  | .access | .replay | .conditional | .tombstone | .budget | .lookup _ => log = []
  | .flight _ | .wait _ _ | .recheck _ _ => log = [⟨i, false, false⟩]
  | .call _ _ | .fetching _ _ | .fetched _ _ _ => log = [⟨i, false, false⟩, ⟨i, true, false⟩]
  | .unlock _ _ | .unref _ _ => ∃ hit, log = [⟨i, false, false⟩, ⟨i, true, hit⟩]
  | .shape _ _ => log = [⟨i, false, true⟩] ∨ ∃ hit, log = [⟨i, false, false⟩, ⟨i, true, hit⟩]
  | .done _ =>
    log = [] ∨ log = [⟨i, false, true⟩] ∨ ∃ hit, log = [⟨i, false, false⟩, ⟨i, true, hit⟩]
  | .cancelled => True

section

variable {env : ServerEnv} {o : Orders} {s s' : ServerState} {t t' : Task} {i : Nat}
  {log : List Look}

theorem Task.Piece.looked (h : Task.Piece env o s t s' t') (hl : t.phase.Looked i log) :
    t'.phase.Looked i (log ++ (t.look i s).toList) := by
  cases h <;> simp_all [Phase.Looked, Task.look, Task.readBudget]

/-- The counters count the `get`s. -/
theorem Task.Piece.reads (h : Task.Piece env o s t s' t') (i : Nat) :
    s'.edge.cache.reads = s.edge.cache.reads + (t.look i s).toList.length := by
  cases h with
  | flight hp => simp [ServerState.edge_inflightLock, Task.look, hp]
  | _ =>
    simp [*, Task.look, ServerState.setCache, ServerState.lockFlight, ServerState.unlockFlight,
      ServerState.dropRef, ServerState.setFlight]

/-- Without a `get` nothing comes into the cache but what the origin answered. -/
theorem Task.Piece.entries (h : Task.Piece env o s t s' t') (hlook : t.look i s = none) :
    (∃ l max res, t.phase = .fetched l max res) ∨ s'.edge.cache.entries = s.edge.cache.entries := by
  cases h with
  | tooLarge hp | stored hp | absent hp => exact .inl ⟨_, _, _, hp⟩
  | hit hp | miss hp | rehit hp | renegative hp | remiss hp => simp [Task.look, hp] at hlook
  | flight => exact .inr (by rw [ServerState.edge_inflightLock])
  | negative | notNegative =>
    obtain ⟨ts, n, he⟩ := EdgeCache.isNegative_frame t.req.cid t.now s.edge.cache
    exact .inr (by simp only [ServerState.setCache, he])
  | _ => exact .inr rfl

end

/-! ## Runs -/

/-- The counters and the looks so far. -/
structure Accounted (s₀ : ServerState) (y : Sys) (log : List Look) : Prop where
  counts : y.shared.edge.cache.reads = s₀.edge.cache.reads + log.length
  known : ∀ k ∈ log, k.request < y.tasks.length
  looked : ∀ (i : Nat) (t : Task), y.tasks[i]? = some t → t.phase.Looked i (looksOf i log)
  /-- The first look into an empty cache finds nothing. -/
  cold : s₀.edge.cache.entries = ∅ →
    (log = [] → ∀ cid, y.shared.edge.cache.entries.lookup cid = none) ∧
    ∀ k, log.head? = some k → k.hit = false

theorem looksOf_append_self {i : Nat} {log : List Look} {k : Option Look}
    (h : ∀ x ∈ k, x.request = i) : looksOf i (log ++ k.toList) = looksOf i log ++ k.toList := by
  cases k with
  | none => simp [looksOf]
  | some x => simp [looksOf, List.filter_append, h x rfl]

theorem looksOf_append_other {i j : Nat} {log : List Look} {k : Option Look} (hne : j ≠ i)
    (h : ∀ x ∈ k, x.request = i) : looksOf j (log ++ k.toList) = looksOf j log := by
  cases k with
  | none => simp [looksOf]
  | some x => simp [looksOf, List.filter_append, h x rfl, Ne.symm hne]

theorem Task.request_look {i : Nat} {s : ServerState} {t : Task} :
    ∀ x ∈ t.look i s, x.request = i := by
  intro x hx
  unfold Task.look at hx
  split at hx
  · cases hx; rfl
  · cases hx; rfl
  · cases hx

theorem Task.hit_look {i : Nat} {s : ServerState} {t : Task}
    (hcold : ∀ cid, s.edge.cache.entries.lookup cid = none) : ∀ x ∈ t.look i s, x.hit = false := by
  have hmiss : (s.edge.cache.get t.req.cid t.now).1.isSome = false := by
    rw [EdgeCache.get_isSome, EdgeCache.containsFresh, hcold]
  intro x hx
  unfold Task.look at hx
  split at hx
  · cases hx; exact hmiss
  · cases hx; exact hmiss
  · cases hx

namespace Accounted

variable {env : ServerEnv} {s₀ s' : ServerState} {y : Sys} {log : List Look}

/-- A request that steps without a `get`, and what leaves the reads alone. -/
theorem quiet (h : Accounted s₀ y log) {ts : List Task}
    (hreads : s'.edge.cache.reads = y.shared.edge.cache.reads)
    (hentries : ∀ cid, y.shared.edge.cache.entries.lookup cid = none →
      s'.edge.cache.entries.lookup cid = none)
    (hlen : y.tasks.length ≤ ts.length)
    (hlooked : ∀ (i : Nat) (t : Task), ts[i]? = some t → t.phase.Looked i (looksOf i log)) :
    Accounted s₀ ⟨s', ts⟩ log := by
  refine ⟨?_, fun k hk => (h.known k hk).trans_le hlen, hlooked, fun hs => ⟨fun hlog cid => ?_, ?_⟩⟩
  · rw [hreads]; exact h.counts
  · exact hentries cid ((h.cold hs).1 hlog cid)
  · exact (h.cold hs).2

theorem piece {o : Orders} {i : Nat} {t t' : Task} (h : Accounted s₀ y log)
    (hi : y.tasks[i]? = some t) (hpiece : Task.Piece env o y.shared t s' t') :
    Accounted s₀ ⟨s', y.tasks.set i t'⟩ (log ++ (t.look i y.shared).toList) := by
  have hlt : i < y.tasks.length := (List.getElem?_eq_some_iff.1 hi).1
  refine ⟨?_, fun k hk => ?_, fun j u hj => ?_, fun hs => ⟨fun hlog cid => ?_, fun k hk => ?_⟩⟩
  · rw [List.length_append, ← Nat.add_assoc, ← h.counts]
    exact hpiece.reads i
  · rw [List.length_set]
    rcases List.mem_append.1 hk with hk | hk
    · exact h.known k hk
    · rw [Task.request_look k (Option.mem_toList.1 hk)]
      exact hlt
  · obtain ⟨rfl, rfl⟩ | ⟨hji, hj⟩ := Places.getElem?_set_cases hj
    · rw [looksOf_append_self Task.request_look]
      exact hpiece.looked (h.looked j t hi)
    · rw [looksOf_append_other hji Task.request_look]
      exact h.looked j u hj
  · obtain ⟨rfl, hnone⟩ := List.append_eq_nil_iff.1 hlog
    rw [Option.toList_eq_nil_iff] at hnone
    rcases hpiece.entries hnone with ⟨l, max, res, hp⟩ | heq
    · have hl := h.looked i t hi
      rw [hp] at hl
      cases hl
    · rw [heq]
      exact (h.cold hs).1 rfl cid
  · cases hlog : log with
    | nil =>
      rw [hlog, List.nil_append, Option.head?_toList] at hk
      exact Task.hit_look ((h.cold hs).1 hlog) k hk
    | cons x log' =>
      rw [hlog] at hk
      exact (h.cold hs).2 k (by rw [hlog]; exact hk)

/-- A request put in the place of one that made the same looks. -/
theorem looked_set {i : Nat} {t t' : Task} (h : Accounted s₀ y log) (hi : y.tasks[i]? = some t)
    (hto : t.phase.Looked i (looksOf i log) → t'.phase.Looked i (looksOf i log)) :
    ∀ (j : Nat) (u : Task), (y.tasks.set i t')[j]? = some u → u.phase.Looked j (looksOf j log) := by
  intro j u hj
  obtain ⟨rfl, rfl⟩ | ⟨-, hj⟩ := Places.getElem?_set_cases hj
  · exact hto (h.looked j t hi)
  · exact h.looked j u hj

theorem step {l : Label} {y' : Sys} (h : Accounted s₀ y log) (hs : Sys.step env y l = some y') :
    Accounted s₀ y' (log ++ (y.look l).toList) := by
  cases Sys.moves_of_step hs with
  | arrive req now =>
    simp only [Sys.look, Option.toList_none, List.append_nil]
    refine h.quiet rfl (fun _ hn => hn) (by simp) fun i t hi => ?_
    rw [List.getElem?_append] at hi
    split at hi
    · exact h.looked i t hi
    · next hlen =>
      obtain rfl := List.mem_singleton.1 (List.mem_of_getElem? hi)
      refine List.filter_eq_nil_iff.2 fun k hk hki => hlen ?_
      rw [← eq_of_beq hki]
      exact h.known k hk
  | @piece i o t t' s' hi hpiece =>
    simp only [Sys.look, hi, Option.bind_some]
    exact h.piece hi hpiece
  | answered res hi hp =>
    simp only [Sys.look, Option.toList_none, List.append_nil]
    refine h.quiet rfl (fun _ hn => hn) (by simp) (h.looked_set hi fun hl => ?_)
    rw [hp] at hl
    exact hl
  | @cancelled i t t' s' hi hc =>
    simp only [Sys.look, Option.toList_none, List.append_nil]
    have hedge := Task.edge_cancel hc
    obtain ⟨rfl, -⟩ := Task.cancel_cases hc
    exact h.quiet (by rw [hedge]) (by rw [hedge]; exact fun _ hn => hn) (by simp)
      (h.looked_set hi fun _ => trivial)
  | swept o now =>
    simp only [Sys.look, Option.toList_none, List.append_nil]
    exact h.quiet (EdgeCache.reads_sweepExpired _ _ _)
      (fun _ hn => EdgeCache.lookup_sweepExpired_of_none hn) le_rfl h.looked
  | purged cid =>
    simp only [Sys.look, Option.toList_none, List.append_nil]
    exact h.quiet (EdgeCache.reads_dropEntry _ _)
      (fun _ hn => (EdgeCache.evicts_dropEntry cid _).none hn) le_rfl h.looked

theorem start (s : ServerState) : Accounted s (Sys.start s) [] :=
  ⟨rfl, nofun, nofun, fun hs => ⟨fun _ cid => by rw [Sys.start, hs]; rfl, nofun⟩⟩

end Accounted

/-! ## Once or twice -/

/-- Each look is a hit exactly when each request that looked was counted once. -/
theorem Accounted.countedOnce_iff {s₀ : ServerState} {y : Sys} {log : List Look}
    (h : Accounted s₀ y log) (hzero : s₀.edge.cache.reads = 0)
    (hdone : ∀ t ∈ y.tasks, ∃ resp, t.phase = .done resp) :
    ReadsCountedOnce y.shared.edge.cache log ↔ ∀ k ∈ log, k.hit = true := by
  have hof : ∀ i ∈ lookedUp log, looksOf i log = [⟨i, false, true⟩] ∨
      ∃ hit, looksOf i log = [⟨i, false, false⟩, ⟨i, true, hit⟩] := by
    intro i hi
    obtain ⟨k, hk, rfl⟩ := List.mem_map.1 (List.mem_toFinset.1 hi)
    obtain ⟨t, ht⟩ : ∃ t, y.tasks[k.request]? = some t :=
      ⟨_, List.getElem?_eq_getElem (h.known k hk)⟩
    obtain ⟨resp, hp⟩ := hdone t (List.mem_of_getElem? ht)
    have hl := h.looked k.request t ht
    rw [hp] at hl
    obtain hl | hl := hl
    · have hmem : k ∈ looksOf k.request log := List.mem_filter.2 ⟨hk, beq_self_eq_true _⟩
      rw [hl] at hmem
      cases hmem
    · exact hl
  constructor
  · intro honce k hk
    have hi : k.request ∈ lookedUp log := List.mem_toFinset.2 (List.mem_map_of_mem hk)
    have hmem : k ∈ looksOf k.request log := List.mem_filter.2 ⟨hk, beq_self_eq_true _⟩
    obtain hl | ⟨hit, hl⟩ := hof _ hi
    · rw [hl, List.mem_singleton] at hmem
      rw [hmem]
    · have hone := honce.2 _ hi
      rw [hl] at hone
      cases hone
  · intro hhits
    have hone : ∀ i ∈ lookedUp log, (looksOf i log).length = 1 := by
      intro i hi
      obtain hl | ⟨hit, hl⟩ := hof i hi
      · rw [hl]; rfl
      · have hmem : (⟨i, false, false⟩ : Look) ∈ looksOf i log := by
          rw [hl]; exact List.mem_cons_self
        exact nomatch hhits _ (List.mem_filter.1 hmem).1
    have hnodup : (log.map Look.request).Nodup := by
      refine List.nodup_iff_count_le_one.2 fun i => ?_
      by_cases hi : i ∈ log.map Look.request
      · have hcount : (log.map Look.request).count i = (looksOf i log).length := by
          rw [List.count, List.countP_map, looksOf, ← List.countP_eq_length_filter]
          rfl
        rw [hcount, hone i (List.mem_toFinset.2 hi)]
      · rw [List.count_eq_zero.2 hi]
        exact Nat.zero_le 1
    refine ⟨?_, hone⟩
    have hcounts := h.counts
    rw [hzero, Nat.zero_add] at hcounts
    rw [lookedUp, List.toFinset_card_of_nodup hnodup, List.length_map]
    exact hcounts

/-- **When hits and misses count each read once.** In a run from an empty cache
whose requests have all been answered, the counters add up to all `get`s, a
request's one or two. They count each request that looked its object up once
only if there is none: the first look into an empty cache misses, and the
request looks again under the lock. -/
theorem reads_counted_once_iff (env : ServerEnv) (s : ServerState)
    (hempty : s.edge.cache.entries = ∅) (hzero : s.edge.cache.reads = 0) (ls : List Label) (y : Sys)
    (hrun : run (Sys.step env) (Sys.start s) ls = some y)
    (hdone : ∀ t ∈ y.tasks, ∃ resp, t.phase = .done resp) :
    y.shared.edge.cache.stats.hits + y.shared.edge.cache.stats.misses =
      (looks env (Sys.start s) ls).length ∧
    (ReadsCountedOnce y.shared.edge.cache (looks env (Sys.start s) ls) ↔
      looks env (Sys.start s) ls = []) := by
  have h : Accounted s y ([] ++ looks env (Sys.start s) ls) :=
    events_run_invariant (G := fun _ _ => True) (fun _ _ _ _ hy _ hs => hy.step hs)
      (Accounted.start s) (guarded_of_forall (fun _ _ _ => trivial) _) hrun
  rw [List.nil_append] at h
  have hcounts := h.counts
  rw [hzero, Nat.zero_add] at hcounts
  refine ⟨hcounts, ?_⟩
  rw [h.countedOnce_iff hzero hdone]
  cases hlog : looks env (Sys.start s) ls with
  | nil => simp
  | cons k log =>
    have hmiss : k.hit = false := (h.cold hempty).2 k (by rw [hlog]; rfl)
    constructor
    · intro hhits
      rw [hhits k List.mem_cons_self] at hmiss
      cases hmiss
    · intro hnil
      cases hnil

/-! ### One read of a cold object, and one that needs no look -/

/-- A request that is served what the origin answers. -/
def coldRead : List Label :=
  .arrive plainReq 50 :: List.replicate 9 (.step 0 sampleOrders) ++
    .answer 0 (some [1, 2]) :: List.replicate 4 (.step 0 sampleOrders)

/-- Two misses are counted for it. -/
theorem coldRead_counts :
    (run (Sys.step sampleEnv) (.start publicState) coldRead).map (fun y =>
      (y.tasks.map Task.status, y.shared.edge.cache.stats.hits + y.shared.edge.cache.stats.misses)) =
        some ([some 200], 2) ∧
    (lookedUp (looks sampleEnv (.start publicState) coldRead)).card = 1 := by
  decide +kernel

theorem reads_counted_twice :
    ¬ ∀ (env : ServerEnv) (s : ServerState) (_ : s.edge.cache.entries = ∅)
      (_ : s.edge.cache.reads = 0) (ls : List Label) (y : Sys)
      (_ : run (Sys.step env) (Sys.start s) ls = some y)
      (_ : ∀ t ∈ y.tasks, ∃ resp, t.phase = .done resp),
      ReadsCountedOnce y.shared.edge.cache (looks env (Sys.start s) ls) := by
  intro h
  obtain ⟨y, hrun, hy⟩ := Option.map_eq_some_iff.1 coldRead_counts.1
  obtain ⟨hstatus, hcount⟩ := Prod.mk.inj hy
  have honce := (h sampleEnv publicState rfl rfl coldRead y hrun (fun t ht => ?_)).1
  · rw [hcount, coldRead_counts.2] at honce
    cases honce
  · have hmem : t.status ∈ y.tasks.map Task.status := List.mem_map_of_mem ht
    rw [hstatus, List.mem_singleton] at hmem
    obtain ⟨resp, hp, -⟩ := Task.done_of_status hmem
    exact ⟨resp, hp⟩

/-- A request that has the object, answered 304. -/
def knownRead : List Label :=
  .arrive { plainReq with headers := [("if-none-match", utf8 "\"a\"")] } 50 ::
    List.replicate 2 (.step 0 sampleOrders)

theorem knownRead_statuses :
    (run (Sys.step sampleEnv) (.start publicState) knownRead).map
      (fun y => y.tasks.map Task.status) = some [some 304] ∧
    looks sampleEnv (.start publicState) knownRead = [] := by
  decide +kernel

theorem reads_counted_once_sample :
    ∃ y, run (Sys.step sampleEnv) (.start publicState) knownRead = some y ∧
      ReadsCountedOnce y.shared.edge.cache (looks sampleEnv (.start publicState) knownRead) := by
  obtain ⟨y, hrun, hstatus⟩ := Option.map_eq_some_iff.1 knownRead_statuses.1
  refine ⟨y, hrun, ((reads_counted_once_iff sampleEnv publicState rfl rfl knownRead y hrun
    fun t ht => ?_).2).2 knownRead_statuses.2⟩
  have hmem : t.status ∈ y.tasks.map Task.status := List.mem_map_of_mem ht
  rw [hstatus, List.mem_singleton] at hmem
  obtain ⟨resp, hp, -⟩ := Task.done_of_status hmem
  exact ⟨resp, hp⟩

end CeCdn
