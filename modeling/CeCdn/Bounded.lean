/-
What the HTTP front-end keeps between requests. Whatever is requested, and for
how long: the bytes of the cache stay within the budget, the tombstones and the
replay guard within their capacities, and the in-flight map within what its
prune leaves. The prune runs only when a lock is asked for, so the map follows
the CIDs to whose locks requests had handles at one time, not those of now, and
never how many were asked for (`state_bounded`).
-/
import CeCdn.CacheInvariant
import CeCdn.ReplayOnce
import CeCdn.Pages

namespace CeCdn

open Lib Machine

/-- What is kept, with handles to the locks of at most `k` CIDs at one time. -/
structure ServerState.Bounded (maxBytes k : Nat) (s : ServerState) : Prop where
  bytes : HashMap.total (fun e => e.bytes.length) s.edge.cache.entries ≤ maxBytes
  tombstones : s.edge.cache.tombstones.entries.length ≤ DEFAULT_MAX_TOMBSTONES
  replay : s.replay.set.card ≤ REPLAY_GUARD_CAPACITY
  queue : s.replay.order.length ≤ REPLAY_GUARD_CAPACITY
  inflight : s.inflight.entries.length ≤ max 1025 (k + 1)

/-! ## The in-flight map -/

/-- The map changes where a lock is asked for. -/
theorem Task.Piece.inflight_cases {env : ServerEnv} {o : Orders} {s s' : ServerState} {t t' : Task}
    (h : Piece env o s t s' t') :
    s'.inflight = s.inflight ∨ s'.inflight = (s.inflightLock t.req.cid).2.inflight := by
  cases h with
  | flight => exact .inr rfl
  | _ => exact .inl rfl

theorem Sys.inflight_cases {env : ServerEnv} {y y' : Sys} {l : Label}
    (h : Sys.step env y l = some y') :
    y'.shared.inflight = y.shared.inflight ∨
      ∃ cid, y'.shared.inflight = (y.shared.inflightLock cid).2.inflight := by
  cases Sys.moves_of_step h with
  | piece hi hpiece => exact hpiece.inflight_cases.imp_right fun h => ⟨_, h⟩
  | cancelled hi hc =>
    obtain ⟨-, rfl | ⟨l, rfl⟩ | ⟨l, rfl⟩⟩ := Task.cancel_cases hc
    · exact .inl rfl
    · exact .inl rfl
    · exact .inl rfl
  | arrive | answered | swept | purged => exact .inl rfl

/-! ## The cache -/

theorem EdgeCache.bounded_final (maxBytes ttl : Nat) (ops : List (Orders × CacheOp)) :
    let c := final EdgeCache.step (new maxBytes ttl) ops
    HashMap.total (fun e => e.bytes.length) c.entries ≤ maxBytes ∧
      c.tombstones.entries.length ≤ DEFAULT_MAX_TOMBSTONES := by
  intro c
  obtain ⟨hc, hconfig⟩ : Invariant c ∧ c.config = (new maxBytes ttl).config :=
    final_invariant (I := fun c => Invariant c ∧ c.config = (new maxBytes ttl).config)
      (fun c op h => ⟨h.1.step op.1 op.2, (config_step op.1 op.2 c).trans h.2⟩)
      ⟨invariant_new maxBytes ttl DEFAULT_NEGATIVE_TTL_SECS, rfl⟩ ops
  obtain ⟨l, hl⟩ := hc.recency
  have hmax : c.maxBytes = maxBytes := congrArg Prod.fst hconfig
  have htomb : c.maxTombstones = DEFAULT_MAX_TOMBSTONES := congrArg (fun t => t.2.2.2) hconfig
  exact ⟨hmax ▸ hl.total_eq ▸ hc.budget, htomb ▸ hc.tombstones⟩

/-! ## Runs -/

/-- What a run of the front-end keeps of the map and the guard. -/
structure Sys.Kept (k : Nat) (y : Sys) : Prop where
  flights : Flights y
  guard : ∃ log, GuardRight REPLAY_GUARD_CAPACITY y log
  inflight : y.shared.inflight.entries.length ≤ max 1025 (k + 1)

theorem Sys.Kept.step {env : ServerEnv} {k : Nat} {y y' : Sys} {l : Label} (h : y.Kept k)
    (hbusy : y.referenced.card ≤ k) (hs : Sys.step env y l = some y') : y'.Kept k := by
  obtain ⟨log, hguard⟩ := h.guard
  refine ⟨h.flights.step hs, ⟨_, hguard.step hs⟩, ?_⟩
  obtain hsame | ⟨cid, hlock⟩ := Sys.inflight_cases hs
  · rw [hsame]
    exact h.inflight
  · rw [hlock]
    have hle := h.flights.length_inflight_le cid
    omega

theorem Sys.kept_start (maxBytes ttl k : Nat) (publicSet : Finset String) :
    (Front.start maxBytes ttl publicSet).Kept k where
  flights := Flights.start rfl
  guard := ⟨[], KeyRing.remembers_new _, KeyRing.spaced_nil _, rfl⟩
  inflight := Nat.zero_le _

theorem Front.kept {env : ServerEnv} {maxBytes ttl k : Nat} {publicSet : Finset String}
    {ls : List FrontLabel} {y : Sys}
    (hrun : run (Front.step env) (Front.start maxBytes ttl publicSet) ls = some y)
    (hbusy : Guarded (Front.step env) (fun y _ => y.referenced.card ≤ k)
      (Front.start maxBytes ttl publicSet) ls) : y.Kept k := by
  refine guarded_invariant (fun y l y' hy hle hs => ?_) (Sys.kept_start maxBytes ttl k publicSet)
    hbusy hrun
  obtain rfl | ⟨raw, now, req, -, -, rfl⟩ | ⟨l', -, -, hwork⟩ := Front.step_cases hs
  · exact hy
  · exact hy.step hle (show Sys.step env y (.arrive req now) = some _ from rfl)
  · exact hy.step hle hwork

/-- **What the server keeps is bounded.** In every run of the front-end in which
requests have handles to the locks of `k` CIDs at most at one time, however many
requests come and for however many CIDs: the cache is within its budget, the
tombstones and the replay guard within their capacities, and the in-flight map
has `max(1025, k + 1)` entries at most. -/
theorem state_bounded (env : ServerEnv) (maxBytes ttl k : Nat) (publicSet : Finset String)
    (ls : List FrontLabel) (y : Sys)
    (hrun : run (Front.step env) (Front.start maxBytes ttl publicSet) ls = some y)
    (hbusy : Guarded (Front.step env) (fun y _ => y.referenced.card ≤ k)
      (Front.start maxBytes ttl publicSet) ls) :
    y.shared.Bounded maxBytes k := by
  obtain ⟨ops, hc⟩ := Front.cache_eq hrun
  obtain ⟨hbytes, htombs⟩ := EdgeCache.bounded_final maxBytes ttl ops
  rw [← hc] at hbytes htombs
  have hkept := Front.kept hrun hbusy
  obtain ⟨log, hguard⟩ := hkept.guard
  have hqueue : y.shared.replay.order.length ≤ REPLAY_GUARD_CAPACITY :=
    hguard.capacity_eq ▸ hguard.remembers.length_le
  refine ⟨hbytes, htombs, ?_, hqueue, hkept.inflight⟩
  rw [hguard.remembers.set_eq]
  exact (List.toFinset_card_le _).trans hqueue

/-- A cold read has a handle to one lock. -/
theorem state_bounded_sample :
    ∃ y, run (Front.step sampleEnv) (Front.start 100 0 {"a"}) frontRead = some y ∧
      y.shared.Bounded 100 1 := by
  have hguard : Guarded (Front.step sampleEnv) (fun y _ => y.referenced.card ≤ 1)
      (Front.start 100 0 {"a"}) frontRead := by
    decide +kernel
  have hsome : (run (Front.step sampleEnv) (Front.start 100 0 {"a"}) frontRead).isSome = true := by
    decide +kernel
  obtain ⟨y, hrun⟩ := Option.isSome_iff_exists.1 hsome
  exact ⟨y, hrun, state_bounded sampleEnv 100 0 1 {"a"} frontRead y hrun hguard⟩

end CeCdn
