/-
Where the front-end's cached answers come from. A run has a history: what the
origin answered, what was stored and purged, and which requests were answered
from the cache. Every hit is of bytes that the origin answered for that CID,
stored no longer ago than the cache's TTL and not purged since; and every
response that says `X-Cache: HIT` is shaped from the bytes of its hit
(`hits_explained`).
-/
import CeCdn.Herd
import CeCdn.Lib.Log

namespace CeCdn

open Lib Log Machine Text Word

namespace EdgeCache

/-- When an object expires that is stored at a time. -/
def expiry (ttlSecs now : Nat) : Nat := if ttlSecs = 0 then u64Max else satAdd now ttlSecs

/-- After an insert a key holds the new bytes with their time, or the entry it
held before. -/
theorem lookup_insert_expiry {ord : IterOrder String CacheEntry} {cid : String} {bytes : Bytes}
    {now : Nat} {c : EdgeCache} {k : String} {e : CacheEntry}
    (h : (insert ord cid bytes now c).2.entries.lookup k = some e) :
    (k = cid ∧ e.bytes = bytes ∧ e.expiresAt = expiry c.defaultTtlSecs now) ∨
      c.entries.lookup k = some e := by
  unfold insert at h
  by_cases hlen : bytes.length ≤ c.maxBytes
  · obtain ⟨c', hev, -, heq⟩ := insertWithTtl_eq ord cid c.defaultTtlSecs now hlen
    rw [heq] at h
    obtain ⟨hk, rfl⟩ | ⟨-, hold⟩ := HashMap.lookup_insert_eq_some.1 h
    · exact .inl ⟨hk, rfl, rfl⟩
    · exact .inr ((evicts_dropEntry cid c).sub k e (hev.sub k e hold))
  · rw [insertWithTtl_of_lt ord cid _ now (Nat.not_le.1 hlen)] at h
    exact .inr h

/-- A read leaves of an entry its bytes and its time. -/
theorem lookup_get_expiry {cid : String} {now : Nat} {c : EdgeCache} {k : String} {e : CacheEntry}
    (h : (get cid now c).2.entries.lookup k = some e) :
    ∃ e', c.entries.lookup k = some e' ∧ e'.bytes = e.bytes ∧ e'.expiresAt = e.expiresAt := by
  obtain ⟨e', he', -, hg⟩ | ⟨e', -, -, hg⟩ | ⟨-, hg⟩ := get_cases cid now c
  · rw [hg] at h
    obtain ⟨rfl, rfl⟩ | ⟨-, hold⟩ := HashMap.lookup_insert_eq_some.1 h
    · exact ⟨e', he', rfl, rfl⟩
    · exact ⟨e, hold, rfl, rfl⟩
  · rw [hg] at h
    exact ⟨e, (evicts_dropEntry cid c).sub k e h, rfl, rfl⟩
  · rw [hg] at h
    exact ⟨e, h, rfl, rfl⟩

end EdgeCache

open EdgeCache

/-- What happens in a run to what is cached. -/
inductive CacheEvent where
  /-- The origin answered the request. -/
  | fetched (request : Nat) (cid : String) (b : Bytes)
  | stored (request : Nat) (cid : String) (b : Bytes) (now : Nat)
  /-- The request found the bytes in the cache. -/
  | hit (request : Nat) (cid : String) (b : Bytes) (now : Nat)
  | purged (cid : String)
deriving DecidableEq

namespace CacheEvent

/-- Bytes were stored for the CID that have not expired, and not purged since. -/
def Fresh (ttlSecs : Nat) (cid : String) (b : Bytes) (now : Nat) : List CacheEvent → Prop :=
  Since (fun ev => ∃ i t, ev = .stored i cid b t ∧ now ≤ expiry ttlSecs t) (· = .purged cid)

/-- What went before an event. -/
def Explained (ttlSecs : Nat) (log : List CacheEvent) : CacheEvent → Prop
  | .fetched _ _ _ | .purged _ => True
  | .stored i cid b _ => .fetched i cid b ∈ log
  | .hit _ cid b now => Fresh ttlSecs cid b now log

end CacheEvent

/-- What the next piece of request `i` does. -/
def Task.cacheEvent (i : Nat) (s : ServerState) (t : Task) : Option CacheEvent :=
  match t.phase with
  | .lookup _ | .recheck _ _ =>
    (s.edge.cache.get t.req.cid t.now).1.map fun b => .hit i t.req.cid b t.now
  | .fetched _ max (some b) => if b.length ≤ max then some (.stored i t.req.cid b t.now) else none
  | _ => none

def Sys.cacheEvent (y : Sys) : Label → Option CacheEvent
  | .step i _ => (y.tasks[i]?).bind fun t => t.cacheEvent i y.shared
  | .answer i res => (y.tasks[i]?).bind fun t => res.map fun b => .fetched i t.req.cid b
  | .purge cid => some (.purged cid)
  | _ => none

/-- The history of a run. -/
def cacheHistory (env : ServerEnv) : Sys → List Label → List CacheEvent :=
  events (Sys.step env) Sys.cacheEvent

/-! ## The response of a hit -/

/-- It says that its bytes come from the cache. A 304 has none. -/
def HttpResponse.SaysHit (resp : HttpResponse) : Prop :=
  ("X-Cache", "HIT") ∈ resp.headers ∧ resp.status ≠ 304

instance (resp : HttpResponse) : Decidable resp.SaysHit :=
  inferInstanceAs (Decidable (("X-Cache", "HIT") ∈ resp.headers ∧ resp.status ≠ 304))

theorem Edge.not_hit_serve (cid : String) (b : Bytes) (rangeHeader : Option String)
    (access : Access) (cache : EdgeCache) (now : Nat) :
    ("X-Cache", "HIT") ∉ (Edge.serve cid b rangeHeader access cache now false).headers := by
  have hcache : ("X-Cache", "HIT") ∉ Edge.cacheHeaders cid cache now false := by
    unfold Edge.cacheHeaders
    cases cache.age cid now <;> simp
  by_cases ha : access = .denied
  · simp [Edge.serve, ha, Edge.deniedResponse]
  · obtain ⟨-, h⟩ | ⟨r, -, -, h⟩ | ⟨-, h⟩ := Edge.serve_cases cid b rangeHeader cache now false ha
    · rw [h]
      simpa using hcache
    · rw [h]
      simpa using hcache
    · rw [h]
      simp

theorem Task.not_saysHit_respond (s : ServerState) (t : Task) (b : Bytes) :
    ¬ (t.respond s b false).SaysHit := by
  intro ⟨h, _⟩
  have hmem : ("X-Cache", "HIT") ∈ (toHttp (Edge.serve t.req.cid b
      ((t.req.header "range").map String.ofList) t.grant.access s.edge.cache t.now false)).headers := by
    unfold Task.respond at h
    simp only at h
    split at h
    · exact h
    · exact h
  exact Edge.not_hit_serve _ _ _ _ _ _ (List.mem_filter.1 hmem).1

/-! ## One request -/

/-- What a request carries: bytes of the origin, bytes of the cache, a response. -/
def Phase.Carried (F P : Bytes → Prop) (R : HttpResponse → Prop) : Phase → Prop
  | .fetched _ _ (some b) => F b
  | .unlock _ (.bytes b hit) | .unref _ (.bytes b hit) | .shape b hit => hit = true → P b
  | .unlock _ (.reply resp) | .unref _ (.reply resp) | .done resp => R resp
  | _ => True

/-- What the request carries is in the log. -/
def Task.Traced (log : List CacheEvent) (i : Nat) (t : Task) : Prop :=
  t.phase.Carried (fun b => .fetched i t.req.cid b ∈ log)
    (fun b => .hit i t.req.cid b t.now ∈ log)
    fun resp => resp.SaysHit → ∃ b s, .hit i t.req.cid b t.now ∈ log ∧ resp = t.respond s b true

section

variable {env : ServerEnv} {o : Orders} {s s' : ServerState} {t t' : Task} {i : Nat}
  {log log' : List CacheEvent}

theorem Task.Traced.mono (hsub : log ⊆ log') (h : t.Traced log i) : t.Traced log' i := by
  have hresp : ∀ resp : HttpResponse,
      (resp.SaysHit → ∃ b s, .hit i t.req.cid b t.now ∈ log ∧ resp = t.respond s b true) →
      resp.SaysHit → ∃ b s, .hit i t.req.cid b t.now ∈ log' ∧ resp = t.respond s b true := by
    intro resp hr hs
    obtain ⟨b, s, hb, heq⟩ := hr hs
    exact ⟨b, s, hsub hb, heq⟩
  unfold Traced at h ⊢
  cases hp : t.phase with
  | fetched l max res =>
    rw [hp] at h
    cases res with
    | none => trivial
    | some b => exact hsub h
  | unlock l found | unref l found =>
    rw [hp] at h
    cases found with
    | bytes b hit => exact fun hh => hsub (h hh)
    | reply resp => exact hresp resp h
  | shape b hit =>
    rw [hp] at h
    exact fun hh => hsub (h hh)
  | done resp =>
    rw [hp] at h
    exact hresp resp h
  | _ => trivial

/-- A piece of a request carries on what is in the log with what it adds. -/
theorem Task.Piece.traced (h : Piece env o s t s' t') (ht : t.Traced log i) :
    t'.Traced (log ++ (t.cacheEvent i s).toList) i := by
  have hdeny : ¬ (denyResponse t.req.cid t.now).SaysHit := by
    intro ⟨hmem, _⟩
    have hmem' := (List.mem_filter.1 hmem).1
    simp [Edge.serve, Edge.deniedResponse] at hmem'
  have habsent : ¬ t.absent.SaysHit := by
    intro ⟨hmem, _⟩
    have hmem' := (List.mem_filter.1 hmem).1
    simp [Edge.notFound] at hmem'
  have hmono := ht.mono (List.subset_append_left log (t.cacheEvent i s).toList)
  unfold Traced at ht hmono
  cases h with
  | denied | replayed => exact fun h => absurd h hdeny
  | negative | absent | renegative => exact fun h => absurd h habsent
  | notModified => exact fun h => absurd rfl h.2
  | tooLarge =>
    intro ⟨hmem, _⟩
    simp [textResponse] at hmem
  | hit hp hget | rehit hp hget =>
    intro _
    simp [Task.cacheEvent, hp, hget]
  | stored => exact nofun
  | @unlock l found hp =>
    rw [hp] at hmono
    cases found with
    | bytes b hit => exact hmono
    | reply resp => exact hmono
  | unrefBytes hp | unrefReply hp =>
    rw [hp] at hmono
    exact hmono
  | @shape b hit hp =>
    rw [hp] at hmono
    intro hs
    cases hit with
    | false => exact absurd hs (not_saysHit_respond s t b)
    | true => exact ⟨b, s, hmono rfl, rfl⟩
  | granted | popAndCap | letThrough | modified | fresh | notNegative | budget | miss | flight
  | acquire | remiss | call => trivial

/-- What a piece leaves in the cache was there, or is stored by it. -/
theorem Task.Piece.entry (h : Piece env o s t s' t') (i : Nat) {k : String} {e : CacheEntry}
    (he : s'.edge.cache.entries.lookup k = some e) :
    (∃ e', s.edge.cache.entries.lookup k = some e' ∧ e'.bytes = e.bytes ∧
      e'.expiresAt = e.expiresAt) ∨
    t.cacheEvent i s = some (.stored i k e.bytes t.now) ∧
      e.expiresAt = expiry s.edge.cache.defaultTtlSecs t.now := by
  have hneg : ∀ c : EdgeCache, (c.isNegative t.req.cid t.now).2.entries = c.entries := by
    intro c
    obtain ⟨ts, n, heq⟩ := isNegative_frame t.req.cid t.now c
    rw [heq]
  obtain ⟨-, hc | ⟨-, hc⟩ | hc | ⟨-, hc⟩ | ⟨l, max, b, hp, hlen, hc⟩ | ⟨l, max, -, hc⟩⟩ :=
    h.edge_cases
  · rw [hc] at he
    exact .inl ⟨e, he, rfl, rfl⟩
  · rw [hc, hneg] at he
    exact .inl ⟨e, he, rfl, rfl⟩
  · rw [hc] at he
    exact .inl (lookup_get_expiry he)
  · rw [hc, hneg] at he
    exact .inl (lookup_get_expiry he)
  · rw [hc] at he
    obtain ⟨rfl, rfl, hexp⟩ | hold := lookup_insert_expiry he
    · exact .inr ⟨by simp [Task.cacheEvent, hp, hlen], hexp⟩
    · exact .inl ⟨e, hold, rfl, rfl⟩
  · obtain ⟨ts, heq⟩ := noteAbsent_frame o.tombstones t.req.cid t.now s.edge.cache
    rw [hc, heq] at he
    exact .inl ⟨e, he, rfl, rfl⟩

end

/-! ## Runs -/

/-- The history so far accounts for the server and its requests. -/
structure Sys.Recounted (ttlSecs : Nat) (y : Sys) (log : List CacheEvent) : Prop where
  ttl : y.shared.edge.cache.defaultTtlSecs = ttlSecs
  cached : ∀ k e, y.shared.edge.cache.entries.lookup k = some e →
    Since (fun ev => ∃ i t, ev = .stored i k e.bytes t ∧ e.expiresAt = expiry ttlSecs t)
      (· = .purged k) log
  explained : Each (CacheEvent.Explained ttlSecs) log
  tasks : ∀ (i : Nat) (t : Task), y.tasks[i]? = some t → t.Traced log i

namespace Sys.Recounted

variable {env : ServerEnv} {ttlSecs : Nat} {y : Sys} {log : List CacheEvent}

/-- A piece reports what can be explained. -/
theorem explained_piece {i : Nat} {t : Task} (hy : y.Recounted ttlSecs log)
    (hi : y.tasks[i]? = some t) :
    ∀ ev ∈ t.cacheEvent i y.shared, CacheEvent.Explained ttlSecs log ev ∧
      ∀ k, ev ≠ .purged k := by
  intro ev hev
  have hhit : ∀ {b : Bytes}, (y.shared.edge.cache.get t.req.cid t.now).1 = some b →
      CacheEvent.Fresh ttlSecs t.req.cid b t.now log := by
    intro b hget
    obtain ⟨e, he, rfl, hnow⟩ := get_eq_some hget
    obtain ⟨before, ev, after, heq, ⟨j, t₀, rfl, hexp⟩, hafter⟩ := hy.cached _ e he
    exact ⟨before, _, after, heq, ⟨j, t₀, rfl, hexp ▸ hnow⟩, hafter⟩
  have htask := hy.tasks i t hi
  unfold Task.cacheEvent at hev
  unfold Task.Traced at htask
  split at hev
  · obtain ⟨b, hget, rfl⟩ := Option.map_eq_some_iff.1 hev
    exact ⟨hhit hget, nofun⟩
  · obtain ⟨b, hget, rfl⟩ := Option.map_eq_some_iff.1 hev
    exact ⟨hhit hget, nofun⟩
  · next l max b hp =>
    rw [hp] at htask
    split at hev
    · cases hev
      exact ⟨htask, nofun⟩
    · cases hev
  · cases hev

/-- The tasks when one of them is set: it is traced, and the log only grows. -/
theorem tasks_set {i : Nat} {t' : Task} {log' : List CacheEvent} (hy : y.Recounted ttlSecs log)
    (hsub : log ⊆ log') (ht' : t'.Traced log' i) (j : Nat) (u : Task)
    (hj : (y.tasks.set i t')[j]? = some u) : u.Traced log' j := by
  obtain ⟨rfl, rfl⟩ | ⟨-, hj⟩ := Places.getElem?_set_cases hj
  · exact ht'
  · exact (hy.tasks j u hj).mono hsub

theorem arrive (hy : y.Recounted ttlSecs log) (req : HttpReq) (now : Nat) :
    Sys.Recounted ttlSecs { y with tasks := y.tasks ++ [.arrive req now] } log := by
  refine ⟨hy.ttl, hy.cached, hy.explained, fun j u hj => ?_⟩
  by_cases hlt : j < y.tasks.length
  · rw [List.getElem?_append_left hlt] at hj
    exact hy.tasks j u hj
  · rw [List.getElem?_append_right (Nat.not_lt.1 hlt)] at hj
    rw [List.mem_singleton.1 (List.mem_of_getElem? hj)]
    trivial

theorem piece {i : Nat} {o : Orders} {t t' : Task} {s' : ServerState}
    (hy : y.Recounted ttlSecs log) (hi : y.tasks[i]? = some t)
    (hpiece : Task.Piece env o y.shared t s' t') :
    Sys.Recounted ttlSecs ⟨s', y.tasks.set i t'⟩ (log ++ (t.cacheEvent i y.shared).toList) := by
  have hexp := hy.explained_piece hi
  have hconfig : s'.edge.cache.defaultTtlSecs = ttlSecs :=
    (congrArg (fun c => c.2.1) hpiece.config).trans hy.ttl
  refine ⟨hconfig, fun k e he => ?_, ?_,
    hy.tasks_set (List.subset_append_left log _) (hpiece.traced (hy.tasks i t hi))⟩
  · obtain ⟨e', he', hb, ht⟩ | ⟨hstore, ht⟩ := hpiece.entry i he
    · have hold := hy.cached k e' he'
      rw [hb, ht] at hold
      cases hc : t.cacheEvent i y.shared with
      | none => rwa [Option.toList_none, List.append_nil]
      | some ev => exact hold.concat ((hexp ev hc).2 k)
    · rw [hstore]
      exact since_concat ⟨i, t.now, rfl, hy.ttl ▸ ht⟩
  · cases hc : t.cacheEvent i y.shared with
    | none => rw [Option.toList_none, List.append_nil]; exact hy.explained
    | some ev => exact hy.explained.concat (hexp ev hc).1

theorem answered {i l max : Nat} {t : Task} (hy : y.Recounted ttlSecs log) (res : Option Bytes) :
    Sys.Recounted ttlSecs { y with tasks := y.tasks.set i (t.goto (.fetched l max res)) }
      (log ++ (res.map fun b => CacheEvent.fetched i t.req.cid b).toList) := by
  cases res with
  | none =>
    rw [Option.map_none, Option.toList_none, List.append_nil]
    exact ⟨hy.ttl, hy.cached, hy.explained, hy.tasks_set (List.Subset.refl log) trivial⟩
  | some b =>
    refine ⟨hy.ttl, fun k e he => (hy.cached k e he).concat nofun, hy.explained.concat trivial,
      hy.tasks_set (List.subset_append_left log _) ?_⟩
    exact List.mem_append_right log (List.mem_singleton_self _)

theorem cancelled {i : Nat} {t t' : Task} {s' : ServerState} (hy : y.Recounted ttlSecs log)
    (hc : t.cancel y.shared = some (s', t')) :
    Sys.Recounted ttlSecs ⟨s', y.tasks.set i t'⟩ log := by
  have hedge := Task.edge_cancel hc
  obtain ⟨rfl, -⟩ := Task.cancel_cases hc
  refine ⟨?_, fun k e he => ?_, hy.explained, hy.tasks_set (List.Subset.refl log) trivial⟩
  · rw [hedge]
    exact hy.ttl
  · rw [hedge] at he
    exact hy.cached k e he

theorem swept (hy : y.Recounted ttlSecs log) (o : Orders) (now : Nat) :
    Sys.Recounted ttlSecs
      { y with shared := y.shared.setCache (y.shared.edge.cache.sweepExpired o.entries now).2 }
      log := by
  refine ⟨?_, fun k e he => hy.cached k e (lookup_sweepExpired he), hy.explained, hy.tasks⟩
  exact (congrArg (fun c => c.2.1) (config_sweepExpired o.entries now y.shared.edge.cache)).trans
    hy.ttl

theorem purged (hy : y.Recounted ttlSecs log) (cid : String) :
    Sys.Recounted ttlSecs
      { y with shared := y.shared.setCache (y.shared.edge.cache.purge cid).2 }
      (log ++ [.purged cid]) := by
  refine ⟨?_, fun k e he => ?_, hy.explained.concat trivial,
    fun j u hj => (hy.tasks j u hj).mono (List.subset_append_left log _)⟩
  · exact (congrArg (fun c => c.2.1) (config_dropEntry cid y.shared.edge.cache)).trans hy.ttl
  · rw [show (y.shared.setCache (y.shared.edge.cache.purge cid).2).edge.cache =
      (y.shared.edge.cache.purge cid).2 from rfl, purge, dropEntry_snd] at he
    obtain ⟨hk, hold⟩ := HashMap.lookup_erase_eq_some.1 he
    refine (hy.cached k e hold).concat fun heq => hk ?_
    cases heq
    rfl

theorem step {y' : Sys} {l : Label} (hy : y.Recounted ttlSecs log)
    (h : Sys.step env y l = some y') : y'.Recounted ttlSecs (log ++ (y.cacheEvent l).toList) := by
  cases Sys.moves_of_step h with
  | arrive req now =>
    rw [show y.cacheEvent (.arrive req now) = none from rfl, Option.toList_none, List.append_nil]
    exact hy.arrive req now
  | @piece i o t t' s' hi hpiece =>
    rw [Sys.cacheEvent, hi, Option.bind_some]
    exact hy.piece hi hpiece
  | @answered i l max t res hi hp =>
    have hev : y.cacheEvent (.answer i res) = res.map fun b => .fetched i t.req.cid b := by
      cases res <;> simp [Sys.cacheEvent, hi]
    rw [hev]
    exact hy.answered res
  | @cancelled i t t' s' hi hc =>
    rw [show y.cacheEvent (.cancel i) = none from rfl, Option.toList_none, List.append_nil]
    exact hy.cancelled hc
  | swept o now =>
    rw [show y.cacheEvent (.sweep o now) = none from rfl, Option.toList_none, List.append_nil]
    exact hy.swept o now
  | purged cid => exact hy.purged cid

end Sys.Recounted

/-- **What is answered from the cache came from the origin, and is fresh.** From
an empty cache, in every run: each hit is of bytes that were stored for the CID,
for no longer than the TTL and with no purge since, and what was stored the
origin had answered to the very request that stored it. Every response but a 304
that says `X-Cache: HIT` is shaped from the bytes of its request's hit. -/
theorem hits_explained (env : ServerEnv) (s : ServerState) (hempty : s.edge.cache.entries = ∅)
    (ls : List Label) (y : Sys) (hrun : run (Sys.step env) (.start s) ls = some y) :
    Each (CacheEvent.Explained s.edge.cache.defaultTtlSecs) (cacheHistory env (.start s) ls) ∧
    ∀ (i : Nat) (t : Task) (resp : HttpResponse), y.tasks[i]? = some t → t.phase = .done resp →
      resp.SaysHit → ∃ b s', .hit i t.req.cid b t.now ∈ cacheHistory env (.start s) ls ∧
        resp = t.respond s' b true := by
  have hstart : (Sys.start s).Recounted s.edge.cache.defaultTtlSecs [] := by
    refine ⟨rfl, fun k e he => ?_, each_nil _, fun i t h => nomatch h⟩
    rw [show (Sys.start s).shared = s from rfl, hempty, AList.lookup_empty] at he
    cases he
  have hy : y.Recounted s.edge.cache.defaultTtlSecs ([] ++ cacheHistory env (.start s) ls) :=
    events_run_invariant (fun _ _ _ _ hy _ h => hy.step h) hstart
      (guarded_of_forall (G := fun _ _ => True) (fun _ _ _ => trivial) _) hrun
  rw [List.nil_append] at hy
  refine ⟨hy.explained, fun i t resp hi hp hhit => ?_⟩
  have ht := hy.tasks i t hi
  unfold Task.Traced at ht
  rw [hp] at ht
  exact ht hhit

/-! ### A cold read and a hot one -/

def ttlState : ServerState := .new { EdgeState.new 100 30 with publicSet := {"a"} }

/-- The second request comes twenty seconds after the first. -/
def coldThenHot : List Label :=
  .arrive plainReq 10 :: List.replicate 9 (.step 0 sampleOrders) ++
    .answer 0 (some [1, 2]) :: List.replicate 4 (.step 0 sampleOrders) ++
    .arrive plainReq 30 :: List.replicate 6 (.step 1 sampleOrders)

/-- The requests that were answered from the cache. -/
def Sys.hits (y : Sys) : List Bool :=
  y.tasks.map fun t =>
    match t.phase with
    | .done resp => decide resp.SaysHit
    | _ => false

theorem hits_coldThenHot :
    (run (Sys.step sampleEnv) (.start ttlState) coldThenHot).map Sys.hits = some [false, true] := by
  decide +kernel

theorem hits_explained_sample :
    ∃ y t resp b s, run (Sys.step sampleEnv) (.start ttlState) coldThenHot = some y ∧
      y.tasks[1]? = some t ∧ t.phase = .done resp ∧ resp = t.respond s b true ∧
      .hit 1 t.req.cid b t.now ∈ cacheHistory sampleEnv (.start ttlState) coldThenHot ∧
      Each (CacheEvent.Explained 30) (cacheHistory sampleEnv (.start ttlState) coldThenHot) := by
  obtain ⟨y, hrun, hy⟩ := Option.map_eq_some_iff.1 hits_coldThenHot
  obtain ⟨hexp, hresp⟩ := hits_explained sampleEnv ttlState rfl coldThenHot y hrun
  have h1 : y.hits[1]? = some true := by rw [hy]; rfl
  rw [Sys.hits, List.getElem?_map] at h1
  obtain ⟨t, ht, hdone⟩ := Option.map_eq_some_iff.1 h1
  split at hdone
  · next resp hp =>
    obtain ⟨b, s, hhit, hshape⟩ := hresp 1 t resp ht hp (of_decide_eq_true hdone)
    exact ⟨y, t, resp, b, s, hrun, ht, hp, hshape, hhit, hexp⟩
  · cases hdone

end CeCdn
