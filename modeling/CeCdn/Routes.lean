/-
The routes of the HTTP front-end (`handle` of `server.rs`): which requests are
answered at once, with a page made from the state, and which go to `serve_cid`.
Whatever comes in, in any order, the server keeps and asks for no CID but one
that an acceptable request named and was let read (`nothing_unasked`).

`Front.step` is the machine of `serve_cid` with raw requests in front of it.
-/
import CeCdn.CacheFlow
import CeCdn.Herd
import CeCdn.Lib.Exposition
import CeCdn.Lib.Ordered

namespace CeCdn

open Lib Text Machine Exposition

/-! ## Requests as they come in -/

/-- `other` is any method but `GET` and `HEAD`. -/
inductive Method where
  | get
  | head
  | other
deriving DecidableEq

/-- Header names are lower case; the query is empty when the target has none. -/
structure RawReq where
  method : Method
  path : String
  query : String
  headers : List (String × Bytes)

/-- Where `handle` sends a request. -/
inductive Route where
  | notAllowed
  | health
  | status
  | metrics
  | notFound
  | object (req : HttpReq)

def RawReq.route (raw : RawReq) : Route :=
  if raw.method = .other then .notAllowed
  else if raw.path = "/health" then .health
  else if raw.path = "/status" then .status
  else if raw.path = "/metrics" then .metrics
  else
    match cidOfPath raw.path.toList with
    | none => .notFound
    | some cid => .object ⟨cid, raw.method = .head, raw.headers, raw.query⟩

/-! ## The pages -/

/-- An `application/json` response. -/
def jsonResponse (status : Nat) (body : String) : HttpResponse :=
  ⟨status, [("Content-Type", "application/json")], utf8 body⟩

/-- `hitRatio` is the text of `CacheStats::hit_ratio`, to six decimals. -/
def statusJson (hitRatio : CacheStats → String) (stats : CacheStats) (held : List (String × Nat)) :
    String :=
  let sizes := held.map fun (cid, sz) => s!"\x7b\"cid\":\"{cid}\",\"bytes\":{sz}\x7d"
  let objects := ",".intercalate sizes
  let ratio := hitRatio stats
  s!"\x7b\"hits\":{stats.hits},\"misses\":{stats.misses},\"evictions\":{stats.evictions}," ++
    s!"\"expirations\":{stats.expirations},\"entries\":{stats.entries},\"bytes\":{stats.bytes}," ++
    s!"\"hit_ratio\":{ratio},\"objects\":[{objects}]\x7d"

/-- The public objects an edge holds and that are fresh, with their sizes. The
CIDs are distinct, so `held.sort()` puts them in the order of `toList`. -/
def EdgeState.held (e : EdgeState) (now : Nat) : List (String × Nat) :=
  (Ordered.toList e.publicSet).filterMap fun cid =>
    match e.cache.byteLen cid with
    | none => none
    | some sz => if e.cache.containsFresh cid now then some (cid, sz) else none

def metricsLines (stats : CacheStats) (objects : List (String × ObjectStat)) : List Line :=
  [.comment "# HELP ce_cdn_cache_hits_total Cache reads served from cache.",
    .comment "# TYPE ce_cdn_cache_hits_total counter",
    .sample "ce_cdn_cache_hits_total" stats.hits,
    .comment "# HELP ce_cdn_cache_misses_total Cache reads that missed.",
    .comment "# TYPE ce_cdn_cache_misses_total counter",
    .sample "ce_cdn_cache_misses_total" stats.misses,
    .comment "# TYPE ce_cdn_cache_evictions_total counter",
    .sample "ce_cdn_cache_evictions_total" stats.evictions,
    .comment "# TYPE ce_cdn_cache_expirations_total counter",
    .sample "ce_cdn_cache_expirations_total" stats.expirations,
    .comment "# TYPE ce_cdn_cache_negative_hits_total counter",
    .sample "ce_cdn_cache_negative_hits_total" stats.negativeHits,
    .comment "# TYPE ce_cdn_cache_entries gauge",
    .sample "ce_cdn_cache_entries" stats.entries,
    .comment "# TYPE ce_cdn_cache_bytes gauge",
    .sample "ce_cdn_cache_bytes" stats.bytes,
    .comment "# HELP ce_cdn_object_hits_total Per-object cache hits.",
    .comment "# TYPE ce_cdn_object_hits_total counter"] ++
  objects.flatMap fun (cid, os) =>
    [.sample s!"ce_cdn_object_hits_total\x7bcid=\"{cid}\"\x7d" os.hits,
      .sample s!"ce_cdn_object_bytes\x7bcid=\"{cid}\"\x7d" os.bytes]

def metricsPrometheus (stats : CacheStats) (objects : List (String × ObjectStat)) : String :=
  render (metricsLines stats objects)

/-! ## One request -/

/-- `handle`, with nothing in between. -/
def ServerEnv.handle (env : ServerEnv) (hitRatio : CacheStats → String) (o : Orders)
    (origin : String → Option Bytes) (s : ServerState) (raw : RawReq) (now : Nat) :
    Option (HttpResponse × ServerState) :=
  match raw.route with
  | .notAllowed => some (textResponse 405 "method not allowed", s)
  | .health => some (textResponse 200 "ok", s)
  | .status =>
    some (jsonResponse 200 (statusJson hitRatio s.edge.cache.stats (s.edge.held now)), s)
  | .metrics =>
    let body := metricsPrometheus s.edge.cache.stats (s.edge.cache.objectStats o.entries)
    some (⟨200, [("Content-Type", "text/plain; version=0.0.4")], utf8 body⟩, s)
  | .notFound => some (textResponse 404 "not found", s)
  | .object req => env.serveCid o origin s req now

/-! ## Any number of requests -/

inductive FrontLabel where
  | request (raw : RawReq) (now : Nat)
  /-- A step of what is under way. -/
  | work (l : Label)

/-- A request for an object is served from here on, and any other is answered
at once and leaves the state alone. -/
def Front.step (env : ServerEnv) (y : Sys) : FrontLabel → Option Sys
  | .request raw now =>
    match raw.route with
    | .object req => Sys.step env y (.arrive req now)
    | _ => some y
  | .work (.arrive _ _) => none
  | .work l => Sys.step env y l

/-- The front-end as it starts to listen. -/
def Front.start (maxBytes ttl : Nat) (publicSet : Finset String) : Sys :=
  .start (.new ⟨.new maxBytes ttl, publicSet⟩)

/-- The request that comes in, and when. -/
def Front.request? : FrontLabel → Option (RawReq × Nat)
  | .request raw now => some (raw, now)
  | .work _ => none

/-- The requests of a run. -/
def Front.requests (ls : List FrontLabel) : List (RawReq × Nat) := ls.filterMap request?

/-- A step of the front-end leaves everything, or is one of the machine below:
a request for an object, or work. -/
theorem Front.step_cases {env : ServerEnv} {y y' : Sys} {l : FrontLabel}
    (h : Front.step env y l = some y') :
    y' = y ∨
    (∃ raw now req, l = .request raw now ∧ raw.route = .object req ∧
      y' = { y with tasks := y.tasks ++ [.arrive req now] }) ∨
    ∃ l', l = .work l' ∧ (∀ req now, l' ≠ .arrive req now) ∧ Sys.step env y l' = some y' := by
  cases l with
  | request raw now =>
    simp only [Front.step] at h
    split at h
    · next req hroute =>
      cases h
      exact .inr (.inl ⟨raw, now, req, rfl, hroute, rfl⟩)
    · cases h
      exact .inl rfl
  | work l' =>
    refine .inr (.inr ⟨l', rfl, ?_⟩)
    cases l' with
    | arrive req now => cases h
    | step i o => exact ⟨nofun, h⟩
    | answer i res => exact ⟨nofun, h⟩
    | cancel i => exact ⟨nofun, h⟩
    | sweep o now => exact ⟨nofun, h⟩
    | purge cid => exact ⟨nofun, h⟩

/-- An object's CID is acceptable, and stands in its path with nothing but
slashes behind it. -/
theorem cidOfPath_eq_some {path : List Char} {cid : String} (h : cidOfPath path = some cid) :
    isAcceptableCidCharset cid = true ∧
      ∃ n, path = "/cdn/".toList ++ cid.toList ++ List.replicate n '/' := by
  unfold cidOfPath at h
  split at h
  · cases h
  next rest hrest =>
  have hslashes : rest.rtakeWhile (· == '/') =
      List.replicate (rest.rtakeWhile (· == '/')).length '/' :=
    List.eq_replicate_iff.2
      ⟨rfl, fun c hc => beq_iff_eq.1 (List.mem_rtakeWhile_imp (p := (· == '/')) hc)⟩
  have hpath : path = "/cdn/".toList ++ (trimEndMatches '/' rest ++ rest.rtakeWhile (· == '/')) := by
    rw [trimEndMatches, List.rdropWhile_append_rtakeWhile]
    exact stripPrefix_eq_some_iff.1 hrest
  simp only at h
  split at h
  · next hacceptable =>
    cases h
    refine ⟨hacceptable, (rest.rtakeWhile (· == '/')).length, ?_⟩
    rw [← hslashes, List.append_assoc, hpath]
    simp only [String.toList_ofList]
  · cases h

theorem RawReq.route_object {raw : RawReq} {req : HttpReq} (h : raw.route = .object req) :
    raw.method ≠ .other ∧ cidOfPath raw.path.toList = some req.cid := by
  unfold route at h
  split at h
  · cases h
  next hmethod =>
  split at h
  · cases h
  split at h
  · cases h
  split at h
  · cases h
  split at h
  · cases h
  next cid hpath =>
  cases h
  exact ⟨hmethod, hpath⟩

/-! ## What the cache goes through -/

/-- The CID an operation can bring into the cache. -/
def CacheOp.adds : CacheOp → Option String
  | .insert cid _ _ | .insertWithTtl cid _ _ _ | .noteAbsent cid _ => some cid
  | _ => none

/-- The cache has an entry or a tombstone under the CID. -/
def EdgeCache.Names (c : EdgeCache) (cid : String) : Prop := cid ∈ c.entries ∨ cid ∈ c.tombstones

theorem CacheStep.adds_of_inserted {t : CacheStep} {cid : String} (h : t.inserted? = some cid) :
    t.2.1.2.adds = some cid := by
  unfold CacheStep.inserted? at h
  split at h
  · cases h; rfl
  · cases h; rfl
  · cases h

/-- An operation brings no CID in but its own. -/
theorem EdgeCache.names_step {c : EdgeCache} {i : Orders × CacheOp} {cid : String}
    (h : (c.step i).2.Names cid) : c.Names cid ∨ i.2.adds = some cid := by
  obtain h | h := h
  · obtain ⟨e, he⟩ := Option.isSome_iff_exists.1 (AList.lookup_isSome.2 h)
    obtain ⟨hin, -⟩ | ⟨-, e₀, he₀, -⟩ := hitsFrom_step he
    · exact .inr (CacheStep.adds_of_inserted hin)
    · exact .inl (.inl (AList.lookup_isSome.1 (he₀ ▸ rfl)))
  · have htomb := tombstoneStep c i
    generalize (c.step i).2.tombstones = ts at h htomb
    cases htomb with
    | same => exact .inl (.inr h)
    | inserted | expired => exact .inl (.inr (AList.mem_erase.1 h).2)
    | swept =>
      obtain ⟨t, ht⟩ := Option.isSome_iff_exists.1 (AList.lookup_isSome.2 h)
      exact .inl (.inr (AList.lookup_isSome.1 ((HashMap.lookup_retain.1 ht).1 ▸ rfl)))
    | noted =>
      obtain rfl | h := (AList.mem_insert _).1 h
      · exact .inr rfl
      · exact .inl (.inr h)
    | displaced =>
      obtain rfl | h := (AList.mem_insert _).1 h
      · exact .inr rfl
      · exact .inl (.inr (AList.mem_erase.1 h).2)

theorem EdgeCache.names_final {cid : String} {ops : List (Orders × CacheOp)} {c : EdgeCache}
    (h : (final EdgeCache.step c ops).Names cid) :
    c.Names cid ∨ ∃ i ∈ ops, i.2.adds = some cid := by
  induction ops generalizing c with
  | nil => exact .inl h
  | cons i ops ih =>
    obtain hc | ⟨j, hj, hadds⟩ := ih h
    · obtain hc | hadds := names_step hc
      · exact .inl hc
      · exact .inr ⟨i, List.mem_cons_self, hadds⟩
    · exact .inr ⟨j, List.mem_cons_of_mem i hj, hadds⟩

/-- Past the access decision, and not answered. -/
def Phase.Inside (p : Phase) : Prop := 0 < p.rank ∧ p.rank < 15

/-- A piece takes the cache through operations, and what they bring in is what
its request asks for. -/
theorem Task.Piece.cache_ops {env : ServerEnv} {o : Orders} {s s' : ServerState} {t t' : Task}
    (h : Piece env o s t s' t') :
    ∃ ops, s'.edge.cache = final EdgeCache.step s.edge.cache ops ∧
      ∀ i ∈ ops, ∀ cid, i.2.adds = some cid → cid = t.req.cid ∧ t.phase.Inside := by
  obtain ⟨-, hc | ⟨-, hc⟩ | hc | ⟨-, hc⟩ | ⟨l, max, b, hp, hlen, hc⟩ | ⟨l, max, hp, hc⟩⟩ :=
    h.edge_cases
  · exact ⟨[], hc, nofun⟩
  · exact ⟨[(o, .isNegative t.req.cid t.now)], hc, by simp [CacheOp.adds]⟩
  · exact ⟨[(o, .get t.req.cid t.now)], hc, by simp [CacheOp.adds]⟩
  · exact ⟨[(o, .get t.req.cid t.now), (o, .isNegative t.req.cid t.now)], hc,
      by simp [CacheOp.adds]⟩
  · refine ⟨[(o, .insert t.req.cid b t.now)], hc, ?_⟩
    simp [CacheOp.adds, hp, Phase.Inside, Phase.rank]
  · refine ⟨[(o, .noteAbsent t.req.cid t.now)], hc, ?_⟩
    simp [CacheOp.adds, hp, Phase.Inside, Phase.rank]

/-- So does every step of the server. -/
theorem Sys.cache_ops {env : ServerEnv} {y y' : Sys} {l : Label} (h : Sys.step env y l = some y') :
    ∃ ops, y'.shared.edge.cache = final EdgeCache.step y.shared.edge.cache ops := by
  cases Sys.moves_of_step h with
  | piece hi hpiece =>
    obtain ⟨ops, hc, -⟩ := hpiece.cache_ops
    exact ⟨ops, hc⟩
  | arrive | answered => exact ⟨[], rfl⟩
  | cancelled hi hc => exact ⟨[], congrArg EdgeState.cache (Task.edge_cancel hc)⟩
  | swept o now => exact ⟨[(o, .sweepExpired now)], rfl⟩
  | purged cid => exact ⟨[(⟨.stored _ _, .stored _ _⟩, .purge cid)], rfl⟩

/-! ## The names the server knows -/

/-- The server has the CID in its cache or its in-flight map, or asked for it. -/
def ServerState.Names (s : ServerState) (cid : String) : Prop :=
  s.edge.cache.Names cid ∨ cid ∈ s.inflight ∨ cid ∈ s.originCalls

theorem ServerState.mem_inflightLock {s : ServerState} {cid k : String}
    (h : k ∈ (s.inflightLock cid).2.inflight) : k = cid ∨ k ∈ s.inflight := by
  have hpruned : k ∈ s.prunedInflight → k ∈ s.inflight := by
    intro hk
    obtain ⟨l, hl⟩ := Option.isSome_iff_exists.1 (AList.lookup_isSome.2 hk)
    exact AList.lookup_isSome.1 (lookup_prunedInflight hl ▸ rfl)
  unfold inflightLock at h
  split at h
  · exact .inr (hpruned h)
  · exact ((AList.mem_insert _).1 h).imp_right hpruned

section

variable {env : ServerEnv} {o : Orders} {s s' : ServerState} {t t' : Task} {cid : String}

/-- Only a request that is past its access decision makes a name known. -/
theorem Task.Piece.names (h : Piece env o s t s' t') (hn : s'.Names cid) :
    s.Names cid ∨ (cid = t.req.cid ∧ t.phase.Inside) := by
  obtain hn | hn | hn := hn
  · obtain ⟨ops, hc, hadds⟩ := h.cache_ops
    rw [hc] at hn
    obtain hn | ⟨i, hi, ha⟩ := EdgeCache.names_final hn
    · exact .inl (.inl hn)
    · exact .inr (hadds i hi cid ha)
  · cases h with
    | flight hp =>
      obtain rfl | hn := ServerState.mem_inflightLock hn
      · exact .inr ⟨rfl, by simp [hp, Phase.Inside, Phase.rank]⟩
      · exact .inl (.inr (.inl hn))
    | _ => exact .inl (.inr (.inl hn))
  · obtain ⟨l, max, hp, -, hcalls⟩ | ⟨-, hcalls⟩ := h.calls_cases
    · rw [hcalls, List.mem_append, List.mem_singleton] at hn
      obtain hn | rfl := hn
      · exact .inl (.inr (.inr hn))
      · exact .inr ⟨rfl, by simp [hp, Phase.Inside, Phase.rank]⟩
    · rw [hcalls] at hn
      exact .inl (.inr (.inr hn))

/-- A request gets past its access decision when that does not deny it. -/
theorem Task.Piece.inside (h : Piece env o s t s' t') (hi : t'.phase.Inside) :
    t.phase.Inside ∨ env.grantOf s.edge.publicSet t.req t.now ≠ .denied := by
  have hlt := h.rank_lt
  obtain ⟨hpos, hle⟩ := hi
  cases h with
  | denied | replayed => exact absurd hpos (Nat.lt_irrefl 0)
  | granted hp hg hopen =>
    refine .inr ?_
    rw [hg]
    rcases hopen with rfl | rfl
    · nofun
    · nofun
  | popAndCap hp hg =>
    refine .inr ?_
    rw [hg]
    nofun
  | _ => exact .inl (by simp [*, Phase.Inside, Phase.rank])

end

/-- What the requests so far account for: each request under way, and each name
the server knows. -/
structure Sys.Asked (env : ServerEnv) (publicSet : Finset String) (log : List (RawReq × Nat))
    (y : Sys) : Prop where
  public_eq : y.shared.edge.publicSet = publicSet
  tasks : ∀ t ∈ y.tasks, ∃ raw, (raw, t.now) ∈ log ∧ raw.route = .object t.req
  granted : ∀ t ∈ y.tasks, t.phase.Inside → env.grantOf publicSet t.req t.now ≠ .denied
  names : ∀ cid, y.shared.Names cid →
    ∃ raw now req, (raw, now) ∈ log ∧ raw.route = .object req ∧ req.cid = cid ∧
      env.grantOf publicSet req now ≠ .denied

namespace Sys.Asked

variable {env : ServerEnv} {publicSet : Finset String} {log : List (RawReq × Nat)} {y y' : Sys}

theorem mono {log' : List (RawReq × Nat)} (hsub : log ⊆ log') (h : y.Asked env publicSet log) :
    y.Asked env publicSet log' := by
  refine ⟨h.public_eq, fun t ht => ?_, h.granted, fun cid hn => ?_⟩
  · obtain ⟨raw, hmem, hroute⟩ := h.tasks t ht
    exact ⟨raw, hsub hmem, hroute⟩
  · obtain ⟨raw, now, req, hmem, hrest⟩ := h.names cid hn
    exact ⟨raw, now, req, hsub hmem, hrest⟩

/-- A name that a request under way makes known. -/
theorem name_of_task (h : y.Asked env publicSet log) {t : Task} (ht : t ∈ y.tasks)
    (hin : t.phase.Inside) :
    ∃ raw now req, (raw, now) ∈ log ∧ raw.route = .object req ∧ req.cid = t.req.cid ∧
      env.grantOf publicSet req now ≠ .denied := by
  obtain ⟨raw, hmem, hroute⟩ := h.tasks t ht
  exact ⟨raw, t.now, t.req, hmem, hroute, rfl, h.granted t ht hin⟩

theorem piece {i : Nat} {o : Orders} {t t' : Task} {s' : ServerState}
    (h : y.Asked env publicSet log) (hi : y.tasks[i]? = some t)
    (hpiece : Task.Piece env o y.shared t s' t') :
    Sys.Asked env publicSet log ⟨s', y.tasks.set i t'⟩ := by
  have hmem := List.mem_of_getElem? hi
  refine ⟨hpiece.edge_cases.1.trans h.public_eq, Places.forall_mem_set h.tasks ?_,
    Places.forall_mem_set h.granted fun hin => ?_, fun cid hn => ?_⟩
  · rw [hpiece.req, hpiece.now]
    exact h.tasks t hmem
  · rw [hpiece.req, hpiece.now]
    obtain hin | hg := hpiece.inside hin
    · exact h.granted t hmem hin
    · rwa [h.public_eq] at hg
  · obtain hn | ⟨rfl, hin⟩ := hpiece.names hn
    · exact h.names cid hn
    · exact h.name_of_task hmem hin

/-- What makes no name known, and moves no request past its access decision. -/
theorem quiet {s' : ServerState} {ts : List Task} (h : y.Asked env publicSet log)
    (hpublic : s'.edge.publicSet = y.shared.edge.publicSet)
    (hnames : ∀ cid, s'.Names cid → y.shared.Names cid)
    (htasks : ∀ t ∈ ts, ∃ u ∈ y.tasks, t.req = u.req ∧ t.now = u.now ∧
      (t.phase.Inside → u.phase.Inside)) : Sys.Asked env publicSet log ⟨s', ts⟩ := by
  refine ⟨hpublic.trans h.public_eq, fun t ht => ?_, fun t ht hin => ?_,
    fun cid hn => h.names cid (hnames cid hn)⟩
  · obtain ⟨u, hu, hreq, hnow, -⟩ := htasks t ht
    rw [hreq, hnow]
    exact h.tasks u hu
  · obtain ⟨u, hu, hreq, hnow, hinside⟩ := htasks t ht
    rw [hreq, hnow]
    exact h.granted u hu (hinside hin)

theorem work {l : Label} (h : y.Asked env publicSet log) (hl : ∀ req now, l ≠ .arrive req now)
    (hs : Sys.step env y l = some y') : y'.Asked env publicSet log := by
  have hself : ∀ t ∈ y.tasks, ∃ u ∈ y.tasks, t.req = u.req ∧ t.now = u.now ∧
      (t.phase.Inside → u.phase.Inside) := fun t ht => ⟨t, ht, rfl, rfl, id⟩
  -- an operation that brings nothing into the cache leaves fewer names
  have hcache : ∀ {i : Orders × CacheOp} {cid : String}, i.2.adds = none →
      (y.shared.setCache (y.shared.edge.cache.step i).2).Names cid → y.shared.Names cid := by
    intro i cid hadds hn
    refine hn.imp_left fun hc => (EdgeCache.names_step hc).resolve_right ?_
    rw [hadds]
    nofun
  cases Sys.moves_of_step hs with
  | arrive req now => exact absurd rfl (hl req now)
  | piece hi hpiece => exact h.piece hi hpiece
  | answered res hi hp =>
    refine h.quiet rfl (fun _ hn => hn) (Places.forall_mem_set hself ?_)
    exact ⟨_, List.mem_of_getElem? hi, rfl, rfl, fun _ => by simp [hp, Phase.Inside, Phase.rank]⟩
  | @cancelled i t t' s' hi hc =>
    have hpublic := congrArg EdgeState.publicSet (Task.edge_cancel hc)
    obtain ⟨rfl, hs'⟩ := Task.cancel_cases hc
    refine h.quiet hpublic (fun cid hn => ?_) (Places.forall_mem_set hself ?_)
    · rcases hs' with rfl | ⟨l, rfl⟩ | ⟨l, rfl⟩
      · exact hn
      · exact hn
      · exact hn
    · exact ⟨t, List.mem_of_getElem? hi, rfl, rfl, fun hin => absurd hin.1 (Nat.lt_irrefl 0)⟩
  | swept o now => exact h.quiet rfl (fun cid => hcache (i := (o, .sweepExpired now)) rfl) hself
  | purged cid =>
    exact h.quiet rfl (fun _ => hcache (i := (⟨.stored _ _, .stored _ _⟩, .purge cid)) rfl) hself

theorem step {l : FrontLabel} (h : y.Asked env publicSet log)
    (hs : Front.step env y l = some y') :
    y'.Asked env publicSet (log ++ (Front.request? l).toList) := by
  obtain rfl | ⟨raw, now, req, rfl, hroute, rfl⟩ | ⟨l', rfl, hl, hwork⟩ := Front.step_cases hs
  · exact h.mono (List.subset_append_left _ _)
  · have hlog : (raw, now) ∈ log ++ [(raw, now)] := List.mem_append_right _ (List.mem_singleton_self _)
    have hold := h.mono (List.subset_append_left log [(raw, now)])
    refine ⟨h.public_eq, fun t ht => ?_, fun t ht hin => ?_, hold.names⟩
    · obtain ht | ht := List.mem_append.1 ht
      · exact hold.tasks t ht
      · rw [List.mem_singleton.1 ht]
        exact ⟨raw, hlog, hroute⟩
    · obtain ht | ht := List.mem_append.1 ht
      · exact h.granted t ht hin
      · rw [List.mem_singleton.1 ht] at hin
        exact absurd hin.2 (Nat.lt_irrefl 15)
  · rw [show Front.request? (.work l') = none from rfl, Option.toList_none, List.append_nil]
    exact h.work hl hwork

theorem start (env : ServerEnv) (maxBytes ttl : Nat) (publicSet : Finset String) :
    (Front.start maxBytes ttl publicSet).Asked env publicSet [] := by
  refine ⟨rfl, nofun, nofun, ?_⟩
  rintro cid ((hn | hn) | hn | hn)
  · exact absurd hn (AList.notMem_empty cid)
  · exact absurd hn (AList.notMem_empty cid)
  · exact absurd hn (AList.notMem_empty cid)
  · cases hn

end Sys.Asked

theorem Front.asked {env : ServerEnv} {maxBytes ttl : Nat} {publicSet : Finset String}
    {ls : List FrontLabel} {y : Sys}
    (hrun : run (Front.step env) (Front.start maxBytes ttl publicSet) ls = some y) :
    y.Asked env publicSet (Front.requests ls) := by
  have h : y.Asked env publicSet ([] ++ events (Front.step env) (fun _ l => Front.request? l)
      (Front.start maxBytes ttl publicSet) ls) :=
    events_run_invariant (I := fun y log => y.Asked env publicSet log)
      (fun _ _ _ _ hy _ hs => hy.step hs) (Sys.Asked.start env maxBytes ttl publicSet)
      (guarded_of_forall (G := fun _ _ => True) (fun _ _ _ => trivial) _) hrun
  rwa [List.nil_append, events_eq_filterMap _ hrun] at h

/-- **The server knows no name that was not asked for.** In every run of the
front-end, whatever is requested: a CID in the cache, among the tombstones or in
the in-flight map, or asked of the origin, is acceptable, and stands in the path
of a `GET` or `HEAD` request of the run that was not denied access. -/
theorem nothing_unasked (env : ServerEnv) (maxBytes ttl : Nat) (publicSet : Finset String)
    (ls : List FrontLabel) (y : Sys)
    (hrun : run (Front.step env) (Front.start maxBytes ttl publicSet) ls = some y) (cid : String)
    (hname : y.shared.Names cid) :
    isAcceptableCidCharset cid = true ∧
    ∃ raw now req, (raw, now) ∈ Front.requests ls ∧ raw.method ≠ .other ∧
      (∃ n, raw.path.toList = "/cdn/".toList ++ cid.toList ++ List.replicate n '/') ∧
      raw.route = .object req ∧ env.grantOf publicSet req now ≠ .denied := by
  obtain ⟨raw, now, req, hmem, hroute, rfl, hgrant⟩ := (Front.asked hrun).names cid hname
  obtain ⟨hmethod, hpath⟩ := RawReq.route_object hroute
  obtain ⟨hacceptable, hslashes⟩ := cidOfPath_eq_some hpath
  exact ⟨hacceptable, raw, now, req, hmem, hmethod, hslashes, hroute, hgrant⟩

/-! ### A cold read -/

/-- A request that is served what the origin answers. -/
def frontRead : List FrontLabel :=
  .request ⟨.get, "/cdn/a/", "", []⟩ 50 ::
    List.replicate 9 (.work (.step 0 sampleOrders)) ++
    .work (.answer 0 (some [1, 2])) :: List.replicate 4 (.work (.step 0 sampleOrders))

theorem frontRead_ends :
    (run (Front.step sampleEnv) (Front.start 100 0 {"a"}) frontRead).map (fun y =>
      (y.tasks.map Task.status, y.shared.originCalls)) = some ([some 200], ["a"]) := by
  decide +kernel

theorem nothing_unasked_sample :
    isAcceptableCidCharset "a" = true ∧
    ∃ raw now req, (raw, now) ∈ Front.requests frontRead ∧ raw.method ≠ .other ∧
      (∃ n, raw.path.toList = "/cdn/".toList ++ "a".toList ++ List.replicate n '/') ∧
      raw.route = .object req ∧ sampleEnv.grantOf {"a"} req now ≠ .denied := by
  obtain ⟨y, hrun, hend⟩ := Option.map_eq_some_iff.1 frontRead_ends
  obtain ⟨-, hcalls⟩ := Prod.mk.inj hend
  refine nothing_unasked sampleEnv 100 0 {"a"} frontRead y hrun "a" (.inr (.inr ?_))
  rw [hcalls]
  exact List.mem_singleton_self _

end CeCdn
