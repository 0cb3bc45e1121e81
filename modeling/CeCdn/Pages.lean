/-
What the pages of the HTTP front-end say. `/metrics` reads back, line by line,
as the counters of the cache and two samples for each object it holds, and the
numbers agree with each other (`metrics_read_back`). `/status` lists the public
objects that a plain `GET` is answered from the cache at that moment, with the
number of bytes it gets (`status_truthful`).
-/
import CeCdn.HttpHistory
import CeCdn.Routes

namespace CeCdn

open Lib Text Machine Exposition

/-! ## The samples of `/metrics` -/

/-- A series of one object: what stands before its CID, and the CID. -/
def objectSeries (stem cid : String) : String := stem ++ cid ++ "\"\x7d"

def hitsStem : String := "ce_cdn_object_hits_total\x7bcid=\""

def bytesStem : String := "ce_cdn_object_bytes\x7bcid=\""

/-- What `/metrics` tells of the cache. -/
def cacheSamples (stats : CacheStats) : List (String × Nat) :=
  [("ce_cdn_cache_hits_total", stats.hits),
    ("ce_cdn_cache_misses_total", stats.misses),
    ("ce_cdn_cache_evictions_total", stats.evictions),
    ("ce_cdn_cache_expirations_total", stats.expirations),
    ("ce_cdn_cache_negative_hits_total", stats.negativeHits),
    ("ce_cdn_cache_entries", stats.entries),
    ("ce_cdn_cache_bytes", stats.bytes)]

/-- What it tells of the objects. -/
def objectSamples (objects : List (String × ObjectStat)) : List (String × Nat) :=
  objects.flatMap fun (cid, os) =>
    [(objectSeries hitsStem cid, os.hits), (objectSeries bytesStem cid, os.bytes)]

theorem samples_of_lines (stats : CacheStats) (objects : List (String × ObjectStat)) :
    (metricsLines stats objects).filterMap Line.sample? =
      cacheSamples stats ++ objectSamples objects := by
  rw [metricsLines, List.filterMap_append, List.filterMap_flatMap]
  rfl

theorem toList_objectSeries (stem cid : String) :
    (objectSeries stem cid).toList = stem.toList ++ (cid.toList ++ ['"', '\x7d']) := by
  rw [objectSeries, String.toList_append, String.toList_append, List.append_assoc]
  rfl

theorem readable_objectSeries (stem : String) {cid : String} (hcid : CidChars cid)
    (hmark : stem.toList.head? = some 'c') (hblank : ' ' ∉ stem.toList)
    (hnewline : '\n' ∉ stem.toList) (value : Nat) :
    (Line.sample (objectSeries stem cid) value).Readable := by
  have hblank' : ' ' ∉ cid.toList := hcid.not_mem 32 (by decide) (by decide)
  have hnewline' : '\n' ∉ cid.toList := hcid.not_mem 10 (by decide) (by decide)
  refine ⟨?_, ?_, ?_⟩
  · rw [toList_objectSeries, List.head?_append, hmark]
    simp
  · simp [toList_objectSeries, hblank, hblank']
  · simp [toList_objectSeries, hnewline, hnewline']

/-- With acceptable CIDs every line is read as it was meant. -/
theorem readable_metricsLines {stats : CacheStats} {objects : List (String × ObjectStat)}
    (h : ∀ p ∈ objects, CidChars p.1) : ∀ l ∈ metricsLines stats objects, l.Readable := by
  intro l hl
  obtain hl | hl := List.mem_append.1 hl
  · simp only [List.mem_cons, List.not_mem_nil, or_false] at hl
    rcases hl with rfl | rfl | rfl | rfl | rfl | rfl | rfl | rfl | rfl | rfl | rfl | rfl | rfl |
      rfl | rfl | rfl | rfl | rfl <;>
      first
        | exact ⟨by decide, not_mem_of_byte 10 (by decide) (by decide)⟩
        | exact ⟨by decide, not_mem_of_byte 32 (by decide) (by decide),
            not_mem_of_byte 10 (by decide) (by decide)⟩
  · obtain ⟨p, hp, hl⟩ := List.mem_flatMap.1 hl
    have hcid := h p hp
    obtain rfl | hl := List.mem_cons.1 hl
    · exact readable_objectSeries hitsStem hcid (by decide) (by decide) (by decide) _
    · rw [List.mem_singleton.1 hl]
      exact readable_objectSeries bytesStem hcid (by decide) (by decide) (by decide) _

/-! ## No series twice -/

theorem objectSeries_inj {stem cid cid' : String} (h : objectSeries stem cid = objectSeries stem cid') :
    cid = cid' := by
  have hlist := congrArg String.toList h
  rw [toList_objectSeries, toList_objectSeries, List.append_cancel_left_eq,
    List.append_cancel_right_eq] at hlist
  exact String.toList_inj.1 hlist

theorem hitsStem_ne_bytesStem (cid cid' : String) :
    objectSeries hitsStem cid ≠ objectSeries bytesStem cid' := by
  intro h
  have hlist := congrArg (fun s => s.toList[14]?) h
  simp only [toList_objectSeries] at hlist
  rw [List.getElem?_append_left (by decide), List.getElem?_append_left (by decide)] at hlist
  exact absurd hlist (by decide)

theorem nodup_objectSamples {objects : List (String × ObjectStat)}
    (h : (objects.map Prod.fst).Nodup) : ((objectSamples objects).map Prod.fst).Nodup := by
  rw [objectSamples, List.map_flatMap, List.nodup_flatMap]
  refine ⟨fun p _ => ?_, ?_⟩
  · simpa using hitsStem_ne_bytesStem p.1 p.1
  · rw [List.Nodup, List.pairwise_map] at h
    refine h.imp fun {p q} hne => ?_
    simp only [Function.onFun, List.map_cons, List.map_nil, List.disjoint_cons_left,
      List.disjoint_nil_left, List.mem_cons, List.not_mem_nil, or_false, and_true, not_or]
    exact ⟨⟨fun heq => hne (objectSeries_inj heq), hitsStem_ne_bytesStem p.1 q.1⟩,
      fun heq => hitsStem_ne_bytesStem q.1 p.1 heq.symm, fun heq => hne (objectSeries_inj heq)⟩

/-- The series of the cache. -/
def cacheSeries : List String :=
  ["ce_cdn_cache_hits_total", "ce_cdn_cache_misses_total", "ce_cdn_cache_evictions_total",
    "ce_cdn_cache_expirations_total", "ce_cdn_cache_negative_hits_total", "ce_cdn_cache_entries",
    "ce_cdn_cache_bytes"]

theorem nodup_samples (stats : CacheStats) {objects : List (String × ObjectStat)}
    (h : (objects.map Prod.fst).Nodup) :
    ((cacheSamples stats ++ objectSamples objects).map Prod.fst).Nodup := by
  have hbyte : ∀ s ∈ cacheSeries, 123 ∉ utf8 s := by decide
  have hplain : ∀ s ∈ cacheSeries, '\x7b' ∉ s.toList :=
    fun s hs => not_mem_of_byte 123 (by decide) (hbyte s hs)
  have hlabel : ∀ s ∈ (objectSamples objects).map Prod.fst, '\x7b' ∈ s.toList := by
    intro s hs
    obtain ⟨p, hp, rfl⟩ := List.mem_map.1 hs
    obtain ⟨q, -, hp⟩ := List.mem_flatMap.1 hp
    obtain rfl | hp := List.mem_cons.1 hp
    · rw [toList_objectSeries]
      exact List.mem_append_left _ (by decide)
    · rw [List.mem_singleton.1 hp, toList_objectSeries]
      exact List.mem_append_left _ (by decide)
  rw [List.map_append, show (cacheSamples stats).map Prod.fst = cacheSeries from rfl,
    List.nodup_append]
  refine ⟨by decide, nodup_objectSamples h, fun s hs s' hs' heq => ?_⟩
  exact hplain s hs (heq ▸ hlabel s' hs')

/-! ## The numbers agree -/

namespace EdgeCache

/-- The counters of an entry. -/
def stat (e : Item) : String × ObjectStat :=
  (e.1, { bytes := e.2.bytes.length, hits := e.2.hits, misses := e.2.misses })

theorem perm_objectStats (ord : IterOrder String CacheEntry) (c : EdgeCache) :
    (c.objectStats ord).Perm (c.entries.entries.map stat) :=
  (List.perm_insertionSort _ _).trans ((ord.perm c.entries).map stat)

theorem map_fst_objectStats (ord : IterOrder String CacheEntry) (c : EdgeCache) :
    ((c.objectStats ord).map Prod.fst).Perm c.entries.keys := by
  have h := (perm_objectStats ord c).map Prod.fst
  rwa [List.map_map] at h

/-- What the page's numbers have to do with each other. -/
structure Agrees (maxBytes : Nat) (stats : CacheStats) (objects : List (String × ObjectStat)) :
    Prop where
  entries : objects.length = stats.entries
  bytes : (objects.map fun p => p.2.bytes).sum = stats.bytes
  budget : stats.bytes ≤ maxBytes
  hits : (objects.map fun p => p.2.hits).sum ≤ stats.hits

/-- They agree after any operations on a new cache. -/
theorem agrees_final (maxBytes ttl : Nat) (ops : List (Orders × CacheOp))
    (ord : IterOrder String CacheEntry) :
    let c := final EdgeCache.step (new maxBytes ttl) ops
    Agrees maxBytes c.stats (c.objectStats ord) := by
  intro c
  have hstart : Invariant (new maxBytes ttl) ∧ Counted (new maxBytes ttl) [] ∧
      HitsCounted (new maxBytes ttl) [] ∧ (new maxBytes ttl).config.1 = maxBytes :=
    ⟨invariant_new maxBytes ttl DEFAULT_NEGATIVE_TTL_SECS, ⟨rfl, rfl, rfl⟩, nofun, rfl⟩
  obtain ⟨hinv, hcounted, hhits, hmax⟩ :
      Invariant c ∧ Counted c (trace EdgeCache.step (new maxBytes ttl) ops) ∧
        HitsCounted c (trace EdgeCache.step (new maxBytes ttl) ops) ∧ c.config.1 = maxBytes :=
    history_invariant
      (I := fun c past => Invariant c ∧ Counted c past ∧ HitsCounted c past ∧ c.config.1 = maxBytes)
      (fun c i past h => ⟨h.1.step i.1 i.2, h.2.1.concat (countsStep c i), h.2.2.1.step i,
        (congrArg Prod.fst (config_step i.1 i.2 c)).trans h.2.2.2⟩) hstart ops
  obtain ⟨l, hl⟩ := hinv.recency
  refine ⟨?_, ?_, hmax ▸ hinv.budget, ?_⟩
  · rw [(perm_objectStats ord c).length_eq, List.length_map]
    rfl
  · rw [((perm_objectStats ord c).map fun p => p.2.bytes).sum_nat, List.map_map]
    exact hl.total_eq.symm
  · calc ((c.objectStats ord).map fun p => p.2.hits).sum
        = HashMap.total CacheEntry.hits c.entries := sum_objectStats_hits ord c
      _ ≤ _ := hhits.total_le
      _ = c.hits := hcounted.hits.symm

end EdgeCache

theorem Front.cache_eq {env : ServerEnv} {maxBytes ttl : Nat} {publicSet : Finset String}
    {ls : List FrontLabel} {y : Sys}
    (hrun : run (Front.step env) (Front.start maxBytes ttl publicSet) ls = some y) :
    ∃ ops, y.shared.edge.cache = final EdgeCache.step (EdgeCache.new maxBytes ttl) ops := by
  refine run_invariant (I := fun y : Sys =>
    ∃ ops, y.shared.edge.cache = final EdgeCache.step (EdgeCache.new maxBytes ttl) ops)
    (fun y l y' ⟨ops, hy⟩ hs => ?_) ⟨[], rfl⟩ hrun
  obtain rfl | ⟨raw, now, req, -, -, rfl⟩ | ⟨l', -, -, hwork⟩ := Front.step_cases hs
  · exact ⟨ops, hy⟩
  · exact ⟨ops, hy⟩
  · obtain ⟨ops', hc⟩ := Sys.cache_ops hwork
    refine ⟨ops ++ ops', ?_⟩
    rw [hc, hy, final, final, final, List.foldl_append]

/-! ## `/metrics` -/

/-- **The metrics read back.** In every state the front-end reaches, and in
whatever order the cache is iterated: `/metrics` is a text that reads back as
the counters of the cache and, for each object it holds, its hits and its
bytes, no series twice. The objects listed are as many as the page says, their
bytes add up to what it says, which is within the budget, and their hits come to
no more than all hits. -/
theorem metrics_read_back (env : ServerEnv) (hitRatio : CacheStats → String) (maxBytes ttl : Nat)
    (publicSet : Finset String) (ls : List FrontLabel) (y : Sys)
    (hrun : run (Front.step env) (Front.start maxBytes ttl publicSet) ls = some y) (o : Orders)
    (origin : String → Option Bytes) (raw : RawReq) (hraw : raw.route = .metrics) (now : Nat) :
    let stats := y.shared.edge.cache.stats
    let objects := y.shared.edge.cache.objectStats o.entries
    (∃ text, env.handle hitRatio o origin y.shared raw now =
        some (⟨200, [("Content-Type", "text/plain; version=0.0.4")], utf8 text⟩, y.shared) ∧
      scrape text = cacheSamples stats ++ objectSamples objects) ∧
    ((cacheSamples stats ++ objectSamples objects).map Prod.fst).Nodup ∧
    EdgeCache.Agrees maxBytes stats objects := by
  intro stats objects
  have hkeys := EdgeCache.map_fst_objectStats o.entries y.shared.edge.cache
  have hchars : ∀ p ∈ objects, CidChars p.1 := by
    intro p hp
    have hmem : p.1 ∈ y.shared.edge.cache.entries :=
      AList.mem_keys.2 (hkeys.mem_iff.1 (List.mem_map_of_mem hp))
    obtain ⟨raw', now', req, -, hroute, hcid, -⟩ := (Front.asked hrun).names p.1 (.inl (.inl hmem))
    obtain ⟨hacceptable, -⟩ := cidOfPath_eq_some (RawReq.route_object hroute).2
    rw [← hcid]
    exact cidChars_of_acceptable hacceptable
  refine ⟨⟨metricsPrometheus stats objects, ?_, ?_⟩, ?_, ?_⟩
  · rw [ServerEnv.handle, hraw]
  · rw [metricsPrometheus, scrape_render (readable_metricsLines hchars), samples_of_lines]
  · exact nodup_samples stats (hkeys.nodup_iff.2 y.shared.edge.cache.entries.nodupKeys)
  · obtain ⟨ops, hc⟩ := Front.cache_eq hrun
    have hagrees := EdgeCache.agrees_final maxBytes ttl ops o.entries
    simp only [← hc] at hagrees
    exact hagrees

theorem samples_frontRead :
    (run (Front.step sampleEnv) (Front.start 100 0 {"a"}) frontRead).map (fun y =>
      cacheSamples y.shared.edge.cache.stats ++
        objectSamples (y.shared.edge.cache.objectStats sampleOrders.entries)) =
      some [("ce_cdn_cache_hits_total", 0), ("ce_cdn_cache_misses_total", 2),
        ("ce_cdn_cache_evictions_total", 0), ("ce_cdn_cache_expirations_total", 0),
        ("ce_cdn_cache_negative_hits_total", 0), ("ce_cdn_cache_entries", 1),
        ("ce_cdn_cache_bytes", 2), ("ce_cdn_object_hits_total\x7bcid=\"a\"\x7d", 0),
        ("ce_cdn_object_bytes\x7bcid=\"a\"\x7d", 2)] := by
  decide +kernel

theorem metrics_read_back_sample :
    ∃ y text, run (Front.step sampleEnv) (Front.start 100 0 {"a"}) frontRead = some y ∧
      (sampleEnv.handle (fun _ => "0") sampleOrders (fun _ => none) y.shared
        ⟨.get, "/metrics", "", []⟩ 60).map (fun r => r.1.body) = some (utf8 text) ∧
      (scrape text).map Prod.snd = [0, 2, 0, 0, 0, 1, 2, 0, 2] := by
  obtain ⟨y, hrun, hsamples⟩ := Option.map_eq_some_iff.1 samples_frontRead
  obtain ⟨⟨text, hpage, htext⟩, -⟩ := metrics_read_back sampleEnv (fun _ => "0") 100 0 {"a"}
    frontRead y hrun sampleOrders (fun _ => none) ⟨.get, "/metrics", "", []⟩ rfl 60
  refine ⟨y, text, hrun, by rw [hpage]; rfl, ?_⟩
  rw [htext, hsamples]
  rfl

/-! ## `/status` -/

/-- The edge would answer with the bytes now: it holds them, and they are fresh. -/
def EdgeCache.Serves (c : EdgeCache) (cid : String) (now : Nat) (b : Bytes) : Prop :=
  ∃ e, c.entries.lookup cid = some e ∧ now ≤ e.expiresAt ∧ e.bytes = b

theorem mem_held {e : EdgeState} {now : Nat} {cid : String} {n : Nat} :
    (cid, n) ∈ e.held now ↔ cid ∈ e.publicSet ∧ ∃ b, e.cache.Serves cid now b ∧ b.length = n := by
  simp only [EdgeState.held, List.mem_filterMap, Ordered.mem_toList]
  constructor
  · rintro ⟨k, hk, h⟩
    unfold EdgeCache.byteLen EdgeCache.containsFresh at h
    cases hl : e.cache.entries.lookup k with
    | none => simp [hl] at h
    | some entry =>
      simp only [hl, Option.map_some, decide_eq_true_eq] at h
      split at h
      · next hnow =>
        cases h
        exact ⟨hk, entry.bytes, ⟨entry, hl, hnow, rfl⟩, rfl⟩
      · cases h
  · rintro ⟨hk, _, ⟨entry, hl, hnow, rfl⟩, rfl⟩
    exact ⟨cid, hk, by simp [EdgeCache.byteLen, EdgeCache.containsFresh, hl, hnow]⟩

/-- What of the state is listed for a public object. -/
theorem fst_of_held {e : EdgeState} {now : Nat} {k : String} {p : String × Nat}
    (h : (match e.cache.byteLen k with
      | none => none
      | some sz => if e.cache.containsFresh k now then some (k, sz) else none) = some p) :
    p.1 = k := by
  split at h
  · cases h
  · split at h
    · cases h; rfl
    · cases h

theorem pairwise_held (e : EdgeState) (now : Nat) :
    ((e.held now).map Prod.fst).Pairwise (· < ·) := by
  rw [List.pairwise_map, EdgeState.held, List.pairwise_filterMap]
  refine (Ordered.pairwise_toList e.publicSet).imp fun hlt p hp q hq => ?_
  rw [fst_of_held hp, fst_of_held hq]
  exact hlt

/-- An unconditional request for all of an object. -/
structure HttpReq.Plain (req : HttpReq) : Prop where
  body : req.headOnly = false
  unconditional : req.header "if-none-match" = none
  whole : req.header "range" = none

section

variable {env : ServerEnv} {o : Orders} {origin : String → Option Bytes} {s s' : ServerState}
  {t t' : Task} {req : HttpReq} {now : Nat} {b : Bytes}

theorem Edge.serve_whole (cid : String) (b : Bytes) {access : Access} (cache : EdgeCache) (now : Nat)
    (hit : Bool) (ha : access ≠ .denied) :
    Edge.serve cid b none access cache now hit =
      { status := 200
        headers := cacheHeaders cid cache now hit ++ [("Content-Length", toString b.length)]
        body := .full b } := by
  obtain ⟨-, h⟩ | ⟨r, hr, -⟩ | ⟨hr, -⟩ := Edge.serve_cases cid b none cache now hit ha
  · exact h
  · cases hr
  · cases hr

theorem Task.respond_eq (ht : t.req.Plain) (hit : Bool) : t.respond s b hit =
    toHttp (Edge.serve t.req.cid b none t.grant.access s.edge.cache t.now hit) := by
  simp [respond, ht.body, ht.whole]

/-- A plain request is answered all of the bytes. -/
theorem Task.respond_plain (ht : t.req.Plain) (ha : t.grant.access ≠ .denied) (hit : Bool) :
    (t.respond s b hit).status = 200 ∧ (t.respond s b hit).body = b := by
  rw [respond_eq ht, Edge.serve_whole _ _ _ _ _ ha]
  exact ⟨rfl, rfl⟩

theorem toHttp_hit (resp : EdgeResponse) (h : ("X-Cache", "HIT") ∈ resp.headers) :
    ("X-Cache", "HIT") ∈ (toHttp resp).headers :=
  List.mem_filter.2 ⟨h, by decide⟩

/-- A public object that is held and fresh is answered from the cache. -/
theorem serveCid_of_serves (hplain : req.Plain) (hpublic : req.cid ∈ s.edge.publicSet)
    (hb : s.edge.cache.Serves req.cid now b) :
    ∃ resp s', env.serveCid o origin s req now = some (resp, s') ∧ resp.status = 200 ∧
      resp.SaysHit ∧ resp.body = b := by
  obtain ⟨e, he, hnow, rfl⟩ := hb
  have hfresh : s.edge.cache.containsFresh req.cid now = true := by
    simp [EdgeCache.containsFresh, he, hnow]
  have hget : (s.edge.cache.get req.cid now).1 = some e.bytes := by
    simp [EdgeCache.get, EdgeCache.nextTick, he, hnow]
  have hgrant : env.grantOf s.edge.publicSet req now = .publicGrant := if_pos hpublic
  have hrev : Edge.ifNoneMatchMatches ((req.header "if-none-match").map String.ofList) req.cid =
      false := by
    rw [hplain.unconditional]
    rfl
  let t := (Task.arrive req now).granted .publicGrant .conditional
  let max := if env.maxObjectBytes = 0 then s.edge.cache.maxBytes else env.maxObjectBytes
  let r := s.setCache (s.edge.cache.get req.cid now).2
  have haccess : (Task.arrive req now).advance env o s = some (s, t) := by
    change some (s, (Task.arrive req now).decideGrant env s) = _
    simp only [Task.decideGrant, Task.arrive, hgrant]
    rfl
  have hcond : t.advance env o s = some (s, t.goto .tombstone) := by
    change some (s, t.checkConditional s) = _
    rw [Task.checkConditional, if_neg]
    rw [show t.req = req from rfl, hrev]
    exact Bool.false_ne_true
  have htomb : (t.goto .tombstone).advance env o s = some (s, t.goto .budget) :=
    congrArg some (if_pos hfresh)
  have hbudget : (t.goto .budget).advance env o s = some (s, t.goto (.lookup max)) := rfl
  have hlookup : (t.goto (.lookup max)).advance env o s = some (r, t.goto (.shape e.bytes true)) := by
    change some ((t.goto (.lookup max)).lookup s max) = _
    simp only [Task.lookup, Task.goto_req, Task.goto_now, show t.req = req from rfl,
      show t.now = now from rfl, hget]
    rfl
  have hshape : (t.goto (.shape e.bytes true)).advance env o r =
      some (r, t.goto (.done (t.respond r e.bytes true))) := rfl
  have ha : t.grant.access ≠ .denied := by
    change Access.publicAccess ≠ .denied
    decide
  obtain ⟨hstatus, hbody⟩ := Task.respond_plain (t := t) (s := r) (b := e.bytes) hplain ha true
  refine ⟨t.respond r e.bytes true, r, ?_, hstatus, ⟨?_, ?_⟩, hbody⟩
  · rw [ServerEnv.serveCid, show Phase.access.rank = 9 + 1 + 1 + 1 + 1 + 1 + 1 from rfl,
      Task.finish_advance _ rfl haccess, Task.finish_advance _ rfl hcond,
      Task.finish_advance _ rfl htomb, Task.finish_advance _ rfl hbudget,
      Task.finish_advance _ rfl hlookup, Task.finish_advance _ rfl hshape]
    exact Task.finish_done _ rfl
  · rw [Task.respond_eq (t := t) hplain]
    refine toHttp_hit _ ?_
    rw [Edge.serve_whole _ _ _ _ _ ha]
    simp [Edge.cacheHeaders]
  · rw [hstatus]
    decide

/-- What a request knows of the state `s₀` it came to: up to its first look into
the cache the object is there as it was; after a miss it is not there at all;
and what the request found was there. -/
structure Task.Recalls (req : HttpReq) (now : Nat) (s₀ s : ServerState) (t : Task) : Prop where
  req_eq : t.req = req
  now_eq : t.now = now
  before : 10 ≤ t.phase.rank →
    s.edge.cache.entries.lookup req.cid = s₀.edge.cache.entries.lookup req.cid
  missed : 7 ≤ t.phase.rank → t.phase.rank < 10 → s.edge.cache.entries.lookup req.cid = none
  found : ∃ log, t.Traced log 0 ∧
    ∀ b, .hit 0 req.cid b now ∈ log → s₀.edge.cache.Serves req.cid now b

theorem EdgeCache.lookup_get_of_miss {cid : String} {now : Nat} {c : EdgeCache}
    (h : (c.get cid now).1 = none) : (c.get cid now).2.entries.lookup cid = none := by
  rcases get_cases cid now c with ⟨e, -, -, hg⟩ | ⟨e, -, -, hg⟩ | ⟨hno, hg⟩
  · rw [hg] at h
    cases h
  · rw [hg]
    simp only [dropEntry_snd, AList.lookup_erase]
  · rw [hg]
    exact hno

/-- A hit is of what the cache serves. -/
theorem Task.serves_of_hit {i j : Nat} {cid : String} (h : t.cacheEvent i s = some (.hit j cid b now)) :
    cid = t.req.cid ∧ now = t.now ∧ (t.phase.rank = 10 ∨ t.phase.rank = 7) ∧
      s.edge.cache.Serves cid now b := by
  have hserves : ∀ {b' : Bytes}, (s.edge.cache.get t.req.cid t.now).1 = some b' →
      s.edge.cache.Serves t.req.cid t.now b' := by
    intro b' hget
    obtain ⟨e, he, hb, hnow⟩ := EdgeCache.get_eq_some hget
    exact ⟨e, he, hnow, hb⟩
  unfold cacheEvent at h
  split at h
  · next max hp =>
    obtain ⟨b', hget, heq⟩ := Option.map_eq_some_iff.1 h
    cases heq
    exact ⟨rfl, rfl, .inl (by rw [hp]; rfl), hserves hget⟩
  · next l max hp =>
    obtain ⟨b', hget, heq⟩ := Option.map_eq_some_iff.1 h
    cases heq
    exact ⟨rfl, rfl, .inr (by rw [hp]; rfl), hserves hget⟩
  · split at h
    · cases h
    · cases h
  · cases h

theorem Task.Recalls.piece {s₀ : ServerState} (h : t.Recalls req now s₀ s)
    (hpiece : Piece env o s t s' t') : t'.Recalls req now s₀ s' := by
  have hneg : ∀ (c : EdgeCache) k t, (c.isNegative k t).2.entries = c.entries := by
    intro c k t
    obtain ⟨ts, n, heq⟩ := EdgeCache.isNegative_frame k t c
    rw [heq]
  obtain ⟨log, htraced, hlog⟩ := h.found
  refine ⟨hpiece.req.trans h.req_eq, hpiece.now.trans h.now_eq, fun hrank => ?_,
    fun hlow hhigh => ?_, _, hpiece.traced htraced, fun b hb => ?_⟩
  · cases hpiece with
    | negative hp | notNegative hp =>
      exact (congrArg (AList.lookup req.cid) (hneg _ _ _)).trans (h.before (by simp [hp, Phase.rank]))
    | granted hp | popAndCap hp | letThrough hp | modified hp | fresh hp | budget hp =>
      exact h.before (by simp [hp, Phase.rank])
    | _ => simp [Phase.rank, *] at hrank
  · have hcid : req.cid = t.req.cid := congrArg HttpReq.cid h.req_eq.symm
    cases hpiece with
    | miss hp hget =>
      rw [hcid]
      exact EdgeCache.lookup_get_of_miss hget
    | flight hp =>
      rw [ServerState.edge_inflightLock]
      exact h.missed (by simp [hp, Phase.rank]) (by simp [hp, Phase.rank])
    | acquire hp => exact h.missed (by simp [hp, Phase.rank]) (by simp [hp, Phase.rank])
    | _ => simp [Phase.rank, Task.readBudget, *] at hlow hhigh
  · obtain hb | hb := List.mem_append.1 hb
    · exact hlog b hb
    · obtain ⟨-, -, hrank, e, he, hnow, hbytes⟩ := Task.serves_of_hit (Option.mem_toList.1 hb)
      obtain hrank | hrank := hrank
      · rw [h.before hrank.ge] at he
        exact ⟨e, he, hnow, hbytes⟩
      · rw [h.missed hrank.ge (by omega)] at he
        cases he

theorem Task.Recalls.answered {s₀ : ServerState} {res : Option Bytes} (h : t.Recalls req now s₀ s)
    (hans : t.answered res = some t') : t'.Recalls req now s₀ s := by
  obtain ⟨l, max, hp, rfl⟩ := answered_eq_some hans
  obtain ⟨log, -, hlog⟩ := h.found
  refine ⟨h.req_eq, h.now_eq, nofun, nofun, ?_⟩
  cases res with
  | none => exact ⟨log, trivial, hlog⟩
  | some b =>
    refine ⟨log ++ [.fetched 0 t.req.cid b], List.mem_append_right _ (List.mem_singleton_self _),
      fun b' hb' => ?_⟩
    obtain hb' | hb' := List.mem_append.1 hb'
    · exact hlog b' hb'
    · cases List.mem_singleton.1 hb'

/-- What is answered from the cache the cache served when the request came. -/
theorem serves_of_saysHit (hplain : req.Plain) {resp : HttpResponse}
    (hrun : env.serveCid o origin s req now = some (resp, s')) (hhit : resp.SaysHit) :
    s.edge.cache.Serves req.cid now resp.body := by
  have hstart : (Task.arrive req now).Recalls req now s s :=
    ⟨rfl, rfl, fun _ => rfl, fun _ h => absurd h (by simp [Task.arrive, Phase.rank]),
      [], trivial, nofun⟩
  obtain ⟨t, ht, hp⟩ := Task.finish_invariant (I := fun r t => t.Recalls req now s r)
    (fun _ _ _ _ h => h.piece) (fun _ _ _ _ h => h.answered) _ hstart hrun
  obtain ⟨log, htraced, hlog⟩ := ht.found
  unfold Task.Traced at htraced
  rw [hp] at htraced
  obtain ⟨b, s₁, hmem, hresp⟩ := htraced hhit
  rw [ht.req_eq, ht.now_eq] at hmem
  have hplain' : t.req.Plain := ht.req_eq ▸ hplain
  have ha : t.grant.access ≠ .denied := by
    intro hdenied
    have hheaders := hhit.1
    rw [hresp, Task.respond_eq hplain'] at hheaders
    have hmem := (List.mem_filter.1 hheaders).1
    simp [Edge.serve, hdenied, Edge.deniedResponse] at hmem
  have hbody := (Task.respond_plain (s := s₁) (b := b) hplain' ha true).2
  rw [hresp, hbody]
  exact hlog b hmem

end

/-- **The status page tells what is served from the cache.** In any state
`/status` is the text of the counters and of a list of objects, in the order of
their CIDs and each once. A public object is on the list, with a size, exactly if
a plain `GET` for it is answered at that moment from the cache, with as many
bytes. -/
theorem status_truthful (env : ServerEnv) (hitRatio : CacheStats → String) (o : Orders)
    (origin : String → Option Bytes) (s : ServerState) (raw : RawReq) (hraw : raw.route = .status)
    (now : Nat) :
    env.handle hitRatio o origin s raw now =
      some (jsonResponse 200 (statusJson hitRatio s.edge.cache.stats (s.edge.held now)), s) ∧
    ((s.edge.held now).map Prod.fst).Pairwise (· < ·) ∧
    (∀ p ∈ s.edge.held now, p.1 ∈ s.edge.publicSet) ∧
    ∀ (get : RawReq) (req : HttpReq) (n : Nat), get.route = .object req → req.Plain →
      req.cid ∈ s.edge.publicSet →
      ((req.cid, n) ∈ s.edge.held now ↔
        ∃ resp s', env.handle hitRatio o origin s get now = some (resp, s') ∧ resp.SaysHit ∧
          resp.status = 200 ∧ resp.body.length = n) := by
  refine ⟨by rw [ServerEnv.handle, hraw], pairwise_held s.edge now,
    fun p hp => (mem_held.1 hp).1, fun get req n hget hplain hpublic => ?_⟩
  rw [mem_held, ServerEnv.handle, hget]
  constructor
  · rintro ⟨-, b, hb, rfl⟩
    obtain ⟨resp, s', hrun, hstatus, hhit, rfl⟩ := serveCid_of_serves hplain hpublic hb
    exact ⟨resp, s', hrun, hhit, hstatus, rfl⟩
  · rintro ⟨resp, s', hrun, hhit, -, rfl⟩
    exact ⟨hpublic, resp.body, serves_of_saysHit hplain hrun hhit, rfl⟩

/-! ### After a cold read -/

theorem held_frontRead :
    (run (Front.step sampleEnv) (Front.start 100 0 {"a"}) frontRead).map (fun y =>
      (y.shared.edge.held 60, decide ("a" ∈ y.shared.edge.publicSet))) =
        some ([("a", 2)], true) := by
  decide +kernel

theorem status_truthful_sample :
    ∃ y resp s', run (Front.step sampleEnv) (Front.start 100 0 {"a"}) frontRead = some y ∧
      sampleEnv.handle (fun _ => "0") sampleOrders (fun _ => none) y.shared
        ⟨.get, "/cdn/a", "", []⟩ 60 = some (resp, s') ∧ resp.SaysHit ∧ resp.body.length = 2 := by
  obtain ⟨y, hrun, hend⟩ := Option.map_eq_some_iff.1 held_frontRead
  obtain ⟨hheld, hpublic⟩ := Prod.mk.inj hend
  obtain ⟨-, -, -, hiff⟩ := status_truthful sampleEnv (fun _ => "0") sampleOrders (fun _ => none)
    y.shared ⟨.get, "/status", "", []⟩ rfl 60
  obtain ⟨resp, s', hserved, hhit, -, hlen⟩ := (hiff ⟨.get, "/cdn/a", "", []⟩ plainReq 2 rfl
    ⟨rfl, rfl, rfl⟩ (of_decide_eq_true hpublic)).1 (by rw [hheld]; decide)
  exact ⟨y, resp, s', hrun, hserved, hhit, hlen⟩

end CeCdn
