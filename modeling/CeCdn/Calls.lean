/-
The calls of a client (`replicate_to`, `probe`, `purge_at` of `client.rs`)
against an edge, from the request's bytes to the answer's. A call is answered,
and the answer says what the edge did: it honored the request that was meant, or
it did nothing. What it says holds of the edge afterwards: a replica is served
for as long as was promised (`replicateTo_truthful`), and a purged object is
gone (`purge_then_probe`).
-/
import CeCdn.Wire
import CeCdn.ServeHistory

namespace CeCdn

open Lib Text Word

/-- What both sides of a call use of `serde_json`. -/
structure Serde where
  toVec : WireDoc → Bytes
  fromSlice : Bytes → Except String WireDoc
  /-- The text of a derived implementation's error. -/
  shapeError : WireDoc → String

/-- What is written is read back. -/
def Serde.Reads (sj : Serde) (doc : WireDoc) : Prop := sj.fromSlice (sj.toVec doc) = .ok doc

instance Serde.decidableReads (sj : Serde) (doc : WireDoc) : Decidable (sj.Reads doc) :=
  inferInstanceAs (Decidable (sj.fromSlice (sj.toVec doc) = .ok doc))

/-- A client that reaches an edge, and what the edge meets while it handles the
client's message. -/
structure Link where
  env : HostEnv
  sj : Serde
  /-- The edge reads JSON as the client does. -/
  alike : ∀ b, env.fromSlice b = (sj.fromSlice b).map WireDoc.erase
  src : BlobSource
  ord : IterOrder String CacheEntry
  clocks : Clocks
  /-- The node the client speaks for. -/
  sender : NodeId

namespace Link

variable (l : Link)

def msg (topic : String) (doc : WireDoc) : MeshMsg :=
  ⟨topic, hexEncode l.sender.1, hexEncode (l.sj.toVec doc)⟩

/-- `ce.request`, when the edge can be reached: the answer's bytes. -/
def request (topic : String) (doc : WireDoc) (w : World) : Except String Bytes × World :=
  match (l.env.handle l.src l.ord l.clocks (l.msg topic doc)).run w with
  | (.ok reply, w') => (.ok (l.sj.toVec reply.toDoc), w')
  | (.error _, w') => (.error "timed out", w')

/-- A call: the request, and the reading of the answer. -/
def call {α : Type} (topic edge : String) (doc : WireDoc) (ofDoc : WireDoc → Option α) (w : World) :
    Except String α × World :=
  match l.request topic doc w with
  | (.error _, w') => (.error s!"{topic} request to {edge}", w')
  | (.ok bytes, w') =>
    match l.sj.fromSlice bytes with
    | .error e => (.error s!"bad {topic} reply from {edge}: {e}", w')
    | .ok reply =>
      match ofDoc reply with
      | none => (.error s!"bad {topic} reply from {edge}: {l.sj.shapeError reply}", w')
      | some r => (.ok r, w')

def replicateTo (edge : String) (req : CacheReq) (w : World) : Except String CacheResp × World :=
  l.call TOPIC_CACHE edge req.toDoc CacheResp.ofDoc w

def probe (edge : String) (req : StatusReq) (w : World) : Except String StatusResp × World :=
  l.call TOPIC_STATUS edge req.toDoc StatusResp.ofDoc w

def purgeAt (edge : String) (req : PurgeReq) (w : World) : Except String PurgeResp × World :=
  l.call TOPIC_PURGE edge req.toDoc PurgeResp.ofDoc w

/-- The request and the edge's answer to it are read back as they were written. -/
structure ReadsBack (topic : String) (doc : WireDoc) (w : World) : Prop where
  request : l.sj.Reads doc
  reply : ∀ reply, ((l.env.handle l.src l.ord l.clocks (l.msg topic doc)).run w).1 = .ok reply →
    l.sj.Reads reply.toDoc

/-- The edge honors the message, as this action. -/
def Honors (topic : String) (doc : WireDoc) (w : World) (act : Action) : Prop :=
  l.env.accepted w.edge.publicSet l.clocks (l.msg topic doc) = some act

instance (topic : String) (doc : WireDoc) (w : World) (act : Action) :
    Decidable (l.Honors topic doc w act) :=
  inferInstanceAs (Decidable (l.env.accepted w.edge.publicSet l.clocks (l.msg topic doc) = some act))

variable {l} {topic edge : String} {doc : WireDoc} {w : World}

/-- What the edge honors is the request that was written. -/
theorem action_of_honors {act : Action} (hread : l.sj.Reads doc) (h : l.Honors topic doc w act) :
    ∃ payload, l.env.action topic payload = .ok act ∧ l.env.fromSlice payload = .ok doc.erase := by
  obtain ⟨sender, payload, ability, caps, hhon, hact⟩ := HostEnv.honored_of_accepted h
  refine ⟨payload, hact, ?_⟩
  have hpay : some (l.sj.toVec doc) = some payload := by
    rw [← hexDecode_hexEncode]
    exact hhon.payload_hex
  cases hpay
  rw [l.alike, hread]
  rfl

/-- An edge honors a request whose access it allows. -/
theorem honors_of_allow (ability caps cid : String) {act : Action} (hread : l.sj.Reads doc)
    (hlen : (l.sj.toVec doc).length ≤ MAX_REQUEST_BYTES) (hability : abilityFor topic = some ability)
    (hhead : headOfJson doc.erase = some (caps, cid)) (hcid : isValidCid cid = true)
    (hcaps : strLen caps ≤ MAX_CAPS_HEX_LEN)
    (hallow : (decideAccess ability cid (if decide (cid ∈ w.edge.publicSet) then {cid} else ∅)
      (l.env.authorizeFn caps l.sender l.clocks.authorize)).1 = .allow)
    (hact : l.env.action topic (l.sj.toVec doc) = .ok act) : l.Honors topic doc w act := by
  have hslice : l.env.fromSlice (l.sj.toVec doc) = .ok doc.erase := by
    rw [l.alike, hread]
    rfl
  have hhex : ¬ strLen (hexEncode (l.sj.toVec doc)) > satMul MAX_REQUEST_BYTES 2 := by
    rw [strLen_hexEncode]
    simp only [satMul, MAX_REQUEST_BYTES, u64Max] at hlen ⊢
    omega
  have hchecked : l.env.checked (l.msg topic doc) =
      .ok (l.sj.toVec doc, l.sender, ability, caps, cid) := by
    simp only [HostEnv.checked, msg, hexDecode_hexEncode, if_neg hhex, Option.bind_some,
      ByteArr.ofList_val, hability, HostEnv.capsAndCid, hslice, hhead, hcid, Bool.not_true,
      Bool.false_eq_true, if_false, if_neg (Nat.not_lt.2 hlen), if_neg (Nat.not_lt.2 hcaps)]
  rw [Honors, HostEnv.accepted, hchecked]
  simp only
  split
  · next h =>
    rw [h] at hallow
    cases hallow
  · exact congrArg Except.toOption hact

/-- The handler does what it honors. -/
theorem handle_of_honors {act : Action} (h : l.Honors topic doc w act) :
    (l.env.handle l.src l.ord l.clocks (l.msg topic doc)).run w =
      (act.perform l.env.rs l.src l.ord l.clocks.dispatch).run w := by
  obtain ⟨act', hacc, hrun⟩ | ⟨hacc, -⟩ :=
    l.env.handle_accepted l.clocks (l.msg topic doc) l.src l.ord w
  · rw [Honors, hacc] at h
    cases h
    exact hrun
  · rw [Honors, hacc] at h
    cases h

variable (edge) in
/-- **A call is answered by what the edge did.** The edge honored the request
and the client reads its reply, or it refused it, did nothing, and the client
reads the denial. -/
theorem call_cases {α : Type} {ofDoc : WireDoc → Option α} (refusal : String → α)
    (hneg : ∀ reason, ofDoc (Reply.negative reason).toDoc = some (refusal reason))
    (hback : l.ReadsBack topic doc w) :
    (∃ act reply w', l.Honors topic doc w act ∧
      (act.perform l.env.rs l.src l.ord l.clocks.dispatch).run w = (.ok reply, w') ∧
      ∀ r, ofDoc reply.toDoc = some r → l.call topic edge doc ofDoc w = (.ok r, w')) ∨
    ((∀ act, ¬ l.Honors topic doc w act) ∧
      ∃ reason, l.call topic edge doc ofDoc w = (.ok (refusal reason), w)) := by
  have hcall : ∀ reply w' r, (l.env.handle l.src l.ord l.clocks (l.msg topic doc)).run w =
      (.ok reply, w') → ofDoc reply.toDoc = some r →
      l.call topic edge doc ofDoc w = (.ok r, w') := by
    intro reply w' r hrun hr
    have hread : l.sj.fromSlice (l.sj.toVec reply.toDoc) = .ok reply.toDoc :=
      hback.reply reply (congrArg Prod.fst hrun)
    simp only [call, request, hrun, hread, hr]
  obtain ⟨act, hacc, hrun⟩ | ⟨hacc, reason, hrun⟩ :=
    l.env.handle_accepted l.clocks (l.msg topic doc) l.src l.ord w
  · obtain ⟨reply, hreply⟩ := act.perform_replies l.env.rs l.src l.ord l.clocks.dispatch w
    have hperf : (act.perform l.env.rs l.src l.ord l.clocks.dispatch).run w = (.ok reply,
        ((act.perform l.env.rs l.src l.ord l.clocks.dispatch).run w).2) := Prod.ext hreply rfl
    exact .inl ⟨act, reply, _, hacc, hperf, fun r hr => hcall reply _ r (hrun.trans hperf) hr⟩
  · refine .inr ⟨fun act hact => ?_, reason, hcall _ w _ hrun (hneg reason)⟩
    rw [Honors, hacc] at hact
    cases hact

end Link

/-! ## What the actions do -/

section

variable {rs : CeRs} {src : BlobSource} {ord : IterOrder String CacheEntry} {now : Nat} {w : World}

theorem replyWith_of_run_ok {α β : Type} {m : Op α} {ok : α → β} {err : String → β} {w' : World}
    {a : α} (h : m.run w = (.ok a, w')) : (replyWith m ok err).run w = (.ok (ok a), w') := by
  rw [replyWith_of_ok (congrArg Prod.fst h), h]

theorem replyWith_of_run_err {α β : Type} {m : Op α} {ok : α → β} {err : String → β} {w' : World}
    {e : String} (h : m.run w = (.error (.err e), w')) :
    (replyWith m ok err).run w = (.ok (err e), w') := by
  rw [replyWith_of_err (congrArg Prod.fst h), h]

/-- An object is cached only within the budget. -/
theorem EdgeState.cacheObject_le {cid : String} {ttlSecs n : Nat}
    (h : ((cacheObject rs src ord cid ttlSecs now).run w).1 = .ok n) :
    ∃ m b, manifestAt rs src cid = .ok m ∧ m.totalSize ≤ w.edge.cache.maxBytes ∧
      src.getObject cid = .ok b ∧ b.length ≤ w.edge.cache.maxBytes := by
  obtain ⟨m, b, ttl, calls, hm, htotal, hobj, hrun⟩ | ⟨e, w', hrun, -⟩ :=
    cacheObject_cases rs src ord cid ttlSecs now w
  · refine ⟨m, b, hm, htotal, hobj, ?_⟩
    by_contra hlen
    -- then the cache refuses the object, and the operation fails
    have ht := objectTotalSize_apply rs src cid w
    rw [hm] at ht
    have ho := getObject_apply src cid (w.fetched (.blob cid))
    rw [hobj] at ho
    have hc : ((w.fetched (.blob cid)).fetched (.object cid)).edge.cache = w.edge.cache := rfl
    rw [cacheObject, Eff.run_bind_of_ok ht, Eff.run_bind_of_ok (readCache_apply _ _),
      World.edge_fetched, if_neg (Nat.not_lt.2 htotal), Eff.run_bind_of_ok ho,
      Eff.run_bind_of_ok (withCache_apply _ _)] at h
    simp only [hc, EdgeCache.insertWithTtl_of_lt ord cid _ now (Nat.not_le.1 hlen)] at h
    cases h
  · rw [hrun] at h
    cases h

/-- The lifetime an edge gives an object that is asked for with this TTL. -/
def EdgeCache.ttlFor (c : EdgeCache) (ttlSecs : Nat) : Nat :=
  if ttlSecs = 0 then c.defaultTtlSecs else ttlSecs

variable (rs src ord now w) in
/-- A request to cache: the object is held for the TTL that the answer names, or
the answer gives a reason. -/
theorem Action.perform_cache (req : CacheReq) :
    ∃ r w', ((Action.cache req).perform rs src ord now).run w = (.ok (.cache r), w') ∧
      ((r.cached = true ∧ r.ttlSecs = w.edge.cache.ttlFor req.ttlSecs ∧
        ∃ b, src.getObject req.cid = .ok b ∧ r.storedBytes = b.length ∧
          ∀ now', now' ≤ (if r.ttlSecs = 0 then u64Max else satAdd now r.ttlSecs) →
            (w'.edge.cache.get req.cid now').1 = some b) ∨
      (r.cached = false ∧ r.reason.isSome ∧ SameEdge w w')) := by
  obtain ⟨m₀, b₀, ttl₀, calls₀, -, -, -, hfits⟩ | ⟨e, w', hrun, hsame⟩ :=
    EdgeState.cacheObject_cases rs src ord req.cid req.ttlSecs now w
  · obtain ⟨m, b, hm, htotal, hobj, hlen⟩ := EdgeState.cacheObject_le (congrArg Prod.fst hfits)
    have hrun : (EdgeState.cacheObject rs src ord req.cid req.ttlSecs now).run w = (.ok b.length,
        ((w.fetched (.blob req.cid)).fetched (.object req.cid)).setCache
          (w.edge.cache.insertWithTtl ord req.cid b (w.edge.cache.ttlFor req.ttlSecs) now).2) :=
      EdgeState.cacheObject_of_fits rs src ord req.ttlSecs now hm hobj htotal hlen
    have hdefault : (w.edge.cache.insertWithTtl ord req.cid b
        (w.edge.cache.ttlFor req.ttlSecs) now).2.defaultTtlSecs = w.edge.cache.defaultTtlSecs :=
      congrArg (fun c => c.2.1) (EdgeCache.config_insertWithTtl ord req.cid b
        (w.edge.cache.ttlFor req.ttlSecs) now w.edge.cache)
    have hpair : (do
        let len ← EdgeState.cacheObject rs src ord req.cid req.ttlSecs now
        let ttl ← EdgeState.readCache fun c =>
          if req.ttlSecs = 0 then c.defaultTtlSecs else req.ttlSecs
        pure (len, ttl) : Op (Nat × Nat)).run w = (.ok (b.length, w.edge.cache.ttlFor req.ttlSecs),
          ((w.fetched (.blob req.cid)).fetched (.object req.cid)).setCache
            (w.edge.cache.insertWithTtl ord req.cid b (w.edge.cache.ttlFor req.ttlSecs) now).2) := by
      rw [Eff.run_bind_of_ok hrun, Eff.run_bind_of_ok (EdgeState.readCache_apply _ _)]
      simp only [World.cache_setCache, Eff.run_pure, hdefault]
      rfl
    refine ⟨{ cached := true, storedBytes := b.length, ttlSecs := w.edge.cache.ttlFor req.ttlSecs },
      _, replyWith_of_run_ok hpair, .inl ⟨rfl, rfl, b, hobj, rfl, fun now' hnow => ?_⟩⟩
    exact EdgeCache.get_insertWithTtl hlen hnow
  · exact ⟨{ cached := false, reason := some s!"fetch failed: {e}" }, w',
      replyWith_of_run_err (Eff.run_bind_of_error hrun), .inr ⟨rfl, rfl, hsame⟩⟩

end

/-! ### One edge and one client -/

/-- JSON, of values whose texts need no escapes. -/
def WireValue.print : WireValue → Bytes
  | .null => utf8 "null"
  | .bool b => utf8 (toString b)
  | .u64 n => utf8 (toString n)
  | .str s => utf8 "\"" ++ utf8 s ++ utf8 "\""
  | .other => utf8 "0.5"

def WireDoc.print : WireDoc → Bytes
  | .object members =>
    utf8 "\x7b" ++ (utf8 ",").intercalate (members.map fun m =>
      utf8 "\"" ++ utf8 m.1 ++ utf8 "\":" ++ m.2.print) ++ utf8 "\x7d"
  | .array values => utf8 "[" ++ (utf8 ",").intercalate (values.map WireValue.print) ++ utf8 "]"
  | .scalar => utf8 "0"

/-- It reads the documents of a list. -/
def sampleSerde (docs : List WireDoc) : Serde where
  toVec := WireDoc.print
  fromSlice b :=
    match docs.find? fun doc => doc.print = b with
    | some doc => .ok doc
    | none => .error "expected value at line 1 column 1"
  shapeError _ := "missing field"

def sampleCid : String := "00000000000000000000000000000000000000000000000000000000000000aa"

theorem two_le_u64Max : 2 ≤ u64Max := by decide

/-- The requester's chain is accepted, and each object is the bytes 1, 2. -/
def sampleLink (docs : List WireDoc) : Link where
  env :=
    { rs := ⟨fun _ => "", fun _ => .ok ⟨"v1", 2, 2, [""], two_le_u64Max, two_le_u64Max⟩,
        fun _ => true, fun _ => true⟩
      iam := toyIam fun _ => some [sampleCap]
      fromSlice := fun b => ((sampleSerde docs).fromSlice b).map WireDoc.erase
      shapeError := fun _ => ""
      edgeId := sampleEdge
      roots := []
      revoked := ∅ }
  sj := sampleSerde docs
  alike _ := rfl
  src := ⟨fun _ => .ok [], fun _ => .ok [1, 2]⟩
  ord := .stored _ _
  clocks := ⟨50, 50⟩
  sender := sampleReader

def sampleWorld : World := ⟨.new 100 30, []⟩

def sampleCacheReq : CacheReq := ⟨"c0", sampleCid, 2, 0⟩

def sampleCached : CacheResp := { cached := true, storedBytes := 2, ttlSecs := 30 }

def cacheLink : Link := sampleLink [sampleCacheReq.toDoc, sampleCached.toDoc]

def purgeReq : PurgeReq := ⟨"c0", sampleCid⟩

def purgeLink : Link := sampleLink [purgeReq.toDoc, (PurgeResp.mk true none).toDoc]

/-- The edge, with the object. -/
def stockedWorld : World :=
  sampleWorld.setCache
    (sampleWorld.edge.cache.insertWithTtl (.stored _ _) sampleCid [1, 2] 30 50).2

/-! ## The calls -/

namespace Link

variable {l : Link} {edge : String} {w : World}

theorem cache_of_honors {req : CacheReq} {act : Action} (hread : l.sj.Reads req.toDoc)
    (h : l.Honors TOPIC_CACHE req.toDoc w act) : act = .cache req := by
  obtain ⟨payload, hact, hdoc⟩ := action_of_honors hread h
  have hbody : l.env.body CacheReq.ofJson payload = .ok req :=
    HostEnv.body_eq_ok.2 ⟨_, hdoc, CacheReq.ofJson_toDoc req⟩
  rw [HostEnv.action, if_pos rfl, hbody] at hact
  cases hact
  rfl

theorem purge_of_honors {req : PurgeReq} {act : Action} (hread : l.sj.Reads req.toDoc)
    (h : l.Honors TOPIC_PURGE req.toDoc w act) : act = .purge req := by
  obtain ⟨payload, hact, hdoc⟩ := action_of_honors hread h
  have hbody : l.env.body PurgeReq.ofJson payload = .ok req :=
    HostEnv.body_eq_ok.2 ⟨_, hdoc, PurgeReq.ofJson_toDoc req⟩
  rw [HostEnv.action, if_neg (by decide), if_neg (by decide), if_pos rfl, hbody] at hact
  cases hact
  rfl

theorem status_of_honors {req : StatusReq} {act : Action} (hread : l.sj.Reads req.toDoc)
    (h : l.Honors TOPIC_STATUS req.toDoc w act) : act = .status req := by
  obtain ⟨payload, hact, hdoc⟩ := action_of_honors hread h
  have hbody : l.env.body StatusReq.ofJson payload = .ok req :=
    HostEnv.body_eq_ok.2 ⟨_, hdoc, StatusReq.ofJson_toDoc req⟩
  rw [HostEnv.action, if_neg (by decide), if_neg (by decide), if_neg (by decide), hbody] at hact
  cases hact
  rfl

/-- A request to cache is performed, or refused and nothing done. -/
theorem replicateTo_cases (l : Link) (edge : String) (req : CacheReq) (w : World)
    (hback : l.ReadsBack TOPIC_CACHE req.toDoc w) :
    (l.Honors TOPIC_CACHE req.toDoc w (.cache req) ∧
      ∃ r w', l.replicateTo edge req w = (.ok r, w') ∧
        ((Action.cache req).perform l.env.rs l.src l.ord l.clocks.dispatch).run w =
          (.ok (.cache r), w')) ∨
    ∃ r, l.replicateTo edge req w = (.ok r, w) ∧ r.cached = false ∧ r.reason.isSome := by
  obtain ⟨act, reply, w', hhon, hperf, hcall⟩ | ⟨-, reason, hcall⟩ :=
    call_cases edge _ CacheResp.ofDoc_negative hback
  · obtain rfl := cache_of_honors hback.request hhon
    obtain ⟨r, w₁, hrun, -⟩ := Action.perform_cache l.env.rs l.src l.ord l.clocks.dispatch w req
    rw [hrun] at hperf
    cases hperf
    exact .inl ⟨hhon, r, w', hcall r (CacheResp.ofDoc_toDoc r), hrun⟩
  · exact .inr ⟨_, hcall, rfl, rfl⟩

/-- **What an edge promises it holds.** A request to cache is answered. Answered
"cached", the edge honored this very request, and holds the object that the
store answered for its CID: a read finds those bytes at every time within the
TTL that the answer names. Otherwise the answer gives a reason and the edge is
as it was. -/
theorem replicateTo_truthful (l : Link) (edge : String) (req : CacheReq) (w : World)
    (hback : l.ReadsBack TOPIC_CACHE req.toDoc w) :
    ∃ r w', l.replicateTo edge req w = (.ok r, w') ∧
      ((r.cached = true ∧ l.Honors TOPIC_CACHE req.toDoc w (.cache req) ∧
        r.ttlSecs = w.edge.cache.ttlFor req.ttlSecs ∧
        ∃ b, l.src.getObject req.cid = .ok b ∧ r.storedBytes = b.length ∧
          ∀ now, now ≤ (if r.ttlSecs = 0 then u64Max else satAdd l.clocks.dispatch r.ttlSecs) →
            (w'.edge.cache.get req.cid now).1 = some b) ∨
      (r.cached = false ∧ r.reason.isSome ∧ SameEdge w w')) := by
  obtain ⟨hhon, r, w', hcall, hperf⟩ | ⟨r, hcall, hno, hreason⟩ := replicateTo_cases l edge req w hback
  · obtain ⟨r₁, w₁, hrun, hr⟩ := Action.perform_cache l.env.rs l.src l.ord l.clocks.dispatch w req
    rw [hrun] at hperf
    cases hperf
    refine ⟨r, w', hcall, ?_⟩
    obtain ⟨hcached, httl, hheld⟩ | hnot := hr
    · exact .inl ⟨hcached, hhon, httl, hheld⟩
    · exact .inr hnot
  · exact ⟨r, w, hcall, .inr ⟨hno, hreason, SameEdge.refl w⟩⟩

theorem cacheLink_honors : cacheLink.Honors TOPIC_CACHE sampleCacheReq.toDoc sampleWorld
    (.cache sampleCacheReq) :=
  honors_of_allow ABILITY_CACHE "c0" sampleCid (by decide +kernel) (by decide +kernel) (by decide)
    (by decide) (by decide +kernel) (by decide +kernel) (by decide +kernel) (by decide +kernel)

theorem cacheLink_perform : (((Action.cache sampleCacheReq).perform cacheLink.env.rs cacheLink.src
    cacheLink.ord cacheLink.clocks.dispatch).run sampleWorld).1 = .ok (.cache sampleCached) := by
  decide +kernel

theorem cacheLink_readsBack : cacheLink.ReadsBack TOPIC_CACHE sampleCacheReq.toDoc sampleWorld := by
  refine ⟨by decide +kernel, fun reply hreply => ?_⟩
  rw [handle_of_honors cacheLink_honors, cacheLink_perform] at hreply
  cases hreply
  decide +kernel

theorem cacheLink_replicateTo :
    (cacheLink.replicateTo "edge-a" sampleCacheReq sampleWorld).1 = .ok sampleCached := by
  rw [replicateTo, call, request, handle_of_honors cacheLink_honors]
  decide +kernel

theorem replicateTo_truthful_sample :
    ∃ r w', cacheLink.replicateTo "edge-a" sampleCacheReq sampleWorld = (.ok r, w') ∧
      (w'.edge.cache.get sampleCid 80).1 = some [1, 2] := by
  have hcached := cacheLink_replicateTo
  obtain ⟨r, w', hcall, hr⟩ :=
    replicateTo_truthful cacheLink "edge-a" sampleCacheReq sampleWorld cacheLink_readsBack
  rw [hcall] at hcached
  cases hcached
  obtain ⟨-, -, -, b, hobj, -, hheld⟩ | ⟨hno, -⟩ := hr
  · cases hobj
    exact ⟨_, w', hcall, hheld 80 (by decide)⟩
  · cases hno

/-- What an edge answers to a probe it honors. -/
theorem probe_cases (l : Link) (edge : String) (req : StatusReq) (w : World)
    (hback : l.ReadsBack TOPIC_STATUS req.toDoc w) :
    ∃ s, l.probe edge req w = (.ok s, w) ∧
      ((l.Honors TOPIC_STATUS req.toDoc w (.status req) ∧
        s.held = (w.edge.cache.get req.cid l.clocks.dispatch).1.isSome ∧
        ∀ b, (w.edge.cache.get req.cid l.clocks.dispatch).1 = some b → s.bytes = b.length) ∨
      ((∀ act, ¬ l.Honors TOPIC_STATUS req.toDoc w act) ∧ s = ⟨false, 0, 0⟩)) := by
  obtain ⟨act, reply, w', hhon, hperf, hcall⟩ | ⟨hnot, reason, hcall⟩ :=
    call_cases edge _ StatusResp.ofDoc_negative hback
  · obtain rfl := status_of_honors hback.request hhon
    cases hperf
    refine ⟨_, hcall _ (StatusResp.ofDoc_toDoc _), .inl ⟨hhon, ?_, fun b hb => ?_⟩⟩
    · exact (EdgeCache.get_isSome _ _ _).symm
    · obtain ⟨e, he, rfl, hnow⟩ := EdgeCache.get_eq_some hb
      simp [EdgeCache.containsFresh, EdgeCache.byteLen, he, hnow]
  · exact ⟨_, hcall, .inr ⟨hnot, rfl⟩⟩

theorem purgeAt_cases (l : Link) (edge : String) (req : PurgeReq) (w : World)
    (hback : l.ReadsBack TOPIC_PURGE req.toDoc w) :
    ∃ r w', l.purgeAt edge req w = (.ok r, w') ∧
      ((l.Honors TOPIC_PURGE req.toDoc w (.purge req) ∧
        r.purged = (w.edge.cache.entries.lookup req.cid).isSome ∧
        w' = w.setCache (w.edge.cache.purge req.cid).2) ∨
      ((∀ act, ¬ l.Honors TOPIC_PURGE req.toDoc w act) ∧ r.purged = false ∧ r.reason.isSome ∧
        w' = w)) := by
  obtain ⟨act, reply, w', hhon, hperf, hcall⟩ | ⟨hnot, reason, hcall⟩ :=
    call_cases edge _ PurgeResp.ofDoc_negative hback
  · obtain rfl := purge_of_honors hback.request hhon
    cases hperf
    refine ⟨_, _, hcall _ (PurgeResp.ofDoc_toDoc _), .inl ⟨hhon, ?_, rfl⟩⟩
    exact EdgeCache.dropEntry_fst req.cid w.edge.cache
  · exact ⟨_, w, hcall, .inr ⟨hnot, rfl, rfl, rfl⟩⟩

/-- **A purged object is gone.** A purge that the edge honors is answered by
whether the edge had the object, and from then on every client that probes for
it, with whatever capabilities and at whatever time, is answered that the edge
does not hold it. -/
theorem purge_then_probe (l : Link) (edge : String) (req : PurgeReq) (w : World)
    (hback : l.ReadsBack TOPIC_PURGE req.toDoc w)
    (hhon : l.Honors TOPIC_PURGE req.toDoc w (.purge req)) :
    ∃ r w', l.purgeAt edge req w = (.ok r, w') ∧
      (r.purged = true ↔ ∃ e, w.edge.cache.entries.lookup req.cid = some e) ∧
      ∀ (l' : Link) (req' : StatusReq), req'.cid = req.cid →
        l'.ReadsBack TOPIC_STATUS req'.toDoc w' →
        ∃ s, l'.probe edge req' w' = (.ok s, w') ∧ s.held = false := by
  obtain ⟨r, w', hcall, ⟨-, hpurged, rfl⟩ | ⟨hnot, -⟩⟩ := purgeAt_cases l edge req w hback
  · refine ⟨r, _, hcall, ?_, fun l' req' hcid hback' => ?_⟩
    · rw [hpurged, Option.isSome_iff_exists]
    · obtain ⟨s, hprobe, ⟨-, hheld, -⟩ | ⟨-, rfl⟩⟩ := probe_cases l' edge req' _ hback'
      · refine ⟨s, hprobe, ?_⟩
        rw [hheld, hcid]
        refine Option.isSome_eq_false_iff.2 (Option.isNone_iff_eq_none.2 ?_)
        refine Option.eq_none_iff_forall_ne_some.2 fun b hb => ?_
        obtain ⟨e, he, -⟩ := EdgeCache.get_eq_some hb
        rw [World.cache_setCache, EdgeCache.purge, EdgeCache.dropEntry_snd] at he
        exact (HashMap.lookup_erase_eq_some.1 he).1 rfl
      · exact ⟨_, hprobe, rfl⟩
  · exact absurd hhon (hnot _)

theorem purgeLink_honors : purgeLink.Honors TOPIC_PURGE purgeReq.toDoc stockedWorld
    (.purge purgeReq) :=
  honors_of_allow ABILITY_PURGE "c0" sampleCid (by decide +kernel) (by decide +kernel) (by decide)
    (by decide) (by decide +kernel) (by decide +kernel) (by decide +kernel) (by decide +kernel)

theorem purge_then_probe_sample :
    ∃ r w', purgeLink.purgeAt "edge-a" purgeReq stockedWorld = (.ok r, w') ∧
      (r.purged = true ↔ ∃ e, stockedWorld.edge.cache.entries.lookup sampleCid = some e) ∧
      ∀ (l' : Link) (req' : StatusReq), req'.cid = sampleCid →
        l'.ReadsBack TOPIC_STATUS req'.toDoc w' →
        ∃ s, l'.probe "edge-a" req' w' = (.ok s, w') ∧ s.held = false := by
  have hperf : (((Action.purge purgeReq).perform purgeLink.env.rs purgeLink.src
      purgeLink.ord purgeLink.clocks.dispatch).run stockedWorld).1 =
      .ok (.purge ⟨true, none⟩) := by
    decide +kernel
  refine purge_then_probe purgeLink "edge-a" purgeReq stockedWorld
    ⟨by decide +kernel, fun reply hreply => ?_⟩ purgeLink_honors
  rw [handle_of_honors purgeLink_honors, hperf] at hreply
  cases hreply
  decide +kernel

end Link

end CeCdn
