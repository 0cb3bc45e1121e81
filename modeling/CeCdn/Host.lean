/-
The mesh host (`host.rs`): the state of an edge, the operations that fetch into
its cache and read from it, and the handler of one `cdn/*` message.

An operation is an `Eff` over the edge and the record of its fetches. The cache
mutex is taken and released around each use of the cache, as in the source, but
the host handles one message at a time. `now_secs()` is read twice by the
handler, so its two values are two arguments.
-/
import CeCdn.Cache
import CeCdn.Client
import CeCdn.Iam
import CeCdn.Proto
import Mathlib.Data.Finset.Basic

namespace CeCdn

open Lib Text Word

structure EdgeState where
  cache : EdgeCache
  /-- The source's `public`: the CIDs served without a capability. -/
  publicSet : Finset String

/-- An edge and the fetches made so far. -/
structure World where
  edge : EdgeState
  calls : List SourceCall

abbrev Op (α : Type) := Eff World Fail α

inductive Decision where
  | allow
  | deny
deriving DecidableEq

/-- Whether to honor `action` on `cid`; a denial carries its reason. -/
def decideAccess (action cid : String) (publicSet : Finset String)
    (authorize : String → Except String Unit) : Decision × Option String :=
  if action = ABILITY_READ ∧ cid ∈ publicSet then (.allow, none)
  else
    match authorize action with
    | .ok () => (.allow, none)
    | .error reason => (.deny, some reason)

namespace EdgeState

def new (maxBytes defaultTtlSecs : Nat) : EdgeState := ⟨.new maxBytes defaultTtlSecs, ∅⟩

/-- An operation on the cache, under its lock. -/
def withCache {α : Type} (f : EdgeCache → α × EdgeCache) : Op α :=
  Eff.step fun w => ((f w.edge.cache).1, { w with edge := { w.edge with cache := (f w.edge.cache).2 } })

def readCache {α : Type} (f : EdgeCache → α) : Op α := withCache fun c => (f c, c)

section

variable (rs : CeRs) (src : BlobSource)

def getBlob (cid : String) : Op Bytes := ⟨fun w =>
  ((src.getBlob cid).mapError .err, { w with calls := w.calls ++ [.blob cid] })⟩

def getObject (cid : String) : Op Bytes := ⟨fun w =>
  ((src.getObject cid).mapError .err, { w with calls := w.calls ++ [.object cid] })⟩

def fetchManifest (cid : String) : Op Manifest := do
  let bytes ← getBlob src cid
  Eff.ofExcept (parseV1 rs cid bytes)

def objectTotalSize (cid : String) : Op Nat := do
  let m ← fetchManifest rs src cid
  pure m.totalSize

/-- Fetch an object into the cache. -/
def cacheObject (ord : IterOrder String CacheEntry) (cid : String) (ttlSecs now : Nat) : Op Nat := do
  let total ← objectTotalSize rs src cid
  let maxBytes ← readCache EdgeCache.maxBytes
  if total > maxBytes then
    Eff.fail (.err s!"object {cid} ({total} bytes) exceeds this edge's cache budget")
  else do
    let bytes ← getObject src cid
    let stored ← withCache fun c =>
      c.insertWithTtl ord cid bytes (if ttlSecs = 0 then c.defaultTtlSecs else ttlSecs) now
    if stored then pure bytes.length
    else Eff.fail (.err s!"object {cid} ({bytes.length} bytes) exceeds this edge's cache budget")

/-- The part of `read_object` after a miss. -/
def readObjectCold (ord : IterOrder String CacheEntry) (cid : String) (now : Nat) :
    Op (Bytes × Bool) := do
  let total ← objectTotalSize rs src cid
  if total > MAX_MESH_OBJECT_BYTES then
    Eff.fail (.err s!"object {cid} ({total} bytes) exceeds the mesh read limit ({MAX_MESH_OBJECT_BYTES} bytes); fetch by range or over HTTP")
  else do
    let bytes ← getObject src cid
    let _ ← withCache fun c => c.insert ord cid bytes now
    pure (bytes, false)

def readObject (ord : IterOrder String CacheEntry) (cid : String) (now : Nat) :
    Op (Bytes × Bool) := do
  match ← withCache fun c => c.get cid now with
  | some bytes => pure (bytes, true)
  | none => readObjectCold rs src ord cid now

/-- The chunks of a span, the first index clamped to the last. -/
def fetchChunks (m : Manifest) (span : ChunkSpan) : Op Bytes :=
  if m.chunks.isEmpty then pure []
  else do
    let last := min span.lastChunk (m.chunks.length - 1)
    let first := min span.firstChunk last
    let cids ← Eff.ofExcept (sliceIncl m.chunks first last)
    pullChunks rs (getBlob src) cids []

/-- The bytes of the chunks that `read_range` counts before it fetches them. -/
def coveringBytes (m : Manifest) (span : ChunkSpan) : Nat :=
  satMul (satAdd (span.lastChunk - span.firstChunk) 1) m.chunkSize

/-- The part of `read_range` after the cache. -/
def readRangeCold (cid : String) (range : ByteRange) : Op (Bytes × Bool) := do
  let m ← fetchManifest rs src cid
  match chunksForRange m range with
  | none => Eff.fail (.err s!"manifest {cid} has zero chunk_size")
  | some span =>
    let covering := coveringBytes m span
    if covering > MAX_MESH_RANGE_BYTES then
      Eff.fail (.err s!"range covers {covering} bytes, exceeding the mesh range limit ({MAX_MESH_RANGE_BYTES} bytes)")
    else do
      let joined ← fetchChunks rs src m span
      let sliced ← Eff.ofExcept ((sliceSpan joined span).mapError .err)
      pure (sliced, false)

def readRange (cid : String) (range : ByteRange) (now : Nat) : Op (Bytes × Bool) := do
  match ← withCache fun c => c.get cid now with
  | some bytes =>
    if range.stop < bytes.length then do
      let sliced ← Eff.ofExcept (sliceIncl bytes range.start range.stop)
      pure (sliced, true)
    else readRangeCold rs src cid range
  | none => readRangeCold rs src cid range

end

end EdgeState

/-! ## Reading -/

section

variable (rs : CeRs) (src : BlobSource)

/-- A `match` on a result whose error is replied with; a panic goes on. -/
def replyWith {α β : Type} (m : Op α) (ok : α → β) (err : String → β) : Op β := do
  match ← Eff.attempt m with
  | .ok a => pure (ok a)
  | .error (.err e) => pure (err e)
  | .error .panic => Eff.fail .panic

/-- The whole-object part of `do_read`. -/
def doReadWhole (ord : IterOrder String CacheEntry) (req : ReadReq) (now : Nat) : Op ReadResp :=
  replyWith (EdgeState.readObject rs src ord req.cid now)
    (fun (bytes, cacheHit) =>
      { ok := true, bytesHex := hexEncode bytes, totalLen := bytes.length, cacheHit })
    fun e => { ok := false, reason := some s!"not retrievable: {e}" }

/-- The range part of `do_read`, with the total of the manifest. -/
def doReadRange (req : ReadReq) (r : ByteRange) (total now : Nat) : Op ReadResp :=
  replyWith (EdgeState.readRange rs src req.cid r now)
    (fun (bytes, cacheHit) =>
      { ok := true, bytesHex := hexEncode bytes, totalLen := total, isPartial := true,
        rangeStart := r.start, rangeEnd := r.stop, cacheHit })
    fun e => { ok := false, totalLen := total, reason := some s!"range read failed: {e}" }

def doRead (ord : IterOrder String CacheEntry) (req : ReadReq) (now : Nat) : Op ReadResp :=
  match req.range with
  | none => doReadWhole rs src ord req now
  | some hdr => do
    match ← Eff.attempt (EdgeState.objectTotalSize rs src req.cid) with
    | .error (.err e) => pure { ok := false, reason := some s!"not retrievable: {e}" }
    | .error .panic => Eff.fail .panic
    | .ok total =>
      match parseRange (some hdr) total with
      | .full => doReadWhole rs src ord req now
      | .partialRange r => doReadRange rs src req r total now
      | .unsatisfiable =>
        pure { ok := false, totalLen := total,
               reason := some s!"range not satisfiable for {total} bytes" }

end

/-! ## The handler of one message -/

/-- What the handler answers, before serialization. -/
inductive Reply where
  | cache (r : CacheResp)
  | read (r : ReadResp)
  | purge (r : PurgeResp)
  | status (r : StatusResp)
  /-- `cached`, `ok`, `held` and `purged` all false, with the reason. -/
  | negative (reason : String)
deriving DecidableEq

/-- An authorized request. -/
inductive Action where
  | cache (req : CacheReq)
  | read (req : ReadReq)
  | purge (req : PurgeReq)
  | status (req : StatusReq)
deriving DecidableEq

def Action.cid : Action → String
  | .cache req => req.cid
  | .read req => req.cid
  | .purge req => req.cid
  | .status req => req.cid

section

variable (rs : CeRs) (src : BlobSource)

/-- The arms of the dispatch of `handle_inner`. -/
def Action.perform (ord : IterOrder String CacheEntry) (now : Nat) : Action → Op Reply
  | .cache req =>
    replyWith
      (do
        let len ← EdgeState.cacheObject rs src ord req.cid req.ttlSecs now
        let ttl ← EdgeState.readCache fun c =>
          if req.ttlSecs = 0 then c.defaultTtlSecs else req.ttlSecs
        pure (len, ttl))
      (fun (len, ttl) => .cache { cached := true, storedBytes := len, ttlSecs := ttl })
      fun e => .cache { cached := false, reason := some s!"fetch failed: {e}" }
  | .read req => do
    let resp ← doRead rs src ord req now
    pure (.read resp)
  | .purge req => do
    let purged ← EdgeState.withCache (EdgeCache.purge req.cid)
    pure (.purge { purged })
  | .status req => do
    let resp ← EdgeState.readCache fun c =>
      let held := c.containsFresh req.cid now
      { held
        bytes := if held then (c.byteLen req.cid).getD 0 else 0
        ttlRemaining :=
          ((c.ttlRemaining req.cid now).map fun t => if t = u64Max then 0 else t).getD 0 }
    pure (.status resp)

end

/-- What the handler is configured with, and the libraries it calls. -/
structure HostEnv where
  rs : CeRs
  iam : Iam
  /-- The JSON parser; the error is its text. -/
  fromSlice : Bytes → Except String JsonDoc
  /-- The text of a derived implementation's error. -/
  shapeError : Bytes → String
  edgeId : NodeId
  roots : List NodeId
  revoked : Finset (NodeId × Nat)

/-- A message of the inbox. -/
structure MeshMsg where
  topic : String
  fromHex : String
  payloadHex : String

/-- The values `now_secs()` takes when the chain is authorized and when the
request is dispatched. -/
structure Clocks where
  authorize : Nat
  dispatch : Nat

def abilityFor (topic : String) : Option String :=
  if topic = TOPIC_CACHE then some ABILITY_CACHE
  else if topic = TOPIC_READ then some ABILITY_READ
  else if topic = TOPIC_PURGE then some ABILITY_PURGE
  else if topic = TOPIC_STATUS then some ABILITY_READ
  else none

namespace HostEnv

variable (env : HostEnv)

def isRevoked (issuer : NodeId) (nonce : Nat) : Bool := decide ((issuer, nonce) ∈ env.revoked)

/-- The authorizer closure of `handle_inner`. -/
def authorizeFn (caps : String) (sender : NodeId) (now : Nat) (action : String) :
    Except String Unit :=
  match env.iam.decodeChain caps with
  | none => .error "bad capability"
  | some chain => env.iam.authorize env.edgeId env.roots [] now sender action chain env.isRevoked

def capsAndCid (payload : Bytes) : Except Fail (String × String) :=
  match env.fromSlice payload with
  | .error _ => .error (.err "payload missing cid")
  | .ok doc =>
    match headOfJson doc with
    | none => .error (.err "payload missing cid")
    | some h => .ok h

/-- `serde_json::from_slice` of a request's body. -/
def body {α : Type} (ofJson : JsonDoc → Option α) (payload : Bytes) : Except Fail α :=
  match env.fromSlice payload with
  | .error e => .error (.err e)
  | .ok doc =>
    match ofJson doc with
    | none => .error (.err (env.shapeError payload))
    | some r => .ok r

/-- The request of a topic that `ability_for` knows. -/
def action (topic : String) (payload : Bytes) : Except Fail Action :=
  if topic = TOPIC_CACHE then (env.body CacheReq.ofJson payload).map .cache
  else if topic = TOPIC_READ then (env.body ReadReq.ofJson payload).map .read
  else if topic = TOPIC_PURGE then (env.body PurgeReq.ofJson payload).map .purge
  else (env.body StatusReq.ofJson payload).map .status

/-- What `handle_inner` checks before it decides: the payload, the sender, the
ability, the capability chain and the CID. -/
def checked (msg : MeshMsg) : Except Fail (Bytes × NodeId × String × String × String) :=
  if strLen msg.payloadHex > satMul MAX_REQUEST_BYTES 2 then .error (.err "request payload too large")
  else
    match hexDecode msg.payloadHex.toList with
    | none => .error (.err "payload hex")
    | some payload =>
      if payload.length > MAX_REQUEST_BYTES then .error (.err "request payload too large")
      else
        match (hexDecode msg.fromHex.toList).bind (ByteArr.ofList 32) with
        | none => .error (.err "bad sender id")
        | some sender =>
          match abilityFor msg.topic with
          | none => .error (.err s!"unknown cdn topic '{msg.topic}'")
          | some ability =>
            match env.capsAndCid payload with
            | .error e => .error e
            | .ok (caps, cid) =>
              if !isValidCid cid then .error (.err (denied "malformed cid"))
              else if strLen caps > MAX_CAPS_HEX_LEN then
                .error (.err (denied "capability chain too large"))
              else .ok (payload, sender, ability, caps, cid)

def handleInner (src : BlobSource) (ord : IterOrder String CacheEntry) (clocks : Clocks)
    (msg : MeshMsg) : Op Reply := do
  let (payload, sender, ability, caps, cid) ← Eff.ofExcept (env.checked msg)
  let isPublic ← Eff.step fun w => (decide (cid ∈ w.edge.publicSet), w)
  let publicSet := if isPublic then {cid} else ∅
  match decideAccess ability cid publicSet (env.authorizeFn caps sender clocks.authorize) with
  | (.deny, reason) => Eff.fail (.err (denied (reason.getD "unauthorized")))
  | (.allow, _) => do
    let act ← Eff.ofExcept (env.action msg.topic payload)
    act.perform env.rs src ord clocks.dispatch

/-- Any error becomes a negative reply. -/
def handle (src : BlobSource) (ord : IterOrder String CacheEntry) (clocks : Clocks)
    (msg : MeshMsg) : Op Reply :=
  replyWith (env.handleInner src ord clocks msg) id .negative

end HostEnv

end CeCdn
