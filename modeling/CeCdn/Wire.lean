/-
The `cdn/*` messages on the wire (`proto.rs`): the documents the derived
implementations write, and how an answer is read. A client that asks an edge to
cache, purge or probe reads every answer the edge can write: the one for its
request as it was meant (`ofDoc_toDoc`), and the one denial that the handler
writes for all requests as a refusal (`ofDoc_negative`).
-/
import CeCdn.Host

namespace CeCdn

open Lib Text

/-! ## Documents -/

inductive WireValue where
  | null
  | bool (b : Bool)
  | u64 (n : Nat)
  | str (s : String)
  | other
deriving DecidableEq

inductive WireDoc where
  | object (members : List (String × WireValue))
  | array (values : List WireValue)
  | scalar
deriving DecidableEq

/-- A value as the reading of a request sees it. -/
def WireValue.erase : WireValue → JsonValue
  | .null => .null
  | .u64 n => .u64 n
  | .str s => .str s
  | .bool _ | .other => .other

def WireDoc.erase : WireDoc → JsonDoc
  | .object members => .object (members.map fun m => (m.1, m.2.erase))
  | .array values => .array (values.map WireValue.erase)
  | .scalar => .scalar

/-- What a derived implementation finds for a field, as `JsonDoc.field`. -/
def WireDoc.field (doc : WireDoc) (arity i : Nat) (name : String) : Option (Option WireValue) :=
  match doc with
  | .object members =>
    match members.filter fun m => decide (m.1 = name) with
    | [] => some none
    | [m] => some (some m.2)
    | _ => none
  | .array values => if values.length ≤ arity then some values[i]? else none
  | .scalar => none

namespace WireValue

def asBool : WireValue → Option Bool
  | .bool b => some b
  | _ => none

def asNat : WireValue → Option Nat
  | .u64 n => some n
  | _ => none

def asOptText : WireValue → Option (Option String)
  | .null => some none
  | .str s => some (some s)
  | _ => none

def ofOpt : Option String → WireValue
  | none => .null
  | some s => .str s

end WireValue

namespace WireDoc

variable {α : Type} (doc : WireDoc) (arity i : Nat) (name : String)

def required (read : WireValue → Option α) : Option α := do
  match ← doc.field arity i name with
  | none => none
  | some v => read v

/-- A field marked `#[serde(default)]`. -/
def orDefault (read : WireValue → Option α) (dflt : α) : Option α := do
  match ← doc.field arity i name with
  | none => some dflt
  | some v => read v

end WireDoc

/-! ## Requests -/

def CacheReq.toDoc (r : CacheReq) : WireDoc :=
  .object [("caps", .str r.caps), ("cid", .str r.cid), ("bytes_len", .u64 r.bytesLen),
    ("ttl_secs", .u64 r.ttlSecs)]

def PurgeReq.toDoc (r : PurgeReq) : WireDoc :=
  .object [("caps", .str r.caps), ("cid", .str r.cid)]

def StatusReq.toDoc (r : StatusReq) : WireDoc :=
  .object [("caps", .str r.caps), ("cid", .str r.cid)]

theorem CacheReq.ofJson_toDoc (r : CacheReq) : CacheReq.ofJson r.toDoc.erase = some r := by
  simp [CacheReq.ofJson, CacheReq.toDoc, WireDoc.erase, WireValue.erase, JsonDoc.capsAndCid,
    JsonDoc.field, CeCdn.orDefault, CeCdn.required, asString, asU64]

theorem PurgeReq.ofJson_toDoc (r : PurgeReq) : PurgeReq.ofJson r.toDoc.erase = some r := by
  simp [PurgeReq.ofJson, PurgeReq.toDoc, WireDoc.erase, WireValue.erase, JsonDoc.capsAndCid,
    JsonDoc.field, CeCdn.orDefault, CeCdn.required, asString]

theorem StatusReq.ofJson_toDoc (r : StatusReq) : StatusReq.ofJson r.toDoc.erase = some r := by
  simp [StatusReq.ofJson, StatusReq.toDoc, WireDoc.erase, WireValue.erase, JsonDoc.capsAndCid,
    JsonDoc.field, CeCdn.orDefault, CeCdn.required, asString]

/-! ## Answers -/

def CacheResp.toDoc (r : CacheResp) : WireDoc :=
  .object [("cached", .bool r.cached), ("stored_bytes", .u64 r.storedBytes),
    ("ttl_secs", .u64 r.ttlSecs), ("reason", .ofOpt r.reason)]

def ReadResp.toDoc (r : ReadResp) : WireDoc :=
  .object [("ok", .bool r.ok), ("bytes_hex", .str r.bytesHex), ("total_len", .u64 r.totalLen),
    ("partial", .bool r.isPartial), ("range_start", .u64 r.rangeStart),
    ("range_end", .u64 r.rangeEnd), ("cache_hit", .bool r.cacheHit), ("reason", .ofOpt r.reason)]

def PurgeResp.toDoc (r : PurgeResp) : WireDoc :=
  .object [("purged", .bool r.purged), ("reason", .ofOpt r.reason)]

def StatusResp.toDoc (r : StatusResp) : WireDoc :=
  .object [("held", .bool r.held), ("bytes", .u64 r.bytes), ("ttl_remaining", .u64 r.ttlRemaining)]

/-- What `handle` replies with. -/
def Reply.toDoc : Reply → WireDoc
  | .cache r => r.toDoc
  | .read r => r.toDoc
  | .purge r => r.toDoc
  | .status r => r.toDoc
  | .negative reason =>
    .object [("cached", .bool false), ("held", .bool false), ("ok", .bool false),
      ("purged", .bool false), ("reason", .str reason)]

def CacheResp.ofDoc (doc : WireDoc) : Option CacheResp := do
  let cached ← doc.required 4 0 "cached" WireValue.asBool
  let storedBytes ← doc.orDefault 4 1 "stored_bytes" WireValue.asNat 0
  let ttlSecs ← doc.orDefault 4 2 "ttl_secs" WireValue.asNat 0
  let reason ← doc.orDefault 4 3 "reason" WireValue.asOptText none
  pure { cached, storedBytes, ttlSecs, reason }

def PurgeResp.ofDoc (doc : WireDoc) : Option PurgeResp := do
  let purged ← doc.required 2 0 "purged" WireValue.asBool
  let reason ← doc.orDefault 2 1 "reason" WireValue.asOptText none
  pure { purged, reason }

def StatusResp.ofDoc (doc : WireDoc) : Option StatusResp := do
  let held ← doc.required 3 0 "held" WireValue.asBool
  let bytes ← doc.orDefault 3 1 "bytes" WireValue.asNat 0
  let ttlRemaining ← doc.orDefault 3 2 "ttl_remaining" WireValue.asNat 0
  pure { held, bytes, ttlRemaining }

@[simp] theorem WireValue.asOptText_ofOpt (s : Option String) : (ofOpt s).asOptText = some s := by
  cases s <;> rfl

theorem CacheResp.ofDoc_toDoc (r : CacheResp) : CacheResp.ofDoc r.toDoc = some r := by
  simp [CacheResp.ofDoc, CacheResp.toDoc, WireDoc.required, WireDoc.orDefault, WireDoc.field,
    WireValue.asBool, WireValue.asNat]

theorem PurgeResp.ofDoc_toDoc (r : PurgeResp) : PurgeResp.ofDoc r.toDoc = some r := by
  simp [PurgeResp.ofDoc, PurgeResp.toDoc, WireDoc.required, WireDoc.orDefault, WireDoc.field,
    WireValue.asBool]

theorem StatusResp.ofDoc_toDoc (r : StatusResp) : StatusResp.ofDoc r.toDoc = some r := by
  simp [StatusResp.ofDoc, StatusResp.toDoc, WireDoc.required, WireDoc.orDefault, WireDoc.field,
    WireValue.asBool, WireValue.asNat]

/-! ### The denial is a refusal of every request -/

theorem CacheResp.ofDoc_negative (reason : String) :
    CacheResp.ofDoc (Reply.negative reason).toDoc = some { cached := false, reason := some reason } := by
  simp [CacheResp.ofDoc, Reply.toDoc, WireDoc.required, WireDoc.orDefault, WireDoc.field,
    WireValue.asBool, WireValue.asOptText]

theorem PurgeResp.ofDoc_negative (reason : String) :
    PurgeResp.ofDoc (Reply.negative reason).toDoc = some { purged := false, reason := some reason } := by
  simp [PurgeResp.ofDoc, Reply.toDoc, WireDoc.required, WireDoc.orDefault, WireDoc.field,
    WireValue.asBool, WireValue.asOptText]

theorem StatusResp.ofDoc_negative (reason : String) :
    StatusResp.ofDoc (Reply.negative reason).toDoc = some ⟨false, 0, 0⟩ := by
  simp [StatusResp.ofDoc, Reply.toDoc, WireDoc.required, WireDoc.orDefault, WireDoc.field,
    WireValue.asBool]

end CeCdn
