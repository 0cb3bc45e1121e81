/-
The `cdn/*` messages (`proto.rs`) and how serde's derived implementations read
a request. A payload is what the JSON parser (a parameter) makes of its bytes,
down to the level the derived code looks at: an object's members, in order and
with repeats, or an array's elements, and of a value its type.
-/
import CeCdn.Lib.Text

namespace CeCdn

open Lib Text

def TOPIC_PREFIX : String := "cdn/"
def TOPIC_CACHE : String := "cdn/cache"
def TOPIC_READ : String := "cdn/read"
def TOPIC_PURGE : String := "cdn/purge"
def TOPIC_STATUS : String := "cdn/status"

def ABILITY_CACHE : String := "cdn:cache"
def ABILITY_READ : String := "cdn:read"
def ABILITY_PURGE : String := "cdn:purge"

/-- What any node willing to act as an edge advertises. -/
def SERVICE_EDGE : String := "cdn:edge"

/-- What an edge that holds an object advertises. -/
def serviceFor (cid : String) : String := s!"cdn:{cid}"

def denied (reason : String) : String := s!"denied: {reason}"

/-! ## Messages -/

structure CacheReq where
  caps : String
  cid : String
  bytesLen : Nat
  ttlSecs : Nat
deriving DecidableEq

structure CacheResp where
  cached : Bool
  storedBytes : Nat := 0
  ttlSecs : Nat := 0
  reason : Option String := none
deriving DecidableEq

structure ReadReq where
  caps : String
  cid : String
  range : Option String
deriving DecidableEq

/-- `isPartial` is the source's `partial`. -/
structure ReadResp where
  ok : Bool
  bytesHex : String := ""
  totalLen : Nat := 0
  isPartial : Bool := false
  rangeStart : Nat := 0
  rangeEnd : Nat := 0
  cacheHit : Bool := false
  reason : Option String := none
deriving DecidableEq

structure PurgeReq where
  caps : String
  cid : String
deriving DecidableEq

structure PurgeResp where
  purged : Bool
  reason : Option String := none
deriving DecidableEq

structure StatusReq where
  caps : String
  cid : String
deriving DecidableEq

structure StatusResp where
  held : Bool
  bytes : Nat
  ttlRemaining : Nat
deriving DecidableEq

/-! ## Reading a request -/

inductive JsonValue where
  | null
  | u64 (n : Nat)
  | str (s : String)
  | other
deriving DecidableEq

inductive JsonDoc where
  | object (members : List (String × JsonValue))
  | array (values : List JsonValue)
  | scalar
deriving DecidableEq

/-- What a derived implementation finds for the field at a position of its
struct: by name in an object, where a repeat is refused, and by position in an
array, which may not be longer than the struct. -/
def JsonDoc.field (doc : JsonDoc) (arity i : Nat) (name : String) : Option (Option JsonValue) :=
  match doc with
  | .object members =>
    match members.filter fun m => decide (m.1 = name) with
    | [] => some none
    | [m] => some (some m.2)
    | _ => none
  | .array values => if values.length ≤ arity then some values[i]? else none
  | .scalar => none

def asString : JsonValue → Option String
  | .str s => some s
  | _ => none

def asU64 : JsonValue → Option Nat
  | .u64 n => some n
  | _ => none

def asOptString : JsonValue → Option (Option String)
  | .null => some none
  | .str s => some (some s)
  | _ => none

/-- A field marked `#[serde(default)]`. -/
def orDefault {α : Type} (read : JsonValue → Option α) (dflt : α) : Option JsonValue → Option α
  | none => some dflt
  | some v => read v

def required {α : Type} (read : JsonValue → Option α) : Option JsonValue → Option α
  | none => none
  | some v => read v

/-- The `caps` and `cid` every request has in front. -/
def JsonDoc.capsAndCid (doc : JsonDoc) (arity : Nat) : Option (String × String) := do
  let caps ← orDefault asString "" (← doc.field arity 0 "caps")
  let cid ← required asString (← doc.field arity 1 "cid")
  pure (caps, cid)

def CacheReq.ofJson (doc : JsonDoc) : Option CacheReq := do
  let (caps, cid) ← doc.capsAndCid 4
  let bytesLen ← orDefault asU64 0 (← doc.field 4 2 "bytes_len")
  let ttlSecs ← orDefault asU64 0 (← doc.field 4 3 "ttl_secs")
  pure { caps, cid, bytesLen, ttlSecs }

def ReadReq.ofJson (doc : JsonDoc) : Option ReadReq := do
  let (caps, cid) ← doc.capsAndCid 3
  let range ← orDefault asOptString none (← doc.field 3 2 "range")
  pure { caps, cid, range }

def PurgeReq.ofJson (doc : JsonDoc) : Option PurgeReq := do
  let (caps, cid) ← doc.capsAndCid 2
  pure { caps, cid }

def StatusReq.ofJson (doc : JsonDoc) : Option StatusReq := do
  let (caps, cid) ← doc.capsAndCid 2
  pure { caps, cid }

/-- The `Head` of `caps_and_cid`. -/
def headOfJson (doc : JsonDoc) : Option (String × String) := doc.capsAndCid 2

/-! ## Every shape reads the same `cid` -/

/-- A wider struct reads in a document what a narrower one reads there. -/
theorem capsAndCid_mono {doc : JsonDoc} {n m : Nat} {r r' : String × String}
    (h : doc.capsAndCid n = some r) (h' : doc.capsAndCid m = some r') : r = r' := by
  cases doc with
  | object members =>
    have : (JsonDoc.object members).capsAndCid n = (JsonDoc.object members).capsAndCid m := rfl
    rw [this, h'] at h
    exact (Option.some_inj.1 h).symm
  | array values =>
    simp only [JsonDoc.capsAndCid, JsonDoc.field] at h h'
    split at h
    · split at h'
      · rw [h'] at h
        exact (Option.some_inj.1 h).symm
      · cases h'
    · cases h
  | scalar => cases h

theorem CacheReq.ofJson_capsAndCid {doc : JsonDoc} {r : CacheReq} (h : CacheReq.ofJson doc = some r) :
    doc.capsAndCid 4 = some (r.caps, r.cid) := by
  simp only [CacheReq.ofJson, Option.bind_eq_bind, Option.bind_eq_some_iff] at h
  obtain ⟨⟨caps, cid⟩, h₁, _, _, _, _, _, _, _, _, h₂⟩ := h
  cases h₂
  exact h₁

theorem ReadReq.ofJson_capsAndCid {doc : JsonDoc} {r : ReadReq} (h : ReadReq.ofJson doc = some r) :
    doc.capsAndCid 3 = some (r.caps, r.cid) := by
  simp only [ReadReq.ofJson, Option.bind_eq_bind, Option.bind_eq_some_iff] at h
  obtain ⟨⟨caps, cid⟩, h₁, _, _, _, _, h₂⟩ := h
  cases h₂
  exact h₁

theorem PurgeReq.ofJson_capsAndCid {doc : JsonDoc} {r : PurgeReq} (h : PurgeReq.ofJson doc = some r) :
    doc.capsAndCid 2 = some (r.caps, r.cid) := by
  simp only [PurgeReq.ofJson, Option.bind_eq_bind, Option.bind_eq_some_iff] at h
  obtain ⟨⟨caps, cid⟩, h₁, h₂⟩ := h
  cases h₂
  exact h₁

theorem StatusReq.ofJson_capsAndCid {doc : JsonDoc} {r : StatusReq}
    (h : StatusReq.ofJson doc = some r) : doc.capsAndCid 2 = some (r.caps, r.cid) := by
  simp only [StatusReq.ofJson, Option.bind_eq_bind, Option.bind_eq_some_iff] at h
  obtain ⟨⟨caps, cid⟩, h₁, h₂⟩ := h
  cases h₂
  exact h₁

end CeCdn
