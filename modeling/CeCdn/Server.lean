/-
The HTTP front-end (`server.rs`): the access decision, and `serve_cid` with
its single-flight origin fetch.

Requests are served concurrently. A request is a `Task`, and `serve_cid` is cut
into the pieces it runs between two uses of what requests share: the public
set, the replay guard, the cache, the in-flight map, a single-flight lock, the
origin. `advance` runs one piece. The machine `Sys.step` interleaves the pieces
of any number of requests; `serveCid` runs one request with nothing in between.

`now` is read once per request. The requests' clock values are in no order.
-/
import CeCdn.Edge
import CeCdn.Host
import CeCdn.Pop
import CeCdn.Presign

namespace CeCdn

open Lib Text Word

/-! ## Requests and responses -/

/-- A `GET` or `HEAD` of `/cdn/<cid>`; header names are lower case. -/
structure HttpReq where
  cid : String
  headOnly : Bool
  headers : List (String × Bytes)
  /-- The query, empty when the target has none. -/
  query : String

/-- The path and the query of a target. -/
def splitTarget (target : List Char) : List Char × List Char :=
  (splitOnce '?' target).getD (target, [])

/-- The CID that `handle` takes from a path, if it is an object's. -/
def cidOfPath (path : List Char) : Option String :=
  match stripPrefix "/cdn/".toList path with
  | none => none
  | some cid =>
    let cid := String.ofList (trimEndMatches '/' cid)
    if isAcceptableCidCharset cid then some cid else none

structure HttpResponse where
  status : Nat
  headers : List (String × String)
  body : Bytes
deriving DecidableEq

/-- A byte that `HeaderValue::to_str` lets through. -/
def isVisibleAscii (b : UInt8) : Bool := (32 ≤ b && b < 127) || b == 9

/-- A character that `HeaderValue::from_str` lets through. -/
def isHeaderChar (c : Char) : Bool := (32 ≤ c.toNat && c.toNat != 127) || c == '\t'

namespace HttpReq

variable (req : HttpReq)

/-- The first value of a header, if it is visible ASCII. -/
def header (name : String) : Option (List Char) :=
  match req.headers.find? (fun h => h.1 == name) with
  | none => none
  | some (_, v) =>
    if v.all isVisibleAscii then some (v.map fun b => Char.ofNat b.toNat) else none

/-- The requester the caller claims to be; all zero when the claim is malformed. -/
def requesterId : NodeId :=
  ((req.header "x-ce-node-id").bind fun s =>
    (hexDecode (trim s)).bind (ByteArr.ofList 32)).getD (ByteArr.zero 32)

def proofHeader : Option (List Char) := (req.header "x-ce-proof").map trim

def capabilityHex : String :=
  match req.header "x-ce-capability" with
  | some v => String.ofList (trim v)
  | none =>
    match req.header "authorization" with
    | none => ""
    | some v =>
      let v := trim v
      match (stripPrefix "Capability ".toList v).orElse fun _ =>
        stripPrefix "capability ".toList v with
      | some rest => String.ofList (trim rest)
      | none => ""

end HttpReq

/-- Translate a shaped response; a header whose value is not valid is left out. -/
def toHttp (resp : EdgeResponse) : HttpResponse where
  status := resp.status
  headers := resp.headers.filter fun h => h.2.toList.all isHeaderChar
  body := resp.body.bytes

/-- A `text/plain` response. -/
def textResponse (status : Nat) (msg : String) : HttpResponse :=
  ⟨status, [("Content-Type", "text/plain")], utf8 msg⟩

/-! ## Access -/

/-- What the front-end is configured with, and the libraries it calls. -/
structure ServerEnv where
  iam : Iam
  verify : Verify
  edgeId : NodeId
  roots : List NodeId
  /-- Empty: presigned links are disabled. -/
  presignKeys : List NodeId
  /-- `0`: the cache budget. -/
  maxObjectBytes : Nat

/-- `publicGrant` is the source's `Public`. -/
inductive Grant where
  | publicGrant
  | presigned
  | popAndCap
  | denied
deriving DecidableEq

def Grant.access : Grant → Access
  | .publicGrant => .publicAccess
  | .presigned | .popAndCap => .authorized
  | .denied => .denied

def neverRevoked (_ : NodeId) (_ : Nat) : Bool := false

/-- How `cid` may be accessed: public, else a presigned link, else a proof of
possession and a capability chain. -/
def ServerEnv.resolveGrant (env : ServerEnv) (cid : String) (publicSet : Finset String)
    (requester : NodeId) (proof : Option (List Char)) (presignQuery capsHex : String) (now : Nat) :
    Grant :=
  if cid ∈ publicSet then .publicGrant
  else if env.presignKeys ≠ [] ∧
      (verifyPresign env.verify presignQuery cid env.presignKeys now).isOk then .presigned
  else
    match verifyPop env.verify proof requester cid ABILITY_READ now with
    | .error _ => .denied
    | .ok () =>
      if strLen capsHex > MAX_CAPS_HEX_LEN then .denied
      else
        match env.iam.decodeChain capsHex with
        | none => .denied
        | some chain =>
          match env.iam.authorize env.edgeId env.roots [] now requester ABILITY_READ chain
            neverRevoked with
          | .ok () => .popAndCap
          | .error _ => .denied

/-- The access decision of `serve_cid`, by what it takes from the request. -/
def ServerEnv.grantOf (env : ServerEnv) (publicSet : Finset String) (req : HttpReq) (now : Nat) :
    Grant :=
  env.resolveGrant req.cid publicSet req.requesterId req.proofHeader req.query req.capabilityHex now

/-- The replay check of `serve_cid`. -/
def ServerEnv.popOnce (env : ServerEnv) (req : HttpReq) (now : Nat) (guard : ReplayGuard) :
    Except PopError Unit × ReplayGuard :=
  verifyPopOnce env.verify req.proofHeader req.requesterId req.cid ABILITY_READ now guard

/-- The throwaway cache a 403 is shaped with. -/
def denyCache : EdgeCache := .new 1 0

def denyResponse (cid : String) (now : Nat) : HttpResponse :=
  toHttp (Edge.serve cid [] none .denied denyCache now true)

/-! ## What requests share -/

/-- A single-flight lock, and how many requests hold a handle to it (its
`Arc::strong_count`, less one for the map's own). -/
structure Flight where
  locked : Bool
  refs : Nat

structure ServerState where
  edge : EdgeState
  replay : ReplayGuard
  /-- By CID, the address of its lock. -/
  inflight : HashMap String Nat
  /-- The locks, by address. -/
  flights : Nat → Flight
  nextFlight : Nat
  /-- The fetches from the origin so far. -/
  originCalls : List String

namespace ServerState

def new (edge : EdgeState) : ServerState where
  edge := edge
  replay := .new REPLAY_GUARD_CAPACITY
  inflight := ∅
  flights := fun _ => ⟨false, 0⟩
  nextFlight := 0
  originCalls := []

variable (s : ServerState)

def setCache (c : EdgeCache) : ServerState := { s with edge := { s.edge with cache := c } }

def setFlight (l : Nat) (f : Flight) : ServerState :=
  { s with flights := fun l' => if l' = l then f else s.flights l' }

def lockFlight (l : Nat) : ServerState := s.setFlight l { s.flights l with locked := true }

def unlockFlight (l : Nat) : ServerState := s.setFlight l { s.flights l with locked := false }

def addRef (l : Nat) : ServerState :=
  s.setFlight l { s.flights l with refs := (s.flights l).refs + 1 }

def dropRef (l : Nat) : ServerState :=
  s.setFlight l { s.flights l with refs := (s.flights l).refs - 1 }

/-- The in-flight map, without the locks no request refers to once it is long. -/
def prunedInflight : HashMap String Nat :=
  if s.inflight.entries.length > 1024 then
    HashMap.retain (fun _ l => decide ((s.flights l).refs + 1 > 1)) s.inflight
  else s.inflight

/-- A handle to the lock of a CID, which is made when the map has none. -/
def inflightLock (cid : String) : Nat × ServerState :=
  match s.prunedInflight.lookup cid with
  | some l => (l, { s with inflight := s.prunedInflight }.addRef l)
  | none =>
    (s.nextFlight, { s with
      inflight := s.prunedInflight.insert cid s.nextFlight
      flights := fun l => if l = s.nextFlight then ⟨false, 1⟩ else s.flights l
      nextFlight := s.nextFlight + 1 })

end ServerState

/-! ## One request -/

/-- What the lookup of an object came to: its bytes and whether they were in
the cache, or a response. -/
inductive Found where
  | bytes (b : Bytes) (hit : Bool)
  | reply (resp : HttpResponse)

/-- Where a request stands in `serve_cid`. `l` is the address of its lock and
`max` the size limit it read. -/
inductive Phase where
  | access
  | replay
  | conditional
  | tombstone
  | budget
  | lookup (max : Nat)
  | flight (max : Nat)
  | wait (l max : Nat)
  /-- From here to `unlock` the request holds the lock. -/
  | recheck (l max : Nat)
  | call (l max : Nat)
  | fetching (l max : Nat)
  | fetched (l max : Nat) (res : Option Bytes)
  | unlock (l : Nat) (found : Found)
  | unref (l : Nat) (found : Found)
  | shape (b : Bytes) (hit : Bool)
  | done (resp : HttpResponse)
  /-- The connection was dropped. -/
  | cancelled

structure Task where
  req : HttpReq
  now : Nat
  grant : Grant
  phase : Phase

namespace Task

def arrive (req : HttpReq) (now : Nat) : Task := ⟨req, now, .denied, .access⟩

def goto (t : Task) (p : Phase) : Task := { t with phase := p }

def deny (t : Task) : Task := t.goto (.done (denyResponse t.req.cid t.now))

def absent (t : Task) : HttpResponse := toHttp (Edge.notFound t.req.cid)

/-- The access decision. -/
def decideGrant (env : ServerEnv) (s : ServerState) (t : Task) : Task :=
  match env.grantOf s.edge.publicSet t.req t.now with
  | .denied => t.deny
  | .popAndCap => { t with grant := .popAndCap, phase := .replay }
  | .publicGrant => { t with grant := .publicGrant, phase := .conditional }
  | .presigned => { t with grant := .presigned, phase := .conditional }

def checkReplay (env : ServerEnv) (s : ServerState) (t : Task) : ServerState × Task :=
  let r := env.popOnce t.req t.now s.replay
  match r.1 with
  | .ok () => ({ s with replay := r.2 }, t.goto .conditional)
  | .error _ => ({ s with replay := r.2 }, t.deny)

def checkConditional (s : ServerState) (t : Task) : Task :=
  if Edge.ifNoneMatchMatches ((t.req.header "if-none-match").map String.ofList) t.req.cid then
    t.goto (.done (toHttp (Edge.notModified t.req.cid s.edge.cache t.now)))
  else t.goto .tombstone

def checkTombstone (s : ServerState) (t : Task) : ServerState × Task :=
  if s.edge.cache.containsFresh t.req.cid t.now then (s, t.goto .budget)
  else
    let r := s.edge.cache.isNegative t.req.cid t.now
    (s.setCache r.2, t.goto (if r.1 then .done t.absent else .budget))

def readBudget (env : ServerEnv) (s : ServerState) (t : Task) : Task :=
  t.goto (.lookup (if env.maxObjectBytes = 0 then s.edge.cache.maxBytes else env.maxObjectBytes))

def lookup (s : ServerState) (t : Task) (max : Nat) : ServerState × Task :=
  let r := s.edge.cache.get t.req.cid t.now
  (s.setCache r.2,
    t.goto (match r.1 with
      | some b => .shape b true
      | none => .flight max))

/-- The second look, under the single-flight lock. -/
def recheck (s : ServerState) (t : Task) (l max : Nat) : ServerState × Task :=
  let r := s.edge.cache.get t.req.cid t.now
  match r.1 with
  | some b => (s.setCache r.2, t.goto (.unlock l (.bytes b true)))
  | none =>
    let n := r.2.isNegative t.req.cid t.now
    (s.setCache n.2, t.goto (if n.1 then .unlock l (.reply t.absent) else .call l max))

/-- What the origin answered goes into the cache. -/
def store (o : Orders) (s : ServerState) (t : Task) (l max : Nat) :
    Option Bytes → ServerState × Task
  | some b =>
    if b.length > max then
      (s, t.goto (.unlock l (.reply (textResponse 413 "object exceeds edge size limit"))))
    else
      (s.setCache (s.edge.cache.insert o.entries t.req.cid b t.now).2,
        t.goto (.unlock l (.bytes b false)))
  | none =>
    (s.setCache (s.edge.cache.noteAbsent o.tombstones t.req.cid t.now),
      t.goto (.unlock l (.reply t.absent)))

/-- The response to bytes; a `HEAD` gets no body. -/
def respond (s : ServerState) (t : Task) (b : Bytes) (hit : Bool) : HttpResponse :=
  let resp := toHttp (Edge.serve t.req.cid b ((t.req.header "range").map String.ofList) t.grant.access
    s.edge.cache t.now hit)
  if t.req.headOnly then { resp with body := [] } else resp

/-- One piece of `serve_cid`. A request whose lock is held, and one whose fetch
is under way, waits. -/
def advance (env : ServerEnv) (o : Orders) (s : ServerState) (t : Task) :
    Option (ServerState × Task) :=
  match t.phase with
  | .access => some (s, t.decideGrant env s)
  | .replay => some (t.checkReplay env s)
  | .conditional => some (s, t.checkConditional s)
  | .tombstone => some (t.checkTombstone s)
  | .budget => some (s, t.readBudget env s)
  | .lookup max => some (t.lookup s max)
  | .flight max =>
    let r := s.inflightLock t.req.cid
    some (r.2, t.goto (.wait r.1 max))
  | .wait l max =>
    if (s.flights l).locked then none else some (s.lockFlight l, t.goto (.recheck l max))
  | .recheck l max => some (t.recheck s l max)
  | .call l max =>
    some ({ s with originCalls := s.originCalls ++ [t.req.cid] }, t.goto (.fetching l max))
  | .fetching _ _ => none
  | .fetched l max res => some (t.store o s l max res)
  | .unlock l found => some (s.unlockFlight l, t.goto (.unref l found))
  | .unref l found =>
    some (s.dropRef l,
      t.goto (match found with
        | .bytes b hit => .shape b hit
        | .reply resp => .done resp))
  | .shape b hit => some (s, t.goto (.done (t.respond s b hit)))
  | .done _ => none
  | .cancelled => none

/-- The origin answers a request that waits for it. -/
def answered (t : Task) (res : Option Bytes) : Option Task :=
  match t.phase with
  | .fetching l max => some (t.goto (.fetched l max res))
  | _ => none

/-- The request is dropped, with the handle and the lock it holds. Once the
lock is being released there is no point left to drop it at. -/
def cancel (s : ServerState) (t : Task) : Option (ServerState × Task) :=
  match t.phase with
  | .wait l _ => some (s.dropRef l, t.goto .cancelled)
  | .recheck l _ | .call l _ | .fetching l _ | .fetched l _ _ =>
    some ((s.unlockFlight l).dropRef l, t.goto .cancelled)
  | .unlock _ _ | .unref _ _ | .done _ | .cancelled => none
  | _ => some (s, t.goto .cancelled)

end Task

/-! ## Any number of requests -/

/-- The server and its requests, in the order they came. -/
structure Sys where
  shared : ServerState
  tasks : List Task

inductive Label where
  | arrive (req : HttpReq) (now : Nat)
  | step (i : Nat) (o : Orders)
  | answer (i : Nat) (res : Option Bytes)
  | cancel (i : Nat)
  /-- The edge drops what has expired. -/
  | sweep (o : Orders) (now : Nat)
  /-- The mesh side of the edge purges an object. -/
  | purge (cid : String)

namespace Sys

def start (s : ServerState) : Sys := ⟨s, []⟩

def step (env : ServerEnv) (y : Sys) : Label → Option Sys
  | .arrive req now => some { y with tasks := y.tasks ++ [.arrive req now] }
  | .step i o =>
    (y.tasks[i]?).bind fun t =>
      (t.advance env o y.shared).map fun (s, t) => ⟨s, y.tasks.set i t⟩
  | .answer i res =>
    (y.tasks[i]?).bind fun t =>
      (t.answered res).map fun t => { y with tasks := y.tasks.set i t }
  | .cancel i =>
    (y.tasks[i]?).bind fun t =>
      (t.cancel y.shared).map fun (s, t) => ⟨s, y.tasks.set i t⟩
  | .sweep o now =>
    some { y with shared := y.shared.setCache (y.shared.edge.cache.sweepExpired o.entries now).2 }
  | .purge cid =>
    some { y with shared := y.shared.setCache (y.shared.edge.cache.purge cid).2 }

end Sys

/-! ## A request on its own -/

/-- How many pieces are left of a request. -/
def Phase.rank : Phase → Nat
  | .access => 15
  | .replay => 14
  | .conditional => 13
  | .tombstone => 12
  | .budget => 11
  | .lookup _ => 10
  | .flight _ => 9
  | .wait _ _ => 8
  | .recheck _ _ => 7
  | .call _ _ => 6
  | .fetching _ _ => 5
  | .fetched _ _ _ => 4
  | .unlock _ _ => 3
  | .unref _ _ => 2
  | .shape _ _ => 1
  | .done _ | .cancelled => 0

/-- The pieces of a request, one after the other, with the origin's answers. -/
def Task.finish (env : ServerEnv) (o : Orders) (origin : String → Option Bytes) :
    Nat → ServerState → Task → Option (HttpResponse × ServerState)
  | n, s, t =>
    match t.phase with
    | .done resp => some (resp, s)
    | _ =>
      match n with
      | 0 => none
      | n + 1 =>
        match t.answered (origin t.req.cid) with
        | some t => t.finish env o origin n s
        | none => (t.advance env o s).bind fun (s, t) => t.finish env o origin n s

/-- `serve_cid` with nothing in between. It has no answer when it waits for a
lock that another request holds. -/
def ServerEnv.serveCid (env : ServerEnv) (o : Orders) (origin : String → Option Bytes)
    (s : ServerState) (req : HttpReq) (now : Nat) : Option (HttpResponse × ServerState) :=
  (Task.arrive req now).finish env o origin Phase.access.rank s

/-! ### A small server -/

/-- A front-end that knows the capability `c0`. -/
def sampleEnv : ServerEnv where
  iam := toyIam fun s => if s = "c0" then some [sampleCap] else none
  verify := toyVerify
  edgeId := sampleEdge
  roots := []
  presignKeys := []
  maxObjectBytes := 0

def sampleProof (nonce : Nonce) : List Char :=
  mintProofWithNonce sampleReader (toySign sampleReader) "a" ABILITY_READ nonce 100

def sampleReq (nonce : Nonce) : HttpReq where
  cid := "a"
  headOnly := false
  headers :=
    [("x-ce-node-id", (hexChars sampleReader.1).map fun c => UInt8.ofNat c.toNat),
      ("x-ce-proof", (sampleProof nonce).map fun c => UInt8.ofNat c.toNat),
      ("x-ce-capability", utf8 "c0")]
  query := ""

def sampleState : ServerState := .new (.new 100 0)

/-- The status a request was answered with. -/
def Task.status (t : Task) : Option Nat :=
  match t.phase with
  | .done resp => some resp.status
  | _ => none

/-- A server that holds nothing and serves `a` to anyone. -/
def publicState : ServerState := .new { EdgeState.new 100 0 with publicSet := {"a"} }

def plainReq : HttpReq := ⟨"a", false, [], ""⟩

def sampleOrders : Orders := ⟨.stored _ _, .stored _ _⟩

end CeCdn
