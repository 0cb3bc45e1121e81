/-
The edge cache (`cache.rs`): an in-memory store of object bytes by CID with a
byte budget, LRU eviction, TTL expiry, negative-cache tombstones and counters.

`now` is always the caller's. The hash maps are `HashMap`s, and an operation
that iterates one takes the iteration order (`ord`). Ticks and counters are
`Nat`: no run makes `2 ^ 64` steps.
-/
import CeCdn.Lib.HashMap
import CeCdn.Limits
import Mathlib.Data.List.Sort
import Mathlib.Data.String.Basic

namespace CeCdn

open Lib Word

/-- A cached object: its bytes plus the bookkeeping for TTL and LRU. -/
structure CacheEntry where
  bytes : Bytes
  insertedAt : Nat
  /-- `u64::MAX` = never. -/
  expiresAt : Nat
  /-- The smallest tick is the least recently used entry. -/
  lastTick : Nat
  hits : Nat
  misses : Nat
deriving DecidableEq

/-- A CID the origin did not have, remembered until `expiresAt`. -/
structure Tombstone where
  expiresAt : Nat
deriving DecidableEq

structure EdgeCache where
  entries : HashMap String CacheEntry
  tombstones : HashMap String Tombstone
  maxBytes : Nat
  /-- `0` = no expiry. -/
  defaultTtlSecs : Nat
  /-- `0` = no negative caching. -/
  negativeTtlSecs : Nat
  maxTombstones : Nat
  curBytes : Nat
  tick : Nat
  hits : Nat
  misses : Nat
  expirations : Nat
  evictions : Nat
  negativeHits : Nat
deriving DecidableEq

/-- The iteration orders an operation meets. -/
structure Orders where
  entries : IterOrder String CacheEntry
  tombstones : IterOrder String Tombstone

structure CacheStats where
  hits : Nat
  misses : Nat
  expirations : Nat
  evictions : Nat
  entries : Nat
  bytes : Nat
  negativeHits : Nat
  tombstones : Nat
deriving DecidableEq

/-- The read counters of one CID. -/
structure ObjectStat where
  bytes : Nat
  hits : Nat
  misses : Nat
deriving DecidableEq

def DEFAULT_NEGATIVE_TTL_SECS : Nat := 10

def DEFAULT_MAX_TOMBSTONES : Nat := 4096

namespace EdgeCache

def new (maxBytes defaultTtlSecs : Nat) : EdgeCache where
  entries := ∅
  tombstones := ∅
  maxBytes := maxBytes
  defaultTtlSecs := defaultTtlSecs
  negativeTtlSecs := DEFAULT_NEGATIVE_TTL_SECS
  maxTombstones := DEFAULT_MAX_TOMBSTONES
  curBytes := 0
  tick := 0
  hits := 0
  misses := 0
  expirations := 0
  evictions := 0
  negativeHits := 0

def withNegativeTtl (c : EdgeCache) (secs : Nat) : EdgeCache := { c with negativeTtlSecs := secs }

def nextTick (c : EdgeCache) : Nat × EdgeCache := (c.tick + 1, { c with tick := c.tick + 1 })

/-- Remove an entry by key, decrementing the byte total. -/
def dropEntry (cid : String) (c : EdgeCache) : Bool × EdgeCache :=
  match c.entries.lookup cid with
  | some e =>
    (true, { c with entries := c.entries.erase cid, curBytes := c.curBytes - e.bytes.length })
  | none => (false, c)

/-- The key `evict_one` picks: least `last_tick`, first in iteration order. -/
def evictVictim (ord : IterOrder String CacheEntry) (c : EdgeCache) : Option String :=
  c.entries.minByKey ord CacheEntry.lastTick

def evictOne (ord : IterOrder String CacheEntry) (c : EdgeCache) : Bool × EdgeCache :=
  match evictVictim ord c with
  | none => (false, c)
  | some victim =>
    let c := (dropEntry victim c).2
    (true, { c with evictions := c.evictions + 1 })

/-- The eviction loop of `insert_with_ttl`: evict until `len` more bytes fit or
nothing is left. One round per entry is enough (`Recency.evictUntilFits`). -/
def evictUntilFits (ord : IterOrder String CacheEntry) (len : Nat) : Nat → EdgeCache → EdgeCache
  | 0, c => c
  | n + 1, c =>
    if c.curBytes + len > c.maxBytes then
      let r := evictOne ord c
      if r.1 then evictUntilFits ord len n r.2 else r.2
    else c

def insertWithTtl (ord : IterOrder String CacheEntry) (cid : String) (bytes : Bytes)
    (ttlSecs now : Nat) (c : EdgeCache) : Bool × EdgeCache :=
  if bytes.length > c.maxBytes then (false, c)
  else
    let c := (dropEntry cid c).2
    let c := evictUntilFits ord bytes.length c.entries.entries.length c
    let c := { c with tombstones := c.tombstones.erase cid }
    let (tick, c) := nextTick c
    let expiresAt := if ttlSecs = 0 then u64Max else satAdd now ttlSecs
    (true, { c with
      curBytes := c.curBytes + bytes.length
      entries := c.entries.insert cid
        { bytes, insertedAt := now, expiresAt, lastTick := tick, hits := 0, misses := 0 } })

def insert (ord : IterOrder String CacheEntry) (cid : String) (bytes : Bytes) (now : Nat)
    (c : EdgeCache) : Bool × EdgeCache :=
  insertWithTtl ord cid bytes c.defaultTtlSecs now c

def noteAbsent (ord : IterOrder String Tombstone) (cid : String) (now : Nat) (c : EdgeCache) :
    EdgeCache :=
  if c.negativeTtlSecs = 0 then c
  else
    let ts :=
      if c.tombstones.entries.length ≥ c.maxTombstones ∧ cid ∉ c.tombstones then
        match c.tombstones.minByKey ord Tombstone.expiresAt with
        | some victim => c.tombstones.erase victim
        | none => c.tombstones
      else c.tombstones
    { c with tombstones := ts.insert cid ⟨satAdd now c.negativeTtlSecs⟩ }

def isNegative (cid : String) (now : Nat) (c : EdgeCache) : Bool × EdgeCache :=
  match c.tombstones.lookup cid with
  | some t =>
    if now ≤ t.expiresAt then (true, { c with negativeHits := c.negativeHits + 1 })
    else (false, { c with tombstones := c.tombstones.erase cid })
  | none => (false, c)

def get (cid : String) (now : Nat) (c : EdgeCache) : Option Bytes × EdgeCache :=
  let (tick, c) := nextTick c
  match c.entries.lookup cid with
  | some e =>
    if now ≤ e.expiresAt then
      (some e.bytes, { c with
        entries := c.entries.insert cid { e with lastTick := tick, hits := e.hits + 1 }
        hits := c.hits + 1 })
    else
      let c := { c with entries := c.entries.insert cid { e with misses := e.misses + 1 } }
      let c := (dropEntry cid c).2
      (none, { c with expirations := c.expirations + 1, misses := c.misses + 1 })
  | none => (none, { c with misses := c.misses + 1 })

def containsFresh (cid : String) (now : Nat) (c : EdgeCache) : Bool :=
  match c.entries.lookup cid with
  | some e => now ≤ e.expiresAt
  | none => false

def purge (cid : String) (c : EdgeCache) : Bool × EdgeCache := dropEntry cid c

/-- The counters of every entry, by CID. -/
def objectStats (ord : IterOrder String CacheEntry) (c : EdgeCache) : List (String × ObjectStat) :=
  ((ord.iter c.entries).map fun e =>
    (e.1, { bytes := e.2.bytes.length, hits := e.2.hits, misses := e.2.misses })).insertionSort
      fun a b => a.1 ≤ b.1

/-- The keys `sweep_expired` collects, in iteration order. -/
def dead (ord : IterOrder String CacheEntry) (now : Nat) (c : EdgeCache) : List String :=
  ((ord.iter c.entries).filter fun e => now > e.2.expiresAt).map (·.1)

/-- The body of the loop of `sweep_expired`. -/
def expireOne (c : EdgeCache) (k : String) : EdgeCache :=
  let c := (dropEntry k c).2
  { c with expirations := c.expirations + 1 }

def sweepExpired (ord : IterOrder String CacheEntry) (now : Nat) (c : EdgeCache) :
    Nat × EdgeCache :=
  let ks := dead ord now c
  let c := ks.foldl expireOne c
  (ks.length, { c with tombstones := c.tombstones.retain fun _ t => now ≤ t.expiresAt })

def stats (c : EdgeCache) : CacheStats where
  hits := c.hits
  misses := c.misses
  expirations := c.expirations
  evictions := c.evictions
  entries := c.entries.entries.length
  bytes := c.curBytes
  negativeHits := c.negativeHits
  tombstones := c.tombstones.entries.length

def ttlRemaining (cid : String) (now : Nat) (c : EdgeCache) : Option Nat :=
  (c.entries.lookup cid).map fun e =>
    if e.expiresAt = u64Max then u64Max else e.expiresAt - now

def age (cid : String) (now : Nat) (c : EdgeCache) : Option Nat :=
  (c.entries.lookup cid).map fun e => now - e.insertedAt

def byteLen (cid : String) (c : EdgeCache) : Option Nat :=
  (c.entries.lookup cid).map fun e => e.bytes.length

end EdgeCache

end CeCdn
