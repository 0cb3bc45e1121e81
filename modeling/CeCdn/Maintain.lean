/-
A maintenance pass (`maintain.rs`): for every entry of a snapshot of the
catalog it probes the recorded edges, keeps those that answer that they hold
the object, recruits new ones where these are too few, and commits the edge
lists it came to.

The answers of the network are a parameter (`CdnClient`) and may be anything.
-/
import CeCdn.Catalog
import CeCdn.Limits
import CeCdn.Proto
import CeCdn.Lib.Ordered
import Mathlib.Data.String.Basic

namespace CeCdn

open Lib Text

/-- How many new edges restore a replication factor (`replication.rs`). -/
def replicasNeeded (target healthyNow : Nat) : Nat := target - healthyNow

/-- What the client's requests are answered (`client.rs`). The loops ask at
most once at each of their places, so a place is the first argument: an edge
that is asked again may answer otherwise. Picks are per CID. An error is its
text. -/
structure CdnClient where
  putObject : Bytes → Except String String
  findService : String → Except String (List String)
  probe : Nat → String → StatusReq → Except String StatusResp
  pickEdges : String → Nat → List String → Except String (List String)
  replicateTo : Nat → String → CacheReq → Except String CacheResp

/-- `Ok(s) if s.held`. -/
def held : Except String StatusResp → Bool
  | .ok s => s.held
  | .error _ => false

/-- `Ok(r) if r.cached`. -/
def cached : Except String CacheResp → Bool
  | .ok r => r.cached
  | .error _ => false

namespace Catalog

def Entry.edgeIds (e : Entry) : List String := e.edges.map EdgeReplica.edge

def get (cid : String) (c : Catalog) : Option Entry := c.items.lookup cid

/-- What is assigned through `get_mut`. -/
def modify (cid : String) (f : Entry → Entry) (c : Catalog) : Catalog :=
  match c.get cid with
  | none => c
  | some entry => { c with items := c.items.insert cid (f entry) }

/-- The edge is recorded for the CID: a purge addresses it. -/
def Records (c : Catalog) (cid edge : String) : Prop :=
  ∃ entry ∈ c.get cid, edge ∈ entry.edgeIds

instance (c : Catalog) (cid edge : String) : Decidable (c.Records cid edge) :=
  inferInstanceAs (Decidable (∃ entry ∈ c.get cid, edge ∈ entry.edgeIds))

end Catalog

open Catalog

namespace Maintain

/-! ## One entry -/

structure EntryPlan where
  cid : String
  healthy : List String
  unhealthy : List String
  /-- How many new edges to recruit. -/
  recruit : Nat
deriving DecidableEq

def planEntry (cid : String) (target : Nat) (probes : List (String × Bool)) : EntryPlan :=
  let healthy := (probes.filter fun p => p.2).map Prod.fst
  let unhealthy := (probes.filter fun p => !p.2).map Prod.fst
  ⟨cid, healthy, unhealthy, replicasNeeded target healthy.length⟩

/-- The recruiting of edges for an entry, as far as it got. -/
structure Recruits where
  exclude : Finset String
  edges : List EdgeReplica
  got : Nat

/-- A pick, with what it answers if it is asked. -/
def Recruits.pick (r : Recruits) (p : String × Except String CacheResp) : Recruits :=
  if p.1 ∈ r.exclude then r
  else if cached p.2 then ⟨insert p.1 r.exclude, r.edges ++ [⟨p.1, true⟩], r.got + 1⟩
  else r

section

variable (client : CdnClient) (caps cid : String) (entry : Entry)

def probes : List (String × Bool) :=
  entry.edgeIds.mapIdx fun i edge => (edge, held (client.probe i edge ⟨caps, cid⟩))

def plan : EntryPlan := planEntry cid entry.content.replication (probes client caps cid entry)

/-- The picks, and what each answers when it is asked; no picks are asked for
when none are needed. -/
def picks : List (String × Except String CacheResp) :=
  if 0 < (plan client caps cid entry).recruit then
    let picks := client.pickEdges cid (plan client caps cid entry).recruit
      (Ordered.toList entry.edgeIds.toFinset)
    (picks.toOption.getD []).mapIdx fun i pick =>
      (pick, client.replicateTo i pick ⟨caps, cid, entry.content.bytesLen, entry.content.ttlSecs⟩)
  else []

def recruit : Recruits :=
  (picks client caps cid entry).foldl Recruits.pick
    ⟨entry.edgeIds.toFinset, (plan client caps cid entry).healthy.map fun e => ⟨e, true⟩, 0⟩

end

/-! ## The pass -/

structure MaintainReport where
  examined : Nat := 0
  recruited : Nat := 0
  shortfalls : Nat := 0
deriving DecidableEq

/-- The edges to commit, by CID. -/
abbrev Results := List (String × List EdgeReplica)

section

variable (client : CdnClient) (caps : String)

/-- One round of the loop over the snapshot's entries. -/
def examine (acc : MaintainReport × Results) (e : String × Entry) : MaintainReport × Results :=
  let r := recruit client caps e.1 e.2
  let short := decide (r.got < (plan client caps e.1 e.2).recruit)
  (⟨acc.1.examined + 1, acc.1.recruited + r.got, acc.1.shortfalls + short.toNat⟩,
    acc.2 ++ [(e.1, r.edges)])

def survey (snapshot : Catalog) : MaintainReport × Results :=
  (Ordered.entries snapshot.items).foldl (examine client caps) ({}, [])

end

/-- The closure of the pass's update: only entries that still exist. -/
def commit (results : Results) : Update := fun cat =>
  .ok (results.foldl (fun cat r => cat.modify r.1 fun entry => { entry with edges := r.2 }) cat)

end Maintain

/-- The updates of other processes, one after another. -/
def Catalog.commits (us : List Update) (c : Catalog) : Except String Catalog :=
  us.foldlM (fun c u => apply u c) c

/-- A pass over the catalog file. Between its snapshot and its commit it holds
no lock: `others` are the updates that other processes commit there. -/
def Maintain.runOnce (client : CdnClient) (caps : String) (file : Option File)
    (others : List Update) : Except String (MaintainReport × Catalog) := do
  let snapshot ← load file
  let (report, results) := survey client caps snapshot
  let now ← commits others snapshot
  let after ← apply (commit results) now
  pure (report, after)

end CeCdn
