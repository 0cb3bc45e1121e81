/-
The commands of the CLI that write the catalog (`main.rs`): `put`, `status` and
`maintain`, run one after another. Of what a command prints, the counts of
`status` are kept; a URL that is only printed is left out.
-/
import CeCdn.Maintain
import CeCdn.Lib.Machine

namespace CeCdn

open Lib Text Catalog

namespace Cli

/-- The options of `put`. -/
structure PutOptions where
  replication : Nat
  ttl : Nat
  isPrivate : Bool
  label : Option String
  tags : List String
  noReplicate : Bool
deriving DecidableEq

section

variable (client : CdnClient) (caps : String)

/-- The edges that `put` asks to cache the object, with their answers. -/
def putPicks (cid : String) (bytesLen : Nat) (o : PutOptions) :
    List (String × Except String CacheResp) :=
  if o.noReplicate = false ∧ 0 < o.replication then
    ((client.pickEdges cid o.replication []).toOption.getD []).mapIdx fun i edge =>
      (edge, client.replicateTo i edge ⟨caps, cid, bytesLen, o.ttl⟩)
  else []

/-- The closure of `put`'s update. -/
def record (cid : String) (bytesLen : Nat) (o : PutOptions) (edges : List EdgeReplica) : Update :=
  fun catalog =>
    let access := if o.isPrivate then .privateAccess else .publicAccess
    .ok (catalog.upsert
      ⟨⟨cid, bytesLen, access, o.replication, o.ttl, o.label, o.tags⟩, edges⟩)

/-- `file` is the file's content, or the error of reading it. -/
def cmdPut (file : Except String Bytes) (o : PutOptions) (catalog : Option File) :
    Except String Catalog := do
  let bytes ← file
  let cid ← client.putObject bytes
  let answered := (putPicks client caps cid bytes.length o).filter fun p => cached p.2
  let cat ← load catalog
  apply (record cid bytes.length o (answered.map fun p => ⟨p.1, true⟩)) cat

/-- What `status` prints. -/
structure StatusReport where
  advertised : Nat
  live : Nat
  all : Nat
deriving DecidableEq

/-- The closure of the update of `status`. -/
def reflect (cid : String) (advertised : List String) : Update := fun catalog =>
  .ok (catalog.modify cid fun entry =>
    { entry with edges := entry.edges.map fun r =>
        { r with healthy := decide (r.edge ∈ advertised) } })

/-- Besides what it prints, the catalog it saves, if it saves one. -/
def cmdStatus (cid : String) (catalog : Option File) : StatusReport × Option Catalog :=
  let advertised := (client.findService (serviceFor cid)).toOption.getD []
  let recorded := ((load catalog).toOption.bind (Catalog.get cid)).elim [] Entry.edgeIds
  let all := recorded.foldl (fun all id => if id ∈ all then all else all ++ [id]) advertised
  if all.isEmpty then (⟨advertised.length, 0, 0⟩, none)
  else
    let probes := all.mapIdx fun i edge => held (client.probe i edge ⟨caps, cid⟩)
    (⟨advertised.length, probes.count true, all.length⟩,
      ((load catalog).bind (apply (reflect cid advertised))).toOption)

end

/-! ## Commands one after another -/

inductive Command where
  | put (file : Except String Bytes) (o : PutOptions)
  | maintain
  | status (cid : String)

/-- A command as it is run: what the network answers it, the capabilities it
presents, and whether it gets the lock and can write the catalog file. -/
structure Invocation where
  command : Command
  client : CdnClient
  caps : String
  writable : Bool

/-- The catalog that a command saves, if it comes to that. -/
def Invocation.saves (v : Invocation) (catalog : Option File) : Option Catalog :=
  match v.command with
  | .put file o => (cmdPut v.client v.caps file o catalog).toOption
  | .maintain => (Maintain.runOnce v.client v.caps catalog []).toOption.map Prod.snd
  | .status cid => (cmdStatus v.client v.caps cid catalog).2

/-- A command answers what it saved and leaves the catalog file. -/
def step (catalog : Option File) (v : Invocation) : Option Catalog × Option File :=
  match if v.writable then v.saves catalog else none with
  | some saved => (some saved, some (.ok saved))
  | none => (none, catalog)

end Cli

end CeCdn
