/-
The catalog (`catalog.rs`): the publisher's index of its content, kept in a
file that processes update under an advisory lock file.

`Catalog::update` runs as a sequence of file operations, interleaved with those
of other processes. A lock file is known by the process that created it, whose
id the source writes into it; an update creates at most one. A save counts as
its rename, which is atomic. Time is in milliseconds.
-/
import Mathlib.Data.Finmap
import Mathlib.Data.List.Basic

namespace CeCdn

namespace Catalog

inductive Access where
  | publicAccess
  | privateAccess
deriving DecidableEq

/-- An immutable description of published content. -/
structure Content where
  cid : String
  bytesLen : Nat
  access : Access
  /-- The desired number of replicas. -/
  replication : Nat
  ttlSecs : Nat
  label : Option String
  tags : List String
deriving DecidableEq

/-- An edge that cached the content, and what its last probe said. -/
structure EdgeReplica where
  edge : String
  healthy : Bool
deriving DecidableEq

structure Entry where
  content : Content
  edges : List EdgeReplica
deriving DecidableEq

end Catalog

def CATALOG_SCHEMA_VERSION : Nat := 1

/-- A lock file older than this is taken as abandoned. -/
def LOCK_STALE_SECS : Nat := 30

/-- The attempts of `acquire`. -/
def LOCK_ATTEMPTS : Nat := 200

open Catalog in
/-- By CID, the published entries. -/
structure Catalog where
  version : Nat
  items : Finmap fun _ : String => Entry
deriving DecidableEq

namespace Catalog

def default : Catalog := ⟨CATALOG_SCHEMA_VERSION, ∅⟩

def upsert (entry : Entry) (c : Catalog) : Catalog :=
  { c with items := c.items.insert entry.content.cid entry }

/-- What `save` writes. -/
def saved (c : Catalog) : Catalog := { c with version := CATALOG_SCHEMA_VERSION }

/-- A file's text as `load` reads it: a catalog, or the error of reading or
parsing it. -/
abbrev File := Except String Catalog

/-- No file is the empty catalog. -/
def load (file : Option File) : Except String Catalog := file.getD (.ok default)

/-- The closure an update runs. -/
abbrev Update := Catalog → Except String Catalog

/-- An update of a catalog that nobody else touches: the closure, then `save`. -/
def apply (u : Update) (c : Catalog) : Except String Catalog := (u c).map saved

/-! ## The lock file -/

structure LockFile where
  owner : Nat
  created : Nat
deriving DecidableEq

/-- `age.as_secs() > LOCK_STALE_SECS`. -/
def LockFile.isStale (f : LockFile) (now : Nat) : Bool := (now - f.created) / 1000 > LOCK_STALE_SECS

structure Disk where
  lock : Option LockFile
  /-- The catalog file. -/
  target : Option File

/-- Where a process stands in `Catalog::update`. -/
inductive Phase where
  /-- About to `create_new` the lock file, with so many attempts left. -/
  | acquire (left : Nat)
  /-- The lock file existed: about to read its age. -/
  | judge (left : Nat)
  /-- It was stale, and this process's: about to remove the file. -/
  | steal (left : Nat) (judged : Nat)
  /-- Holds the lock it created at `since`: about to load. -/
  | hold (since : Nat)
  /-- About to run the closure and save. -/
  | loaded (since : Nat) (cat : Catalog)
  /-- About to drop the lock and return. -/
  | dropping (since : Nat) (ok : Bool)
  | done (ok : Bool)
  /-- Whether it had saved. -/
  | crashed (saved : Bool)
deriving DecidableEq

/-- A process that runs an update. -/
structure Process where
  update : Update
  phase : Phase

namespace Process

/-- The next file operation of process `i`; `fails` is an error of the file
system. Errors of the removals are ignored, an age that cannot be read is not
stale. -/
def advance (d : Disk) (now i : Nat) (fails : Bool) (p : Process) : Option (Disk × Phase) :=
  match p.phase with
  | .acquire 0 => some (d, .done false)
  | .acquire (n + 1) =>
    if fails then some (d, .done false)
    else
      match d.lock with
      | none => some ({ d with lock := some ⟨i, now⟩ }, .hold now)
      | some _ => some (d, .judge n)
  | .judge n =>
    if fails then some (d, .acquire n)
    else
      match d.lock with
      | none => some (d, .acquire n)
      | some f => some (d, if f.isStale now then .steal n f.owner else .acquire n)
  | .steal n _ => some (if fails then d else { d with lock := none }, .acquire n)
  | .hold since =>
    if fails then some (d, .dropping since false)
    else
      match load d.target with
      | .error _ => some (d, .dropping since false)
      | .ok cat => some (d, .loaded since cat)
  | .loaded since cat =>
    match apply p.update cat with
    | .error _ => some (d, .dropping since false)
    | .ok cat' =>
      if fails then some (d, .dropping since false)
      else some ({ d with target := some (.ok cat') }, .dropping since true)
  | .dropping _ ok => some (if fails then d else { d with lock := none }, .done ok)
  | .done _ => none
  | .crashed _ => none

/-- The process dies where it stands. -/
def crash (p : Process) : Option Phase :=
  match p.phase with
  | .done _ | .crashed _ => none
  | .dropping _ ok => some (.crashed ok)
  | _ => some (.crashed false)

end Process

/-! ## Any number of processes -/

structure Sys where
  now : Nat
  disk : Disk
  procs : List Process

inductive Label where
  | run (i : Nat) (fails : Bool)
  | crash (i : Nat)
  /-- So many milliseconds pass. -/
  | tick (ms : Nat)

namespace Sys

/-- Processes about to update the catalog file, which is not locked. -/
def start (updates : List Update) (target : Option File) (now : Nat) : Sys where
  now := now
  disk := ⟨none, target⟩
  procs := updates.map fun u => ⟨u, .acquire LOCK_ATTEMPTS⟩

def setPhase (y : Sys) (i : Nat) (p : Process) (phase : Phase) : Sys :=
  { y with procs := y.procs.set i { p with phase := phase } }

def step (y : Sys) : Label → Option Sys
  | .run i fails =>
    (y.procs[i]?).bind fun p =>
      (p.advance y.disk y.now i fails).map fun (d, phase) =>
        { y with disk := d }.setPhase i p phase
  | .crash i => (y.procs[i]?).bind fun p => p.crash.map (y.setPhase i p)
  | .tick ms => some { y with now := y.now + ms }

end Sys

end Catalog

end CeCdn
