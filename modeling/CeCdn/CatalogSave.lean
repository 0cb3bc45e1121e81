/-
`Catalog::save`, one file operation at a time: it writes the catalog's JSON to a
temporary file that is named after the process id, and renames that over the
catalog file. Any number of saves run at once, each may die or fail at any of
its operations, and a process id may be that of a process that died earlier and
left a part of its file behind.
-/
import CeCdn.Catalog
import CeCdn.Limits
import CeCdn.Lib.Directory
import CeCdn.Lib.Machine
import CeCdn.Lib.Places
import CeCdn.Lib.TextFacts

namespace CeCdn.CatalogSave

open Lib Machine

/-- The last component of a path, which may not be Unicode. -/
inductive FileName where
  | unicode (s : String)
  | raw (bytes : Bytes)
deriving DecidableEq

/-- `file_name().and_then(|n| n.to_str())`. -/
def FileName.toStr : FileName → Option String
  | .unicode s => some s
  | .raw _ => none

def tempName (file : FileName) (pid : Nat) : FileName :=
  let name := file.toStr.getD "catalog.json"
  .unicode s!".{name}.tmp.{pid}"

abbrev Dir := Directory FileName UInt8

/-- Where a call of `save` stands. -/
inductive Phase where
  | waiting
  /-- About to create the parent directories. -/
  | mkdir
  | create (json : Bytes)
  /-- Has the temporary file open, and these bytes still to write. -/
  | write (file : Nat) (rest : Bytes)
  | rename
  /-- The rename failed: about to remove the temporary file. -/
  | remove
  /-- The rename succeeded: about to return. -/
  | renamed
  | returned (ok : Bool)
  | crashed
deriving DecidableEq

/-- Between its call and its return. -/
def Phase.running : Phase → Bool
  | .waiting | .returned _ | .crashed => false
  | _ => true

structure Save where
  pid : Nat
  catalog : Catalog
  phase : Phase

section

variable (toVecPretty : Catalog → Except String Bytes) (file : FileName)

/-- The next file operation of a save. It fails where `io` is `none`; otherwise,
if it is a write, it takes so many bytes. The errors of the flush, the sync and
the removal are ignored. -/
def Save.advance (d : Dir) (io : Option Nat) (s : Save) : Option (Dir × Phase) :=
  match s.phase with
  | .waiting => some (d, .mkdir)
  | .mkdir =>
    if io = none then some (d, .returned false)
    else
      match toVecPretty s.catalog.saved with
      | .error _ => some (d, .returned false)
      | .ok json => some (d, .create json)
  | .create json =>
    if io = none then some (d, .returned false)
    else
      let (f, d') := d.create (tempName file s.pid)
      some (d', .write f json)
  | .write _ [] => some (d, .rename)
  | .write f (b :: rest) =>
    match io with
    -- `write_all` takes a write of no bytes for an error
    | none | some 0 => some (d, .returned false)
    | some (n + 1) =>
      some (d.append f ((b :: rest).take (n + 1)), .write f ((b :: rest).drop (n + 1)))
  | .rename =>
    if io = none then some (d, .remove)
    else
      match d.rename (tempName file s.pid) file with
      | none => some (d, .remove)
      | some d' => some (d', .renamed)
  | .remove =>
    some (if io = none then d else d.unlink (tempName file s.pid), .returned false)
  | .renamed => some (d, .returned true)
  | .returned _ => none
  | .crashed => none

end

/-! ## Any number of saves -/

structure Sys where
  dir : Dir
  saves : List Save

inductive Label where
  | run (i : Nat) (io : Option Nat)
  | crash (i : Nat)
deriving DecidableEq

/-- The save that takes the step. -/
def Label.save : Label → Nat
  | .run i _ | .crash i => i

namespace Sys

/-- Saves of these catalogs by processes with these ids. -/
def start (dir : Dir) (saves : List (Nat × Catalog)) : Sys :=
  ⟨dir, saves.map fun s => ⟨s.1, s.2, .waiting⟩⟩

/-- A process with this id is in a save. -/
def busy (y : Sys) (pid : Nat) : Bool := y.saves.any fun s => s.pid == pid && s.phase.running

def setPhase (y : Sys) (i : Nat) (s : Save) (phase : Phase) : Sys :=
  { y with saves := y.saves.set i { s with phase := phase } }

/-- Processes that are alive at a time have distinct ids, and a process makes
one save at a time. -/
def step (toVecPretty : Catalog → Except String Bytes) (file : FileName) (y : Sys) :
    Label → Option Sys
  | .run i io =>
    (y.saves[i]?).bind fun s =>
      if s.phase = .waiting ∧ y.busy s.pid = true then none
      else
        (s.advance toVecPretty file y.dir io).map fun (d, phase) =>
          { y with dir := d }.setPhase i s phase
  | .crash i =>
    (y.saves[i]?).bind fun s =>
      if s.phase.running = true then some (y.setPhase i s .crashed) else none

end Sys

/-! ## Names -/

theorem tempName_inj {file : FileName} {p q : Nat} (h : tempName file p = tempName file q) :
    p = q := by
  simp only [tempName, FileName.unicode.injEq] at h
  exact Text.toString_inj ((String.append_right_inj _).1 h)

theorem tempName_ne (file : FileName) (pid : Nat) : tempName file pid ≠ file := by
  cases file with
  | raw bytes => nofun
  | unicode s =>
    intro h
    simp only [tempName, FileName.toStr, Option.getD_some, FileName.unicode.injEq] at h
    have hlen := congrArg String.length h
    have hdot : (toString ".").length = 1 := rfl
    simp only [String.length_append, hdot] at hlen
    have hs : (toString s).length = s.length := rfl
    omega

end CeCdn.CatalogSave
