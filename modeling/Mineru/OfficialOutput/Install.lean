import Mineru.Error
import Mineru.Logic.Stateful
import Mineru.Logic.Table
import Mineru.Text

/-!
# Installing the official output

`install_stage_in` of `official_output.rs` moves the finished stage to its public name: an old
output is first moved aside into the private staging parent, and moved back if anything fails
after that. `commit` calls it and then cleans up.

The disk is the two directories that the call has handles of, each with its named entries; an entry
carries its whole tree, which no operation here looks into. Any operation may fail without changing
anything. A fault is not `NotFound`, the one error that the code takes for an answer.
-/

set_option autoImplicit false

namespace Mineru.OfficialOutput

open Logic

inductive Node where
  | file (data : List UInt8)
  | symlink (target : Text)
  | dir (entries : List (Text × Node))

/-- The directories that the call reaches: the output directory and the staging parent. -/
inductive Place where
  | output
  | staging
  deriving DecidableEq, Repr

structure Disk where
  output : Table Text Node
  staging : Table Text Node

namespace Disk

def get (d : Disk) : Place → Text → Option Node
  | .output, name => d.output.get name
  | .staging, name => d.staging.get name

def set (d : Disk) (place : Place) (name : Text) (node : Node) : Disk :=
  match place with
  | .output => { d with output := d.output.set name node }
  | .staging => { d with staging := d.staging.set name node }

def remove (d : Disk) (place : Place) (name : Text) : Disk :=
  match place with
  | .output => { d with output := d.output.remove name }
  | .staging => { d with staging := d.staging.remove name }

end Disk

/-- Whether `rename` puts an entry where another one may be: a directory replaces nothing but an
empty directory, and anything else no directory. -/
def replaces : Node → Option Node → Bool
  | _, none => true
  | .dir _, some (.dir entries) => entries.isEmpty
  | .dir _, some _ => false
  | _, some (.dir _) => false
  | _, some _ => true

def Disk.rename (d : Disk) (place : Place) (name : Text) (place' : Place) (name' : Text) :
    Except String Disk :=
  match d.get place name with
  | none => .error "No such file or directory (os error 2)"
  | some node =>
    if replaces node (d.get place' name') then .ok ((d.remove place name).set place' name' node)
    else .error "Directory not empty (os error 39)"

/-! ## Operations that may fail -/

inductive Op where
  | symlinkMetadata
  | cloneBackupParent
  | cloneBackupDirectoryParent
  | renameBackup
  | openBackup
  | renameInstall
  | renameRollback
  deriving DecidableEq, Repr

/-- The operations that fail, with the text of their error. -/
abbrev Faults := Op → Option String

abbrev Io := EStateM String Disk

def rename (w : Faults) (op : Op) (place : Place) (name : Text) (place' : Place) (name' : Text) :
    Io Unit := fun d =>
  match w op with
  | some e => .error e d
  | none => match d.rename place name place' name' with
    | .ok d' => .ok () d'
    | .error e => .error e d

def tryClone (w : Faults) (op : Op) : Io Unit := fun d =>
  match w op with
  | some e => .error e d
  | none => .ok () d

/-- `symlink_metadata`: `none` for the error `NotFound`. -/
def symlinkMetadata (w : Faults) (name : Text) : Io (Option Node) := fun d =>
  match w .symlinkMetadata with
  | some e => .error e d
  | none => .ok (d.get .output name) d

/-- `open_child_nofollow` of the backup: the handle reaches the directory as it is. -/
def openChildNofollow (w : Faults) (name : Text) : Io Node := fun d =>
  match w .openBackup with
  | some e => .error e d
  | none => match d.get .staging name with
    | some (.dir entries) => .ok (.dir entries) d
    | some _ => .error "Not a directory (os error 20)" d
    | none => .error "No such file or directory (os error 2)" d

/-! ## Installation -/

structure Backup where
  directory : Node
  name : Text

/-- The process, the time and the counter that a backup name is made of. -/
structure Stamp where
  process : Nat
  nanos : Nat
  counter : Nat

def Stamp.backupName (stamp : Stamp) : Text :=
  text ".vlm-backup-" ++ text (toString stamp.process) ++ '-' :: text (toString stamp.nanos) ++
    '-' :: text (toString stamp.counter)

abbrev Install := EStateM VlmError Disk

/-- An operation, and what is done about its error. -/
def handling {α : Type} (x : Io α) (handle : String → Install α) : Install α := fun d =>
  match x d with
  | .ok a d' => .ok a d'
  | .error e d' => handle e d'

/-- An operation whose error becomes another one. -/
def withError {α : Type} (x : Io α) (f : String → VlmError) : Install α :=
  handling x fun e => throw (f e)

/-- `io`. -/
def ioError : String → VlmError := .io "official output"

def becameSymlink : VlmError :=
  .invalidInput "official output target became a symlink during installation"

def rollbackError (installError rollbackError : String) : VlmError :=
  .io "official output rollback"
    ("install failed: " ++ installError ++ "; restoring previous vlm failed: " ++ rollbackError)

/-- `rollback_target`. -/
def rollbackTarget {α : Type} (w : Faults) (backupName targetName : Text) (error : VlmError) :
    Install α := do
  withError (rename w .renameRollback .staging backupName .output targetName)
    (rollbackError error.display)
  throw error

/-- The old output is moved aside and opened. -/
def backUp (w : Faults) (stamp : Stamp) (targetName : Text) : Install Backup := do
  withError (rename w .renameBackup .output targetName .staging stamp.backupName) ioError
  let directory ← handling (openChildNofollow w stamp.backupName) fun e =>
    rollbackTarget w stamp.backupName targetName (ioError e)
  return { directory, name := stamp.backupName }

/-- What is done when the stage could not be moved to the target. -/
def installFailed {α : Type} (w : Faults) (targetName : Text) (backup : Option Backup)
    (installError : String) : Install α := do
  if let some backup := backup then
    withError (rename w .renameRollback .staging backup.name .output targetName)
      (rollbackError installError)
  throw (.io "official output install" installError)

/-- `install_stage_in`. -/
def installStageIn (w : Faults) (stamp : Stamp) (stageName targetName : Text) :
    Install (Option Backup) := do
  let target ← withError (symlinkMetadata w targetName) ioError
  if let some (.symlink _) := target then
    throw becameSymlink
  withError (tryClone w .cloneBackupParent) ioError
  withError (tryClone w .cloneBackupDirectoryParent) ioError
  let backup ← if target.isSome then some <$> backUp w stamp targetName else pure none
  handling (rename w .renameInstall .staging stageName .output targetName)
    (installFailed w targetName backup)
  return backup

end Mineru.OfficialOutput
