import Mineru.OfficialOutput.Install

/-!
# Publishing a hybrid bundle

`finish_transaction` of `hybrid_v4_output/transaction.rs` publishes the stage of a transaction: an old
bundle is moved into the transaction directory, and moved back if the stage cannot be moved to its
place. Then one of two cleanups runs: the whole transaction goes, or the stage alone when the old
bundle is still in there.

The disk is the one of the official output: the document directory with the bundle (`output`), and
the transaction directory (`staging`), which is gone once it was removed. Any operation may fail; a
failing removal of a tree may leave anything at its name, and any other one changes nothing.
-/

set_option autoImplicit false

namespace Mineru.Hybrid

open Logic OfficialOutput

structure State where
  disk : Disk
  gone : Bool

inductive Op where
  | symlinkMetadata
  | renameBackup
  | renameInstall
  | renameRollback
  | removeStage
  | removeBackup
  | removeTransaction
  deriving DecidableEq, Repr

/-- The operations that fail, with their errors, and what a failing removal leaves of its entry. No
error is `NotFound`, which the code takes for an answer. -/
structure Faults where
  fails : Op → Option String
  leaves : Op → Option Node

abbrev Io := EStateM String State

def bundleName : Text := text "hybrid-v4"

def stageName : Text := text "stage"

def backupName : Text := text "backup"

def rename (w : Faults) (op : Op) (place : Place) (name : Text) (place' : Place) (name' : Text) :
    Io Unit := fun s =>
  match w.fails op with
  | some e => .error e s
  | none => match s.disk.rename place name place' name' with
    | .ok disk => .ok () { s with disk }
    | .error e => .error e s

/-- `symlink_metadata`: `none` for the error `NotFound`. -/
def symlinkMetadata (w : Faults) (name : Text) : Io (Option Node) := fun s =>
  match w.fails .symlinkMetadata with
  | some e => .error e s
  | none => .ok (s.disk.get .output name) s

/-- An entry of the transaction directory, or none, in the place of another one. -/
def State.put (s : State) (name : Text) : Option Node → State
  | some node => { s with disk := s.disk.set .staging name node }
  | none => { s with disk := s.disk.remove .staging name }

/-- `remove_private_entry`: an absent entry is no error. -/
def removePrivateEntry (w : Faults) (op : Op) (name : Text) : Io Unit := fun s =>
  match s.disk.get .staging name, w.fails op with
  | none, some e => .error e s
  | none, none => .ok () s
  | some _, some e => .error e (s.put name (w.leaves op))
  | some (.dir _), none => .ok () (s.put name none)
  | some _, none => .error "Not a directory (os error 20)" s

def cleanupStageOnly (w : Faults) : Io Unit := removePrivateEntry w .removeStage stageName

/-- `remove_dir` of the transaction directory, which has to be empty. -/
def removeTransaction (w : Faults) : Io Unit := fun s =>
  match w.fails .removeTransaction with
  | some e => .error e s
  | none =>
    if s.disk.staging.size = 0 then .ok () { s with gone := true }
    else .error "Directory not empty (os error 39)" s

/-- The error of an operation goes onto a list, with a label. -/
def collected (label : String) (x : Io Unit) : Io (List String) := fun s =>
  match x s with
  | .ok _ s' => .ok [] s'
  | .error e s' => .ok [label ++ ": " ++ e] s'

def cleanupTransaction (w : Faults) : Io Unit := do
  let stage ← collected "stage" (removePrivateEntry w .removeStage stageName)
  let backup ← collected "backup" (removePrivateEntry w .removeBackup backupName)
  let transaction ← collected "transaction" (removeTransaction w)
  let errors := stage ++ backup ++ transaction
  if errors = [] then pure () else throw ("; ".intercalate errors)

/-- `PublishFailure`: the message, and whether the old bundle is still in the transaction. -/
abbrev Publish := EStateM (String × Bool) State

/-- An operation, and the failure for its error. -/
def failing {α : Type} (x : Io α) (handle : String → Publish α) : Publish α := fun s =>
  match x s with
  | .ok a s' => .ok a s'
  | .error e s' => handle e s'

def plainly {α : Type} (e : String) : Publish α := throw (e, false)

/-- Whether there is an old bundle; it has to be a directory. -/
def oldBundle (w : Faults) : Publish Bool := do
  match ← failing (symlinkMetadata w bundleName) plainly with
  | some (.symlink _) => throw ("hybrid-v4 output target is a symlink", false)
  | some (.file _) => throw ("hybrid-v4 output target is not a directory", false)
  | some (.dir _) => return true
  | none => return false

def rollbackError (installError rollbackError : String) : String :=
  "hybrid-v4 install failed: " ++ installError ++ "; restoring previous output failed: " ++
    rollbackError

/-- The stage could not be installed. -/
def installFailed (w : Faults) (targetExists : Bool) (installError : String) : Publish Unit :=
  if targetExists then do
    failing (rename w .renameRollback .staging backupName .output bundleName)
      fun e => throw (rollbackError installError e, true)
    throw (installError, false)
  else throw (installError, false)

def publishTransactionInner (w : Faults) : Publish Unit := do
  let targetExists ← oldBundle w
  if targetExists then
    failing (rename w .renameBackup .output bundleName .staging backupName) plainly
  failing (rename w .renameInstall .staging stageName .output bundleName)
    (installFailed w targetExists)

def publishedError (path cleanup : String) : String :=
  "hybrid-v4 published successfully; transaction cleanup failed at " ++ path ++ ": " ++ cleanup

def cleanupFailure (message path cleanup : String) : String :=
  message ++ "; hybrid-v4 transaction cleanup failed at " ++ path ++ ": " ++ cleanup

def preservedError (message path stageCleanup : String) : String :=
  message ++ "; transaction and backup preserved at " ++ path ++ " (" ++ stageCleanup ++ ")"

/-- An operation whose error becomes another one. -/
def withError (x : Io Unit) (f : String → String) : Io Unit := fun s =>
  match x s with
  | .ok _ s' => .ok () s'
  | .error e s' => .error (f e) s'

/-- After a failure that left the old bundle in the transaction. -/
def preserve (w : Faults) (path message : String) : Io Unit := fun s =>
  match cleanupStageOnly w s with
  | .ok _ s' => .error (preservedError message path "staging directory cleaned") s'
  | .error e s' => .error (preservedError message path ("staging cleanup failed: " ++ e)) s'

/-- `finish_transaction`. -/
def finishTransaction (w : Faults) (path : String) : Io Unit := fun s =>
  match publishTransactionInner w s with
  | .ok _ s' => withError (cleanupTransaction w) (publishedError path) s'
  | .error (message, true) s' => preserve w path message s'
  | .error (message, false) s' =>
    (do withError (cleanupTransaction w) (cleanupFailure message path); throw message : Io Unit) s'

end Mineru.Hybrid
