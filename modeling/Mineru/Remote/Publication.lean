import Mineru.Archive.Entries
import Mineru.Logic.Program
import Mineru.Logic.Transition

/-!
# Publication and cancellation of a remote run

The blocking jobs of a remote run publish into its output root: `extract_cancellable` of `archive.rs`
commits the files of an archive, and `generate_and_publish` of `remote_preview.rs` writes one file. The
`CancellationGuard` of `runner.rs` sets the flag when the run is dropped, and the jobs go on. One gate
orders the flag against what the jobs make public.

A job is the program of its operations. A look reads the disk; an own operation opens a directory, or
works on the transaction directory or the temporary file of the job; a public one changes the output
root, and is logged when it succeeds. An undoing of a rollback is logged when it fails too, be it at
the opening of its parents or at the change itself. The replies are arbitrary: the disk may be in any
state, and any operation may fail.
-/

set_option autoImplicit false

namespace Mineru.Remote

open Logic Archive

/-- What a log holds: a change of the output root, or an undoing that failed. -/
inductive Event where
  | createDir (path : Path)
  | backUp (path : Path)
  | install (path : Path)
  | remove (path : Path)
  | restore (path : Path)
  | removeDir (path : Path)
  /-- The preview takes the place of its leaf. -/
  | write (path : Path)
  /-- The undoing failed, and changed nothing. -/
  | stuck (undoing : Event)
  deriving DecidableEq, Repr

/-- What a look at a name tells. -/
inductive Look where
  | absent
  | directory
  | file
  | special
  | failed
  deriving DecidableEq, Repr

inductive Op where
  | check
  | lock
  | unlock
  | look
  | own
  | publish (e : Event)
  /-- The parents of an undoing are opened. -/
  | reopen (e : Event)
  | undo (e : Event)
  deriving DecidableEq, Repr

abbrev Reply : Op → Type
  | .check => Bool
  | .lock => Unit
  | .unlock => Unit
  | .look => Look
  | .own => Bool
  | .publish _ => Bool
  | .reopen _ => Bool
  | .undo _ => Bool

abbrev Prog := Program Reply

def Op.run (op : Op) : Prog (Reply op) := Program.perform op

/-! ## The operations of a job -/

/-- `CommitState`. -/
structure CommitState where
  installed : List Path := []
  backed_up : List Path := []
  created_dirs : List Path := []

/-- A program with the state of a commit; an error keeps the state. -/
abbrev Commit (α : Type) := CommitState → Prog (Except String α × CommitState)

namespace Commit

variable {α β : Type}

instance : Monad Commit where
  pure a := fun s => .ret (.ok a, s)
  bind x f := fun s => (x s).andThen fun
    | (.ok a, s) => f a s
    | (.error e, s) => .ret (.error e, s)

def fail (e : String) : Commit α := fun s => .ret (.error e, s)

def modify (f : CommitState → CommitState) : Commit Unit := fun s => .ret (.ok (), f s)

def perform (op : Op) : Commit (Reply op) := fun s => .step op fun reply => .ret (.ok reply, s)

end Commit

open Commit

def operationCancelled : String := "operation cancelled"

/-- `check_cancellation`. -/
def checkCancellation : Commit Unit := do
  if ← perform .check then fail operationCancelled else pure ()

/-- An own operation with its error. -/
def own (error : String) : Commit Unit := do
  if ← perform .own then pure () else fail error

/-- A public operation with its error, and the record of it. -/
def publish (e : Event) (error : String) (record : CommitState → CommitState) : Commit Unit := do
  if ← perform (.publish e) then modify record else fail error

def unsafePath : String := "result archive has an unsafe path"

def notDirectory : String := "output path contains a symlink or non-directory"

def inspectOutput : String := "unable to inspect output path"

/-- One component of the method `ensure_directory`, by what is there. -/
def enterOrCreate (current : Path) : Look → Commit Unit
  | .directory => pure ()
  | .absent => do
    checkCancellation
    publish (.createDir current) "unable to create output directory" fun s =>
      { s with created_dirs := s.created_dirs ++ [current] }
    checkCancellation
  | .failed => fail inspectOutput
  | _ => fail notDirectory

/-- The method `ensure_directory`: the parts of the path one by one, `current` being what was
passed. -/
def ensureDirectoryLoop : Path → Path → Commit Unit
  | _, [] => pure ()
  | current, name :: parts => do
    enterOrCreate (current ++ [name]) (← perform .look)
    own notDirectory
    ensureDirectoryLoop (current ++ [name]) parts

def ensureDirectory (path : Path) : Commit Unit := do
  checkCancellation
  own "unable to open output root"
  ensureDirectoryLoop [] path

/-- What is in the way goes to the backup. -/
def backUp (path : Path) : Look → Commit Unit
  | .absent => pure ()
  | .file => do
    own "unable to prepare publication rollback"
    publish (.backUp path) "unable to prepare publication rollback" fun s =>
      { s with backed_up := s.backed_up ++ [path] }
    checkCancellation
  | .failed => fail inspectOutput
  | _ => fail "output path contains a directory or special file"

/-- `file_name` of a path. -/
def named (path : Path) : Commit Unit := if path = [] then fail unsafePath else pure ()

/-- `install`; the directories of the stage are its own. -/
def install (path : Path) : Commit Unit := do
  checkCancellation
  named path
  ensureDirectory path.dropLast
  own notDirectory
  backUp path (← perform .look)
  checkCancellation
  publish (.install path) "unable to publish extracted file" fun s =>
    { s with installed := s.installed ++ [path] }
  checkCancellation

/-- One turn of the loop over the entries. -/
def publishEntry (entry : Entry) : Commit Unit :=
  if entry.directory then ensureDirectory entry.path else install entry.path

/-- The loop over the entries. -/
def publishEntries : List Entry → Commit Unit
  | [] => pure ()
  | entry :: entries => do
    publishEntry entry
    publishEntries entries

/-- The closure of `commit_staged_overlay`, and the check after it. -/
def forwardPass (entries : List Entry) : Commit Unit := do
  checkCancellation
  publishEntries entries
  checkCancellation

/-- One undoing of `rollback`: the parents are opened first. -/
def undo (e : Event) : Prog Bool := do
  if ← (Op.reopen e).run then (Op.undo e).run else pure false

/-- A loop of `rollback`: every path is tried. -/
def undoAll : List Event → Prog Bool
  | [] => pure true
  | e :: events => do
    let undone ← undo e
    let rest ← undoAll events
    pure (undone && rest)

/-- What `rollback` does, in its order. -/
def CommitState.undoing (s : CommitState) : List Event :=
  s.installed.reverse.map .remove ++ s.backed_up.reverse.map .restore ++
    s.created_dirs.reverse.map .removeDir

def partialPublication : String :=
  "partial publication: unable to fully roll back result archive"

/-- The answer of the forward pass, after the rollback of an error. -/
def settle : Except String Unit × CommitState → Prog (Except String Unit)
  | (.ok _, _) => pure (.ok ())
  | (.error e, s) => do
    if ← undoAll s.undoing then pure (.error e) else pure (.error partialPublication)

/-- `commit_staged_overlay`, with the gate. -/
def commitStagedOverlay (entries : List Entry) : Prog (Except String Unit) := do
  Op.lock.run
  let result ← settle (← forwardPass entries {})
  Op.unlock.run
  pure result

/-! ## The jobs -/

/-- A program that may fail, with what comes after it when it does not. -/
def orFail {α : Type} (x : Commit Unit) (next : Prog (Except String α)) : Prog (Except String α) := do
  match ← x {} with
  | (.ok _, _) => next
  | (.error e, _) => pure (.error e)

/-- For each entry a check and own work. -/
def eachEntry (error : String) : List Entry → Commit Unit
  | [] => pure ()
  | _ :: entries => do
    checkCancellation
    own error
    checkCancellation
    eachEntry error entries

/-- `extract_impl` up to its transaction: the archive is read and validated. -/
def validated (entries : List Entry) : Commit Unit := do
  checkCancellation
  checkCancellation
  own "invalid result archive"
  checkCancellation
  own "invalid result archive"
  eachEntry "invalid result archive" entries
  checkCancellation
  own "unable to open output root"
  checkCancellation
  own "unable to safely create extraction transaction"

/-- The files are staged and their destinations looked at. -/
def staged (entries : List Entry) : Commit Unit := do
  eachEntry "unable to write extracted file" entries
  eachEntry inspectOutput entries
  checkCancellation

/-- The transaction goes, unless the publication is partial; an error of that is ignored. -/
def cleanedUp (result : Except String Unit) : Prog (Except String Unit) := do
  if result = .error partialPublication then pure result
  else do
    let _ ← Op.own.run
    pure result

/-- `extract_cancellable`. -/
def extractCancellable (entries : List Entry) : Prog (Except String Unit) :=
  orFail (validated entries) do
    cleanedUp (← orFail (staged entries) (commitStagedOverlay entries))

/-- The check under the gate, and `publish_file`. -/
def publishFile (relative : Path) : Commit Unit := do
  checkCancellation
  match ← perform .look with
  | .absent | .file => publish (.write relative) "unable to publish extracted file" id
  | .failed => fail inspectOutput
  | _ => fail "output path contains a directory or special file"

/-- The end of `write_relative_atomic_cancellable`: the rename under the gate. -/
def publishTemp (relative : Path) : Prog (Except String Unit) := do
  Op.lock.run
  let (result, _) ← publishFile relative {}
  Op.unlock.run
  pure result

/-- The temporary file goes after an error. -/
def cleanedTemp : Except String Unit → Prog (Except String Unit)
  | .ok _ => pure (.ok ())
  | .error e => do
    let _ ← Op.own.run
    pure (.error e)

/-- `generate_and_publish`, with `write_relative_atomic_cancellable` as its end: the deadline, the
preview and the temporary file may fail. -/
def generateAndPublish (relative : Path) : Prog (Except String Unit) :=
  orFail (do
    checkCancellation
    own "preview deadline expired"
    own "preview generation failed"
    own "preview deadline expired"
    checkCancellation
    checkCancellation
    own "output path is missing"
    own "unable to safely create extracted file") do
      cleanedTemp (← orFail (own "unable to write output file") (publishTemp relative))

inductive Job where
  | extract (entries : List Entry)
  | preview (relative : Path)

def Job.program : Job → Prog (Except String Unit)
  | .extract entries => extractCancellable entries
  | .preview relative => generateAndPublish relative

/-! ## The run -/

inductive Holder where
  | guard
  | job (i : Nat)
  deriving DecidableEq, Repr

/-- The drop of the `CancellationGuard`. -/
inductive Guard where
  | armed
  | locked
  | stored
  | dropped
  deriving DecidableEq, Repr

/-- A job that runs: the rest of its program, and what it made public or could not undo. -/
structure Running where
  rest : Prog (Except String Unit)
  log : List Event

structure State where
  flag : Bool
  gate : Option Holder
  guard : Guard
  jobs : Nat → Running

/-- The drop goes on, or a job does its next operation; `look` and `ok` are the replies of the disk. -/
inductive Action where
  | guard
  | job (i : Nat) (look : Look) (ok : Bool)
  deriving DecidableEq, Repr

def State.guardStep (s : State) : Option State :=
  match s.guard with
  | .armed => if s.gate = none then some { s with guard := .locked, gate := some .guard } else none
  | .locked => some { s with guard := .stored, flag := true }
  | .stored => some { s with guard := .dropped, gate := none }
  | .dropped => none

def State.setJob (s : State) (i : Nat) (rest : Prog (Except String Unit)) (log : List Event) :
    State :=
  { s with jobs := Function.update s.jobs i ⟨rest, log⟩ }

def State.jobStep (s : State) (i : Nat) (look : Look) (ok : Bool) : Option State :=
  let log := (s.jobs i).log
  match (s.jobs i).rest with
  | .ret _ => none
  | .step .check next => some (s.setJob i (next s.flag) log)
  | .step .lock next =>
    if s.gate = none then some ({ s with gate := some (.job i) }.setJob i (next ()) log) else none
  | .step .unlock next =>
    if s.gate = some (.job i) then some ({ s with gate := none }.setJob i (next ()) log) else none
  | .step .look next => some (s.setJob i (next look) log)
  | .step .own next => some (s.setJob i (next ok) log)
  | .step (.publish e) next => some (s.setJob i (next ok) (if ok then log ++ [e] else log))
  | .step (.reopen e) next => some (s.setJob i (next ok) (if ok then log else log ++ [.stuck e]))
  | .step (.undo e) next => some (s.setJob i (next ok) (log ++ [if ok then e else .stuck e]))

def State.start (jobs : List Job) : State where
  flag := false
  gate := none
  guard := .armed
  jobs i := match jobs[i]? with
    | some job => ⟨job.program, []⟩
    | none => ⟨.ret (.ok ()), []⟩

def machine (jobs : List Job) : Machine State Action Unit where
  start := .start jobs
  step s
    | .guard => s.guardStep.map fun t => (t, ())
    | .job i look ok => (s.jobStep i look ok).map fun t => (t, ())

end Mineru.Remote
