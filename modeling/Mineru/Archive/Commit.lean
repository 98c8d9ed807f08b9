import Mineru.Archive.Entries
import Mineru.Logic.FileTree
import Mineru.Logic.Stateful

/-!
# Publishing the staged files

`commit_staged_overlay` moves the staged files of an archive into the output root, and undoes what
it did when a step fails. The output root is one file tree that also holds the transaction
directory with `stage` and `backup`; an open directory is the path that it was opened at, since
nothing moves a directory while the commit runs.

Every operation on the tree and every look at the cancellation flag is counted, and `World` says of
each count whether the operation fails and whether the flag is set: a failed operation changes
nothing. `CommitFault` exists in test builds only and is left out, and so is the publication gate,
which keeps the canceller from setting the flag meanwhile (here it may be set at any time).
-/

set_option autoImplicit false

namespace Mineru.Archive

open Logic

/-- What a name in a directory may be other than a directory. -/
inductive Leaf where
  | file (content : List UInt8)
  | symlink (target : Text)
  | special
  deriving DecidableEq, Repr

abbrev Disk := FileTree Text Leaf

/-- An open directory. -/
abbrev Dir := Path

/-- Which operations fail, and when the cancellation flag is set, by the number of operations
before. -/
structure World where
  fails : Nat → Bool
  cancelled : Nat → Bool

/-- `CommitState`, with the tree and the number of operations so far. -/
structure CommitState where
  disk : Disk
  steps : Nat
  installed : List Path := []
  backed_up : List Path := []
  created_dirs : List Path := []
  publications : Nat := 0

abbrev Commit := EStateM String CommitState

def CommitState.step (s : CommitState) : CommitState := { s with steps := s.steps + 1 }

/-! ## Operations -/

/-- `check_cancellation`. -/
def checkCancellation (w : World) : Commit Unit := fun s =>
  if w.cancelled s.steps then .error operationCancelled s.step else .ok () s.step

/-- An operation that returns no data: `message` is what its error is mapped to. -/
def perform (w : World) (message : String) (operation : Disk → Option Disk) : Commit Unit :=
  fun s =>
    if w.fails s.steps then .error message s.step
    else match operation s.disk with
      | some disk => .ok () { s.step with disk }
      | none => .error message s.step

/-- `try_clone`. -/
def tryClone (w : World) (dir : Dir) (message : String) : Commit Dir := do
  perform w message some
  return dir

inductive Metadata where
  | found (node : Node Leaf)
  | notFound
  | failed
  deriving DecidableEq, Repr

/-- `symlink_metadata`, which does not follow a link. -/
def symlinkMetadata (w : World) (dir : Dir) (name : Text) : Commit Metadata := fun s =>
  if w.fails s.steps then .ok .failed s.step
  else match s.disk.get (dir ++ [name]) with
    | some node => .ok (.found node) s.step
    | none => .ok .notFound s.step

/-- `open_dir_nofollow`. -/
def openDirNofollow (w : World) (dir : Dir) (name : Text) (message : String) : Commit Dir := do
  perform w message fun disk => if disk.isDir (dir ++ [name]) then some disk else none
  return dir ++ [name]

def createDir (w : World) (dir : Dir) (name : Text) : Commit Unit :=
  perform w "unable to create output directory" (·.createDir (dir ++ [name]))

def notDirectory : String := "output path contains a symlink or non-directory"
def inspectOutput : String := "unable to inspect output path"
def openRoot : String := "unable to open output root"

/-! ## Directories -/

/-- One component of the free `ensure_directory`, by what is there. -/
def enterOrCreate (w : World) (dir : Dir) (name : Text) : Metadata → Commit Unit
  | .found .dir => pure ()
  | .found (.leaf _) => throw notDirectory
  | .notFound => createDir w dir name
  | .failed => throw inspectOutput

def ensureDirectoryLoop (w : World) : List Text → Dir → Commit Dir
  | [], dir => pure dir
  | name :: parts, dir => do
    let there ← symlinkMetadata w dir name
    enterOrCreate w dir name there
    let dir ← openDirNofollow w dir name notDirectory
    ensureDirectoryLoop w parts dir

/-- The free function `ensure_directory`, for the stage and the backup. -/
def ensureDirectory (w : World) (root : Dir) (path : Path) : Commit Dir := do
  let dir ← tryClone w root openRoot
  ensureDirectoryLoop w path dir

/-- `existing_parent`. -/
def existingParentLoop (w : World) : List Text → Dir → Commit Dir
  | [], dir => pure dir
  | name :: parts, dir => do
    match ← symlinkMetadata w dir name with
    | .found .dir =>
      let dir ← openDirNofollow w dir name "unable to open output path"
      existingParentLoop w parts dir
    | .found (.leaf _) => throw notDirectory
    | _ => throw "output path is missing"

def existingParent (w : World) (root : Dir) (parts : List Text) : Commit Dir := do
  let dir ← tryClone w root openRoot
  existingParentLoop w parts dir

/-- `relative_parts`: the components before the last one, and the last one. -/
def relativeParts (path : Path) : Commit (List Text × Text) :=
  match path.getLast? with
  | some leaf => if [] ∈ path then throw "relative path is unsafe" else pure (path.dropLast, leaf)
  | none => throw "relative path is unsafe"

namespace CommitState

/-- `published`. -/
def published (w : World) : Commit Unit := do
  checkCancellation w
  modify fun s => { s with publications := s.publications + 1 }

/-- One component of the method `ensure_directory`, by what is there. -/
def enterOrCreate (w : World) (dir : Dir) (name : Text) : Metadata → Commit Unit
  | .found .dir => pure ()
  | .found (.leaf _) => throw notDirectory
  | .notFound => do
    checkCancellation w
    createDir w dir name
    modify fun s => { s with created_dirs := s.created_dirs ++ [dir ++ [name]] }
    published w
  | .failed => throw inspectOutput

def ensureDirectoryLoop (w : World) : List Text → Dir → Commit Dir
  | [], dir => pure dir
  | name :: parts, dir => do
    let there ← symlinkMetadata w dir name
    enterOrCreate w dir name there
    let dir ← openDirNofollow w dir name notDirectory
    ensureDirectoryLoop w parts dir

/-- The method `ensure_directory`: it works on the root and logs what it creates. The variable
`current` is the path of `dir`. -/
def ensureDirectory (w : World) (path : Path) : Commit Dir := do
  checkCancellation w
  let dir ← tryClone w [] openRoot
  ensureDirectoryLoop w path dir

/-! ## Installing a file -/

def prepareRollback : String := "unable to prepare publication rollback"

/-- The step of `install` that moves what is in the way to the backup. -/
def backUp (w : World) (backup destinationParent : Dir) (path : Path) (leaf : Text) :
    Metadata → Commit Unit
  | .found .dir | .found (.leaf .special) =>
    throw "output path contains a directory or special file"
  | .found (.leaf _) => do
    let backupParent ←
      mapErr (Archive.ensureDirectory w backup path.dropLast) fun _ => prepareRollback
    perform w prepareRollback (·.rename (destinationParent ++ [leaf]) (backupParent ++ [leaf]))
    modify fun s => { s with backed_up := s.backed_up ++ [path] }
    published w
  | .notFound => pure ()
  | .failed => throw inspectOutput

/-- `install`. -/
def install (w : World) (stage backup : Dir) (path : Path) : Commit Unit := do
  checkCancellation w
  match path.getLast? with
  | none => throw unsafePath
  | some leaf =>
    let parentPath := path.dropLast
    let destinationParent ← ensureDirectory w parentPath
    let stagedParent ← Archive.ensureDirectory w stage parentPath
    let there ← symlinkMetadata w destinationParent leaf
    backUp w backup destinationParent path leaf there
    checkCancellation w
    perform w "unable to publish extracted file"
      (·.rename (stagedParent ++ [leaf]) (destinationParent ++ [leaf]))
    modify fun s => { s with installed := s.installed ++ [path] }
    published w

end CommitState

/-! ## Undoing -/

/-- `remove_relative_file`. Its error is not looked at. -/
def removeRelativeFile (w : World) (root : Dir) (path : Path) : Commit Unit := do
  let (parts, leaf) ← relativeParts path
  let dir ← existingParent w root parts
  perform w "" (·.removeLeaf (dir ++ [leaf]))

/-- `restore_relative_file`. -/
def restoreRelativeFile (w : World) (backup root : Dir) (path : Path) : Commit Unit := do
  let (parts, leaf) ← relativeParts path
  let backupParent ← existingParent w backup parts
  let destinationParent ← existingParent w root parts
  perform w "" (·.rename (backupParent ++ [leaf]) (destinationParent ++ [leaf]))

/-- `remove_relative_directory`. -/
def removeRelativeDirectory (w : World) (root : Dir) (path : Path) : Commit Unit := do
  let (parts, leaf) ← relativeParts path
  let dir ← existingParent w root parts
  perform w "" (·.removeDir (dir ++ [leaf]))

/-- A loop of `rollback`: every path is tried, and the flag says whether all of them went well. -/
def undoAll (undo : Path → Commit Unit) : List Path → CommitState → Bool × CommitState
  | [], s => (true, s)
  | path :: paths, s =>
    match undo path s with
    | .ok _ s => undoAll undo paths s
    | .error _ s => (false, (undoAll undo paths s).2)

/-- `rollback`. -/
def CommitState.rollback (w : World) (backup : Dir) (s : CommitState) : Bool × CommitState :=
  let (removed, s₁) := undoAll (removeRelativeFile w []) s.installed.reverse s
  let (restored, s₂) := undoAll (restoreRelativeFile w backup []) s.backed_up.reverse s₁
  let (cleared, s₃) := undoAll (removeRelativeDirectory w []) s.created_dirs.reverse s₂
  (removed && restored && cleared, s₃)

/-! ## The commit -/

/-- One turn of the loop over the entries. -/
def publishEntry (w : World) (stage backup : Dir) (entry : Entry) : Commit Unit :=
  if entry.directory then do
    let _ ← CommitState.ensureDirectory w entry.path
    pure ()
  else CommitState.install w stage backup entry.path

/-- The loop over the entries. -/
def publishEntries (w : World) (stage backup : Dir) : List Entry → Commit Unit
  | [] => pure ()
  | entry :: entries => do
    publishEntry w stage backup entry
    publishEntries w stage backup entries

/-- The forward pass: the closure of `commit_staged_overlay` and the check behind it. -/
def forwardPass (w : World) (stage backup : Dir) (entries : List Entry) : Commit Unit := do
  checkCancellation w
  publishEntries w stage backup entries
  checkCancellation w

def partialPublication : String :=
  "partial publication: unable to fully roll back result archive"

/-- `commit_staged_overlay` on the tree `disk`. -/
def commitStagedOverlay (w : World) (stage backup : Dir) (entries : List Entry) (disk : Disk) :
    Except String Unit × CommitState :=
  match forwardPass w stage backup entries { disk, steps := 0 } with
  | .ok _ s => (.ok (), s)
  | .error error s =>
    match s.rollback w backup with
    | (true, s) => (.error error, s)
    | (false, s) => (.error partialPublication, s)

end Mineru.Archive
