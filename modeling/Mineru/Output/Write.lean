import Mineru.Logic.Stateful
import Mineru.Logic.Table
import Mineru.Text

/-!
# Writing the outputs of a document

`write_outputs_with` of `output.rs` writes a document into a stage beside the target, moves the old
output aside, moves the stage to the target and removes the old output. If the stage cannot be moved,
the old output is moved back.

The disk is the directory that holds the target. An entry of it is a file, or a directory with the
files below it by their paths. Any operation may fail without changing anything.
-/

set_option autoImplicit false

namespace Mineru.Output

open Logic

/-- The files of a directory tree. -/
abbrev Files := Table (List Text) (List UInt8)

inductive Entry where
  | file (data : List UInt8)
  | dir (files : Files)

abbrev Parent := Table Text Entry

inductive Error where
  | invalidInput (message : String)
  | io (message : String)

/-! ## Documents -/

/-- `std::path::Component`. -/
inductive Component where
  | normal (name : Text)
  | curDir
  | parentDir
  | rootDir
  | driveLetter
  deriving DecidableEq

structure Asset where
  relativePath : List Component
  data : List UInt8

/-- A document with the serialized forms of its parts. -/
structure Document where
  json : List UInt8
  markdown : List UInt8
  middleJson : List UInt8
  contentList : List UInt8
  assets : List Asset

structure OutputManifest where
  documentJson : List Text
  markdown : List Text
  middleJson : List Text
  contentList : List Text
  assets : List (List Component)

def manifest (document : Document) (directory : Text) : OutputManifest where
  documentJson := [directory, text "document.json"]
  markdown := [directory, text "document.md"]
  middleJson := [directory, text "middle.json"]
  contentList := [directory, text "content_list.json"]
  assets := document.assets.map (·.relativePath)

def normalizeRelativePath (path : List Component) : List Text :=
  path.filterMap fun component => match component with
    | .normal part => some part
    | _ => none

def Component.leaves : Component → Bool
  | parentDir | rootDir | driveLetter => true
  | _ => false

def invalidAssets : Error := .invalidInput "asset paths must be unique relative paths"

def validateFrom (paths : List (List Text)) : List Asset → Except Error Unit
  | [] => .ok ()
  | asset :: rest =>
    let path := normalizeRelativePath asset.relativePath
    if asset.relativePath = [] ∨ asset.relativePath.any Component.leaves ∨ path ∈ paths then
      .error invalidAssets
    else validateFrom (path :: paths) rest

def validateAssets (document : Document) : Except Error Unit :=
  validateFrom [[text "document.json"], [text "document.md"], [text "middle.json"],
    [text "content_list.json"]] document.assets

/-! ## Operations that may fail -/

/-- The operations; the ones of the stage are counted by the files that are written. -/
inductive Op where
  | createParent
  | createStage
  | createDirs (file : Nat)
  | writeTemporary (file : Nat)
  | renameTemporary (file : Nat)
  | exists
  | renameNew
  | renameBackup
  | renameInstall
  | renameRestore
  | removeStage
  | removeStranded
  | cleanupBackup
  deriving DecidableEq

/-- The operations that fail, with the text of their error. -/
abbrev Faults := Op → Option String

/-! ## The stage -/

abbrev Staging := EStateM Error Files

/-- A path is a directory when there are files below it. -/
def isDirectory (files : Files) (path : List Text) : Bool :=
  files.rows.any fun row => path.isPrefixOf row.1 && row.1 ≠ path

/-- A path cannot become a directory when it, or something above it, is a file. -/
def blocked (files : Files) (path : List Text) : Bool :=
  files.rows.any fun row => row.1.isPrefixOf path

def createDirAll (w : Faults) (file : Nat) (path : List Text) : Staging Unit := fun files =>
  match w (.createDirs file) with
  | some e => .error (.io e) files
  | none =>
    if blocked files path then .error (.io "File exists (os error 17)") files else .ok () files

/-- The end of a name from its last dot on, unless it only begins with it. -/
def splitExtension (name : Text) : Text × Option Text :=
  let afterDot := (name.reverse.takeWhile (· ≠ '.')).reverse
  let beforeDot := (name.reverse.drop (afterDot.length + 1)).reverse
  if beforeDot = [] then (name, none) else (beforeDot, some afterDot)

/-- The name of the temporary file: `with_extension` of the extension with `.tmp` behind it. -/
def temporaryName (name : Text) : Text :=
  (splitExtension name).1 ++ '.' :: ((splitExtension name).2.getD [] ++ text ".tmp")

def temporaryPath (path : List Text) : List Text :=
  path.dropLast ++ (path.getLast?.map temporaryName).toList

/-- `atomic_write`: a temporary file that is renamed. The stage itself, at `[]`, is a directory. -/
def atomicWrite (w : Faults) (file : Nat) (path : List Text) (data : List UInt8) : Staging Unit := do
  let files ← get
  match w (.writeTemporary file) with
  | some e => throw (.io e)
  | none => pure ()
  if isDirectory files (temporaryPath path) then throw (.io "Is a directory (os error 21)")
  if path ≠ [] then set (files.set (temporaryPath path) data)
  match w (.renameTemporary file) with
  | some e => throw (.io e)
  | none => pure ()
  if path = [] ∨ isDirectory files path then throw (.io "Is a directory (os error 21)")
  set ((files.remove (temporaryPath path)).set path data)

def writeAssets (w : Faults) : Nat → List Asset → Staging Unit
  | _, [] => pure ()
  | file, asset :: rest => do
    let path := normalizeRelativePath asset.relativePath
    createDirAll w file path.dropLast
    atomicWrite w file path asset.data
    writeAssets w (file + 1) rest

def writeStaged (w : Faults) (document : Document) : Staging Unit := do
  atomicWrite w 0 [text "document.json"] document.json
  atomicWrite w 1 [text "document.md"] document.markdown
  atomicWrite w 2 [text "middle.json"] document.middleJson
  atomicWrite w 3 [text "content_list.json"] document.contentList
  writeAssets w 4 document.assets

/-! ## The target -/

/-- The target and the names that `unique_sibling_path` makes beside it. An attempt to create the
stage under a taken name is repeated with the next one, so `stage` is the name that was free. -/
structure Names where
  target : Text
  stage : Text
  backup : Text
  stage_ne_target : stage ≠ target
  backup_ne_target : backup ≠ target
  backup_ne_stage : backup ≠ stage

abbrev Io := EStateM Error Parent

/-- Whether `rename` puts an entry where another one may be: a directory replaces nothing but an empty
directory, and a file no directory. -/
def replaces : Entry → Option Entry → Bool
  | _, none => true
  | .dir _, some (.dir files) => files.size = 0
  | .dir _, some (.file _) => false
  | .file _, some (.dir _) => false
  | .file _, some (.file _) => true

def rename (w : Faults) (op : Op) (source destination : Text) : Io Unit := fun d =>
  match w op with
  | some e => .error (.io e) d
  | none => match d.get source with
    | none => .error (.io "No such file or directory (os error 2)") d
    | some entry =>
      if replaces entry (d.get destination) then
        .ok () ((d.remove source).set destination entry)
      else .error (.io "Directory not empty (os error 39)") d

/-- `create_staging`. -/
def createStaging (w : Faults) (n : Names) : Io Unit := fun d =>
  match w .createStage with
  | some e => .error (.io e) d
  | none => .ok () (d.set n.stage (.dir ∅))

/-- `write_staged` in the stage, which keeps what was written before an error. -/
def fillStage (w : Faults) (n : Names) (document : Document) : Io Unit := fun d =>
  match writeStaged w document ∅ with
  | .ok _ files => .ok () (d.set n.stage (.dir files))
  | .error e files => .error e (d.set n.stage (.dir files))

/-- `remove_dir_all` and `remove_path` where their result is ignored. -/
def discard (w : Faults) (op : Op) (name : Text) : Io Unit := fun d =>
  match w op with
  | some _ => .ok () d
  | none => .ok () (d.remove name)

def createParent (w : Faults) : Io Unit := fun d =>
  match w .createParent with
  | some e => .error (.io e) d
  | none => .ok () d

/-- `Path::exists`, which is `false` where it fails. -/
def pathExists (w : Faults) (name : Text) : Io Bool := fun d =>
  .ok ((w .exists).isNone && (d.get name).isSome) d

/-- An operation, and what is done about its error. -/
def handling {α : Type} (x : Io α) (handle : Error → Io α) : Io α := fun d =>
  match x d with
  | .ok a d' => .ok a d'
  | .error e d' => handle e d'

/-- The stage is removed and the error passed on. -/
def abandon {α : Type} (w : Faults) (n : Names) (e : Error) : Io α := do
  discard w .removeStage n.stage
  throw e

/-- The install failed: the old output is moved back. If that fails too, the backup is removed. -/
def restore (w : Faults) (n : Names) (e : Error) : Io Unit := fun d =>
  match rename w .renameRestore n.backup n.target d with
  | .ok _ d => abandon w n e d
  | .error e' d => (do
      discard w .removeStage n.stage
      discard w .removeStranded n.backup
      throw e') d

/-- `write_outputs_with`, where the stage is installed by a `rename` and the backup removed by
`remove_path`. -/
def writeOutputsWith (w : Faults) (n : Names) (document : Document) : Io OutputManifest := do
  match validateAssets document with
  | .error e => throw e
  | .ok _ => pure ()
  createParent w
  createStaging w n
  handling (fillStage w n document) (abandon w n)
  if ← pathExists w n.target then
    handling (rename w .renameBackup n.target n.backup) (abandon w n)
    handling (rename w .renameInstall n.stage n.target) (restore w n)
    discard w .cleanupBackup n.backup
    return manifest document n.target
  else
    handling (rename w .renameNew n.stage n.target) (abandon w n)
    return manifest document n.target

end Mineru.Output
