import Mineru.Archive.Entries
import Mineru.Logic.FileTree
import Mineru.Stems.Canonical

/-!
# Copying a bundle

`copy_bundle` of `hybrid_v4_output/tree.rs` walks the directories of a bundle and copies each entry into
an empty stage. The budgets and the names of the whole tree are in one `TreeState`, which the walk hands
on: each entry is admitted, checked and copied before the next one is looked at.

The files can be read and the stage can be written; what the walk itself refuses is its result. A file
is read in pieces whose sizes are up to the system (`Reader`).
-/

set_option autoImplicit false

namespace Mineru.Hybrid

open Archive Logic Stems

def MAX_COMPONENT_BYTES : Nat := 255
def MAX_DEPTH : Nat := 32
def MAX_RELATIVE_PATH_BYTES : Nat := 4096
def MAX_NAME_BUDGET : Nat := 32 * 1024 * 1024
def MAX_ENTRIES : Nat := 8192
def COPY_BUFFER_BYTES : Nat := 64 * 1024

/-! ## Trees -/

/-- `OsString`: its text, if it is UTF-8. -/
inductive OsName where
  | utf8 (name : Text)
  | other (bytes : List UInt8)
  deriving DecidableEq, Repr

/-- What is no directory. -/
inductive Leaf where
  | file (bytes : List UInt8)
  | symlink
  | special
  deriving DecidableEq, Repr

/-- The entries of a directory in the order of `read_dir`, with those below them. -/
inductive Listing where
  | done
  | leaf (name : OsName) (node : Leaf) (rest : Listing)
  | directory (name : OsName) (children rest : Listing)
  deriving DecidableEq, Repr

namespace Listing

def append : Listing → Listing → Listing
  | .done, later => later
  | .leaf name node rest, later => .leaf name node (rest.append later)
  | .directory name children rest, later => .directory name children (rest.append later)

def names : Listing → List OsName
  | .done => []
  | .leaf name _ rest => name :: rest.names
  | .directory name _ rest => name :: rest.names

/-- The paths of the tree below a directory, with what is there. -/
def paths : Listing → List OsName → List (List OsName × Node Leaf)
  | .done, _ => []
  | .leaf name node rest, above => (above ++ [name], .leaf node) :: rest.paths above
  | .directory name children rest, above =>
    (above ++ [name], .dir) :: (children.paths (above ++ [name]) ++ rest.paths above)

end Listing

/-! ## Names -/

/-- `windows_device_name`, on the bytes of the name before its first dot. -/
def windowsDeviceName (name : Text) : Bool :=
  let base := name.takeWhile (· ≠ '.')
  (["con", "prn", "aux", "nul"].any fun device => eqIgnoreAsciiCase base (text device)) ||
    (utf8Len base = 4 &&
      (eqIgnoreAsciiCase (base.take 3) (text "com") || eqIgnoreAsciiCase (base.take 3) (text "lpt")) &&
      base[3]?.any fun c => '1' ≤ c && c ≤ '9')

/-- `portable_name`. -/
def portableName (name : Text) : Bool :=
  !name.isEmpty && name ≠ ['.'] && name ≠ ['.', '.'] && !endsWithDotOrSpace name &&
    name.all isSafeStemChar && !windowsDeviceName name

/-- `known_file`. -/
def knownFile (name : Text) : Bool :=
  name ∈ ["markdown.md", "middle_json.json", "structured_content.json", "model_output.json"].map text

/-! ## Budgets -/

structure RelativePath where
  depth : Nat
  bytes : Nat
  portable : Text
  deriving DecidableEq, Repr

structure TreeState where
  entries : Nat := 0
  nameBytes : Nat := 0
  dataBytes : Nat := 0
  names : List Text := []
  deriving DecidableEq, Repr

/-- `checked_add` of a type with so many values. -/
def checkedAdd (values a b : Nat) (overflow : Text) : Except Text Nat :=
  if a + b < values then .ok (a + b) else .error overflow

namespace RelativePath

def root : RelativePath := ⟨0, 0, []⟩

def child (T : CaseTables) (self : RelativePath) (name : Text) : Except Text RelativePath := do
  if !portableName name then throw (text "unsafe hybrid-v4 name: " ++ name)
  let depth ← checkedAdd (2 ^ 32) self.depth 1 (text "hybrid-v4 path depth overflow")
  let overflow := text "hybrid-v4 relative path size overflow"
  let bytes ← checkedAdd (2 ^ 64) self.bytes (utf8Len name) overflow
  let bytes ← checkedAdd (2 ^ 64) bytes (if 0 < self.depth then 1 else 0) overflow
  if utf8Len name > MAX_COMPONENT_BYTES ∨ depth > MAX_DEPTH ∨ bytes > MAX_RELATIVE_PATH_BYTES then
    throw (text "hybrid-v4 path component/depth/length cap exceeded")
  let lower := T.toLowercase name
  let portable := if self.portable = [] then lower else self.portable ++ '/' :: lower
  return ⟨depth, bytes, portable⟩

end RelativePath

namespace TreeState

def admitEntry (T : CaseTables) (self : TreeState) (parent : RelativePath) (name : Text) :
    Except Text (RelativePath × TreeState) := do
  let relative ← parent.child T name
  let entries ← checkedAdd (2 ^ 64) self.entries 1 (text "hybrid-v4 entry count overflow")
  let nameBytes ← checkedAdd (2 ^ 64) self.nameBytes relative.bytes
    (text "hybrid-v4 relative-name budget overflow")
  if entries > MAX_ENTRIES ∨ nameBytes > MAX_NAME_BUDGET then
    throw (text "hybrid-v4 entry/name cap exceeded")
  if relative.portable ∈ self.names then
    throw (text "duplicate hybrid-v4 portable name: " ++ relative.portable)
  return (relative, { self with entries, nameBytes, names := self.names ++ [relative.portable] })

def chargeData (self : TreeState) (amount : Nat) (byteCap : UInt64) : Except Text TreeState := do
  let dataBytes ← checkedAdd (2 ^ 64) self.dataBytes amount
    (text "hybrid-v4 bundle byte count overflow")
  if dataBytes > byteCap.toNat then
    throw (text "hybrid-v4 bundle exceeds " ++ text (toString byteCap.toNat) ++ text " bytes")
  return { self with dataBytes }

end TreeState

/-! ## The walk -/

/-- How much of what is left of a file the next `read` returns. -/
structure Reader where
  size : List UInt8 → Nat
  positive : ∀ rest, rest ≠ [] → 0 < size rest
  buffer : ∀ rest, size rest ≤ COPY_BUFFER_BYTES

section
variable (T : CaseTables) (R : Reader) (byteCap : UInt64)

/-- The loop of `copy_file`. -/
def copyLoop (source written : List UInt8) (state : TreeState) :
    Except Text (List UInt8 × TreeState) :=
  if source = [] then .ok (written, state)
  else do
    let read := source.take (R.size source)
    let state ← state.chargeData read.length byteCap
    copyLoop (source.drop (R.size source)) (written ++ read) state
termination_by source.length
decreasing_by
  have positive := R.positive source ‹_›
  have some := List.length_pos_iff.mpr ‹source ≠ []›
  rw [List.length_drop]
  omega

/-- `copy_file`: the destination must be new. -/
def copyFile (bytes : List UInt8) (destination : Listing) (name : Text) (state : TreeState) :
    Except Text (Listing × TreeState) := do
  if OsName.utf8 name ∈ destination.names then throw (text "File exists")
  let (written, state) ← copyLoop R byteCap bytes [] state
  return (destination.append (.leaf (.utf8 name) (.file written) .done), state)

/-- The check of `create_destination_dir`. The new directory is empty. -/
def createDestinationDir (parent : Listing) (name : Text) : Except Text Listing :=
  if OsName.utf8 name ∈ parent.names then
    .error (text "hybrid-v4 destination directory collision")
  else .ok .done

/-- `into_string` on the name of an entry. -/
def intoString : OsName → Except Text Text
  | .utf8 name => .ok name
  | .other _ => .error (text "hybrid-v4 bundle has a non-UTF-8 name")

/-- The branch of `walk_directory` for an entry that is no directory. -/
def copyLeaf (node : Leaf) (destination : Listing) (name : Text) (relative : RelativePath)
    (root : Bool) (state : TreeState) : Except Text (Listing × TreeState) :=
  match node with
  | .symlink => .error (text "hybrid-v4 bundle entry is a symlink: " ++ name)
  | .file bytes =>
    if root && !knownFile name then .error (text "unknown hybrid-v4 bundle entry: " ++ name)
    else copyFile R byteCap bytes destination name state
  | .special => .error (text "hybrid-v4 bundle entry is not a regular file: " ++ relative.portable)

/-- `walk_directory`, from the entry that comes next. -/
def walkDirectory : Listing → Listing → RelativePath → Bool → TreeState →
    Except Text (Listing × TreeState)
  | .done, destination, _, _, state => .ok (destination, state)
  | .leaf name node rest, destination, parent, root, state => do
    let name ← intoString name
    let (relative, state) ← state.admitEntry T parent name
    let (destination, state) ← copyLeaf R byteCap node destination name relative root state
    walkDirectory rest destination parent root state
  | .directory name children rest, destination, parent, root, state => do
    let name ← intoString name
    let (relative, state) ← state.admitEntry T parent name
    if root && name ≠ text "images" then throw (text "unknown hybrid-v4 bundle entry: " ++ name)
    let child ← createDestinationDir destination name
    let (child, state) ← walkDirectory children child relative false state
    walkDirectory rest (destination.append (.directory (.utf8 name) child .done)) parent root state

/-- `copy_bundle`: the stage. -/
def copyBundle (source : Listing) : Except Text Listing := do
  let (stage, _) ← walkDirectory T R byteCap source .done .root true {}
  return stage

end

end Mineru.Hybrid
