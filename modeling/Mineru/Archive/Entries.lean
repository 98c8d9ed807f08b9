import Mineru.Text

/-!
# The entries of a result archive

`DownloadedZip::extract_impl` first decides, from the directory of the archive alone, which entries
it will write: `archivePath` turns a name into a relative path, `acceptEntry` is one turn of the loop
over the directory, and `conflicts` is the check of files against the directories that other entries
need. `accept` is the three together.

What the ZIP library reports of an entry is data (`ZipFile`). `str::to_lowercase` is a parameter,
since nothing here depends on the Unicode tables.
-/

set_option autoImplicit false

namespace Mineru.Archive

/-- The components of a relative path. -/
abbrev Path := List Text

structure ArchiveLimits where
  max_entries : Nat
  max_compressed_bytes : Nat
  max_expanded_bytes : Nat
  max_entry_bytes : Nat
  max_ratio : Nat
  deriving DecidableEq, Repr

/-- `ArchiveLimits::default`, without the limits of the pre-scan. -/
def ArchiveLimits.default : ArchiveLimits where
  max_entries := 100000
  max_compressed_bytes := 8 * 1024 * 1024 * 1024
  max_expanded_bytes := 32 * 1024 * 1024 * 1024
  max_entry_bytes := 8 * 1024 * 1024 * 1024
  max_ratio := 1000

/-- An entry as the ZIP library reports it; `name` is `none` where `file.name()` fails. -/
structure ZipFile where
  name_raw : List UInt8
  name : Option Text
  is_dir : Bool
  unix_mode : Option Nat
  size : Nat
  compressed_size : Nat
  deriving DecidableEq, Repr

/-- One element of `entries`: path, directory flag, expanded and compressed size. -/
structure Entry where
  path : Path
  directory : Bool
  size : Nat
  packed : Nat
  deriving DecidableEq, Repr

def unsafePath : String := "result archive has an unsafe path"
def invalidArchive : String := "invalid result archive"
def duplicatePaths : String := "result archive has duplicate paths"
def expandedSizeLimit : String := "result archive exceeds expanded size limit"
def expansionRatioLimit : String := "result archive exceeds expansion ratio limit"
def fileDirectoryConflicts : String := "result archive has file-directory conflicts"
def operationCancelled : String := "operation cancelled"

/-! ## Names -/

/-- The device names that no component may have before its first dot. -/
def DEVICES : List Text :=
  ["CON", "PRN", "AUX", "NUL", "COM1", "COM2", "COM3", "COM4", "COM5", "COM6", "COM7", "COM8",
    "COM9", "LPT1", "LPT2", "LPT3", "LPT4", "LPT5", "LPT6", "LPT7", "LPT8", "LPT9"].map text

/-- The checks of `archive_path` on one component. -/
def unsafeComponent (part : Text) : Bool :=
  let upper := (part.takeWhile (· != '.')).map Char.toUpper
  part.any (· ∈ ['<', '>', ':', '"', '|', '?', '*']) ||
    part.getLast? == some '.' || part.getLast? == some ' ' || upper ∈ DEVICES

/-- `archive_path`. An empty segment is only allowed behind a last slash. -/
def archivePath (name : Text) : Except String Path :=
  let segments := name.splitOn '/'
  let emptyInside := segments.zipIdx.any fun (segment, index) =>
    segment == [] && (index != segments.length - 1 || name.getLast? != some '/' ||
      segments.length < 2)
  let components := segments.filter (· ≠ [])
  if name = [] || name.contains '\\' || name.any (fun c => c.toNat < 0x20 || c.toNat == 0x7f) then
    .error unsafePath
  else if segments.contains ['.'] || segments.contains ['.', '.'] || emptyInside then
    .error unsafePath
  else if name.head? = some '/' then .error unsafePath
  else if components.any unsafeComponent || components.isEmpty then .error unsafePath
  else .ok components

/-- `to_string_lossy` of a path. -/
def joined : Path → Text
  | [] => []
  | [p] => p
  | p :: q :: ps => p ++ '/' :: joined (q :: ps)

/-! ## The loop over the directory -/

/-- `ratio_exceeded`, with its checked product. -/
def ratioExceeded (expanded compressed max_ratio : Nat) : Except String Bool :=
  if expanded = 0 then .ok false
  else if compressed = 0 then .ok true
  else if compressed * max_ratio < 2 ^ 64 then .ok (expanded > compressed * max_ratio)
  else .error "archive limits are invalid"

/-- The variables of the loop. `kinds` maps folded paths to directory flags. -/
structure Accepting where
  raw_names : List (List UInt8) := []
  kinds : List (Text × Bool) := []
  folded_bytes : Nat := 0
  expanded : Nat := 0
  entries : List Entry := []
  deriving DecidableEq, Repr

def FOLDED_CAP : Nat := 32 * 1024 * 1024
def FOLDED_KEY_CAP : Nat := 4 * 1024

/-- The type bits of a Unix mode against the directory flag. -/
def checkMode (directory : Bool) : Option Nat → Except String Unit
  | none => .ok ()
  | some mode =>
    let kind := mode &&& 0o170000
    if kind ≠ 0 ∧ kind ≠ 0o100000 ∧ kind ≠ 0o040000 then
      .error "result archive contains a symlink or special entry"
    else if directory ≠ decide (kind = 0o040000) ∧ kind ≠ 0 then
      .error "result archive entry type is invalid"
    else .ok ()

/-- One turn of the loop, past its cancellation check. -/
def acceptEntry (toLowercase : Text → Text) (limits : ArchiveLimits) (st : Accepting)
    (file : ZipFile) : Except String Accepting := do
  if file.name_raw ∈ st.raw_names then throw duplicatePaths
  let some name := file.name | throw invalidArchive
  let path ← archivePath name
  checkMode file.is_dir file.unix_mode
  let key := toLowercase (joined path)
  let folded_bytes := st.folded_bytes + utf8Len key
  if folded_bytes > FOLDED_CAP then throw invalidArchive
  if utf8Len key > FOLDED_KEY_CAP ∨ key ∈ st.kinds.map Prod.fst then throw duplicatePaths
  if file.size > limits.max_entry_bytes then
    throw "result archive entry exceeds expanded size limit"
  let expanded := st.expanded + file.size
  if ¬ expanded < 2 ^ 64 ∨ expanded > limits.max_expanded_bytes then throw expandedSizeLimit
  if ← ratioExceeded file.size file.compressed_size limits.max_ratio then throw expansionRatioLimit
  return {
    raw_names := st.raw_names ++ [file.name_raw]
    kinds := st.kinds ++ [(key, file.is_dir)]
    folded_bytes
    expanded
    entries := st.entries ++ [⟨path, file.is_dir, file.size, file.compressed_size⟩] }

/-- The loop; `cancelled` is what the flag reads at each turn. -/
def acceptLoop (toLowercase : Text → Text) (limits : ArchiveLimits) (cancelled : Nat → Bool) :
    List ZipFile → Nat → Accepting → Except String Accepting
  | [], _, st => .ok st
  | file :: files, index, st =>
    if cancelled index then .error operationCancelled
    else do
      let st ← acceptEntry toLowercase limits st file
      acceptLoop toLowercase limits cancelled files (index + 1) st

/-- `match_indices('/')`, as the text before each slash. -/
def slashPrefixes : Text → List Text
  | [] => []
  | c :: cs =>
    let deeper := (slashPrefixes cs).map (c :: ·)
    if c = '/' then [] :: deeper else deeper

/-- The loop over the sorted folded paths: a file may not lie above another entry. -/
def conflicts (kinds : List (Text × Bool)) : Bool :=
  let folded := (kinds.map Prod.fst).insertionSort (· ≤ ·)
  folded.zipIdx.any fun (key, index) =>
    (slashPrefixes key).any (fun above => kinds.lookup above == some false) ||
      (kinds.lookup key == some false &&
        (folded[index + 1]?).any fun next => (key ++ ['/']).isPrefixOf next)

/-- The entries that `extract_impl` goes on with. -/
def accept (toLowercase : Text → Text) (limits : ArchiveLimits) (cancelled : Nat → Bool)
    (files : List ZipFile) : Except String (List Entry) := do
  let st ← acceptLoop toLowercase limits cancelled files 0 {}
  if conflicts st.kinds then throw fileDirectoryConflicts
  return st.entries

end Mineru.Archive
