import Mineru.Error
import Mineru.Logic.Checked
import Mineru.Stems.Unique

/-!
# Canonical stems

`canonical_stem` of `official_output.rs` turns any name into one that every platform accepts as a
directory name, or refuses it; `allocate_input_stems` of `command/direct.rs` applies it to the file
names of a batch and makes the results unique. `windows_device_name` slices the first three bytes of
a four-byte name, which panics when they do not end at a character boundary.
-/

set_option autoImplicit false

namespace Mineru.Stems

open Logic

/-- `char::is_control`: the general category `Cc`. -/
def isControl (c : Char) : Bool := c.toNat < 0x20 || (0x7f ≤ c.toNat && c.toNat ≤ 0x9f)

/-- `is_safe_stem_char`. -/
def isSafeStemChar (c : Char) : Bool :=
  !(isControl c || c ∈ ['/', '\\', '<', '>', ':', '"', '|', '?', '*'])

/-- `sanitize_stem`. -/
def sanitizeStem (value : Text) : Text := value.map fun c => if isSafeStemChar c then c else '_'

/-- The pattern `['.', ' ']`. -/
def dotOrSpace (c : Char) : Bool := c = '.' || c = ' '

/-- `str::trim_end_matches`. -/
def trimEndMatches (p : Char → Bool) (t : Text) : Text := (t.reverse.dropWhile p).reverse

/-- `str::ends_with(['.', ' '])`. -/
def endsWithDotOrSpace (t : Text) : Bool := t.getLast?.any dotOrSpace

/-- `str::eq_ignore_ascii_case`. -/
def eqIgnoreAsciiCase (a b : Text) : Bool := a.map Char.toLower = b.map Char.toLower

/-- The test of `windows_device_name` on a name of four bytes, cut behind the third. -/
def numberedDevice : Option (Text × Text) → Checked VlmError Bool
  | none => .error .panic
  | some (first, digit) =>
    .ok ((eqIgnoreAsciiCase first (text "com") || eqIgnoreAsciiCase first (text "lpt")) &&
      digit.head?.any fun c => '1' ≤ c && c ≤ '9')

/-- `windows_device_name`. -/
def windowsDeviceName (name : Text) : Checked VlmError Bool :=
  let base := name.takeWhile (· ≠ '.')
  if ["con", "prn", "aux", "nul"].any fun device => eqIgnoreAsciiCase base (text device) then
    .ok true
  else if utf8Len base = 4 then numberedDevice (splitAtByte 3 base)
  else .ok false

/-- `portable_name`. -/
def portableName (name : Text) : Checked VlmError Bool :=
  if name.isEmpty || endsWithDotOrSpace name || !name.all isSafeStemChar then .ok false
  else do
    let device ← windowsDeviceName name
    return !device

/-- The error of `invalid`. -/
def notPortable : VlmError :=
  .protocol "official output validation" "official output stem is not portable"

/-- `canonical_stem`. -/
def canonicalStem (value : Text) : Checked VlmError Text := do
  let stem := trimEndMatches dotOrSpace (sanitizeStem value)
  let stem := if stem.isEmpty then text "document" else stem
  let portable ← portableName stem
  let device ← if portable then windowsDeviceName stem else .ok true
  if portable && !device then .ok stem else Checked.fail notPortable

/-- The errors of `allocate_input_stems`: a message, or the error of `canonical_stem`. -/
inductive DirectError where
  | message (text : String)
  | vlm (error : VlmError)
  deriving DecidableEq, Repr

/-- `Path::file_stem` of a path whose last component is `name`. -/
def fileStem (name : Text) : Text :=
  if name = text ".." then name
  else
    let extension := name.reverse.takeWhile (· ≠ '.')
    let before := name.reverse.drop (extension.length + 1)
    if before.isEmpty then name else before.reverse

/-- The stem of one input; `none` is a path whose file name is missing or not UTF-8. -/
def inputStem : Option Text → Checked DirectError Text
  | none => Checked.fail (.message "non-UTF-8 input name")
  | some name =>
    match canonicalStem (fileStem name) with
    | .ok stem => .ok stem
    | .error (.err e) => Checked.fail (.vlm e)
    | .error .panic => .error .panic

/-- `allocate_input_stems`, on the file names of the inputs. -/
def allocateInputStems (T : CaseTables) (fuel : Nat) (inputs : List (Option Text)) :
    Checked DirectError (Option (List Text)) := do
  let rawStems ← inputs.mapM inputStem
  return uniqueStems T fuel rawStems

end Mineru.Stems
