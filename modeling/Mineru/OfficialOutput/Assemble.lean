import Mineru.Error
import Mineru.Json
import Mineru.Logic.Stateful
import Mineru.Logic.Table

/-!
# Assembling the official output

`write_final_outputs` of `official_output.rs` puts the staged parts of the pages together: three JSON
arrays of one element for each page, one concatenation of JSON arrays, and the Markdown. Every byte is
charged to the stage before it is written.

A file is a UTF-8 text and its length is counted in bytes. The clock of the stage counts the
operations, any of which may fail, and the deadline may be over at any of them.
-/

set_option autoImplicit false

namespace Mineru.OfficialOutput

open Logic

/-! ## JSON texts -/

/-- How `serde_json` displays a number. -/
structure NumberFormat where
  write : Number → Text
  nonempty : ∀ n, write n ≠ []

def hexDigit (n : Nat) : Char := Nat.digitChar n

/-- One character of a string, as the compact formatter of `serde_json` escapes it. -/
def escapeChar (c : Char) : Text :=
  if c = '"' then text "\\\""
  else if c = '\\' then text "\\\\"
  else if c.toNat = 8 then text "\\b"
  else if c.toNat = 9 then text "\\t"
  else if c.toNat = 10 then text "\\n"
  else if c.toNat = 12 then text "\\f"
  else if c.toNat = 13 then text "\\r"
  else if c.toNat < 32 then text "\\u00" ++ [hexDigit (c.toNat / 16), hexDigit (c.toNat % 16)]
  else [c]

def writeString (s : Text) : Text := '"' :: s.flatMap escapeChar ++ ['"']

/-- The texts, each behind a comma. -/
def behindCommas (ts : List Text) : Text := ts.flatMap fun t => ',' :: t

/-- The texts with commas between them. -/
def withCommas : List Text → Text
  | [] => []
  | t :: ts => t ++ behindCommas ts

mutual

/-- `serde_json::to_writer`. -/
def compact (f : NumberFormat) : Value → Text
  | .null => text "null"
  | .bool b => if b then text "true" else text "false"
  | .number n => f.write n
  | .string s => writeString s
  | .array elements => '[' :: withCommas (compactElements f elements) ++ [']']
  | .object members => '\x7b' :: withCommas (compactMembers f members) ++ ['\x7d']

def compactElements (f : NumberFormat) : List Value → List Text
  | [] => []
  | v :: rest => compact f v :: compactElements f rest

def compactMembers (f : NumberFormat) : List (Text × Value) → List Text
  | [] => []
  | (key, v) :: rest => (writeString key ++ ':' :: compact f v) :: compactMembers f rest

end

/-! ## The stage -/

structure Stage where
  stem : Text
  parts : Table Text Text
  files : Table Text Text
  pages : List Nat
  textBytes : Nat
  maxTextBytes : Nat
  clock : Nat

/-- The operations that fail, and the checks at which the deadline is over, by the clock. -/
structure World where
  fault : Nat → Option String
  expired : Nat → Bool

abbrev Assembly := EStateM VlmError Stage

/-- An operation of the disk. -/
def operate (w : World) : Assembly Unit := fun s =>
  match w.fault s.clock with
  | some e => .error (.io "official output" e) { s with clock := s.clock + 1 }
  | none => .ok () { s with clock := s.clock + 1 }

/-- `check_stage_deadline`. -/
def checkStageDeadline (w : World) : Assembly Unit := fun s =>
  if w.expired s.clock then .error (.timeout "official PDF") s else .ok () s

/-- `Dir::create`, which empties a file that is there. -/
def create (w : World) (name : Text) : Assembly Unit := do
  operate w
  modify fun s => { s with files := s.files.set name [] }

/-- `write_all` to an open file. -/
def writeAll (w : World) (name bytes : Text) : Assembly Unit := do
  operate w
  modify fun s => { s with files := s.files.set name ((s.files.get name).getD [] ++ bytes) }

/-- A staged part, opened or looked at. -/
def openPart (w : World) (name : Text) : Assembly Text := do
  operate w
  match (← get).parts.get name with
  | some data => return data
  | none => throw (.io "official output" "No such file or directory (os error 2)")

/-- `u64::saturating_add`. -/
def saturatingAdd (a b : Nat) : Nat := min (a + b) (2 ^ 64 - 1)

def chargeText (bytes : Nat) : Assembly Unit := fun s =>
  let next := saturatingAdd s.textBytes bytes
  if next > s.maxTextBytes then
    .error (.limitExceeded "staged text/JSON bytes" s.maxTextBytes next) s
  else .ok () { s with textBytes := next }

def writeFragment (w : World) (output bytes : Text) : Assembly Unit := do
  chargeText (utf8Len bytes)
  writeAll w output bytes

def appendPart (w : World) (output name : Text) : Assembly Unit := do
  let data ← openPart w name
  chargeText (utf8Len data)
  let data ← openPart w name
  writeAll w output data

/-- `format!("{page:020}-…")`. -/
def partName (page : Nat) (suffix : String) : Text :=
  (Nat.toDigits 10 page).leftpad 20 '0' ++ text suffix

/-- The loops over the pages that append a part behind a comma; the first part has none. -/
def appendParts (w : World) (output : Text) (suffix : String) : Bool → List Nat → Assembly Unit
  | _, [] => pure ()
  | first, page :: rest => do
    checkStageDeadline w
    if !first then writeFragment w output (text ",")
    appendPart w output (partName page suffix)
    appendParts w output suffix false rest

/-- A file with the parts of one kind between two fragments. -/
def writeArray (w : World) (output : Text) (opening : String) (suffix : String) (closing : String) :
    Assembly Unit := do
  create w output
  writeFragment w output (text opening)
  appendParts w output suffix true (← get).pages
  writeFragment w output (text closing)

def notArray : VlmError :=
  .protocol "official output staging" "page content output is not an array"

/-- The loop over the content lists, where `written` tells whether there is an element already. -/
def appendContents (w : World) (output : Text) : Bool → List Nat → Assembly Unit
  | _, [] => pure ()
  | written, page :: rest => do
    checkStageDeadline w
    let source ← openPart w (partName page "-content.json")
    if utf8Len source < 2 then throw notArray
    if source.head? ≠ some '[' ∨ source.getLast? ≠ some ']' then throw notArray
    let inner := utf8Len source - 2
    if inner ≠ 0 then
      if written then writeFragment w output (text ",")
      chargeText inner
      writeAll w output source.tail.dropLast
      appendContents w output true rest
    else appendContents w output written rest

/-- The loop over the Markdown parts. -/
def appendMarkdown (w : World) (output : Text) : Bool → List Nat → Assembly Unit
  | _, [] => pure ()
  | written, page :: rest => do
    checkStageDeadline w
    let name := partName page "-markdown.md"
    let bytes := utf8Len (← openPart w name)
    if bytes = 0 then appendMarkdown w output written rest
    else
      if written then writeFragment w output (text "\n\n")
      chargeText bytes
      let source ← openPart w name
      writeAll w output source
      appendMarkdown w output true rest

def middleName (stem : Text) : Text := stem ++ text "_middle.json"

def modelName (stem : Text) : Text := stem ++ text "_model.json"

def contentName (stem : Text) : Text := stem ++ text "_content_list.json"

def v2Name (stem : Text) : Text := stem ++ text "_content_list_v2.json"

def markdownName (stem : Text) : Text := stem ++ text ".md"

def writeFinalOutputs (w : World) : Assembly Unit := do
  let stem := (← get).stem
  writeArray w (middleName stem) "\x7b\"pdf_info\":[" "-middle.json"
    "],\"_backend\":\"vlm\",\"_version_name\":\"3.4.5\"\x7d"
  writeArray w (modelName stem) "[" "-model.json" "]"
  create w (contentName stem)
  writeFragment w (contentName stem) (text "[")
  appendContents w (contentName stem) false (← get).pages
  writeFragment w (contentName stem) (text "]")
  writeArray w (v2Name stem) "[" "-v2.json" "]"
  create w (markdownName stem)
  appendMarkdown w (markdownName stem) false (← get).pages

end Mineru.OfficialOutput
