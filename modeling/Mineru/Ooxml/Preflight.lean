import Mineru.Ooxml.Relationships
import Mathlib.Data.List.Infix

/-!
# The OOXML preflight

`detect_reader` of `ooxml.rs` looks through an Office package before the converter does: `firstPass`
is its loop over all entries, `secondPass` the loop over the targets of relationships that the
converter reads as XML whatever they are called. `Tools` adds to the XML library the functions that
only decide which kind of package this is, the validation, and the order in which a `HashSet` is gone
through. An entry's data is the list of the
chunks that `read` returns. `scan` and the opening of the archive are given by their outcome.

`u64` sums are natural numbers: one that overflows is above every limit.
-/

set_option autoImplicit false

namespace Mineru.Ooxml

def RELS : Text := text "_rels/.rels"
def TYPES : Text := text "[Content_Types].xml"

/-- The limits that the preflight itself compares with. -/
structure Limits where
  archive : Nat
  total : Nat
  xml : Nat
  ratio : Nat
  xml_total : Nat
  deriving DecidableEq, Repr

/-- An entry of the archive; `name` is `none` where the library has no name for it. -/
structure Entry where
  name : Option Text
  unix_mode : Option Nat
  size : Nat
  compressed_size : Nat
  reads : List Bytes
  deriving DecidableEq, Repr

def Entry.content (e : Entry) : Bytes := e.reads.flatten

/-- The outcome of `scan` and of opening the archive. -/
inductive Opening where
  | fallback
  | scanLimit
  | unreadable
  | opened (offset centralStart scannedStart scannedCount : Nat)
  deriving DecidableEq, Repr

structure Tools extends XmlLibrary where
  validateXml : Bytes → Bool
  parseRelationships : Bytes → Option (List Text)
  parseOverrides : Bytes → Option (Text → Option Text)
  iterate : List Text → List Text
  iterate_mem : ∀ (targets : List Text) (t : Text), t ∈ iterate targets ↔ t ∈ targets

/-- How the preflight stops: with an error, or because this is no Office package. -/
inductive Stop where
  | err (message : String)
  | notOffice
  deriving DecidableEq, Repr

/-! ## Names -/

/-- `str::to_ascii_lowercase`. -/
def toAsciiLowercase (t : Text) : Text := t.map Char.toLower

/-- `str::contains`. -/
def contains (t part : Text) : Bool := part <:+: t

def startsWith (t part : Text) : Bool := part <+: t
def endsWith (t part : Text) : Bool := part <:+ t

/-- `str::rsplit_once`. -/
def rsplitOnce (pattern : Text) : Text → Option (Text × Text)
  | [] => none
  | c :: rest =>
    match rsplitOnce pattern rest with
    | some (before, after) => some (c :: before, after)
    | none =>
      if pattern <+: c :: rest then some ([], (c :: rest).drop pattern.length) else none

/-- `entry_name_key`. -/
def entryNameKey (name : Text) : Text :=
  ((toAsciiLowercase name).reverse.dropWhile (· = '/')).reverse

/-- `is_xml_name`. -/
def isXmlName (name : Text) : Bool :=
  endsWith (toAsciiLowercase name) (text ".xml") || endsWith (toAsciiLowercase name) (text ".rels")

/-- `rels_owner`. -/
def relsOwner (name : Text) : Text :=
  if name = RELS then []
  else
    match rsplitOnce (text "/_rels/") name with
    | none => []
    | some (dir, file) =>
      if endsWith file (text ".rels") then
        dir ++ '/' :: file.take (file.length - 5)
      else []

/-- One segment of the target in the loop of `resolve_opc_target`. -/
def resolvePart (parts : List Text) (part : Text) : List Text :=
  if part = [] ∨ part = text "." then parts
  else if part = text ".." then parts.dropLast
  else parts ++ [part]

/-- `resolve_opc_target`. -/
def resolveOpcTarget (owner target : Text) : Option Text :=
  let base : Option (List Text) :=
    if startsWith target (text "/") then some []
    else (rsplitOnce (text "/") owner).map fun split => split.1.splitOn '/'
  base.bind fun parts =>
    let parts := ((target.dropWhile (· = '/')).splitOn '/').foldl resolvePart parts
    if parts.isEmpty then none else some (['/'].intercalate parts)

/-- `pptx_binary_media_relationship`. -/
def pptxBinaryMediaRelationship (typ target : Text) : Bool :=
  contains typ (text "/image") || contains typ (text "hdphoto") ||
    contains target (text "/media/") ||
    [".png", ".jpg", ".jpeg", ".gif", ".bmp", ".tiff", ".tif", ".emf"].any fun extension =>
      endsWith target (text extension)

/-- `office2pdf_xml_target`. -/
def office2pdfXmlTarget (owner typ target : Text) : Bool :=
  let owner := toAsciiLowercase owner
  let typ := toAsciiLowercase typ
  let target := toAsciiLowercase target
  if owner = text "ppt/presentation.xml" then true
  else if startsWith owner (text "ppt/slides/") then
    contains target (text "slidelayout") ||
      (contains target (text "chart") && !contains target (text "chartstyle") &&
        !contains target (text "chartcolor")) ||
      contains target (text "diagrams/data") || contains target (text "diagram/data") ||
      contains target (text "diagrams/drawing") || contains target (text "diagram/drawing") ||
      contains typ (text "diagramdrawing")
  else if startsWith owner (text "ppt/slidelayouts/") then contains target (text "slidemaster")
  else if owner = text "word/document.xml" then
    contains typ (text "/header") || contains typ (text "/footer") || contains typ (text "chart")
  else if owner = text "xl/workbook.xml" then true
  else if startsWith owner (text "xl/worksheets/") then contains typ (text "drawing")
  else if startsWith owner (text "xl/drawings/") then !pptxBinaryMediaRelationship typ target
  else false

/-! ## Bytes -/

def isBlank (b : UInt8) : Bool := b = 0x20 || b = 0x09 || b = 0x0d || b = 0x0a

/-- `xml_like`. -/
def xmlLike (bytes : Bytes) : Bool :=
  let bytes := bytes.dropWhile isBlank
  let bytes := if [0xef, 0xbb, 0xbf] <+: bytes then bytes.drop 3 else bytes
  let bytes := bytes.dropWhile isBlank
  [[0xff, 0xfe], [0xfe, 0xff], [0xff, 0xfe, 0, 0], [0, 0, 0xfe, 0xff], [0x3c, 0], [0, 0x3c],
      [0x3c, 0, 0, 0], [0, 0, 0, 0x3c], ascii "<?xml", ascii "<!"].any (· <+: bytes) ||
    (bytes[0]? = some 0x3c && bytes[1]?.any fun b =>
      (0x41 ≤ b && b ≤ 0x5a) || (0x61 ≤ b && b ≤ 0x7a) || b = 0x5f || b = 0x3a)

/-- The chunks that `read_entry` keeps: those that end within the limit. -/
def keptReads (xml : Nat) : Nat → List Bytes → Bytes
  | _, [] => []
  | total, chunk :: rest =>
    let total := total + chunk.length
    (if total ≤ xml then chunk else []) ++ keptReads xml total rest

def Entry.kept (xml : Nat) (e : Entry) : Bytes := keptReads xml 0 e.reads

def entryLimit (total limit : Nat) : String :=
  "OOXML XML exceeds per-entry limit (" ++ toString total ++ " bytes; limit " ++ toString limit ++
    " bytes); raise with --ooxml-xml-entry-bytes or MINERU_OOXML_XML_ENTRY_BYTES"

def aggregateLimit (total limit : Nat) : String :=
  "OOXML XML exceeds aggregate limit (" ++ toString total ++ " bytes; limit " ++ toString limit ++
    " bytes); raise with --ooxml-xml-total-bytes or MINERU_OOXML_XML_TOTAL_BYTES"

def archiveLimit (total limit : Nat) : String :=
  "OOXML archive exceeds size limit (" ++ toString total ++ " bytes; limit " ++ toString limit ++
    " bytes); raise with --ooxml-archive-bytes or MINERU_OOXML_ARCHIVE_BYTES"

def expandedLimit (total limit : Nat) : String :=
  "OOXML archive exceeds expanded size limit (" ++ toString total ++ " bytes; limit " ++
    toString limit ++
    " bytes); raise with --ooxml-expanded-bytes or MINERU_OOXML_EXPANDED_BYTES"

/-- The largest `u64`, where the sums in the messages saturate. -/
def maxU64 : Nat := 2 ^ 64 - 1

/-- `read_entry`: the bytes of an XML entry with the new aggregate, `none` for any other entry. -/
def readEntry (e : Entry) (namedXml : Bool) (limits : Limits) (xmlTotal : Nat) :
    Except Stop (Option (Bytes × Nat)) :=
  if e.content.length ≠ e.size then
    .error (.err "OOXML entry length does not match its declaration")
  else if namedXml || xmlLike (e.kept limits.xml) then
    if e.size > limits.xml then .error (.err (entryLimit e.size limits.xml))
    else if xmlTotal + e.size > limits.xml_total then
      .error (.err (aggregateLimit (min (xmlTotal + e.size) maxU64) limits.xml_total))
    else .ok (some (e.kept limits.xml, xmlTotal + e.size))
  else .ok none

/-! ## The two passes -/

/-- The variables of `detect_reader`. -/
structure Pass where
  total : Nat := 0
  xmlTotal : Nat := 0
  names : List Text := []
  validatedXml : List Text := []
  rels : List (Text × Bytes) := []
  relationships : Option Bytes := none
  overrides : Option Bytes := none
  deriving DecidableEq, Repr

/-- The checks of an entry before it is read. -/
def admitEntry (limits : Limits) (pass : Pass) (e : Entry) (name : Text) : Except Stop Pass :=
  if entryNameKey name ∈ pass.names then
    .error (.err "OOXML archive contains duplicate entry names")
  else
    let mode := e.unix_mode.getD 0 &&& 0o170000
    if mode ≠ 0 ∧ mode ≠ 0o100000 ∧ mode ≠ 0o040000 then
      .error (.err "OOXML archive contains a symlink or special entry")
    else if pass.total + e.size > limits.total then
      .error (.err (expandedLimit (min (pass.total + e.size) maxU64) limits.total))
    else if e.size > 0 ∧ (e.compressed_size = 0 ∨ e.compressed_size * limits.ratio > maxU64 ∨
        e.size > e.compressed_size * limits.ratio) then
      .error (.err "OOXML entry compression ratio exceeds limit")
    else .ok { pass with names := entryNameKey name :: pass.names, total := pass.total + e.size }

/-- What is kept of an XML entry that is valid. -/
def keepXml (pass : Pass) (name : Text) (bytes : Bytes) (xmlTotal : Nat) : Except Stop Pass :=
  let pass := { pass with
    xmlTotal
    validatedXml := name :: pass.validatedXml
    rels := if endsWith name (text ".rels") then pass.rels ++ [(name, bytes)] else pass.rels }
  if name = RELS then
    if pass.relationships.isSome then .error .notOffice
    else .ok { pass with relationships := some bytes }
  else if name = TYPES then
    if pass.overrides.isSome then .error .notOffice
    else .ok { pass with overrides := some bytes }
  else .ok pass

def malformed : Stop := .err "OOXML XML is unsafe or malformed"

section
variable (T : Tools) (limits : Limits)

/-- The reading of an entry and what follows from it. -/
def inspectEntry (pass : Pass) (e : Entry) (name : Text) : Except Stop Pass :=
  match readEntry e (isXmlName name) limits pass.xmlTotal with
  | .error stop => .error stop
  | .ok none => .ok pass
  | .ok (some (bytes, xmlTotal)) =>
    if T.validateXml bytes then keepXml pass name bytes xmlTotal else .error malformed

/-- One turn of the loop over the entries. -/
def firstTurn (pass : Pass) (e : Entry) : Except Stop Pass :=
  match e.name with
  | none => .error .notOffice
  | some name => do
    let pass ← admitEntry limits pass e name
    inspectEntry T limits pass e name

def firstPass (entries : List Entry) : Except Stop Pass := entries.foldlM (firstTurn T limits) {}

/-- `forced_xml`, the targets that the converter reads as XML. -/
def forcedXml (rels : List (Text × Bytes)) : List Text :=
  rels.flatMap fun part =>
    ((parseInternalRelationships T.toXmlLibrary part.2).getD []).filterMap fun relationship =>
      if office2pdfXmlTarget (relsOwner part.1) (relationship.1.getD []) relationship.2 then
        resolveOpcTarget (relsOwner part.1) relationship.2
      else none

/-- One turn of the loop over the forced targets. -/
def secondTurn (entries : List Entry) (pass : Pass) (target : Text) : Except Stop Pass :=
  if target ∈ pass.validatedXml then .ok pass
  else
    let pass := { pass with validatedXml := target :: pass.validatedXml }
    match entries.find? fun e => e.name = some target with
    | none => .ok pass
    | some e =>
      match readEntry e true limits pass.xmlTotal with
      | .error stop => .error stop
      | .ok none => .error (.err "OOXML XML relationship target is invalid")
      | .ok (some (bytes, xmlTotal)) =>
        if T.validateXml bytes then .ok { pass with xmlTotal } else .error malformed

def secondPass (entries : List Entry) (pass : Pass) : Except Stop Pass :=
  (T.iterate (forcedXml T pass.rels)).foldlM (secondTurn T limits entries) pass

/-- The part of `detect_reader` that goes through the archive. -/
def inspect (size : Nat) (opening : Opening) (entries : List Entry) : Except Stop Pass :=
  if limits.archive = 0 ∨ limits.total = 0 ∨ limits.xml = 0 ∨ limits.ratio = 0 then
    .error (.err "OOXML limits are invalid")
  else if size > limits.archive then .error (.err (archiveLimit size limits.archive))
  else
    match opening with
    | .fallback => .error .notOffice
    | .scanLimit => .error (.err "OOXML archive exceeds scan limit")
    | .unreadable => .error .notOffice
    | .opened offset centralStart scannedStart scannedCount =>
      if offset ≠ 0 ∨ entries.length ≠ scannedCount ∨ centralStart ≠ scannedStart then
        .error (.err "OOXML archive directory does not match its entries")
      else do
        let pass ← firstPass T limits entries
        secondPass T limits entries pass

/-- The kinds of Office packages. -/
inductive Kind where
  | docx | pptx | xlsx
  deriving DecidableEq, Repr

def kindOf (contentType : Text) : Option Kind :=
  let main := "application/vnd.openxmlformats-officedocument."
  if contentType = text (main ++ "wordprocessingml.document.main+xml") then some .docx
  else if contentType = text (main ++ "presentationml.presentation.main+xml") then some .pptx
  else if contentType = text (main ++ "spreadsheetml.sheet.main+xml") then some .xlsx
  else none

/-- What the content types say of the package's targets. -/
def classify (pass : Pass) : Option Kind := do
  let relationships ← pass.relationships
  let overrides ← pass.overrides
  let targets ← T.parseRelationships relationships
  let overrides ← T.parseOverrides overrides
  targets.findSome? fun target => (overrides target).bind kindOf

/-- `detect_reader`. -/
def detectReader (size : Nat) (opening : Opening) (entries : List Entry) :
    Except String (Option Kind) :=
  match inspect T limits size opening entries with
  | .error (.err message) => .error message
  | .error .notOffice => .ok none
  | .ok pass => .ok (classify T pass)

end

end Mineru.Ooxml
