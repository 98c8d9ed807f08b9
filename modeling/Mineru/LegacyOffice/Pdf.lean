import Mineru.Builders.Entities
import Mineru.Logic.ContentStream
import Mineru.Logic.Stateful
import Mineru.Vlm.Sse

/-!
# The PDF of a legacy document

`markdown_to_pdf` of `legacy_office.rs` sets a Markdown text line by line into a PDF. It cuts the lines,
begins a new page when one is full, and reserves from a budget before it writes. The library that holds
the objects, saves them and reads them back is the parameter `Lopdf`.
-/

set_option autoImplicit false

namespace Mineru.LegacyOffice

open Logic
open Logic.Content (octet octets)
open Builders (utf8)
open Vlm (fromUtf8)

/-- `PDF_FIXED_RESERVE`. -/
def pdfFixedReserve : Nat := 4096

/-- `PDF_PAGE_RESERVE`. -/
def pdfPageReserve : Nat := 1024

/-- `PDF_OBJECT_RESERVE`. -/
def pdfObjectReserve : Nat := 32

/-- `PDF_LINE_RESERVE`. -/
def pdfLineReserve : Nat := 32

/-- `PDF_MAX_CONTENT_STREAM_BYTES`. -/
def pdfMaxContentStreamBytes : Nat := 16 * 1024

/-- `PDF_MAX_LINE_BYTES`. -/
def pdfMaxLineBytes : Nat := 96

/-- `PDF_LINES_PER_PAGE`. -/
def pdfLinesPerPage : Nat := 50

/-! ## Failures -/

/-- Which check failed. The source has one message for several of them. -/
inductive Cause where
  | text
  | budget
  | stream
  | construction
  | empty
  | saved
  deriving DecidableEq, Repr

/-- A failure: its message, and the check behind it. -/
structure Failure where
  cause : Cause
  message : String
  deriving DecidableEq, Repr

/-- `"conversion produced oversized output"`. -/
def oversized (cause : Cause) : Failure := ⟨cause, "conversion produced oversized output"⟩

/-! ## The budget -/

/-- `PdfBudget`. The estimate stays within the cap. -/
structure PdfBudget where
  outputCap : Nat
  estimatedBytes : Nat
  contentBytes : Nat
  pageCount : Nat
  lineCount : Nat
  objectCount : Nat
  maxPages : Nat
  maxLines : Nat
  maxObjects : Nat
  fits : estimatedBytes ≤ outputCap

namespace PdfBudget

/-- A step on the budget. -/
abbrev Step (α : Type) := EStateM Failure PdfBudget α

/-- `PdfBudget::new`. -/
def new (outputCap : Nat) : Except Failure PdfBudget :=
  if fits : pdfFixedReserve ≤ outputCap then
    let maxPages := (outputCap - pdfFixedReserve) / pdfPageReserve
    if maxPages > 0 then
      .ok {
        outputCap
        estimatedBytes := pdfFixedReserve
        contentBytes := 0
        pageCount := 0
        lineCount := 0
        objectCount := 0
        maxPages
        maxLines := outputCap / pdfLineReserve
        maxObjects := outputCap / pdfObjectReserve
        fits }
    else .error (oversized .budget)
  else .error (oversized .budget)

/-- `checked_add` on `usize`. -/
def checkedAdd (a b : Nat) : Step Nat :=
  if a + b < 2 ^ 64 then pure (a + b) else throw (oversized .budget)

/-- `PdfBudget::reserve`. -/
def reserve (bytes : Nat) : Step PUnit := do
  let b ← get
  let next ← checkedAdd b.estimatedBytes bytes
  if big : next > b.outputCap then throw (oversized .budget)
  else set { b with estimatedBytes := next, fits := Nat.le_of_not_lt big }

/-- `PdfBudget::reserve_objects`. -/
def reserveObjects (count : Nat) : Step PUnit := do
  let b ← get
  let next ← checkedAdd b.objectCount count
  if next > b.maxObjects then throw (oversized .budget)
  else set { b with objectCount := next }

/-- `PdfBudget::reserve_line`. -/
def reserveLine (bytes : Nat) : Step PUnit := do
  let b ← get
  let next ← checkedAdd b.lineCount 1
  if next > b.maxLines then throw (oversized .budget)
  else do
    let content ← checkedAdd b.contentBytes bytes
    if content > b.outputCap - pdfFixedReserve then throw (oversized .budget)
    else do
      reserve bytes
      modify fun b => { b with contentBytes := content, lineCount := next }

/-- `PdfBudget::reserve_page`. -/
def reservePage : Step PUnit := do
  let b ← get
  if b.pageCount ≥ b.maxPages then throw (oversized .budget)
  else do
    reserve pdfPageReserve
    reserveObjects 2
    modify fun b => { b with pageCount := b.pageCount + 1 }

end PdfBudget

/-! ## The library -/

/-- `lopdf::Object`, over the identifiers of objects. -/
inductive Object (ι : Type) where
  | name (bytes : List UInt8)
  | integer (n : Int)
  | reference (id : ι)
  | array (items : List (Object ι))
  | dictionary (entries : List (List UInt8 × Object ι))
  | stream (entries : List (List UInt8 × Object ι)) (content : List UInt8)

/-- A `&str` as an object. -/
def Object.named {ι : Type} (name : String) : Object ι := .name (octets name)

/-- `dictionary!`. -/
def Object.dict {ι : Type} (entries : List (String × Object ι)) : Object ι :=
  .dictionary (entries.map fun entry => (octets entry.1, entry.2))

/-- What the code uses of `lopdf`: a document with its objects and its trailer, and files. -/
structure Lopdf where
  Document : Type
  ObjectId : Type
  decideId : DecidableEq ObjectId
  /-- `Document::with_version`. -/
  withVersion : String → Document
  /-- `Document::new_object_id`. -/
  newObjectId : Document → ObjectId × Document
  /-- `Document::add_object`. -/
  addObject : Document → Object ObjectId → ObjectId × Document
  /-- `objects.insert`. -/
  insertObject : Document → ObjectId → Object ObjectId → Document
  /-- `objects.get`. -/
  getObject : Document → ObjectId → Option (Object ObjectId)
  /-- `trailer.set`. -/
  setTrailer : Document → String → ObjectId → Document
  /-- `trailer.get`. -/
  trailer : Document → String → Option ObjectId
  /-- `Document::save_to`. -/
  saveTo : Document → Option (List UInt8)
  /-- `Document::load_mem`, with `is_encrypted` and the number of `get_pages`. -/
  loadMem : List UInt8 → Option (Bool × Nat)

attribute [instance] Lopdf.decideId

/-! ## Lines -/

/-- `safe_pdf_byte`. -/
def safePdfByte (character : Char) : UInt8 :=
  if character = '\t' then octet ' '
  else if 32 ≤ character.toNat ∧ character.toNat < 127 then UInt8.ofNat character.toNat
  else octet '?'

/-- `escape_pdf_text`. -/
def escapePdfText (line : List UInt8) : List UInt8 :=
  line.flatMap fun byte =>
    if byte = octet '(' ∨ byte = octet ')' ∨ byte = octet '\\' then [octet '\\', byte] else [byte]

/-- The height of a line on its page. -/
def lineHeight (lineIndex : Nat) : Int := 756 - (lineIndex : Int) * 14

/-- `format!("BT /F1 10 Tf 36 {y} Td ({escaped}) Tj ET\n")`. -/
def renderPdfLine (escaped : Text) (lineIndex : Nat) : Text :=
  text "BT /F1 10 Tf 36 " ++ text (toString (lineHeight lineIndex)) ++ text " Td (" ++ escaped ++
    text ") Tj ET\n"

/-! ## The writer -/

section Writer

variable (L : Lopdf)

/-- The local state of `markdown_to_pdf`. -/
structure Writer where
  document : L.Document
  budget : PdfBudget
  kids : List (Object L.ObjectId)
  content : List UInt8
  linesOnPage : Nat
  wroteLine : Bool

/-- A step of `markdown_to_pdf`. -/
abbrev Pdf (α : Type) := EStateM Failure (Writer L) α

variable {L}

/-- A step on the budget. -/
def budgeted {α : Type} (step : PdfBudget.Step α) : Pdf L α :=
  zoom Writer.budget (fun s budget => { s with budget }) step

/-- A step on the document. -/
def documented {α : Type} (step : L.Document → α × L.Document) : Pdf L α :=
  modifyGet fun s => ((step s.document).1, { s with document := (step s.document).2 })

/-- `append_pdf_line`. -/
def appendPdfLine (line : List UInt8) (lineIndex : Nat) : Pdf L PUnit :=
  match fromUtf8 (escapePdfText line) with
  | none => throw ⟨.construction, "PDF construction failed"⟩
  | some escaped => do
    let rendered := utf8 (renderPdfLine escaped lineIndex)
    let s ← get
    if min (s.content.length + rendered.length) (2 ^ 64 - 1) > pdfMaxContentStreamBytes then
      throw (oversized .stream)
    else do
      budgeted (PdfBudget.reserveLine rendered.length)
      modify fun s => { s with content := s.content ++ rendered }

/-- The page object of `add_pdf_page`. -/
def pageObject (pages font contents : L.ObjectId) : Object L.ObjectId :=
  .dict [
    ("Type", .named "Page"),
    ("Parent", .reference pages),
    ("MediaBox", .array [.integer 0, .integer 0, .integer 612, .integer 792]),
    ("Resources", .dict [("Font", .dict [("F1", .reference font)])]),
    ("Contents", .reference contents)]

/-- `add_pdf_page`. -/
def addPdfPage (pages font : L.ObjectId) : Pdf L PUnit := do
  budgeted PdfBudget.reservePage
  let s ← get
  modify fun s => { s with content := [] }
  let contents ← documented fun d => L.addObject d (.stream [] s.content)
  let page ← documented fun d => L.addObject d (pageObject pages font contents)
  modify fun s => { s with kids := s.kids ++ [.reference page] }

/-- The steps behind a cut line: it is appended and counted. -/
def writeLine (line : List UInt8) : Pdf L PUnit := do
  let s ← get
  appendPdfLine line s.linesOnPage
  modify fun s => { s with linesOnPage := s.linesOnPage + 1, wroteLine := true }

/-- The steps at a full page. -/
def breakPage (pages font : L.ObjectId) : Pdf L PUnit := do
  let s ← get
  if s.linesOnPage = pdfLinesPerPage then do
    addPdfPage pages font
    modify fun s => { s with content := [], linesOnPage := 0 }
  else pure ⟨⟩

/-- One character of a line, with the bytes that wait and whether a piece was written. -/
def pushCharacter (pages font : L.ObjectId) (waiting : List UInt8 × Bool) (character : Char) :
    Pdf L (List UInt8 × Bool) :=
  if waiting.1.length = pdfMaxLineBytes then do
    writeLine waiting.1
    breakPage pages font
    pure ([safePdfByte character], true)
  else pure (waiting.1 ++ [safePdfByte character], waiting.2)

/-- One line of the text. -/
def writeRaw (pages font : L.ObjectId) (raw : Text) : Pdf L PUnit := do
  let (line, wroteForRaw) ← raw.foldlM (pushCharacter pages font) ([], false)
  if line ≠ [] ∨ ¬ wroteForRaw then writeLine line else pure ⟨⟩
  breakPage pages font

/-- The steps behind the last line. -/
def lastPage (pages font : L.ObjectId) : Pdf L PUnit := do
  let s ← get
  if s.linesOnPage > 0 then addPdfPage pages font else pure ⟨⟩

/-- The font object. -/
def fontObject : Object L.ObjectId :=
  .dict [("Type", .named "Font"), ("Subtype", .named "Type1"), ("BaseFont", .named "Helvetica")]

/-- The root of the page tree. -/
def pagesObject (kids : List (Object L.ObjectId)) (count : Int) : Object L.ObjectId :=
  .dict [("Type", .named "Pages"), ("Kids", .array kids), ("Count", .integer count)]

/-- The catalog. -/
def catalogObject (pages : L.ObjectId) : Object L.ObjectId :=
  .dict [("Type", .named "Catalog"), ("Pages", .reference pages)]

/-- A `usize` as an `i64`. -/
def asI64 (n : Nat) : Int := (BitVec.ofNat 64 n).toInt

/-- The objects of the document, up to the trailer. -/
def buildPdf (markdown : Text) : Pdf L PUnit := do
  let pages ← documented L.newObjectId
  budgeted (PdfBudget.reserveObjects 1)
  let font ← documented fun d => L.addObject d fontObject
  budgeted (PdfBudget.reserveObjects 1)
  (linesOf markdown).foldlM (fun _ raw => writeRaw pages font raw) ⟨⟩
  lastPage pages font
  let s ← get
  if ¬ s.wroteLine then throw ⟨.empty, "conversion produced empty output"⟩
  else do
    modify fun s => { s with
      document := L.insertObject s.document pages (pagesObject s.kids (asI64 s.budget.pageCount)) }
    budgeted (PdfBudget.reserveObjects 1)
    let catalog ← documented fun d => L.addObject d (catalogObject pages)
    modify fun s => { s with document := L.setTrailer s.document "Root" catalog }

/-- The document as a file, read back once. -/
def savePdf (outputCap : Nat) : Pdf L (List UInt8) := do
  let s ← get
  match L.saveTo s.document with
  | none => throw ⟨.saved, "PDF construction failed"⟩
  | some output =>
    if output.length > outputCap then throw (oversized .saved)
    else
      match L.loadMem output with
      | none => throw ⟨.saved, "invalid generated PDF"⟩
      | some (encrypted, pages) =>
        if encrypted ∨ pages = 0 then throw ⟨.saved, "invalid generated PDF"⟩ else pure output

variable (L)

/-- The state before the first object. -/
def Writer.start (budget : PdfBudget) : Writer L where
  document := L.withVersion "1.4"
  budget
  kids := []
  content := []
  linesOnPage := 0
  wroteLine := false

/-- `markdown_to_pdf`: a text that is not UTF-8 or a cap without a budget fails before there is a
document, and otherwise the run ends in a state of the writer. -/
def markdownToPdf (markdown : List UInt8) (outputCap : Nat) :
    Except Failure (EStateM.Result Failure (Writer L) (List UInt8)) := do
  let some markdown := fromUtf8 markdown | throw ⟨.text, "invalid text output"⟩
  let budget ← PdfBudget.new outputCap
  return (do buildPdf markdown; savePdf outputCap : Pdf L (List UInt8)).run (Writer.start L budget)

end Writer

end Mineru.LegacyOffice
