import Mineru.Builders.Paras
import Mineru.Builders.Prepare

/-!
# The middle document

`block_value`, `node_value` and `finalize_official_document_until`: the nodes of each page are written
as the values of a middle document. The raster of a page is not looked at again, and the other views
of the nodes are left out.
-/

set_option autoImplicit false

namespace Mineru.Builders

open Logic
open Logic.Checked (fail)

/-- How floats are spelled and read. -/
structure Decimal where
  write : Rat → Text
  read : Text → Option Rat

/-- `Value::as_f64`. -/
def Decimal.asF64 (decimal : Decimal) : Value → Option Rat
  | .number (.unsigned n) => some n
  | .number (.signed n) => some n
  | .number (.float literal) => decimal.read literal
  | _ => none

/-- An integer as a value. -/
def intValue (n : Int) : Value :=
  if 0 ≤ n then .number (.unsigned n.toNat) else .number (.signed n)

def stringValue (s : String) : Value := .string (text s)

/-- An option as a value. -/
def optionValue (s : Option String) : Value := match s with
  | some s => stringValue s
  | none => .null

def bboxValue (bbox : Bbox) : Value :=
  .array [intValue bbox.left, intValue bbox.top, intValue bbox.right, intValue bbox.bottom]

/-- `value[key] = …` on an object. -/
def setMember (key : String) (v : Value) (members : List (Text × Value)) : List (Text × Value) :=
  Value.insert (text key) v members

/-- The same under a condition. -/
def setMemberIf (c : Prop) [Decidable c] (key : String) (v : Value)
    (members : List (Text × Value)) : List (Text × Value) :=
  if c then setMember key v members else members

/-- `json_truthy`. -/
def jsonTruthy (decimal : Decimal) : Value → Bool
  | .null => false
  | .bool b => b
  | .number n => (decimal.asF64 (.number n)).any fun q => decide (q ≠ 0)
  | .string s => !s.isEmpty
  | .array elements => !elements.isEmpty
  | .object members => !members.isEmpty

/-- The type of a span, and the member that holds its content. -/
def spanContent : Span → String × Option (String × Text)
  | .text content => ("text", some ("content", content))
  | .inlineEquation content => ("inline_equation", some ("content", content))
  | .interlineEquation content => ("interline_equation", some ("content", content))
  | .table html => ("table", some ("html", html))
  | .image content => ("image", content.map fun content => ("content", content))
  | .chart content => ("chart", content.map fun content => ("content", content))

/-- The spans whose picture is named. -/
def Span.hasImage : Span → Bool
  | .interlineEquation _ => true
  | .table _ => true
  | .image _ => true
  | .chart _ => true
  | _ => false

/-- `span_value`. -/
def spanValue (span : Span) (bbox : Bbox) (imagePath : Option Text) : List (Text × Value) :=
  let (kind, content) := spanContent span
  let value := setMember "type" (stringValue kind) [(text "bbox", bboxValue bbox)]
  let value := content.elim value fun (key, content) => setMember key (.string content) value
  imagePath.elim value fun path =>
    setMemberIf span.hasImage "image_path" (.string path) value

def lineValue (block : Block) (line : Line) : Value :=
  .object [
    (text "bbox", bboxValue line.bbox),
    (text "spans", .array (line.spans.map fun span =>
      .object (setMemberIf block.crossPage "cross_page" (.bool true)
        (spanValue span line.bbox block.imagePath))))]

/-- `block_value`. -/
def blockValue (decimal : Decimal) (block : Block) (kind : Option String) : Value :=
  let value := [
    (text "bbox", bboxValue block.bbox),
    (text "type", stringValue (kind.getD block.kind)),
    (text "angle", intValue block.angle),
    (text "lines", .array (block.lines.map (lineValue block))),
    (text "index", intValue block.index)]
  let value := block.mergePrev.elim value fun mergePrev =>
    setMemberIf (block.kind = "text") "merge_prev" (.bool mergePrev) value
  let value := setMemberIf block.linesDeleted "lines_deleted" (.bool true) value
  .object (block.cellMerge.elim value fun cells =>
    setMemberIf (block.kind = "table_body" ∧ jsonTruthy decimal cells) "cell_merge" cells value)

/-- The children of a visual in the order of their indexes, which their values carry. -/
def visualChildren (decimal : Decimal) (kind : String) (body : Block)
    (captions footnotes : List Block) : List Value :=
  let children := (kind ++ "_body", body) ::
    (captions.map (Prod.mk (kind ++ "_caption")) ++ footnotes.map (Prod.mk (kind ++ "_footnote")))
  (children.insertionSort fun a b => a.2.index ≤ b.2.index).map fun child =>
    blockValue decimal child.2 (some child.1)

/-- `node_value`. -/
def nodeValue (decimal : Decimal) : Node → Value
  | .leaf block => blockValue decimal block none
  | .list marker items => .object [
      (text "bbox", bboxValue marker.bbox),
      (text "type", stringValue "list"),
      (text "angle", intValue marker.angle),
      (text "index", intValue marker.index),
      (text "blocks", .array (items.map fun item => blockValue decimal item none)),
      (text "sub_type", optionValue marker.subType)]
  | .visual kind body captions footnotes subType cellMerge subImages =>
    let value := [
      (text "type", stringValue kind),
      (text "bbox", bboxValue body.bbox),
      (text "blocks", .array (visualChildren decimal kind body captions footnotes)),
      (text "index", intValue body.index)]
    let value := setMemberIf ((kind = "image" ∨ kind = "chart") ∧ body.kind ≠ "image_block_body" ∧
      subType.getD "" ≠ "") "sub_type" (optionValue subType) value
    let value := cellMerge.elim value fun cells =>
      setMemberIf (kind = "table") "cell_merge" cells value
    .object (setMemberIf (kind = "image" ∧ subImages ≠ []) "sub_images" (.array subImages) value)
  | .tombstone kind bbox angle index subType =>
    let value := [
      (text "type", stringValue kind),
      (text "bbox", bboxValue bbox),
      (text "index", intValue index),
      (text "blocks", .array []),
      (text "lines_deleted", .bool true)]
    .object (if kind = "list" then
      setMember "sub_type" (optionValue subType) (setMember "angle" (intValue angle) value)
    else value)

/-- The page of the middle document. -/
def middlePage (decimal : Decimal) (page : OfficialPreparedPage) (para : List Node) : Value :=
  .object [
    (text "preproc_blocks", .array (page.preproc.map (nodeValue decimal))),
    (text "discarded_blocks", .array (page.discarded.map fun block =>
      blockValue decimal block none)),
    (text "page_size", .array [
      .number (.float (decimal.write page.pageSizePoints.width)),
      .number (.float (decimal.write page.pageSizePoints.height))]),
    (text "page_idx", intValue page.slicePageIdx),
    (text "para_blocks", .array (para.map (nodeValue decimal)))]

/-- The merge of tables, which works on the pages where they are. -/
structure TableMerge where
  run : Paras → Checked VlmError Paras
  length : ∀ before after, run before = .ok after → after.length = before.length

/-- The first loop of `finalize_official_document_until`. -/
def checkIncreasing (expired : Nat → Bool) :
    Option Nat → Nat → List OfficialPreparedPage → Checked VlmError Unit
  | _, _, [] => .ok ()
  | previous, check, page :: rest => do
    checkDeadline expired check
    if previous.any fun index => decide (page.slicePageIdx ≤ index) then
      fail (builderError "official pages must have increasing source indexes")
    else checkIncreasing expired (some page.slicePageIdx) (check + 1) rest

/-- The last loop of `finalize_official_document_until`. -/
def middlePages (decimal : Decimal) (expired : Nat → Bool) :
    Nat → List (OfficialPreparedPage × List Node) → Checked VlmError (List Value)
  | _, [] => .ok []
  | check, (page, para) :: rest => do
    checkDeadline expired check
    let rest ← middlePages decimal expired (check + 1) rest
    return middlePage decimal page para :: rest

/-- `finalize_official_document_until`: the middle pages that it emits. The three deadlines are the
checks of its two loops and of the merge between them. -/
def finalizeOfficialDocument (decimal : Decimal) (r : Renderer) (tables : TableMerge)
    (tableEnable : Bool) (increasing merging emitting : Nat → Bool)
    (pages : List OfficialPreparedPage) : Checked VlmError (List Value) := do
  checkIncreasing increasing none 0 pages
  let paras ← mergeDocumentParas r merging tables.run tableEnable
    (pages.map OfficialPreparedPage.preproc)
  middlePages decimal emitting 0 (pages.zip paras)

end Mineru.Builders
