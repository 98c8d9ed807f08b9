import Mineru.Builders.Entities
import Mineru.Builders.Spans

/-!
# The state of a table

`build_table_state` of `official_builders.rs` reads the rows of a table, scans them and keeps the
signatures of the first ones. The scan adds with checks, and the text of a cell goes through
`html_unescape`, so that the state may panic where one of them does. The table of named entities is a
parameter, as it is there.
-/

set_option autoImplicit false

namespace Mineru.Builders

open Logic

namespace Usize

/-! ## Texts of cells -/

/-- `&text[start..stop]`. -/
def slice (t : Text) (start stop : Nat) : Run Text :=
  if start ≤ stop ∧ stop ≤ t.length then .ok ((t.drop start).take (stop - start))
  else .error .panic

/-- `values[index]`. -/
def at' {α : Type} (values : List α) (index : Nat) : Run α :=
  match values[index]? with
  | some value => .ok value
  | none => .error .panic

/-- One tag in the loop of `cell_text`, with the output and the cursor. -/
def skipTag (content : Text) (state : Text × Nat) (tag : HtmlTag) : Run (Text × Nat) := do
  let before ← slice content state.2 tag.start
  return (state.1 ++ before, tag.stop)

/-- The text without its tags. -/
def withoutTags (content : Text) (tags : List HtmlTag) : Run Text := do
  let (output, cursor) ← tags.foldlM (skipTag content) ([], 0)
  let rest ← slice content cursor content.length
  return output ++ rest

/-- `html_unescape`, with a turn of its loop for every character and one more. -/
def unescape (entities : NamedEntities) (value : Text) : Run Text :=
  match htmlUnescape entities (value.length + 1) value with
  | some (.ok output) => .ok output
  | _ => .error .panic

def cellText (entities : NamedEntities) (content : Text) : Run Text :=
  match htmlTags content with
  | none => unescape entities content
  | some tags => do
    let output ← withoutTags content tags
    unescape entities output

/-- `full_to_half`. -/
def fullToHalf (value : Text) : Text :=
  value.map fun c => if 0xff01 ≤ c.toNat ∧ c.toNat ≤ 0xff5e then Char.ofNat (c.toNat - 0xfee0) else c

/-! ## Signatures -/

structure RowSignature where
  effectiveCols : Nat
  colspans : List Nat
  rowspans : List Nat
  normalizedTexts : List Text
  displayTexts : List Text
  deriving DecidableEq, Repr

def rowSignature (entities : NamedEntities) (row : TableRow) (effectiveCols : Nat) :
    Run RowSignature := do
  let parsed ← Checked.okOr (parseRow row.raw) ()
  let texts ← parsed.cells.mapM fun cell => do
    let content ← slice row.raw cell.openEnd cell.contentEnd
    cellText entities content
  return {
    effectiveCols
    colspans := parsed.cells.map (·.colspan)
    rowspans := parsed.cells.map (·.rowspan)
    normalizedTexts := texts.map fun t => (fullToHalf t).filter fun c => !isWhitespace c
    displayTexts := texts.map fun t => fullToHalf (trim t) }

def buildFrontCache (entities : NamedEntities) (rows : List TableRow) :
    Run (List RowSignature × List (Nat × RowMetrics)) := do
  let limit := min rows.length 6
  let scan ← scanRows (rows.take limit) ∅ 0
  let headers ← (List.range (min limit 5)).mapM fun index => do
    let row ← at' rows index
    let effectiveCols ← at' scan.effective index
    rowSignature entities row effectiveCols
  return (headers, scan.metrics.zipIdx.map fun entry => (entry.2, entry.1))

/-! ## The state -/

structure TableMergeState where
  document : TableDocument
  rows : List TableRow
  totalCols : Nat
  frontHeaders : List RowSignature
  frontMetrics : List (Nat × RowMetrics)
  lastData : Option RowMetrics
  effective : List Nat
  tail : TailOccupied
  deriving DecidableEq

def buildTableState (entities : NamedEntities) (html : Text) : Run TableMergeState := do
  let document ← Checked.okOr (TableDocument.parse html) ()
  let rows := document.originals (List.replicate document.rowRanges.length false)
  let scan ← scanRows rows ∅ 0
  let (frontHeaders, frontMetrics) ← buildFrontCache entities rows
  return {
    document
    rows
    totalCols := scan.totalCols
    frontHeaders
    frontMetrics
    lastData := scan.lastNonempty
    effective := scan.effective
    tail := scan.tail }

end Usize

end Mineru.Builders
