import Mineru.Builders.Paras

/-!
# Tables across pages

The last loop of `merge_document_paras`: from the last page to the second, the table that starts a page
is merged into the one that ends the page before it. Its footnotes move, its captions are restored as
text or cleared, and what is left of it stays as an emptied table. Whether the rows of two tables fit
together, and the HTML they become, is given.
-/

set_option autoImplicit false

namespace Mineru.Builders

open Logic

/-- What the loop takes from elsewhere. `text` is `block_text` of a block that is not code, which looks
at nothing but its lines; `mergedHtml` is `merged_table_html`, and there is none without two tables
with HTML. -/
structure TableTools where
  text : List Line → Text
  empty : text [] = []
  mergedHtml : Node → Node → Option Text
  isAlphabetic : Char → Bool

/-- The map of `is_continuation_text`. -/
def halfWidth (c : Char) : Char :=
  if '！' ≤ c ∧ c ≤ '～' then Char.ofNat (c.toNat - 0xfee0)
  else if c = '　' then ' '
  else c

def continuationMarkers : List String :=
  ["(续)", "(续表)", "(续上表)", "(continued)", "(cont.)", "(cont’d)", "(…continued)",
    "continued", "续表"]

/-- `is_continuation_text`. -/
def isContinuationText (isAlphabetic : Char → Bool) (t : Text) : Bool :=
  let t := ((trim t).map halfWidth).map Char.toLower
  (continuationMarkers.any fun marker =>
    (text marker).isSuffixOf t && (decide (marker ≠ "continued") ||
      !((t.take (t.length - marker.length)).getLast?.any isAlphabetic))) ||
  t.tails.any (text "(continued)").isPrefixOf

/-- The block is a continuation mark. -/
def TableTools.marks (tools : TableTools) (block : Block) : Bool :=
  isContinuationText tools.isAlphabetic (tools.text block.lines)

/-- The captions of the current table that do not keep it from being merged. -/
def mergeCaptions (tools : TableTools) (body : Block) (captions : List Block) : Nat :=
  (captions.filter fun caption =>
    tools.marks caption || decide (caption.bbox.top < body.bbox.bottom)).length

/-- `continuation_caption`. -/
def continuationCaption (tools : TableTools) (captions : List Block) : Bool :=
  captions.any fun caption =>
    isContinuationText tools.isAlphabetic ((tools.text caption.lines).map Char.toLower)

/-- The HTML of the first table span. -/
def setHtml (html : Text) : List Span → Option (List Span)
  | [] => none
  | .table _ :: rest => some (.table html :: rest)
  | span :: rest => (setHtml html rest).map (List.cons span)

/-- `table_html_mut`, and the new HTML in it. -/
def setTableHtml (html : Text) : List Line → List Line
  | [] => []
  | line :: rest => match setHtml html line.spans with
    | some spans => { line with spans } :: rest
    | none => line :: setTableHtml html rest

/-- A block of the table that was merged away. -/
def Block.cleared (block : Block) : Block := { block with lines := [], linesDeleted := true }

/-- The footnotes as the previous table takes them. -/
def movedFootnotes (bodyIndex : Nat) (footnotes : List Block) : List Block :=
  footnotes.zipIdx.map fun entry =>
    { entry.1 with crossPage := true, index := bodyIndex + entry.2 + 1 }

/-- The captions that become text. -/
def restores (tools : TableTools) (body caption : Block) : Bool :=
  !tools.marks caption && decide (body.bbox.bottom ≤ caption.bbox.top)

def restoredLeaf (caption : Block) : Node :=
  .leaf { caption with kind := "text", mergePrev := none }

/-- A pair of tables that is merged: the previous one, what is left of the current one, and its
restored captions. -/
structure MergedPair where
  previous : Node
  current : Node
  restored : List Node

/-- The body of the loop for two nodes. -/
def mergePair (tools : TableTools) (previous current : Node) : Option MergedPair :=
  match previous, current with
  | .visual kind body captions footnotes subType cellMerge subImages,
    .visual kind' body' captions' footnotes' subType' cellMerge' subImages' =>
    let merging := mergeCaptions tools body' captions'
    if kind ≠ "table" ∨ kind' ≠ "table" ∨ footnotes.length > 1 ∨
        (merging = 0 ∧ footnotes ≠ []) ∨
        (merging > 0 ∧ continuationCaption tools captions' = false) then none
    else (tools.mergedHtml previous current).map fun html => {
      previous := .visual kind { body with lines := setTableHtml html body.lines } captions
        (movedFootnotes body.index footnotes') subType cellMerge subImages
      current := .visual kind' body'.cleared
        ((captions'.filter fun caption => !restores tools body' caption).map Block.cleared)
        (footnotes'.map Block.cleared) subType' cellMerge' subImages'
      restored := (captions'.filter (restores tools body')).map restoredLeaf }
  | _, _ => none

/-- The last node of a page and the first one of the next. -/
def pairAt (paras : Paras) (page : Nat) : Option (Node × Node) :=
  (paras[page - 1]?.bind List.getLast?).bind fun previous =>
    (paras[page]?.bind List.head?).map fun current => (previous, current)

/-- One turn of the loop. -/
def mergeTablesAt (tools : TableTools) (paras : Paras) (page : Nat) : Paras :=
  match (pairAt paras page).bind fun pair => mergePair tools pair.1 pair.2 with
  | none => paras
  | some merged =>
    (paras.modify (page - 1) fun nodes => nodes.dropLast ++ [merged.previous]).modify page
      fun nodes => (merged.current :: (nodes.tail ++ merged.restored)).insertionSort
        fun a b => nodeIndex a ≤ nodeIndex b

/-- The pages of the loop. -/
def tablePages (paras : Paras) : List Nat := (List.range' 1 (paras.length - 1)).reverse

/-- The last loop of `merge_document_paras`. -/
def mergeTables (tools : TableTools) (expired : Nat → Bool) (paras : Paras) :
    Checked VlmError Paras :=
  (tablePages paras).foldlM (fun now page => do
    checkDeadline expired (2 * paras.length + page)
    return mergeTablesAt tools now page) paras

end Mineru.Builders
