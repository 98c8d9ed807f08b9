import Mineru.Builders.Assets

/-!
# From a layout to a page

`official_snapshot_block` takes a layout block with its reply into the snapshot, and `raw_block` makes
a block of it: its point box, its lines and, for pictures, a crop of the raster. The blocks are made in
their order, and each one finds the assets that the blocks before it have stored.
-/

set_option autoImplicit false

namespace Mineru.Layout

open Builders Logic
open Vlm (splitWhitespace)

/-- `ModelBlock`. -/
structure SnapshotBlock where
  blockType : String
  bbox : Option NormalizedBbox
  angle : Option Rotation
  content : Option Text
  mergePrev : Option Bool
  subType : Option Text
  extra : List (Text × Value)

/-- The keys that `official_snapshot_block` removes. -/
def snapshotKeys : List Text :=
  ["sub_type", "type", "bbox", "angle", "content", "merge_prev", "_covered_image_caption",
    "_table_image_token_map", "_absorbed_by_table", "_skip_asset"].map text

def snapshotRecord (block : VlmLayoutBlock) : SnapshotBlock where
  blockType := block.blockType
  bbox := some block.bbox
  angle := some (block.angle.getD .deg0)
  content := block.content
  mergePrev := if block.blockType = "text" then some (block.mergePrev.getD false) else none
  subType := (Value.find block.metadata (text "sub_type")).bind Value.asStr
  extra := block.metadata.filter fun entry => !snapshotKeys.contains entry.1

/-- `official_snapshot_block`, without its warning. -/
def officialSnapshotBlock (block : VlmLayoutBlock) : Except VlmError SnapshotBlock :=
  if block.blockType.isEmpty then
    .error (.protocol "official model snapshot" "layout block type is required")
  else .ok (snapshotRecord block)

/-- `angle`. -/
def blockAngle : Option Rotation → Except VlmError Int
  | none => .error (builderError "snapshot angle is required")
  | some .deg0 => .ok 0
  | some .deg90 => .ok 90
  | some .deg180 => .ok 180
  | some .deg270 => .ok 270

/-! ## The content of a block -/

/-- `equation_content`. -/
def equationContent (content : Text) : Text :=
  let content := trim content
  let inner := if (text "\\[").isPrefixOf content ∧
      (text "\\]").isSuffixOf (content.drop 2) then (content.drop 2).dropLast.dropLast
    else content
  (inner.reverse.dropWhile isWhitespace).reverse

/-- The first span of a title, when it is a text, with single blanks. -/
def titleSpans : List Span → List Span
  | .text content :: rest => .text (List.intercalate [' '] (splitWhitespace content)) :: rest
  | spans => spans

/-- The kinds of text, captions and footnotes. -/
def textualKinds : List String :=
  ["text", "title", "ref_text", "phonetic", "header", "footer", "page_number", "aside_text",
    "page_footnote", "formula_number", "index", "list_item", "table_caption", "image_caption",
    "chart_caption", "code_caption", "caption", "table_footnote", "image_footnote",
    "chart_footnote", "code_footnote", "footnote"]

/-- The lines of a block that is not a table. -/
def blockLines (block : SnapshotBlock) (point : Bbox) : List Line :=
  if textualKinds.contains block.blockType then
    let spans := textSpans (block.content.getD [])
    [⟨point, if block.blockType = "title" then titleSpans spans else spans⟩]
  else if block.blockType = "image" ∨ block.blockType = "image_block" then
    [⟨point, [.image block.content]⟩]
  else if block.blockType = "chart" then [⟨point, [.chart block.content]⟩]
  else if block.blockType = "equation" then
    [⟨point, block.content.toList.map fun content => .interlineEquation (equationContent content)⟩]
  else if block.blockType = "code" ∨ block.blockType = "algorithm" then
    [⟨point, textSpans (codeContent (block.content.getD []))⟩]
  else []

def isInlineEquation : Span → Bool
  | .inlineEquation _ => true
  | _ => false

/-- The subtype of a picture, a chart or code. -/
def blockSubType (block : SnapshotBlock) : Option String :=
  if block.blockType = "image" ∨ block.blockType = "chart" then
    (block.subType.filter fun value => value ≠ []).map String.ofList
  else if block.blockType = "code" ∨ block.blockType = "algorithm" then
    let spans := textSpans (codeContent (block.content.getD []))
    some (if block.blockType = "code" ∧ spans.any isInlineEquation then "algorithm"
      else block.blockType)
  else none

def blockGuessLang (block : SnapshotBlock) : Option String :=
  if block.blockType = "code" ∨ block.blockType = "algorithm" then
    (((Value.find block.extra (text "guess_lang")).bind Value.asStr).filter
      fun value => value ≠ []).map String.ofList
  else none

def blockCellMerge (decimal : Decimal) (block : SnapshotBlock) : Option Value :=
  if block.blockType = "table" then
    (Value.find block.extra (text "cell_merge")).filter (jsonTruthy decimal)
  else none

/-! ## Pictures -/

/-- The tag and the kind of the crop, for the kinds that are cropped. -/
def cropKind (blockType : String) : Option (String × AssetKind) :=
  if blockType = "table" then some ("table", .table)
  else if blockType = "image" ∨ blockType = "image_block" then some ("image", .image)
  else if blockType = "chart" then some ("chart", .chart)
  else if blockType = "equation" then some ("interline_equation", .equation)
  else none

/-- What a page is made with. -/
structure PageTools where
  media : Media
  decimal : Decimal
  raster : Raster
  slicePageIdx : Nat
  maxAssetBytes : Nat

/-- What is stored with a block: its lines, the name of its crop, and the assets behind it. -/
structure Stored where
  lines : List Line
  imagePath : Option Text
  assets : Assets

namespace PageTools

variable (tools : PageTools)

/-- The lines of a block, with the assets. -/
def storeLines (block : SnapshotBlock) (point : Bbox) (assets : Assets) :
    Except VlmError (List Line × Assets) :=
  if block.blockType = "table" then
    (tools.media.inlineImages tools.maxAssetBytes (block.content.getD []) assets).map
      fun (html, assets) => ([⟨point, [.table html]⟩], assets)
  else .ok (blockLines block point, assets)

/-- The crop of a block, with the assets. -/
def storeCrop (block : SnapshotBlock) (point : Bbox) (assets : Assets) :
    Except VlmError (Option Text × Assets) :=
  match cropKind block.blockType with
  | none => .ok (none, assets)
  | some (tag, kind) =>
    (tools.media.crop tools.raster tools.slicePageIdx tools.maxAssetBytes tag kind point assets).map
      fun (basename, assets) => (some basename, assets)

/-- The part of `raw_block` that may store assets. -/
def store (block : SnapshotBlock) (assets : Assets) : Except VlmError Stored := do
  let point ← pointBbox block.bbox tools.raster.size
  let (lines, assets) ← tools.storeLines block point assets
  let (imagePath, assets) ← tools.storeCrop block point assets
  return ⟨lines, imagePath, assets⟩

/-- The block as the page is prepared with it. -/
def model (block : SnapshotBlock) (stored : Except VlmError Stored) : ModelBlock where
  bbox := block.bbox
  subType := block.subType
  extra := block.extra
  raw := {
    blockType := block.blockType
    bbox := pointBbox block.bbox tools.raster.size
    angle := blockAngle block.angle
    content := block.content
    lines := stored.map Stored.lines
    imagePath := stored.map Stored.imagePath
    mergePrev := block.mergePrev
    subType := blockSubType block
    guessLang := blockGuessLang block
    cellMerge := blockCellMerge tools.decimal block }

/-- The blocks in their order. Behind a block that fails nothing is read any more. -/
def modelBlocks (assets : Assets) : List SnapshotBlock → List ModelBlock
  | [] => []
  | block :: rest =>
    let stored := tools.store block assets
    tools.model block stored :: modelBlocks ((stored.map Stored.assets).toOption.getD assets) rest

/-- The page of a snapshot. -/
def buildPage (snapshot : List SnapshotBlock) : OfficialBuildPage where
  slicePageIdx := tools.slicePageIdx
  pageSizePoints := tools.raster.size
  renderScale := tools.raster.scale
  rgbWidth := tools.raster.width
  rgbHeight := tools.raster.height
  snapshot := tools.modelBlocks [] snapshot

end PageTools

/-! ## The page of a layout -/

/-- The kinds that no request is made for. -/
def silentKinds : List String := ["list", "image_block", "equation_block"]

/-- The layout with a reply for each candidate that has one. -/
def answered (replies : Nat → Option Text) (layout : List VlmLayoutBlock) : List VlmLayoutBlock :=
  layout.zipIdx.map fun entry =>
    if silentKinds.contains entry.1.blockType then entry.1
    else { entry.1 with content := replies entry.2 }

/-- The page of a layout: its blocks become a snapshot, and the page is prepared. -/
def prepareLayout (overflow : Overflow) (tools : PageTools) (renderBlock : Block → Text)
    (maxTextBytes : Nat) (blocks : List VlmLayoutBlock) : Checked VlmError OfficialPreparedPage := do
  let snapshot ← Checked.ofExcept (blocks.mapM officialSnapshotBlock)
  prepareOfficialPage overflow renderBlock (fun _ => false) maxTextBytes (tools.buildPage snapshot)

end Mineru.Layout
