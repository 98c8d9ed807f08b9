import Mineru.Builders.Compose

/-!
# Preparing a page

`prepare_official_page_until`: the snapshot of a page is checked against its raster and its text
budget, its boxes become boxes of points, and the page is composed. Coordinates and sizes are exact
rationals, and one is finite when it is no larger than the largest float.
-/

set_option autoImplicit false

namespace Mineru.Builders

open Logic

/-- `NormalizedBbox`. Its fields are public, so it may hold any numbers. -/
structure NormalizedBbox where
  left : Rat
  top : Rat
  right : Rat
  bottom : Rat
  deriving DecidableEq, Repr

structure PageSize where
  width : Rat
  height : Rat
  deriving DecidableEq, Repr

/-- `f32::MAX`. -/
def f32Max : Rat := (2 ^ 24 - 1) * 2 ^ 104

/-- `f32::is_finite`. -/
def isFinite (q : Rat) : Bool := decide (-f32Max ≤ q) && decide (q ≤ f32Max)

/-- `(0.0..=1.0).contains`. -/
def inUnit (q : Rat) : Bool := decide (0 ≤ q) && decide (q ≤ 1)

/-- `NormalizedBbox::new`. -/
def normalizedBbox (left top right bottom : Rat) : Except String NormalizedBbox :=
  if [left, top, right, bottom].any (fun v => !inUnit v) ∨ left ≥ right ∨ top ≥ bottom then
    .error "bbox must be finite, normalized, and non-empty"
  else .ok ⟨left, top, right, bottom⟩

/-- `f32::trunc`. -/
def trunc (q : Rat) : Int := if 0 ≤ q then ⌊q⌋ else ⌈q⌉

/-- One coordinate of `point_bbox`. The bound is `i32::MAX as f32`, which is one more than
`i32::MAX`, and the cast saturates. -/
def pointCoordinate (coordinate dimension : Rat) : Except VlmError Int :=
  let value := trunc (coordinate * dimension)
  if value < -2 ^ 31 ∨ value > 2 ^ 31 then
    .error (builderError "snapshot geometry is outside point-coordinate range")
  else .ok (min value (2 ^ 31 - 1))

/-- `point_bbox`, which orders the corners. -/
def pointBbox (bbox : Option NormalizedBbox) (size : PageSize) : Except VlmError Bbox :=
  match bbox with
  | none => .error (builderError "snapshot bbox is required")
  | some bbox =>
    if !([bbox.left, bbox.top, bbox.right, bbox.bottom].all inUnit) then
      .error (builderError "snapshot bbox must be finite and normalized")
    else do
      let x0 ← pointCoordinate bbox.left size.width
      let y0 ← pointCoordinate bbox.top size.height
      let x1 ← pointCoordinate bbox.right size.width
      let y1 ← pointCoordinate bbox.bottom size.height
      if x0 = x1 ∨ y0 = y1 then .error (builderError "empty snapshot geometry")
      else return ⟨min x0 x1, min y0 y1, max x0 x1, max y0 y1⟩

/-- A block of the snapshot. What `raw_block` makes of its kind, text and pixels is given. -/
structure ModelBlock where
  raw : RawBlock
  bbox : Option NormalizedBbox
  subType : Option Text
  extra : List (Text × Value)

/-- The block on a page of a size. -/
def ModelBlock.placed (size : PageSize) (block : ModelBlock) : RawBlock :=
  { block.raw with bbox := pointBbox block.bbox size }

structure OfficialBuildPage where
  slicePageIdx : Nat
  pageSizePoints : PageSize
  renderScale : Rat
  rgbWidth : Nat
  rgbHeight : Nat
  snapshot : List ModelBlock

/-- `expected_pixels`. The bound is `u32::MAX as f32`, which is one more than `u32::MAX`, and the cast
saturates. -/
def expectedPixels (points scale : Rat) : Except VlmError Nat :=
  let pixels := ⌈points * scale⌉
  if pixels ≤ 0 ∨ pixels > 2 ^ 32 then .error (builderError "invalid rendered page dimensions")
  else .ok (min pixels (2 ^ 32 - 1)).toNat

def validatePage (page : OfficialBuildPage) (previousIndex : Option Nat) : Except VlmError Unit :=
  if (previousIndex.any fun index => decide (page.slicePageIdx ≤ index)) ||
      !isFinite page.renderScale || decide (page.renderScale ≤ 0) ||
      [page.pageSizePoints.width, page.pageSizePoints.height].any
        (fun value => !isFinite value || decide (value ≤ 0)) then
    .error (builderError "invalid official build page")
  else do
    let expectedWidth ← expectedPixels page.pageSizePoints.width page.renderScale
    let expectedHeight ← expectedPixels page.pageSizePoints.height page.renderScale
    if page.rgbWidth ≠ expectedWidth ∨ page.rgbHeight ≠ expectedHeight then
      .error (builderError "RGB snapshot does not match page points and render scale")
    else return ()

mutual

/-- `value_text_bytes`. The bytes of texts in memory have a sum that does not overflow. -/
def valueTextBytes : Value → Nat
  | .string s => utf8Len s
  | .array elements => elementsTextBytes elements
  | .object members => mapTextBytes members
  | .null => 0
  | .bool _ => 0
  | .number _ => 0

def elementsTextBytes : List Value → Nat
  | [] => 0
  | v :: rest => valueTextBytes v + elementsTextBytes rest

/-- `map_text_bytes`. -/
def mapTextBytes : List (Text × Value) → Nat
  | [] => 0
  | (key, v) :: rest => utf8Len key + valueTextBytes v + mapTextBytes rest

end

def ModelBlock.textBytes (block : ModelBlock) : Nat :=
  utf8Len (text block.raw.blockType) + utf8Len (block.raw.content.getD []) +
    utf8Len (block.subType.getD []) + mapTextBytes block.extra

structure OfficialPreparedPage where
  slicePageIdx : Nat
  pageSizePoints : PageSize
  snapshot : List ModelBlock
  preproc : List Node
  discarded : List Block

/-- `if c { return Err(e) }`. -/
def rejectIf (c : Bool) (e : VlmError) : Except VlmError Unit := if c then .error e else .ok ()

/-- The checks of `prepare_official_page_until` before it composes. -/
def checkPage (expired : Nat → Bool) (maxTextBytes : Nat) (page : OfficialBuildPage) :
    Except VlmError Unit := do
  rejectIf (expired 0) (.timeout "official PDF")
  validatePage page none
  let textBytes := (page.snapshot.map ModelBlock.textBytes).sum
  rejectIf (decide (textBytes > maxTextBytes))
    (.limitExceeded "staged text/JSON bytes" maxTextBytes textBytes)

/-- `prepare_official_page_until`, where `expired` tells for each check whether the deadline is
over. -/
def prepareOfficialPage (overflow : Overflow) (renderBlock : Block → Text) (expired : Nat → Bool)
    (maxTextBytes : Nat) (page : OfficialBuildPage) : Checked VlmError OfficialPreparedPage := do
  Checked.ofExcept (checkPage expired maxTextBytes page)
  let (preproc, discarded) ← composePage overflow renderBlock
    (page.snapshot.map (ModelBlock.placed page.pageSizePoints))
  Checked.reject (expired 1 = true) (.timeout "official PDF")
  return {
    slicePageIdx := page.slicePageIdx
    pageSizePoints := page.pageSizePoints
    snapshot := page.snapshot
    preproc, discarded }

end Mineru.Builders
