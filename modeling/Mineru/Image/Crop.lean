import Mineru.Layout.Parse
import Mineru.Logic.Rounding

/-!
# Crops of a page

`crop` and `mask_and_encode_table_image` of `image_pipeline.rs` cut a table out of a page, and
`semantic_crop` of `vlm_client.rs` cuts out every other block. Both round the box outwards to pixels
and turn the crop by the angle of the block. The products and quotients are those of `f32`: the
functions take the rounding that follows every operation, and `f32` is the one of the source.
-/

set_option autoImplicit false

namespace Mineru.Image

open Logic
open Logic.Checked (fail)
open Layout (Rotation)
open Builders (NormalizedBbox)

/-! ## Rasters -/

structure Rgb where
  red : Nat
  green : Nat
  blue : Nat
  deriving DecidableEq, Repr, Inhabited

/-- An `RgbImage`. No pixel outside of it tells two rasters apart. -/
@[ext]
structure Raster where
  width : Nat
  height : Nat
  pixel : Nat → Nat → Rgb
  outside : ∀ x y, ¬ (x < width ∧ y < height) → pixel x y = default

/-- The raster with the given pixels. -/
def Raster.ofPixels (width height : Nat) (pixel : Nat → Nat → Rgb) : Raster where
  width
  height
  pixel x y := if x < width ∧ y < height then pixel x y else default
  outside _ _ out := if_neg out

/-- `RgbImage::from_pixel`. -/
def fromPixel (width height : Nat) (color : Rgb) : Raster :=
  Raster.ofPixels width height fun _ _ => color

/-- `imageops::rotate90`, which is clockwise. -/
def rotate90 (r : Raster) : Raster :=
  Raster.ofPixels r.height r.width fun x y => r.pixel y (r.height - 1 - x)

def rotate180 (r : Raster) : Raster :=
  Raster.ofPixels r.width r.height fun x y => r.pixel (r.width - 1 - x) (r.height - 1 - y)

/-- `imageops::rotate270`, which is clockwise too. -/
def rotate270 (r : Raster) : Raster :=
  Raster.ofPixels r.height r.width fun x y => r.pixel (r.width - 1 - y) x

/-- `imageops::crop_imm` and `to_image`. -/
def cropImm (r : Raster) (x y width height : Nat) : Raster :=
  let x := min x r.width
  let y := min y r.height
  Raster.ofPixels (min width (r.width - x)) (min height (r.height - y)) fun i j =>
    r.pixel (x + i) (y + j)

/-- `imageops::overlay`, where no corner is negative. -/
def overlay (bottom top : Raster) (x y : Nat) : Raster :=
  Raster.ofPixels bottom.width bottom.height fun i j =>
    if x ≤ i ∧ y ≤ j ∧ i - x < top.width ∧ j - y < top.height then top.pixel (i - x) (j - y)
    else bottom.pixel i j

/-! ## Arithmetic -/

/-- The rounding of `f32`. -/
def f32 : Rounding Rat := Rounding.binary 24 (-149) (by decide)

/-- `f32::clamp`, which panics when the bounds are the wrong way round. -/
def clamp (q low high : Rat) : Checked VlmError Rat :=
  if high < low then .error .panic else .ok (max low (min q high))

/-- `as u32`, which saturates. -/
def asU32 (q : Rat) : Nat := min ⌊q⌋.toNat (2 ^ 32 - 1)

/-- An addition of `u32`. -/
def addU32 (a b : Nat) : Checked VlmError Nat := if a + b < 2 ^ 32 then .ok (a + b) else .error .panic

/-- A subtraction of `u32`. -/
def subU32 (a b : Nat) : Checked VlmError Nat := if b ≤ a then .ok (a - b) else .error .panic

/-- The pixel of a left or upper edge, on an axis of `size` pixels up to `last`. -/
def startPixel (f : Rounding Rat) (edge : Rat) (size : Nat) (last : Rat) : Checked VlmError Nat := do
  return asU32 (← clamp ⌊f.round (edge * f.round size)⌋ 0 last)

/-- The pixel behind a right or lower edge. -/
def endPixel (f : Rounding Rat) (edge : Rat) (size start : Nat) : Checked VlmError Nat := do
  return asU32 (← clamp ⌈f.round (edge * f.round size)⌉ (f.round (← addU32 start 1 : Nat)) (f.round size))

/-! ## `image_pipeline.rs` -/

/-- `imageops::resize` with the Lanczos filter, and `jpeg_data_url` with all that the loop of
`mask_and_encode_table_image` does with an absorbed image. -/
structure Tools where
  resize : Raster → Nat → Nat → Raster
  absorb : Raster → NormalizedBbox → Option Rotation → Raster → Nat →
    NormalizedBbox × Option Rotation → Raster × List (Text × Value) →
    Checked VlmError (Raster × List (Text × Value))

def minEdgeDimensions (f : Rounding Rat) (width height target : Nat) : Nat × Nat :=
  let scale := f.round (f.round target / f.round (max (min width height) 1 : Nat))
  (asU32 ⌈f.round (f.round width * scale)⌉, asU32 ⌈f.round (f.round height * scale)⌉)

def rotate (image : Raster) : Option Rotation → Raster
  | some .deg90 => rotate90 image
  | some .deg180 => rotate180 image
  | some .deg270 => rotate270 image
  | _ => image

/-- A raster with an edge below 28 is enlarged. -/
def enlarged (f : Rounding Rat) (tools : Tools) (out : Raster) : Raster :=
  if min out.width out.height < 28 then
    let size := minEdgeDimensions f out.width out.height 28
    tools.resize out size.1 size.2
  else out

/-- Whether the edges are in a ratio above 50. -/
def Pads (f : Rounding Rat) (width height : Nat) : Prop :=
  f.round (f.round (max width height : Nat) / f.round (max (min width height) 1 : Nat)) > 50

instance (f : Rounding Rat) (width height : Nat) : Decidable (Pads f width height) :=
  inferInstanceAs (Decidable (_ > _))

/-- A raster with edges in such a ratio is padded to a square. -/
def padded (f : Rounding Rat) (out : Raster) : Raster :=
  let side := max out.width out.height
  if Pads f out.width out.height then
    overlay (fromPixel side side ⟨255, 255, 255⟩) out ((side - out.width) / 2)
      ((side - out.height) / 2)
  else out

/-- The corner and the size that `crop` and `raw_crop` compute. -/
def cropBounds (f : Rounding Rat) (image : Raster) (bbox : NormalizedBbox) :
    Checked VlmError (Nat × Nat × Nat × Nat) := do
  let w := image.width
  let h := image.height
  let x ← startPixel f bbox.left w (f.round (f.round w - 1))
  let y ← startPixel f bbox.top h (f.round (f.round h - 1))
  let right ← endPixel f bbox.right w x
  let bottom ← endPixel f bbox.bottom h y
  return (x, y, ← subU32 right x, ← subU32 bottom y)

def rawCrop (f : Rounding Rat) (image : Raster) (bbox : NormalizedBbox) (rotation : Option Rotation) :
    Checked VlmError Raster := do
  let (x, y, width, height) ← cropBounds f image bbox
  return rotate (cropImm image x y width height) rotation

def crop (f : Rounding Rat) (tools : Tools) (image : Raster) (bbox : NormalizedBbox)
    (rotation : Option Rotation) : Checked VlmError Raster := do
  let (x, y, width, height) ← cropBounds f image bbox
  return padded f (enlarged f tools (rotate (cropImm image x y width height) rotation))

/-- `mask_and_encode_table_image`, for a table with its box and angle. -/
def maskAndEncodeTableImage (f : Rounding Rat) (tools : Tools) (page : Raster) (bbox : NormalizedBbox)
    (angle : Option Rotation) (images : List (NormalizedBbox × Option Rotation)) :
    Checked VlmError (Raster × List (Text × Value)) := do
  let rawTable ← rawCrop f page bbox none
  let masked ← crop f tools page bbox angle
  images.zipIdx.foldlM (fun state entry => tools.absorb page bbox angle rawTable entry.2 entry.1 state)
    (masked, [])

/-! ## `vlm_client.rs` -/

def cropRect (f : Rounding Rat) (image : Raster) (bbox : NormalizedBbox) :
    Checked VlmError (Nat × Nat × Nat × Nat) := do
  let x ← startPixel f bbox.left image.width (f.round (image.width - 1 : Nat))
  let y ← startPixel f bbox.top image.height (f.round (image.height - 1 : Nat))
  let right ← endPixel f bbox.right image.width x
  let bottom ← endPixel f bbox.bottom image.height y
  return (x, y, ← subU32 right x, ← subU32 bottom y)

/-- `image_pixel_limit`. -/
def imagePixelLimit (width height limit : Nat) : Checked VlmError Unit :=
  let actual := if width * height < 2 ^ 64 then width * height else 2 ^ 64 - 1
  if actual > limit then fail (.limitExceeded "image pixels" limit actual) else .ok ()

/-- The match that ends `semantic_crop`. -/
def undoRotation (out : Raster) : Option Rotation → Raster
  | some .deg90 => rotate270 out
  | some .deg180 => rotate180 out
  | some .deg270 => rotate90 out
  | _ => out

def semanticCrop (f : Rounding Rat) (image : Raster) (bbox : NormalizedBbox) (angle : Option Rotation)
    (maxPixels : Nat) : Checked VlmError Raster := do
  let (x, y, width, height) ← cropRect f image bbox
  imagePixelLimit width height maxPixels
  return undoRotation (cropImm image x y width height) angle

end Mineru.Image
