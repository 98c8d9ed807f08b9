import Mineru.Image.Crop

/-!
# Masks over the images of a table

The turn of the loop in `mask_and_encode_table_image`: the box of an absorbed image is rounded to
pixels of the raw crop, turned with the table, scaled to the crop that is masked, and painted over with
the average color of the image and a token.
-/

set_option autoImplicit false

namespace Mineru.Image

open Logic
open Layout (Rotation)
open Builders (NormalizedBbox)

/-! ## Tokens -/

/-- `TABLE_IMAGE_TOKEN_LETTERS` and `TABLE_IMAGE_TOKEN_NUMBERS`. -/
def tokenAlphabet : Text := text "ACDGHKTWXYZ" ++ text "2345678"

/-- The last `digits` digits of a number in the alphabet. -/
def tokenDigits : Nat → Nat → Text
  | 0, _ => []
  | digits + 1, n =>
    tokenDigits digits (n / tokenAlphabet.length) ++ [tokenAlphabet.getD (n % tokenAlphabet.length) 'A']

/-- `token`. -/
def token (index : Nat) : Text := '[' :: tokenDigits 4 index ++ [']']

/-! ## Rectangles -/

/-- The pixels from `x0` to `x1` and from `y0` to `y1`, the upper ends excluded. -/
structure Rect where
  x0 : Nat
  y0 : Nat
  x1 : Nat
  y1 : Nat
  deriving DecidableEq, Repr

/-- The lower edge of a rounded box. A quotient by zero is infinite, or no number, which `max` drops. -/
def lowPixel (f : Rounding Rat) (offset extent : Rat) (size : Nat) : Nat :=
  if extent = 0 then if 0 < offset ∧ 0 < size then 2 ^ 32 - 1 else 0
  else asU32 (max ⌊f.round (f.round (offset / extent) * f.round size)⌋ 0)

/-- The upper edge of a rounded box. -/
def highPixel (f : Rounding Rat) (offset extent : Rat) (size : Nat) : Nat :=
  if extent = 0 then if offset < 0 then 0 else asU32 (f.round size)
  else asU32 (min ⌈f.round (f.round (offset / extent) * f.round size)⌉ (f.round size))

/-- The box of an image in pixels of the raw crop of the table. -/
def rawRect (f : Rounding Rat) (table image : NormalizedBbox) (width height : Nat) : Rect :=
  let across := f.round (table.right - table.left)
  let down := f.round (table.bottom - table.top)
  { x0 := lowPixel f (f.round (image.left - table.left)) across width
    y0 := lowPixel f (f.round (image.top - table.top)) down height
    x1 := highPixel f (f.round (image.right - table.left)) across width
    y1 := highPixel f (f.round (image.bottom - table.top)) down height }

/-- The rectangle in the turned crop. -/
def turnRect (angle : Option Rotation) (width height : Nat) (r : Rect) : Checked VlmError Rect :=
  match angle with
  | some .deg90 => do return ⟨← subU32 height r.y1, r.x0, ← subU32 height r.y0, r.x1⟩
  | some .deg180 => do
    return ⟨← subU32 width r.x1, ← subU32 height r.y1, ← subU32 width r.x0, ← subU32 height r.y0⟩
  | some .deg270 => do return ⟨r.y0, ← subU32 width r.x1, r.y1, ← subU32 width r.x0⟩
  | _ => .ok r

/-- `rotated_w` and `rotated_h`. -/
def rotatedSize (angle : Option Rotation) (width height : Nat) : Nat × Nat :=
  match angle with
  | some .deg90 | some .deg270 => (height, width)
  | _ => (width, height)

/-- The greatest `u64`. -/
def maxU64 : Nat := 2 ^ 64 - 1

/-- `scale_coordinate`. -/
def scaleCoordinate (value target source : Nat) (roundUp : Bool) : Nat :=
  let divisor := max source 1
  let product := if value * target ≤ maxU64 then value * target else maxU64
  let scaled := if roundUp then min (product + (divisor - 1)) maxU64 / divisor else product / divisor
  min scaled target

/-- The rectangle that is painted over. -/
def maskRect (angle : Option Rotation) (rawTable masked : Raster) (r : Rect) : Checked VlmError Rect := do
  let r ← turnRect angle rawTable.width rawTable.height r
  let (rotatedW, rotatedH) := rotatedSize angle rawTable.width rawTable.height
  return {
    x0 := scaleCoordinate r.x0 masked.width rotatedW false
    y0 := scaleCoordinate r.y0 masked.height rotatedH false
    x1 := scaleCoordinate r.x1 masked.width rotatedW true
    y1 := scaleCoordinate r.y1 masked.height rotatedH true }

/-! ## Painting -/

/-- `put_pixel`. -/
def putPixel (image : Raster) (x y : Nat) (color : Rgb) : Checked VlmError Raster :=
  if x < image.width ∧ y < image.height then
    .ok (Raster.ofPixels image.width image.height fun i j =>
      if i = x ∧ j = y then color else image.pixel i j)
  else .error .panic

def sumPixels (source : Raster) (channel : Rgb → Nat) : Nat :=
  ((List.range source.height).map fun y =>
    ((List.range source.width).map fun x => channel (source.pixel x y)).sum).sum

/-- The average color. -/
def average (source : Raster) : Rgb :=
  let count := source.width * source.height
  ⟨sumPixels source Rgb.red / max count 1 % 256, sumPixels source Rgb.green / max count 1 % 256,
    sumPixels source Rgb.blue / max count 1 % 256⟩

def fillRow (r : Rect) (color : Rgb) (image : Raster) (y : Nat) : Checked VlmError Raster :=
  (List.range' r.x0 (r.x1 - r.x0)).foldlM (fun image x => putPixel image x y color) image

/-- The loops that paint the rectangle. -/
def fill (r : Rect) (color : Rgb) (image : Raster) : Checked VlmError Raster :=
  (List.range' r.y0 (r.y1 - r.y0)).foldlM (fillRow r color) image

/-- `GLYPHS`. -/
def glyphs : List (Char × List Nat) :=
  [('[', [6, 4, 4, 4, 6]), (']', [6, 2, 2, 2, 6]), ('A', [2, 5, 7, 5, 5]), ('C', [3, 4, 4, 4, 3]),
    ('D', [6, 5, 5, 5, 6]), ('G', [3, 4, 7, 5, 3]), ('H', [5, 5, 7, 5, 5]), ('K', [5, 5, 6, 5, 5]),
    ('T', [7, 2, 2, 2, 2]), ('W', [5, 5, 5, 7, 5]), ('X', [5, 5, 2, 5, 5]), ('Y', [5, 5, 2, 2, 2]),
    ('Z', [7, 1, 2, 4, 7]), ('2', [6, 1, 2, 4, 7]), ('3', [6, 1, 2, 1, 6]), ('4', [5, 5, 7, 1, 1]),
    ('5', [7, 4, 6, 1, 6]), ('6', [3, 4, 6, 5, 2]), ('7', [7, 1, 2, 2, 2]), ('8', [2, 5, 2, 5, 2])]

/-- One dot of a glyph: a square of pixels, cut off at the ends of the rectangle. -/
def paintDot (r : Rect) (scale x y : Nat) (image : Raster) : Checked VlmError Raster :=
  (List.range scale).foldlM (fun image dy =>
    (List.range scale).foldlM (fun image dx =>
      if x + dx < r.x1 ∧ y + dy < r.y1 then putPixel image (x + dx) (y + dy) ⟨0, 0, 0⟩ else .ok image)
      image) image

/-- The bits of one row of a glyph. -/
def paintBits (r : Rect) (scale x y bits : Nat) (image : Raster) : Checked VlmError Raster :=
  (List.range 3).foldlM (fun image col =>
    if bits &&& (1 <<< (2 - col)) ≠ 0 then paintDot r scale (x + col * scale) y image else .ok image)
    image

def paintGlyph (r : Rect) (scale x y : Nat) (ch : Char) (image : Raster) : Checked VlmError Raster :=
  match glyphs.find? fun glyph => glyph.1 = ch with
  | some (_, rows) =>
    rows.zipIdx.foldlM (fun image row => paintBits r scale x (y + row.2 * scale) row.1 image) image
  | none => .ok image

/-- `paint_token`. -/
def paintToken (r : Rect) (token : Text) (image : Raster) : Checked VlmError Raster :=
  let scale := max (min ((r.x1 - r.x0) / (utf8Len token * 4)) ((r.y1 - r.y0) / 6)) 1
  let width := utf8Len token * 4 * scale
  let startX := r.x0 + (r.x1 - r.x0 - width) / 2
  let startY := r.y0 + (r.y1 - r.y0 - 5 * scale) / 2
  token.zipIdx.foldlM (fun image ch => paintGlyph r scale (startX + ch.2 * 4 * scale) startY ch.1 image)
    image

/-- The turn of the loop for the image at `n`, with `jpeg_data_url` as a parameter. -/
def absorbImage (f : Rounding Rat) (jpegDataUrl : Raster → Checked VlmError Text) (page : Raster)
    (table : NormalizedBbox) (angle : Option Rotation) (rawTable : Raster) (n : Nat)
    (image : NormalizedBbox × Option Rotation) (state : Raster × List (Text × Value)) :
    Checked VlmError (Raster × List (Text × Value)) := do
  let (masked, map) := state
  let source ← rawCrop f page image.1 image.2
  let map := Value.insert (token n) (.string (← jpegDataUrl source)) map
  let r ← maskRect angle rawTable masked (rawRect f table image.1 rawTable.width rawTable.height)
  if r.x1 ≤ r.x0 ∨ r.y1 ≤ r.y0 then return (masked, map)
  else do
    let masked ← fill r (average source) masked
    let masked ← paintToken r (token n) masked
    return (masked, map)

/-- The tools of the pipeline with this turn. -/
def maskTools (f : Rounding Rat) (resize : Raster → Nat → Nat → Raster)
    (jpegDataUrl : Raster → Checked VlmError Text) : Tools := ⟨resize, absorbImage f jpegDataUrl⟩

end Mineru.Image
