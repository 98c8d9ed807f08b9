import Mineru.Error
import Mineru.Logic.Ledger

/-!
# The size of a rendered page

`page_dimensions` of `pdf.rs` estimates the bytes of a page that is rendered at the scale of
`render_scale`: 200 dots an inch, or less where the page would go over its pixel or byte cap. The
arithmetic is exact, over any ordered field that has a floor.
-/

set_option autoImplicit false

namespace Mineru.Pdf

open Logic

variable {α : Type} [Field α] [LinearOrder α] [FloorRing α]

/-- The errors of `pdf.rs`. -/
inductive Error where
  | pdf (message : String)
  | limitExceeded (resource : String) (limit actual : Nat)
  | workerJoin (message : String)
  deriving DecidableEq, Repr

def Error.display : Error → String
  | pdf message => "PDF error: " ++ message
  | limitExceeded resource limit actual =>
    "limit exceeded for " ++ resource ++ ": " ++ toString actual ++ " > " ++ toString limit
  | workerJoin message => "worker join error: " ++ message

/-- `map` of `official_route.rs`. -/
def Error.map : Error → VlmError
  | pdf message => .pdf message
  | limitExceeded resource limit actual => .limitExceeded resource limit actual
  | workerJoin message => .pdf (workerJoin message).display

/-- The caps that rendering reads. -/
structure Limits where
  maxPagePixels : Nat
  maxRenderedImageBytes : Nat
  maxInFlightImageBytes : Nat
  deriving DecidableEq, Repr

/-- What `validate` asks of the options, and what their types hold. -/
structure Limits.Accepted (options : Limits) : Prop where
  pixels : 0 < options.maxPagePixels
  rendered : 0 < options.maxRenderedImageBytes
  inFlight : 0 < options.maxInFlightImageBytes
  pixels_lt : options.maxPagePixels < 2 ^ 64
  rendered_lt : options.maxRenderedImageBytes < word
  inFlight_lt : options.maxInFlightImageBytes < word

/-- The `render_limits` of the route. -/
def renderLimits (options : Limits) : Limits :=
  { options with
    maxRenderedImageBytes := min options.maxRenderedImageBytes options.maxInFlightImageBytes }

/-- `SCALE`. -/
def standardScale : α := 200 / 72

/-- `render_scale`, with the square root of the field. -/
def renderScale (sqrt : α → α) (widthPoints heightPoints : α) (limits : Limits) : α :=
  let area := widthPoints * heightPoints
  let pixelCap := sqrt (limits.maxPagePixels / area)
  let byteCap := sqrt (limits.maxRenderedImageBytes / 3 / area)
  min (min standardScale pixelCap) byteCap

/-- `u64::saturating_mul`. -/
def saturatingMul (a b : Nat) : Nat := min (a * b) (2 ^ 64 - 1)

/-- `page_dimensions` behind the choice of the scale. -/
def dimensionsAt (index : Nat) (widthPoints heightPoints scale : α) :
    Except Error (α × α × Nat) :=
  let width := ⌈widthPoints * scale⌉
  let height := ⌈heightPoints * scale⌉
  if width ≤ 0 ∨ height ≤ 0 ∨ 65535 < width ∨ 65535 < height then
    .error (.pdf ("page " ++ toString index ++ " viewport exceeds Hayro's u16 limit"))
  else
    let pixels := saturatingMul width.toNat height.toNat
    let rgbBytes := saturatingMul pixels 3
    .ok (widthPoints, heightPoints, rgbBytes)

/-- How much rounding up adds. -/
def overhang (x : α) : α := ⌈x⌉ - x

/-- The pixels that the rounding adds fit into what the exact area leaves of the cap. -/
def Roomy (options : Limits) (width height scale : α) : Prop :=
  3 * (width * scale * overhang (height * scale) + height * scale * overhang (width * scale) +
      overhang (width * scale) * overhang (height * scale)) ≤
    options.maxInFlightImageBytes - 3 * (scale * scale * width * height)

/-- `page_dimensions`, for a document that is given by the sizes of its pages. -/
def pageDimensions (sqrt : α → α) (pages : List (α × α)) (index : Nat) (limits : Limits) :
    Except Error (α × α × Nat) :=
  match pages[index]? with
  | none => .error (.pdf ("page " ++ toString index ++ " is outside the PDF"))
  | some (widthPoints, heightPoints) =>
    if widthPoints ≤ 0 ∨ heightPoints ≤ 0 then
      .error (.pdf ("page " ++ toString index ++ " has invalid dimensions"))
    else dimensionsAt index widthPoints heightPoints
      (renderScale sqrt widthPoints heightPoints limits)

/-- `page_image_bytes`, as `plan_route_window` asks for it. -/
def pageImageBytes (sqrt : α → α) (pages : List (α × α)) (limits : Limits) (index : Nat) :
    Except VlmError Nat :=
  match pageDimensions sqrt pages index limits with
  | .ok (_, _, bytes) => .ok bytes
  | .error error => .error error.map

end Mineru.Pdf
