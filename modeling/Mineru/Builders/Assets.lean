import Mineru.Builders.Middle
import Mineru.Builders.Render

/-!
# The assets of a page

`inline_images` and `crop` of `official_builders.rs`. The blocks of a page share one map from paths to
assets: a table puts the pictures of its HTML there, which come as data URIs, and a table, picture,
chart or equation puts its crop of the raster there. Both count what the map holds against a cap, and a
picture whose path is taken by other bytes is refused.

SHA-256, MD5, base64 and the JPEG encoder are given.
-/

set_option autoImplicit false

namespace Mineru.Builders

open Logic Logic.Regex
open Vlm (containsText lowercase splitWhitespace)

inductive AssetKind where
  | image
  | table
  | equation
  | chart
  | other (name : Text)
  deriving DecidableEq, Repr

structure Asset where
  kind : AssetKind
  relativePath : Text
  mediaType : Text
  data : List UInt8
  md5 : Text
  deriving DecidableEq, Repr

/-- The map from a path to its asset. -/
abbrev Assets := List (Text × Asset)

/-- A rectangle of pixels. -/
structure PixelRect where
  x : Nat
  y : Nat
  width : Nat
  height : Nat
  deriving DecidableEq, Repr

/-- What other crates compute. The digests are those of the UTF-8 form of a text, and of bytes; the
encoder answers with the bytes of a JPEG of a part of the raster; `attempted` is how far it got when
it was stopped by a cap. -/
structure Media where
  sha256 : Text → List UInt8
  md5 : List UInt8 → List UInt8
  decodeBase64 : Text → Option (List UInt8)
  encodeBase64 : List UInt8 → Text
  encoder : PixelRect → Except String (List UInt8)
  attempted : PixelRect → Nat → Nat
  placeholder : List UInt8

/-- The raster of a page, with the bytes of its pixels. -/
structure Raster where
  size : PageSize
  scale : Rat
  width : Nat
  height : Nat
  pixels : List UInt8

namespace Media

variable (media : Media)

/-- `sha`. -/
def sha (seed : Text) : Text := hexDigest (media.sha256 seed)

/-- `asset_bytes`. The bytes of data in memory have a sum that does not overflow. -/
def assetBytes (assets : Assets) : Nat := (assets.map fun entry => entry.2.data.length).sum

/-- `base64_upper_bound`, of a text in memory. -/
def base64UpperBound (len : Nat) : Nat := (len + 3) / 4 * 3

/-- The name of a stored picture. -/
def basename (seed extension : Text) : Text := media.sha seed ++ '.' :: extension

def imagePath (basename : Text) : Text := text "images/" ++ basename

def overBudget (cap actual : Nat) : VlmError := .limitExceeded "total asset bytes" cap actual

/-! ## Pictures in the HTML of a table -/

/-- `src="(data:image/[^"]+)"`. -/
def sourceAttribute : Expr :=
  .seq (literal (text "src=" ++ ['"']))
    (.seq (.group 1 (.seq (literal (text "data:image/")) (plus fun c => c ≠ '"'))) (literal ['"']))

/-- `(?s)data:image/([^;]+);base64,(.+)`. -/
def dataUri : Expr :=
  .seq (literal (text "data:image/")) (.seq (.group 1 (plus fun c => c ≠ ';'))
    (.seq (literal (text ";base64,")) (.group 2 (plus fun _ => true))))

/-- The URIs of the pictures, in their order. -/
def pictureUris (html : Text) : List Text :=
  (Matches.cut (matchAt sourceAttribute) 0 html).1.map fun (_, groups) => (groups.get 1).getD []

/-- What a data URI declares, in lower case, and its payload without what the decoder is not given. -/
structure DataUri where
  declared : Text
  encoded : Text
  deriving DecidableEq, Repr

/-- A character that the payload keeps. -/
def isBase64 (c : Char) : Bool :=
  (decide ('a' ≤ c) && decide (c ≤ 'z')) || (decide ('A' ≤ c) && decide (c ≤ 'Z')) ||
    (decide ('0' ≤ c) && decide (c ≤ '9')) || ['+', '/', '='].contains c

def parseDataUri (uri : Text) : Option DataUri :=
  (find dataUri none uri).map fun found =>
    ⟨lowercase ((found.groups.get 1).getD []), ((found.groups.get 2).getD []).filter isBase64⟩

/-- The part of the declared type before a `+`; `jpeg` becomes `jpg`. -/
def extension (declared : Text) : Text :=
  let kind := declared.takeWhile fun c => c ≠ '+'
  if kind = text "jpeg" then text "jpg" else kind

def isMetafile (declared : Text) : Bool :=
  [text "wmf", text "emf", text "x-wmf", text "x-emf"].contains declared

/-- A picture as it is stored: what its name is the digest of, and what it holds. -/
structure Picture where
  seed : Text
  extension : Text
  mediaType : Text
  data : List UInt8

/-- The seed of the picture that stands for metafiles. -/
def placeholderSeed : Text := text "data:image/jpeg;base64," ++ media.encodeBase64 media.placeholder

def picture (uri declared : Text) (data : List UInt8) : Picture :=
  if isMetafile declared then
    ⟨media.placeholderSeed, text "jpg", text "image/jpeg", media.placeholder⟩
  else ⟨uri, extension declared, text "image/" ++ declared, data⟩

/-- The assets, and the names of the pictures by their URIs, the last one first. -/
abbrev Inlined := Assets × List (Text × Text)

/-- A picture is stored under its path, unless it is there. -/
def storePicture (assets : Assets) (picture : Picture) : Except VlmError Assets :=
  let path := imagePath (media.basename picture.seed picture.extension)
  match assets.lookup path with
  | some existing =>
    if existing.data ≠ picture.data then .error (builderError "inline asset collision") else .ok assets
  | none => .ok ((path, {
      kind := .image
      relativePath := path
      mediaType := picture.mediaType
      data := picture.data
      md5 := hexDigest (media.md5 picture.data) }) :: assets)

/-- One turn of the loop of `inline_images`. A URI that is not understood is left alone. -/
def inlineImage (cap : Nat) (s : Inlined) (uri : Text) : Except VlmError Inlined :=
  match parseDataUri uri with
  | none => .ok s
  | some parts =>
    let used := assetBytes s.1
    let upper := base64UpperBound parts.encoded.length
    if upper > cap - used then .error (overBudget cap (used + upper))
    else match media.decodeBase64 parts.encoded with
    | none => .ok s
    | some data =>
      let picture := media.picture uri parts.declared data
      (media.storePicture s.1 picture).map fun assets =>
        (assets, (uri, media.basename picture.seed picture.extension) :: s.2)

/-- The attribute with the name of the picture instead of its URI. -/
def replaceSource (names : List (Text × Text)) (whole : Text) (groups : Groups) : Text :=
  match names.lookup ((groups.get 1).getD []) with
  | none => whole
  | some basename => text "src=" ++ '"' :: (basename ++ ['"'])

/-- `inline_images`. -/
def inlineImages (cap : Nat) (html : Text) (assets : Assets) : Except VlmError (Text × Assets) :=
  if html = [] ∨ !containsText html (text "base64,") then .ok (html, assets)
  else ((pictureUris html).foldlM (media.inlineImage cap) (assets, [])).map fun s =>
    (replaceAll sourceAttribute (replaceSource s.2) html, s.1)

/-! ## Crops -/

/-- `encode_jpeg` into a `CappedWriter`. -/
def encodeJpeg (rect : PixelRect) (cap : Nat) : Except VlmError (List UInt8) :=
  match media.encoder rect with
  | .error message => .error (builderError message)
  | .ok data => if data.length > cap then .error (overBudget cap (media.attempted rect cap)) else .ok data

/-- `f32::clamp` to the pixels of a side. -/
def clampPixel (value : Int) (maximum : Nat) : Nat := (max 0 (min value maximum)).toNat

/-- The pixels of a box of points. -/
def cropRect (raster : Raster) (point : Bbox) : Option PixelRect :=
  let x0 := clampPixel ⌊point.left * raster.scale⌋ raster.width
  let y0 := clampPixel ⌊point.top * raster.scale⌋ raster.height
  let x1 := clampPixel ⌈point.right * raster.scale⌉ raster.width
  let y1 := clampPixel ⌈point.bottom * raster.scale⌉ raster.height
  if x0 ≥ x1 ∨ y0 ≥ y1 then none else some ⟨x0, y0, x1 - x0, y1 - y0⟩

/-- What the name of a crop is the digest of. -/
def cropSeed (raster : Raster) (slicePageIdx : Nat) (tag : String) (point : Bbox) : Text :=
  text tag ++ '/' :: (hexDigest (media.md5 raster.pixels)).map Char.toUpper ++
    text ("_" ++ toString slicePageIdx ++ "_" ++ toString point.left ++ "_" ++ toString point.top ++
      "_" ++ toString point.right ++ "_" ++ toString point.bottom)

/-- `crop`: the name of the crop, and the assets with it. -/
def crop (raster : Raster) (slicePageIdx cap : Nat) (tag : String) (kind : AssetKind) (point : Bbox)
    (assets : Assets) : Except VlmError (Text × Assets) :=
  match cropRect raster point with
  | none => .error (builderError "empty crop")
  | some rect =>
    let basename := media.basename (media.cropSeed raster slicePageIdx tag point) (text "jpg")
    let path := imagePath basename
    if (assets.lookup path).isSome then .ok (basename, assets)
    else
      let used := assetBytes assets
      let rawBytes := rect.width * rect.height * 3
      if rawBytes > cap - used then .error (overBudget cap (used + rawBytes))
      else (media.encodeJpeg rect (cap - used)).map fun data =>
        (basename, (path, {
          kind
          relativePath := path
          mediaType := text "image/jpeg"
          data
          md5 := hexDigest (media.md5 data) }) :: assets)

end Media

end Mineru.Builders
