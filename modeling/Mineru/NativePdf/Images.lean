import Mineru.Text

/-!
# The search for page images

`has_page_images_in_document` of `native_pdf.rs`. A document is what `lopdf` tells of it: its pages,
their operators, and a map from object ids to objects, in which references may lead anywhere, also back.
The operators of a content stream are those that are decoded under the limit, `none` when they cannot be.

An error of the search has no message. The depth counts up to `MAX_RESOURCE_DEPTH` in the code; here
`room` counts what is left of it. The ids on the way to an object leave the set of the seen ones on the
way back, so the set is passed down.
-/

set_option autoImplicit false

namespace Mineru.NativePdf

/-- `lopdf::ObjectId`. -/
abbrev ObjectId := Nat × Nat

/-- `lopdf::Object`. -/
inductive Object where
  | null
  | boolean (value : Bool)
  | number (value : Rat)
  | name (bytes : Text)
  | string (bytes : Text)
  | array (items : List Object)
  | dictionary (entries : List (Text × Object))
  | stream (dict : List (Text × Object)) (content : Option (List Text))
  | reference (id : ObjectId)

abbrev Dictionary := List (Text × Object)

/-- `lopdf::Document`. -/
structure Document where
  pages : List ObjectId
  pageContent : ObjectId → Option (List Text)
  getObject : ObjectId → Option Object

/-- `MAX_RESOURCE_DEPTH`. -/
def maxResourceDepth : Nat := 32

/-! ## Objects -/

def Object.asName : Object → Option Text
  | .name bytes => some bytes
  | _ => none

def Object.asDict : Object → Option Dictionary
  | .dictionary entries => some entries
  | _ => none

/-- `Dictionary::get`. -/
def Dictionary.get (dict : Dictionary) (key : Text) : Option Object := dict.lookup key

/-- `Stream::filters`, when there is a filter. -/
def filtersOk : Object → Bool
  | .name _ => true
  | .array items => items.all fun item => item.asName.isSome
  | _ => false

/-- Whether the operators have a `BI`. -/
def hasInlineImage (operators : List Text) : Bool := operators.contains (text "BI")

/-! ## The search -/

/-- `ImageScanCache`. -/
abbrev ImageScanCache := List (ObjectId × Option Bool)

/-- A part of the search, with the cache. -/
abbrev Scan := StateT ImageScanCache Option

/-- `resolve_dictionary`. -/
def resolveDictionary (document : Document) : Nat → Object → List ObjectId → Option Dictionary
  | room, .reference id, seenObjects =>
    if id ∈ seenObjects then none
    else do
      let object ← document.getObject id
      match room with
      | 0 => none
      | room + 1 => resolveDictionary document room object (id :: seenObjects)
  | _, .dictionary entries, _ => some entries
  | _, _, _ => none

/-- The closure of `form_stream_has_inline_image`. -/
def inlineImages (dict : Dictionary) (content : Option (List Text)) : Option Bool :=
  if (Dictionary.get dict (text "Filter")).any fun filter => !filtersOk filter then none
  else content.map hasInlineImage

/-- `form_stream_has_inline_image`. -/
def formStreamHasInlineImage (dict : Dictionary) (content : Option (List Text))
    (objectId : Option ObjectId) : Scan Bool := do
  let cache ← get
  match objectId.bind fun id => cache.lookup id with
  | some result => result
  | none => do
    let result := inlineImages dict content
    if let some id := objectId then modify fun cache => (id, result) :: cache
    result

/-- The `Subtype` of a stream, when it stands there as a name. -/
def subtype (dict : Dictionary) : Option Text := (Dictionary.get dict (text "Subtype")).bind Object.asName

mutual

/-- `resource_object_has_images`. -/
def resourceObjectHasImages (document : Document) : Nat → Object → List ObjectId → Scan Bool
  | room, object, seenObjects => do
    let resources ← resolveDictionary document room object seenObjects
    match Dictionary.get resources (text "XObject") with
    | none => pure false
    | some xobjects =>
      match room with
      | 0 => failure
      | room + 1 => do
        let entries ← resolveDictionary document room xobjects seenObjects
        entries.anyM fun entry => objectHasImage document room entry.2 seenObjects none

/-- `object_has_image`. -/
def objectHasImage (document : Document) : Nat → Object → List ObjectId → Option ObjectId → Scan Bool
  | room, .reference id, seenObjects, _ =>
    if id ∈ seenObjects then failure
    else do
      let object ← document.getObject id
      match room with
      | 0 => failure
      | room + 1 => objectHasImage document room object (id :: seenObjects) (some id)
  | room, .stream dict content, seenObjects, objectId =>
    if subtype dict = some (text "Image") then pure true
    else if subtype dict = some (text "Form") then do
      if ← formStreamHasInlineImage dict content objectId then pure true
      else
        match Dictionary.get dict (text "Resources") with
        | none => pure false
        | some resources =>
          match room with
          | 0 => failure
          | room + 1 => resourceObjectHasImages document room resources seenObjects
    else pure false
  | _, _, _, _ => failure

end

/-- `page_resources_have_images`. -/
def pageResourcesHaveImages (document : Document) : Nat → ObjectId → List ObjectId → Scan Bool
  | room, pageId, seenPages =>
    if pageId ∈ seenPages then failure
    else do
      let page ← (← document.getObject pageId).asDict
      match Dictionary.get page (text "Resources") with
      | some resources => resourceObjectHasImages document room resources []
      | none =>
        match Dictionary.get page (text "Parent") with
        | some (.reference parent) =>
          match room with
          | 0 => failure
          | room + 1 => pageResourcesHaveImages document room parent (pageId :: seenPages)
        | _ => pure false

/-- The turn of the loop over the pages. -/
def pageHasImages (document : Document) (pageId : ObjectId) : Scan Bool := do
  let operators ← document.pageContent pageId
  if hasInlineImage operators then pure true
  else pageResourcesHaveImages document maxResourceDepth pageId []

/-- `has_page_images_in_document`. -/
def hasPageImagesInDocument (document : Document) : Option Bool :=
  (document.pages.anyM (pageHasImages document)).run' []

end Mineru.NativePdf
