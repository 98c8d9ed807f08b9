import Mineru.LegacyOffice.Pdf

/-!
# Reading the pages of a document

What a reader of the file sees: it goes from the trailer to the catalog, from there to the page tree,
and reads the content stream of each page with the fonts of the page. `pieces` is what a text should
show, and `Paginated` says that a document shows it.
-/

set_option autoImplicit false

namespace Mineru.LegacyOffice

open Logic.Content (octets Shown)

/-! ## Pieces -/

/-- A list cut into parts of `n`, the last of them not longer. The empty list is one part. -/
def cut {α : Type} (n : Nat) (l : List α) : List (List α) :=
  if 0 < n ∧ n < l.length then l.take n :: cut n (l.drop n) else [l]
termination_by l.length
decreasing_by
  rw [List.length_drop]
  omega

/-- The pieces of a text: its lines in safe bytes, cut. -/
def pieces (markdown : Text) : List (List UInt8) :=
  (linesOf markdown).flatMap fun raw => cut pdfMaxLineBytes (raw.map safePdfByte)

/-! ## Objects -/

namespace Object

variable {ι : Type}

/-- An entry of a dictionary. -/
def entryOf (key : List UInt8) : Object ι → Option (Object ι)
  | .dictionary entries => entries.lookup key
  | _ => none

/-- An entry under an ASCII key. -/
def entry (key : String) (object : Object ι) : Option (Object ι) := object.entryOf (octets key)

/-- The name that an entry holds. -/
def nameAt (key : String) (object : Object ι) : Option (List UInt8) :=
  match object.entry key with
  | some (.name bytes) => some bytes
  | _ => none

/-- The dictionary has this `Type`. -/
def hasType (type : String) (object : Object ι) : Bool := object.nameAt "Type" = some (octets type)

/-- The reference that an entry holds. -/
def referenceAt (key : String) (object : Object ι) : Option ι :=
  match object.entry key with
  | some (.reference id) => some id
  | _ => none

end Object

section Reader

variable (L : Lopdf) (d : L.Document)

/-- The object behind an entry that holds a reference. -/
def follow (key : String) (object : Object L.ObjectId) : Option (Object L.ObjectId) :=
  (object.referenceAt key).bind (L.getObject d)

/-- The base font behind a name of the page's resources. -/
def baseFont (page : Object L.ObjectId) (name : List UInt8) : Option (List UInt8) := do
  let resources ← page.entry "Resources"
  let fonts ← resources.entry "Font"
  match fonts.entryOf name with
  | some (.reference id) =>
    let font ← L.getObject d id
    if font.hasType "Font" then font.nameAt "BaseFont" else none
  | _ => none

/-- What a page of the tree shows. -/
def readPage (pages : L.ObjectId) (kid : Object L.ObjectId) :
    Option (List (Shown (List UInt8))) :=
  match kid with
  | .reference id => do
    let page ← L.getObject d id
    if page.hasType "Page" ∧ page.referenceAt "Parent" = some pages then
      match follow L d "Contents" page with
      | some (.stream _ content) => Logic.Content.read (baseFont L d page) content
      | _ => none
    else none
  | _ => none

/-- What the pages show, and the `Count` of the page tree. -/
def readPages : Option (List (List (Shown (List UInt8))) × Int) := do
  let root ← L.trailer d "Root"
  let catalog ← L.getObject d root
  let pages ← catalog.referenceAt "Pages"
  let tree ← L.getObject d pages
  if catalog.hasType "Catalog" ∧ tree.hasType "Pages" then
    match tree.entry "Kids", tree.entry "Count" with
    | some (.array kids), some (.integer count) =>
      let shown ← kids.mapM (readPage L d pages)
      return (shown, count)
    | _, _ => none
  else none

/-- The document shows the pieces of the text, page by page. -/
structure Paginated (markdown : Text) (pages : List (List (Shown (List UInt8)))) : Prop where
  /-- The page tree is read whole, and counts its pages. -/
  read : readPages L d = some (pages, (pages.length : Int))
  /-- The strings shown are the pieces of the text, in order. -/
  shows : pages.flatten.map Shown.bytes = pieces markdown
  /-- No page is empty, and none has more than 50 pieces. -/
  filled : ∀ page ∈ pages, 1 ≤ page.length ∧ page.length ≤ pdfLinesPerPage
  /-- Down a page the heights decrease, and they stay positive. -/
  heights : ∀ page ∈ pages, page.Pairwise (fun a b => b.y < a.y) ∧ ∀ shown ∈ page, 0 < shown.y

end Reader

/-! ## The library, as documented -/

/-- What the code relies on: an identifier that was given out is not given out again, an object stays
where it was put until something is inserted under its identifier, and the trailer keeps its entry. -/
structure Lopdf.Lawful (L : Lopdf) (Given : L.Document → L.ObjectId → Prop) : Prop where
  newObjectId_fresh : ∀ d, ¬ Given d (L.newObjectId d).1
  newObjectId_given : ∀ d id, Given (L.newObjectId d).2 id ↔ id = (L.newObjectId d).1 ∨ Given d id
  newObjectId_get : ∀ d id, L.getObject (L.newObjectId d).2 id = L.getObject d id
  addObject_fresh : ∀ d object, ¬ Given d (L.addObject d object).1
  addObject_given : ∀ d object id,
    Given (L.addObject d object).2 id ↔ id = (L.addObject d object).1 ∨ Given d id
  addObject_get : ∀ d object id, L.getObject (L.addObject d object).2 id =
    if id = (L.addObject d object).1 then some object else L.getObject d id
  insertObject_given : ∀ d id object other, Given d id →
    (Given (L.insertObject d id object) other ↔ Given d other)
  insertObject_get : ∀ d id object other, L.getObject (L.insertObject d id object) other =
    if other = id then some object else L.getObject d other
  setTrailer_given : ∀ d key id other, Given (L.setTrailer d key id) other ↔ Given d other
  setTrailer_get : ∀ d key id other,
    L.getObject (L.setTrailer d key id) other = L.getObject d other
  setTrailer_trailer : ∀ d key id, L.trailer (L.setTrailer d key id) key = some id

end Mineru.LegacyOffice
