import Mineru.Laws.LegacyOffice.Content

/-!
# What a reader of the document finds

An object stays in the document while others are added (`Keeps`), so a page that was stored is still
there at the end (`HoldsPage`). The finished document is read from its trailer down to the strings
of each page (`paginated_of`).

The reader is a definition of its own, which follows the page tree as a viewer does: the catalog,
the kids, the contents of each page. It looks at objects and not at bytes. That saving and loading a
document gives the same objects back is what the PDF library is trusted with.
-/

set_option autoImplicit false

namespace Mineru.LegacyOffice

open Logic.Content (octets Shown)

variable {L : Lopdf} {Given : L.Document → L.ObjectId → Prop} {pages font : L.ObjectId}
  {full : List (List (List UInt8))}

/-! ## Stored objects -/

/-- What was given out and put into `d` is in `d'` as it was. -/
def Keeps (Given : L.Document → L.ObjectId → Prop) (d d' : L.Document) : Prop :=
  ∀ id, Given d id → Given d' id ∧ L.getObject d' id = L.getObject d id

/-- The object is in the document, apart from the root of the page tree. -/
structure Stored (Given : L.Document → L.ObjectId → Prop) (pages : L.ObjectId) (d : L.Document)
    (id : L.ObjectId) (object : Object L.ObjectId) : Prop where
  given : Given d id
  apart : id ≠ pages
  get : L.getObject d id = some object

theorem Stored.keeps {d d' : L.Document} {id : L.ObjectId} {object : Object L.ObjectId}
    (h : Stored Given pages d id object) (keeps : Keeps Given d d') :
    Stored Given pages d' id object :=
  ⟨(keeps id h.given).1, h.apart, (keeps id h.given).2.trans h.get⟩

theorem addObject_keeps (lawful : L.Lawful Given) (d : L.Document) (object : Object L.ObjectId) :
    Keeps Given d (L.addObject d object).2 := fun id given => by
  have other : id ≠ (L.addObject d object).1 := by
    rintro rfl
    exact lawful.addObject_fresh d object given
  refine ⟨(lawful.addObject_given d object id).mpr (.inr given), ?_⟩
  rw [lawful.addObject_get, if_neg other]

theorem addObject_stored (lawful : L.Lawful Given) {d : L.Document} (root : Given d pages)
    (object : Object L.ObjectId) :
    Stored Given pages (L.addObject d object).2 (L.addObject d object).1 object where
  given := (lawful.addObject_given d object _).mpr (.inl rfl)
  apart := by
    intro same
    exact lawful.addObject_fresh d object (same ▸ root)
  get := by rw [lawful.addObject_get, if_pos rfl]

/-- The kid is a page of the tree whose stream holds these pieces. -/
def HoldsPage (Given : L.Document → L.ObjectId → Prop) (pages font : L.ObjectId) (d : L.Document)
    (kid : Object L.ObjectId) (page : List (List UInt8)) : Prop :=
  ∃ id contents, kid = .reference id ∧
    Stored Given pages d id (pageObject pages font contents) ∧
    Stored Given pages d contents (.stream [] (contentOf page))

theorem HoldsPage.keeps {d d' : L.Document} {kid : Object L.ObjectId} {page : List (List UInt8)}
    (h : HoldsPage Given pages font d kid page) (keeps : Keeps Given d d') :
    HoldsPage Given pages font d' kid page := by
  obtain ⟨id, contents, is, object, stream⟩ := h
  exact ⟨id, contents, is, object.keeps keeps, stream.keeps keeps⟩

/-- A page has pieces, not too many, and they are printable. -/
structure Filled (page : List (List UInt8)) : Prop where
  some : page ≠ []
  short : page.length ≤ pdfLinesPerPage
  plain : ∀ piece ∈ page, Printable piece

/-! ## Entries -/

section Entries

variable {ι : Type} (key : String) (value : Object ι) (rest : List (String × Object ι))

theorem entry_here : (Object.dict ((key, value) :: rest)).entry key = some value :=
  List.lookup_cons_self

theorem entry_later {other : String} (differ : octets key ≠ octets other) :
    (Object.dict ((other, value) :: rest)).entry key = (Object.dict rest).entry key := by
  unfold Object.dict Object.entry Object.entryOf
  dsimp only
  rw [List.map_cons, List.lookup_cons, beq_eq_false_iff_ne.mpr differ]

/-- The type of a dictionary comes first. -/
theorem hasType_dict (type : String) :
    (Object.dict (("Type", .named type) :: rest)).hasType type = true := by
  unfold Object.hasType Object.nameAt
  rw [entry_here]
  exact decide_eq_true rfl

end Entries

/-! ## Pages -/

/-- The font of the text. -/
def helvetica : List UInt8 := octets "Helvetica"

theorem pageObject_parent (contents : L.ObjectId) :
    (pageObject pages font contents).referenceAt "Parent" = some pages := by
  unfold pageObject Object.referenceAt
  rw [entry_later _ _ _ (by decide), entry_here]

theorem pageObject_contents (contents : L.ObjectId) :
    (pageObject pages font contents).referenceAt "Contents" = some contents := by
  unfold pageObject Object.referenceAt
  rw [entry_later _ _ _ (by decide), entry_later _ _ _ (by decide), entry_later _ _ _ (by decide),
    entry_later _ _ _ (by decide), entry_here]

theorem baseFont_page {d : L.Document} (typeface : Stored Given pages d font fontObject)
    (contents : L.ObjectId) :
    baseFont L d (pageObject pages font contents) (octets "F1") = some helvetica := by
  have resources : (pageObject pages font contents).entry "Resources" =
      some (.dict [("Font", .dict [("F1", .reference font)])]) := by
    unfold pageObject
    rw [entry_later _ _ _ (by decide), entry_later _ _ _ (by decide),
      entry_later _ _ _ (by decide), entry_here]
  have named : (Object.dict [("F1", Object.reference font)]).entryOf (octets "F1") =
      some (.reference font) := entry_here _ _ _
  have base : (fontObject : Object L.ObjectId).nameAt "BaseFont" = some helvetica := by
    unfold fontObject Object.nameAt
    rw [entry_later _ _ _ (by decide), entry_later _ _ _ (by decide), entry_here]
    rfl
  have type : (fontObject : Object L.ObjectId).hasType "Font" = true := hasType_dict _ _
  unfold baseFont
  simp only [Option.bind_eq_bind]
  rw [resources, Option.bind_some, entry_here, Option.bind_some, named]
  dsimp only
  rw [typeface.get, Option.bind_some, if_pos type, base]

/-- A page that is held is read as its pieces. -/
theorem HoldsPage.read {d : L.Document} {kid : Object L.ObjectId} {page : List (List UInt8)}
    (h : HoldsPage Given pages font d kid page)
    (typeface : Stored Given pages d font fontObject) (filled : Filled page) :
    readPage L d pages kid = some (page.mapIdx (shownLine helvetica)) := by
  obtain ⟨id, contents, rfl, object, stream⟩ := h
  have shape : (pageObject pages font contents).hasType "Page" = true ∧
      (pageObject pages font contents).referenceAt "Parent" = some pages :=
    ⟨hasType_dict _ _, pageObject_parent contents⟩
  have content : follow L d "Contents" (pageObject pages font contents) =
      some (.stream [] (contentOf page)) := by
    unfold follow
    rw [pageObject_contents, Option.bind_some, stream.get]
  unfold readPage
  dsimp only
  rw [object.get, Option.bind_eq_bind, Option.bind_some, if_pos shape, content]
  exact read_contentOf (baseFont_page typeface contents) filled.short filled.plain

theorem read_kids {d : L.Document} {kids : List (Object L.ObjectId)}
    (holds : List.Forall₂ (HoldsPage Given pages font d) kids full)
    (typeface : Stored Given pages d font fontObject) (filled : ∀ page ∈ full, Filled page) :
    kids.mapM (readPage L d pages) =
      some (full.map fun page => page.mapIdx (shownLine helvetica)) := by
  induction holds with
  | nil => rfl
  | @cons kid page kids full here _ ih =>
    rw [List.mapM_cons, here.read typeface (filled page List.mem_cons_self),
      ih fun other mem => filled other (List.mem_cons_of_mem page mem)]
    rfl

/-- Down a page the heights decrease by 14 each, from 756 to at least 70. -/
theorem heights_of {φ : Type} (face : φ) {page : List (List UInt8)}
    (short : page.length ≤ pdfLinesPerPage) :
    (page.mapIdx (shownLine face)).Pairwise (fun a b => b.y < a.y) ∧
      ∀ shown ∈ page.mapIdx (shownLine face), 0 < shown.y := by
  constructor
  · rw [List.pairwise_iff_getElem]
    intro i j hi hj less
    rw [List.getElem_mapIdx, List.getElem_mapIdx]
    change 756 - (j : Int) * 14 < 756 - (i : Int) * 14
    omega
  · intro shown mem
    obtain ⟨i, hi, rfl⟩ := List.mem_mapIdx.mp mem
    have few : page.length ≤ 50 := short
    change 0 < 756 - (i : Int) * 14
    omega

theorem bytes_mapIdx {φ : Type} (face : φ) (page : List (List UInt8)) :
    (page.mapIdx (shownLine face)).map Shown.bytes = page := by
  apply List.ext_getElem
  · rw [List.length_map, List.length_mapIdx]
  · intro i hi hi'
    rw [List.getElem_map, List.getElem_mapIdx]
    rfl

theorem bytes_pages {φ : Type} (face : φ) (full : List (List (List UInt8))) :
    (full.map fun page => page.mapIdx (shownLine face)).flatten.map Shown.bytes = full.flatten := by
  rw [List.map_flatten, List.map_map]
  have each : ∀ page ∈ full,
      (List.map Shown.bytes ∘ fun page => page.mapIdx (shownLine face)) page = page :=
    fun page _ => bytes_mapIdx face page
  rw [List.map_congr_left each, List.map_id']

/-! ## The finished document -/

theorem Stored.inserted (lawful : L.Lawful Given) {d : L.Document} (root : Given d pages)
    {id : L.ObjectId} {object : Object L.ObjectId} (h : Stored Given pages d id object)
    (tree : Object L.ObjectId) : Stored Given pages (L.insertObject d pages tree) id object where
  given := (lawful.insertObject_given d pages tree id root).mpr h.given
  apart := h.apart
  get := by rw [lawful.insertObject_get, if_neg h.apart, h.get]

theorem HoldsPage.inserted (lawful : L.Lawful Given) {d : L.Document} (root : Given d pages)
    {kid : Object L.ObjectId} {page : List (List UInt8)} (h : HoldsPage Given pages font d kid page)
    (tree : Object L.ObjectId) :
    HoldsPage Given pages font (L.insertObject d pages tree) kid page := by
  obtain ⟨id, contents, is, object, stream⟩ := h
  exact ⟨id, contents, is, object.inserted lawful root tree, stream.inserted lawful root tree⟩

/-- The document with its page tree, its catalog and its trailer. -/
def finished (L : Lopdf) (d : L.Document) (pages : L.ObjectId) (kids : List (Object L.ObjectId))
    (count : Int) : L.Document :=
  let added := L.addObject (L.insertObject d pages (pagesObject kids count)) (catalogObject pages)
  L.setTrailer added.2 "Root" added.1

/-- The finished document shows the pages, each with its pieces at heights that go down by 14. -/
theorem paginated_of (lawful : L.Lawful Given) {d : L.Document} {kids : List (Object L.ObjectId)}
    {markdown : Text} (root : Given d pages) (typeface : Stored Given pages d font fontObject)
    (holds : List.Forall₂ (HoldsPage Given pages font d) kids full)
    (filled : ∀ page ∈ full, Filled page) (shows : full.flatten = pieces markdown) :
    Paginated L (finished L d pages kids full.length) markdown
      (full.map fun page => page.mapIdx (shownLine helvetica)) := by
  let tree : Object L.ObjectId := pagesObject kids full.length
  let di := L.insertObject d pages tree
  let dc := (L.addObject di (catalogObject pages)).2
  let catalog := (L.addObject di (catalogObject pages)).1
  let df := L.setTrailer dc "Root" catalog
  have rooted : Given di pages := (lawful.insertObject_given d pages tree pages root).mpr root
  have later : Keeps Given di df := fun id given => by
    have kept := addObject_keeps lawful di (catalogObject pages) id given
    exact ⟨(lawful.setTrailer_given dc "Root" catalog id).mpr kept.1,
      (lawful.setTrailer_get dc "Root" catalog id).trans kept.2⟩
  have treeAt : L.getObject df pages = some tree := by
    rw [(later pages rooted).2, lawful.insertObject_get, if_pos rfl]
  have catalogAt : L.getObject df catalog = some (catalogObject pages) := by
    rw [lawful.setTrailer_get, lawful.addObject_get, if_pos rfl]
  have leads : (catalogObject pages : Object L.ObjectId).referenceAt "Pages" = some pages := by
    unfold catalogObject Object.referenceAt
    rw [entry_later _ _ _ (by decide), entry_here]
  have kidsAt : tree.entry "Kids" = some (.array kids) := by
    change (pagesObject kids _).entry "Kids" = _
    unfold pagesObject
    rw [entry_later _ _ _ (by decide), entry_here]
  have countAt : tree.entry "Count" = some (.integer full.length) := by
    change (pagesObject kids _).entry "Count" = _
    unfold pagesObject
    rw [entry_later _ _ _ (by decide), entry_later _ _ _ (by decide), entry_here]
  have types : (catalogObject pages : Object L.ObjectId).hasType "Catalog" = true ∧
      tree.hasType "Pages" = true := ⟨hasType_dict _ _, hasType_dict _ _⟩
  have shown : kids.mapM (readPage L df pages) =
      some (full.map fun page => page.mapIdx (shownLine helvetica)) :=
    read_kids (holds.imp fun kid page here => (here.inserted lawful root tree).keeps later)
      ((typeface.inserted lawful root tree).keeps later) filled
  constructor
  · change readPages L df = _
    unfold readPages
    simp only [Option.bind_eq_bind]
    rw [lawful.setTrailer_trailer, Option.bind_some, catalogAt, Option.bind_some, leads,
      Option.bind_some, treeAt, Option.bind_some, if_pos types, kidsAt, countAt]
    dsimp only
    rw [shown, List.length_map]
    rfl
  · rw [bytes_pages, shows]
  · intro page mem
    obtain ⟨before, listed, rfl⟩ := List.mem_map.mp mem
    rw [List.length_mapIdx]
    exact ⟨List.length_pos_iff.mpr (filled before listed).some, (filled before listed).short⟩
  · intro page mem
    obtain ⟨before, listed, rfl⟩ := List.mem_map.mp mem
    exact heights_of helvetica (filled before listed).short

end Mineru.LegacyOffice
