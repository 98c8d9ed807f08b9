import Mineru.Laws.NativePdf.Search

/-!
# What the search for page images overlooks

What the search cannot see is a form or image whose `Subtype` is a reference, and the resources of a
parent that is no reference. So a document with an image can be legible, and `Ok(false)` means that
there is none exactly if no image hides in this way.

What an image is, is stated without the search: an object that the content of a page can reach and
whose subtype, read through references, says so (`NoImages`). `Quiet.reaches` compares the two along
a path, from the page to the object. The condition is about the document, as the theorem is about
all of its paths.

Documents on which the search fails are not concerned. It answers with an error there and the page
is not taken for one without images.
-/

set_option autoImplicit false

namespace Mineru.NativePdf

/-! ## What a document shows -/

/-- A value of a dictionary, directly or by reference. -/
def Member (document : Document) (dict : Dictionary) (key : Text) (value : Object) : Prop :=
  ∃ object, Dictionary.get dict key = some object ∧ Resolves document object value

/-- The resources of a page or of what it inherits from. -/
inductive Effective (document : Document) : Dictionary → Object → Prop
  | own {page : Dictionary} {resources : Object} :
      Dictionary.get page (text "Resources") = some resources → Effective document page resources
  | inherited {page parent : Dictionary} {resources : Object} :
      Dictionary.get page (text "Resources") = none →
      Member document page (text "Parent") (.dictionary parent) →
      Effective document parent resources → Effective document page resources

/-- The objects of resources, and the resources of a form. -/
inductive Next (document : Document) : Node → Node → Prop
  | entry {object : Object} {dict entries : Dictionary} {entry : Text × Object} :
      Resolves document object (.dictionary dict) →
      Member document dict (text "XObject") (.dictionary entries) → entry ∈ entries →
      Next document (.resources object) (.object entry.2)
  | form {object resources : Object} {dict : Dictionary} {content : Option (List Text)} :
      Resolves document object (.stream dict content) →
      Member document dict (text "Subtype") (.name (text "Form")) →
      Dictionary.get dict (text "Resources") = some resources →
      Next document (.object object) (.resources resources)

abbrev Reaches (document : Document) : Node → Node → Prop := Relation.ReflTransGen (Next document)

/-- A node that can be read and shows no image: resources are a dictionary, and so is what they have of
objects; an object is a stream, no image, and a form has a plain content. -/
def Readable (document : Document) : Node → Prop
  | .resources object => ∃ dict, Resolves document object (.dictionary dict) ∧
    ∀ xobjects, Dictionary.get dict (text "XObject") = some xobjects →
      ∃ entries, Resolves document xobjects (.dictionary entries)
  | .object object => ∃ dict content, Resolves document object (.stream dict content) ∧
    ¬ Member document dict (text "Subtype") (.name (text "Image")) ∧
    (Member document dict (text "Subtype") (.name (text "Form")) → PlainContent content)

/-- The dictionary of a page. -/
def IsPage (document : Document) (pageId : ObjectId) (page : Dictionary) : Prop :=
  ∃ object, document.getObject pageId = some object ∧ Resolves document object (.dictionary page)

/-- Every page has a plain content, and everything that its effective resources reach can be read and
shows no image. -/
def NoImages (document : Document) : Prop :=
  ∀ pageId ∈ document.pages, PlainContent (document.pageContent pageId) ∧
    ∀ page resources, IsPage document pageId page → Effective document page resources →
      ∀ node, Reaches document (.resources resources) node → Readable document node

/-! ## What the search cannot see -/

/-- A stream whose `Subtype` is a reference. -/
def Opaque (document : Document) (object : Object) : Prop :=
  ∃ dict content id, Resolves document object (.stream dict content) ∧
    Dictionary.get dict (text "Subtype") = some (.reference id)

/-- Resources that are inherited over a `Parent` that is a dictionary itself. -/
inductive OverDirect (document : Document) : Dictionary → Object → Prop
  | here {page parent : Dictionary} {resources : Object} :
      Dictionary.get page (text "Resources") = none →
      Dictionary.get page (text "Parent") = some (.dictionary parent) →
      Effective document parent resources → OverDirect document page resources
  | above {page parent : Dictionary} {resources : Object} :
      Dictionary.get page (text "Resources") = none →
      Member document page (text "Parent") (.dictionary parent) →
      OverDirect document parent resources → OverDirect document page resources

/-- An image, or something that cannot be read, behind a `Subtype` that is a reference or a `Parent` that
is none. -/
def Hidden (document : Document) : Prop :=
  ∃ pageId ∈ document.pages, ∃ page resources node, IsPage document pageId page ∧
    ¬ Readable document node ∧
      ((OverDirect document page resources ∧ Reaches document (.resources resources) node) ∨
        (Effective document page resources ∧ ∃ object, Opaque document object ∧
          Reaches document (.resources resources) (.object object) ∧
          Reaches document (.object object) node))

section

variable {document : Document}

theorem Resolves.unique {object v w : Object} (first : Resolves document object v)
    (second : Resolves document object w) : v = w := by
  obtain ⟨_, first⟩ := first
  obtain ⟨_, second⟩ := second
  exact (first.unique second).2

/-- What is no reference is meant itself. -/
theorem Resolves.direct {object value : Object} (h : Resolves document object value)
    (direct : object.isReference = false) : object = value :=
  (Deref.unique (.here direct) h.choose_spec).2

theorem OverDirect.effective {page : Dictionary} {resources : Object}
    (byParent : OverDirect document page resources) : Effective document page resources := by
  induction byParent with
  | here none found rest => exact .inherited none ⟨_, found, 0, .here rfl⟩ rest
  | above none found _ ih => exact .inherited none found ih

/-- A quiet object is a quiet stream. -/
theorem Quiet.stream {room : Nat} {object : Object} (quiet : Quiet document room (.object object)) :
    ∃ dict content, Resolves document object (.stream dict content) ∧
      ∃ k, Quiet document k (.object (.stream dict content)) := by
  generalize place : Node.object object = node at quiet
  induction quiet generalizing object with
  | reference found _ ih =>
    cases place
    obtain ⟨dict, content, ⟨n, chain⟩, quiet⟩ := ih rfl
    exact ⟨dict, content, ⟨n + 1, .step found chain⟩, quiet⟩
  | @other room _ _ notImage notForm =>
    cases place
    exact ⟨_, _, ⟨0, .here rfl⟩, room, .other notImage notForm⟩
  | @form room _ _ isForm plain none =>
    cases place
    exact ⟨_, _, ⟨0, .here rfl⟩, room, .form isForm plain none⟩
  | @nested room _ _ _ isForm plain found rest =>
    cases place
    exact ⟨_, _, ⟨0, .here rfl⟩, room + 1, .nested isForm plain found rest⟩
  | empty | entries => cases place

/-- A `Subtype` that is no reference is what the search reads. -/
theorem subtype_of_member {dict : Dictionary} {name : Text}
    (direct : ∀ id, Dictionary.get dict (text "Subtype") ≠ some (.reference id))
    (member : Member document dict (text "Subtype") (.name name)) : subtype dict = some name := by
  obtain ⟨object, found, resolves⟩ := member
  have noReference : object.isReference = false := by
    cases object with
    | reference id => exact absurd found (direct id)
    | _ => rfl
  cases resolves.direct noReference
  rw [subtype, found]
  rfl

theorem plain_of_inlineImages {dict : Dictionary} {content : Option (List Text)}
    (h : inlineImages dict content = some false) : PlainContent content := by
  unfold inlineImages at h
  split at h
  · cases h
  · obtain ⟨operators, found, plain⟩ := Option.map_eq_some_iff.mp h
    exact ⟨operators, found, plain⟩

/-- What is quiet can be read, or its `Subtype` is a reference. -/
theorem Quiet.readable {room : Nat} {node : Node} (quiet : Quiet document room node) :
    Readable document node ∨ ∃ object, node = .object object ∧ Opaque document object := by
  cases node with
  | resources object =>
    refine .inl ?_
    cases quiet with
    | @empty _ n _ dict isDict _ none =>
      exact ⟨dict, ⟨n, isDict⟩, fun _ found => by rw [none] at found; cases found⟩
    | @entries _ n m _ _ dict entries isDict _ found isEntries _ _ =>
      refine ⟨dict, ⟨n, isDict⟩, fun xobjects again => ⟨entries, m, ?_⟩⟩
      rwa [← Option.some.inj (found.symm.trans again)]
  | object object =>
    obtain ⟨dict, content, isStream, k, quiet⟩ := quiet.stream
    by_cases direct : ∀ id, Dictionary.get dict (text "Subtype") ≠ some (.reference id)
    · refine .inl ⟨dict, content, isStream, fun member => ?_, fun member => ?_⟩
      · have isImage := subtype_of_member direct member
        cases quiet with
        | other notImage _ => exact notImage isImage
        | form isForm | nested isForm => exact form_not_image isForm isImage
      · have isForm := subtype_of_member direct member
        cases quiet with
        | other _ notForm => exact absurd isForm notForm
        | form _ plain | nested _ plain => exact plain_of_inlineImages plain
    · obtain ⟨id, isReference⟩ := not_forall_not.mp direct
      exact .inr ⟨object, rfl, dict, content, id, isStream, isReference⟩

/-- What a quiet node leads to is quiet, unless its `Subtype` is a reference. -/
theorem Quiet.next {room : Nat} {a b : Node} (quiet : Quiet document room a) (next : Next document a b) :
    (∃ k, Quiet document k b) ∨ ∃ object, a = .object object ∧ Opaque document object := by
  cases next with
  | @entry object dict entries entry isDict member mem =>
    obtain ⟨xobjects, found, isEntries⟩ := member
    refine .inl ?_
    cases quiet with
    | empty again _ none =>
      cases isDict.unique ⟨_, again⟩
      rw [none] at found
      cases found
    | @entries room _ _ _ _ _ _ again _ foundAgain entriesAgain _ all =>
      cases isDict.unique ⟨_, again⟩
      cases Option.some.inj (found.symm.trans foundAgain)
      cases isEntries.unique ⟨_, entriesAgain⟩
      exact ⟨room, all entry mem⟩
  | @form object resources dict content isStream member found =>
    obtain ⟨dict', content', again, k, quiet⟩ := quiet.stream
    cases isStream.unique again
    by_cases direct : ∀ id, Dictionary.get dict (text "Subtype") ≠ some (.reference id)
    · obtain ⟨j, -, quiet⟩ := Leads.form (subtype_of_member direct member) found k quiet
      exact .inl ⟨j, quiet⟩
    · obtain ⟨id, isReference⟩ := not_forall_not.mp direct
      exact .inr ⟨object, rfl, dict, content, id, isStream, isReference⟩

/-- What a quiet node reaches can be read, or it is reached over a `Subtype` that is a reference. -/
theorem Quiet.reaches {room : Nat} {a node : Node} (quiet : Quiet document room a)
    (reaches : Reaches document a node) : Readable document node ∨ ∃ object, Opaque document object ∧
      Reaches document a (.object object) ∧ Reaches document (.object object) node := by
  induction reaches using Relation.ReflTransGen.head_induction_on generalizing room with
  | refl =>
    rcases quiet.readable with readable | ⟨object, rfl, isOpaque⟩
    · exact .inl readable
    · exact .inr ⟨object, isOpaque, .refl, .refl⟩
  | head next rest ih =>
    rcases quiet.next next with ⟨k, quiet⟩ | ⟨object, rfl, isOpaque⟩
    · rcases ih quiet with readable | ⟨object, isOpaque, before, behind⟩
      · exact .inl readable
      · exact .inr ⟨object, isOpaque, .head next before, behind⟩
    · exact .inr ⟨object, isOpaque, .refl, .head next rest⟩

/-- The effective resources of a quiet page are quiet, or inherited over a direct parent. -/
theorem PageQuiet.effective {room : Nat} {pageId : ObjectId} (quiet : PageQuiet document room pageId)
    {page : Dictionary} {resources : Object} (isPage : IsPage document pageId page)
    (effective : Effective document page resources) :
    (∃ k, Quiet document k (.resources resources)) ∨ OverDirect document page resources := by
  have same {pageId : ObjectId} {page other : Dictionary} (isPage : IsPage document pageId page)
      (found : document.getObject pageId = some (.dictionary other)) : page = other := by
    obtain ⟨object, again, resolves⟩ := isPage
    cases Option.some.inj (found.symm.trans again)
    exact (Object.dictionary.inj (resolves.direct rfl)).symm
  induction quiet generalizing page with
  | @own room pageId other resources' found isResources quiet =>
    obtain rfl := same isPage found
    cases effective with
    | own again =>
      cases Option.some.inj (isResources.symm.trans again)
      exact .inl ⟨room, quiet⟩
    | inherited none _ _ => rw [isResources] at none; cases none
  | @bare room pageId other found none noReference =>
    obtain rfl := same isPage found
    cases effective with
    | own isResources => rw [none] at isResources; cases isResources
    | inherited _ member rest =>
      obtain ⟨object, isParent, resolves⟩ := member
      have direct : object.isReference = false := by
        cases object with
        | reference id => exact absurd isParent (noReference id)
        | _ => rfl
      cases resolves.direct direct
      exact .inr (.here none isParent rest)
  | @inherited room pageId parent other found none isParent _ ih =>
    obtain rfl := same isPage found
    cases effective with
    | own isResources => rw [none] at isResources; cases isResources
    | inherited _ member rest =>
      have isMember := member
      obtain ⟨object, again, n, chain⟩ := member
      cases Option.some.inj (isParent.symm.trans again)
      cases chain with
      | step foundParent chain =>
        rcases ih ⟨_, foundParent, _, chain⟩ rest with quiet | byParent
        · exact .inl quiet
        · exact .inr (.above none isMember byParent)

end

/-- **Where the search returns `Ok(false)` there is no image, exactly if none hides** behind a
`Subtype` that is a reference or a `Parent` that is none, on a document that is legible
otherwise. -/
theorem no_images_iff (document : Document) :
    (hasPageImagesInDocument document = some false → NoImages document) ↔
      ¬ (Legible document ∧ Hidden document) := by
  rw [search_iff]
  constructor
  · rintro claim ⟨legible, pageId, mem, page, resources, node, isPage, unreadable, hidden⟩
    have shows := (claim legible pageId mem).2 page resources isPage
    rcases hidden with ⟨byParent, reaches⟩ | ⟨effective, object, -, before, behind⟩
    · exact unreadable (shows byParent.effective node reaches)
    · exact unreadable (shows effective node (before.trans behind))
  · intro visible legible pageId mem
    obtain ⟨plain, quiet⟩ := legible pageId mem
    refine ⟨plain, fun page resources isPage effective node reaches => ?_⟩
    by_contra unreadable
    refine visible ⟨legible, pageId, mem, page, resources, node, isPage, unreadable, ?_⟩
    rcases quiet.effective isPage effective with ⟨k, quiet⟩ | byParent
    · rcases quiet.reaches reaches with readable | hidden
      · exact absurd readable unreadable
      · exact .inr ⟨effective, hidden⟩
    · exact .inl ⟨byParent, reaches⟩

/-- A page with one image, whose `Subtype` is a reference to the name. -/
def opaqueImage : Document where
  pages := [(1, 0)]
  pageContent _ := some []
  getObject
    | (1, 0) => some (.dictionary [(text "Resources",
        .dictionary [(text "XObject", .dictionary [(text "Im0", .reference (2, 0))])])])
    | (2, 0) => some (.stream [(text "Subtype", .reference (3, 0))] none)
    | (3, 0) => some (.name (text "Image"))
    | _ => none

/-- An image whose subtype is a reference is not seen. -/
theorem image_overlooked :
    hasPageImagesInDocument opaqueImage = some false ∧ ¬ NoImages opaqueImage := by
  refine ⟨by decide +kernel, fun clean => ?_⟩
  have inPage : (text "Im0", Object.reference (2, 0)) ∈ [(text "Im0", Object.reference (2, 0))] :=
    List.mem_singleton_self _
  have reaches : Next opaqueImage (.resources (.dictionary
      [(text "XObject", .dictionary [(text "Im0", .reference (2, 0))])])) (.object (.reference (2, 0))) :=
    .entry ⟨0, .here rfl⟩ ⟨_, rfl, 0, .here rfl⟩ inPage
  obtain ⟨dict, content, isStream, noImage, -⟩ := (clean (1, 0) (List.mem_singleton_self _)).2 _ _
    ⟨_, rfl, 0, .here rfl⟩ (.own rfl) _ (.single reaches)
  cases isStream.unique ⟨1, .step rfl (.here rfl)⟩
  exact noImage ⟨_, rfl, 1, .step rfl (.here rfl)⟩

end Mineru.NativePdf
