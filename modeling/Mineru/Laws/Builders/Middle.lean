import Mineru.Builders.Middle
import Mineru.Laws.Builders.Paras
import Mineru.Laws.Builders.Prepare

/-!
# What the middle document says of a node

However a value is completed, it says the type and the box of its node. The document has one page
for each prepared page, in the order of their indexes.

A value is put together member by member, and `Describes` is what all further members leave true
(`Describes.setIf`). Nothing else about a value is used by the preview, so the other members are not
described: the lines, the children of a visual, what a list holds.

A document that is refused, for a deadline or for pages out of order, has no pages.
-/

set_option autoImplicit false

namespace Mineru.Builders

open Logic

/-- A member that is set is found, and hides no other one. -/
theorem find_setMember (key : String) (k : Text) (v : Value) (members : List (Text × Value)) :
    Value.find (setMember key v members) k =
      if k = text key then some v else Value.find members k :=
  Value.find_insert (text key) k v members

theorem find_setMemberIf_ne {c : Prop} [Decidable c] {key : String} {k : Text} {v : Value}
    {members : List (Text × Value)} (other : k ≠ text key) :
    Value.find (setMemberIf c key v members) k = Value.find members k := by
  unfold setMemberIf
  split
  · rw [find_setMember, if_neg other]
  · rfl

/-- The value is an object that says a type and a box. -/
structure Describes (kind : String) (bbox : Bbox) (members : List (Text × Value)) : Prop where
  kind : Value.find members (text "type") = some (stringValue kind)
  bbox : Value.find members (text "bbox") = some (bboxValue bbox)

theorem Describes.setIf {kind : String} {bbox : Bbox} {members : List (Text × Value)}
    (h : Describes kind bbox members) (c : Prop) [Decidable c] (key : String) (v : Value)
    (notType : text "type" ≠ text key) (notBox : text "bbox" ≠ text key) :
    Describes kind bbox (setMemberIf c key v members) where
  kind := by rw [find_setMemberIf_ne notType, h.kind]
  bbox := by rw [find_setMemberIf_ne notBox, h.bbox]

theorem blockValue_describes (decimal : Decimal) (block : Block) (kind : Option String) :
    ∃ members, blockValue decimal block kind = .object members ∧
      Describes (kind.getD block.kind) block.bbox members := by
  refine ⟨_, rfl, ?_⟩
  have plain : ∀ (angle lines index : Value), Describes (kind.getD block.kind) block.bbox [
      (text "bbox", bboxValue block.bbox), (text "type", stringValue (kind.getD block.kind)),
      (text "angle", angle), (text "lines", lines), (text "index", index)] :=
    fun angle lines index => ⟨rfl, rfl⟩
  have merged : ∀ members, Describes (kind.getD block.kind) block.bbox members →
      Describes (kind.getD block.kind) block.bbox (block.mergePrev.elim members fun mergePrev =>
        setMemberIf (block.kind = "text") "merge_prev" (.bool mergePrev) members) := by
    intro members h
    cases block.mergePrev with
    | none => exact h
    | some mergePrev => exact h.setIf _ _ _ (by decide) (by decide)
  have deleted := (merged _ (plain (intValue block.angle)
    (.array (block.lines.map (lineValue block))) (intValue block.index))).setIf
    (block.linesDeleted = true) "lines_deleted" (.bool true) (by decide) (by decide)
  cases block.cellMerge with
  | none => exact deleted
  | some cells => exact deleted.setIf _ _ _ (by decide) (by decide)

theorem nodeValue_describes (decimal : Decimal) (node : Node) :
    ∃ members, nodeValue decimal node = .object members ∧
      Describes (nodeType node) (nodeBbox node) members := by
  cases node with
  | leaf block => exact blockValue_describes decimal block none
  | list marker items => exact ⟨_, rfl, rfl, rfl⟩
  | visual kind body captions footnotes subType cellMerge subImages =>
    refine ⟨_, rfl, ?_⟩
    have typed : Describes kind body.bbox (setMemberIf ((kind = "image" ∨ kind = "chart") ∧
        body.kind ≠ "image_block_body" ∧ subType.getD "" ≠ "") "sub_type" (optionValue subType) [
          (text "type", stringValue kind),
          (text "bbox", bboxValue body.bbox),
          (text "blocks", .array (visualChildren decimal kind body captions footnotes)),
          (text "index", intValue body.index)]) :=
      Describes.setIf ⟨rfl, rfl⟩ _ _ _ (by decide) (by decide)
    cases cellMerge with
    | none => exact typed.setIf _ _ _ (by decide) (by decide)
    | some cells =>
      exact (typed.setIf _ _ _ (by decide) (by decide)).setIf _ _ _ (by decide) (by decide)
  | tombstone kind bbox angle index subType =>
    refine ⟨_, rfl, ?_⟩
    split
    · constructor
      · rw [find_setMember, find_setMember, if_neg (by decide), if_neg (by decide)]
        rfl
      · rw [find_setMember, find_setMember, if_neg (by decide), if_neg (by decide)]
        rfl
    · exact ⟨rfl, rfl⟩

/-! ## The pages -/

theorem mergeDocumentParas_length {r : Renderer} {expired : Nat → Bool} {tables : TableMerge}
    {tableEnable : Bool} {paras after : Paras}
    (is : mergeDocumentParas r expired tables.run tableEnable paras = .ok after) :
    after.length = paras.length := by
  unfold mergeDocumentParas at is
  obtain ⟨now, texts, is⟩ := bind_ok is
  obtain ⟨next, lists, is⟩ := bind_ok is
  have first := allTexts_merged r expired paras
  rw [texts] at first
  have second := allLists_merged expired now
  rw [lists] at second
  have length : next.length = paras.length :=
    (Merged.length second).trans (Merged.length first)
  split at is
  · cases is
    exact length
  · exact (tables.length next after is).trans length

/-- The indexes of the pages increase, and are above the previous one. -/
def Increasing : Option Nat → List OfficialPreparedPage → Prop
  | _, [] => True
  | previous, page :: rest =>
    (∀ last ∈ previous, last < page.slicePageIdx) ∧ Increasing (some page.slicePageIdx) rest

/-- The pages of a document that is accepted come in the order of their indexes, without a
repetition. -/
theorem checkIncreasing_increasing {expired : Nat → Bool} {previous : Option Nat} {check : Nat}
    {pages : List OfficialPreparedPage}
    (is : checkIncreasing expired previous check pages = .ok ()) : Increasing previous pages := by
  induction pages generalizing previous check with
  | nil => trivial
  | cons page rest ih =>
    unfold checkIncreasing at is
    obtain ⟨⟨⟩, -, is⟩ := bind_ok is
    split at is
    · cases is
    · next above =>
      refine ⟨?_, ih is⟩
      intro last mem
      by_contra low
      apply above
      rw [Option.any_eq_true]
      exact ⟨last, mem, decide_eq_true (not_lt.mp low)⟩

/-- The pages of the document, one for each prepared page. -/
theorem middlePages_eq {decimal : Decimal} {expired : Nat → Bool} {check : Nat}
    {pairs : List (OfficialPreparedPage × List Node)} {values : List Value}
    (is : middlePages decimal expired check pairs = .ok values) :
    values = pairs.map fun pair => middlePage decimal pair.1 pair.2 := by
  induction pairs generalizing check values with
  | nil =>
    cases is
    rfl
  | cons pair rest ih =>
    unfold middlePages at is
    obtain ⟨⟨⟩, -, is⟩ := bind_ok is
    obtain ⟨others, emitted, is⟩ := bind_ok is
    cases is
    rw [List.map_cons, ih emitted]

/-- The document has a page for each prepared page, and these are in order. -/
theorem finalizeOfficialDocument_pages {decimal : Decimal} {r : Renderer} {tables : TableMerge}
    {tableEnable : Bool} {increasing merging emitting : Nat → Bool}
    {pages : List OfficialPreparedPage} {middle : List Value}
    (is : finalizeOfficialDocument decimal r tables tableEnable increasing merging emitting pages =
      .ok middle) :
    Increasing none pages ∧ ∃ paras : Paras, paras.length = pages.length ∧
      middle = (pages.zip paras).map fun pair => middlePage decimal pair.1 pair.2 := by
  unfold finalizeOfficialDocument at is
  obtain ⟨⟨⟩, order, is⟩ := bind_ok is
  obtain ⟨paras, merged, is⟩ := bind_ok is
  refine ⟨checkIncreasing_increasing order, paras, ?_, middlePages_eq is⟩
  exact (mergeDocumentParas_length merged).trans (List.length_map _)

end Mineru.Builders
