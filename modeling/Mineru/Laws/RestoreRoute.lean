import Mineru.RestoreRoute

/-!
# The two tests for a native document agree

A visitor that folds over the members of an object ends with what the document holds under the keys
it wants, whatever came before under the same keys: each visitor has one law, `Reads`, and the law
of an outer visitor rests on the ones of the visitors it calls.

The streaming test never builds the document. `foldlM_reads` is the induction over the members of an
object: a visitor that has seen a beginning of them holds what the document built so far would hold.
A key that comes again replaces what was there, in both.

Texts are taken as their members, in the order in which a JSON reader meets them. How bytes become
such a text is left to the reader.
-/

set_option autoImplicit false

namespace Mineru.RestoreRoute

/-- The visitor makes of a text what `view` makes of its document. -/
def Reads {α : Type} (v : Visitor α) (view : Value → α) : Prop :=
  ∀ (depth : Nat) (json : Json) (value : Value), json.toValueAt depth = .ok value →
    deserializeAny v depth json = .ok (view value)

/-- What the document of an object's members shows under their keys. -/
def looksUp {α : Type} (view : (Text → Option Value) → α) (value : Value) : α :=
  match value with
  | .object members => view (Value.find members)
  | _ => view fun _ => none

/-- A member that comes last under its key. -/
def overwrite (found : Text → Option Value) (key : Text) (value : Value) (k : Text) :
    Option Value :=
  if k = key then some value else found k

/-- A fold over members keeps up with the document that they build. -/
theorem foldlM_reads {α : Type} {depth : Nat} {member : α → Text × Json → Except DeError α}
    (view : (Text → Option Value) → α)
    (step : ∀ found key json value, json.toValueAt depth = .ok value →
      member (view found) (key, json) = .ok (view (overwrite found key value)))
    {members : List (Text × Json)} {found result : List (Text × Value)}
    (built : Json.membersAt depth found members = .ok result) :
    members.foldlM member (view (Value.find found)) = .ok (view (Value.find result)) := by
  induction members generalizing found with
  | nil =>
    rw [Json.membersAt] at built
    cases built
    rfl
  | cons m rest ih =>
    obtain ⟨key, json⟩ := m
    rw [Json.membersAt] at built
    cases inner : json.toValueAt depth with
    | error e =>
      rw [inner] at built
      cases built
    | ok value =>
      rw [inner] at built
      have update : overwrite (Value.find found) key value =
          Value.find (Value.insert key value found) := by
        funext k
        rw [Value.find_insert]
        rfl
      rw [List.foldlM_cons, step _ _ _ _ inner, update]
      exact ih built

/-- A visitor that defaults on everything but objects, and folds over their members. -/
theorem reads_of_members {α : Type} {v : Visitor α}
    {member : Nat → α → Text × Json → Except DeError α} (view : (Text → Option Value) → α)
    (visits : v = { v.defaultScalars (view fun _ => none) with
      visitStr := fun _ => .ok (view fun _ => none)
      visitSeq := fun _ _ => .ok (view fun _ => none)
      visitMap := fun depth members => members.foldlM (member depth) (view fun _ => none) })
    (step : ∀ depth found key json value, json.toValueAt depth = .ok value →
      member depth (view found) (key, json) = .ok (view (overwrite found key value))) :
    Reads v (looksUp view) := by
  intro depth json value built
  rw [visits]
  cases json with
  | null | bool | number | string => cases built; rfl
  | array elements =>
    obtain ⟨inner, values, deeper, -, rfl⟩ := Json.toValueAt_array built
    simp only [deserializeAny, deeper]
    rfl
  | object members =>
    obtain ⟨inner, found, deeper, all, rfl⟩ := Json.toValueAt_object built
    simp only [deserializeAny, deeper]
    exact foldlM_reads view (step inner) all

/-! ## The visitors -/

/-- A string is read as it is, and everything else as no string. -/
theorem optionalString_reads : Reads optionalStringVisitor Value.asStr := by
  intro depth json value built
  cases json with
  | null | bool | number | string => cases built; rfl
  | array elements =>
    obtain ⟨inner, values, deeper, -, rfl⟩ := Json.toValueAt_array built
    simp only [deserializeAny, deeper]
    rfl
  | object members =>
    obtain ⟨inner, found, deeper, -, rfl⟩ := Json.toValueAt_object built
    simp only [deserializeAny, deeper]
    rfl

/-- The name that a producer has among its members. -/
def producerView (found : Text → Option Value) : ProducerHint :=
  ⟨(found (text "name")).bind Value.asStr⟩

theorem producer_reads : Reads producerVisitor (looksUp producerView) := by
  refine reads_of_members producerView rfl ?_
  intro depth found key json value built
  unfold producerMember producerView overwrite
  by_cases name : key = text "name"
  · rw [if_pos name, if_pos name.symm, optionalString_reads depth json value built]
    rfl
  · rw [if_neg name, if_neg (Ne.symm name)]

/-- What the metadata has among its members. -/
def metadataView (found : Text → Option Value) : MetadataHint :=
  ⟨(found (text "file_suffix")).bind Value.asStr,
    (found (text "producer")).bind fun v => (looksUp producerView v).name⟩

theorem producer_ne_suffix : text "producer" ≠ text "file_suffix" := by decide

theorem metadata_reads : Reads metadataVisitor (looksUp metadataView) := by
  refine reads_of_members metadataView rfl ?_
  intro depth found key json value built
  unfold metadataMember metadataView overwrite
  by_cases suffix : key = text "file_suffix"
  · have other : text "producer" ≠ key := fun same => producer_ne_suffix (same.trans suffix)
    rw [if_pos suffix, if_pos suffix.symm, if_neg other,
      optionalString_reads depth json value built]
    rfl
  · rw [if_neg suffix, if_neg (Ne.symm suffix)]
    by_cases producer : key = text "producer"
    · rw [if_pos producer, if_pos producer.symm, producer_reads depth json value built]
      rfl
    · rw [if_neg producer, if_neg (Ne.symm producer)]

/-- What the root has among its members. -/
def rootView (found : Text → Option Value) : RestoreRouteHint :=
  ⟨(found (text "metadata")).bind fun v => (looksUp metadataView v).suffix,
    (found (text "metadata")).bind fun v => (looksUp metadataView v).producerName⟩

theorem root_reads : Reads rootVisitor (looksUp rootView) := by
  refine reads_of_members rootView rfl ?_
  intro depth found key json value built
  unfold rootMember rootView overwrite
  by_cases metadata : key = text "metadata"
  · rw [if_pos metadata, if_pos metadata.symm, metadata_reads depth json value built]
    rfl
  · rw [if_neg metadata, if_neg (Ne.symm metadata)]

/-! ## The views are pointers -/

/-- A key that no array takes for an index. -/
def Named (key : Text) : Prop := Value.parseIndex key = none

theorem looksUp_pointer {key : Text} (named : Named key) (value : Value) (tokens : List Text) :
    value.pointer (key :: tokens) =
      (looksUp (fun found => found key) value).bind fun v => v.pointer tokens := by
  cases value with
  | object members => rfl
  | array elements =>
    rw [Value.pointer, named]
    rfl
  | _ => rfl

theorem looksUp_comp {α β : Type} (f : α → β) (view : (Text → Option Value) → α)
    (value : Value) : f (looksUp view value) = looksUp (fun found => f (view found)) value := by
  cases value <;> rfl

theorem metadata_named : Named (text "metadata") := by
  unfold Named
  decide

theorem suffix_named : Named (text "file_suffix") := by
  unfold Named
  decide

theorem producer_named : Named (text "producer") := by
  unfold Named
  decide

theorem name_named : Named (text "name") := by
  unfold Named
  decide

theorem stringAt_cons {key : Text} (named : Named key) (value : Value) (tokens : List Text) :
    stringAt value (key :: tokens) =
      looksUp (fun found => (found key).bind fun v => stringAt v tokens) value := by
  unfold stringAt
  rw [looksUp_pointer named, Option.bind_assoc]
  exact looksUp_comp (fun w => Option.bind w fun v => (v.pointer tokens).bind Value.asStr)
    (fun found => found key) value

theorem producer_name (value : Value) :
    (looksUp producerView value).name = stringAt value [text "name"] := by
  rw [stringAt_cons name_named]
  exact looksUp_comp ProducerHint.name producerView value

theorem metadata_suffix (value : Value) :
    (looksUp metadataView value).suffix = stringAt value [text "file_suffix"] := by
  rw [stringAt_cons suffix_named]
  exact looksUp_comp MetadataHint.suffix metadataView value

theorem metadata_producer (value : Value) :
    (looksUp metadataView value).producerName =
      stringAt value [text "producer", text "name"] := by
  rw [stringAt_cons producer_named, looksUp_comp MetadataHint.producerName metadataView value]
  unfold metadataView
  simp only [producer_name]

theorem root_suffix (value : Value) :
    (looksUp rootView value).suffix =
      stringAt value [text "metadata", text "file_suffix"] := by
  rw [stringAt_cons metadata_named, looksUp_comp RestoreRouteHint.suffix rootView value]
  unfold rootView
  simp only [metadata_suffix]

theorem root_producer (value : Value) :
    (looksUp rootView value).producerName =
      stringAt value [text "metadata", text "producer", text "name"] := by
  rw [stringAt_cons metadata_named, looksUp_comp RestoreRouteHint.producerName rootView value]
  unfold rootView
  simp only [metadata_producer]

/-- **The two tests agree**: a text that has a document is inspected without an error, and the test
on the hint is the test on the document, so that both inputs of a restore take the same path. A key
may occur more than once, in any object of the text. -/
theorem inspect_agrees (json : Json) (middle : Value) (parsed : json.toValue = .ok middle) :
    ∃ hint, inspectJson json = .ok hint ∧ hint.isNativeCsv = isNativeMiddle middle ∧
      fromJson json = .ok (fromDict middle) := by
  have inspected : inspectJson json = .ok (looksUp rootView middle) :=
    root_reads recursionLimit json middle parsed
  have same : (looksUp rootView middle).isNativeCsv = isNativeMiddle middle := by
    unfold RestoreRouteHint.isNativeCsv isNativeMiddle
    rw [root_suffix, root_producer]
  refine ⟨looksUp rootView middle, inspected, same, ?_⟩
  unfold fromJson fromDict
  rw [inspected, ← same]
  rfl

/-- A text whose metadata comes twice, first as a number and then as that of a native document. -/
def twiceNative : Json :=
  .object [(text "metadata", .number (.unsigned 1)),
    (text "metadata", .object [(text "file_suffix", .string (text "tsv")),
      (text "producer", .object [(text "name", .null), (text "name", .string (text "mineru-rs"))])])]

/-- A document in which a key occurs twice. -/
theorem inspect_agrees_twice :
    twiceNative.toValue.isOk = true ∧ ∃ middle hint, twiceNative.toValue = .ok middle ∧
      inspectJson twiceNative = .ok hint ∧ hint.isNativeCsv = isNativeMiddle middle ∧
        fromJson twiceNative = .ok (fromDict middle) := by
  refine ⟨rfl, ?_⟩
  obtain ⟨hint, agrees⟩ := inspect_agrees twiceNative _ rfl
  exact ⟨_, hint, rfl, agrees⟩

end Mineru.RestoreRoute
