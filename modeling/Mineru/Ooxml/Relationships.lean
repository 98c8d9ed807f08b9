import Mineru.Text

/-!
# The relationships of a part

`parse_internal_relationships` of `ooxml.rs`, over the events of an XML reader. The reader that
`xml_reader` makes and the decoding of attribute values belong to the XML library: `XmlLibrary` holds
what the loop asks of them.
-/

set_option autoImplicit false

namespace Mineru.Ooxml

abbrev Bytes := List UInt8

/-- The ASCII bytes of a literal. -/
def ascii (s : String) : Bytes := s.toList.map fun c => c.toNat.toUInt8

inductive XmlVersion where
  | implicit1_0 | explicit1_0 | explicit1_1
  deriving DecidableEq, Repr

/-- An attribute: the local name of its key, and its value as it is written. -/
structure XmlAttribute where
  localName : Bytes
  value : Bytes
  deriving DecidableEq, Repr

/-- An event. `element` is `Start` or `Empty`, with the results of its attributes: `none` is an error.
`decl` has the result of `xml_version`. -/
inductive XmlEvent where
  | decl (version : Option XmlVersion)
  | element (localName : Bytes) (attributes : List (Option XmlAttribute))
  | other
  deriving DecidableEq, Repr

/-- What `read_resolved_event_into` returns before `Eof`, where `none` is an error, for a part that
`xml_reader` takes; and the value of an attribute. -/
structure XmlLibrary where
  events : Bytes → Option (List (Option XmlEvent))
  decodedAndNormalizedValue : XmlVersion → Bytes → Option Text

/-- A relationship with `Id` and `Target`: its `Type`, where there is one, and its target. -/
abbrev Relationship := Option Text × Text

/-- The variables of the loop over the attributes. -/
structure Found where
  typ : Option Text := none
  id : Option Text := none
  target : Option Text := none
  deriving DecidableEq, Repr

/-- The relationship that is pushed behind the loop over the attributes. -/
def Found.pushed (found : Found) : List Relationship :=
  match found.id, found.target with
  | some _, some target => [(found.typ, target)]
  | _, _ => []

section
variable (X : XmlLibrary)

/-- One turn of the loop over the attributes. Every value is decoded, whatever its name. -/
def attributeTurn (version : XmlVersion) (found : Found) (result : Option XmlAttribute) :
    Option Found := do
  let a ← result
  let value ← X.decodedAndNormalizedValue version a.value
  return if a.localName = ascii "Id" then { found with id := some value }
    else if a.localName = ascii "Type" then { found with typ := some value }
    else if a.localName = ascii "Target" then { found with target := some value }
    else found

/-- One turn of the loop over the events, with `version` and `out`. -/
def eventTurn (state : XmlVersion × List Relationship) :
    Option XmlEvent → Option (XmlVersion × List Relationship)
  | none => none
  | some (.decl version) => version.map fun version => (version, state.2)
  | some (.element name attributes) =>
    if name = ascii "Relationship" then
      (attributes.foldlM (attributeTurn X state.1) {}).map fun found =>
        (state.1, state.2 ++ found.pushed)
    else some state
  | some .other => some state

/-- `parse_internal_relationships`. -/
def parseInternalRelationships (bytes : Bytes) : Option (List Relationship) := do
  let events ← X.events bytes
  let (_, out) ← events.foldlM (eventTurn X) (.implicit1_0, [])
  return out

end

end Mineru.Ooxml
