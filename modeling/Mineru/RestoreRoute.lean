import Mineru.Json
import Mineru.Error

/-!
# Choosing the restore path

`official/native/restore_route.rs` looks at a JSON text without building its document, to see whether
it is the result of a native CSV parse; `csv::is_native_middle` looks the same up in the document.
A visitor of the source is a record of what it makes of each kind of value, and `deserializeAny`
calls it as `serde_json` does. Members that a visitor does not want are skipped without looking
inside (`IgnoredAny`), which no nesting makes fail.
-/

set_option autoImplicit false

namespace Mineru.RestoreRoute

open Official (OfficialError)

/-- A `serde::de::Visitor`: the arrays and objects it visits come with the depth that is left. -/
structure Visitor (α : Type) where
  visitBool : Bool → Except DeError α
  visitNumber : Number → Except DeError α
  visitUnit : Except DeError α
  visitStr : Text → Except DeError α
  visitSeq : Nat → List Json → Except DeError α
  visitMap : Nat → List (Text × Json) → Except DeError α

/-- The visits that a visitor has when it defines none. -/
def Visitor.refuse {α : Type} (expecting : String) : Visitor α where
  visitBool _ := .error (.invalidType expecting)
  visitNumber _ := .error (.invalidType expecting)
  visitUnit := .error (.invalidType expecting)
  visitStr _ := .error (.invalidType expecting)
  visitSeq _ _ := .error (.invalidType expecting)
  visitMap _ _ := .error (.invalidType expecting)

/-- `default_scalar_visits!`. -/
def Visitor.defaultScalars {α : Type} (v : Visitor α) (default : α) : Visitor α :=
  { v with
    visitBool := fun _ => .ok default
    visitNumber := fun _ => .ok default
    visitUnit := .ok default }

/-- `deserialize_any` of `serde_json`. -/
def deserializeAny {α : Type} (v : Visitor α) (depth : Nat) : Json → Except DeError α
  | .null => v.visitUnit
  | .bool b => v.visitBool b
  | .number n => v.visitNumber n
  | .string s => v.visitStr s
  | .array elements => do
    let depth ← Json.descend depth
    v.visitSeq depth elements
  | .object members => do
    let depth ← Json.descend depth
    v.visitMap depth members

/-! ## The visitors -/

/-- `OptionalStringVisitor`. -/
def optionalStringVisitor : Visitor (Option Text) :=
  { (Visitor.refuse "a string or another JSON value").defaultScalars none with
    visitStr := fun value => .ok (some value)
    visitSeq := fun _ _ => .ok none
    visitMap := fun _ _ => .ok none }

structure ProducerHint where
  name : Option Text
  deriving DecidableEq, Repr

def ProducerHint.default : ProducerHint := ⟨none⟩

/-- One turn of the loop of `ProducerVisitor::visit_map`. -/
def producerMember (depth : Nat) (hint : ProducerHint) (member : Text × Json) :
    Except DeError ProducerHint :=
  if member.1 = text "name" then do
    let name ← deserializeAny optionalStringVisitor depth member.2
    return { hint with name }
  else .ok hint

/-- `ProducerVisitor`. -/
def producerVisitor : Visitor ProducerHint :=
  { (Visitor.refuse "a producer object").defaultScalars .default with
    visitStr := fun _ => .ok .default
    visitSeq := fun _ _ => .ok .default
    visitMap := fun depth members => members.foldlM (producerMember depth) .default }

structure MetadataHint where
  suffix : Option Text
  producerName : Option Text
  deriving DecidableEq, Repr

def MetadataHint.default : MetadataHint := ⟨none, none⟩

/-- One turn of the loop of `MetadataVisitor::visit_map`. -/
def metadataMember (depth : Nat) (hint : MetadataHint) (member : Text × Json) :
    Except DeError MetadataHint :=
  if member.1 = text "file_suffix" then do
    let suffix ← deserializeAny optionalStringVisitor depth member.2
    return { hint with suffix }
  else if member.1 = text "producer" then do
    let producer ← deserializeAny producerVisitor depth member.2
    return { hint with producerName := producer.name }
  else .ok hint

/-- `MetadataVisitor`. -/
def metadataVisitor : Visitor MetadataHint :=
  { (Visitor.refuse "document metadata").defaultScalars .default with
    visitStr := fun _ => .ok .default
    visitSeq := fun _ _ => .ok .default
    visitMap := fun depth members => members.foldlM (metadataMember depth) .default }

structure RestoreRouteHint where
  suffix : Option Text
  producerName : Option Text
  deriving DecidableEq, Repr

def RestoreRouteHint.default : RestoreRouteHint := ⟨none, none⟩

/-- One turn of the loop of `RootVisitor::visit_map`. -/
def rootMember (depth : Nat) (hint : RestoreRouteHint) (member : Text × Json) :
    Except DeError RestoreRouteHint :=
  if member.1 = text "metadata" then do
    let metadata ← deserializeAny metadataVisitor depth member.2
    return { suffix := metadata.suffix, producerName := metadata.producerName }
  else .ok hint

/-- `RootVisitor`. -/
def rootVisitor : Visitor RestoreRouteHint :=
  { (Visitor.refuse "a JSON value").defaultScalars .default with
    visitStr := fun _ => .ok .default
    visitSeq := fun _ _ => .ok .default
    visitMap := fun depth members => members.foldlM (rootMember depth) .default }

/-! ## The two tests -/

/-- The suffixes of `matches!(suffix, Some("csv" | "tsv"))`. -/
def nativeSuffix (suffix : Option Text) : Bool :=
  suffix = some (text "csv") || suffix = some (text "tsv")

/-- `RestoreRouteHint::is_native_csv`. -/
def RestoreRouteHint.isNativeCsv (hint : RestoreRouteHint) : Bool :=
  nativeSuffix hint.suffix && decide (hint.producerName = some (text "mineru-rs"))

/-- `inspect_json`. -/
def inspectJson (json : Json) : Except DeError RestoreRouteHint :=
  deserializeAny rootVisitor recursionLimit json

/-- The string at a pointer. -/
def stringAt (v : Value) (tokens : List Text) : Option Text :=
  (v.pointer tokens).bind Value.asStr

/-- `csv::is_native_middle`. -/
def isNativeMiddle (middle : Value) : Bool :=
  nativeSuffix (stringAt middle [text "metadata", text "file_suffix"]) &&
    decide (stringAt middle [text "metadata", text "producer", text "name"] =
      some (text "mineru-rs"))

/-! ## `render::restore` -/

/-- Who restores a document. -/
inductive RestorePath where
  | nativeCsv
  | worker
  deriving DecidableEq, Repr

def restorePath (native : Bool) : RestorePath := if native then .nativeCsv else .worker

/-- The path that `render::restore` takes for a JSON text (`from_json`). -/
def fromJson (json : Json) : Except DeError RestorePath := do
  let hint ← inspectJson json
  return restorePath hint.isNativeCsv

/-- The path that `render::restore` takes for a document (`from_dict`). -/
def fromDict (middle : Value) : RestorePath := restorePath (isNativeMiddle middle)

end Mineru.RestoreRoute
