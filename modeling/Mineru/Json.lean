import Mineru.Logic.Checked
import Mineru.Text

/-!
# JSON values

`Json` is a JSON text as the deserializer meets it: an object is the list of its members, and a key
may come twice. `Value` is the document that `serde_json` builds from it, where the last member of a
key wins. The deserializer counts how deep it may still go; the members of a `Value` are kept in the
order in which their keys first came, which nothing modelled here looks at.
-/

set_option autoImplicit false

namespace Mineru

open Logic (bind_ok)

/-- A number as `serde_json` classifies it: the literal is kept where only its class matters. -/
inductive Number where
  | unsigned (n : Nat)
  | signed (n : Int)
  | float (literal : Text)
  deriving DecidableEq, Repr

inductive Json where
  | null
  | bool (b : Bool)
  | number (n : Number)
  | string (s : Text)
  | array (elements : List Json)
  | object (members : List (Text × Json))

inductive Value where
  | null
  | bool (b : Bool)
  | number (n : Number)
  | string (s : Text)
  | array (elements : List Value)
  | object (members : List (Text × Value))

/-- The errors of the deserializer that do not come from the syntax. -/
inductive DeError where
  | recursionLimit
  | invalidType (expecting : String)
  deriving DecidableEq, Repr

/-- How deep a document may be nested (`remaining_depth`). -/
def recursionLimit : Nat := 128

namespace Value

/-- `Map::insert`: the value of a key that is there already is replaced. -/
def insert (key : Text) (v : Value) : List (Text × Value) → List (Text × Value)
  | [] => [(key, v)]
  | (k, w) :: rest => if k = key then (k, v) :: rest else (k, w) :: insert key v rest

/-- `Map::get`. -/
def find (members : List (Text × Value)) (key : Text) : Option Value := members.lookup key

/-- `Value::as_str`. -/
def asStr : Value → Option Text
  | string s => some s
  | _ => none

/-- The `parse_index` of `Value::pointer`. -/
def parseIndex (token : Text) : Option Nat :=
  if token.head? = some '0' ∧ token.length ≠ 1 then none
  else if token ≠ [] ∧ token.all Char.isDigit then
    let n := token.foldl (fun n c => n * 10 + (c.toNat - '0'.toNat)) 0
    if n < 2 ^ 64 then some n else none
  else none

/-- `Value::pointer`, given the tokens of the pointer. -/
def pointer (v : Value) : List Text → Option Value
  | [] => some v
  | token :: tokens => match v with
    | object members => (find members token).bind fun w => w.pointer tokens
    | array elements =>
      (parseIndex token).bind fun i => elements[i]?.bind fun w => w.pointer tokens
    | _ => none

theorem find_cons (key k : Text) (v : Value) (members : List (Text × Value)) :
    find ((key, v) :: members) k = if k = key then some v else find members k := by
  unfold find
  rw [List.lookup_cons]
  by_cases same : k = key
  · rw [if_pos same, beq_iff_eq.mpr same]
  · rw [if_neg same, beq_eq_false_iff_ne.mpr same]

theorem find_insert (key k : Text) (v : Value) (members : List (Text × Value)) :
    find (insert key v members) k = if k = key then some v else find members k := by
  induction members with
  | nil => exact find_cons key k v []
  | cons m rest ih =>
    obtain ⟨j, w⟩ := m
    by_cases there : j = key
    · subst there
      rw [insert, if_pos rfl, find_cons, find_cons]
      by_cases same : k = j
      · rw [if_pos same, if_pos same]
      · rw [if_neg same, if_neg same, if_neg same]
    · rw [insert, if_neg there, find_cons, find_cons, ih]
      by_cases same : k = j
      · rw [if_pos same, if_neg (same ▸ there), if_pos same]
      · rw [if_neg same, if_neg same]

end Value

namespace Json

/-- `check_recursion!`: the depth left inside an array or an object. -/
def descend (depth : Nat) : Except DeError Nat :=
  if depth ≤ 1 then .error .recursionLimit else .ok (depth - 1)

mutual

/-- The document of a text, with the depth that is left. -/
def toValueAt (depth : Nat) : Json → Except DeError Value
  | null => .ok .null
  | bool b => .ok (.bool b)
  | number n => .ok (.number n)
  | string s => .ok (.string s)
  | array elements => do
    let depth ← descend depth
    let elements ← elementsAt depth elements
    return .array elements
  | object members => do
    let depth ← descend depth
    let members ← membersAt depth [] members
    return .object members

def elementsAt (depth : Nat) : List Json → Except DeError (List Value)
  | [] => .ok []
  | element :: rest => do
    let v ← toValueAt depth element
    let rest ← elementsAt depth rest
    return v :: rest

/-- The members so far, and the ones to come. -/
def membersAt (depth : Nat) (found : List (Text × Value)) :
    List (Text × Json) → Except DeError (List (Text × Value))
  | [] => .ok found
  | (key, json) :: rest => do
    let v ← toValueAt depth json
    membersAt depth (Value.insert key v found) rest

end

/-- `serde_json::from_str::<Value>`. -/
def toValue (json : Json) : Except DeError Value := json.toValueAt recursionLimit

/-! ## Documents of arrays and objects -/

theorem toValueAt_array {depth : Nat} {elements : List Json} {v : Value}
    (h : (array elements).toValueAt depth = .ok v) :
    ∃ inner values, descend depth = .ok inner ∧ elementsAt inner elements = .ok values ∧
      v = .array values := by
  rw [toValueAt] at h
  obtain ⟨inner, deeper, h⟩ := bind_ok h
  obtain ⟨values, elems, h⟩ := bind_ok h
  cases h
  exact ⟨inner, values, deeper, elems, rfl⟩

theorem toValueAt_object {depth : Nat} {members : List (Text × Json)} {v : Value}
    (h : (object members).toValueAt depth = .ok v) :
    ∃ inner found, descend depth = .ok inner ∧ membersAt inner [] members = .ok found ∧
      v = .object found := by
  rw [toValueAt] at h
  obtain ⟨inner, deeper, h⟩ := bind_ok h
  obtain ⟨found, all, h⟩ := bind_ok h
  cases h
  exact ⟨inner, found, deeper, all, rfl⟩

end Json

end Mineru
