import Mineru.Case

/-!
# Unique output stems

`unique_stems` of `planning.rs` names the documents of a batch. A name that is new keeps itself, cut
at 200 bytes; any other gets the first suffix `_n` whose key is neither the key of another input nor
of a name given out before. `searchSuffix` is the inner loop. It counts its turns down in `fuel`, and
`none` says that they ran out.

`usize` is `Nat`: the counter `n` stays below a few times the number of stems.
-/

set_option autoImplicit false

namespace Mineru.Stems

/-- `truncate_utf8`. -/
def truncateUtf8 : Text → Nat → Text
  | [], _ => []
  | c :: rest, max =>
    if c.utf8Size ≤ max then c :: truncateUtf8 rest (max - c.utf8Size) else []

/-- `candidate`. -/
def candidate (stem suffix : Text) : Text :=
  if utf8Len stem + utf8Len suffix ≤ 200 then stem ++ suffix
  else if utf8Len suffix ≥ 200 then truncateUtf8 suffix 200
  else truncateUtf8 stem (200 - utf8Len suffix) ++ suffix

/-- `format!("_{n}")`. -/
def suffix (n : Nat) : Text := '_' :: (toString n).toList

/-- The variables of the loop of `unique_stems`. -/
structure Naming where
  counts : Text → Nat := fun _ => 0
  assigned : List Text := []
  out : List Text := []

section
variable (T : CaseTables)

/-- `fold_key`. -/
def foldKey (value : Text) : Text := T.toLowercase value

/-- The inner `loop`, over the keys that it avoids. -/
def searchSuffix (raw assigned : List Text) (base : Text) : Nat → Nat → Option Text
  | 0, _ => none
  | fuel + 1, n =>
    let c := candidate base (suffix n)
    let ck := foldKey T c
    if ck ∉ raw ∧ ck ∉ assigned then some c else searchSuffix raw assigned base fuel (n + 1)

/-- The name of one stem. -/
def nameOne (raw : List Text) (fuel : Nat) (st : Naming) (original normalized : Text) :
    Option Naming := do
  let base := if normalized.isEmpty then original else normalized
  let k := foldKey T base
  let count := st.counts k
  let value ←
    if count = 0 ∧ k ∉ st.assigned then some base
    else searchSuffix T raw st.assigned base fuel (count + 1)
  return {
    counts := Function.update st.counts k (count + 1)
    assigned := foldKey T value :: st.assigned
    out := st.out ++ [value] }

/-- The loop over the stems. -/
def nameAll (raw : List Text) (fuel : Nat) : Naming → List Text → Option Naming
  | st, [] => some st
  | st, original :: rest => do
    let st ← nameOne T raw fuel st original (truncateUtf8 original 200)
    nameAll raw fuel st rest

/-- `unique_stems`. -/
def uniqueStems (fuel : Nat) (stems : List Text) : Option (List Text) :=
  let raw := stems.map fun s => foldKey T (truncateUtf8 s 200)
  (nameAll T raw fuel {} stems).map Naming.out

/-- The check of `run_documents_impl` on the stems that it is given. -/
def checkStems (fuel : Nat) (raw : List Text) : Option (Except String Unit) :=
  (uniqueStems T fuel raw).map fun out =>
    if out ≠ raw then .error "invalid document stems" else .ok ()

end

example : uniqueStems CaseTables.asciiOnly 9 ([ "a", "A", "a_2", "a" ].map text) =
    some (["a", "A_3", "a_2", "a_4"].map text) := by decide +kernel

end Mineru.Stems
