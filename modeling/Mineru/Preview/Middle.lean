import Mineru.Builders.Middle

/-!
# The middle document of a preview

`parse_middle` of `remote_preview.rs`: the pages of a middle document are read back as boxes, under
the limits of the route. Each reader answers with the same error.
-/

set_option autoImplicit false

namespace Mineru.Preview

open Builders

/-- The options of the route that bound a preview. -/
structure OfficialPdfOptions where
  maxPages : Nat
  maxLayoutBlocksPerPage : Nat

structure ContentBlock where
  kind : Text
  bbox : NormalizedBbox
  deriving DecidableEq, Repr

structure PageResult where
  pageIndex : Nat
  pageSize : PageSize
  blocks : List ContentBlock
  deriving DecidableEq, Repr

/-- `usize::checked_mul`. -/
def checkedMul (a b : Nat) : Option Nat := if a * b < 2 ^ 64 then some (a * b) else none

def invalidMiddle : String := "invalid preview middle JSON"

/-- `ok_or`. -/
def orInvalid {α : Type} (o : Option α) : Except String α :=
  match o with
  | some a => .ok a
  | none => .error invalidMiddle

/-- `if c { return Err(…) }`. -/
def invalidIf (c : Bool) : Except String Unit := if c then .error invalidMiddle else .ok ()

/-- `Value::as_object`. -/
def asObject : Value → Option (List (Text × Value))
  | .object members => some members
  | _ => none

/-- `Value::as_array`. -/
def asArray : Value → Option (List Value)
  | .array elements => some elements
  | _ => none

/-- `Value::as_u64`, which is a `usize`. -/
def asU64 : Value → Option Nat
  | .number (.unsigned n) => some n
  | _ => none

/-- `Map::get` of a key of the source. -/
def member (members : List (Text × Value)) (key : String) : Option Value :=
  Value.find members (text key)

/-- The four numbers of a box. -/
def readBox (decimal : Decimal) (bbox : List Value) : Option (Rat × Rat × Rat × Rat) :=
  match bbox with
  | [x0, y0, x1, y1] => do
    let x0 ← decimal.asF64 x0
    let y0 ← decimal.asF64 y0
    let x1 ← decimal.asF64 x1
    let y1 ← decimal.asF64 y1
    return (x0, y0, x1, y1)
  | _ => none

/-- `parse_block`. -/
def parseBlock (decimal : Decimal) (pageSize : PageSize) (value : Value) :
    Except String ContentBlock := do
  let object ← orInvalid (asObject value)
  let kind ← orInvalid (((member object "type").bind Value.asStr).filter fun v =>
    !v.isEmpty && decide (utf8Len v ≤ 128))
  let bbox ← orInvalid ((member object "bbox").bind asArray)
  let (x0, y0, x1, y1) ← orInvalid (readBox decimal bbox)
  invalidIf (decide (¬ (0 ≤ x0 ∧ x0 ≤ x1 ∧ x1 ≤ pageSize.width ∧
    0 ≤ y0 ∧ y0 ≤ y1 ∧ y1 ≤ pageSize.height)))
  let bbox ← (normalizedBbox (x0 / pageSize.width) (y0 / pageSize.height) (x1 / pageSize.width)
    (y1 / pageSize.height)).mapError fun _ => invalidMiddle
  return ⟨kind, bbox⟩

/-- A side of a page. -/
def readSide (decimal : Decimal) (value : Value) : Option Rat :=
  (decimal.asF64 value).filter fun v => decide (0 < v) && decide (v ≤ f32Max)

/-- `page_size`. -/
def readSize (decimal : Decimal) (sides : List Value) : Option PageSize :=
  match sides with
  | [width, height] => do
    let width ← readSide decimal width
    let height ← readSide decimal height
    return ⟨width, height⟩
  | _ => none

/-- What a page is read as, before the blocks are counted. -/
structure PageParts where
  index : Nat
  size : PageSize
  blocks : List Value

/-- The members of a page. -/
def readPage (decimal : Decimal) (previous : Option Nat) (page : Value) :
    Except String PageParts := do
  let object ← orInvalid (asObject page)
  let index ← orInvalid ((member object "page_idx").bind asU64)
  invalidIf (previous.any fun last => decide (index ≤ last))
  let size ← orInvalid (((member object "page_size").bind asArray).bind (readSize decimal))
  let preproc ← orInvalid ((member object "preproc_blocks").bind asArray)
  let discarded ← orInvalid ((member object "discarded_blocks").bind asArray)
  return ⟨index, size, preproc ++ discarded⟩

/-- The loop of `parse_middle`. The count of all blocks is checked before it could overflow. -/
def parsePages (decimal : Decimal) (route : OfficialPdfOptions) (maxTotal : Nat) :
    Option Nat → Nat → List Value → Except String (List PageResult)
  | _, _, [] => .ok []
  | previous, total, page :: rest => do
    let parts ← readPage decimal previous page
    let count := parts.blocks.length
    invalidIf (decide (count > route.maxLayoutBlocksPerPage) || decide (total + count > maxTotal))
    let blocks ← parts.blocks.mapM (parseBlock decimal parts.size)
    let rest ← parsePages decimal route maxTotal (some parts.index) (total + count) rest
    return ⟨parts.index, parts.size, blocks⟩ :: rest

/-- `parse_middle`, given what `serde_json::from_slice` reads. -/
def parseMiddle (decimal : Decimal) (fromSlice : List UInt8 → Option Value) (bytes : List UInt8)
    (route : OfficialPdfOptions) : Except String (List PageResult) := do
  let pages ← orInvalid ((((fromSlice bytes).bind asObject).bind fun document =>
    (member document "pdf_info").bind asArray).filter fun pages =>
      !pages.isEmpty && decide (pages.length ≤ route.maxPages))
  (checkedMul route.maxPages route.maxLayoutBlocksPerPage).elim (.error "invalid preview limits")
    fun maxTotal => parsePages decimal route maxTotal none 0 pages

end Mineru.Preview
