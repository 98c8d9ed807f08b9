import Mineru.Layout.Parse

/-!
# Content blocks

The blocks that `vlm_client.rs` hands to the cleaner of `vlm_postprocess.rs`, with their metadata.
Boxes have exact rational corners.
-/

set_option autoImplicit false

namespace Mineru.Vlm

open Builders (NormalizedBbox)
open Layout (Rotation VlmLayoutBlock)

/-- `Map<String, Value>`. -/
abbrev Metadata := List (Text × Value)

namespace Metadata

def containsKey (m : Metadata) (key : String) : Bool := (Value.find m (text key)).isSome

/-- `Map::retain`, for a condition on the keys. -/
def retainKeys (p : Text → Bool) (m : Metadata) : Metadata := m.filter fun e => p e.1

def remove (m : Metadata) (key : String) : Metadata := retainKeys (fun k => k ≠ text key) m

def insert (m : Metadata) (key : String) (v : Value) : Metadata := Value.insert (text key) v m

/-- `Map::extend`. -/
def extend (m more : Metadata) : Metadata := more.foldl (fun m e => Value.insert e.1 e.2 m) m

end Metadata

structure ContentBlock where
  kind : String
  bbox : NormalizedBbox
  angle : Option Rotation
  content : Option Text
  mergePrevious : Bool
  metadata : Metadata

def toVlm (block : ContentBlock) : VlmLayoutBlock where
  blockType := block.kind
  bbox := block.bbox
  angle := block.angle
  content := block.content
  mergePrev := some block.mergePrevious
  metadata := block.metadata

def fromVlm (block : VlmLayoutBlock) : ContentBlock where
  kind := block.blockType
  bbox := block.bbox
  angle := block.angle
  content := block.content
  mergePrevious := block.mergePrev.getD false
  metadata := block.metadata

def area (b : NormalizedBbox) : Rat := (b.right - b.left) * (b.bottom - b.top)

/-- `covered_by`, which asks for nine tenths. -/
def coveredBy (inner outer : NormalizedBbox) : Bool :=
  area inner > 0 &&
    max (min inner.right outer.right - max inner.left outer.left) 0 *
      max (min inner.bottom outer.bottom - max inner.top outer.top) 0 / area inner ≥ 9 / 10

/-- `is_known_kind`. -/
def isKnownKind (kind : String) : Bool :=
  ["text", "title", "table", "equation", "formula_number", "code", "algorithm", "aside_text",
    "ref_text", "index", "phonetic", "list_item", "table_caption", "image_caption", "code_caption",
    "table_footnote", "image_footnote", "header", "footer", "page_number", "page_footnote", "image",
    "chart", "list", "image_block", "equation_block", "unknown"].contains kind

end Mineru.Vlm
