import Mineru.Error
import Mineru.Json

/-!
# The nodes of a page

The blocks and nodes of `official_builders.rs`: a page is composed into a list of nodes, and the
document into a list of pages.
-/

set_option autoImplicit false

namespace Mineru.Builders

open Logic

inductive Span where
  | text (content : Text)
  | inlineEquation (content : Text)
  | interlineEquation (content : Text)
  | table (html : Text)
  | image (path : Option Text)
  | chart (content : Option Text)
  deriving DecidableEq, Repr

structure Bbox where
  left : Int
  top : Int
  right : Int
  bottom : Int
  deriving DecidableEq, Repr

structure Line where
  bbox : Bbox
  spans : List Span
  deriving DecidableEq, Repr

structure Block where
  kind : String
  bbox : Bbox
  angle : Int
  lines : List Line
  index : Nat
  mergePrev : Option Bool
  subType : Option String
  guessLang : Option String
  imagePath : Option Text
  cellMerge : Option Value
  crossPage : Bool
  linesDeleted : Bool

inductive Node where
  | leaf (block : Block)
  | list (marker : Block) (items : List Block)
  | visual (kind : String) (body : Block) (captions footnotes : List Block)
      (subType : Option String) (cellMerge : Option Value) (subImages : List Value)
  | tombstone (kind : String) (bbox : Bbox) (angle : Int) (index : Nat) (subType : Option String)

/-- The nodes of each page. -/
abbrev Paras := List (List Node)

/-- `node_index`. -/
def nodeIndex : Node → Nat
  | .leaf block => block.index
  | .list marker _ => marker.index
  | .visual _ body _ _ _ _ _ => body.index
  | .tombstone _ _ _ index _ => index

def nodeIsEmpty : Node → Bool
  | .leaf block => block.lines.all fun line => line.spans.isEmpty
  | .list _ items => items.isEmpty
  | .visual .. => false
  | .tombstone .. => true

def isRefList : Node → Bool
  | .list marker items => !items.isEmpty && marker.subType == some "ref_text"
  | _ => false

/-- `tombstone`, whose other nodes are unreachable. -/
def tombstone : Node → Checked VlmError Node
  | .list marker _ =>
    .ok (.tombstone "list" marker.bbox marker.angle marker.index marker.subType)
  | .visual kind body _ _ _ _ _ => .ok (.tombstone kind body.bbox body.angle body.index none)
  | _ => .error .panic

end Mineru.Builders
