import Mineru.Builders.Prepare

/-!
# The layout of a page

`parse_layout` of `layout.rs` reads the boxes that the model answers with, and
`parse_layout_output_capped` of `vlm_client.rs` makes layout blocks of them. The matches of the layout
expression are given, with the text that follows each one up to the next.
-/

set_option autoImplicit false

namespace Mineru.Layout

open Builders

inductive Rotation where
  | deg0
  | deg90
  | deg180
  | deg270
  deriving DecidableEq, Repr

/-- A match of the layout expression: the digits of a box, a kind, and a rotation if there is one. -/
structure Token where
  x1 : Text
  y1 : Text
  x2 : Text
  y2 : Text
  kind : String
  rotation : Option String
  trailing : Text

/-- What `layout.rs` takes from the regular expressions, and the text of its other error. -/
structure Tools where
  captures : Text → List Token
  noTokens : String

structure VlmLayoutBlock where
  blockType : String
  bbox : NormalizedBbox
  angle : Option Rotation
  content : Option Text
  mergePrev : Option Bool
  metadata : List (Text × Value)

/-- The kinds that `parse_blocks` keeps. -/
def layoutKinds : List String :=
  ["text", "title", "table", "equation", "formula_number", "code", "algorithm", "aside_text",
    "ref_text", "index", "phonetic", "list_item", "table_caption", "image_caption",
    "code_caption", "table_footnote", "image_footnote", "header", "footer", "page_number",
    "page_footnote", "image", "chart", "list", "image_block", "equation_block"]

/-- `parse::<f32>` of digits. A number that is not finite is as far out of range as its digits say. -/
def coordinate (digits : Text) : Rat :=
  ((digits.foldl (fun n c => 10 * n + (c.toNat - '0'.toNat)) 0 : Nat) : Rat)

def rotationOf : Option String → Option Rotation
  | some "up" => some .deg0
  | some "right" => some .deg90
  | some "down" => some .deg180
  | some "left" => some .deg270
  | _ => none

def isInfix (needle t : Text) : Bool := t.tails.any needle.isPrefixOf

/-- The block of a match, which is skipped when its box or its kind is not accepted. -/
def readToken (token : Token) : Option VlmLayoutBlock :=
  let x1 := coordinate token.x1
  let y1 := coordinate token.y1
  let x2 := coordinate token.x2
  let y2 := coordinate token.y2
  match normalizedBbox (min x1 x2 / 1000) (min y1 y2 / 1000) (max x1 x2 / 1000)
      (max y1 y2 / 1000) with
  | .error _ => none
  | .ok bbox =>
    if layoutKinds.contains token.kind then some {
      blockType := token.kind
      bbox
      angle := rotationOf token.rotation
      content := none
      mergePrev := some
        (decide (token.kind = "text") && isInfix (text "txt_contd_tgt") token.trailing)
      metadata := [] }
    else none

/-- `parse_blocks`, and whether it stopped at the limit. -/
def parseBlocks (maxBlocks : Nat) : List VlmLayoutBlock → List Token → List VlmLayoutBlock × Bool
  | blocks, [] => (blocks, false)
  | blocks, token :: rest => match readToken token with
    | none => parseBlocks maxBlocks blocks rest
    | some block =>
      if blocks.length ≥ maxBlocks then (blocks, true)
      else parseBlocks maxBlocks (blocks ++ [block]) rest

/-- `str::replace`, for a pattern that is not empty. -/
def replace (pattern replacement : Text) : Nat → Text → Text
  | 0, t => t
  | _, [] => []
  | fuel + 1, c :: rest =>
    if pattern.isPrefixOf (c :: rest) then
      replacement ++ replace pattern replacement fuel ((c :: rest).drop pattern.length)
    else c :: replace pattern replacement fuel rest

def area (b : NormalizedBbox) : Rat := (b.right - b.left) * (b.bottom - b.top)

def coveredBy (inner outer : NormalizedBbox) : Bool :=
  decide (0 < area inner) && decide (9 / 10 ≤
    max (min inner.right outer.right - max inner.left outer.left) 0 *
      max (min inner.bottom outer.bottom - max inner.top outer.top) 0 / area inner)

/-- `parse_layout_output_capped`, with `parse_layout` whose errors it maps. -/
def parseLayoutOutput (tools : Tools) (output : Text) (maxLayoutBlocks : Nat) :
    Except VlmError (List VlmLayoutBlock) :=
  let output := replace (text "<|ref_start|>unknown<|ref_end|>")
    (text "<|ref_start|>image<|ref_end|>") output.length output
  let (blocks, truncated) := parseBlocks maxLayoutBlocks [] (tools.captures output)
  if truncated then
    .error (.limitExceeded "layout blocks" maxLayoutBlocks (blocks.length + 1))
  else if blocks.isEmpty && !(trim output).isEmpty then
    .error (.protocol "layout parse" tools.noTokens)
  else
    let tables := (blocks.filter fun b => b.blockType = "table").map VlmLayoutBlock.bbox
    .ok (blocks.filter fun b => !(["text", "equation", "equation_block"].contains b.blockType) ||
      !(tables.any fun t => coveredBy b.bbox t))

end Mineru.Layout
