import Mineru.Layout.Parse
import Mineru.Logic.Regex
import Mineru.Vlm.Equation

/-!
# The layout stream

The expression of `parse_blocks`, with what `captures_iter` makes of a text, and `parse_layout`. A match
is a whole header; the text that belongs to it is what stands before the next one.
-/

set_option autoImplicit false

namespace Mineru.Layout

open Builders Logic Regex Vlm

/-- The errors of `parse_layout`. -/
inductive Error where
  | limitExceeded (resource : String) (limit actual : Nat)
  | protocol (operation message : String)
  deriving DecidableEq, Repr

/-- `[0-9]`. -/
def isDigit (c : Char) : Bool := '0' ≤ c && c ≤ '9'

/-- `([0-9]+)`. -/
def digits (number : Nat) : Expr := .group number (plus isDigit)

/-- `(?:(<\|rotate_(up|right|down|left)\|>))?`. -/
def rotateExpr : Expr :=
  optional (.group 6 (seqs [literal (text "<|rotate_"),
    .group 7 (eithers ((["up", "right", "down", "left"].map text).map literal)),
    literal (text "|>")]))

/-- `layout`. -/
def layoutExpr (w : WordChars) : Expr :=
  seqs [literal (text "<|box_start|>"), digits 1, plus isWhitespace, digits 2, plus isWhitespace,
    digits 3, plus isWhitespace, digits 4, literal (text "<|box_end|><|ref_start|>"),
    .group 5 (.seq (.one w.isWord) (.many false w.isWord)), literal (text "<|ref_end|>"), rotateExpr]

/-- A match with the text that follows it. -/
def tokenOf (groups : Groups) (trailing : Text) : Token where
  x1 := (groups.get 1).getD []
  y1 := (groups.get 2).getD []
  x2 := (groups.get 3).getD []
  y2 := (groups.get 4).getD []
  kind := String.ofList ((groups.get 5).getD [])
  rotation := (groups.get 7).map String.ofList
  trailing

/-- The text before the first match. -/
def leading : Matches.Pieces Char Groups → Text
  | ([], tail) => tail
  | ((gap, _) :: _, _) => gap

def tokens : List (Text × Groups) → Text → List Token
  | [], _ => []
  | (_, groups) :: found, tail => tokenOf groups (leading (found, tail)) :: tokens found tail

/-- The matches of `captures_iter`, each with the text up to the next one. -/
def captures (w : WordChars) (input : Text) : List Token :=
  let (found, tail) := Matches.cut (matchAt (layoutExpr w)) 0 input
  tokens found tail

/-- `parse_layout`. -/
def parseLayout (w : WordChars) (maxBlocks : Nat) (input : Text) :
    Except Error (List VlmLayoutBlock) :=
  let (blocks, truncated) := parseBlocks maxBlocks [] (captures w input)
  if truncated then
    .error (.limitExceeded "blocks per page" maxBlocks (min (blocks.length + 1) (2 ^ 64 - 1)))
  else if blocks.isEmpty && !(trim input).isEmpty then
    .error (.protocol "layout parse" "no valid layout tokens")
  else .ok blocks

end Mineru.Layout
