import Mineru.Text
import Mineru.Logic.Matches

/-!
# Tables in OTSL

`otsl_html` of `vlm_postprocess.rs` reads a table that is written cell by cell: a cell with or
without a text, or a cell that belongs to the cell on its left, above it, or both. Spans grow as the
cells are read.
-/

set_option autoImplicit false

namespace Mineru.Vlm

open Logic

/-! ## Tokens -/

inductive OtslToken where
  | nl
  | fcel
  | ecel
  | lcel
  | ucel
  | xcel
  deriving DecidableEq, Repr

namespace OtslToken

def name : OtslToken → Text
  | nl => text "nl"
  | fcel => text "fcel"
  | ecel => text "ecel"
  | lcel => text "lcel"
  | ucel => text "ucel"
  | xcel => text "xcel"

def literal (token : OtslToken) : Text := '<' :: token.name ++ ['>']

def all : List OtslToken := [nl, fcel, ecel, lcel, ucel, xcel]

end OtslToken

/-- `(?i)<(nl|fcel|ecel|lcel|ucel|xcel)>` at the beginning of a text. -/
def tokenAt : Matches.Pattern Char OtslToken := fun t =>
  OtslToken.all.findSome? fun token =>
    if (t.take token.literal.length).map Char.toLower = token.literal then
      some (token, token.literal.length)
    else none

/-! ## Cells -/

structure Cell where
  text : Text
  colspan : Nat
  rowspan : Nat
  hidden : Bool
  anchor : Option (Nat × Nat)
  deriving DecidableEq, Repr

def Cell.new (text : Text) : Cell := ⟨text, 1, 1, false, none⟩

def Cell.hiddenBy (anchor : Option (Nat × Nat)) : Cell := ⟨[], 0, 0, true, anchor⟩

abbrev Rows := List (List Cell)

/-- The cell at a place. -/
def cellAt (rows : Rows) (row column : Nat) : Option Cell :=
  rows[row]?.bind fun cells => cells[column]?

def modifyCell (rows : Rows) (row column : Nat) (f : Cell → Cell) : Rows :=
  rows.modify row fun cells => cells.modify column f

/-- `rows[row].len()` for the last row. -/
def lastLength (rows : Rows) : Nat := (rows.getLast?.map List.length).getD 0

/-- `rows.last_mut().push(cell)`. -/
def pushCell (rows : Rows) (cell : Cell) : Rows :=
  rows.modify (rows.length - 1) fun cells => cells ++ [cell]

def ownerAt (rows : Rows) (row column : Nat) : Option (Nat × Nat) :=
  (cellAt rows row column).bind fun cell => if cell.hidden then cell.anchor else some (row, column)

def extendColspan (rows : Rows) (anchor : Nat × Nat) : Rows :=
  modifyCell rows anchor.1 anchor.2 fun cell => { cell with colspan := cell.colspan + 1 }

def extendRowspan (rows : Rows) (anchor : Nat × Nat) : Rows :=
  modifyCell rows anchor.1 anchor.2 fun cell => { cell with rowspan := cell.rowspan + 1 }

/-- The owner of the place on the left of the next cell. -/
def leftOwner (rows : Rows) : Option (Nat × Nat) :=
  if lastLength rows = 0 then none else ownerAt rows (rows.length - 1) (lastLength rows - 1)

/-- The owner of the place above the next cell. -/
def upOwner (rows : Rows) : Option (Nat × Nat) :=
  if rows.length - 1 = 0 then none else ownerAt rows (rows.length - 2) (lastLength rows)

def extendLeft (rows : Rows) : Rows :=
  let anchor := leftOwner rows
  let rows := match anchor with
    | some anchor => extendColspan rows anchor
    | none => rows
  pushCell rows (.hiddenBy anchor)

def extendUp (rows : Rows) : Rows :=
  let anchor := upOwner rows
  let rows := match anchor with
    | some anchor => extendRowspan rows anchor
    | none => rows
  pushCell rows (.hiddenBy anchor)

def extendBoth (rows : Rows) : Rows :=
  let (rows, anchor) := match leftOwner rows, upOwner rows with
    | some left, some up => if left = up then (rows, some left) else (rows, some up)
    | some left, none => (extendColspan rows left, some left)
    | none, some up => (extendRowspan rows up, some up)
    | none, none => (rows, none)
  pushCell rows (.hiddenBy anchor)

/-! ## HTML -/

/-- One character of `escape_attr`: the three replacements do not meet. -/
def escapeAttrChar (c : Char) : Text :=
  if c = '&' then text "&amp;"
  else if c = '"' then text "&quot;"
  else if c = '<' then text "&lt;"
  else [c]

def escapeAttr (value : Text) : Text := value.flatMap escapeAttrChar

/-- `<img src="data:[^"]*"/>` at the beginning of a text; what is found is the tag. -/
def dataImageAt : Matches.Pattern Char Text := fun t =>
  let opening := text "<img src=\"data:"
  if opening.isPrefixOf t then
    let data := (t.drop opening.length).takeWhile fun c => c ≠ '"'
    let rest := (t.drop opening.length).drop data.length
    if (text "\"/>").isPrefixOf rest then
      let tag := opening ++ data ++ text "\"/>"
      some (tag, tag.length)
    else none
  else none

def escapeCell (value : Text) : Text :=
  let pieces := Matches.cut dataImageAt 0 value
  (pieces.1.flatMap fun (gap, tag) => escapeAttr gap ++ tag) ++ escapeAttr pieces.2

/-- `format!(r#" {name}="{span}""#)` for a span above one. -/
def spanAttribute (name : String) (span : Nat) : Text :=
  if span > 1 then text name ++ text "=\"" ++ Nat.toDigits 10 span ++ ['"'] else []

/-- A cell with its spans and its escaped content. -/
def tableData (colspan rowspan : Nat) (content : Text) : Text :=
  text "<td" ++ spanAttribute " colspan" colspan ++ spanAttribute " rowspan" rowspan ++ ['>'] ++
    content ++ text "</td>"

def Cell.html (cell : Cell) : Text :=
  if cell.hidden then [] else tableData cell.colspan cell.rowspan (escapeCell cell.text)

def tableRow (cells : Text) : Text := text "<tr>" ++ cells ++ text "</tr>"

def tableOf (body : Text) : Text := text "<table>" ++ body ++ text "</table>"

/-! ## The loop -/

structure Otsl where
  rows : Rows
  current : Option (Nat × Nat)

/-- The text before a token belongs to the cell before, or makes a first cell. -/
def Otsl.textBefore (s : Otsl) (before : Text) : Otsl :=
  let before := trim before
  match s.current with
  | some (row, column) =>
    { rows := modifyCell s.rows row column fun cell => { cell with text := cell.text ++ before }
      current := none }
  | none =>
    if before ≠ [] ∧ lastLength s.rows = 0 then
      { rows := pushCell s.rows (.new before), current := none }
    else s

def Otsl.token (s : Otsl) : OtslToken → Otsl
  | .nl => { s with rows := s.rows ++ [[]] }
  | .fcel =>
    { rows := pushCell s.rows (.new [])
      current := some (s.rows.length - 1, lastLength s.rows) }
  | .ecel => { s with rows := pushCell s.rows (.new []) }
  | .lcel => { s with rows := extendLeft s.rows }
  | .ucel => { s with rows := extendUp s.rows }
  | .xcel => { s with rows := extendBoth s.rows }

def Otsl.next (s : Otsl) : Text × OtslToken → Otsl := fun (before, token) =>
  (s.textBefore before).token token

/-- The text behind the last token. -/
def Otsl.finish (s : Otsl) (tail : Text) : Rows :=
  match s.current with
  | some (row, column) =>
    modifyCell s.rows row column fun cell => { cell with text := cell.text ++ trim tail }
  | none => s.rows

def otslHtml (value : Text) : Text :=
  if !OtslToken.all.any (fun token => value.tails.any token.literal.isPrefixOf) then value
  else
    let (found, tail) := Matches.cut tokenAt 0 value
    let rows := (found.foldl Otsl.next ⟨[[]], none⟩).finish tail
    let rows := rows.filter fun row => !row.isEmpty
    if rows.isEmpty then value
    else tableOf (rows.flatMap fun row => tableRow (row.flatMap Cell.html))

end Mineru.Vlm
