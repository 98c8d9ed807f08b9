import Mineru.Error
import Mineru.Logic.Checked
import Mineru.Text

/-!
# The document of a table

`html_tags` and `TableDocument` of `official_builders.rs`: a table is kept as its source with the
ranges of its rows and the place where further rows go, and it is written back by copying slices of the
source. Positions count characters; the source counts bytes, and all of its positions are at
characters.
-/

set_option autoImplicit false

namespace Mineru.Builders

open Logic

/-! ## Tags -/

inductive HtmlTagKind where
  | opening
  | closing
  | other
  deriving DecidableEq, Repr

structure HtmlTag where
  start : Nat
  stop : Nat
  kind : HtmlTagKind
  name : Text
  selfClosing : Bool
  deriving DecidableEq, Repr

/-- `u8::is_ascii_whitespace`. -/
def isAsciiWhitespace (c : Char) : Bool :=
  c == ' ' || c == '\t' || c == '\n' || c == '\r' || c == Char.ofNat 12

def isNameChar (c : Char) : Bool :=
  c.isAlphanum || c == ':' || c == '-' || c == '_'

def isVoidTag (name : Text) : Bool :=
  ["area", "base", "br", "col", "embed", "hr", "img", "input", "link", "meta", "param", "source",
    "track", "wbr"].any fun s => text s == name

/-- The characters up to the `>` that ends the tag; a quoted one does not. -/
def tagInner : Option Char → Text → Option Text
  | _, [] => none
  | some delimiter, c :: rest =>
    (tagInner (if c = delimiter then none else some delimiter) rest).map (c :: ·)
  | none, c :: rest =>
    if c = '\'' ∨ c = '"' then (tagInner (some c) rest).map (c :: ·)
    else if c = '>' then some []
    else (tagInner none rest).map (c :: ·)

/-- How many characters come before `pattern`. -/
def findText (pattern : Text) : Text → Option Nat
  | [] => if pattern = [] then some 0 else none
  | c :: rest =>
    if pattern.isPrefixOf (c :: rest) then some 0 else (findText pattern rest).map (· + 1)

def trimStart (p : Char → Bool) (t : Text) : Text := t.dropWhile p

/-- The tag that starts with the `<` before `rest`. -/
def tagAt (start : Nat) (rest : Text) : Option HtmlTag :=
  if (text "!--").isPrefixOf rest then
    (findText (text "-->") (rest.drop 3)).map fun offset =>
      ⟨start, start + offset + 7, .other, [], true⟩
  else match tagInner none rest with
    | none => none
    | some inner =>
      let stop := start + inner.length + 2
      let body := trimStart isAsciiWhitespace inner
      if body.head? = some '!' ∨ body.head? = some '?' then some ⟨start, stop, .other, [], true⟩
      else
        let close := body.head? = some '/'
        let body := trimStart isAsciiWhitespace (if close then body.tail else body)
        let name := body.takeWhile isNameChar
        if name = [] then none
        else
          let name := name.map Char.toLower
          let slash := (inner.reverse.dropWhile isWhitespace).head? = some '/'
          some ⟨start, stop, if close then .closing else .opening, name,
            !close && (isVoidTag name || slash)⟩

/-- `html_tags`, from the position `index` on; the fuel is the number of characters left. -/
def htmlTagsFrom : Nat → Nat → Text → Option (List HtmlTag)
  | _, _, [] => some []
  | 0, _, _ => none
  | fuel + 1, index, c :: rest =>
    if c ≠ '<' then htmlTagsFrom fuel (index + 1) rest
    else match tagAt index rest with
      | none => none
      | some tag =>
        (htmlTagsFrom fuel tag.stop ((c :: rest).drop (tag.stop - index))).map (tag :: ·)

def htmlTags (html : Text) : Option (List HtmlTag) := htmlTagsFrom html.length 0 html

/-! ## The document -/

structure TableRow where
  raw : Text
  deleted : Bool
  deriving DecidableEq, Repr

structure TableDocument where
  source : Text
  rowRanges : List (Nat × Nat)
  insertion : Nat
  deriving DecidableEq, Repr

/-- The locals of the loop over the tags. -/
structure TableScan where
  stack : List (Text × Nat)
  rows : List (Nat × Nat)
  firstTbody : Option Nat
  insertion : Option Nat
  tableClose : Option (Nat × Nat)
  deriving DecidableEq, Repr

def TableScan.start : TableScan := ⟨[], [], none, none, none⟩

/-- An opening tag. -/
def TableScan.opened (s : TableScan) (tag : HtmlTag) : Option TableScan :=
  if tag.name = text "table" ∧ s.stack ≠ [] then none
  else if tag.selfClosing then some s
  else some { s with
    firstTbody :=
      if tag.name = text "tbody" ∧ s.firstTbody = none then some tag.start else s.firstTbody
    stack := (tag.name, tag.start) :: s.stack }

/-- A closing tag, which closes the tag on top of the stack. -/
def TableScan.closed (s : TableScan) (tag : HtmlTag) : Option TableScan :=
  match s.stack with
  | [] => none
  | (name, opened) :: stack =>
    if name ≠ tag.name then none
    else if name = text "table" ∧ stack ≠ [] then none
    else some { s with
      stack
      rows := if name = text "tr" then s.rows ++ [(opened, tag.stop)] else s.rows
      insertion :=
        if name = text "tbody" ∧ some opened = s.firstTbody then some tag.start else s.insertion
      tableClose := if name = text "table" then some (tag.start, tag.stop) else s.tableClose }

/-- The loop of `TableDocument::parse`, which ends with the table. -/
def TableScan.run (s : TableScan) : List HtmlTag → Option TableScan
  | [] => some s
  | tag :: rest => match tag.kind with
    | .other => s.run rest
    | .opening => (s.opened tag).bind fun s => s.run rest
    | .closing => (s.closed tag).bind fun s => if s.tableClose.isSome then some s else s.run rest

namespace TableDocument

def parse (source : Text) : Option TableDocument :=
  match htmlTags source with
  | none => none
  | some [] => none
  | some (root :: rest) =>
    if trim (source.take root.start) ≠ [] ∨ root.kind ≠ .opening ∨ root.name ≠ text "table" ∨
        root.selfClosing then none
    else (TableScan.start.run (root :: rest)).bind fun s =>
      match s.tableClose with
      | none => none
      | some (tableClose, tableEnd) =>
        if trim (source.drop tableEnd) ≠ [] ∨ s.rows = [] then none
        else some {
          source
          rowRanges := s.rows.insertionSort fun a b => a.1 ≤ b.1
          insertion := s.insertion.getD tableClose }

/-- `&self.source[a..b]`. -/
def slice (d : TableDocument) (a b : Nat) : Checked VlmError Text :=
  if a ≤ b ∧ b ≤ d.source.length then .ok ((d.source.drop a).take (b - a)) else .error .panic

/-- What `append` pushes. -/
def appended (rows : List TableRow) : Text :=
  (rows.filter fun row => !row.deleted).flatMap TableRow.raw

/-- The writer: what it has pushed, where it is in the source, and whether `insertion` is behind. -/
structure Writer where
  output : Text
  cursor : Nat
  inserted : Bool
  deriving DecidableEq, Repr

/-- The rest of the source comes in front of the further rows, unless they are there. -/
def insertBefore (d : TableDocument) (more : List TableRow) (start : Nat) (w : Writer) :
    Checked VlmError Writer :=
  if w.inserted = false ∧ d.insertion ≤ start then do
    let front ← d.slice w.cursor d.insertion
    let back ← d.slice d.insertion start
    return ⟨w.output ++ front ++ appended more ++ back, start, true⟩
  else .ok w

/-- One turn of the loop over the rows. -/
def writeRow (d : TableDocument) (more : List TableRow) (w : Writer)
    (row : (Nat × Nat) × TableRow) : Checked VlmError Writer := do
  let w ← d.insertBefore more row.1.1 w
  let before ← d.slice w.cursor row.1.1
  return ⟨w.output ++ before ++ (if row.2.deleted then [] else row.2.raw), row.1.2, w.inserted⟩

/-- The further rows come last, unless they are there. -/
def insertLast (d : TableDocument) (more : List TableRow) (w : Writer) : Checked VlmError Writer :=
  if w.inserted then .ok w
  else do
    let front ← d.slice w.cursor d.insertion
    return ⟨w.output ++ front ++ appended more, d.insertion, true⟩

/-- The end of `serialize`. -/
def finish (d : TableDocument) (more : List TableRow) (w : Writer) : Checked VlmError Text := do
  let w ← d.insertLast more w
  let rest ← d.slice w.cursor d.source.length
  return w.output ++ rest

def serialize (d : TableDocument) (rows : List TableRow) : Checked VlmError (Option Text) :=
  if rows.length < d.rowRanges.length then .ok none
  else do
    let more := rows.drop d.rowRanges.length
    let w ← (d.rowRanges.zip rows).foldlM (d.writeRow more) ⟨[], 0, false⟩
    let output ← d.finish more w
    return some output

/-- The rows of the document, as `build_table_state` makes them, with deleted flags. -/
def originals (d : TableDocument) (deleted : List Bool) : List TableRow :=
  List.zipWith (fun range flag => ⟨(d.source.drop range.1).take (range.2 - range.1), flag⟩)
    d.rowRanges deleted

end TableDocument

/-! ## Rows -/

structure ParsedCell where
  start : Nat
  openEnd : Nat
  contentEnd : Nat
  stop : Nat
  colspan : Nat
  rowspan : Nat
  deriving DecidableEq, Repr

structure ParsedRow where
  cells : List ParsedCell
  closeStart : Nat
  deriving DecidableEq, Repr

/-- The value of the first attribute of a name in what follows the name of the tag, where `some none`
means that there is none; an attribute without a value, or a malformed one, is refused, as
`span_attribute` does. The fuel is the number of characters. -/
def attributeValue (wanted : Text) : Nat → Text → Option (Option Text)
  | 0, _ => some none
  | fuel + 1, rest =>
    let rest := trimStart isAsciiWhitespace rest
    match rest with
    | [] => some none
    | c :: _ =>
      if c = '>' ∨ c = '/' then some none
      else
        let name := rest.takeWhile isNameChar
        if name = [] then none
        else
          let found := name.map Char.toLower = wanted
          let rest := trimStart isAsciiWhitespace (rest.drop name.length)
          match rest with
          | '=' :: rest =>
            match trimStart isAsciiWhitespace rest with
            | [] => if found then some (some []) else attributeValue wanted fuel []
            | q :: tail =>
              if q = '\'' ∨ q = '"' then
                let value := tail.takeWhile (· ≠ q)
                if value.length = tail.length then none
                else if found then some (some value)
                else attributeValue wanted fuel (tail.drop (value.length + 1))
              else
                let value := (q :: tail).takeWhile fun c => !isAsciiWhitespace c && c ≠ '>'
                if found then some (some value)
                else attributeValue wanted fuel ((q :: tail).drop value.length)
          | rest => if found then none else attributeValue wanted fuel rest

/-- `str::parse::<usize>`. -/
def parseUsize (t : Text) : Option Nat :=
  let digits := if t.head? = some '+' then t.tail else t
  if digits ≠ [] ∧ digits.all Char.isDigit then
    let n := digits.foldl (fun n c => n * 10 + (c.toNat - '0'.toNat)) 0
    if n < 2 ^ 64 then some n else none
  else none

/-- `span_attribute` of an opening tag. -/
def spanAttribute (opening wanted : Text) : Option Nat :=
  let body := opening.tail.dropWhile fun c => !isAsciiWhitespace c && c ≠ '>' && c ≠ '/'
  match attributeValue wanted opening.length body with
  | none => none
  | some none => some 1
  | some (some value) => (parseUsize (trim value)).filter fun n => 0 < n

/-- The locals of `parse_row`. -/
structure RowScan where
  stack : List (Text × Nat)
  cells : List ParsedCell
  activeCell : Option (Nat × Nat × Nat)
  closeStart : Option Nat
  deriving DecidableEq, Repr

def RowScan.start : RowScan := ⟨[], [], none, none⟩

def RowScan.opened (row : Text) (s : RowScan) (tag : HtmlTag) : Option RowScan :=
  if tag.selfClosing then some s
  else if (tag.name = text "td" ∨ tag.name = text "th") ∧ s.stack.length = 1 then
    if s.activeCell.isSome then none
    else do
      let opening := (row.drop tag.start).take (tag.stop - tag.start)
      let colspan ← spanAttribute opening (text "colspan")
      let rowspan ← spanAttribute opening (text "rowspan")
      return { s with
        activeCell := some (tag.start, colspan, rowspan)
        stack := (tag.name, tag.stop) :: s.stack }
  else some { s with stack := (tag.name, tag.stop) :: s.stack }

def RowScan.closed (row : Text) (s : RowScan) (tag : HtmlTag) : Option RowScan :=
  match s.stack with
  | [] => none
  | (name, openEnd) :: stack =>
    if name ≠ tag.name then none
    else if name = text "td" ∨ name = text "th" then
      s.activeCell.map fun (start, colspan, rowspan) =>
        { s with
          stack
          cells := s.cells ++ [⟨start, openEnd, tag.start, tag.stop, colspan, rowspan⟩]
          activeCell := none }
    else if name = text "tr" then
      if stack ≠ [] ∨ trim (row.drop tag.stop) ≠ [] then none
      else some { s with stack, closeStart := some tag.start }
    else some { s with stack }

/-- The loop of `parse_row`, which ends with the row. -/
def RowScan.run (row : Text) (s : RowScan) : List HtmlTag → Option RowScan
  | [] => some s
  | tag :: rest => match tag.kind with
    | .other => s.run row rest
    | .opening => (s.opened row tag).bind fun s => s.run row rest
    | .closing => (s.closed row tag).bind fun s =>
      if s.closeStart.isSome then some s else s.run row rest

def parseRow (row : Text) : Option ParsedRow :=
  match htmlTags row with
  | none => none
  | some [] => none
  | some (root :: rest) =>
    if trim (row.take root.start) ≠ [] ∨ root.kind ≠ .opening ∨ root.name ≠ text "tr" ∨
        root.selfClosing then none
    else (RowScan.start.run row (root :: rest)).bind fun s =>
      s.closeStart.map fun closeStart => ⟨s.cells, closeStart⟩

end Mineru.Builders
