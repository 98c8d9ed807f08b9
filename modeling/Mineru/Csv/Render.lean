import Mineru.Csv.Parse

/-!
# The writers of a parsed table

`render_html` and `render_markdown` of `csv_render.rs` write the rows of a table into one growing
text under a byte budget. An `Emit` is a stretch of such code: it takes the text written so far and
returns the text after it, or the error of the budget or of the cancellation flag. `emits` runs
stretches one after another, and a loop is `emits` over the list that it runs through.
-/

set_option autoImplicit false

namespace Mineru.Csv

open Official

/-- Code that appends to `out`. -/
abbrev Emit := Text → Except OfficialError Text

def emits : List Emit → Emit
  | [], out => .ok out
  | e :: es, out => do
    let out ← e out
    emits es out

/-- `check_cancel(cancelled)?`. -/
def poll (cancelled : Option Bool) : Emit := fun out => do
  checkCancel cancelled
  return out

def overBudget : OfficialError := limitExceeded "CSV exceeds rendered output budget"

/-- `disallowed_control`. -/
def disallowedControl (ch : Char) : Bool :=
  let n := ch.toNat
  n ≤ 0x08 || n = 0x0b || n = 0x0c || (0x0e ≤ n && n ≤ 0x1f) || n = 0x7f

section
variable (limit : Nat)

/-- `push_bounded`. -/
def pushBounded (value : Text) : Emit := fun out =>
  if utf8Len out + utf8Len value > limit then .error overBudget else .ok (out ++ value)

/-- `push_char_bounded`. -/
def pushCharBounded (value : Char) : Emit := fun out =>
  if utf8Len out + value.utf8Size > limit then .error overBudget else .ok (out ++ [value])

/-- The `encoded` text where there is one, else the character itself. -/
def pushEncoded (encoded : Option Text) (ch : Char) : Emit :=
  match encoded with
  | some encoded => pushBounded limit encoded
  | none => pushCharBounded limit ch

/-- A line break of two characters: the second one is taken with the first. -/
def takesNext (ch : Char) (peek : Option Char) : Bool := ch = '\r' ∧ peek = some '\n'

/-! ## HTML -/

/-- The text that `render_html` writes for a character of a cell, `none` for the character
itself. -/
def encodeHtml (ch : Char) : Option Text :=
  if ch = '\r' ∨ ch = '\n' then some (text "<br>")
  else if ch = '&' then some (text "&amp;")
  else if ch = '<' then some (text "&lt;")
  else if ch = '>' then some (text "&gt;")
  else if ch = '"' then some (text "&quot;")
  else if ch = '\'' then some (text "&#x27;")
  else if disallowedControl ch then some ['\ufffd']
  else none

variable (cancelled : Option Bool)

/-- The loop over the characters of a cell. -/
def htmlCell (skip : Bool) : Text → Emit
  | [] => emits []
  | ch :: rest =>
    if skip then htmlCell false rest
    else emits [poll cancelled, pushEncoded limit (encodeHtml ch) ch,
      htmlCell (takesNext ch rest.head?) rest]

/-- One column of a row; a short row has empty cells at its end. -/
def htmlColumn (tag : Text) (row : Row) (col : Nat) : Emit :=
  emits [poll cancelled, pushBounded limit (text "\n    <"), pushBounded limit tag,
    pushBounded limit (text ">"), htmlCell limit cancelled false (row[col]?.getD []),
    pushBounded limit (text "</"), pushBounded limit tag, pushBounded limit (text ">")]

def htmlRow (width : Nat) (header : Bool) (index : Nat) (row : Row) : Emit :=
  let tag := if header && index = 0 then text "th" else text "td"
  emits [pushBounded limit (text "\n  <tr>"),
    emits ((List.range width).map (htmlColumn limit cancelled tag row)),
    pushBounded limit (text "\n  </tr>")]

/-- `render_html`. -/
def renderHtml (rows : List Row) (width : Nat) (header : Bool) : Except OfficialError Text :=
  emits [pushBounded limit (text "<table>"),
    emits (rows.zipIdx.map fun r => htmlRow limit cancelled width header r.2 r.1),
    pushBounded limit (text "\n</table>")] []

/-! ## Markdown -/

/-- What `trim_cell_edges` trims. -/
def isEdgeSpace (ch : Char) : Bool :=
  ch ≠ '\r' && ch ≠ '\n' && isWhitespace ch && !disallowedControl ch

/-- `trim_cell_edges`. -/
def trimCellEdges (value : Text) : Text := trimMatches isEdgeSpace value

/-- The text that `markdown_cell` writes for a character that is neither a line break nor a
space, `none` for the character itself. -/
def encodeMarkdown (ch : Char) : Option Text :=
  if ch = '&' then some (text "&amp;")
  else if ch = '<' then some (text "&lt;")
  else if ch = '\\' then some ['\\', '\\']
  else if ch = '|' then some ['\\', '|']
  else if disallowedControl ch then some ['\ufffd']
  else none

/-- The loop of `markdown_cell`. -/
def markdownChars (skip lineHasText pendingSpace : Bool) : Text → Emit
  | [] => emits []
  | ch :: rest =>
    if skip then markdownChars false lineHasText pendingSpace rest
    else if ch = '\r' ∨ ch = '\n' then
      emits [poll cancelled, pushBounded limit (text "<br>"),
        markdownChars (takesNext ch rest.head?) false false rest]
    else if ch = ' ' ∨ ch = '\t' then
      emits [poll cancelled, markdownChars false lineHasText lineHasText rest]
    else
      emits [poll cancelled, if pendingSpace then pushBounded limit (text " ") else emits [],
        pushEncoded limit (encodeMarkdown ch) ch, markdownChars false true false rest]

/-- `markdown_cell`. -/
def markdownCell (value : Text) : Emit :=
  markdownChars limit cancelled false false false (trimCellEdges value)

/-- `push_separator`. -/
def pushSeparator (width : Nat) : Emit :=
  emits [pushBounded limit (text "|"),
    emits ((List.range width).map fun _ => pushBounded limit (text " --- |")),
    pushBounded limit (text "\n")]

def markdownColumn (row : Row) (column : Nat) : Emit :=
  emits [poll cancelled, pushBounded limit (text " "),
    markdownCell limit cancelled (row[column]?.getD []), pushBounded limit (text " |")]

def markdownRow (width index : Nat) (row : Row) : Emit :=
  emits [if index = 1 then pushSeparator limit width else emits [],
    pushBounded limit (text "|"),
    emits ((List.range width).map (markdownColumn limit cancelled row)),
    pushBounded limit (text "\n")]

/-- `render_markdown`; the last line break is popped. -/
def renderMarkdown (rows : List Row) (width : Nat) : Except OfficialError Text :=
  if rows.isEmpty ∨ width = 0 then .ok []
  else
    (emits [emits (rows.zipIdx.map fun r => markdownRow limit cancelled width r.2 r.1),
      if rows.length = 1 then pushSeparator limit width else emits []] []).map List.dropLast

end

example : renderHtml 200 none [[text "a\r\nb", text "<"], []] 2 true =
    .ok (text ("<table>\n  <tr>\n    <th>a<br>b</th>\n    <th>&lt;</th>\n  </tr>\n  <tr>" ++
      "\n    <td></td>\n    <td></td>\n  </tr>\n</table>")) := by decide +kernel

example : renderMarkdown 200 none [[text " a \n b\\|", text "<"]] 2 =
    .ok (text "| a<br>b\\\\\\| | &lt; |\n| --- | --- |") := by decide +kernel

end Mineru.Csv
