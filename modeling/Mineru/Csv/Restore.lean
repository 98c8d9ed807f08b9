import Mineru.Csv.Parse
import Mineru.Logic.Checked

/-!
# The reader of a rendered table

`parse_table` of `csv_restore.rs` reads the HTML that `render_html` writes: text and tags in turn,
with flags for what is open. `TableState` holds its variables, `tagStep` is the match on a tag, and
`tableLoop` is the loop. `unwrap` of the open cell is the one place where it could panic.
-/

set_option autoImplicit false

namespace Mineru.Csv

open Logic Official

namespace Restore

def invalid (message : String) : OfficialError := ⟨.invalidInput, message⟩
def overLimit : OfficialError := ⟨.limitExceeded, "native CSV result exceeds retained byte limit"⟩

/-- `check_cancel` of the restore. -/
def checkCancel (cancelled : Bool) : Checked OfficialError Unit :=
  if cancelled then Checked.fail ⟨.cancelled, "CSV restore cancelled"⟩ else .ok ()

/-- The variables of the loop of `parse_table`. -/
structure TableState where
  rows : List Row := []
  row : Row := []
  cell : Option Text := none
  cellTag : Option Text := none
  tableOpen : Bool := false
  rowOpen : Bool := false
  tableClosed : Bool := false
  cellCount : Nat := 0
  maxWidth : Nat := 0
  deriving DecidableEq, Repr

/-- The entities that `append_text` knows. -/
def entity (name : Text) : Option Char :=
  if name = text "&amp;" then some '&'
  else if name = text "&lt;" then some '<'
  else if name = text "&gt;" then some '>'
  else if name = text "&quot;" then some '"'
  else if name = text "&#x27;" then some '\''
  else if name = text "&#xfffd;" ∨ name = text "&#xFFFD;" then some '\ufffd'
  else none

/-- `append_text`: what is appended to the target. -/
def appendText (cancelled : Bool) (target : Text) : Text → Checked OfficialError Text
  | [] => .ok target
  | ch :: rest =>
    if ch = '&' then
      let name := rest.takeWhile (· ≠ ';')
      let after := rest.dropWhile (· ≠ ';')
      match checkCancel cancelled with
      | .error e => .error e
      | .ok _ =>
        match _hafter : after with
        | [] => Checked.fail (invalid "invalid HTML entity")
        | _ :: after =>
          match entity ('&' :: name ++ [';']) with
          | some decoded => appendText cancelled (target ++ [decoded]) after
          | none => Checked.fail (invalid "unsupported HTML entity")
    else appendText cancelled (target ++ [ch]) rest
termination_by t => t.length
decreasing_by
  · have shorter := (List.dropWhile_suffix (fun c : Char => decide (c ≠ ';')) : _ <:+ rest).length_le
    have : (rest.dropWhile (· ≠ ';')).length = after.length + 1 := congrArg List.length _hafter
    simp only [List.length_cons]
    omega
  · exact Nat.lt_succ_self _

/-- `row.push(cell.take().unwrap())`. -/
def closeCell (st : TableState) : Checked OfficialError TableState :=
  match st.cell with
  | some cell => .ok { st with row := st.row ++ [cell], cell := none, cellCount := st.cellCount + 1 }
  | none => .error .panic

/-- The branch of `/tr`. -/
def closeRow (st : TableState) : Checked OfficialError TableState :=
  let rows := st.rows ++ [st.row]
  let maxWidth := max st.maxWidth st.row.length
  if rows.length * maxWidth > MAX_GRID then Checked.fail overLimit
  else .ok { st with rows, row := [], rowOpen := false, maxWidth }

/-- The match on a tag. -/
def tagMatch (st : TableState) (tag : Text) : Checked OfficialError TableState :=
  if tag = text "table" ∧ ¬ st.tableOpen ∧ ¬ st.tableClosed then .ok { st with tableOpen := true }
  else if tag = text "/table" ∧ st.tableOpen ∧ ¬ st.rowOpen ∧ st.cell.isNone then
    .ok { st with tableOpen := false, tableClosed := true }
  else if tag = text "tr" ∧ st.tableOpen ∧ ¬ st.rowOpen ∧ st.cell.isNone then
    .ok { st with rowOpen := true, row := [] }
  else if tag = text "/tr" ∧ st.rowOpen ∧ st.cell.isNone then closeRow st
  else if (tag = text "td" ∨ tag = text "th") ∧ st.rowOpen ∧ st.cell.isNone then
    if st.row.length ≥ MAX_COLUMNS then Checked.fail overLimit
    else .ok { st with cell := some [], cellTag := some tag }
  else if tag = text "/td" ∧ st.rowOpen ∧ st.cellTag = some (text "td") then closeCell st
  else if tag = text "/th" ∧ st.rowOpen ∧ st.cellTag = some (text "th") then closeCell st
  else if tag = text "br" ∧ st.cell.isSome then
    .ok { st with cell := st.cell.map (· ++ ['\n']) }
  else Checked.fail (invalid "unsupported native CSV table markup")

/-- The match on a tag, and the reset of `cell_tag` after it. -/
def tagStep (st : TableState) (tag : Text) : Checked OfficialError TableState := do
  let st ← tagMatch st tag
  return if st.cell.isNone then { st with cellTag := none } else st

/-- Text between two tags, or after the last one. -/
def textStep (cancelled : Bool) (message : String) (st : TableState) (t : Text) :
    Checked OfficialError TableState :=
  match st.cell with
  | some cell => do
    let cell ← appendText cancelled cell t
    return { st with cell := some cell }
  | none => if (trim t).isEmpty then .ok st else Checked.fail (invalid message)

/-- The test at the end of a turn. -/
def withinLimits (st : TableState) : Checked OfficialError Unit :=
  Checked.reject (st.rows.length > 1048576 ∨ st.cellCount > MAX_GRID) overLimit

/-- The checks after the loop. -/
def finishTable (st : TableState) : Checked OfficialError (List Row) :=
  if ¬ st.tableClosed ∨ st.tableOpen ∨ st.rowOpen ∨ st.cell.isSome ∨
      st.rows.any fun r => r.length > MAX_COLUMNS then
    Checked.fail (invalid "incomplete or oversized native CSV table")
  else .ok st.rows

/-- One turn of the loop up to the tag: the poll, the text before it and the tag's name. -/
def turn (cancelled : Bool) (iterations : Nat) (st : TableState) (pre tag : Text) :
    Checked OfficialError TableState := do
  (if iterations % 1024 = 0 then checkCancel cancelled else .ok ())
  let st ← textStep cancelled "invalid table whitespace" st pre
  let st ← tagStep st tag
  withinLimits st
  return st

/-- The last turn: text without a tag. -/
def lastTurn (cancelled : Bool) (iterations : Nat) (st : TableState) (rest : Text) :
    Checked OfficialError (List Row) := do
  (if iterations % 1024 = 0 then checkCancel cancelled else .ok ())
  let st ← textStep cancelled "invalid table trailing data" st rest
  withinLimits st
  finishTable st

/-- The loop of `parse_table`. -/
def tableLoop (cancelled : Bool) (iterations : Nat) (st : TableState) (rest : Text) :
    Checked OfficialError (List Row) :=
  if rest.isEmpty then finishTable st
  else
    match hopen : rest.dropWhile (· ≠ '<') with
    | [] => lastTurn cancelled (iterations + 1) st rest
    | _ :: inside =>
      match _hclose : inside.dropWhile (· ≠ '>') with
      | [] => do
        (if (iterations + 1) % 1024 = 0 then checkCancel cancelled else .ok ())
        let _ ← textStep cancelled "invalid table whitespace" st (rest.takeWhile (· ≠ '<'))
        Checked.fail (invalid "malformed table markup")
      | _ :: after =>
        match turn cancelled (iterations + 1) st (rest.takeWhile (· ≠ '<'))
            (inside.takeWhile (· ≠ '>')) with
        | .error e => .error e
        | .ok st => tableLoop cancelled (iterations + 1) st after
termination_by rest.length
decreasing_by
  have first := (List.dropWhile_suffix (fun c : Char => decide (c ≠ '<')) : _ <:+ rest).length_le
  have second := (List.dropWhile_suffix (fun c : Char => decide (c ≠ '>')) : _ <:+ inside).length_le
  rw [hopen, List.length_cons] at first
  rw [_hclose, List.length_cons] at second
  omega

/-- `parse_table`. -/
def parseTable (cancelled : Bool) (html : Text) : Checked OfficialError (List Row) :=
  tableLoop cancelled 0 {} html

end Restore

end Mineru.Csv
