import Mineru.Text
import Mineru.Error

/-!
# The delimited-text parser

`csv::parse` is one loop over the characters with a one-character lookahead. `ParseState` holds the
loop's variables under their source names, `endField` and `endRow` are the two branches that close
a cell and a row, and `parseLoop` is the loop itself; `checked`, the number of characters taken, is
its own argument since only the cancellation poll reads it. `finish` is the flush after the last
character.

`usize` counters are natural numbers: each is bounded by the text's length, and the two saturating
operations (`saturating_add`, `saturating_mul`) are only compared with `MAX_GRID`, far below the
saturation point.
-/

set_option autoImplicit false

namespace Mineru.Csv

open Official

def MAX_BYTES : Nat := 200 * 1024 * 1024
def MAX_ROWS : Nat := 1048576
def MAX_COLUMNS : Nat := 16384
def MAX_GRID : Nat := 250000
def MAX_RENDERED : Nat := 256 * 1024 * 1024

/-- A row of cells. -/
abbrev Row := List Text

def invalidInput (message : String) : OfficialError := ⟨.invalidInput, message⟩
def limitExceeded (message : String) : OfficialError := ⟨.limitExceeded, message⟩

/-- `check_cancel`: `none` is a call without a flag, `some b` a call whose flag reads `b`. -/
def checkCancel (cancelled : Option Bool) : Except OfficialError Unit :=
  if cancelled = some true then .error ⟨.cancelled, "CSV parsing cancelled"⟩ else .ok ()

/-- The variables of the loop of `parse` that its result depends on. -/
structure ParseState where
  rows : List Row := []
  row : Row := []
  field : Text := []
  quoted : Bool := false
  closed : Bool := false
  maxWidth : Nat := 0
  cellCount : Nat := 0
  deriving DecidableEq, Repr

/-- The grid test made after a row is pushed. -/
def ParseState.overGrid (st : ParseState) : Bool :=
  st.cellCount > MAX_GRID || st.rows.length * st.maxWidth > MAX_GRID

/-- `row.push(take(field))`, `rows.push(take(row))` and the width update: what the row terminator
and the final flush share. -/
def ParseState.pushRow (st : ParseState) : ParseState :=
  { st with
    rows := st.rows ++ [st.row ++ [st.field]]
    row := []
    field := []
    closed := false
    maxWidth := max st.maxWidth (st.row.length + 1)
    cellCount := st.cellCount + 1 }

/-- The branch of a delimiter. -/
def endField (st : ParseState) : Except OfficialError ParseState :=
  let st := { st with
    row := st.row ++ [st.field]
    field := []
    cellCount := st.cellCount + 1
    closed := false }
  if st.row.length ≥ MAX_COLUMNS then .error (limitExceeded "CSV exceeds max_columns") else .ok st

/-- The branch of a row terminator, up to the sampling exit. -/
def endRow (limit : Nat) (st : ParseState) : Except OfficialError ParseState :=
  let st := st.pushRow
  if st.overGrid then .error (limitExceeded "CSV exceeds max_grid_slots")
  else if st.rows.length > limit then .error (limitExceeded "CSV exceeds max_rows")
  else .ok st

/-- What `parse` does after the last character. -/
def finish (limit : Nat) (st : ParseState) : Except OfficialError (List Row) :=
  if st.quoted then .error (invalidInput "malformed CSV: unterminated quoted field")
  else
    let flush := !st.field.isEmpty || !st.row.isEmpty || st.closed
    let st := if flush then st.pushRow else st
    if flush && st.overGrid then .error (limitExceeded "CSV exceeds max_grid_slots")
    else if st.rows.length > limit then .error (limitExceeded "CSV exceeds max_rows")
    else .ok st.rows

/-- What one turn of the loop leaves: the rows of the sampling exit, or the next state. `skip` says
that the turn also took the character it had peeked at. -/
inductive Turn where
  | done (rows : List Row)
  | next (skip : Bool) (st : ParseState)
  deriving DecidableEq, Repr

section
variable (delimiter : Char) (limit : Nat) (sample : Bool) (cancelled : Option Bool)

/-- The body of the loop of `parse` on the character `ch`; `peek` is the character after it. -/
def parseTurn (st : ParseState) (ch : Char) (peek : Option Char) : Except OfficialError Turn :=
  if st.quoted then
    if ch = '"' then
      if peek = some '"' then .ok (.next true { st with field := st.field ++ ['"'] })
      else .ok (.next false { st with quoted := false, closed := true })
    else .ok (.next false { st with field := st.field ++ [ch] })
  else if st.closed ∧ ch ≠ delimiter ∧ ch ≠ '\r' ∧ ch ≠ '\n' then
    .error (invalidInput "malformed CSV: data after closing quote")
  else if ch = delimiter then do
    let st ← endField st
    .ok (.next false st)
  else if ch = '\r' ∨ ch = '\n' then do
    let skip : Bool := ch = '\r' ∧ peek = some '\n'
    let st ← endRow limit st
    if sample ∧ st.rows.length = limit then .ok (.done st.rows) else .ok (.next skip st)
  else if ch = '"' ∧ st.field = [] ∧ ¬ st.closed then
    .ok (.next false { st with quoted := true })
  else .ok (.next false { st with field := st.field ++ [ch] })

/-- The loop of `parse`. `skip` drops the character that the turn before has taken already. -/
def parseLoop (checked : Nat) (skip : Bool) (st : ParseState) :
    Text → Except OfficialError (List Row)
  | [] => finish limit st
  | ch :: rest =>
    if skip then parseLoop checked false st rest
    else do
      if (checked + 1) % 8192 = 0 then
        checkCancel cancelled
      match ← parseTurn delimiter limit sample st ch rest.head? with
      | .done rows => .ok rows
      | .next skip st => parseLoop (checked + 1) skip st rest

/-- `csv::parse`. -/
def parse (t : Text) : Except OfficialError (List Row) :=
  parseLoop delimiter limit sample cancelled 0 false {} t

end

example : parse ',' MAX_ROWS false none (text "a,\"b\"\"\n\"\r\nc") =
    .ok [[text "a", text "b\"\n"], [text "c"]] := by decide +kernel

end Mineru.Csv
