import Mineru.Builders.Grid
import Mineru.Logic.Exact

/-!
# The additions of the table layout

The loops over the cells of a table, with the additions of `usize` that they make. `scan_rows`,
`visual_sources` and `visual_mapping` are those of the grid, where a sum beyond `usize::MAX` panics;
`expand_header_rowspans` and `adjust_colspans` follow.
-/

set_option autoImplicit false

namespace Mineru.Builders

open Logic

/-- `usize::MAX`. -/
def usizeMax : Nat := 2 ^ 64 - 1

namespace Usize

/-- A run whose sums are checked; its error is the `None` of the source. -/
abbrev Run (α : Type) := Checked Unit α

def add (a b : Nat) : Run Nat := Checked.add usizeMax a b

/-- `while taken.contains(&column) { column += 1 }`. -/
def skipTaken (taken : Finset Nat) : Nat → Nat → Run Nat
  | 0, column => .ok column
  | fuel + 1, column =>
    if column ∈ taken then do
      let column ← add column 1
      skipTaken taken fuel column
    else .ok column

def firstFree (taken : Finset Nat) (column : Nat) : Run Nat := skipTaken taken taken.card column

/-- `max().map_or(0, |column| column + 1)`. -/
def width (columns : Finset Nat) : Run Nat :=
  if columns.Nonempty then add (columns.sup id) 1 else .ok 0

/-! ## `scan_rows` -/

/-- One cell. The loop over the offsets adds for each of them. -/
def placeCell (row : Nat) (occupiedRow : Finset Nat) (s : CellScan) (cell : ParsedCell) :
    Run CellScan := do
  let column ← firstFree (occupiedRow ∪ columns s.occupied row) s.column
  let actualCols ← add s.actualCols cell.colspan
  (List.range cell.rowspan).forM fun offset => do
    let _ ← add row offset
    let _ ← add column cell.colspan
    return ⟨⟩
  let next ← add column cell.colspan
  return ⟨s.occupied ∪ block row column cell, next, actualCols, max s.totalCols next⟩

/-- One row. -/
def scanRow (startRowIdx row : Nat) (s : GridState) (parsed : ParsedRow) : Run GridState := do
  let cells ← parsed.cells.foldlM (placeCell row (columns s.occupied row))
    ⟨s.occupied, 0, 0, s.totalCols⟩
  let effectiveCols ← width (columns cells.occupied row)
  let rowIdx ← add startRowIdx row
  let metric : RowMetrics := ⟨rowIdx, effectiveCols, cells.actualCols⟩
  return {
    occupied := cells.occupied
    totalCols := max cells.totalCols effectiveCols
    effective := s.effective ++ [effectiveCols]
    metrics := s.metrics ++ [metric]
    lastNonempty := if parsed.cells.isEmpty then s.lastNonempty else some metric }

/-- The loop over the rows, from the index `row` on. -/
def scanFrom (startRowIdx : Nat) : Nat → GridState → List TableRow → Run GridState
  | _, s, [] => .ok s
  | row, s, next :: rest => do
    let parsed ← Checked.okOr (parseRow next.raw) ()
    let s ← scanRow startRowIdx row s parsed
    scanFrom startRowIdx (row + 1) s rest

def scanRows (rows : List TableRow) (initial : TailOccupied) (startRowIdx : Nat) :
    Run GridScan := do
  let totalCols ← width (initial.image Prod.snd)
  let s ← scanFrom startRowIdx 0 ⟨initial, totalCols, [], [], none⟩ rows
  return ⟨s.effective, s.metrics, s.totalCols, s.lastNonempty, tailBelow rows.length s.occupied⟩

/-! ## `visual_sources` -/

/-- One cell. The row is added for each column that is inserted. -/
def placeSource (row : Nat) (s : SourceScan) (entry : ParsedCell × Nat) : Run SourceScan := do
  let column ← firstFree (s.occupied.columns row fun _ => true) s.column
  (List.range entry.1.rowspan).forM fun offset => do
    let _ ← add column entry.1.colspan
    (List.range entry.1.colspan).forM fun _ => do
      let _ ← add row offset
      return ⟨⟩
  let next ← add column entry.1.colspan
  return ⟨s.occupied.fill row column entry.1 ⟨row, entry.2⟩, next, max s.totalCols next⟩

def sourcesFrom : Nat → SourceScan → List TableRow → Run SourceScan
  | _, s, [] => .ok s
  | row, s, next :: rest => do
    let parsed ← Checked.okOr (parseRow next.raw) ()
    let s ← parsed.cells.zipIdx.foldlM (placeSource row) { s with column := 0 }
    sourcesFrom (row + 1) s rest

def visualSources (rows : List TableRow) (target : Nat) (initial : TailOccupied) :
    Run (Sources × Nat) :=
  if target ≥ rows.length then Checked.fail ()
  else do
    let totalCols ← width (initial.image Prod.snd)
    let count ← add target 1
    let s ← sourcesFrom 0 ⟨(SourceScan.start initial).occupied, 0, totalCols⟩ (rows.take count)
    return (s.occupied.keep fun p _ => p.1 = target, s.totalCols)

def mapCells (earlier : Finset Nat) : Nat → List ParsedCell → Run (List Nat)
  | _, [] => .ok []
  | column, cell :: rest => do
    let column ← firstFree earlier column
    let next ← add column cell.colspan
    let mapping ← mapCells earlier next rest
    return column :: mapping

def visualMapping (rows : List TableRow) (target : Nat) (initial : TailOccupied) :
    Run (List Nat) := do
  let sources ← visualSources rows target initial
  let row ← Checked.okOr rows[target]? ()
  let parsed ← Checked.okOr (parseRow row.raw) ()
  mapCells (sources.1.columns target fun source => source.row < target) 0 parsed.cells

/-! ## `expand_header_rowspans` -/

def expandCell (rows index count : Nat) (cell : ParsedCell) : Run Nat := do
  let below ← add index cell.rowspan
  return min (max count below) rows

/-- The loop, at the index of the first of the rows that are left. -/
def expandFrom (total : Nat) : Nat → Nat → List TableRow → Run Nat
  | _, count, [] => .ok count
  | index, count, row :: rest =>
    if index < min count total then do
      let parsed ← Checked.okOr (parseRow row.raw) ()
      let count ← parsed.cells.foldlM (expandCell total index) count
      let index ← add index 1
      expandFrom total index count rest
    else .ok count

def expandHeaderRowspans (rows : List TableRow) (count : Nat) : Run Nat :=
  expandFrom rows.length 0 count rows

/-! ## `adjust_colspans` -/

/-- `set_row_cell_span` of the colspan: the row, the index of the cell and the value. What it does to
the text of the row is no matter here. -/
abbrev SetSpan := TableRow → Nat → Nat → Option TableRow

/-- `sum::<usize>()`. -/
def sum (spans : List Nat) : Run Nat := spans.foldlM add 0

/-- The rows with the spans of the reference. -/
def copySpans (setSpan : SetSpan) (spans : List Nat) (row : TableRow) : Run TableRow :=
  spans.zipIdx.foldlM
    (fun row entry => if entry.1 > 1 then Checked.okOr (setSpan row entry.2 entry.1) () else .ok row)
    row

/-- One turn of the loop over the rows: the row and its index. -/
def adjustRow (setSpan : SetSpan) (effective : List Nat) (referenceCells matchCells :
    List ParsedCell) (targetCols : Nat) (entry : TableRow × Nat) : Run TableRow := do
  let parsed ← Checked.okOr (parseRow entry.1.raw) ()
  let cells := parsed.cells
  if cells.isEmpty then return entry.1
  else if cells.length ≠ referenceCells.length then return entry.1
  else do
    let actual ← sum (cells.map (·.colspan))
    let effectiveCols := effective[entry.2]?.getD 0
    if effectiveCols ≥ targetCols ∨ actual ≥ targetCols then return entry.1
    else if cells.map (·.colspan) = matchCells.map (·.colspan) then
      copySpans setSpan (referenceCells.map (·.colspan)) entry.1
    else do
      let last := cells.length - 1
      let colspan := (cells[last]?.map (·.colspan)).getD 0
      let value ← add colspan (targetCols - effectiveCols)
      Checked.okOr (setSpan entry.1 last value) ()

/-- `adjust_colspans`, which returns the rows. -/
def adjustColspans (setSpan : SetSpan) (rows : List TableRow) (start : Nat) (effective : List Nat)
    (structureReference matchReference : TableRow) (targetCols : Nat) : Run (List TableRow) := do
  let reference ← Checked.okOr (parseRow structureReference.raw) ()
  let matching ← Checked.okOr (parseRow matchReference.raw) ()
  let adjusted ← (rows.zipIdx.drop start).mapM
    (adjustRow setSpan effective reference.cells matching.cells targetCols)
  return rows.take start ++ adjusted

end Usize

end Mineru.Builders
