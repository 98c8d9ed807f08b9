import Mineru.Builders.Table
import Mineru.Logic.Table

/-!
# The grid of a table

`scan_rows`, `visual_sources` and `visual_mapping` of `official_builders.rs` lay the cells of a table
out in a grid. A cell goes to the first free column of its row, and it occupies as many columns and
rows as its spans say, whether they are free or not.

`BTreeMap<usize, BTreeSet<usize>>` is the set of its pairs of row and column; a row without columns is
the same as no row for every function here. Spans are added exactly.
-/

set_option autoImplicit false

namespace Mineru.Builders

open Logic

/-- `TailOccupied`: rows and columns. -/
abbrev TailOccupied := Finset (Nat × Nat)

/-- `occupied.get(&row)`. -/
def columns (occupied : TailOccupied) (row : Nat) : Finset Nat :=
  (occupied.filter fun p => p.1 = row).image Prod.snd

/-- `max().map_or(0, |column| column + 1)`. -/
def width (columns : Finset Nat) : Nat := columns.sup (· + 1)

/-- `while taken.contains(&column) { column += 1 }`, for `fuel` turns. -/
def skipTaken (taken : Finset Nat) : Nat → Nat → Nat
  | 0, column => column
  | fuel + 1, column => if column ∈ taken then skipTaken taken fuel (column + 1) else column

/-- The loop: it skips a taken column in each turn. -/
def firstFree (taken : Finset Nat) (column : Nat) : Nat := skipTaken taken taken.card column

/-- The rows and columns of a cell. -/
def block (row column : Nat) (cell : ParsedCell) : TailOccupied :=
  Finset.Ico row (row + cell.rowspan) ×ˢ Finset.Ico column (column + cell.colspan)

/-! ## `scan_rows` -/

structure RowMetrics where
  rowIdx : Nat
  effectiveCols : Nat
  actualCols : Nat
  deriving DecidableEq, Repr

/-- The `RowScan` of the source. -/
structure GridScan where
  effective : List Nat
  metrics : List RowMetrics
  totalCols : Nat
  lastNonempty : Option RowMetrics
  tail : TailOccupied
  deriving DecidableEq

/-- The locals of the loop over the cells. -/
structure CellScan where
  occupied : TailOccupied
  column : Nat
  actualCols : Nat
  totalCols : Nat
  deriving DecidableEq

/-- Where a cell of the row goes. -/
def CellScan.start (row : Nat) (occupiedRow : Finset Nat) (s : CellScan) : Nat :=
  firstFree (occupiedRow ∪ columns s.occupied row) s.column

def CellScan.place (row : Nat) (occupiedRow : Finset Nat) (s : CellScan) (cell : ParsedCell) :
    CellScan :=
  let column := s.start row occupiedRow
  { occupied := s.occupied ∪ block row column cell
    column := column + cell.colspan
    actualCols := s.actualCols + cell.colspan
    totalCols := max s.totalCols (column + cell.colspan) }

/-- The locals of the loop over the rows. -/
structure GridState where
  occupied : TailOccupied
  totalCols : Nat
  effective : List Nat
  metrics : List RowMetrics
  lastNonempty : Option RowMetrics
  deriving DecidableEq

/-- The loop over the cells of a row. -/
def GridState.cells (row : Nat) (s : GridState) (cells : List ParsedCell) : CellScan :=
  cells.foldl (CellScan.place row (columns s.occupied row)) ⟨s.occupied, 0, 0, s.totalCols⟩

/-- One turn of the loop over the rows. -/
def GridState.row (startRowIdx row : Nat) (s : GridState) (parsed : ParsedRow) : GridState :=
  let cells := s.cells row parsed.cells
  let effectiveCols := width (columns cells.occupied row)
  let metric := ⟨startRowIdx + row, effectiveCols, cells.actualCols⟩
  { occupied := cells.occupied
    totalCols := max cells.totalCols effectiveCols
    effective := s.effective ++ [effectiveCols]
    metrics := s.metrics ++ [metric]
    lastNonempty := if parsed.cells.isEmpty then s.lastNonempty else some metric }

/-- The loop over the rows, from the index `row` on. -/
def GridState.rows (startRowIdx : Nat) : Nat → GridState → List ParsedRow → GridState
  | _, s, [] => s
  | row, s, parsed :: rest =>
    GridState.rows startRowIdx (row + 1) (s.row startRowIdx row parsed) rest

def GridState.start (initial : TailOccupied) : GridState :=
  ⟨initial, width (initial.image Prod.snd), [], [], none⟩

/-- What is occupied below the rows. -/
def tailBelow (rows : Nat) (occupied : TailOccupied) : TailOccupied :=
  (occupied.filter fun p => rows ≤ p.1).image fun p => (p.1 - rows, p.2)

/-- The loops of `scan_rows` on rows that have been parsed. -/
def scanParsed (rows : List ParsedRow) (initial : TailOccupied) (startRowIdx : Nat) : GridScan :=
  let s := (GridState.start initial).rows startRowIdx 0 rows
  ⟨s.effective, s.metrics, s.totalCols, s.lastNonempty, tailBelow rows.length s.occupied⟩

/-- `parse_row` of each row; the loops stop at a row that does not parse. -/
def parseRows (rows : List TableRow) : Option (List ParsedRow) := rows.mapM fun row => parseRow row.raw

/-- `scan_rows`. -/
def scanRows (rows : List TableRow) (initial : TailOccupied) (startRowIdx : Nat) :
    Option GridScan :=
  (parseRows rows).map fun parsed => scanParsed parsed initial startRowIdx

/-! ## `visual_sources` -/

/-- The row and the index of a cell; the row of the initial tail is `-1`. -/
structure CellSource where
  row : Int
  cell : Nat
  deriving DecidableEq, Repr

/-- `BTreeMap<usize, BTreeMap<usize, CellSource>>`. -/
abbrev Sources := Table (Nat × Nat) CellSource

/-- The columns of a row that hold a source with a property. -/
def Sources.columns (sources : Sources) (row : Nat) (p : CellSource → Bool) : Finset Nat :=
  ((sources.rows.filter fun entry => entry.1.1 = row ∧ p entry.2 = true).map fun entry =>
    entry.1.2).toFinset

/-- The locals of the loop over the cells. -/
structure SourceScan where
  occupied : Sources
  column : Nat
  totalCols : Nat

/-- The two loops that insert a source. -/
def Sources.fill (sources : Sources) (row column : Nat) (cell : ParsedCell) (source : CellSource) :
    Sources :=
  (List.range' row cell.rowspan).foldl (fun sources r =>
    (List.range' column cell.colspan).foldl (fun sources c => sources.set (r, c) source) sources)
    sources

def SourceScan.place (row : Nat) (s : SourceScan) (entry : ParsedCell × Nat) : SourceScan :=
  let column := firstFree (s.occupied.columns row fun _ => true) s.column
  { occupied := s.occupied.fill row column entry.1 ⟨row, entry.2⟩
    column := column + entry.1.colspan
    totalCols := max s.totalCols (column + entry.1.colspan) }

/-- One turn of the loop over the rows. -/
def SourceScan.row (row : Nat) (s : SourceScan) (parsed : ParsedRow) : SourceScan :=
  parsed.cells.zipIdx.foldl (SourceScan.place row) { s with column := 0 }

def SourceScan.rows : Nat → SourceScan → List ParsedRow → SourceScan
  | _, s, [] => s
  | row, s, parsed :: rest => SourceScan.rows (row + 1) (s.row row parsed) rest

/-- The sources of the initial tail, in the order of its pairs. -/
def SourceScan.start (initial : TailOccupied) : SourceScan where
  occupied := (((initial.image toLex).sort (· ≤ ·)).map ofLex).foldl
    (fun sources p => Table.set sources p ⟨-1, p.2⟩) ∅
  column := 0
  totalCols := width (initial.image Prod.snd)

/-- `visual_sources`: the sources, of which the callers read the target row, and the columns. -/
def visualSources (rows : List TableRow) (target : Nat) (initial : TailOccupied) :
    Option (Sources × Nat) :=
  if target ≥ rows.length then none
  else (parseRows (rows.take (target + 1))).map fun parsed =>
    let s := (SourceScan.start initial).rows 0 parsed
    (s.occupied.keep fun p _ => p.1 = target, s.totalCols)

/-- The loop of `visual_mapping`. -/
def mapCells (earlier : Finset Nat) : Nat → List ParsedCell → List Nat
  | _, [] => []
  | column, cell :: rest =>
    let column := firstFree earlier column
    column :: mapCells earlier (column + cell.colspan) rest

/-- `visual_mapping`. -/
def visualMapping (rows : List TableRow) (target : Nat) (initial : TailOccupied) :
    Option (List Nat) := do
  let (occupied, _) ← visualSources rows target initial
  let row ← rows[target]?
  let parsed ← parseRow row.raw
  let earlier := occupied.columns target fun source => source.row < target
  return mapCells earlier 0 parsed.cells

end Mineru.Builders
