import Mineru.Builders.TableState
import Mineru.Laws.Builders.Grid

/-!
# When the additions of the table layout fit

Every sum of the five functions is the end of a cell, in columns or in rows, or it is below one. So
they all fit exactly when, with the cells laid out with unbounded numbers, none ends past the column
`usize::MAX` and none reaches past the row `usize::MAX` (`GridFits`).

Each function comes in two forms: the one of the source, whose additions are checked, and the one
over unbounded numbers. `…_exactly` says when the first returns, and that it then agrees with the
second; `…_value` says the same of a whole loop, for a grid that fits. A row that does not parse is
an error of its own, and no statement about overflow is made of it.

A state that `build_table_state` returns has gone through the scan without an overflow. Whether its
texts can be read is not asked here: `html_unescape` panics for reasons of its own.
-/

set_option autoImplicit false

namespace Mineru.Builders

open Logic Logic.Checked

namespace Usize

/-! ## Columns -/

/-- The one source of overflow. Everything below is put together from this sum. -/
theorem add_exactly (a b : Nat) : Exactly (add a b) (a + b) (a + b ≤ usizeMax) :=
  Exactly.add usizeMax a b

/-- The loop only adds when it moves. -/
theorem skipTaken_exactly (taken : Finset Nat) (fuel column : Nat) :
    Exactly (skipTaken taken fuel column) (Builders.skipTaken taken fuel column)
      (Builders.skipTaken taken fuel column = column ∨
        Builders.skipTaken taken fuel column ≤ usizeMax) := by
  induction fuel generalizing column with
  | zero => exact (Exactly.ok column).congr (by simp [Builders.skipTaken])
  | succ fuel ih =>
    unfold skipTaken Builders.skipTaken
    split
    · refine ((add_exactly column 1).bind (ih (column + 1))).congr ?_
      have ge := skipTaken_ge taken fuel (column + 1)
      constructor
      · rintro ⟨fits, same | less⟩
        · exact Or.inr (same.trans_le fits)
        · exact Or.inr less
      · rintro (same | less)
        · omega
        · exact ⟨ge.trans less, Or.inr less⟩
    · exact (Exactly.ok column).congr (by simp)

/-- The search for a free column adds one for each taken column that it passes, so it fits when the
column that it finds does. Where it starts there is nothing to add. -/
theorem firstFree_exactly (taken : Finset Nat) (column : Nat) :
    Exactly (firstFree taken column) (Builders.firstFree taken column)
      (Builders.firstFree taken column = column ∨
        Builders.firstFree taken column ≤ usizeMax) :=
  skipTaken_exactly taken taken.card column

theorem width_sup {cols : Finset Nat} (some : cols.Nonempty) :
    Builders.width cols = cols.sup id + 1 := by
  apply Nat.le_antisymm
  · exact width_le fun c mem => Nat.lt_succ_of_le (Finset.le_sup (f := id) mem)
  · obtain ⟨c, mem, same⟩ := Finset.exists_mem_eq_sup cols some id
    rw [same]
    exact lt_width mem

/-- The width is one more than the greatest column, which is the only sum that is formed. -/
theorem width_exactly (cols : Finset Nat) :
    Exactly (width cols) (Builders.width cols) (Builders.width cols ≤ usizeMax) := by
  unfold width
  split
  · rename_i some
    rw [width_sup some]
    exact add_exactly _ 1
  · rename_i none
    rw [Finset.not_nonempty_iff_eq_empty.mp none]
    exact (Exactly.ok 0).congr (by simp [Builders.width])

/-! ## `scan_rows` -/

section Scan

variable {row : Nat} {occupiedRow : Finset Nat}

/-- What the additions for a cell ask. -/
def CellFits (row : Nat) (occupiedRow : Finset Nat) (s : CellScan) (cell : ParsedCell) : Prop :=
  (s.start row occupiedRow = s.column ∨ s.start row occupiedRow ≤ usizeMax) ∧
    s.actualCols + cell.colspan ≤ usizeMax ∧
    (∀ offset ∈ List.range cell.rowspan, row + offset ≤ usizeMax ∧
      s.start row occupiedRow + cell.colspan ≤ usizeMax) ∧
    s.start row occupiedRow + cell.colspan ≤ usizeMax

theorem offsets_exactly (column : Nat) (cell : ParsedCell) :
    Exactly ((List.range cell.rowspan).forM fun offset => (do
        let _ ← add row offset
        let _ ← add column cell.colspan
        return ⟨⟩ : Run PUnit)) ⟨⟩
      (∀ offset ∈ List.range cell.rowspan, row + offset ≤ usizeMax ∧
        column + cell.colspan ≤ usizeMax) :=
  Exactly.forM (fun offset => (add_exactly row offset).bind
    ((add_exactly column cell.colspan).map fun _ => PUnit.unit)) _

/-- A cell is placed as with unbounded numbers exactly when its end fits, in columns and in rows
(`CellFits`). The sums on the way to it are all below one of the two. -/
theorem placeCell_exactly (s : CellScan) (cell : ParsedCell) :
    Exactly (placeCell row occupiedRow s cell) (s.place row occupiedRow cell)
      (CellFits row occupiedRow s cell) :=
  (firstFree_exactly _ s.column).bind <| (add_exactly s.actualCols cell.colspan).bind <|
    (offsets_exactly _ cell).bind <|
      (add_exactly (s.start row occupiedRow) cell.colspan).map fun next =>
        (⟨s.occupied ∪ block row (s.start row occupiedRow) cell, next,
          s.actualCols + cell.colspan, max s.totalCols next⟩ : CellScan)

/-- The count of columns is a maximum, so a later cell never lowers it. This is what lets the last
count stand for all the ends before it. -/
theorem total_le_place (s : CellScan) (cell : ParsedCell) :
    s.totalCols ≤ (s.place row occupiedRow cell).totalCols :=
  Nat.le_max_left _ _

theorem total_le_cells (s : CellScan) (cells : List ParsedCell) :
    s.totalCols ≤ (cells.foldl (CellScan.place row occupiedRow) s).totalCols := by
  induction cells generalizing s with
  | nil => exact Nat.le_refl _
  | cons cell rest ih => exact (total_le_place s cell).trans (ih (s.place row occupiedRow cell))

theorem column_le_start (s : CellScan) : s.column ≤ s.start row occupiedRow := firstFree_ge _ _

/-- No cell ends past the columns that are counted, so those bound the additions. -/
theorem cells_fit {s : CellScan} {cells : List ParsedCell}
    (columns : (cells.foldl (CellScan.place row occupiedRow) s).totalCols ≤ usizeMax)
    (rows : ∀ cell ∈ cells, row + cell.rowspan ≤ usizeMax) (actual : s.actualCols ≤ s.column) :
    Along (CellScan.place row occupiedRow) (CellFits row occupiedRow) s cells := by
  induction cells generalizing s with
  | nil => trivial
  | cons cell rest ih =>
    have stop : s.start row occupiedRow + cell.colspan ≤ usizeMax :=
      (Nat.le_max_right _ _).trans ((total_le_cells (s.place row occupiedRow cell) rest).trans columns)
    have start : s.column ≤ s.start row occupiedRow := column_le_start s
    have below := rows cell List.mem_cons_self
    refine ⟨⟨Or.inr (Nat.le_of_add_right_le stop), by omega, ?_, stop⟩, ?_⟩
    · intro offset mem
      have less := List.mem_range.mp mem
      exact ⟨by omega, stop⟩
    · have next : (s.place row occupiedRow cell).actualCols ≤
          (s.place row occupiedRow cell).column :=
        Nat.add_le_add_right (actual.trans start) cell.colspan
      exact ih columns (fun c mem => rows c (List.mem_cons_of_mem _ mem)) next

/-- The converse of `cells_fit`: once each cell of a row fits, so does the count of columns at its
end. -/
theorem total_of_along {s : CellScan} {cells : List ParsedCell}
    (along : Along (CellScan.place row occupiedRow) (CellFits row occupiedRow) s cells)
    (total : s.totalCols ≤ usizeMax) :
    (cells.foldl (CellScan.place row occupiedRow) s).totalCols ≤ usizeMax := by
  induction cells generalizing s with
  | nil => exact total
  | cons cell rest ih => exact ih along.2 (Nat.max_le.mpr ⟨total, along.1.2.2.2⟩)

end Scan

/-- What the additions for a row ask. -/
def RowFits (startRowIdx row : Nat) (s : GridState) (parsed : ParsedRow) : Prop :=
  Along (CellScan.place row (columns s.occupied row)) (CellFits row (columns s.occupied row))
      ⟨s.occupied, 0, 0, s.totalCols⟩ parsed.cells ∧
    Builders.width (columns (s.cells row parsed.cells).occupied row) ≤ usizeMax ∧
    startRowIdx + row ≤ usizeMax

/-- A row of the scan, by its cells and the width that it is left with. -/
theorem scanRow_exactly (startRowIdx row : Nat) (s : GridState) (parsed : ParsedRow) :
    Exactly (scanRow startRowIdx row s parsed) (s.row startRowIdx row parsed)
      (RowFits startRowIdx row s parsed) := by
  unfold scanRow
  refine Exactly.congr (Exactly.bind (Exactly.foldlM placeCell_exactly parsed.cells _)
    (Exactly.bind (width_exactly _) (Exactly.bind (q := True) (add_exactly startRowIdx row) ?_))) ?_
  · exact Exactly.ok (s.row startRowIdx row parsed)
  · rw [and_true]
    rfl

theorem total_le_row (startRowIdx row : Nat) (s : GridState) (parsed : ParsedRow) :
    s.totalCols ≤ (s.row startRowIdx row parsed).totalCols :=
  (total_le_cells (⟨s.occupied, 0, 0, s.totalCols⟩ : CellScan) parsed.cells).trans
    (Nat.le_max_left _ _)

theorem total_le_rows (startRowIdx row : Nat) (s : GridState) (parsed : List ParsedRow) :
    s.totalCols ≤ (s.rows startRowIdx row parsed).totalCols := by
  induction parsed generalizing s row with
  | nil => exact Nat.le_refl _
  | cons first rest ih =>
    exact (total_le_row startRowIdx row s first).trans (ih (row + 1) _)

/-- No cell of the rows, the first of which has an index, reaches past the row `usize::MAX`. -/
def RowsFit (row : Nat) (parsed : List ParsedRow) : Prop :=
  ∀ index cells, parsed[index]? = some cells → ∀ cell ∈ cells.cells,
    row + index + cell.rowspan ≤ usizeMax

/-- The reach of the rows, one row at a time. -/
theorem rowsFit_cons {row : Nat} {first : ParsedRow} {rest : List ParsedRow} :
    RowsFit row (first :: rest) ↔
      (∀ cell ∈ first.cells, row + cell.rowspan ≤ usizeMax) ∧ RowsFit (row + 1) rest := by
  constructor
  · intro fit
    refine ⟨fit 0 first rfl, fun index cells at' cell mem => ?_⟩
    have less := fit (index + 1) cells at' cell mem
    omega
  · rintro ⟨here, later⟩ index cells at' cell mem
    cases index with
    | zero => exact here cell (Option.some.inj at' ▸ mem)
    | succ index =>
      have less := later index cells at' cell mem
      omega

/-- The scan from a row on, for rows that all parse: with the last count of columns and the reach of
every row inside the word, nothing overflows. -/
theorem scanFrom_value {rows : List TableRow} {parsed : List ParsedRow}
    (is : parseRows rows = some parsed) {startRowIdx row : Nat} {s : GridState}
    (columns : (s.rows startRowIdx row parsed).totalCols ≤ usizeMax) (fit : RowsFit row parsed)
    (count : startRowIdx + row + rows.length ≤ usizeMax) :
    scanFrom startRowIdx row s rows = .ok (s.rows startRowIdx row parsed) := by
  induction rows generalizing parsed row s with
  | nil =>
    have none : [] = parsed := Option.some.inj is
    rw [← none]
    rfl
  | cons next rest ih =>
    obtain ⟨first, more, isFirst, isRest, rfl⟩ := parseRows_cons is
    have here := rowsFit_cons.mp fit
    rw [List.length_cons] at count
    have total : (s.row startRowIdx row first).totalCols ≤ usizeMax :=
      (total_le_rows startRowIdx (row + 1) _ more).trans columns
    have fits : RowFits startRowIdx row s first :=
      ⟨cells_fit ((Nat.le_max_left _ _).trans total) here.1 (Nat.le_refl 0),
        (Nat.le_max_right _ _).trans total, by omega⟩
    rw [scanFrom, isFirst]
    dsimp only [Checked.okOr, bind, Except.bind]
    rw [(scanRow_exactly startRowIdx row s first).value fits]
    exact ih isRest columns here.2 (by omega)

/-- The other direction. A scan that does not panic has formed the end of each cell, so that the
count which bounds them fits as well. -/
theorem total_of_scanFrom {rows : List TableRow} {parsed : List ParsedRow}
    (is : parseRows rows = some parsed) {startRowIdx row : Nat} {s : GridState}
    (total : s.totalCols ≤ usizeMax)
    (ne : scanFrom startRowIdx row s rows ≠ .error .panic) :
    (s.rows startRowIdx row parsed).totalCols ≤ usizeMax := by
  induction rows generalizing parsed row s with
  | nil =>
    have none : [] = parsed := Option.some.inj is
    rw [← none]
    exact total
  | cons next rest ih =>
    obtain ⟨first, more, isFirst, isRest, rfl⟩ := parseRows_cons is
    rw [scanFrom, isFirst] at ne
    dsimp only [Checked.okOr, bind, Except.bind] at ne
    by_cases fits : RowFits startRowIdx row s first
    · rw [(scanRow_exactly startRowIdx row s first).value fits] at ne
      exact ih isRest (Nat.max_le.mpr ⟨total_of_along fits.1 total, fits.2.1⟩) ne
    · rw [(scanRow_exactly startRowIdx row s first).halt fits] at ne
      exact absurd rfl ne

/-! ## `visual_sources` and `visual_mapping` -/

section Sources

variable {row : Nat}

/-- What the additions for a source ask. -/
def SourceFits (row : Nat) (t : SourceScan) (entry : ParsedCell × Nat) : Prop :=
  (t.next row = t.column ∨ t.next row ≤ usizeMax) ∧
    (∀ offset ∈ List.range entry.1.rowspan, t.next row + entry.1.colspan ≤ usizeMax ∧
      ∀ _column ∈ List.range entry.1.colspan, row + offset ≤ usizeMax) ∧
    t.next row + entry.1.colspan ≤ usizeMax

theorem inserts_exactly (column : Nat) (cell : ParsedCell) :
    Exactly ((List.range cell.rowspan).forM fun offset => (do
        let _ ← add column cell.colspan
        (List.range cell.colspan).forM fun _ => do
          let _ ← add row offset
          return ⟨⟩ : Run PUnit)) ⟨⟩
      (∀ offset ∈ List.range cell.rowspan, column + cell.colspan ≤ usizeMax ∧
        ∀ _column ∈ List.range cell.colspan, row + offset ≤ usizeMax) :=
  Exactly.forM (fun offset => (add_exactly column cell.colspan).bind
    (Exactly.forM (fun _ => (add_exactly row offset).map fun _ => PUnit.unit) _)) _

/-- The loop of `visual_sources` keeps the first cell of a column instead of all of them, and adds
the same ends. -/
theorem placeSource_exactly (t : SourceScan) (entry : ParsedCell × Nat) :
    Exactly (placeSource row t entry) (t.place row entry) (SourceFits row t entry) :=
  (firstFree_exactly _ t.column).bind <| (inserts_exactly _ entry.1).bind <|
    (add_exactly (t.next row) entry.1.colspan).map fun next =>
      (⟨t.occupied.fill row (t.next row) entry.1 ⟨row, entry.2⟩, next, max t.totalCols next⟩ :
        SourceScan)

theorem total_le_sources (t : SourceScan) (entries : List (ParsedCell × Nat)) :
    t.totalCols ≤ (entries.foldl (SourceScan.place row) t).totalCols := by
  induction entries generalizing t with
  | nil => exact Nat.le_refl _
  | cons entry rest ih => exact (Nat.le_max_left _ _).trans (ih (t.place row entry))

theorem total_le_sourceRows (row : Nat) (t : SourceScan) (parsed : List ParsedRow) :
    t.totalCols ≤ (t.rows row parsed).totalCols := by
  induction parsed generalizing row t with
  | nil => exact Nat.le_refl _
  | cons first rest ih =>
    exact (total_le_sources { t with column := 0 } first.cells.zipIdx).trans
      (ih (row + 1) (t.row row first))

/-- The end of a cell is among the columns that are counted behind it, whatever cells follow. -/
theorem stop_le_sources (t : SourceScan) (entry : ParsedCell × Nat)
    (rest : List (ParsedCell × Nat)) :
    t.next row + entry.1.colspan ≤
      (rest.foldl (SourceScan.place row) (t.place row entry)).totalCols :=
  (Nat.le_max_right _ _).trans (total_le_sources (t.place row entry) rest)

theorem sources_fit {t : SourceScan} {entries : List (ParsedCell × Nat)}
    (columns : (entries.foldl (SourceScan.place row) t).totalCols ≤ usizeMax)
    (rows : ∀ entry ∈ entries, row + entry.1.rowspan ≤ usizeMax) :
    Along (SourceScan.place row) (SourceFits row) t entries := by
  induction entries generalizing t with
  | nil => trivial
  | cons entry rest ih =>
    have stop := (stop_le_sources t entry rest).trans columns
    have below := rows entry List.mem_cons_self
    refine ⟨⟨Or.inr (Nat.le_of_add_right_le stop), ?_, stop⟩,
      ih columns fun e mem => rows e (List.mem_cons_of_mem _ mem)⟩
    intro offset mem
    have less := List.mem_range.mp mem
    exact ⟨stop, fun _ _ => by omega⟩

/-- The mapping adds no more than the loop whose places it finds. -/
theorem mapCells_value {t : SourceScan} (earlier : EarlierFrom row t) (cells : List ParsedCell)
    (index : Nat)
    (columns : ((cells.zipIdx index).foldl (SourceScan.place row) t).totalCols ≤ usizeMax) :
    mapCells (((cells.zipIdx index).foldl (SourceScan.place row) t).earlier row) t.column cells =
      .ok (t.nexts row (cells.zipIdx index)) := by
  induction cells generalizing t index with
  | nil => rfl
  | cons cell rest ih =>
    rw [List.zipIdx_cons, List.foldl_cons] at columns
    have stop := (stop_le_sources t (cell, index) _).trans columns
    have here := firstFree_earlier earlier (cell, index) (rest.zipIdx (index + 1))
    have there := ih (earlier_place earlier (cell, index)) (index + 1) columns
    have free := (firstFree_exactly _ t.column).value
      (Or.inr (here.trans_le (Nat.le_of_add_right_le stop)))
    rw [here] at free
    rw [List.zipIdx_cons, List.foldl_cons, mapCells, free]
    dsimp only [bind, Except.bind]
    rw [(add_exactly (t.next row) cell.colspan).value stop]
    dsimp only [bind, Except.bind]
    change (mapCells _ (t.place row (cell, index)).column rest).bind _ = _
    rw [there]
    rfl

end Sources

/-- `visual_sources` up to a row, under the same two bounds as the scan. -/
theorem sourcesFrom_value {rows : List TableRow} {parsed : List ParsedRow}
    (is : parseRows rows = some parsed) {row : Nat} {t : SourceScan}
    (columns : (t.rows row parsed).totalCols ≤ usizeMax) (fit : RowsFit row parsed) :
    sourcesFrom row t rows = .ok (t.rows row parsed) := by
  induction rows generalizing parsed row t with
  | nil =>
    have none : [] = parsed := Option.some.inj is
    rw [← none]
    rfl
  | cons next rest ih =>
    obtain ⟨first, more, isFirst, isRest, rfl⟩ := parseRows_cons is
    have here := rowsFit_cons.mp fit
    have total : (t.row row first).totalCols ≤ usizeMax :=
      (total_le_sourceRows (row + 1) _ more).trans columns
    have fits : Along (SourceScan.place row) (SourceFits row) { t with column := 0 }
        first.cells.zipIdx :=
      sources_fit total fun entry mem => here.1 entry.1 (List.fst_mem_of_mem_zipIdx mem)
    rw [sourcesFrom, isFirst]
    dsimp only [Checked.okOr, bind, Except.bind]
    rw [(Exactly.foldlM placeSource_exactly first.cells.zipIdx _).value fits]
    exact ih isRest columns here.2

/-- The sources count no more columns than the scan. -/
theorem CellsMatch.total {row : Nat} {occupiedRow : Finset Nat} {s : CellScan} {t : SourceScan}
    (same : CellsMatch row occupiedRow s t) (le : t.totalCols ≤ s.totalCols)
    (cells : List ParsedCell) (index : Nat) :
    ((cells.zipIdx index).foldl (SourceScan.place row) t).totalCols ≤
      (cells.foldl (CellScan.place row occupiedRow) s).totalCols := by
  induction cells generalizing s t index with
  | nil => exact le
  | cons cell rest ih =>
    have next : (t.place row (cell, index)).totalCols ≤
        (s.place row occupiedRow cell).totalCols :=
      max_le_max le (Nat.le_of_eq (congrArg (· + cell.colspan) same.next.symm))
    rw [List.zipIdx_cons, List.foldl_cons, List.foldl_cons]
    exact ih (same.place (cell, index)) next (index + 1)

/-- From states that cover one another the sources count no more than the scan does, over any rows.
Thus a grid that fits the scan needs no bound of its own for the sources. -/
theorem sources_total {s : GridState} {t : SourceScan} (covers : Covers t.occupied s.occupied)
    (le : t.totalCols ≤ s.totalCols) (startRowIdx row : Nat) (parsed : List ParsedRow) :
    (t.rows row parsed).totalCols ≤ (s.rows startRowIdx row parsed).totalCols := by
  induction parsed generalizing s t row with
  | nil => exact le
  | cons first rest ih =>
    have next : (t.row row first).totalCols ≤ (s.row startRowIdx row first).totalCols :=
      (CellsMatch.total (cells_match covers row) le first.cells 0).trans (Nat.le_max_left _ _)
    exact ih (covers_row covers startRowIdx row first) next (row + 1)

theorem parseRows_take {rows : List TableRow} {parsed : List ParsedRow}
    (is : parseRows rows = some parsed) {count : Nat} (inside : count ≤ rows.length) :
    parseRows (rows.take count) = some (parsed.take count) := by
  rw [← List.take_append_drop count rows] at is
  obtain ⟨first, second, isFirst, -, rfl⟩ := parseRows_append is
  have length : first.length = count :=
    (parseRows_length isFirst).trans (List.length_take_of_le inside)
  rw [← length, List.take_left, length, isFirst]

/-! ## The condition -/

/-- With the cells laid out with unbounded numbers: nothing that is carried over reaches past the column
`usize::MAX`, no cell ends past it, and no cell reaches past the row `usize::MAX`. -/
structure GridFits (parsed : List ParsedRow) (initial : TailOccupied) : Prop where
  carried : ∀ p ∈ initial, p.2 + 1 ≤ usizeMax
  columns : ∀ index row, parsed[index]? = some row →
    ∀ place ∈ (scanned parsed initial 0 index).places index row, place.1 + place.2.colspan ≤ usizeMax
  rows : RowsFit 0 parsed

/-- A bound on the count of columns is a bound on the ends of the cells, each at the column where
the loop puts it. -/
theorem total_cells_iff (row bound : Nat) (occupiedRow : Finset Nat) (s : CellScan)
    (cells : List ParsedCell) :
    (cells.foldl (CellScan.place row occupiedRow) s).totalCols ≤ bound ↔ s.totalCols ≤ bound ∧
      ∀ place ∈ (placements row occupiedRow s cells).zip cells, place.1 + place.2.colspan ≤ bound := by
  induction cells generalizing s with
  | nil => exact (and_iff_left fun _ mem => absurd mem List.not_mem_nil).symm
  | cons cell rest ih =>
    rw [List.foldl_cons, ih, placements, List.zip_cons_cons, List.forall_mem_cons, ← and_assoc]
    exact and_congr_left fun _ => Nat.max_le

/-- The columns of a row are among those of its cells and of what was occupied before. -/
theorem total_row {s : GridState} (bounded : Bounded s.occupied s.totalCols) (startRowIdx row : Nat)
    (parsed : ParsedRow) :
    (s.row startRowIdx row parsed).totalCols = (s.cells row parsed.cells).totalCols := by
  refine Nat.max_eq_left (width_le fun c mem => ?_)
  have start : Bounded (⟨s.occupied, 0, 0, s.totalCols⟩ : CellScan).occupied s.totalCols := bounded
  exact bounded_cells start parsed.cells (row, c) (mem_columns.mp mem)

/-- The same over rows: the place of each cell is read in the grid as the rows above it have left
it. -/
theorem total_rows_iff {bound : Nat} {s : GridState} (bounded : Bounded s.occupied s.totalCols)
    (startRowIdx row : Nat) (parsed : List ParsedRow) :
    (s.rows startRowIdx row parsed).totalCols ≤ bound ↔ s.totalCols ≤ bound ∧
      ∀ index next, parsed[index]? = some next →
        ∀ place ∈ (s.rows startRowIdx row (parsed.take index)).places (row + index) next,
          place.1 + place.2.colspan ≤ bound := by
  induction parsed generalizing row s with
  | nil => exact (and_iff_left fun _ _ none => absurd none (by simp)).symm
  | cons first rest ih =>
    have here := total_cells_iff row bound (columns s.occupied row)
      ⟨s.occupied, 0, 0, s.totalCols⟩ first.cells
    rw [GridState.rows, ih (bounded_row bounded startRowIdx row first) (row + 1),
      total_row bounded, GridState.cells, here, and_assoc]
    refine and_congr_right fun _ => ⟨?_, fun all => ⟨all 0 first rfl, fun index next at'' => ?_⟩⟩
    · rintro ⟨one, later⟩ (_ | index) next at''
      · cases at''
        exact one
      · have more := later index next at''
        rwa [Nat.add_assoc, Nat.add_comm 1 index] at more
    · have more := all (index + 1) next at''
      rwa [← Nat.add_assoc, Nat.add_right_comm] at more

/-- What an earlier table carries over counts up to its last column. -/
theorem width_carried {initial : TailOccupied} {bound : Nat} :
    Builders.width (initial.image Prod.snd) ≤ bound ↔ ∀ p ∈ initial, p.2 + 1 ≤ bound := by
  constructor
  · intro le p mem
    exact (lt_width (Finset.mem_image_of_mem Prod.snd mem)).trans_le le
  · intro all
    refine width_le fun c mem => ?_
    obtain ⟨p, inside, rfl⟩ := Finset.mem_image.mp mem
    exact all p inside

/-- The scan counts the columns up to the last end. -/
theorem scanned_total_iff (parsed : List ParsedRow) (initial : TailOccupied) (bound : Nat) :
    (scanned parsed initial 0 parsed.length).totalCols ≤ bound ↔
      (∀ p ∈ initial, p.2 + 1 ≤ bound) ∧ ∀ index row, parsed[index]? = some row →
        ∀ place ∈ (scanned parsed initial 0 index).places index row,
          place.1 + place.2.colspan ≤ bound := by
  rw [scanned, List.take_length, total_rows_iff (bounded_start initial), ← width_carried]
  simp only [Nat.zero_add]
  rfl

/-- A grid that fits has a last count of columns that fits, which is the form the loops ask for. -/
theorem GridFits.total {parsed : List ParsedRow} {initial : TailOccupied}
    (fits : GridFits parsed initial) :
    (scanned parsed initial 0 parsed.length).totalCols ≤ usizeMax :=
  (scanned_total_iff parsed initial usizeMax).mpr ⟨fits.carried, fits.columns⟩

/-- The scan of a part of the rows counts no more columns than the scan of all of them. -/
theorem scanned_total_le (parsed : List ParsedRow) (initial : TailOccupied)
    (startRowIdx count : Nat) :
    (scanned parsed initial startRowIdx count).totalCols ≤
      (scanned parsed initial startRowIdx parsed.length).totalCols := by
  have split := rows_append startRowIdx 0 (GridState.start initial) (parsed.take count)
    (parsed.drop count)
  rw [List.take_append_drop] at split
  rw [scanned, scanned, List.take_length, split]
  exact total_le_rows startRowIdx _ _ _

section Fits

variable {rows : List TableRow} {parsed : List ParsedRow} {initial : TailOccupied}

theorem start_total (fits : GridFits parsed initial) :
    Builders.width (initial.image Prod.snd) ≤ usizeMax :=
  (scanned_total_le parsed initial 0 0).trans fits.total

/-- `scan_rows` on a grid that fits returns what the unbounded scan computes. -/
theorem scanRows_value (is : parseRows rows = some parsed) (count : rows.length ≤ usizeMax)
    (fits : GridFits parsed initial) :
    scanRows rows initial 0 = .ok (scanParsed parsed initial 0) := by
  have columns := fits.total
  rw [scanned, List.take_length] at columns
  have run := scanFrom_value is columns fits.rows (by omega)
  rw [GridState.start] at run
  rw [scanRows, (width_exactly _).value (start_total fits)]
  dsimp only [bind, Except.bind]
  rw [run, scanParsed, GridState.start, parseRows_length is]
  rfl

/-- `visual_sources` on a grid that fits returns the cells of the target row, at the columns where
the unbounded loop puts them. -/
theorem visualSources_value (is : parseRows rows = some parsed)
    (count : rows.length ≤ usizeMax) (fits : GridFits parsed initial) {target : Nat}
    (inside : target < rows.length) :
    visualSources rows target initial =
      .ok (((SourceScan.start initial).rows 0 (parsed.take (target + 1))).occupied.keep
          fun p _ => p.1 = target,
        ((SourceScan.start initial).rows 0 (parsed.take (target + 1))).totalCols) := by
  have start : Covers (SourceScan.start initial).occupied (GridState.start initial).occupied :=
    covers_start initial
  have less := sources_total start (Nat.le_refl _) 0 0 (parsed.take (target + 1))
  have columns := less.trans ((scanned_total_le parsed initial 0 (target + 1)).trans fits.total)
  have below : RowsFit 0 (parsed.take (target + 1)) := by
    intro index cells at' cell mem
    rw [List.getElem?_take] at at'
    split at at'
    · exact fits.rows index cells at' cell mem
    · exact nomatch at'
  have run := sourcesFrom_value (parseRows_take is inside) columns below
  rw [visualSources, if_neg (Nat.not_le.mpr inside), (width_exactly _).value (start_total fits)]
  dsimp only [bind, Except.bind]
  rw [(add_exactly target 1).value (Nat.le_trans inside count)]
  dsimp only [bind, Except.bind]
  change (sourcesFrom 0 (SourceScan.start initial) _).bind _ = _
  rw [run]
  rfl

/-- `visual_mapping` scans, reads the sources and finds the places again, and none of the three
overflows on a grid that fits. -/
theorem visualMapping_value (is : parseRows rows = some parsed)
    (count : rows.length ≤ usizeMax) (fits : GridFits parsed initial) {target : Nat}
    (inside : target < rows.length) :
    ∃ mapping, visualMapping rows target initial = .ok mapping := by
  have inParsed : target < parsed.length := (parseRows_length is).symm ▸ inside
  let before := (SourceScan.start initial).rows 0 (parsed.take target)
  have upTo : (SourceScan.start initial).rows 0 (parsed.take (target + 1)) =
      before.row target parsed[target] := by
    rw [List.take_succ_eq_append_getElem inParsed, sources_rows_append,
      List.length_take_of_le inParsed.le, Nat.zero_add]
    rfl
  have isRow : parseRow rows[target].raw = some parsed[target] := by
    have all := is
    rw [← List.take_append_drop target rows, List.drop_eq_getElem_cons inside] at all
    obtain ⟨first, more, isFirst, isMore, same⟩ := parseRows_append all
    obtain ⟨row, rest, isRow, -, rfl⟩ := parseRows_cons isMore
    have length : first.length = target :=
      (parseRows_length isFirst).trans (List.length_take_of_le inside.le)
    have here : parsed[target] = row := by
      simp [same, ← length]
    rw [isRow, here]
  have start : Covers (SourceScan.start initial).occupied (GridState.start initial).occupied :=
    covers_start initial
  have less := sources_total start (Nat.le_refl _) 0 0 (parsed.take (target + 1))
  have columns := less.trans ((scanned_total_le parsed initial 0 (target + 1)).trans fits.total)
  rw [upTo] at columns
  have below : RowsBelow target before := by
    have all := rowsBelow_rows (rowsBelow_start initial) (parsed.take target)
    rwa [Nat.zero_add, List.length_take_of_le inParsed.le] at all
  have earlier : EarlierFrom target { before with column := 0 } :=
    fun c source _ get => below (target, c) source get
  have run := mapCells_value earlier parsed[target].cells 0 columns
  refine ⟨_, Eq.trans ?_ run⟩
  rw [visualMapping, visualSources_value is count fits inside, upTo,
    List.getElem?_eq_getElem inside]
  dsimp only [Checked.okOr, bind, Except.bind]
  rw [isRow, columns_keep]
  rfl

/-! ## `expand_header_rowspans` -/

/-- What a cell of a header makes of the number of rows. -/
def expanded (total index count : Nat) (cell : ParsedCell) : Nat :=
  min (max count (index + cell.rowspan)) total

theorem expandCells_exactly (total index count : Nat) (cells : List ParsedCell) :
    Exactly (cells.foldlM (expandCell total index) count) (cells.foldl (expanded total index) count)
      (∀ cell ∈ cells, index + cell.rowspan ≤ usizeMax) :=
  (Exactly.foldlM (P := fun _ cell => index + cell.rowspan ≤ usizeMax)
    (fun count cell => (add_exactly index cell.rowspan).map fun below =>
      min (max count below) total) cells count).congr (along_iff _ _ _ _)

/-- Once every row is a header row, it remains one. -/
theorem expanded_total (total index : Nat) (cells : List ParsedCell) :
    cells.foldl (expanded total index) total = total := by
  induction cells with
  | nil => rfl
  | cons cell rest ih =>
    rw [List.foldl_cons, expanded, min_eq_right (Nat.le_max_left _ _)]
    exact ih

/-- `expand_header_rowspans` adds a row and a span, which the reach of the rows bounds. -/
theorem expandFrom_value (is : parseRows rows = some parsed) (total : Nat) {index : Nat}
    (fit : RowsFit index parsed) (room : index + rows.length ≤ usizeMax) (count : Nat) :
    ∃ result, expandFrom total index count rows = .ok result := by
  induction rows generalizing parsed index count with
  | nil => exact ⟨count, rfl⟩
  | cons next rest ih =>
    obtain ⟨first, more, isFirst, isRest, rfl⟩ := parseRows_cons is
    have here := rowsFit_cons.mp fit
    rw [List.length_cons] at room
    rw [expandFrom]
    split
    · rw [isFirst]
      dsimp only [Checked.okOr, bind, Except.bind]
      rw [(expandCells_exactly total index count first.cells).value here.1]
      dsimp only [bind, Except.bind]
      rw [(add_exactly index 1).value (by omega)]
      exact ih isRest here.2 (by omega) _
    · exact ⟨count, rfl⟩

/-- With every row a header row, the loop adds the spans of all of them. -/
theorem rowsFit_of_expand (is : parseRows rows = some parsed) {total index : Nat}
    (last : index + rows.length = total)
    (ne : expandFrom total index total rows ≠ .error .panic) : RowsFit index parsed := by
  induction rows generalizing parsed index with
  | nil =>
    have none : [] = parsed := Option.some.inj is
    intro i cells at'
    rw [← none] at at'
    exact nomatch at'
  | cons next rest ih =>
    obtain ⟨first, more, isFirst, isRest, rfl⟩ := parseRows_cons is
    rw [List.length_cons] at last
    have inside : index < min total total := by omega
    rw [expandFrom, if_pos inside, isFirst] at ne
    dsimp only [Checked.okOr, bind, Except.bind] at ne
    by_cases fits : ∀ cell ∈ first.cells, index + cell.rowspan ≤ usizeMax
    · rw [(expandCells_exactly total index total first.cells).value fits, expanded_total] at ne
      dsimp only [bind, Except.bind] at ne
      refine rowsFit_cons.mpr ⟨fits, ih isRest (by omega) ?_⟩
      by_cases room : index + 1 ≤ usizeMax
      · rw [(add_exactly index 1).value room] at ne
        exact ne
      · rw [(add_exactly index 1).halt room] at ne
        exact absurd rfl ne
    · rw [(expandCells_exactly total index total first.cells).halt fits] at ne
      exact absurd rfl ne

end Fits

/-! ## `adjust_colspans` -/

/-- Spans that `parse_row` reads. -/
def Positive (cell : ParsedCell) : Prop := 0 < cell.colspan ∧ 0 < cell.rowspan

/-- A span that is read is positive: without an attribute it is one, and a zero is refused. -/
theorem spanAttribute_pos {opening wanted : Text} {n : Nat}
    (is : spanAttribute opening wanted = some n) : 0 < n := by
  unfold spanAttribute at is
  dsimp only at is
  split at is
  · exact nomatch is
  · exact Option.some.inj is ▸ Nat.one_pos
  · exact of_decide_eq_true (Option.filter_eq_some_iff.mp is).2

/-- The cells that have been read, and the one that is open, have positive spans. -/
structure SpansRead (s : RowScan) : Prop where
  cells : ∀ cell ∈ s.cells, Positive cell
  active : ∀ start colspan rowspan, s.activeCell = some (start, colspan, rowspan) →
    0 < colspan ∧ 0 < rowspan

theorem SpansRead.opened {row : Text} {s t : RowScan} (read : SpansRead s) {tag : HtmlTag}
    (is : s.opened row tag = some t) : SpansRead t := by
  unfold RowScan.opened at is
  split at is
  · exact Option.some.inj is ▸ read
  · split at is
    · split at is
      · exact nomatch is
      · obtain ⟨colspan, isCol, is⟩ := Option.bind_eq_some_iff.mp is
        obtain ⟨rowspan, isRow, is⟩ := Option.bind_eq_some_iff.mp is
        obtain rfl := Option.some.inj is
        refine ⟨read.cells, ?_⟩
        rintro _ _ _ same
        cases same
        exact ⟨spanAttribute_pos isCol, spanAttribute_pos isRow⟩
    · exact Option.some.inj is ▸ ⟨read.cells, read.active⟩

theorem SpansRead.closed {row : Text} {s t : RowScan} (read : SpansRead s) {tag : HtmlTag}
    (is : s.closed row tag = some t) : SpansRead t := by
  unfold RowScan.closed at is
  split at is
  · exact nomatch is
  · dsimp only at is
    split at is
    · exact nomatch is
    · split at is
      · obtain ⟨⟨start, colspan, rowspan⟩, active, same⟩ := Option.map_eq_some_iff.mp is
        obtain rfl := same
        refine ⟨fun cell mem => ?_, fun _ _ _ none => nomatch none⟩
        rcases List.mem_append.mp mem with old | new
        · exact read.cells cell old
        · rw [List.mem_singleton.mp new]
          exact read.active start colspan rowspan active
      · split at is
        · split at is
          · exact nomatch is
          · exact Option.some.inj is ▸ ⟨read.cells, read.active⟩
        · exact Option.some.inj is ▸ ⟨read.cells, read.active⟩

theorem SpansRead.run {row : Text} {s t : RowScan} (read : SpansRead s) {tags : List HtmlTag}
    (is : s.run row tags = some t) : SpansRead t := by
  induction tags generalizing s with
  | nil => exact Option.some.inj is ▸ read
  | cons tag rest ih =>
    rw [RowScan.run] at is
    split at is
    · exact ih read is
    · obtain ⟨next, opened, is⟩ := Option.bind_eq_some_iff.mp is
      exact ih (read.opened opened) is
    · obtain ⟨next, closed, is⟩ := Option.bind_eq_some_iff.mp is
      split at is
      · exact Option.some.inj is ▸ read.closed closed
      · exact ih (read.closed closed) is

/-- The cells of a row that parses span at least one column and one row. -/
theorem parseRow_positive {row : Text} {parsed : ParsedRow} (is : parseRow row = some parsed) :
    ∀ cell ∈ parsed.cells, Positive cell := by
  unfold parseRow at is
  split at is
  · exact nomatch is
  · exact nomatch is
  · split at is
    · exact nomatch is
    · obtain ⟨s, run, is⟩ := Option.bind_eq_some_iff.mp is
      obtain ⟨closeStart, -, same⟩ := Option.map_eq_some_iff.mp is
      obtain rfl := same
      have start : SpansRead RowScan.start :=
        ⟨fun _ mem => absurd mem List.not_mem_nil, fun _ _ _ none => nomatch none⟩
      exact (start.run run).cells

/-- The cells of a row end within its columns, and their spans within their ends. -/
structure Spanned (row : Nat) (s : CellScan) : Prop where
  actual : s.actualCols ≤ s.column
  column : s.column ≤ Builders.width (columns s.occupied row)

theorem Spanned.place {row : Nat} {occupiedRow : Finset Nat} {s : CellScan}
    (spanned : Spanned row s) {cell : ParsedCell} (positive : Positive cell) :
    Spanned row (s.place row occupiedRow cell) where
  actual := Nat.add_le_add_right (spanned.actual.trans (column_le_start s)) cell.colspan
  column := by
    obtain ⟨cols, rows⟩ := positive
    have last : (row, s.start row occupiedRow + cell.colspan - 1) ∈
        (s.place row occupiedRow cell).occupied :=
      Finset.mem_union_right _ (mem_block.mpr ⟨⟨Nat.le_refl row, by omega⟩, by omega, by omega⟩)
    have less := lt_width (mem_columns.mpr last)
    exact Nat.le_of_pred_lt less

/-- The cells of a row lie apart, so the sum of their spans is at most the width of the row. This
bounds the sums that `adjust_colspans` forms over a row. -/
theorem spans_le_width {row : Nat} (occupiedRow : Finset Nat) {s : CellScan}
    (spanned : Spanned row s) {cells : List ParsedCell} (positive : ∀ cell ∈ cells, Positive cell) :
    s.actualCols + (cells.map (·.colspan)).sum ≤
      Builders.width (columns (cells.foldl (CellScan.place row occupiedRow) s).occupied row) := by
  induction cells generalizing s with
  | nil => exact spanned.actual.trans spanned.column
  | cons cell rest ih =>
    have more := ih (s := s.place row occupiedRow cell)
      (spanned.place (positive cell List.mem_cons_self))
      fun c mem => positive c (List.mem_cons_of_mem _ mem)
    rw [List.map_cons, List.sum_cons, ← Nat.add_assoc]
    exact more

/-- The scan writes one effective width for each row, and never changes one that is written. -/
theorem effective_length (startRowIdx row : Nat) (s : GridState) (parsed : List ParsedRow) :
    (s.rows startRowIdx row parsed).effective.length = s.effective.length + parsed.length := by
  induction parsed generalizing s row with
  | nil => rfl
  | cons first rest ih =>
    rw [GridState.rows, ih, List.length_cons]
    simp only [GridState.row, List.length_append, List.length_singleton]
    omega

theorem effective_extends (startRowIdx row : Nat) (s : GridState) (parsed : List ParsedRow) :
    ∃ more, (s.rows startRowIdx row parsed).effective = s.effective ++ more := by
  induction parsed generalizing s row with
  | nil => exact ⟨[], (List.append_nil _).symm⟩
  | cons first rest ih =>
    obtain ⟨more, is⟩ := ih (row + 1) (s.row startRowIdx row first)
    refine ⟨Builders.width (columns (s.cells row first.cells).occupied row) :: more, is.trans ?_⟩
    simp only [GridState.row, List.append_assoc, List.singleton_append]

/-- The effective columns of a row hold the spans of its cells. -/
theorem effective_at {parsed : List ParsedRow} (initial : TailOccupied) {index : Nat}
    {cells : ParsedRow} (at' : parsed[index]? = some cells)
    (positive : ∀ cell ∈ cells.cells, Positive cell) :
    ∃ e, (scanParsed parsed initial 0).effective[index]? = some e ∧
      (cells.cells.map (·.colspan)).sum ≤ e ∧
      e ≤ (scanned parsed initial 0 parsed.length).totalCols := by
  obtain ⟨inside, same⟩ := List.getElem?_eq_some_iff.mp at'
  let s := (GridState.start initial).rows 0 0 (parsed.take index)
  let next := s.row 0 index cells
  have split : (GridState.start initial).rows 0 0 parsed =
      next.rows 0 (index + 1) (parsed.drop (index + 1)) := by
    have all := rows_append 0 0 (GridState.start initial) (parsed.take index) (parsed.drop index)
    rw [List.take_append_drop, List.length_take_of_le inside.le, Nat.zero_add,
      List.drop_eq_getElem_cons inside, same] at all
    exact all
  have length : s.effective.length = index := by
    rw [effective_length, List.length_take_of_le inside.le]
    exact Nat.zero_add index
  obtain ⟨more, extends'⟩ := effective_extends 0 (index + 1) next (parsed.drop (index + 1))
  have fromStart : Spanned index (⟨s.occupied, 0, 0, s.totalCols⟩ : CellScan) :=
    ⟨Nat.le_refl 0, Nat.zero_le _⟩
  have spans := spans_le_width (columns s.occupied index) fromStart positive
  rw [Nat.zero_add] at spans
  refine ⟨Builders.width (columns (s.cells index cells.cells).occupied index), ?_, spans, ?_⟩
  · rw [scanParsed, split, extends']
    simp [next, GridState.row, ← length]
  · rw [scanned, List.take_length, split]
    exact (Nat.le_max_right _ _).trans (total_le_rows 0 (index + 1) next _)

/-- A sum of spans that fits at its end fits at each of its steps. -/
theorem sum_value {spans : List Nat} (fits : spans.sum ≤ usizeMax) :
    sum spans = .ok spans.sum := by
  have from' : ∀ (rest : List Nat) (total : Nat), total + rest.sum ≤ usizeMax →
      rest.foldlM add total = .ok (total + rest.sum) := by
    intro rest
    induction rest with
    | nil => exact fun total _ => rfl
    | cons span rest ih =>
      intro total room
      rw [List.sum_cons, ← Nat.add_assoc] at room ⊢
      rw [List.foldlM_cons, (add_exactly total span).value (Nat.le_of_add_right_le room)]
      exact ih (total + span) room
  rw [sum, from' spans 0 (by omega), Nat.zero_add]

theorem copySpans_ensures (setSpan : SetSpan) (spans : List Nat) (row : TableRow) :
    EnsuresOr (fun _ => True) (copySpans setSpan spans row) (fun _ => True) := by
  refine EnsuresOr.foldlM trivial fun row entry _ _ => ?_
  split
  · cases setSpan row entry.2 entry.1 <;> trivial
  · trivial

theorem last_le_sum (cells : List ParsedCell) :
    (cells[cells.length - 1]?.map (·.colspan)).getD 0 ≤ (cells.map (·.colspan)).sum := by
  cases is : cells[cells.length - 1]? with
  | none => exact Nat.zero_le _
  | some cell =>
    exact List.le_sum_of_mem (List.mem_map_of_mem (List.mem_of_getElem? is))

/-- A turn of `adjust_colspans`, for a row whose spans add up to at most its effective width, ends
without a panic. How the text edit ends is of no matter. -/
theorem adjustRow_ensures (setSpan : SetSpan) {effective : List Nat}
    (referenceCells matchCells : List ParsedCell) {targetCols : Nat}
    (target : targetCols ≤ usizeMax) {row : TableRow} {index e : Nat} {parsed : ParsedRow}
    (is : parseRow row.raw = some parsed) (at' : effective[index]? = some e)
    (spans : (parsed.cells.map (·.colspan)).sum ≤ e) (fits : e ≤ usizeMax) :
    EnsuresOr (fun _ => True)
      (adjustRow setSpan effective referenceCells matchCells targetCols (row, index))
      (fun _ => True) := by
  unfold adjustRow
  rw [is, at']
  dsimp only [Checked.okOr, bind, Except.bind, Option.getD_some]
  split
  · trivial
  · split
    · trivial
    · rw [sum_value (spans.trans fits)]
      dsimp only
      split
      · trivial
      · rename_i less
        split
        · exact copySpans_ensures setSpan _ row
        · have last := last_le_sum parsed.cells
          have room : (parsed.cells[parsed.cells.length - 1]?.map (·.colspan)).getD 0 +
              (targetCols - e) ≤ usizeMax := by
            omega
          rw [(add_exactly _ _).value room]
          dsimp only
          cases setSpan row _ _ <;> trivial

theorem mapM_ensures {α β : Type} {f : α → Run β} {as : List α}
    (each : ∀ a ∈ as, EnsuresOr (fun _ => True) (f a) (fun _ => True)) :
    EnsuresOr (fun _ => True) (as.mapM f) (fun _ => True) := by
  induction as with
  | nil => trivial
  | cons a rest ih =>
    rw [List.mapM_cons]
    refine (each a List.mem_cons_self).bind fun b _ => ?_
    exact (ih fun a mem => each a (List.mem_cons_of_mem _ mem)).bind fun bs _ => trivial

theorem okOr_ensures {α : Type} (o : Option α) :
    EnsuresOr (fun _ => True) (Checked.okOr o ()) (fun _ => True) := by
  cases o <;> trivial

theorem ne_panic {α : Type} {x : Run α}
    (run : EnsuresOr (fun _ => True) x (fun _ => True)) : x ≠ .error .panic := by
  rintro rfl
  exact run

section Fits

variable {rows : List TableRow} {parsed : List ParsedRow} {initial : TailOccupied}

theorem parseRows_at (is : parseRows rows = some parsed) {index : Nat} {row : TableRow}
    (at' : rows[index]? = some row) :
    ∃ cells, parsed[index]? = some cells ∧ parseRow row.raw = some cells := by
  induction rows generalizing parsed index with
  | nil => exact nomatch at'
  | cons next rest ih =>
    obtain ⟨first, more, isFirst, isRest, rfl⟩ := parseRows_cons is
    cases index with
    | zero => exact ⟨first, rfl, Option.some.inj at' ▸ isFirst⟩
    | succ index => exact ih isRest at'

/-- `adjust_colspans` over the rows from `start` on. Only the effective widths that the scan has
written are read. -/
theorem adjustColspans_ensures (is : parseRows rows = some parsed) (fits : GridFits parsed initial)
    (setSpan : SetSpan) (start : Nat) (structureReference matchReference : TableRow)
    {targetCols : Nat} (target : targetCols ≤ usizeMax) :
    EnsuresOr (fun _ => True)
      (adjustColspans setSpan rows start (scanParsed parsed initial 0).effective
        structureReference matchReference targetCols) (fun _ => True) := by
  refine (okOr_ensures _).bind fun reference _ => (okOr_ensures _).bind fun matching _ => ?_
  refine (mapM_ensures fun entry mem => ?_).bind fun _ _ => trivial
  have at' := List.mem_zipIdx_iff_getElem?.mp (List.mem_of_mem_drop mem)
  obtain ⟨cells, atParsed, isRow⟩ := parseRows_at is at'
  obtain ⟨e, atEffective, spans, less⟩ :=
    effective_at initial atParsed (parseRow_positive isRow)
  exact adjustRow_ensures setSpan reference.cells matching.cells target isRow atEffective spans
    (less.trans fits.total)

/-- No addition of the five functions on the rows of a table is beyond `usize::MAX`: for every target
row, every number of header rows, and every reference and width that `adjust_colspans` is given, with
the effective columns that `scan_rows` returns. -/
structure NoOverflow (rows : List TableRow) (initial : TailOccupied) : Prop where
  scan : scanRows rows initial 0 ≠ .error .panic
  sources : ∀ target, visualSources rows target initial ≠ .error .panic
  mapping : ∀ target, visualMapping rows target initial ≠ .error .panic
  expand : ∀ count, expandHeaderRowspans rows count ≠ .error .panic
  adjust : ∀ scan, scanRows rows initial 0 = .ok scan →
    ∀ setSpan start structureReference matchReference targetCols, targetCols ≤ usizeMax →
      adjustColspans setSpan rows start scan.effective structureReference matchReference
        targetCols ≠ .error .panic

/-- A grid that fits makes none of the five functions panic. -/
theorem no_overflow_of_fits (is : parseRows rows = some parsed) (count : rows.length ≤ usizeMax)
    (fits : GridFits parsed initial) : NoOverflow rows initial where
  scan := by
    rw [scanRows_value is count fits]
    exact nofun
  sources := by
    intro target
    by_cases inside : target < rows.length
    · rw [visualSources_value is count fits inside]
      exact nofun
    · rw [visualSources, if_pos (Nat.not_lt.mp inside)]
      exact nofun
  mapping := by
    intro target
    by_cases inside : target < rows.length
    · obtain ⟨mapping, run⟩ := visualMapping_value is count fits inside
      rw [run]
      exact nofun
    · rw [visualMapping, visualSources, if_pos (Nat.not_lt.mp inside)]
      exact nofun
  expand := by
    intro headers
    obtain ⟨result, run⟩ := expandFrom_value is rows.length fits.rows (by omega) headers
    rw [expandHeaderRowspans, run]
    exact nofun
  adjust := by
    intro scan run setSpan start structureReference matchReference targetCols target
    rw [scanRows_value is count fits] at run
    obtain rfl := Except.ok.inj run
    exact ne_panic (adjustColspans_ensures is fits setSpan start structureReference matchReference
      target)

/-- A scan that does not panic leaves a count of columns that fits. -/
theorem total_of_scanRows (is : parseRows rows = some parsed)
    (ne : scanRows rows initial 0 ≠ .error .panic) :
    (scanned parsed initial 0 parsed.length).totalCols ≤ usizeMax := by
  rw [scanRows] at ne
  by_cases start : Builders.width (initial.image Prod.snd) ≤ usizeMax
  · rw [(width_exactly _).value start] at ne
    dsimp only [bind, Except.bind] at ne
    have run : scanFrom 0 0 (GridState.start initial) rows ≠ .error .panic := by
      intro panics
      rw [GridState.start] at panics
      rw [panics] at ne
      exact ne rfl
    rw [scanned, List.take_length]
    exact total_of_scanFrom is start run
  · rw [(width_exactly _).halt start] at ne
    exact absurd rfl ne

/-- The necessity of `GridFits`: the scan alone forms the end of each cell in columns, and
`expand_header_rowspans` the reach of each row. -/
theorem fits_of_no_overflow (is : parseRows rows = some parsed)
    (fine : NoOverflow rows initial) : GridFits parsed initial := by
  obtain ⟨carried, columns⟩ :=
    (scanned_total_iff parsed initial usizeMax).mp (total_of_scanRows is fine.scan)
  exact ⟨carried, columns, rowsFit_of_expand is (Nat.zero_add _) (fine.expand rows.length)⟩

/-- **No addition of the table layout overflows exactly when the grid fits**: no cell ends past the
last column that a number can name, and none reaches past the last row. The ends are those of the
cells where the unbounded layout puts them. -/
theorem table_additions_fit (is : parseRows rows = some parsed) (count : rows.length ≤ usizeMax) :
    NoOverflow rows initial ↔ GridFits parsed initial :=
  ⟨fits_of_no_overflow is, no_overflow_of_fits is count⟩

end Fits

/-- A row beside a column that an earlier table carries over. -/
theorem table_additions_fit_spanned : NoOverflow spannedRows {(0, 2)} := by
  have parses : parseRows spannedRows =
      some [⟨[⟨4, 20, 21, 26, 1, 2⟩], 26⟩, ⟨[⟨4, 8, 9, 14, 1, 1⟩], 14⟩] := by decide +kernel
  refine (table_additions_fit parses (by decide +kernel)).mpr ⟨by decide +kernel, ?_, ?_⟩
  · rintro (_ | _ | index) row found place mem
    · obtain rfl := Option.some.inj found
      revert place
      decide +kernel
    · obtain rfl := Option.some.inj found
      revert place
      decide +kernel
    · exact nomatch found
  · rintro (_ | _ | index) cells found cell mem
    · obtain rfl := Option.some.inj found
      rw [List.mem_singleton.mp mem]
      decide +kernel
    · obtain rfl := Option.some.inj found
      rw [List.mem_singleton.mp mem]
      decide +kernel
    · exact nomatch found

/-- A cell, and one as wide as a number can say. -/
def wideTable : Text :=
  text "<table><tr><td></td><td colspan=\"18446744073709551615\"></td></tr></table>"

def wideRows : List TableRow :=
  [⟨text "<tr><td></td><td colspan=\"18446744073709551615\"></td></tr>", false⟩]

/-- A table whose rows make the scan panic has no state, because the scan comes first. -/
theorem buildTableState_panic (entities : NamedEntities) {html : Text} {document : TableDocument}
    (parses : TableDocument.parse html = some document)
    (panics : scanRows (document.originals (List.replicate document.rowRanges.length false)) ∅ 0 =
      .error .panic) : buildTableState entities html = .error .panic := by
  unfold buildTableState
  rw [parses]
  simp only [Checked.okOr, bind, Except.bind, panics]

/-- The table and its row parse, and the state of the table panics in the scan. -/
theorem wide_table_overflows :
    TableDocument.parse wideTable = some ⟨wideTable, [(7, 65)], 65⟩ ∧
      TableDocument.originals ⟨wideTable, [(7, 65)], 65⟩ [false] = wideRows ∧
      (parseRows wideRows).isSome = true ∧
      (∀ entities, buildTableState entities wideTable = .error .panic) ∧
      ¬ NoOverflow wideRows ∅ := by
  have parses : TableDocument.parse wideTable = some ⟨wideTable, [(7, 65)], 65⟩ := by decide +kernel
  have rows : TableDocument.originals ⟨wideTable, [(7, 65)], 65⟩ [false] = wideRows := by
    decide +kernel
  have scan : scanRows wideRows ∅ 0 = .error .panic := by decide +kernel
  exact ⟨parses, rows, by decide +kernel,
    fun entities => buildTableState_panic entities parses (by rw [← scan, ← rows]; rfl),
    fun fine => fine.scan scan⟩

/-! ## The state of a table -/

/-- A scan that returns has parsed every row, and it returns what the unbounded loop computes.
Nothing is assumed about the grid. -/
theorem scanFrom_ok {rows : List TableRow} {startRowIdx row : Nat} {s t : GridState}
    (run : scanFrom startRowIdx row s rows = .ok t) :
    ∃ parsed, parseRows rows = some parsed ∧ t = s.rows startRowIdx row parsed := by
  induction rows generalizing row s with
  | nil =>
    cases run
    exact ⟨[], rfl, rfl⟩
  | cons next rest ih =>
    obtain ⟨first, isFirst, run⟩ := bind_ok run
    obtain ⟨after, turn, run⟩ := bind_ok run
    have isRow : parseRow next.raw = some first := by
      cases known : parseRow next.raw with
      | none =>
        rw [known] at isFirst
        cases isFirst
      | some row =>
        rw [known] at isFirst
        cases isFirst
        rfl
    obtain ⟨more, isRest, rfl⟩ := ih run
    have same : after = s.row startRowIdx row first := by
      by_cases fits : RowFits startRowIdx row s first
      · rw [(scanRow_exactly startRowIdx row s first).value fits] at turn
        exact (Except.ok.inj turn).symm
      · rw [(scanRow_exactly startRowIdx row s first).halt fits] at turn
        cases turn
    refine ⟨first :: more, ?_, by rw [same]; rfl⟩
    unfold parseRows at isRest ⊢
    rw [List.mapM_cons, isRow, isRest]
    rfl

/-- A scan that returns has laid the cells out as with unbounded numbers. -/
theorem scanRows_ok {rows : List TableRow} {initial : TailOccupied} {scan : GridScan}
    (run : scanRows rows initial 0 = .ok scan) :
    ∃ parsed, parseRows rows = some parsed ∧ scan = scanParsed parsed initial 0 := by
  obtain ⟨total, counted, run⟩ := bind_ok run
  obtain ⟨last, loop, run⟩ := bind_ok run
  obtain ⟨parsed, is, rfl⟩ := scanFrom_ok loop
  have start : total = Builders.width (initial.image Prod.snd) := by
    by_cases fits : Builders.width (initial.image Prod.snd) ≤ usizeMax
    · rw [(width_exactly _).value fits] at counted
      exact (Except.ok.inj counted).symm
    · rw [(width_exactly _).halt fits] at counted
      cases counted
  cases run
  refine ⟨parsed, is, ?_⟩
  rw [start, scanParsed, parseRows_length is]
  rfl

/-- What a table state that is built says of its rows is what the unbounded layout says, and all of
their cells end within `usize::MAX` columns. -/
theorem buildTableState_scanned {entities : NamedEntities} {html : Text} {state : TableMergeState}
    (run : buildTableState entities html = .ok state) :
    ∃ parsed, parseRows state.rows = some parsed ∧
      state.effective = (scanParsed parsed ∅ 0).effective ∧
      state.totalCols = (scanParsed parsed ∅ 0).totalCols ∧
      state.lastData = (scanParsed parsed ∅ 0).lastNonempty ∧
      state.tail = (scanParsed parsed ∅ 0).tail ∧
      ∀ index row, parsed[index]? = some row →
        ∀ place ∈ (scanned parsed ∅ 0 index).places index row,
          place.1 + place.2.colspan ≤ usizeMax := by
  obtain ⟨document, -, run⟩ := bind_ok run
  obtain ⟨scan, scans, run⟩ := bind_ok run
  obtain ⟨⟨headers, metrics⟩, -, run⟩ := bind_ok run
  cases run
  obtain ⟨parsed, is, rfl⟩ := scanRows_ok scans
  have ne : scanRows (document.originals (List.replicate document.rowRanges.length false)) ∅ 0 ≠
      .error .panic := by
    rw [scans]
    exact nofun
  exact ⟨parsed, is, rfl, rfl, rfl, rfl,
    ((scanned_total_iff parsed ∅ usizeMax).mp (total_of_scanRows is ne)).2⟩

end Usize

end Mineru.Builders
