import Mineru.Builders.Grid

/-!
# The two layouts of a table agree

`scan_rows` and `visual_sources` place the cells with loops of their own, and `visual_mapping` finds
the places again from what the grid holds at the end. A cell only ever takes over a column at or
after its own start, so the columns before it still tell where the loop went.

Three relations carry the proof. `Covers` compares the grid of the scan, a set of places, with that
of the sources, a map from places to cells. `CellsFrame` says what a row of cells leaves as it was,
from which the places are read back. `RowsShift` compares a scan of all rows with a scan of the last
ones that starts from the tail of the first, which is how a table is continued on the next page.

The rows are given by their cells: a row that does not parse has no layout, and the functions fail
there (`visualSources_eq`, `visualMapping_eq`). Numbers are unbounded in this module.
-/

set_option autoImplicit false

namespace Mineru.Builders

open Logic

/-! ## Sets of columns -/

@[simp] theorem mem_columns {occupied : TailOccupied} {row column : Nat} :
    column ∈ columns occupied row ↔ (row, column) ∈ occupied := by
  simp [columns]

theorem columns_mono {occupied more : TailOccupied} (sub : occupied ⊆ more) (row : Nat) :
    columns occupied row ⊆ columns more row :=
  fun _ mem => mem_columns.mpr (sub (mem_columns.mp mem))

theorem lt_width {cols : Finset Nat} {column : Nat} (mem : column ∈ cols) : column < width cols :=
  Nat.lt_of_succ_le (Finset.le_sup (f := (· + 1)) mem)

theorem width_le {cols : Finset Nat} {bound : Nat} (below : ∀ c ∈ cols, c < bound) :
    width cols ≤ bound :=
  Finset.sup_le fun c mem => below c mem

@[simp] theorem mem_block {row column : Nat} {cell : ParsedCell} {p : Nat × Nat} :
    p ∈ block row column cell ↔
      (row ≤ p.1 ∧ p.1 < row + cell.rowspan) ∧ column ≤ p.2 ∧ p.2 < column + cell.colspan := by
  simp [block]

/-! ## The first free column -/

/-- Every column from one to another is taken. -/
def TakenFrom (taken : Finset Nat) (start stop : Nat) : Prop :=
  ∀ c, start ≤ c → c < stop → c ∈ taken

theorem skipTaken_ge (taken : Finset Nat) (fuel column : Nat) :
    column ≤ skipTaken taken fuel column := by
  induction fuel generalizing column with
  | zero => exact Nat.le_refl column
  | succ fuel ih =>
    unfold skipTaken
    split
    · exact Nat.le_of_succ_le (ih (column + 1))
    · exact Nat.le_refl column

/-- Every column that the loop passes was taken. -/
theorem skipTaken_taken (taken : Finset Nat) (fuel column : Nat) :
    TakenFrom taken column (skipTaken taken fuel column) := by
  induction fuel generalizing column with
  | zero => exact fun c ge lt => absurd (Nat.lt_of_le_of_lt ge lt) (Nat.lt_irrefl _)
  | succ fuel ih =>
    intro c ge lt
    unfold skipTaken at lt
    split at lt
    · rename_i here
      rcases Nat.eq_or_lt_of_le ge with rfl | later
      · exact here
      · exact ih (column + 1) c later lt
    · exact absurd (Nat.lt_of_le_of_lt ge lt) (Nat.lt_irrefl _)

/-- The loop stops early, or it has skipped a column in each turn. -/
theorem skipTaken_stops (taken : Finset Nat) (fuel column : Nat) :
    skipTaken taken fuel column ∉ taken ∨ skipTaken taken fuel column = column + fuel := by
  induction fuel generalizing column with
  | zero => exact Or.inr rfl
  | succ fuel ih =>
    unfold skipTaken
    split
    · rcases ih (column + 1) with free | full
      · exact Or.inl free
      · exact Or.inr (by omega)
    · rename_i free
      exact Or.inl free

/-- A cell starts at the cursor of its row or behind it. -/
theorem firstFree_ge (taken : Finset Nat) (column : Nat) : column ≤ firstFree taken column :=
  skipTaken_ge taken taken.card column

theorem firstFree_taken (taken : Finset Nat) (column : Nat) :
    TakenFrom taken column (firstFree taken column) :=
  skipTaken_taken taken taken.card column

/-- The column that is found is free: the fuel is one more than the taken columns, so the loop
cannot have stopped for want of it. -/
theorem firstFree_free (taken : Finset Nat) (column : Nat) : firstFree taken column ∉ taken := by
  rcases skipTaken_stops taken taken.card column with free | full
  · exact free
  · intro mem
    -- the columns skipped and the one reached are more than the set has
    have sub : Finset.Icc column (column + taken.card) ⊆ taken := by
      intro c inside
      obtain ⟨ge, le⟩ := Finset.mem_Icc.mp inside
      rcases Nat.eq_or_lt_of_le le with rfl | lt
      · exact full ▸ mem
      · exact skipTaken_taken taken taken.card column c ge (by omega)
    have count := Finset.card_le_card sub
    rw [Nat.card_Icc] at count
    omega

/-- What the loop computes is the only free column with taken columns up to it. -/
theorem firstFree_eq {taken : Finset Nat} {column stop : Nat} (ge : column ≤ stop)
    (before : TakenFrom taken column stop) (free : stop ∉ taken) : firstFree taken column = stop := by
  rcases Nat.lt_trichotomy (firstFree taken column) stop with less | same | more
  · exact absurd (before _ (firstFree_ge taken column) less) (firstFree_free taken column)
  · exact same
  · exact absurd (firstFree_taken taken column stop ge more) free

/-! ## The loop of `scan_rows` -/

section Scan

variable {row : Nat} {occupiedRow : Finset Nat}

theorem place_occupied (s : CellScan) (cell : ParsedCell) :
    (s.place row occupiedRow cell).occupied =
      s.occupied ∪ block row (s.start row occupiedRow) cell := rfl

/-- What the row held at its start is still held, so it is read only once. -/
theorem start_eq {s : CellScan} (sub : occupiedRow ⊆ columns s.occupied row) :
    s.start row occupiedRow = firstFree (columns s.occupied row) s.column := by
  rw [CellScan.start, Finset.union_eq_right.mpr sub]

/-- The columns that were held at the start of the row are still held behind each of its cells. -/
theorem place_keeps {s : CellScan} (sub : occupiedRow ⊆ columns s.occupied row)
    (cell : ParsedCell) : occupiedRow ⊆ columns (s.place row occupiedRow cell).occupied row :=
  sub.trans (columns_mono Finset.subset_union_left row)

/-- The columns at which the loop places the cells of a row. -/
def placements (row : Nat) (occupiedRow : Finset Nat) : CellScan → List ParsedCell → List Nat
  | _, [] => []
  | s, cell :: rest =>
    s.start row occupiedRow :: placements row occupiedRow (s.place row occupiedRow cell) rest

/-- Every occupied column is counted. -/
def Bounded (occupied : TailOccupied) (total : Nat) : Prop := ∀ p ∈ occupied, p.2 < total

theorem bounded_place {s : CellScan} (bounded : Bounded s.occupied s.totalCols)
    (cell : ParsedCell) :
    Bounded (s.place row occupiedRow cell).occupied (s.place row occupiedRow cell).totalCols := by
  intro p mem
  rcases Finset.mem_union.mp mem with old | new
  · exact Nat.lt_of_lt_of_le (bounded p old) (Nat.le_max_left _ _)
  · exact Nat.lt_of_lt_of_le (mem_block.mp new).2.2 (Nat.le_max_right _ _)

theorem bounded_cells {s : CellScan} (bounded : Bounded s.occupied s.totalCols)
    (cells : List ParsedCell) :
    Bounded (cells.foldl (CellScan.place row occupiedRow) s).occupied
      (cells.foldl (CellScan.place row occupiedRow) s).totalCols := by
  induction cells generalizing s with
  | nil => exact bounded
  | cons cell rest ih => exact ih (bounded_place bounded cell)

end Scan

theorem bounded_start (initial : TailOccupied) :
    Bounded (GridState.start initial).occupied (GridState.start initial).totalCols :=
  fun _ mem => lt_width (Finset.mem_image_of_mem Prod.snd mem)

theorem bounded_row {s : GridState} (bounded : Bounded s.occupied s.totalCols)
    (startRowIdx row : Nat) (parsed : ParsedRow) :
    Bounded (s.row startRowIdx row parsed).occupied (s.row startRowIdx row parsed).totalCols :=
  fun p mem => Nat.lt_of_lt_of_le
    (bounded_cells (s := ⟨s.occupied, 0, 0, s.totalCols⟩) bounded parsed.cells p mem)
    (Nat.le_max_left _ _)

/-- The count of columns bounds every place that is occupied, through any number of rows. -/
theorem bounded_rows {s : GridState} (bounded : Bounded s.occupied s.totalCols)
    (startRowIdx row : Nat) (parsed : List ParsedRow) :
    Bounded (s.rows startRowIdx row parsed).occupied (s.rows startRowIdx row parsed).totalCols := by
  induction parsed generalizing s row with
  | nil => exact bounded
  | cons first rest ih => exact ih (bounded_row bounded startRowIdx row first) (row + 1)

/-- A scan may be cut between two rows. -/
theorem rows_append (startRowIdx row : Nat) (s : GridState) (a b : List ParsedRow) :
    s.rows startRowIdx row (a ++ b) =
      (s.rows startRowIdx row a).rows startRowIdx (row + a.length) b := by
  induction a generalizing s row with
  | nil => rfl
  | cons first rest ih =>
    rw [List.cons_append, GridState.rows, ih, GridState.rows, List.length_cons]
    congr 1
    omega

/-! ## The loop of `visual_sources` -/

/-- Rows set one after another, each to what a function says. -/
theorem get_foldl_set {κ α : Type} [DecidableEq κ] (f : κ → α) (keys : List κ) (t : Table κ α)
    (j : κ) :
    (keys.foldl (fun t k => Table.set t k (f k)) t).get j =
      if j ∈ keys then some (f j) else t.get j := by
  induction keys generalizing t with
  | nil => simp
  | cons k rest ih =>
    rw [List.foldl_cons, ih, Table.get_set]
    by_cases later : j ∈ rest
    · simp [later]
    · by_cases here : j = k
      · simp [here]
      · simp [later, here]

theorem get_foldl_columns (row : Nat) (source : CellSource) (cols : List Nat) (t : Sources)
    (p : Nat × Nat) :
    (cols.foldl (fun sources c => Table.set sources (row, c) source) t).get p =
      if p.1 = row ∧ p.2 ∈ cols then some source else t.get p := by
  have keys := get_foldl_set (fun _ => source) (cols.map fun c => (row, c)) t p
  rw [List.foldl_map] at keys
  rw [keys]
  obtain ⟨r, c⟩ := p
  simp only [List.mem_map, Prod.mk.injEq]
  congr 1
  simp [eq_comm, and_comm]

theorem get_foldl_rows (source : CellSource) (rows cols : List Nat) (t : Sources)
    (p : Nat × Nat) :
    (rows.foldl (fun sources r =>
        cols.foldl (fun sources c => Table.set sources (r, c) source) sources) t).get p =
      if p.1 ∈ rows ∧ p.2 ∈ cols then some source else t.get p := by
  induction rows generalizing t with
  | nil => simp
  | cons r rest ih =>
    rw [List.foldl_cons, ih, get_foldl_columns]
    by_cases later : p.1 ∈ rest
    · by_cases col : p.2 ∈ cols <;> simp [later, col]
    · by_cases col : p.2 ∈ cols <;> simp [later, col]

theorem get_fill (t : Sources) (row column : Nat) (cell : ParsedCell) (source : CellSource)
    (p : Nat × Nat) :
    (t.fill row column cell source).get p =
      if p ∈ block row column cell then some source else t.get p := by
  rw [Sources.fill, get_foldl_rows]
  simp only [List.mem_range'_1, mem_block]

theorem mem_sources_columns {t : Sources} {row column : Nat} {p : CellSource → Bool} :
    column ∈ t.columns row p ↔ ∃ source, t.get (row, column) = some source ∧ p source = true := by
  simp only [Sources.columns, List.mem_toFinset, List.mem_map, List.mem_filter,
    decide_eq_true_eq]
  constructor
  · rintro ⟨⟨⟨r, c⟩, source⟩, ⟨mem, rfl, holds⟩, rfl⟩
    exact ⟨source, Table.mem_rows.mp mem, holds⟩
  · rintro ⟨source, get, holds⟩
    exact ⟨((row, column), source), ⟨Table.mem_rows.mpr get, rfl, holds⟩, rfl⟩

/-- The two grids hold the same places. -/
def Covers (t : Sources) (occupied : TailOccupied) : Prop :=
  ∀ p, (t.get p).isSome = true ↔ p ∈ occupied

/-- Both grids show the same columns of a row. -/
theorem Covers.columns {t : Sources} {occupied : TailOccupied} (covers : Covers t occupied)
    (row : Nat) : t.columns row (fun _ => true) = columns occupied row := by
  ext column
  rw [mem_sources_columns, mem_columns, ← covers, Option.isSome_iff_exists]
  exact exists_congr fun _ => and_iff_left rfl

theorem Covers.fill {t : Sources} {occupied : TailOccupied} (covers : Covers t occupied)
    (row column : Nat) (cell : ParsedCell) (source : CellSource) :
    Covers (t.fill row column cell source) (occupied ∪ block row column cell) := by
  intro p
  rw [get_fill, Finset.mem_union, ← covers p]
  by_cases inside : p ∈ block row column cell
  · simp [inside]
  · simp [inside]

theorem covers_start (initial : TailOccupied) :
    Covers (SourceScan.start initial).occupied initial := by
  intro p
  rw [SourceScan.start, get_foldl_set fun p : Nat × Nat => (⟨-1, p.2⟩ : CellSource)]
  have listed : p ∈ (((initial.image toLex).sort (· ≤ ·)).map ofLex) ↔ p ∈ initial := by
    obtain ⟨row, column⟩ := p
    simp
  by_cases mem : p ∈ initial
  · rw [if_pos (listed.mpr mem)]
    simp [mem]
  · rw [if_neg (mt listed.mp mem)]
    simp [mem]

/-- The loops over the cells of a row are at the same place. -/
structure CellsMatch (row : Nat) (occupiedRow : Finset Nat) (s : CellScan) (t : SourceScan) :
    Prop where
  covers : Covers t.occupied s.occupied
  column : s.column = t.column
  kept : occupiedRow ⊆ columns s.occupied row

/-- The column at which the loop of `visual_sources` places the next cell. -/
def SourceScan.next (row : Nat) (t : SourceScan) : Nat :=
  firstFree (t.occupied.columns row fun _ => true) t.column

/-- Both loops put the next cell at the same column. -/
theorem CellsMatch.next {row : Nat} {occupiedRow : Finset Nat} {s : CellScan} {t : SourceScan}
    (same : CellsMatch row occupiedRow s t) : s.start row occupiedRow = t.next row := by
  rw [start_eq same.kept, SourceScan.next, same.covers.columns, same.column]

theorem CellsMatch.place {row : Nat} {occupiedRow : Finset Nat} {s : CellScan} {t : SourceScan}
    (same : CellsMatch row occupiedRow s t) (entry : ParsedCell × Nat) :
    CellsMatch row occupiedRow (s.place row occupiedRow entry.1) (t.place row entry) where
  covers := by
    rw [place_occupied, same.next]
    exact same.covers.fill row (t.next row) entry.1 ⟨row, entry.2⟩
  column := congrArg (· + entry.1.colspan) same.next
  kept := place_keeps same.kept entry.1

/-- The two loops stay together over a row of cells. -/
theorem CellsMatch.cells {row : Nat} {occupiedRow : Finset Nat} {s : CellScan} {t : SourceScan}
    (same : CellsMatch row occupiedRow s t) (cells : List ParsedCell) (index : Nat) :
    CellsMatch row occupiedRow (cells.foldl (CellScan.place row occupiedRow) s)
      ((cells.zipIdx index).foldl (SourceScan.place row) t) := by
  induction cells generalizing s t index with
  | nil => exact same
  | cons cell rest ih =>
    rw [List.zipIdx_cons, List.foldl_cons, List.foldl_cons]
    exact ih (same.place (cell, index)) (index + 1)

theorem cells_match {s : GridState} {t : SourceScan} (covers : Covers t.occupied s.occupied)
    (row : Nat) :
    CellsMatch row (columns s.occupied row) ⟨s.occupied, 0, 0, s.totalCols⟩
      { t with column := 0 } :=
  ⟨covers, rfl, Finset.Subset.refl _⟩

theorem covers_row {s : GridState} {t : SourceScan} (covers : Covers t.occupied s.occupied)
    (startRowIdx row : Nat) (parsed : ParsedRow) :
    Covers (t.row row parsed).occupied (s.row startRowIdx row parsed).occupied :=
  ((cells_match covers row).cells parsed.cells 0).covers

/-- The two loops stay together over rows. The induction is on the rows, since each row starts from
the grid that the one before has left. -/
theorem covers_rows {s : GridState} {t : SourceScan} (covers : Covers t.occupied s.occupied)
    (startRowIdx row : Nat) (parsed : List ParsedRow) :
    Covers (t.rows row parsed).occupied (s.rows startRowIdx row parsed).occupied := by
  induction parsed generalizing s t row with
  | nil => exact covers
  | cons first rest ih => exact ih (covers_row covers startRowIdx row first) (row + 1)

theorem sources_rows_append (row : Nat) (t : SourceScan) (a b : List ParsedRow) :
    t.rows row (a ++ b) = (t.rows row a).rows (row + a.length) b := by
  induction a generalizing t row with
  | nil => rfl
  | cons first rest ih =>
    rw [List.cons_append, SourceScan.rows, ih, SourceScan.rows, List.length_cons]
    congr 1
    omega

/-! ## The mapping -/

/-- What a loop over the cells of a row leaves alone: the columns before it, and every source it does
not put there. -/
structure CellsFrame (row : Nat) (t u : SourceScan) : Prop where
  before : ∀ r c, c < t.column → u.occupied.get (r, c) = t.occupied.get (r, c)
  older : ∀ p source, u.occupied.get p = some source →
    source.row = row ∨ t.occupied.get p = some source

theorem CellsFrame.refl (row : Nat) (t : SourceScan) : CellsFrame row t t :=
  ⟨fun _ _ _ => rfl, fun _ _ get => Or.inr get⟩

/-- A place is taken over by the cell, or it holds what it held. -/
theorem place_get (row : Nat) (t : SourceScan) (entry : ParsedCell × Nat) (p : Nat × Nat) :
    (t.place row entry).occupied.get p =
      if p ∈ block row (t.next row) entry.1 then some ⟨row, entry.2⟩ else t.occupied.get p :=
  get_fill t.occupied row (t.next row) entry.1 ⟨row, entry.2⟩ p

theorem next_ge (row : Nat) (t : SourceScan) : t.column ≤ t.next row := firstFree_ge _ _

theorem column_le_place (row : Nat) (t : SourceScan) (entry : ParsedCell × Nat) :
    t.column ≤ (t.place row entry).column :=
  (next_ge row t).trans (Nat.le_add_right _ _)

theorem frame_place (row : Nat) (t : SourceScan) (entry : ParsedCell × Nat) :
    CellsFrame row t (t.place row entry) where
  before := by
    intro r c lt
    have outside : (r, c) ∉ block row (t.next row) entry.1 := fun mem =>
      absurd (mem_block.mp mem).2.1 (Nat.not_le.mpr (Nat.lt_of_lt_of_le lt (next_ge row t)))
    rw [place_get, if_neg outside]
  older := by
    intro p source get
    rw [place_get] at get
    split at get
    · exact Or.inl (Option.some.inj get ▸ rfl)
    · exact Or.inr get

/-- A row of cells leaves what lies before its first cell as it was. -/
theorem frame_cells (row : Nat) (t : SourceScan) (entries : List (ParsedCell × Nat)) :
    CellsFrame row t (entries.foldl (SourceScan.place row) t) := by
  induction entries generalizing t with
  | nil => exact CellsFrame.refl row t
  | cons entry rest ih =>
    have one := frame_place row t entry
    have more := ih (t.place row entry)
    refine ⟨fun r c lt => ?_, fun p source get => ?_⟩
    · exact (more.before r c (Nat.lt_of_lt_of_le lt (column_le_place row t entry))).trans
        (one.before r c lt)
    · exact (more.older p source get).elim Or.inl (one.older p source)

/-- The sources from a column of a row on are those of earlier rows. -/
def EarlierFrom (row : Nat) (t : SourceScan) : Prop :=
  ∀ c source, t.column ≤ c → t.occupied.get (row, c) = some source → source.row < row

/-- A cell takes columns up to its end only, so from the cursor on the row still shows nothing but
cells of earlier rows. -/
theorem earlier_place {row : Nat} {t : SourceScan} (earlier : EarlierFrom row t)
    (entry : ParsedCell × Nat) : EarlierFrom row (t.place row entry) := by
  intro c source ge get
  have outside : (row, c) ∉ block row (t.next row) entry.1 := fun mem =>
    absurd (mem_block.mp mem).2.2 (Nat.not_lt.mpr ge)
  rw [place_get, if_neg outside] at get
  exact earlier c source ((column_le_place row t entry).trans ge) get

/-- The columns at which the loop of `visual_sources` places the cells of a row. -/
def SourceScan.nexts (row : Nat) : SourceScan → List (ParsedCell × Nat) → List Nat
  | _, [] => []
  | t, entry :: rest => t.next row :: SourceScan.nexts row (t.place row entry) rest

/-- The columns of the cells of a row are those where the loop of the sources puts them. -/
theorem CellsMatch.placements {row : Nat} {occupiedRow : Finset Nat} {s : CellScan}
    {t : SourceScan} (same : CellsMatch row occupiedRow s t) (cells : List ParsedCell)
    (index : Nat) :
    placements row occupiedRow s cells = t.nexts row (cells.zipIdx index) := by
  induction cells generalizing s t index with
  | nil => rfl
  | cons cell rest ih =>
    rw [List.zipIdx_cons, Builders.placements, SourceScan.nexts, same.next,
      ih (same.place (cell, index)) (index + 1)]

/-- The columns that hold a source of an earlier row. -/
def SourceScan.earlier (row : Nat) (t : SourceScan) : Finset Nat :=
  t.occupied.columns row fun source => source.row < row

theorem mem_earlier {row column : Nat} {t : SourceScan} :
    column ∈ t.earlier row ↔
      ∃ source, t.occupied.get (row, column) = some source ∧ source.row < row := by
  simp [SourceScan.earlier, mem_sources_columns]

/-- The next place is found from the final grid: what lies before it came from an earlier row, and
stays. -/
theorem firstFree_earlier {row : Nat} {t : SourceScan} (earlier : EarlierFrom row t)
    (entry : ParsedCell × Nat) (rest : List (ParsedCell × Nat)) :
    firstFree ((rest.foldl (SourceScan.place row) (t.place row entry)).earlier row) t.column =
      t.next row := by
  have all := frame_cells row t (entry :: rest)
  have later := frame_cells row (t.place row entry) rest
  apply firstFree_eq (next_ge row t)
  · intro c ge lt
    obtain ⟨source, get, -⟩ := mem_sources_columns.mp (firstFree_taken _ t.column c ge lt)
    refine mem_earlier.mpr ⟨source, ?_, earlier c source ge get⟩
    have reached : c < (t.place row entry).column := Nat.lt_of_lt_of_le lt (Nat.le_add_right _ _)
    have outside : (row, c) ∉ block row (t.next row) entry.1 := fun mem =>
      absurd (mem_block.mp mem).2.1 (Nat.not_le.mpr lt)
    rw [later.before row c reached, place_get, if_neg outside, get]
  · intro mem
    obtain ⟨source, get, less⟩ := mem_earlier.mp mem
    rcases all.older (row, t.next row) source get with own | old
    · exact absurd less (by rw [own]; exact Int.lt_irrefl _)
    · exact firstFree_free _ _ (mem_sources_columns.mpr ⟨source, old, rfl⟩)

/-- `visual_mapping` finds each cell of a row where the loop of `visual_sources` has put it, though
it sees nothing but the final grid. The induction carries the frame of the cells that follow. -/
theorem mapCells_nexts {row : Nat} {t : SourceScan} (earlier : EarlierFrom row t)
    (cells : List ParsedCell) (index : Nat) :
    mapCells (((cells.zipIdx index).foldl (SourceScan.place row) t).earlier row) t.column cells =
      t.nexts row (cells.zipIdx index) := by
  induction cells generalizing t index with
  | nil => rfl
  | cons cell rest ih =>
    have here := firstFree_earlier earlier (cell, index) (rest.zipIdx (index + 1))
    have there := ih (earlier_place earlier (cell, index)) (index + 1)
    rw [List.zipIdx_cons, List.foldl_cons, mapCells, here, SourceScan.nexts]
    exact congrArg (t.next row :: ·) there

/-- Every source is of a row before one. -/
def RowsBelow (row : Nat) (t : SourceScan) : Prop :=
  ∀ p source, t.occupied.get p = some source → source.row < row

theorem rowsBelow_start (initial : TailOccupied) : RowsBelow 0 (SourceScan.start initial) := by
  intro p source get
  rw [SourceScan.start, get_foldl_set fun p : Nat × Nat => (⟨-1, p.2⟩ : CellSource)] at get
  split at get
  · exact Option.some.inj get ▸ (by decide : (-1 : Int) < 0)
  · exact nomatch get

theorem rowsBelow_row {row : Nat} {t : SourceScan} (below : RowsBelow row t)
    (parsed : ParsedRow) : RowsBelow (row + 1) (t.row row parsed) := by
  intro p source get
  rcases (frame_cells row { t with column := 0 } parsed.cells.zipIdx).older p source get
    with own | old
  · rw [own]
    omega
  · have less := below p source old
    omega

theorem rowsBelow_rows {row : Nat} {t : SourceScan} (below : RowsBelow row t)
    (parsed : List ParsedRow) : RowsBelow (row + parsed.length) (t.rows row parsed) := by
  induction parsed generalizing row t with
  | nil => exact below
  | cons first rest ih =>
    rw [List.length_cons, Nat.add_comm rest.length 1, ← Nat.add_assoc]
    exact ih (rowsBelow_row below first)

/-! ## A scan in two parts -/

/-- One grid is another from a row on. -/
def Shifted (n : Nat) (whole part : TailOccupied) : Prop :=
  ∀ r c, (r, c) ∈ part ↔ (r + n, c) ∈ whole

theorem Shifted.columns {n : Nat} {whole part : TailOccupied} (shift : Shifted n whole part)
    (row : Nat) : columns part row = columns whole (row + n) := by
  ext c
  rw [mem_columns, mem_columns, shift]

/-- A block at a row and its shifted copy. -/
theorem Shifted.block {n : Nat} {whole part : TailOccupied} (shift : Shifted n whole part)
    (row column : Nat) (cell : ParsedCell) :
    Shifted n (whole ∪ block (row + n) column cell) (part ∪ block row column cell) := by
  intro r c
  rw [Finset.mem_union, Finset.mem_union, shift r c, mem_block, mem_block]
  apply or_congr Iff.rfl
  constructor
  · rintro ⟨⟨ge, lt⟩, col⟩
    exact ⟨⟨by omega, by omega⟩, col⟩
  · rintro ⟨⟨ge, lt⟩, col⟩
    exact ⟨⟨by omega, by omega⟩, col⟩

/-- The loop over a row, in the whole table and in its second part. -/
structure CellsShift (n total : Nat) (whole part : CellScan) : Prop where
  shift : Shifted n whole.occupied part.occupied
  column : whole.column = part.column
  actual : whole.actualCols = part.actualCols
  total : whole.totalCols = max total part.totalCols

theorem CellsShift.place {n total row : Nat} {occupiedRow : Finset Nat} {whole part : CellScan}
    (same : CellsShift n total whole part) (cell : ParsedCell) :
    CellsShift n total (whole.place (row + n) occupiedRow cell)
      (part.place row occupiedRow cell) := by
  have start : whole.start (row + n) occupiedRow = part.start row occupiedRow := by
    rw [CellScan.start, CellScan.start, same.shift.columns row, same.column]
  constructor
  · rw [place_occupied, place_occupied, start]
    exact same.shift.block row _ cell
  · exact congrArg (· + cell.colspan) start
  · exact congrArg (· + cell.colspan) same.actual
  · simp only [CellScan.place, start, same.total, max_assoc]

/-- The cells of a row take the same columns in the continued scan as in the scan of all rows. -/
theorem CellsShift.cells {n total row : Nat} {occupiedRow : Finset Nat} {whole part : CellScan}
    (same : CellsShift n total whole part) (cells : List ParsedCell) :
    CellsShift n total (cells.foldl (CellScan.place (row + n) occupiedRow) whole)
      (cells.foldl (CellScan.place row occupiedRow) part) := by
  induction cells generalizing whole part with
  | nil => exact same
  | cons cell rest ih => exact ih (same.place cell)

/-- The loop over the rows: what the first part left, and what the second has added. -/
structure RowsShift (n : Nat) (first whole part : GridState) : Prop where
  shift : Shifted n whole.occupied part.occupied
  total : whole.totalCols = max first.totalCols part.totalCols
  effective : whole.effective = first.effective ++ part.effective
  metrics : whole.metrics = first.metrics ++ part.metrics
  last : whole.lastNonempty = part.lastNonempty.or first.lastNonempty

theorem RowsShift.row {n : Nat} {first whole part : GridState}
    (same : RowsShift n first whole part) (startRowIdx row : Nat) (parsed : ParsedRow) :
    RowsShift n first (whole.row startRowIdx (row + n) parsed)
      (part.row (startRowIdx + n) row parsed) := by
  have cells : CellsShift n first.totalCols (whole.cells (row + n) parsed.cells)
      (part.cells row parsed.cells) := by
    unfold GridState.cells
    rw [same.shift.columns row]
    have start : CellsShift n first.totalCols ⟨whole.occupied, 0, 0, whole.totalCols⟩
        ⟨part.occupied, 0, 0, part.totalCols⟩ := ⟨same.shift, rfl, rfl, same.total⟩
    exact start.cells parsed.cells
  have effective := congrArg width (cells.shift.columns row)
  have index : startRowIdx + (row + n) = startRowIdx + n + row := by omega
  constructor
  · exact cells.shift
  · simp only [GridState.row, cells.total, effective, max_assoc]
  · simp only [GridState.row, same.effective, effective, List.append_assoc]
  · simp only [GridState.row, same.metrics, effective, cells.actual, index, List.append_assoc]
  · simp only [GridState.row, same.last, effective, cells.actual, index]
    split
    · rfl
    · exact Option.some_or.symm

/-- Both scans stay together over the rows of the second part. -/
theorem RowsShift.rows {n : Nat} {first whole part : GridState}
    (same : RowsShift n first whole part) (startRowIdx row : Nat) (parsed : List ParsedRow) :
    RowsShift n first (whole.rows startRowIdx (row + n) parsed)
      (part.rows (startRowIdx + n) row parsed) := by
  induction parsed generalizing whole part row with
  | nil => exact same
  | cons head rest ih =>
    have next := ih (same.row startRowIdx row head) (row + 1)
    rw [Nat.add_right_comm row 1 n] at next
    exact next

/-- The tail is what reaches below the rows of a part, counted from there. -/
theorem mem_tailBelow {rows : Nat} {occupied : TailOccupied} {r c : Nat} :
    (r, c) ∈ tailBelow rows occupied ↔ (r + rows, c) ∈ occupied := by
  simp only [tailBelow, Finset.mem_image, Finset.mem_filter, Prod.mk.injEq]
  constructor
  · rintro ⟨⟨r', c'⟩, ⟨mem, ge⟩, rfl, rfl⟩
    rwa [Nat.sub_add_cancel ge]
  · intro mem
    exact ⟨(r + rows, c), ⟨mem, Nat.le_add_left rows r⟩, Nat.add_sub_cancel r rows, rfl⟩

/-- The second part starts from the tail of the first. -/
theorem rowsShift_start {s : GridState} (bounded : Bounded s.occupied s.totalCols) (n : Nat) :
    RowsShift n s s (GridState.start (tailBelow n s.occupied)) where
  shift := fun _ _ => mem_tailBelow
  total := by
    have less : width ((tailBelow n s.occupied).image Prod.snd) ≤ s.totalCols := by
      apply width_le
      intro c mem
      obtain ⟨⟨r, c'⟩, inside, rfl⟩ := Finset.mem_image.mp mem
      exact bounded (r + n, c') (mem_tailBelow.mp inside)
    exact (Nat.max_eq_left less).symm
  effective := (List.append_nil _).symm
  metrics := (List.append_nil _).symm
  last := rfl

/-- A scan of all rows is the scan of the first ones, and then of the others from its tail. Nothing
else of the first part is looked at. -/
theorem scanParsed_append (a b : List ParsedRow) (initial : TailOccupied) (startRowIdx : Nat) :
    scanParsed (a ++ b) initial startRowIdx =
      let first := scanParsed a initial startRowIdx
      let second := scanParsed b first.tail (startRowIdx + a.length)
      ⟨first.effective ++ second.effective, first.metrics ++ second.metrics,
        max first.totalCols second.totalCols, second.lastNonempty.or first.lastNonempty,
        second.tail⟩ := by
  let s := (GridState.start initial).rows startRowIdx 0 a
  have bounded : Bounded s.occupied s.totalCols :=
    bounded_rows (bounded_start initial) startRowIdx 0 a
  have same := (rowsShift_start bounded a.length).rows startRowIdx 0 b
  have split := rows_append startRowIdx 0 (GridState.start initial) a b
  have tail : tailBelow (a ++ b).length
      (s.rows startRowIdx (0 + a.length) b).occupied =
        tailBelow b.length ((GridState.start (tailBelow a.length s.occupied)).rows
          (startRowIdx + a.length) 0 b).occupied := by
    ext ⟨r, c⟩
    rw [mem_tailBelow, mem_tailBelow, same.shift, List.length_append, Nat.add_comm a.length,
      ← Nat.add_assoc]
  simp only [scanParsed, split]
  rw [GridScan.mk.injEq]
  exact ⟨same.effective, same.metrics, same.total, same.last, tail⟩

/-! ## Both layouts -/

/-- A list of rows parses when both of its parts do. -/
theorem parseRows_append {a b : List TableRow} {parsed : List ParsedRow}
    (is : parseRows (a ++ b) = some parsed) :
    ∃ first second, parseRows a = some first ∧ parseRows b = some second ∧
      parsed = first ++ second := by
  simp only [parseRows, List.mapM_append] at is
  obtain ⟨first, isFirst, is⟩ := Option.bind_eq_some_iff.mp is
  obtain ⟨second, isSecond, is⟩ := Option.bind_eq_some_iff.mp is
  exact ⟨first, second, isFirst, isSecond, (Option.some.inj is).symm⟩

theorem parseRows_cons {row : TableRow} {rows : List TableRow} {parsed : List ParsedRow}
    (is : parseRows (row :: rows) = some parsed) :
    ∃ first rest, parseRow row.raw = some first ∧ parseRows rows = some rest ∧
      parsed = first :: rest := by
  simp only [parseRows, List.mapM_cons] at is
  obtain ⟨first, isFirst, is⟩ := Option.bind_eq_some_iff.mp is
  obtain ⟨rest, isRest, is⟩ := Option.bind_eq_some_iff.mp is
  exact ⟨first, rest, isFirst, isRest, (Option.some.inj is).symm⟩

theorem parseRows_length {rows : List TableRow} {parsed : List ParsedRow}
    (is : parseRows rows = some parsed) : parsed.length = rows.length := by
  induction rows generalizing parsed with
  | nil =>
    have none : [] = parsed := Option.some.inj is
    rw [← none]
    rfl
  | cons row rest ih =>
    obtain ⟨first, more, -, isRest, rfl⟩ := parseRows_cons is
    rw [List.length_cons, List.length_cons, ih isRest]

/-- The locals of `scan_rows` after the first rows. -/
def scanned (parsed : List ParsedRow) (initial : TailOccupied) (startRowIdx count : Nat) :
    GridState :=
  (GridState.start initial).rows startRowIdx 0 (parsed.take count)

/-- The columns at which `scan_rows` places the cells of the next row. -/
def GridState.starts (row : Nat) (s : GridState) (parsed : ParsedRow) : List Nat :=
  placements row (columns s.occupied row) ⟨s.occupied, 0, 0, s.totalCols⟩ parsed.cells

/-- The cells of that row with the columns at which they start. -/
def GridState.places (row : Nat) (s : GridState) (parsed : ParsedRow) : List (Nat × ParsedCell) :=
  (s.starts row parsed).zip parsed.cells

theorem columns_keep (t : Sources) (row : Nat) (p : CellSource → Bool) :
    Sources.columns (t.keep fun q _ => q.1 = row) row p = t.columns row p := by
  ext c
  simp [mem_sources_columns, Table.get_keep]

/-- The sources, when the rows up to the target parse. -/
theorem visualSources_eq {a b : List TableRow} {row : TableRow} {before : List ParsedRow}
    {parsed : ParsedRow} (isBefore : parseRows a = some before)
    (isRow : parseRow row.raw = some parsed) (initial : TailOccupied) :
    visualSources (a ++ row :: b) a.length initial =
      let s := ((SourceScan.start initial).rows 0 before).row a.length parsed
      some (s.occupied.keep fun p _ => p.1 = a.length, s.totalCols) := by
  have inside : ¬ a.length ≥ (a ++ row :: b).length := by
    rw [List.length_append, List.length_cons]
    omega
  have upTo : (a ++ row :: b).take (a.length + 1) = a ++ [row] := by
    rw [List.take_length_add_append]
    rfl
  have parses : parseRows (a ++ [row]) = some (before ++ [parsed]) := by
    have one : parseRows [row] = some [parsed] := by
      simp [parseRows, isRow]
    rw [parseRows, List.mapM_append]
    exact Option.bind_eq_some_iff.mpr
      ⟨before, isBefore, Option.bind_eq_some_iff.mpr ⟨[parsed], one, rfl⟩⟩
  rw [visualSources, if_neg inside, upTo, parses, Option.map_some, sources_rows_append,
    parseRows_length isBefore, Nat.zero_add]
  rfl

/-- The mapping reads the places of the loop back. -/
theorem visualMapping_eq {a b : List TableRow} {row : TableRow} {before : List ParsedRow}
    {parsed : ParsedRow} (isBefore : parseRows a = some before)
    (isRow : parseRow row.raw = some parsed) (initial : TailOccupied) (startRowIdx : Nat) :
    visualMapping (a ++ row :: b) a.length initial =
      some (((GridState.start initial).rows startRowIdx 0 before).starts a.length parsed) := by
  let s := (GridState.start initial).rows startRowIdx 0 before
  let t := (SourceScan.start initial).rows 0 before
  have covers : Covers t.occupied s.occupied :=
    covers_rows (covers_start initial) startRowIdx 0 before
  have below : RowsBelow a.length t := by
    have all := rowsBelow_rows (rowsBelow_start initial) before
    rwa [Nat.zero_add, parseRows_length isBefore] at all
  have earlier : EarlierFrom a.length { t with column := 0 } :=
    fun c source _ get => below (a.length, c) source get
  have read := mapCells_nexts earlier parsed.cells 0
  have placed := (cells_match covers a.length).placements parsed.cells 0
  have here : (a ++ row :: b)[a.length]? = some row := by simp
  rw [visualMapping, visualSources_eq isBefore isRow, here]
  simp only [Option.bind_eq_bind, Option.bind_some, isRow, columns_keep]
  exact congrArg some (read.trans placed.symm)

theorem scanRows_some {rows : List TableRow} {parsed : List ParsedRow}
    (is : parseRows rows = some parsed) (initial : TailOccupied) (startRowIdx : Nat) :
    scanRows rows initial startRowIdx = some (scanParsed parsed initial startRowIdx) := by
  rw [scanRows, is, Option.map_some]

/-- **The two layouts of a table agree.** The columns and the starts of a row are the same in
`scan_rows`, `visual_sources` and `visual_mapping`, for rows that parse. And a scan may be cut in
two anywhere: the second part starts from the tail of the first, and the results are put
together. -/
theorem grid_layouts_agree {rows : List TableRow} {parsed : List ParsedRow}
    (is : parseRows rows = some parsed) (initial : TailOccupied) (startRowIdx : Nat) :
    (∀ target, target < rows.length → ∃ sources totalCols row,
      visualSources rows target initial = some (sources, totalCols) ∧
      parsed[target]? = some row ∧
      sources.columns target (fun _ => true) =
        columns (scanned parsed initial startRowIdx (target + 1)).occupied target ∧
      visualMapping rows target initial =
        some ((scanned parsed initial startRowIdx target).starts target row)) ∧
    ∀ a b, rows = a ++ b → ∃ first second,
      scanRows a initial startRowIdx = some first ∧
      scanRows b first.tail (startRowIdx + a.length) = some second ∧
      scanRows rows initial startRowIdx =
        some ⟨first.effective ++ second.effective, first.metrics ++ second.metrics,
          max first.totalCols second.totalCols, second.lastNonempty.or first.lastNonempty,
          second.tail⟩ := by
  constructor
  · intro target inside
    have split : rows = rows.take target ++ rows[target] :: rows.drop (target + 1) := by
      rw [← List.drop_eq_getElem_cons inside, List.take_append_drop]
    have length : (rows.take target).length = target := List.length_take_of_le inside.le
    rw [split] at is
    obtain ⟨before, more, isBefore, isMore, rfl⟩ := parseRows_append is
    obtain ⟨row, after, isRow, -, rfl⟩ := parseRows_cons isMore
    have count : before.length = target := (parseRows_length isBefore).trans length
    have start : Covers (SourceScan.start initial).occupied (GridState.start initial).occupied :=
      covers_start initial
    have covers := covers_row (covers_rows start startRowIdx 0 before) startRowIdx target row
    have sources := visualSources_eq (b := rows.drop (target + 1)) isBefore isRow initial
    have mapping := visualMapping_eq (b := rows.drop (target + 1)) isBefore isRow initial
      startRowIdx
    rw [← split, length] at sources mapping
    have upTo : scanned (before ++ row :: after) initial startRowIdx target =
        (GridState.start initial).rows startRowIdx 0 before := by
      rw [scanned, ← count, List.take_left]
    have next : scanned (before ++ row :: after) initial startRowIdx (target + 1) =
        ((GridState.start initial).rows startRowIdx 0 before).row startRowIdx target row := by
      rw [scanned, ← count, List.take_length_add_append, rows_append, Nat.zero_add]
      rfl
    refine ⟨_, _, row, sources, ?_, ?_, ?_⟩
    · simp [← count]
    · rw [columns_keep, covers.columns, next]
    · rw [mapping, upTo]
  · rintro a b rfl
    obtain ⟨first, second, isFirst, isSecond, rfl⟩ := parseRows_append is
    refine ⟨_, _, scanRows_some isFirst initial startRowIdx,
      scanRows_some isSecond _ (startRowIdx + a.length), ?_⟩
    rw [scanRows_some is, scanParsed_append, parseRows_length isFirst]

/-- A cell over two rows, and a cell beside its second row. -/
def spannedRows : List TableRow :=
  [⟨text "<tr><td rowspan=\"2\">a</td></tr>", false⟩, ⟨text "<tr><td>b</td></tr>", false⟩]

/-- The second row stands beside a cell that spans both. -/
theorem grid_layouts_agree_spanned :
    ∃ sources totalCols, visualSources spannedRows 1 ∅ = some (sources, totalCols) ∧
      sources.columns 1 (fun _ => true) = {0, 1} ∧ visualMapping spannedRows 1 ∅ = some [1] := by
  have parses : parseRows spannedRows =
      some [⟨[⟨4, 20, 21, 26, 1, 2⟩], 26⟩, ⟨[⟨4, 8, 9, 14, 1, 1⟩], 14⟩] := by decide +kernel
  obtain ⟨sources, totalCols, row, is, at1, cols, starts⟩ :=
    (grid_layouts_agree parses ∅ 0).1 1 (by decide)
  obtain rfl := Option.some.inj at1
  exact ⟨sources, totalCols, is, cols.trans (by decide +kernel), starts.trans (by decide +kernel)⟩

end Mineru.Builders
