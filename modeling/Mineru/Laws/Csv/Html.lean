import Mineru.Laws.Csv.Written
import Mineru.Csv.Restore

/-!
# The reader inverts the writer

`Reads st t st'` says that `parse_table` takes the stretch `t` from one state to another, whatever
follows it; `Reads.tag` is one turn of the loop and `Reads.trans` puts stretches together. A cell is
read character by character (`readCell`), although the reader only sees its text in pieces between
line breaks. `Between` and `InRow` are the states between two rows and between two cells.

The limits of the reader are checked along the way. Within the grid they are never reached, except
by rows that have no cell: those cost nothing against the grid, and `Between.row_refused` is the row
after the last one that is taken.

Characters that a CSV file cannot hold are replaced when the table is read, so the cells come back
with that replacement. Tables that other programs wrote are not considered.
-/

set_option autoImplicit false

namespace Mineru.Csv

open Logic Official Restore

/-- A cell as it comes back: every line break is one line feed, and the control characters that the
writer refuses are replaced. -/
def readBack (skip : Bool) : Text → Text
  | [] => []
  | ch :: rest =>
    if skip then readBack false rest
    else (if ch = '\r' ∨ ch = '\n' then '\n' else if disallowedControl ch then '\ufffd' else ch) ::
      readBack (takesNext ch rest.head?) rest

/-- A row of exactly `width` cells. -/
def readBackRow (width : Nat) (row : Row) : Row :=
  (List.range width).map fun col => readBack false (row[col]?.getD [])

/-! ## Text -/

theorem appendText_char (target rest : Text) {ch : Char} (h : ch ≠ '&') :
    appendText false target (ch :: rest) = appendText false (target ++ [ch]) rest := by
  rw [appendText, if_neg h]

/-- An entity that `append_text` knows is taken as a whole. -/
theorem appendText_entity (target rest name : Text) {ch : Char} (plain : ';' ∉ name)
    (known : entity ('&' :: name ++ [';']) = some ch) :
    appendText false target ('&' :: (name ++ ';' :: rest)) =
      appendText false (target ++ [ch]) rest := by
  have all : ∀ c ∈ name, decide (c ≠ ';') = true := by
    intro c mem
    refine decide_eq_true fun same => ?_
    exact plain (same ▸ mem)
  have taken : (name ++ ';' :: rest).takeWhile (· ≠ ';') = name := by
    rw [List.takeWhile_append_of_pos all, List.takeWhile_cons_of_neg (by decide), List.append_nil]
  have left : (name ++ ';' :: rest).dropWhile (· ≠ ';') = ';' :: rest := by
    rw [List.dropWhile_append_of_pos all, List.dropWhile_cons_of_neg (by decide)]
  have live : Restore.checkCancel false = .ok () := rfl
  rw [appendText, if_pos rfl]
  simp only [taken, known, live]
  split
  · next none => rw [left] at none; cases none
  · next after shape =>
    rw [left] at shape
    cases shape
    rfl

/-- The character that an encoded one stands for. -/
theorem appendText_encoded (target rest : Text) {ch : Char} (inline : ¬ (ch = '\r' ∨ ch = '\n')) :
    appendText false target ((encodeHtml ch).getD [ch] ++ rest) =
      appendText false (target ++ [if disallowedControl ch then '\ufffd' else ch]) rest := by
  unfold encodeHtml
  rw [if_neg inline]
  by_cases amp : ch = '&'
  · subst amp
    exact appendText_entity target rest (text "amp") (by decide) (by decide)
  by_cases lt : ch = '<'
  · subst lt
    exact appendText_entity target rest (text "lt") (by decide) (by decide)
  by_cases gt : ch = '>'
  · subst gt
    exact appendText_entity target rest (text "gt") (by decide) (by decide)
  by_cases quot : ch = '"'
  · subst quot
    exact appendText_entity target rest (text "quot") (by decide) (by decide)
  by_cases apos : ch = '\''
  · subst apos
    exact appendText_entity target rest (text "#x27") (by decide) (by decide)
  rw [if_neg amp, if_neg lt, if_neg gt, if_neg quot, if_neg apos]
  cases control : disallowedControl ch with
  | true => exact appendText_char target rest (by decide)
  | false => exact appendText_char target rest amp

/-- No encoded character of a line opens a tag. -/
theorem encodeHtml_noTag {ch : Char} (inline : ¬ (ch = '\r' ∨ ch = '\n')) :
    '<' ∉ (encodeHtml ch).getD [ch] := by
  unfold encodeHtml
  rw [if_neg inline]
  split
  · exact (by decide : '<' ∉ text "&amp;")
  · split
    · exact (by decide : '<' ∉ text "&lt;")
    · next lt =>
      split
      · exact (by decide : '<' ∉ text "&gt;")
      · split
        · exact (by decide : '<' ∉ text "&quot;")
        · split
          · exact (by decide : '<' ∉ text "&#x27;")
          · split
            · exact (by decide : '<' ∉ ['\ufffd'])
            · intro mem
              exact lt (List.mem_singleton.mp mem).symm

/-! ## Turns -/

/-- The reader takes `t` from `st` to `st'`. -/
def Reads (st : TableState) (t : Text) (st' : TableState) : Prop :=
  ∀ (k : Nat) (rest : Text), ∃ k', tableLoop false k st (t ++ rest) = tableLoop false k' st' rest

theorem Reads.nil (st : TableState) : Reads st [] st := fun k _ => ⟨k, rfl⟩

theorem Reads.trans {a b c : TableState} {t u : Text} (first : Reads a t b) (second : Reads b u c) :
    Reads a (t ++ u) c := by
  intro k rest
  obtain ⟨k', one⟩ := first k (u ++ rest)
  obtain ⟨k'', two⟩ := second k' rest
  exact ⟨k'', by rw [List.append_assoc, one, two]⟩

theorem tableLoop_nil (k : Nat) (st : TableState) : tableLoop false k st [] = finishTable st := by
  rw [tableLoop]
  rfl

/-- One turn of the loop, up to its outcome. -/
theorem tableLoop_tag (k : Nat) (st : TableState) {pre tag rest : Text} (open' : '<' ∉ pre)
    (close : '>' ∉ tag) :
    tableLoop false k st (pre ++ '<' :: (tag ++ '>' :: rest)) =
      (turn false (k + 1) st pre tag >>= fun st' => tableLoop false (k + 1) st' rest) := by
  have keep : ∀ (c : Char) (t : Text), c ∉ t → ∀ d ∈ t, decide (d ≠ c) = true := by
    intro c t none d mem
    refine decide_eq_true fun same => ?_
    exact none (same ▸ mem)
  have before : (pre ++ '<' :: (tag ++ '>' :: rest)).takeWhile (· ≠ '<') = pre := by
    rw [List.takeWhile_append_of_pos (keep '<' pre open'), List.takeWhile_cons_of_neg (by decide),
      List.append_nil]
  have inside : (pre ++ '<' :: (tag ++ '>' :: rest)).dropWhile (· ≠ '<') =
      '<' :: (tag ++ '>' :: rest) := by
    rw [List.dropWhile_append_of_pos (keep '<' pre open'), List.dropWhile_cons_of_neg (by decide)]
  have name : (tag ++ '>' :: rest).takeWhile (· ≠ '>') = tag := by
    rw [List.takeWhile_append_of_pos (keep '>' tag close), List.takeWhile_cons_of_neg (by decide),
      List.append_nil]
  have after : (tag ++ '>' :: rest).dropWhile (· ≠ '>') = '>' :: rest := by
    rw [List.dropWhile_append_of_pos (keep '>' tag close), List.dropWhile_cons_of_neg (by decide)]
  have some : (pre ++ '<' :: (tag ++ '>' :: rest)).isEmpty = false := by
    cases pre <;> rfl
  rw [tableLoop, some]
  simp only [Bool.false_eq_true, if_false, before]
  split
  · next none => rw [inside] at none; cases none
  · next inner shape =>
    rw [inside] at shape
    cases shape
    split
    · next none => rw [after] at none; cases none
    · next outer shape =>
      rw [after] at shape
      cases shape
      rw [name]
      cases turn false (k + 1) st pre tag <;> rfl

/-- A turn that nothing cancels: its text, its tag and the limits. -/
theorem turn_of {k : Nat} {st mid st' : TableState} {pre tag : Text}
    (read : textStep false "invalid table whitespace" st pre = .ok mid)
    (tagged : tagStep mid tag = .ok st') :
    turn false k st pre tag = (do withinLimits st'; return st') := by
  have check : (if k % 1024 = 0 then Restore.checkCancel false else .ok ()) = .ok () := by
    split <;> rfl
  unfold turn
  rw [check]
  change (textStep false "invalid table whitespace" st pre >>= _) = _
  rw [read]
  change (tagStep mid tag >>= _) = _
  rw [tagged]
  rfl

theorem withinLimits_ok {st : TableState} (rows : st.rows.length ≤ 1048576)
    (cells : st.cellCount ≤ MAX_GRID) : withinLimits st = .ok () := by
  unfold withinLimits Checked.reject
  exact if_neg (by omega)

theorem Reads.tag {st mid st' : TableState} {pre tag : Text} (open' : '<' ∉ pre)
    (close : '>' ∉ tag) (read : textStep false "invalid table whitespace" st pre = .ok mid)
    (tagged : tagStep mid tag = .ok st') (rows : st'.rows.length ≤ 1048576)
    (cells : st'.cellCount ≤ MAX_GRID) : Reads st (pre ++ '<' :: (tag ++ ['>'])) st' := by
  intro k rest
  refine ⟨k + 1, ?_⟩
  have shape : pre ++ '<' :: (tag ++ ['>']) ++ rest = pre ++ '<' :: (tag ++ '>' :: rest) := by
    simp only [List.append_assoc, List.cons_append, List.nil_append]
  rw [shape, tableLoop_tag k st open' close, turn_of read tagged, withinLimits_ok rows cells]
  rfl

/-! ## Cells -/

/-- A cell that is closed leaves its text in the row. -/
def Restore.TableState.push (st : TableState) (cell : Text) : TableState :=
  { st with
    row := st.row ++ [cell]
    cell := none
    cellTag := none
    cellCount := st.cellCount + 1 }

section
variable {st : TableState} {tag : Text}

theorem textStep_cell {cell got t : Text} (open' : st.cell = some cell)
    (read : appendText false cell t = .ok got) :
    textStep false "invalid table whitespace" st t = .ok { st with cell := some got } := by
  unfold textStep
  rw [open']
  change (appendText false cell t >>= _) = _
  rw [read]
  rfl

theorem tagStep_break {cell : Text} (open' : st.cell = some cell) :
    tagStep st (text "br") = .ok { st with cell := some (cell ++ ['\n']) } := by
  have matched : tagMatch st (text "br") = .ok { st with cell := some (cell ++ ['\n']) } := by
    rw [tagMatch, if_neg fun h => absurd h.1 (by decide),
      if_neg fun h => absurd h.1 (by decide), if_neg fun h => absurd h.1 (by decide),
      if_neg fun h => absurd h.1 (by decide), if_neg fun h => absurd h.1 (by decide),
      if_neg fun h => absurd h.1 (by decide), if_neg fun h => absurd h.1 (by decide),
      if_pos ⟨rfl, by rw [open']; rfl⟩, open']
    rfl
  unfold tagStep
  rw [matched]
  rfl

theorem tagStep_close {cell : Text} (kind : tag = text "td" ∨ tag = text "th")
    (open' : st.cell = some cell) (row : st.rowOpen = true) (tagged : st.cellTag = some tag) :
    tagStep st ('/' :: tag) = .ok (st.push cell) := by
  have closed : closeCell st = .ok { st with
      row := st.row ++ [cell], cell := none, cellCount := st.cellCount + 1 } := by
    unfold closeCell
    rw [open']
  have matched : tagMatch st ('/' :: tag) = closeCell st := by
    rcases kind with rfl | rfl
    · have name : '/' :: text "td" = text "/td" := by decide
      rw [name, tagMatch, if_neg fun h => absurd h.1 (by decide),
        if_neg fun h => absurd h.1 (by decide), if_neg fun h => absurd h.1 (by decide),
        if_neg fun h => absurd h.1 (by decide), if_neg fun h => absurd h.1 (by decide),
        if_pos ⟨rfl, row, tagged⟩]
    · have name : '/' :: text "th" = text "/th" := by decide
      rw [name, tagMatch, if_neg fun h => absurd h.1 (by decide),
        if_neg fun h => absurd h.1 (by decide), if_neg fun h => absurd h.1 (by decide),
        if_neg fun h => absurd h.1 (by decide), if_neg fun h => absurd h.1 (by decide),
        if_neg fun h => absurd h.1 (by decide), if_pos ⟨rfl, row, tagged⟩]
  unfold tagStep
  rw [matched, closed]
  rfl

end

/-- The rest of a cell, from a state in which the piece `seg` is still unread: `mid` is what the
cell holds once it is. -/
theorem readCell {tag : Text} (kind : tag = text "td" ∨ tag = text "th") (t : Text) :
    ∀ (skip : Bool) (st : TableState) (cell seg mid : Text), st.cell = some cell →
      st.rowOpen = true → st.cellTag = some tag → st.rows.length ≤ 1048576 →
      st.cellCount < MAX_GRID → '<' ∉ seg →
      (∀ more, appendText false cell (seg ++ more) = appendText false mid more) →
      Reads st (seg ++ htmlCellText skip t ++ (text "</" ++ (tag ++ ['>'])))
        (st.push (mid ++ readBack skip t)) := by
  induction t with
  | nil =>
    intro skip st cell seg mid open' row tagged rows cells plain read
    have all : appendText false cell seg = .ok mid := by
      have := read []
      rwa [List.append_nil, appendText] at this
    have noClose : '>' ∉ '/' :: tag := by
      rcases kind with rfl | rfl <;> decide
    have closed := @Reads.tag st _ _ seg ('/' :: tag) plain noClose (textStep_cell open' all)
      (tagStep_close kind rfl row tagged) rows cells
    rw [htmlCellText, readBack, List.append_nil, List.append_nil]
    exact closed
  | cons ch rest ih =>
    intro skip st cell seg mid open' row tagged rows cells plain read
    unfold htmlCellText readBack
    split
    · exact ih false st cell seg mid open' row tagged rows cells plain read
    · by_cases inline : ch = '\r' ∨ ch = '\n'
      · -- A line break ends the piece: the reader takes it and pushes a line feed.
        have all : appendText false cell seg = .ok mid := by
          have := read []
          rwa [List.append_nil, appendText] at this
        have broken := @Reads.tag st _ _ seg (text "br") plain (by decide) (textStep_cell open' all)
          (tagStep_break rfl) rows (Nat.le_of_lt cells)
        have later := ih (takesNext ch rest.head?) { st with cell := some (mid ++ ['\n']) }
          (mid ++ ['\n']) [] (mid ++ ['\n']) rfl row tagged rows cells List.not_mem_nil
          (fun _ => rfl)
        have both := broken.trans later
        have encoded : (encodeHtml ch).getD [ch] = '<' :: (text "br" ++ ['>']) := by
          unfold encodeHtml
          rw [if_pos inline]
          rfl
        rw [if_pos inline, encoded]
        simp only [List.append_assoc, List.nil_append, List.cons_append] at both ⊢
        exact both
      · have later := ih (takesNext ch rest.head?) st cell (seg ++ (encodeHtml ch).getD [ch])
          (mid ++ [if disallowedControl ch then '\ufffd' else ch]) open' row tagged rows cells
          (by rw [List.mem_append, not_or]; exact ⟨plain, encodeHtml_noTag inline⟩)
          (fun more => by
            rw [List.append_assoc, read, appendText_encoded mid more inline])
        rw [if_neg inline]
        simp only [List.append_assoc, List.cons_append, List.nil_append] at later ⊢
        exact later

/-! ## Rows -/

/-- Inside a row, after the cells `cells`. -/
structure InRow (done : List Row) (cells : Row) (width : Nat) (st : TableState) : Prop where
  rows : st.rows = done
  row : st.row = cells
  cell : st.cell = none
  tableOpen : st.tableOpen = true
  rowOpen : st.rowOpen = true
  tableClosed : st.tableClosed = false
  cellCount : st.cellCount = done.length * width + cells.length
  maxWidth : st.maxWidth ≤ width

/-- Between two rows, after the rows `done`. -/
structure Between (done : List Row) (width : Nat) (st : TableState) : Prop where
  rows : st.rows = done
  cell : st.cell = none
  tableOpen : st.tableOpen = true
  rowOpen : st.rowOpen = false
  tableClosed : st.tableClosed = false
  cellCount : st.cellCount = done.length * width
  maxWidth : st.maxWidth ≤ width

theorem textStep_blank {st : TableState} {t : Text} {message : String} (none' : st.cell = none)
    (blank : (trim t).isEmpty = true) : textStep false message st t = .ok st := by
  unfold textStep
  rw [none']
  exact if_pos blank

section
variable {done : List Row} {cells : Row} {width : Nat} {st : TableState}

theorem InRow.tagOpen {tag : Text} (inv : InRow done cells width st)
    (kind : tag = text "td" ∨ tag = text "th") (room : cells.length < MAX_COLUMNS) :
    tagStep st tag = .ok { st with cell := some [], cellTag := some tag } := by
  have matched : tagMatch st tag = .ok { st with cell := some [], cellTag := some tag } := by
    have narrow : ¬ st.row.length ≥ MAX_COLUMNS := by
      rw [inv.row]
      exact Nat.not_le.mpr room
    have isNone : st.cell.isNone = true := by rw [inv.cell]; rfl
    rcases kind with rfl | rfl
    · rw [tagMatch, if_neg fun h => absurd h.1 (by decide),
        if_neg fun h => absurd h.1 (by decide), if_neg fun h => absurd h.1 (by decide),
        if_neg fun h => absurd h.1 (by decide), if_pos ⟨Or.inl rfl, inv.rowOpen, isNone⟩,
        if_neg narrow]
    · rw [tagMatch, if_neg fun h => absurd h.1 (by decide),
        if_neg fun h => absurd h.1 (by decide), if_neg fun h => absurd h.1 (by decide),
        if_neg fun h => absurd h.1 (by decide), if_pos ⟨Or.inr rfl, inv.rowOpen, isNone⟩,
        if_neg narrow]
  unfold tagStep
  rw [matched]
  rfl

/-- One column. -/
theorem InRow.column {tag : Text} (inv : InRow done cells width st)
    (kind : tag = text "td" ∨ tag = text "th") (row : Row) (col : Nat)
    (room : cells.length < MAX_COLUMNS) (rows : done.length ≤ 1048576)
    (grid : done.length * width + cells.length < MAX_GRID) :
    ∃ st', Reads st (htmlColumnText tag row col) st' ∧
      InRow done (cells ++ [readBack false (row[col]?.getD [])]) width st' := by
  have plain : '>' ∉ tag := by
    rcases kind with rfl | rfl <;> decide
  have opened := @Reads.tag st _ _ (text "\n    ") tag (by decide) plain
    (textStep_blank inv.cell (by decide)) (inv.tagOpen kind room) (by rw [inv.rows]; exact rows)
    (by rw [inv.cellCount]; exact Nat.le_of_lt grid)
  have content := readCell kind (row[col]?.getD []) false
    { st with cell := some [], cellTag := some tag } [] [] [] rfl inv.rowOpen rfl
    (by rw [inv.rows]; exact rows) (by rw [inv.cellCount]; exact grid) List.not_mem_nil
    (fun _ => rfl)
  refine ⟨TableState.push { st with cell := some [], cellTag := some tag }
    (readBack false (row[col]?.getD [])), ?_, ?_⟩
  · have both := opened.trans content
    have shape : text "\n    " ++ '<' :: (tag ++ ['>']) ++
        ([] ++ htmlCellText false (row[col]?.getD []) ++ (text "</" ++ (tag ++ ['>']))) =
        htmlColumnText tag row col := by
      unfold htmlColumnText
      have : text "\n    <" = text "\n    " ++ ['<'] := by decide
      simp only [this, List.append_assoc, List.cons_append, List.nil_append]
    rw [shape] at both
    exact both
  · exact {
      rows := inv.rows
      row := by rw [TableState.push, inv.row]
      cell := rfl
      tableOpen := inv.tableOpen
      rowOpen := inv.rowOpen
      tableClosed := inv.tableClosed
      cellCount := by
        rw [TableState.push, inv.cellCount, List.length_append]
        rfl
      maxWidth := inv.maxWidth }

/-- The columns of a row. -/
theorem InRow.columns {tag : Text} (kind : tag = text "td" ∨ tag = text "th") (row : Row)
    (cols : List Nat) :
    ∀ (cells : Row) (st : TableState), InRow done cells width st →
      cells.length + cols.length ≤ MAX_COLUMNS → done.length ≤ 1048576 →
      done.length * width + (cells.length + cols.length) ≤ MAX_GRID →
      ∃ st', Reads st (cols.flatMap (htmlColumnText tag row)) st' ∧
        InRow done (cells ++ cols.map fun col => readBack false (row[col]?.getD [])) width st' := by
  induction cols with
  | nil =>
    intro cells st inv _ _ _
    exact ⟨st, .nil st, by rw [List.map_nil, List.append_nil]; exact inv⟩
  | cons col cols ih =>
    intro cells st inv room rows grid
    rw [List.length_cons] at room grid
    obtain ⟨mid, one, invMid⟩ := inv.column kind row col (by omega) rows (by omega)
    have longer : (cells ++ [readBack false (row[col]?.getD [])]).length = cells.length + 1 := by
      rw [List.length_append, List.length_singleton]
    obtain ⟨st', more, inv'⟩ := ih _ mid invMid (by omega) rows (by omega)
    refine ⟨st', ?_, ?_⟩
    · rw [List.flatMap_cons]
      exact one.trans more
    · rw [List.append_assoc] at inv'
      exact inv'

/-- The tag that opens a row. -/
theorem Between.opens (inv : Between done width st) (rows : done.length ≤ 1048576)
    (grid : done.length * width ≤ MAX_GRID) :
    ∃ st', Reads st (text "\n  <tr>") st' ∧ InRow done [] width st' := by
  have isNone : st.cell.isNone = true := by rw [inv.cell]; rfl
  have matched : tagMatch st (text "tr") = .ok { st with rowOpen := true, row := [] } := by
    rw [tagMatch, if_neg fun h => absurd h.1 (by decide),
      if_neg fun h => absurd h.1 (by decide),
      if_pos ⟨rfl, inv.tableOpen, by rw [inv.rowOpen]; exact Bool.false_ne_true, isNone⟩]
  have tagged : tagStep st (text "tr") =
      .ok { st with rowOpen := true, row := [], cellTag := none } := by
    unfold tagStep
    rw [matched]
    change Except.ok (if st.cell.isNone then _ else _) = _
    rw [if_pos isNone]
  refine ⟨_, @Reads.tag st _ _ (text "\n  ") (text "tr") (by decide) (by decide)
    (textStep_blank inv.cell (by decide)) tagged (by rw [inv.rows]; exact rows)
    (by rw [inv.cellCount]; exact grid), ?_⟩
  exact {
    rows := inv.rows
    row := rfl
    cell := inv.cell
    tableOpen := inv.tableOpen
    rowOpen := rfl
    tableClosed := inv.tableClosed
    cellCount := inv.cellCount
    maxWidth := inv.maxWidth }

/-- What `/tr` leaves behind. -/
def Restore.TableState.endRow (st : TableState) : TableState :=
  { st with
    rows := st.rows ++ [st.row]
    row := []
    rowOpen := false
    cellTag := none
    maxWidth := max st.maxWidth st.row.length }

theorem InRow.tagClose (inv : InRow done cells width st) (full : cells.length ≤ width)
    (grid : (done.length + 1) * width ≤ MAX_GRID) : tagStep st (text "/tr") = .ok st.endRow := by
  have isNone : st.cell.isNone = true := by rw [inv.cell]; rfl
  have widest : max st.maxWidth st.row.length ≤ width := by
    rw [inv.row]
    exact Nat.max_le.mpr ⟨inv.maxWidth, full⟩
  have small : ¬ (st.rows ++ [st.row]).length * max st.maxWidth st.row.length > MAX_GRID := by
    rw [List.length_append, List.length_singleton, inv.rows]
    exact Nat.not_lt.mpr ((Nat.mul_le_mul_left _ widest).trans grid)
  have matched : tagMatch st (text "/tr") = closeRow st := by
    rw [tagMatch, if_neg fun h => absurd h.1 (by decide),
      if_neg fun h => absurd h.1 (by decide), if_neg fun h => absurd h.1 (by decide),
      if_pos ⟨rfl, inv.rowOpen, isNone⟩]
  unfold tagStep
  rw [matched, closeRow, if_neg small]
  change Except.ok (if st.cell.isNone then _ else _) = _
  rw [if_pos isNone]
  rfl

theorem InRow.ended (inv : InRow done cells width st) (full : cells.length = width) :
    Between (done ++ [cells]) width st.endRow where
  rows := by rw [TableState.endRow, inv.rows, inv.row]
  cell := inv.cell
  tableOpen := inv.tableOpen
  rowOpen := rfl
  tableClosed := inv.tableClosed
  cellCount := by
    rw [TableState.endRow, inv.cellCount, List.length_append, List.length_singleton, full,
      Nat.add_mul, Nat.one_mul]
  maxWidth := by
    rw [TableState.endRow, inv.row, full]
    exact Nat.max_le.mpr ⟨inv.maxWidth, le_refl width⟩

/-- One row of the writer. -/
theorem Between.row (inv : Between done width st) (header : Bool) (index : Nat) (row : Row)
    (wide : width ≤ MAX_COLUMNS) (rows : done.length + 1 ≤ 1048576)
    (grid : (done.length + 1) * width ≤ MAX_GRID) :
    ∃ st', Reads st (htmlRowText width header index row) st' ∧
      Between (done ++ [readBackRow width row]) width st' := by
  have kind : cellTag header index = text "td" ∨ cellTag header index = text "th" := by
    unfold cellTag
    split
    · exact Or.inr rfl
    · exact Or.inl rfl
  have grid' : done.length * width + width ≤ MAX_GRID := by
    rw [Nat.add_mul, Nat.one_mul] at grid
    exact grid
  obtain ⟨first, opened, invRow⟩ := inv.opens (by omega) (by omega)
  obtain ⟨second, read, invFull⟩ := InRow.columns kind row (List.range width) [] first invRow
    (by rw [List.length_nil, List.length_range]; omega) (by omega)
    (by rw [List.length_nil, List.length_range]; omega)
  rw [List.nil_append] at invFull
  have full : (readBackRow width row).length = width := by
    rw [readBackRow, List.length_map, List.length_range]
  have ended := invFull.ended full
  have closed := @Reads.tag second _ _ (text "\n  ") (text "/tr") (by decide) (by decide)
    (textStep_blank invFull.cell (by decide)) (invFull.tagClose (Nat.le_of_eq full) grid)
    (by rw [ended.rows, List.length_append, List.length_singleton]; exact rows)
    (by rw [ended.cellCount, List.length_append, List.length_singleton]; exact grid)
  exact ⟨second.endRow, opened.trans (read.trans closed), ended⟩

end

/-- The rows of the writer. -/
theorem Between.rows_read {width : Nat} (header : Bool) (wide : width ≤ MAX_COLUMNS)
    (rows : List Row) :
    ∀ (index : Nat) (done : List Row) (st : TableState), Between done width st →
      done.length + rows.length ≤ 1048576 → (done.length + rows.length) * width ≤ MAX_GRID →
      ∃ st', Reads st
          ((rows.zipIdx index).flatMap fun r => htmlRowText width header r.2 r.1) st' ∧
        Between (done ++ rows.map (readBackRow width)) width st' := by
  induction rows with
  | nil =>
    intro index done st inv _ _
    exact ⟨st, .nil st, by rw [List.map_nil, List.append_nil]; exact inv⟩
  | cons row rows ih =>
    intro index done st inv few grid
    rw [List.length_cons] at few grid
    have grid' : (done.length + 1) * width ≤ MAX_GRID :=
      (Nat.mul_le_mul_right width (by omega)).trans grid
    obtain ⟨mid, one, invMid⟩ := inv.row header index row wide (by omega) grid'
    have longer : (done ++ [readBackRow width row]).length = done.length + 1 := by
      rw [List.length_append, List.length_singleton]
    have shift : done.length + (rows.length + 1) = done.length + 1 + rows.length := by omega
    obtain ⟨st', more, inv'⟩ := ih (index + 1) _ mid invMid (by rw [longer]; omega)
      (by rw [longer, ← shift]; exact grid)
    refine ⟨st', ?_, ?_⟩
    · rw [List.zipIdx_cons, List.flatMap_cons]
      exact one.trans more
    · rw [List.append_assoc] at inv'
      exact inv'

/-! ## The table -/

/-- The tag that opens the table. -/
theorem Reads.tableOpen {width : Nat} :
    ∃ st, Reads {} (text "<table>") st ∧ Between [] width st := by
  have tagged : tagStep {} (text "table") = .ok { tableOpen := true } := by decide
  refine ⟨_, @Reads.tag {} _ _ [] (text "table") List.not_mem_nil (by decide) rfl tagged
    (Nat.zero_le _) (Nat.zero_le _), ?_⟩
  exact {
    rows := rfl
    cell := rfl
    tableOpen := rfl
    rowOpen := rfl
    tableClosed := rfl
    cellCount := (Nat.zero_mul width).symm
    maxWidth := Nat.zero_le width }

/-- The tag that closes the table, and the end of the text. -/
theorem Between.finish {done : List Row} {width : Nat} {st : TableState}
    (inv : Between done width st) (few : done.length ≤ 1048576)
    (grid : done.length * width ≤ MAX_GRID) (wide : width ≤ MAX_COLUMNS)
    (full : ∀ row ∈ done, row.length = width) (k : Nat) :
    tableLoop false k st (text "\n</table>") = .ok done := by
  have isNone : st.cell.isNone = true := by rw [inv.cell]; rfl
  have matched : tagMatch st (text "/table") =
      .ok { st with tableOpen := false, tableClosed := true } := by
    rw [tagMatch, if_neg fun h => absurd h.1 (by decide),
      if_pos ⟨rfl, inv.tableOpen, by rw [inv.rowOpen]; exact Bool.false_ne_true, isNone⟩]
  have tagged : tagStep st (text "/table") =
      .ok { st with tableOpen := false, tableClosed := true, cellTag := none } := by
    unfold tagStep
    rw [matched]
    change Except.ok (if st.cell.isNone then _ else _) = _
    rw [if_pos isNone]
  have closed := @Reads.tag st _ _ (text "\n") (text "/table") (by decide) (by decide)
    (textStep_blank inv.cell (by decide)) tagged (by rw [inv.rows]; exact few)
    (by rw [inv.cellCount]; exact grid)
  obtain ⟨k', read⟩ := closed k []
  have shape : text "\n</table>" = text "\n" ++ '<' :: (text "/table" ++ ['>']) ++ [] := by decide
  rw [shape, read, tableLoop_nil, finishTable, if_neg]
  · rw [inv.rows]
  · have narrow : (st.rows.any fun r => decide (r.length > MAX_COLUMNS)) = false := by
      rw [List.any_eq_false]
      intro row mem
      rw [inv.rows] at mem
      rw [decide_eq_true_eq, full row mem]
      exact Nat.not_lt.mpr wide
    simp only [narrow, inv.cell, inv.rowOpen, Option.isSome_none, Bool.false_eq_true, not_true,
      or_self, not_false_eq_true]

theorem parseTable_read {rows : List Row} {width : Nat} {header : Bool} {st : TableState}
    {t : Text} (read : Reads {} t st) (rest : Text)
    (shape : htmlText rows width header = t ++ rest) :
    ∃ k, parseTable false (htmlText rows width header) = tableLoop false k st rest := by
  obtain ⟨k, parsed⟩ := read 0 rest
  exact ⟨k, by rw [shape]; exact parsed⟩

/-- **The reader returns the cells that the writer was given**, with their line breaks and control
characters replaced, in rows of full width. The reader takes no more than 1048576 rows, which only
rows without cells can exceed within the grid. -/
theorem parse_rendered_html {limit width : Nat} {cancelled : Option Bool} {rows : List Row}
    {header : Bool} {html : Text} (few : rows.length ≤ 1048576)
    (grid : rows.length * width ≤ MAX_GRID) (wide : width ≤ MAX_COLUMNS)
    (h : renderHtml limit cancelled rows width header = .ok html) :
    parseTable false html = .ok (rows.map (readBackRow width)) := by
  rw [renderHtml_ok h]
  obtain ⟨first, opened, inv⟩ := @Reads.tableOpen width
  obtain ⟨last, read, inv'⟩ := Between.rows_read header wide rows 0 [] first inv
    (by rw [List.length_nil, Nat.zero_add]; exact few)
    (by rw [List.length_nil, Nat.zero_add]; exact grid)
  rw [List.nil_append] at inv'
  obtain ⟨k, parsed⟩ := parseTable_read (opened.trans read) (text "\n</table>")
    (List.append_assoc _ _ _).symm
  rw [parsed]
  refine inv'.finish (by rw [List.length_map]; exact few) (by rw [List.length_map]; exact grid)
    wide ?_ k
  intro row mem
  obtain ⟨source, -, rfl⟩ := List.mem_map.mp mem
  rw [readBackRow, List.length_map, List.length_range]

/-- Two rows of different widths, with a line break and characters that are escaped. -/
theorem parse_rendered_html_two_rows :
    parseTable false (htmlText [[text "a\r\nb", text "<"], [text "&amp;"]] 2 true) =
      .ok ([[text "a\r\nb", text "<"], [text "&amp;"]].map (readBackRow 2)) :=
  @parse_rendered_html 500 2 none _ true _ (by decide) (by decide) (by decide)
    (renderHtml_fits (by decide) (by decide +kernel))

/-! ## Too many rows -/

/-- Rows without cells do not count against the grid, but the row after the last one that the
reader takes is refused. -/
theorem Between.row_refused {done : List Row} {st : TableState} (inv : Between done 0 st)
    (header : Bool) (index : Nat) (row : Row) (full : done.length = 1048576) (k : Nat)
    (rest : Text) :
    tableLoop false k st (htmlRowText 0 header index row ++ rest) = .error (.err overLimit) := by
  obtain ⟨mid, opened, inv'⟩ := inv.opens (Nat.le_of_eq full) (Nat.zero_le _)
  obtain ⟨k', read⟩ := opened k (text "\n  </tr>" ++ rest)
  have shape : htmlRowText 0 header index row ++ rest =
      text "\n  <tr>" ++ (text "\n  </tr>" ++ rest) := List.append_assoc _ _ _
  have close : text "\n  </tr>" ++ rest = text "\n  " ++ '<' :: (text "/tr" ++ '>' :: rest) := rfl
  have ended := inv'.ended rfl
  rw [shape, read, close, tableLoop_tag k' mid (by decide) (by decide),
    turn_of (textStep_blank inv'.cell (by decide)) (inv'.tagClose (le_refl 0) (Nat.zero_le _))]
  have refused : withinLimits mid.endRow = .error (.err overLimit) := by
    unfold withinLimits Checked.reject
    refine if_pos (Or.inl ?_)
    rw [ended.rows, List.length_append, full]
    decide
  rw [refused]
  rfl

/-- A table of more rows than that cannot be read back. -/
theorem parse_rendered_html_too_long (rows : List Row) (header : Bool)
    (long : 1048576 < rows.length) :
    parseTable false (htmlText rows 0 header) = .error (.err overLimit) := by
  obtain ⟨first, opened, inv⟩ := @Reads.tableOpen 0
  obtain ⟨last, read, inv'⟩ := Between.rows_read header (Nat.zero_le _) (rows.take 1048576) 0 []
    first inv (by rw [List.length_nil, Nat.zero_add]; exact List.length_take_le _ _)
    (Nat.zero_le _)
  obtain ⟨row, more, split⟩ : ∃ row more, rows.drop 1048576 = row :: more := by
    cases left : rows.drop 1048576 with
    | nil => exact absurd (List.drop_eq_nil_iff.mp left) (Nat.not_le.mpr long)
    | cons row more => exact ⟨row, more, rfl⟩
  have taken : (rows.take 1048576).length = 1048576 := by
    rw [List.length_take]
    omega
  have indexed : rows.zipIdx =
      (rows.take 1048576).zipIdx ++ (row, 1048576) :: more.zipIdx (1048576 + 1) := by
    conv_lhs => rw [← List.take_append_drop 1048576 rows, split, List.zipIdx_append, taken]
    rw [List.zipIdx_cons, Nat.zero_add]
  obtain ⟨k, parsed⟩ := @parseTable_read rows 0 header last _ (opened.trans read)
    (htmlRowText 0 header 1048576 row ++
      ((more.zipIdx (1048576 + 1)).flatMap (fun r => htmlRowText 0 header r.2 r.1) ++
        text "\n</table>"))
    (by
      unfold htmlText
      rw [indexed, List.flatMap_append, List.flatMap_cons]
      simp only [List.append_assoc])
  rw [parsed]
  exact inv'.row_refused header 1048576 row (by
    rw [List.nil_append, List.length_map, taken]) k _

/-- Within the grid and without cells, one row more than the reader takes. -/
theorem parse_rendered_html_no_cells :
    (List.replicate 1048577 ([] : Row)).length * 0 ≤ MAX_GRID ∧
      ∃ limit html, renderHtml limit none (List.replicate 1048577 []) 0 false = .ok html ∧
        parseTable false html = .error (.err overLimit) := by
  have long : 1048576 < (List.replicate 1048577 ([] : Row)).length := by
    rw [List.length_replicate]
    exact Nat.lt_succ_self _
  generalize List.replicate 1048577 ([] : Row) = rows at long
  exact ⟨by rw [Nat.mul_zero]; exact Nat.zero_le _, utf8Len (htmlText rows 0 false),
    htmlText rows 0 false, renderHtml_fits (by decide) (le_refl _),
    parse_rendered_html_too_long rows false long⟩

end Mineru.Csv
