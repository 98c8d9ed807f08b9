import Mineru.Csv.Parse

/-!
# The parser reads back what is written

A written file is rows of fields: each field is quoted, its inner quotes doubled, or bare; fields
are joined by the delimiter and rows end in one terminator. `Document` is such a file with its side
conditions as fields, so only a file that the codec can express is built. `parse_written` says that
`csv::parse` returns exactly the cells that were written, for every such file and each of the four
delimiters. Nothing is said about a text that no document is written as.

The loop's four flags are handled by three lemmas, one for each stretch of text between two
boundaries: a bare field (`parseLoop_bare`), the inside of a quoted field (`parseLoop_quoted`) and
a row (`parseLoop_row`). Each says which state the loop is in after the stretch, for any text
that follows.
-/

set_option autoImplicit false

namespace Mineru.Csv

open Official

/-! ## Written files -/

/-- The four delimiters of `infer_delimiter` and `directive`. -/
inductive Delimiter where
  | comma | semicolon | tab | pipe
  deriving DecidableEq

def Delimiter.char : Delimiter → Char
  | .comma => ','
  | .semicolon => ';'
  | .tab => '\t'
  | .pipe => '|'

inductive Form where
  | quoted | bare
  deriving DecidableEq

/-- A cell with the form it is written in. A bare cell holds no delimiter and no line break, and
does not start with a quote. -/
structure Field (d : Delimiter) where
  cell : Text
  form : Form
  bare_plain : form = .bare → ∀ c ∈ cell, c ≠ d.char ∧ c ≠ '\r' ∧ c ≠ '\n'
  bare_head : form = .bare → cell.head? ≠ some '"'

/-- Inner quotes doubled. -/
def escape (t : Text) : Text := t.flatMap fun c => if c = '"' then ['"', '"'] else [c]

def Field.written {d : Delimiter} (f : Field d) : Text :=
  match f.form with
  | .quoted => '"' :: (escape f.cell ++ ['"'])
  | .bare => f.cell

/-- Fields joined by the delimiter. -/
def writeRow {d : Delimiter} : List (Field d) → Text
  | [] => []
  | [f] => f.written
  | f :: g :: fs => f.written ++ d.char :: writeRow (g :: fs)

inductive Terminator where
  | lf | cr | crlf
  deriving DecidableEq

def Terminator.chars : Terminator → Text
  | .lf => ['\n']
  | .cr => ['\r']
  | .crlf => ['\r', '\n']

/-- The longest row. -/
def widest {α : Type} (rows : List (List α)) : Nat := (rows.map List.length).foldr max 0

/-- A written file. `omitLast` leaves the last terminator out, which an empty bare last row does
not survive: it would leave no character at all. -/
structure Document (d : Delimiter) where
  rows : List (List (Field d))
  terminator : Terminator
  omitLast : Bool
  rows_ne : rows ≠ []
  row_ne : ∀ r ∈ rows, r ≠ []
  row_width : ∀ r ∈ rows, r.length ≤ MAX_COLUMNS
  grid : rows.length * widest rows ≤ MAX_GRID
  omit_ok : omitLast = true → ∀ f, rows.getLast rows_ne = [f] → f.form = .bare → f.cell ≠ []

def writeRows {d : Delimiter} (term : Terminator) (omitLast : Bool) : List (List (Field d)) → Text
  | [] => []
  | [r] => writeRow r ++ if omitLast then [] else term.chars
  | r :: s :: rs => writeRow r ++ (term.chars ++ writeRows term omitLast (s :: rs))

def Document.written {d : Delimiter} (doc : Document d) : Text :=
  writeRows doc.terminator doc.omitLast doc.rows

def cells {d : Delimiter} (r : List (Field d)) : Row := r.map Field.cell

/-! ## The loop without a flag -/

/-- One turn of a loop that has no flag to read. -/
theorem parseLoop_cons (d : Char) (limit : Nat) (sample : Bool) (k : Nat) (st : ParseState)
    (ch : Char) (rest : Text) :
    parseLoop d limit sample none k false st (ch :: rest) =
      match parseTurn d limit sample st ch rest.head? with
      | .error e => .error e
      | .ok (.done rows) => .ok rows
      | .ok (.next skip st) => parseLoop d limit sample none (k + 1) skip st rest := by
  have poll : checkCancel none = .ok () := rfl
  simp only [parseLoop, poll, Bool.false_eq_true, if_false]
  cases parseTurn d limit sample st ch rest.head? with
  | error e => split <;> rfl
  | ok turn => cases turn <;> split <;> rfl

/-- The number of characters taken only decides when the flag is read, so without a flag it does
not matter. -/
theorem parseLoop_checked (d : Char) (limit : Nat) (sample : Bool) (t : Text) :
    ∀ (k k' : Nat) (skip : Bool) (st : ParseState),
      parseLoop d limit sample none k skip st t = parseLoop d limit sample none k' skip st t := by
  induction t with
  | nil => intro k k' skip st; rfl
  | cons ch rest ih =>
    intro k k' skip st
    cases skip with
    | true => exact ih k k' false st
    | false =>
      rw [parseLoop_cons, parseLoop_cons]
      cases parseTurn d limit sample st ch rest.head? with
      | error e => rfl
      | ok turn =>
        cases turn with
        | done rows => rfl
        | next skip st => exact ih (k + 1) (k' + 1) skip st

/-! ## One stretch of text at a time -/

section
variable {d : Delimiter} {limit : Nat}

/-- The loop over `t`, with every default of the full parse. -/
abbrev loop (d : Delimiter) (limit : Nat) (st : ParseState) (t : Text) :
    Except OfficialError (List Row) :=
  parseLoop d.char limit false none 0 false st t

theorem loop_next {st st' : ParseState} {ch : Char} {rest : Text}
    (turn : parseTurn d.char limit false st ch rest.head? = .ok (.next false st')) :
    loop d limit st (ch :: rest) = loop d limit st' rest := by
  rw [loop, parseLoop_cons, turn]
  exact parseLoop_checked _ _ _ _ _ _ _ _

theorem loop_skip {st st' : ParseState} {ch next : Char} {rest : Text}
    (turn : parseTurn d.char limit false st ch (some next) = .ok (.next true st')) :
    loop d limit st (ch :: next :: rest) = loop d limit st' rest := by
  rw [loop, parseLoop_cons, List.head?_cons, turn]
  exact parseLoop_checked _ _ _ _ _ _ _ _

theorem Delimiter.char_plain (d : Delimiter) :
    d.char ≠ '"' ∧ d.char ≠ '\r' ∧ d.char ≠ '\n' := by
  cases d <;> decide

/-- A bare stretch is appended to the open cell. A quote in it is data, since the cell is not
empty when the quote comes. -/
theorem loop_bare (t : Text) :
    ∀ (st : ParseState) (rest : Text), st.quoted = false → st.closed = false →
      (∀ c ∈ t, c ≠ d.char ∧ c ≠ '\r' ∧ c ≠ '\n') → (st.field = [] → t.head? ≠ some '"') →
      loop d limit st (t ++ rest) = loop d limit { st with field := st.field ++ t } rest := by
  induction t with
  | nil => intro st rest _ _ _ _; simp only [List.nil_append, List.append_nil]
  | cons c t ih =>
    intro st rest hquoted hclosed hplain hhead
    obtain ⟨hd, hcr, hlf⟩ := hplain c List.mem_cons_self
    have hquote : ¬ (c = '"' ∧ st.field = []) := by
      rintro ⟨rfl, hempty⟩
      exact hhead hempty rfl
    have turn : parseTurn d.char limit false st c (t ++ rest).head? =
        .ok (.next false { st with field := st.field ++ [c] }) := by
      simp only [parseTurn, hquoted, hclosed, hd, hcr, hlf, Bool.false_eq_true, false_and, or_self,
        not_false_eq_true, and_true, if_false, if_neg hquote]
    rw [List.cons_append, loop_next turn,
      ih { st with field := st.field ++ [c] } rest hquoted hclosed (fun x hx => hplain x (List.mem_cons_of_mem c hx))
        (fun h => absurd h (by simp only [List.append_ne_nil_of_right_ne_nil, ne_eq,
          List.cons_ne_nil, not_false_eq_true]))]
    simp only [List.append_assoc, List.singleton_append]

/-- The escaped inside of a quoted cell is appended unescaped, whatever follows it. -/
theorem loop_quoted (t : Text) :
    ∀ (st : ParseState) (rest : Text), st.quoted = true →
      loop d limit st (escape t ++ rest) = loop d limit { st with field := st.field ++ t } rest := by
  induction t with
  | nil => intro st rest _; simp only [escape, List.flatMap_nil, List.nil_append, List.append_nil]
  | cons c t ih =>
    intro st rest hquoted
    have hescape : escape (c :: t) = (if c = '"' then ['"', '"'] else [c]) ++ escape t := rfl
    by_cases hc : c = '"'
    · have turn : parseTurn d.char limit false st '"' (some '"') =
          .ok (.next true { st with field := st.field ++ ['"'] }) := by
        simp only [parseTurn, hquoted, if_true]
      rw [hescape, if_pos hc, List.append_assoc]
      simp only [List.cons_append, List.nil_append]
      rw [loop_skip turn, ih { st with field := st.field ++ ['"'] } rest hquoted, hc]
      simp only [List.append_assoc, List.singleton_append]
    · have turn : parseTurn d.char limit false st c (escape t ++ rest).head? =
          .ok (.next false { st with field := st.field ++ [c] }) := by
        simp only [parseTurn, hquoted, if_true, if_neg hc]
      rw [hescape, if_neg hc, List.append_assoc, List.singleton_append, loop_next turn,
        ih { st with field := st.field ++ [c] } rest hquoted]
      simp only [List.append_assoc, List.singleton_append]

/-- A written field, followed by anything but a quote, leaves its cell open for the boundary that
comes next; `closed` records the form. -/
theorem loop_field (f : Field d) (st : ParseState) (rest : Text) (hquoted : st.quoted = false)
    (hclosed : st.closed = false) (hfield : st.field = []) (hrest : rest.head? ≠ some '"') :
    loop d limit st (f.written ++ rest) =
      loop d limit { st with field := f.cell, closed := decide (f.form = .quoted) } rest := by
  cases hform : f.form with
  | bare =>
    simp only [Field.written, hform]
    rw [loop_bare f.cell st rest hquoted hclosed (f.bare_plain hform) (fun _ => f.bare_head hform),
      hfield, List.nil_append]
    simp only [reduceCtorEq, decide_false, ← hclosed]
  | quoted =>
    obtain ⟨hd, _, _⟩ := d.char_plain
    have opening : parseTurn d.char limit false st '"' (escape f.cell ++ '"' :: rest).head? =
        .ok (.next false { st with quoted := true }) := by
      simp only [parseTurn, hquoted, hclosed, hfield, Bool.false_eq_true, false_and, if_false,
        if_neg (Ne.symm hd), Char.reduceEq, or_self, not_false_eq_true, and_self, if_true]
    have closing : parseTurn d.char limit false { st with quoted := true, field := f.cell } '"'
        rest.head? = .ok (.next false { st with field := f.cell, closed := true }) := by
      simp only [parseTurn, if_true, if_neg hrest, hquoted]
    simp only [Field.written, hform, List.cons_append, List.append_assoc, List.nil_append]
    rw [loop_next opening, loop_quoted f.cell _ _ rfl]
    simp only [hfield, List.nil_append]
    rw [loop_next closing]
    simp only [decide_true]

/-! ## Rows -/

/-- The state before the boundary that ends a row: every cell but the last is pushed, the last one
is open. -/
def ParseState.filled (st : ParseState) (r : Row) (closed : Bool) : ParseState :=
  { st with
    row := st.row ++ r.dropLast
    field := r.getLastD []
    closed := closed
    cellCount := st.cellCount + (r.length - 1) }

/-- Ending the row pushes all its cells. -/
theorem pushRow_filled (st : ParseState) {r : Row} (hr : r ≠ []) (closed : Bool) :
    (st.filled r closed).pushRow =
      { st with
        rows := st.rows ++ [st.row ++ r]
        row := []
        field := []
        closed := false
        maxWidth := max st.maxWidth (st.row.length + r.length)
        cellCount := st.cellCount + r.length } := by
  have hlast : r.dropLast ++ [r.getLastD []] = r := by
    rw [List.getLastD_eq_getLast?, List.getLast?_eq_some_getLast hr, Option.getD_some]
    exact List.dropLast_append_getLast hr
  have hlen : 0 < r.length := List.length_pos_of_ne_nil hr
  simp only [ParseState.pushRow, ParseState.filled, List.append_assoc, hlast, List.length_append,
    List.length_dropLast]
  have hcount : st.cellCount + (r.length - 1) + 1 = st.cellCount + r.length := by omega
  have hwidth : st.row.length + (r.length - 1) + 1 = st.row.length + r.length := by omega
  rw [hcount, hwidth]

/-- The form of the last field of a row. -/
def lastQuoted (r : List (Field d)) : Bool :=
  match r.getLast? with
  | some f => f.form = .quoted
  | none => false

/-- A written row leaves its cells pushed up to the last one. A delimiter may be pushed while the
row stays below `MAX_COLUMNS`. -/
theorem loop_row (r : List (Field d)) (hr : r ≠ []) :
    ∀ (st : ParseState) (rest : Text), st.quoted = false → st.closed = false → st.field = [] →
      st.row.length + r.length ≤ MAX_COLUMNS → rest.head? ≠ some '"' →
      loop d limit st (writeRow r ++ rest) =
        loop d limit (st.filled (cells r) (lastQuoted r)) rest := by
  induction r with
  | nil => exact absurd rfl hr
  | cons f fs ih =>
    intro st rest hquoted hclosed hfield hwidth hrest
    cases fs with
    | nil =>
      rw [writeRow, loop_field f st rest hquoted hclosed hfield hrest]
      simp only [ParseState.filled, cells, lastQuoted, List.map_cons, List.map_nil,
        List.dropLast_singleton, List.append_nil, List.getLast?_singleton, List.length_singleton,
        Nat.sub_self, Nat.add_zero]
      rfl
    | cons g fs =>
      obtain ⟨hdquote, _, _⟩ := d.char_plain
      have hdelim : (d.char :: (writeRow (g :: fs) ++ rest)).head? ≠ some '"' := by
        simpa only [List.head?_cons, ne_eq, Option.some.injEq] using hdquote
      simp only [List.length_cons] at hwidth
      let st' : ParseState := { st with
        row := st.row ++ [f.cell]
        field := []
        quoted := false
        closed := false
        cellCount := st.cellCount + 1 }
      have hcolumns : ¬ (st'.row.length ≥ MAX_COLUMNS) := by
        simp only [st', List.length_append, List.length_singleton]
        omega
      have turn : ∀ closed, parseTurn d.char limit false
          { st with field := f.cell, closed := closed } d.char (writeRow (g :: fs) ++ rest).head? =
          .ok (.next false st') := by
        intro closed
        simp only [parseTurn, hquoted, Bool.false_eq_true, if_false, ne_eq, not_true_eq_false,
          false_and, and_false, if_true, endField]
        rw [if_neg hcolumns]
        rfl
      rw [writeRow, List.append_assoc, List.cons_append,
        loop_field f st _ hquoted hclosed hfield hdelim, loop_next (turn _),
        ih (List.cons_ne_nil g fs) st' rest rfl rfl rfl
          (by simp only [st', List.length_append, List.length_cons, List.length_nil]; omega) hrest]
      congr 1
      simp only [ParseState.filled, st', hquoted, cells, lastQuoted, List.map_cons, List.dropLast_cons_cons,
        List.append_assoc, List.singleton_append, List.length_cons, List.getLastD_cons,
        List.getLast?_cons_cons]
      congr 1
      omega

/-! ## Files -/

/-- The state between two rows. -/
def ParseState.after (rows : List Row) : ParseState :=
  { rows := rows, maxWidth := widest rows, cellCount := (rows.map List.length).sum }

theorem widest_append {α : Type} (a b : List (List α)) :
    widest (a ++ b) = max (widest a) (widest b) := by
  induction a with
  | nil => simp only [List.nil_append, widest, List.map_nil, List.foldr_nil, Nat.zero_max]
  | cons r a ih =>
    simp only [widest, List.cons_append, List.map_cons, List.foldr_cons] at ih ⊢
    rw [ih, Nat.max_assoc]

@[simp] theorem widest_singleton {α : Type} (r : List α) : widest [r] = r.length := Nat.max_zero _

theorem length_le_widest {α : Type} {rows : List (List α)} {r : List α} (hr : r ∈ rows) :
    r.length ≤ widest rows := by
  induction rows with
  | nil => cases hr
  | cons s rows ih =>
    simp only [widest, List.map_cons, List.foldr_cons] at ih ⊢
    rcases List.mem_cons.mp hr with rfl | hr
    · exact Nat.le_max_left _ _
    · exact Nat.le_trans (ih hr) (Nat.le_max_right _ _)

/-- The cells of a table fit in its grid. -/
theorem cells_le_grid {α : Type} (rows : List (List α)) :
    (rows.map List.length).sum ≤ rows.length * widest rows := by
  have bound : ∀ n ∈ rows.map List.length, n ≤ widest rows := by
    intro n hn
    obtain ⟨r, hr, rfl⟩ := List.mem_map.mp hn
    exact length_le_widest hr
  have := List.sum_le_card_nsmul _ _ bound
  simpa only [List.length_map, smul_eq_mul] using this

/-- Ending a row leads from one between-rows state to the next. -/
theorem pushRow_after (rows : List Row) {r : Row} (hr : r ≠ []) (closed : Bool) :
    ((ParseState.after rows).filled r closed).pushRow = ParseState.after (rows ++ [r]) := by
  rw [pushRow_filled _ hr]
  simp only [ParseState.after, widest_append, widest_singleton, List.nil_append, List.length_nil, Nat.zero_add,
    List.map_append, List.map_cons, List.map_nil, List.sum_append, List.sum_cons, List.sum_nil,
    Nat.add_zero]

/-- A prefix of a table within the grid bound passes the grid test. -/
theorem after_grid {rows all : List Row} (hpre : rows <+: all)
    (hgrid : all.length * widest all ≤ MAX_GRID) : (ParseState.after rows).overGrid = false := by
  obtain ⟨tail, rfl⟩ := hpre
  have hle : rows.length * widest rows ≤ (rows ++ tail).length * widest (rows ++ tail) := by
    rw [widest_append, List.length_append]
    exact Nat.mul_le_mul (Nat.le_add_right _ _) (Nat.le_max_left _ _)
  have hcells := cells_le_grid rows
  exact Bool.or_eq_false_iff.mpr
    ⟨decide_eq_false (Nat.not_lt.mpr (Nat.le_trans hcells (Nat.le_trans hle hgrid))),
      decide_eq_false (Nat.not_lt.mpr (Nat.le_trans hle hgrid))⟩

/-- The row terminator pushes the open row. After a lone CR no LF may follow, or the two would
read as one terminator. -/
theorem loop_terminator (term : Terminator) (rows : List Row) {r : Row} (hr : r ≠ [])
    (closed : Bool) {rest : Text} (hgrid : (ParseState.after (rows ++ [r])).overGrid = false)
    (hlimit : (rows ++ [r]).length ≤ limit) (hrest : term = .cr → rest.head? ≠ some '\n') :
    loop d limit ((ParseState.after rows).filled r closed) (term.chars ++ rest) =
      loop d limit (ParseState.after (rows ++ [r])) rest := by
  obtain ⟨_, hdcr, hdlf⟩ := d.char_plain
  have hend : endRow limit ((ParseState.after rows).filled r closed) =
      .ok (ParseState.after (rows ++ [r])) := by
    simp only [endRow, pushRow_after rows hr, hgrid, Bool.false_eq_true, if_false]
    exact if_neg (Nat.not_lt.mpr hlimit)
  have turn : ∀ (ch : Char) (peek : Option Char), ch = '\r' ∨ ch = '\n' →
      parseTurn d.char limit false ((ParseState.after rows).filled r closed) ch peek =
        .ok (.next (ch = '\r' ∧ peek = some '\n') (ParseState.after (rows ++ [r]))) := by
    intro ch peek hch
    have hd : ¬ (ch = d.char) := by
      rcases hch with rfl | rfl
      · exact Ne.symm hdcr
      · exact Ne.symm hdlf
    have hopen : ((ParseState.after rows).filled r closed).quoted = false := rfl
    have hafter : ¬ (ch ≠ d.char ∧ ch ≠ '\r' ∧ ch ≠ '\n') := by
      rcases hch with rfl | rfl <;> simp
    simp only [parseTurn, hopen, Bool.false_eq_true, if_false, hafter, and_false, hd, hch, if_true,
      hend, false_and]
    rfl
  cases term with
  | lf =>
    refine loop_next ?_
    rw [turn _ _ (.inr rfl)]
    rfl
  | cr =>
    refine loop_next ?_
    rw [turn _ _ (.inl rfl), decide_eq_false fun h => hrest rfl h.2]
  | crlf =>
    refine loop_skip ?_
    rw [turn _ _ (.inl rfl)]
    rfl

/-- What follows a CR does not start with an LF: a bare field holds none, a quoted one starts with
its quote, and after an empty field comes a delimiter or the next terminator. -/
theorem writeRow_head (r : List (Field d)) {rest : Text} (hrest : rest.head? ≠ some '\n') :
    (writeRow r ++ rest).head? ≠ some '\n' := by
  obtain ⟨_, _, hdlf⟩ := d.char_plain
  have hfield : ∀ (f : Field d) {tail : Text}, tail.head? ≠ some '\n' →
      (f.written ++ tail).head? ≠ some '\n' := by
    intro f tail htail
    cases hform : f.form with
    | quoted => simp only [Field.written, hform, List.cons_append, List.head?_cons, ne_eq,
        Option.some.injEq, Char.reduceEq, not_false_eq_true]
    | bare =>
      simp only [Field.written, hform]
      cases hcell : f.cell with
      | nil => exact htail
      | cons c t =>
        have hc := f.bare_plain hform c (by simp only [hcell, List.mem_cons, true_or])
        simpa only [List.cons_append, List.head?_cons, ne_eq, Option.some.injEq] using hc.2.2
  cases r with
  | nil => exact hrest
  | cons f fs =>
    cases fs with
    | nil => exact hfield f hrest
    | cons g fs =>
      rw [writeRow, List.append_assoc]
      exact hfield f (by simpa only [List.cons_append, List.head?_cons, ne_eq,
        Option.some.injEq] using hdlf)

theorem writeRows_head (term : Terminator) (omitLast : Bool) (hterm : term = .cr) :
    ∀ rs : List (List (Field d)), (writeRows term omitLast rs).head? ≠ some '\n'
  | [] => by simp only [writeRows, List.head?_nil, ne_eq, reduceCtorEq, not_false_eq_true]
  | [r] => by
    rw [writeRows]
    refine writeRow_head r ?_
    cases omitLast <;> simp [hterm, Terminator.chars]
  | r :: s :: rs => by
    rw [writeRows]
    refine writeRow_head r ?_
    simp [hterm, Terminator.chars]

/-- The flush at the end of a text whose last terminator is left out. -/
theorem finish_filled (rows : List Row) {r : Row} (hr : r ≠ []) (closed : Bool)
    (hlast : r = [[]] → closed = true)
    (hgrid : (ParseState.after (rows ++ [r])).overGrid = false)
    (hlimit : (rows ++ [r]).length ≤ limit) :
    finish limit ((ParseState.after rows).filled r closed) = .ok (rows ++ [r]) := by
  have hflush : (!((ParseState.after rows).filled r closed).field.isEmpty ||
      !((ParseState.after rows).filled r closed).row.isEmpty || closed) = true := by
    cases closed with
    | true => exact Bool.or_true _
    | false =>
      match r, hr with
      | [[]], _ => exact absurd (hlast rfl) Bool.false_ne_true
      | [_ :: _], _ => rfl
      | _ :: _ :: _, _ => simp [ParseState.filled, ParseState.after]
  have hopen : ((ParseState.after rows).filled r closed).quoted = false := rfl
  have hclosed : ((ParseState.after rows).filled r closed).closed = closed := rfl
  simp only [finish, hopen, hclosed, hflush, Bool.false_eq_true, if_false, if_true,
    pushRow_after rows hr, hgrid, Bool.and_false]
  exact if_neg (Nat.not_lt.mpr hlimit)

/-- The rows of a file, one at a time: `pre` is what has been read, `rs` what is still to read, and
`all`, the whole table, bounds every grid test on the way. -/
theorem loop_rows (term : Terminator) (omitLast : Bool) {all : List Row}
    (hgrid : all.length * widest all ≤ MAX_GRID) (hlimit : all.length ≤ limit) :
    ∀ (rs : List (List (Field d))) (pre : List Row), (hne : rs ≠ []) →
      pre ++ rs.map cells = all → (∀ r ∈ rs, r ≠ []) → (∀ r ∈ rs, r.length ≤ MAX_COLUMNS) →
      (omitLast = true → ∀ f, rs.getLast hne = [f] → f.form = .bare → f.cell ≠ []) →
      loop d limit (.after pre) (writeRows term omitLast rs) = .ok all := by
  have rowStart : ∀ (pre : List Row) (r : List (Field d)) (rest : Text), r ≠ [] →
      r.length ≤ MAX_COLUMNS → rest.head? ≠ some '"' →
      loop d limit (.after pre) (writeRow r ++ rest) =
        loop d limit ((ParseState.after pre).filled (cells r) (lastQuoted r)) rest := by
    intro pre r rest hr hwidth hrest
    refine loop_row r hr _ rest rfl rfl rfl ?_ hrest
    simpa only [ParseState.after, List.length_nil, Nat.zero_add] using hwidth
  have hterm : ∀ rest : Text, (term.chars ++ rest).head? ≠ some '"' := by
    intro rest
    cases term <;> simp [Terminator.chars]
  intro rs
  induction rs with
  | nil => intro pre hne; exact absurd rfl hne
  | cons r rs ih =>
    intro pre hne hall hrows hwidths homit
    have hr : cells r ≠ [] := by
      simpa only [cells, ne_eq, List.map_eq_nil_iff] using hrows r List.mem_cons_self
    have hpre : pre ++ [cells r] <+: all := ⟨rs.map cells, by
      rw [← hall, List.map_cons, List.append_assoc, List.singleton_append]⟩
    have hend := after_grid hpre hgrid
    have hlen : (pre ++ [cells r]).length ≤ limit := Nat.le_trans hpre.length_le hlimit
    cases rs with
    | nil =>
      have hdone : pre ++ [cells r] = all := hall
      rw [writeRows, rowStart pre r _ (hrows r List.mem_cons_self) (hwidths r List.mem_cons_self)
        (by cases omitLast with
          | true => exact fun h => nomatch h
          | false => simpa only [Bool.false_eq_true, if_false, List.append_nil] using hterm [])]
      cases omitLast with
      | true =>
        rw [if_pos rfl, ← hdone]
        refine finish_filled pre hr _ ?_ hend hlen
        intro hsingle
        obtain ⟨f, rfl, hf⟩ := List.map_eq_singleton_iff.mp hsingle
        cases hform : f.form with
        | quoted => simp [lastQuoted, hform]
        | bare => exact absurd hf (homit rfl f rfl hform)
      | false =>
        rw [if_neg Bool.false_ne_true, ← List.append_nil term.chars,
          loop_terminator term pre hr _ hend hlen (by simp), ← hdone]
        exact if_neg (Nat.not_lt.mpr hlen)
    | cons s rs =>
      rw [writeRows, rowStart pre r _ (hrows r List.mem_cons_self) (hwidths r List.mem_cons_self)
        (hterm _), loop_terminator term pre hr _ hend hlen
          (fun hcr => writeRows_head term omitLast hcr (s :: rs))]
      refine ih (pre ++ [cells r]) (List.cons_ne_nil s rs) ?_
        (fun t ht => hrows t (List.mem_cons_of_mem r ht))
        (fun t ht => hwidths t (List.mem_cons_of_mem r ht)) ?_
      · simpa only [List.map_cons, List.append_assoc, List.singleton_append] using hall
      · simpa only [List.getLast_cons_cons] using homit

end

/-- **The CSV codec round trip.** Parsing a written file returns its cells, row by row: whatever the
delimiter is, whichever fields are quoted, however the rows end, and with or without an end of the
last one. -/
theorem parse_written {d : Delimiter} (doc : Document d) :
    parse d.char MAX_ROWS false none doc.written = .ok (doc.rows.map cells) := by
  have hlengths : (doc.rows.map cells).map List.length = doc.rows.map List.length := by
    simp only [List.map_map, Function.comp_def, cells, List.length_map]
  have hgrid : (doc.rows.map cells).length * widest (doc.rows.map cells) ≤ MAX_GRID := by
    simpa only [widest, hlengths, List.length_map] using doc.grid
  have hlimit : (doc.rows.map cells).length ≤ MAX_ROWS := by
    obtain ⟨r, rs, hrows⟩ := List.exists_cons_of_ne_nil doc.rows_ne
    have hr : r ∈ doc.rows := by rw [hrows]; exact List.mem_cons_self
    have hpos : 0 < r.length := List.length_pos_of_ne_nil (doc.row_ne r hr)
    have hwide : r.length ≤ widest doc.rows := length_le_widest hr
    have hmul : doc.rows.length * 1 ≤ doc.rows.length * widest doc.rows :=
      Nat.mul_le_mul_left _ (by omega)
    have hbound := doc.grid
    simp only [MAX_GRID, MAX_ROWS, List.length_map] at hbound ⊢
    omega
  exact loop_rows doc.terminator doc.omitLast hgrid hlimit doc.rows [] doc.rows_ne rfl doc.row_ne
    doc.row_width doc.omit_ok

def quotedField {d : Delimiter} (cell : Text) : Field d := ⟨cell, .quoted, nofun, nofun⟩

def emptyField {d : Delimiter} : Field d :=
  ⟨[], .bare, fun _ _ mem => absurd mem List.not_mem_nil, fun _ => nofun⟩

def nameField : Field .semicolon where
  cell := text "name"
  form := .bare
  bare_plain _ c mem := by
    have plain : (text "name").all (fun c => c ≠ ';' ∧ c ≠ '\r' ∧ c ≠ '\n') = true := by decide
    exact of_decide_eq_true (List.all_eq_true.mp plain c mem)
  bare_head _ := by decide

/-- Two rows, with both forms, a delimiter, quotes and a line break within a cell, and without the
last terminator. -/
def mixedDocument : Document .semicolon where
  rows := [[nameField, quotedField (text "a \"b\"; c")], [emptyField, quotedField (text "x\r\ny")]]
  terminator := .crlf
  omitLast := true
  rows_ne := nofun
  row_ne := by simp
  row_width := by decide
  grid := by decide
  omit_ok _ _ last := by cases last

/-- Plain and quoted fields, an empty one, and a quoted delimiter, quote and line break. -/
theorem parse_written_mixed : parse ';' MAX_ROWS false none
    (text "name;\"a \"\"b\"\"; c\"\r\n;\"x\r\ny\"") =
      .ok [[text "name", text "a \"b\"; c"], [[], text "x\r\ny"]] :=
  parse_written mixedDocument

end Mineru.Csv
