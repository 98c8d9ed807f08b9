import Mineru.Laws.Csv.Written

/-!
# A Markdown table keeps its shape

Whatever the cells hold, each line of `render_markdown` has the pipes of its columns and no other.
`livePipes` counts the pipes that are not escaped; it runs over a text with the parity of the
backslashes before each character, and a `Piece` is a stretch that gives the parity back. The text
of a cell is a piece without live pipes, so pieces add up to lines.

A line break of a cell is written in a form that breaks no line, and so every row has one line of
its own (`markdown_lines`, `splitOn_lines`). How a viewer shows what the cells hold is not
considered.
-/

set_option autoImplicit false

namespace Mineru.Csv

open Official

/-- The pipes that an even number of backslashes precedes; `odd` says that an odd number of them
stands directly before the text. -/
def livePipes (odd : Bool) : Text → Nat
  | [] => 0
  | c :: rest =>
    if c = '\\' then livePipes (!odd) rest
    else (if c = '|' ∧ ¬ odd then 1 else 0) + livePipes false rest

/-- The parity of the backslashes at the end of a text. -/
def oddAfter (odd : Bool) : Text → Bool
  | [] => odd
  | c :: rest => if c = '\\' then oddAfter (!odd) rest else oddAfter false rest

/-- Every `<` begins a literal `<br>`. -/
def OnlyBreaks : Text → Prop
  | [] => True
  | c :: rest => (c = '<' → text "br>" <+: rest) ∧ OnlyBreaks rest

instance decidableOnlyBreaks : (t : Text) → Decidable (OnlyBreaks t)
  | [] => .isTrue trivial
  | c :: rest => @instDecidableAnd (c = '<' → text "br>" <+: rest) (OnlyBreaks rest) _
    (decidableOnlyBreaks rest)

theorem livePipes_append (odd : Bool) (t u : Text) :
    livePipes odd (t ++ u) = livePipes odd t + livePipes (oddAfter odd t) u := by
  induction t generalizing odd with
  | nil => exact (Nat.zero_add _).symm
  | cons c rest ih =>
    rw [List.cons_append, livePipes, livePipes, oddAfter]
    split
    · exact ih _
    · rw [ih, Nat.add_assoc]

theorem oddAfter_append (odd : Bool) (t u : Text) :
    oddAfter odd (t ++ u) = oddAfter (oddAfter odd t) u := by
  induction t generalizing odd with
  | nil => rfl
  | cons c rest ih =>
    rw [List.cons_append, oddAfter, oddAfter]
    split
    · exact ih _
    · exact ih _

theorem OnlyBreaks.append {t u : Text} (ht : OnlyBreaks t) (hu : OnlyBreaks u) :
    OnlyBreaks (t ++ u) := by
  induction t with
  | nil => exact hu
  | cons c rest ih =>
    exact ⟨fun tag => (ht.1 tag).trans (List.prefix_append rest u), ih ht.2⟩

/-- A stretch of a line with `n` live pipes. -/
structure Piece (n : Nat) (t : Text) : Prop where
  pipes : livePipes false t = n
  even : oddAfter false t = false
  lf : '\n' ∉ t
  cr : '\r' ∉ t
  tags : OnlyBreaks t

instance decidablePiece (n : Nat) (t : Text) : Decidable (Piece n t) :=
  decidable_of_iff (livePipes false t = n ∧ oddAfter false t = false ∧ '\n' ∉ t ∧ '\r' ∉ t ∧
      OnlyBreaks t)
    ⟨fun h => ⟨h.1, h.2.1, h.2.2.1, h.2.2.2.1, h.2.2.2.2⟩,
      fun h => ⟨h.pipes, h.even, h.lf, h.cr, h.tags⟩⟩

theorem Piece.nil : Piece 0 [] := by decide

theorem Piece.append {m n : Nat} {t u : Text} (ht : Piece m t) (hu : Piece n u) :
    Piece (m + n) (t ++ u) where
  pipes := by rw [livePipes_append, ht.even, ht.pipes, hu.pipes]
  even := by rw [oddAfter_append, ht.even, hu.even]
  lf := by
    rw [List.mem_append, not_or]
    exact ⟨ht.lf, hu.lf⟩
  cr := by
    rw [List.mem_append, not_or]
    exact ⟨ht.cr, hu.cr⟩
  tags := ht.tags.append hu.tags

theorem Piece.flatMap {α : Type} {n : Nat} {f : α → Text} (h : ∀ a, Piece n (f a)) (as : List α) :
    Piece (as.length * n) (as.flatMap f) := by
  induction as with
  | nil =>
    rw [List.length_nil, Nat.zero_mul]
    exact .nil
  | cons a as ih =>
    rw [List.flatMap_cons, List.length_cons, Nat.add_mul, Nat.one_mul, Nat.add_comm]
    exact (h a).append ih

theorem Piece.char {c : Char} (slash : c ≠ '\\') (pipe : c ≠ '|') (tag : c ≠ '<') (lf : c ≠ '\n')
    (cr : c ≠ '\r') : Piece 0 [c] where
  pipes := by
    simp only [livePipes, if_neg slash, pipe, false_and, if_false, Nat.add_zero]
  even := by simp only [oddAfter, if_neg slash]
  lf mem := lf (List.mem_singleton.mp mem).symm
  cr mem := cr (List.mem_singleton.mp mem).symm
  tags := ⟨fun same => absurd same tag, trivial⟩

/-- What is written for a character is never a live pipe. -/
theorem Piece.encoded {ch : Char} (inline : ¬ (ch = '\r' ∨ ch = '\n')) :
    Piece 0 ((encodeMarkdown ch).getD [ch]) := by
  unfold encodeMarkdown
  split
  · exact (by decide : Piece 0 (text "&amp;"))
  · split
    · exact (by decide : Piece 0 (text "&lt;"))
    · next tag =>
      split
      · exact (by decide : Piece 0 ['\\', '\\'])
      · next slash =>
        split
        · exact (by decide : Piece 0 ['\\', '|'])
        · next pipe =>
          split
          · exact (by decide : Piece 0 ['\ufffd'])
          · exact .char slash pipe tag (fun lf => inline (Or.inr lf)) fun cr => inline (Or.inl cr)

/-- The text of a cell has no live pipe. -/
theorem Piece.chars (t : Text) :
    ∀ skip lineHasText pendingSpace,
      Piece 0 (markdownCharsText skip lineHasText pendingSpace t) := by
  induction t with
  | nil =>
    intro skip lineHasText pendingSpace
    exact .nil
  | cons ch rest ih =>
    intro skip lineHasText pendingSpace
    unfold markdownCharsText
    split
    · exact ih _ _ _
    · split
      · exact (by decide : Piece 0 (text "<br>")).append (ih _ _ _)
      · next inline =>
        split
        · exact ih _ _ _
        · have space : Piece 0 (if pendingSpace then text " " else []) := by
            split
            · decide
            · exact .nil
          exact space.append ((Piece.encoded inline).append (ih _ _ _))

/-! ## Lines -/

/-- A line of a table of `width` columns. -/
structure TableLine (width : Nat) (line : Text) : Prop where
  pipes : livePipes false line = width + 1
  first : line.head? = some '|'
  last : ∃ before, line = before ++ ['|'] ∧ livePipes false before = width
  lf : '\n' ∉ line
  cr : '\r' ∉ line
  tags : OnlyBreaks line

/-- A pipe and columns that each end in one. -/
theorem TableLine.of_columns {f : Nat → Text} (h : ∀ column, Piece 0 (f column)) (width : Nat)
    (some' : 1 ≤ width) :
    TableLine width ('|' :: (List.range width).flatMap fun column => f column ++ ['|']) := by
  have open' : Piece 1 ['|'] := by decide
  have column : ∀ a, Piece 1 (f a ++ ['|']) := fun a => (h a).append open'
  have whole := open'.append (Piece.flatMap column (List.range width))
  rw [List.length_range, Nat.mul_one, Nat.add_comm] at whole
  obtain ⟨k, rfl⟩ : ∃ k, width = k + 1 := ⟨width - 1, by omega⟩
  refine ⟨whole.pipes, rfl, ⟨'|' :: ((List.range k).flatMap (fun column => f column ++ ['|']) ++ f k),
    ?_, ?_⟩, whole.lf, whole.cr, whole.tags⟩
  · rw [List.range_succ, List.flatMap_append, List.flatMap_singleton, List.cons_append,
      List.append_assoc]
  · have before := open'.append ((Piece.flatMap column (List.range k)).append (h k))
    rw [List.length_range] at before
    have count := before.pipes
    rw [List.singleton_append] at count
    omega

theorem markdownRowText_line (row : Row) {width : Nat} (some' : 1 ≤ width) :
    TableLine width (markdownRowText row width) := by
  have columns : ∀ column : Nat,
      Piece 0 (text " " ++ (markdownCellText (row[column]?.getD []) ++ text " ")) := fun column =>
    (by decide : Piece 0 (text " ")).append
      ((Piece.chars _ _ _ _).append (by decide : Piece 0 (text " ")))
  have line := TableLine.of_columns columns width some'
  have shape : ∀ column : Nat,
      text " " ++ (markdownCellText (row[column]?.getD []) ++ text " ") ++ ['|'] =
        text " " ++ (markdownCellText (row[column]?.getD []) ++ text " |") := by
    intro column
    have : text " |" = text " " ++ ['|'] := by decide
    rw [this, List.append_assoc, List.append_assoc]
  simp only [shape] at line
  exact line

theorem separatorText_line {width : Nat} (some' : 1 ≤ width) :
    TableLine width (separatorText width) :=
  TableLine.of_columns (fun _ => (by decide : Piece 0 (text " --- "))) width some'

/-- The lines of the table: the first row, the separator and the other rows. -/
def tableLines (row : Row) (rows : List Row) (width : Nat) : List Text :=
  markdownRowText row width :: separatorText width ::
    rows.map fun row => markdownRowText row width

/-- From the third row on, a row is one line. -/
theorem markdownRowLines_later (rows : List Row) (width : Nat) :
    ∀ index, 2 ≤ index →
      ((rows.zipIdx index).flatMap fun r => markdownRowLines width r.2 r.1) =
        (rows.map fun row => markdownRowText row width).flatMap (· ++ ['\n']) := by
  induction rows with
  | nil =>
    intro index _
    rfl
  | cons row rows ih =>
    intro index later
    have plain : markdownRowLines width index row = markdownRowText row width ++ ['\n'] := by
      unfold markdownRowLines
      rw [if_neg (by omega), List.nil_append]
    rw [List.zipIdx_cons, List.flatMap_cons, List.map_cons, List.flatMap_cons,
      ih (index + 1) (by omega)]
    exact congrArg (· ++ _) plain

/-- What `render_markdown` writes, line by line. -/
theorem markdown_lines (row : Row) (rows : List Row) (width : Nat) :
    (((row :: rows).zipIdx.flatMap fun r => markdownRowLines width r.2 r.1) ++
      if (row :: rows).length = 1 then separatorText width ++ ['\n'] else []) =
      (tableLines row rows width).flatMap (· ++ ['\n']) := by
  have first : markdownRowLines width 0 row = markdownRowText row width ++ ['\n'] := rfl
  cases rows with
  | nil =>
    simp only [tableLines, List.zipIdx_cons, List.zipIdx_nil, List.flatMap_cons, List.flatMap_nil,
      List.append_nil, first, List.length_singleton, if_true, List.map_nil]
  | cons second rows =>
    have long : ¬ (row :: second :: rows).length = 1 := by
      rw [List.length_cons, List.length_cons]
      omega
    have middle : markdownRowLines width 1 second =
        separatorText width ++ ['\n'] ++ (markdownRowText second width ++ ['\n']) := rfl
    rw [if_neg long, List.append_nil]
    simp only [tableLines, List.zipIdx_cons, List.flatMap_cons, List.map_cons, first, Nat.zero_add,
      middle, markdownRowLines_later rows width (1 + 1) (by omega), List.append_assoc]

/-- Without the last line break, lines that hold none are what the text splits into. -/
theorem splitOn_lines {lines : List Text} (some' : lines ≠ []) (plain : ∀ line ∈ lines, '\n' ∉ line) :
    (lines.flatMap (· ++ ['\n'])).dropLast.splitOn '\n' = lines := by
  have joined : (lines.flatMap (· ++ ['\n'])).dropLast = ['\n'].intercalate lines := by
    induction lines with
    | nil => exact absurd rfl some'
    | cons line lines ih =>
      cases lines with
      | nil =>
        rw [List.flatMap_cons, List.flatMap_nil, List.append_nil, List.dropLast_concat,
          List.intercalate_singleton]
      | cons next lines =>
        have ne : (next :: lines).flatMap (· ++ ['\n']) ≠ [] := by
          rw [List.flatMap_cons]
          exact List.append_ne_nil_of_left_ne_nil (List.append_ne_nil_of_right_ne_nil _
            (List.cons_ne_nil _ _)) _
        rw [List.flatMap_cons, List.dropLast_append_of_ne_nil ne,
          ih (List.cons_ne_nil _ _) fun l mem => plain l (List.mem_cons_of_mem line mem)]
        rw [List.intercalate_cons_cons]
  rw [joined]
  exact List.splitOn_intercalate '\n' plain some'

/-- **A rendered table has a line for each row and the separator**, all of one shape, whatever the
cells hold. The pipes of the columns are the only ones that a reader takes for pipes of the
table. -/
theorem render_markdown_shape {limit width : Nat} {cancelled : Option Bool} {rows : List Row}
    {out : Text} (some' : rows ≠ []) (wide : 1 ≤ width)
    (h : renderMarkdown limit cancelled rows width = .ok out) :
    (out.splitOn '\n').length = rows.length + 1 ∧
      (out.splitOn '\n')[1]? = some (separatorText width) ∧
      ∀ line ∈ out.splitOn '\n', TableLine width line := by
  obtain ⟨row, rest, rfl⟩ := List.exists_cons_of_ne_nil some'
  have lines : ∀ line ∈ tableLines row rest width, TableLine width line := by
    intro line mem
    rcases List.mem_cons.mp mem with rfl | mem
    · exact markdownRowText_line row wide
    rcases List.mem_cons.mp mem with rfl | mem
    · exact separatorText_line wide
    · obtain ⟨source, -, rfl⟩ := List.mem_map.mp mem
      exact markdownRowText_line source wide
  have split : out.splitOn '\n' = tableLines row rest width := by
    rw [renderMarkdown_ok some' (Nat.pos_iff_ne_zero.mp wide) h, markdown_lines]
    exact splitOn_lines (List.cons_ne_nil _ _) fun line mem => (lines line mem).lf
  rw [split]
  refine ⟨?_, rfl, lines⟩
  rw [tableLines, List.length_cons, List.length_cons, List.length_map, List.length_cons]

/-- A pipe, a line break and a backslash in the cells of one column. -/
theorem render_markdown_shape_pair :
    ((text "| a\\|<br>b |\n| --- |\n| \\\\ |").splitOn '\n').length = 2 + 1 ∧
      ((text "| a\\|<br>b |\n| --- |\n| \\\\ |").splitOn '\n')[1]? = some (separatorText 1) ∧
      ∀ line ∈ (text "| a\\|<br>b |\n| --- |\n| \\\\ |").splitOn '\n', TableLine 1 line :=
  @render_markdown_shape 100 1 none [[text "a|\r\nb"], [text " \\ "]] _ (List.cons_ne_nil _ _)
    (le_refl 1) (by decide +kernel)

end Mineru.Csv
