import Mineru.Csv.Render

/-!
# What the writers write

`Writes` says what a stretch of a writer appends: if it succeeds, exactly that text, and it succeeds
while the text fits the budget and nothing is cancelled. Stretches compose by `Writes.emits`, loops
by `Writes.each`, so the text of a whole document is read off its writer.

Both directions are needed: a successful rendering is the text (`renderHtml_ok`), and the text is
rendered when it fits (`renderHtml_fits`). The writers poll the cancellation on their way. A
cancelled rendering returns an error and no part of the text.
-/

set_option autoImplicit false

namespace Mineru.Csv

open Official

section
variable {limit : Nat} {cancelled : Option Bool}

/-- The stretch `e` appends `w`. -/
structure Writes (limit : Nat) (cancelled : Option Bool) (e : Emit) (w : Text) : Prop where
  ok : ∀ out out', e out = .ok out' → out' = out ++ w
  fits : cancelled ≠ some true → ∀ out, utf8Len out + utf8Len w ≤ limit → e out = .ok (out ++ w)

theorem Writes.nothing : Writes limit cancelled (emits []) [] where
  ok out out' h := by
    cases h
    exact (List.append_nil out).symm
  fits _ out _ := by rw [List.append_nil]; rfl

theorem Writes.cons {e : Emit} {es : List Emit} {v w : Text} (first : Writes limit cancelled e v)
    (rest : Writes limit cancelled (emits es) w) :
    Writes limit cancelled (emits (e :: es)) (v ++ w) where
  ok out out' h := by
    unfold emits at h
    cases one : e out with
    | error err => rw [one] at h; cases h
    | ok mid =>
      rw [one] at h
      rw [rest.ok mid out' h, first.ok out mid one, List.append_assoc]
  fits live out room := by
    rw [utf8Len_append] at room
    unfold emits
    rw [first.fits live out (by omega)]
    change emits es (out ++ v) = _
    rw [rest.fits live (out ++ v) (by rw [utf8Len_append]; omega), List.append_assoc]

/-- One stretch after another. -/
theorem Writes.emits (limit : Nat) (cancelled : Option Bool) {es : List Emit} {ws : List Text}
    (h : List.Forall₂ (Writes limit cancelled) es ws) :
    Writes limit cancelled (emits es) ws.flatten := by
  induction h with
  | nil => exact .nothing
  | cons first _ ih => exact .cons first ih

theorem Writes.each {α : Type} {f : α → Emit} {g : α → Text}
    (h : ∀ a, Writes limit cancelled (f a) (g a)) (as : List α) :
    Writes limit cancelled (Csv.emits (as.map f)) (as.flatMap g) := by
  rw [List.flatMap_def]
  refine .emits limit cancelled ?_
  induction as with
  | nil => exact .nil
  | cons a as ih => exact .cons (h a) ih

theorem Writes.poll : Writes limit cancelled (poll cancelled) [] where
  ok out out' h := by
    unfold Csv.poll at h
    cases check : checkCancel cancelled with
    | error e => rw [check] at h; cases h
    | ok u =>
      rw [check] at h
      cases h
      exact (List.append_nil out).symm
  fits live out _ := by
    unfold Csv.poll checkCancel
    rw [if_neg live, List.append_nil]
    rfl

theorem Writes.push (value : Text) : Writes limit cancelled (pushBounded limit value) value where
  ok out out' h := by
    unfold pushBounded at h
    split at h
    · cases h
    · cases h; rfl
  fits _ out room := if_neg (Nat.not_lt.mpr room)

theorem Writes.pushChar (value : Char) :
    Writes limit cancelled (pushCharBounded limit value) [value] where
  ok out out' h := by
    unfold pushCharBounded at h
    split at h
    · cases h
    · cases h; rfl
  fits _ out room := if_neg (Nat.not_lt.mpr room)

theorem Writes.encoded (encoded : Option Text) (ch : Char) :
    Writes limit cancelled (pushEncoded limit encoded ch) (encoded.getD [ch]) := by
  cases encoded with
  | none => exact .pushChar ch
  | some value => exact .push value

/-- `if c { … }`. -/
theorem Writes.when {c : Prop} [Decidable c] {e : Emit} {w : Text}
    (h : Writes limit cancelled e w) :
    Writes limit cancelled (if c then e else Csv.emits []) (if c then w else []) := by
  split
  · exact h
  · exact .nothing

end

/-! ## The HTML table -/

/-- What `render_html` writes for the characters of a cell. -/
def htmlCellText (skip : Bool) : Text → Text
  | [] => []
  | ch :: rest =>
    if skip then htmlCellText false rest
    else (encodeHtml ch).getD [ch] ++ htmlCellText (takesNext ch rest.head?) rest

def htmlColumnText (tag : Text) (row : Row) (col : Nat) : Text :=
  text "\n    <" ++ (tag ++ ('>' :: (htmlCellText false (row[col]?.getD []) ++
    (text "</" ++ (tag ++ ['>'])))))

/-- The tag of the cells of a row. -/
def cellTag (header : Bool) (index : Nat) : Text :=
  if header && index = 0 then text "th" else text "td"

def htmlRowText (width : Nat) (header : Bool) (index : Nat) (row : Row) : Text :=
  text "\n  <tr>" ++ ((List.range width).flatMap (htmlColumnText (cellTag header index) row) ++
    text "\n  </tr>")

/-- What `render_html` writes. -/
def htmlText (rows : List Row) (width : Nat) (header : Bool) : Text :=
  text "<table>" ++
    ((rows.zipIdx.flatMap fun r => htmlRowText width header r.2 r.1) ++
      text "\n</table>")

/-! ## The Markdown table -/

/-- What `markdown_cell` writes for the characters of a trimmed cell. -/
def markdownCharsText (skip lineHasText pendingSpace : Bool) : Text → Text
  | [] => []
  | ch :: rest =>
    if skip then markdownCharsText false lineHasText pendingSpace rest
    else if ch = '\r' ∨ ch = '\n' then
      text "<br>" ++ markdownCharsText (takesNext ch rest.head?) false false rest
    else if ch = ' ' ∨ ch = '\t' then markdownCharsText false lineHasText lineHasText rest
    else
      (if pendingSpace then text " " else []) ++
        ((encodeMarkdown ch).getD [ch] ++ markdownCharsText false true false rest)

def markdownCellText (value : Text) : Text :=
  markdownCharsText false false false (trimCellEdges value)

/-- The columns of a row, each with the pipe that ends it. -/
def markdownColumnsText (row : Row) (width : Nat) : Text :=
  (List.range width).flatMap fun column =>
    text " " ++ (markdownCellText (row[column]?.getD []) ++ text " |")

/-- A row without its line break. -/
def markdownRowText (row : Row) (width : Nat) : Text := '|' :: markdownColumnsText row width

/-- The separator without its line break. -/
def separatorText (width : Nat) : Text := '|' :: (List.range width).flatMap fun _ => text " --- |"

section
variable {limit : Nat} {cancelled : Option Bool}

theorem htmlCell_writes (t : Text) :
    ∀ skip, Writes limit cancelled (htmlCell limit cancelled skip t) (htmlCellText skip t) := by
  induction t with
  | nil =>
    intro skip
    exact .nothing
  | cons ch rest ih =>
    intro skip
    unfold htmlCell htmlCellText
    split
    · exact ih false
    · have written := Writes.emits limit cancelled (.cons .poll (.cons (.encoded (encodeHtml ch) ch)
        (.cons (ih (takesNext ch rest.head?)) .nil)))
      simpa only [List.flatten_cons, List.flatten_nil, List.append_nil, List.nil_append]
        using written

theorem htmlColumn_writes (tag : Text) (row : Row) (col : Nat) :
    Writes limit cancelled (htmlColumn limit cancelled tag row col)
      (htmlColumnText tag row col) := by
  have written := Writes.emits limit cancelled (.cons .poll (.cons (.push (text "\n    <")) (.cons (.push tag)
    (.cons (.push (text ">")) (.cons (htmlCell_writes (row[col]?.getD []) false)
      (.cons (.push (text "</")) (.cons (.push tag) (.cons (.push (text ">")) .nil))))))))
  exact written

theorem htmlRow_writes (width : Nat) (header : Bool) (index : Nat) (row : Row) :
    Writes limit cancelled (htmlRow limit cancelled width header index row)
      (htmlRowText width header index row) := by
  have written := Writes.emits limit cancelled (.cons (.push (text "\n  <tr>"))
    (.cons (.each (htmlColumn_writes (cellTag header index) row) (List.range width))
      (.cons (.push (text "\n  </tr>")) .nil)))
  rw [List.flatten_cons, List.flatten_cons, List.flatten_cons, List.flatten_nil, List.append_nil]
    at written
  exact written

theorem renderHtml_writes (rows : List Row) (width : Nat) (header : Bool) :
    Writes limit cancelled (emits [pushBounded limit (text "<table>"),
        emits (rows.zipIdx.map fun r =>
          htmlRow limit cancelled width header r.2 r.1),
        pushBounded limit (text "\n</table>")]) (htmlText rows width header) := by
  have written := Writes.emits limit cancelled (.cons (.push (text "<table>"))
    (.cons (.each (fun r : Row × Nat => htmlRow_writes width header r.2 r.1)
      rows.zipIdx) (.cons (.push (text "\n</table>")) .nil)))
  rw [List.flatten_cons, List.flatten_cons, List.flatten_cons, List.flatten_nil, List.append_nil]
    at written
  exact written

theorem renderHtml_ok {rows : List Row} {width : Nat} {header : Bool} {html : Text}
    (h : renderHtml limit cancelled rows width header = .ok html) :
    html = htmlText rows width header :=
  (renderHtml_writes rows width header).ok [] html h

theorem renderHtml_fits {rows : List Row} {width : Nat} {header : Bool}
    (live : cancelled ≠ some true) (room : utf8Len (htmlText rows width header) ≤ limit) :
    renderHtml limit cancelled rows width header = .ok (htmlText rows width header) :=
  (renderHtml_writes rows width header).fits live [] (by rw [utf8Len_nil, Nat.zero_add]; exact room)

theorem markdownChars_writes (t : Text) :
    ∀ skip lineHasText pendingSpace, Writes limit cancelled
      (markdownChars limit cancelled skip lineHasText pendingSpace t)
      (markdownCharsText skip lineHasText pendingSpace t) := by
  induction t with
  | nil =>
    intro skip lineHasText pendingSpace
    exact .nothing
  | cons ch rest ih =>
    intro skip lineHasText pendingSpace
    unfold markdownChars markdownCharsText
    split
    · exact ih false lineHasText pendingSpace
    · split
      · have written := Writes.emits limit cancelled (.cons .poll (.cons (.push (text "<br>"))
          (.cons (ih (takesNext ch rest.head?) false false) .nil)))
        simpa only [List.flatten_cons, List.flatten_nil, List.append_nil, List.nil_append]
          using written
      · split
        · have written := Writes.emits limit cancelled (.cons .poll (.cons (ih false lineHasText lineHasText) .nil))
          simpa only [List.flatten_cons, List.flatten_nil, List.append_nil, List.nil_append]
            using written
        · have written := Writes.emits limit cancelled (.cons .poll
            (.cons (.when (.push (text " ")) (c := pendingSpace = true))
              (.cons (.encoded (encodeMarkdown ch) ch) (.cons (ih false true false) .nil))))
          simpa only [List.flatten_cons, List.flatten_nil, List.append_nil, List.nil_append]
            using written

theorem markdownColumns_writes (row : Row) (width : Nat) :
    Writes limit cancelled (emits ((List.range width).map (markdownColumn limit cancelled row)))
      (markdownColumnsText row width) := by
  refine Writes.each (fun column => ?_) _
  have written := Writes.emits limit cancelled (.cons .poll (.cons (.push (text " "))
    (.cons (markdownChars_writes (trimCellEdges (row[column]?.getD [])) false false false)
      (.cons (.push (text " |")) .nil))))
  exact written

theorem pushSeparator_writes (width : Nat) :
    Writes limit cancelled (pushSeparator limit width) (separatorText width ++ ['\n']) := by
  have written := Writes.emits limit cancelled (.cons (.push (text "|"))
    (.cons (.each (fun _ : Nat => .push (text " --- |")) (List.range width))
      (.cons (.push (text "\n")) .nil)))
  exact written

/-- The lines that a row adds: before the second row comes the separator. -/
def markdownRowLines (width index : Nat) (row : Row) : Text :=
  (if index = 1 then separatorText width ++ ['\n'] else []) ++
    (markdownRowText row width ++ ['\n'])

theorem markdownRow_writes (width index : Nat) (row : Row) :
    Writes limit cancelled (markdownRow limit cancelled width index row)
      (markdownRowLines width index row) := by
  have written := Writes.emits limit cancelled (.cons (.when (pushSeparator_writes width) (c := index = 1))
    (.cons (.push (text "|")) (.cons (markdownColumns_writes row width)
      (.cons (.push (text "\n")) .nil))))
  have lined : text "|" ++ (markdownColumnsText row width ++ (text "\n" ++ [])) =
      markdownRowText row width ++ ['\n'] := rfl
  simp only [List.flatten_cons, List.flatten_nil, lined] at written
  exact written

/-- What `render_markdown` returns, if it returns. -/
theorem renderMarkdown_ok {rows : List Row} {width : Nat} {out : Text} (some : rows ≠ [])
    (wide : width ≠ 0) (h : renderMarkdown limit cancelled rows width = .ok out) :
    out = ((rows.zipIdx.flatMap fun r => markdownRowLines width r.2 r.1) ++
      if rows.length = 1 then separatorText width ++ ['\n'] else []).dropLast := by
  unfold renderMarkdown at h
  rw [if_neg (by rw [List.isEmpty_iff, not_or]; exact ⟨some, wide⟩)] at h
  have written := Writes.emits limit cancelled
    (.cons (.each (fun r : Row × Nat => markdownRow_writes width r.2 r.1)
      rows.zipIdx) (.cons (.when (pushSeparator_writes width) (c := rows.length = 1)) .nil))
  cases all : emits [emits (rows.zipIdx.map fun r =>
      markdownRow limit cancelled width r.2 r.1),
      if rows.length = 1 then pushSeparator limit width else emits []] [] with
  | error e => rw [all] at h; cases h
  | ok whole =>
    rw [all] at h
    cases h
    rw [written.ok [] whole all, List.nil_append, List.flatten_cons, List.flatten_cons,
      List.flatten_nil, List.append_nil]

end

end Mineru.Csv
