import Mineru.Builders.Render
import Mineru.Laws.Lines
import Mineru.Laws.Trim

/-!
# Code between its fences

A code block without the delimiters of formulas is one text span (`codeBlock_spans`), and for code
the span is written as it is (`mergeSpan_code`). Only the marker of a block is still escaped at its
beginning, so the code is published as it is exactly if it does not begin with one
(`code_published_iff`).

The other direction needs that nothing else can make up for the escape: the parts around the code
are joined with separators, and by their lengths a changed code cannot give the same text
(`joinParts_length`, `visualParts_length`).

Code with the delimiters of formulas in it is split into spans. It is not plain in this sense, and
not covered.
-/

set_option autoImplicit false

namespace Mineru.Builders

open Logic
open List (intercalate)
open Vlm (containsText)

/-! ## Formulas -/

/-- The text holds no delimiter of a formula. -/
def plainCode (t : Text) : Bool :=
  [['\\', '('], ['\\', ')'], ['\\', '['], ['\\', ']']].all fun delimiter => !containsText t delimiter

theorem containsText_iff {t part : Text} : containsText t part = true ↔ part <:+: t := by
  unfold containsText
  rw [List.any_eq_true]
  constructor
  · rintro ⟨tail, mem, starts⟩
    obtain ⟨front, rfl⟩ := (List.mem_tails _ _).mp mem
    obtain ⟨back, rfl⟩ := List.isPrefixOf_iff_prefix.mp starts
    exact ⟨front, back, List.append_assoc _ _ _⟩
  · rintro ⟨front, back, rfl⟩
    refine ⟨part ++ back, (List.mem_tails _ _).mpr ⟨front, (List.append_assoc _ _ _).symm⟩, ?_⟩
    exact List.isPrefixOf_iff_prefix.mpr (List.prefix_append _ _)

/-- What `code_content` leaves holds nothing in a line that the content does not hold. -/
theorem codeContent_inside {part content : Text} (some : part ≠ []) (lineless : '\n' ∉ part)
    (h : part <:+: codeContent content) : part <:+: content := by
  have trimmed (t : Text) : trim t <:+: t := by
    obtain ⟨front, back, parts, -, -⟩ := trim_split t
    exact ⟨front, back, (List.append_assoc _ _ _).trans parts.symm⟩
  obtain ⟨line, mem, inside⟩ := infix_joined some lineless (h.trans (trimmed _))
  exact inside.trans (line_within (List.mem_of_mem_take (List.mem_of_mem_drop mem)))

/-- Plain content stays plain. -/
theorem plainCode_content {content : Text} (plain : plainCode content = true) {delimiter : Text}
    (listed : delimiter ∈ [['\\', '('], ['\\', ')'], ['\\', '['], ['\\', ']']]) :
    containsText (codeContent content) delimiter = false := by
  have absent := List.all_eq_true.mp plain delimiter listed
  have shape : delimiter ≠ [] ∧ '\n' ∉ delimiter := by
    simp only [List.mem_cons, List.not_mem_nil, or_false] at listed
    rcases listed with rfl | rfl | rfl | rfl <;> decide
  rw [← Bool.not_eq_true]
  intro there
  have := containsText_iff.mpr (codeContent_inside shape.1 shape.2 (containsText_iff.mp there))
  rw [this] at absent
  exact nomatch absent

/-- A text without the opening delimiters is one span. -/
theorem textSpans_plain {t : Text} (noDisplay : containsText t ['\\', '['] = false)
    (noInline : containsText t ['\\', '('] = false) : textSpans t = [.text t] := by
  have clean : cleanTextContent t = t := by
    unfold cleanTextContent
    rw [noDisplay, if_neg fun both => Bool.false_ne_true both.2]
  unfold textSpans
  dsimp only
  rw [clean, noInline, if_pos (.inr rfl)]

/-! ## The block -/

theorem trim_codeContent (content : Text) :
    trim (normalizeFullWidth (codeContent content)) = normalizeFullWidth (codeContent content) :=
  trim_map fullWidth_blank _

/-- The block of plain code has one span. -/
theorem rawBlock_code {code : RawCode} (isCode : code.blockType = "code")
    (plain : plainCode (code.content.getD []) = true) (index : Nat) :
    rawBlock code.raw index = .ok {
      kind := "code_body", bbox := code.bbox, angle := code.angle
      lines := [⟨code.bbox, [.text (codeContent (code.content.getD []))]⟩], index
      mergePrev := none, subType := some "code"
      guessLang := code.guessLang.filter fun lang => lang ≠ ""
      imagePath := none, cellMerge := none, crossPage := false, linesDeleted := false } := by
  have spans : textSpans (codeContent (code.content.getD [])) =
      [.text (codeContent (code.content.getD []))] :=
    textSpans_plain (plainCode_content plain (by decide)) (plainCode_content plain (by decide))
  have kind : rawKind code.raw = .ok "code_body" := by
    unfold rawKind RawCode.raw
    dsimp only
    rw [isCode]
    rfl
  unfold rawBlock
  rw [kind]
  unfold RawCode.raw
  dsimp only
  rw [isCode, spans]
  rfl

/-- A block of one text span, of which code is written as it is. -/
theorem mergeBlockLines_code (block : Block) (formulaEnable cjkBlock : Bool) (bbox : Bbox)
    (content : Text) (isCode : block.kind = "code_body") :
    mergeBlockLines block formulaEnable cjkBlock [⟨bbox, [.text content]⟩] =
      trim (normalizeFullWidth content) := by
  have alone : hasFollowingJoinableSpan [] [] = false := rfl
  have value : spanMarkdown block formulaEnable (.text content) = normalizeFullWidth content :=
    if_neg (not_not.mpr isCode)
  unfold mergeBlockLines mergeBlockLines mergeLine mergeLine mergeSpan
  dsimp only
  rw [value, alone, List.append_nil, List.append_nil]
  split
  · rename_i empty
    exact empty.symm
  · simp [startsLowercase, isInlineEquation]

/-! ## Markers of blocks -/

/-- The text begins like an item of a list or a heading. -/
def OpensBlock (t : Text) : Prop :=
  ∃ marker c rest, t = marker ++ c :: rest ∧ isBlank c = true ∧
    (marker = ['+'] ∨ marker = ['-'] ∨ ∃ n, 1 ≤ n ∧ n ≤ 6 ∧ marker = List.replicate n '#')

/-- The length of the marker that `escape_leading_block_marker` finds. -/
def markerLen (t : Text) : Nat :=
  if t.head?.any fun c => c = '+' || c = '-' then 1 else (t.takeWhile fun c => c = '#').length

theorem escapeLeadingBlockMarker_eq {t : Text} (first : ∀ c ∈ t.head?, isBlank c = false) :
    escapeLeadingBlockMarker t = if markerLen t > 0 ∧ markerLen t ≤ 6 ∧
      (t.drop (markerLen t)).head?.any isBlank then '\\' :: t else t := by
  have none : t.takeWhile isBlank = [] := by
    cases t with
    | nil => rfl
    | cons c t => rw [List.takeWhile_cons_of_neg (by rw [first c rfl]; exact Bool.false_ne_true)]
  unfold escapeLeadingBlockMarker
  dsimp only
  rw [none]
  rfl

theorem opensBlock_iff {t : Text} : OpensBlock t ↔
    markerLen t > 0 ∧ markerLen t ≤ 6 ∧ (t.drop (markerLen t)).head?.any isBlank := by
  constructor
  · rintro ⟨marker, c, rest, rfl, blank, rfl | rfl | ⟨n, low, high, rfl⟩⟩
    · exact ⟨Nat.one_pos, (by decide : 1 ≤ 6), blank⟩
    · exact ⟨Nat.one_pos, (by decide : 1 ≤ 6), blank⟩
    · have differs : ¬ c = '#' := fun same => by
        rw [same] at blank
        exact absurd blank (by decide)
      have run : ((List.replicate n '#' ++ c :: rest).takeWhile fun c => c = '#') =
          List.replicate n '#' := by
        rw [List.takeWhile_append_of_pos fun d mem => by rw [List.eq_of_mem_replicate mem]; rfl,
          List.takeWhile_cons_of_neg (by simpa using differs), List.append_nil]
      have len : markerLen (List.replicate n '#' ++ c :: rest) = n := by
        obtain ⟨k, rfl⟩ : ∃ k, n = k + 1 := ⟨n - 1, by omega⟩
        have sharp : ((List.replicate (k + 1) '#' ++ c :: rest).head?.any
            fun c => c = '+' || c = '-') = false := rfl
        unfold markerLen
        rw [sharp, run, List.length_replicate]
        rfl
      rw [len, List.drop_left' List.length_replicate]
      exact ⟨low, high, blank⟩
  · rintro ⟨low, high, blank⟩
    obtain ⟨c, behind, blank⟩ := (Option.any_eq_true _ _).mp blank
    obtain ⟨rest, is⟩ := List.head?_eq_some_iff.mp behind
    refine ⟨t.take (markerLen t), c, rest, ?_, blank, ?_⟩
    · rw [← is, List.take_append_drop]
    · unfold markerLen at low high ⊢
      split
      · rename_i sign
        obtain ⟨d, first, sign⟩ := (Option.any_eq_true _ _).mp sign
        obtain ⟨t', rfl⟩ := List.head?_eq_some_iff.mp first
        rcases Bool.or_eq_true_iff.mp sign with plus | minus
        · exact .inl (by rw [of_decide_eq_true plus]; rfl)
        · exact .inr (.inl (by rw [of_decide_eq_true minus]; rfl))
      · rename_i unsigned
        rw [if_neg unsigned] at low high
        refine .inr (.inr ⟨_, low, high, ?_⟩)
        rw [← List.prefix_iff_eq_take.mp (List.takeWhile_prefix _)]
        refine List.eq_replicate_of_mem fun d mem => ?_
        have sharp := List.mem_takeWhile_imp (p := fun c : Char => decide (c = '#')) mem
        exact of_decide_eq_true sharp

/-- A trimmed text is changed exactly if it begins with the marker of a block. -/
theorem escapeLeadingBlockMarker_iff (t : Text) :
    (escapeLeadingBlockMarker (trim t) = trim t ↔ ¬ OpensBlock (trim t)) ∧
      (escapeLeadingBlockMarker (trim t) ≠ trim t →
        escapeLeadingBlockMarker (trim t) = '\\' :: trim t) := by
  have first : ∀ c ∈ (trim t).head?, isBlank c = false := fun c head => by
    have shown := trim_head head
    rw [← Bool.not_eq_true]
    intro blank
    rcases Bool.or_eq_true_iff.mp blank with space | tab
    · rw [of_decide_eq_true space] at shown
      exact absurd shown (by decide)
    · rw [of_decide_eq_true tab] at shown
      exact absurd shown (by decide)
  rw [escapeLeadingBlockMarker_eq first, opensBlock_iff]
  split
  · rename_i opens
    exact ⟨iff_of_false (List.cons_ne_self _ _) (not_not.mpr opens), fun _ => rfl⟩
  · rename_i closed
    exact ⟨iff_of_true rfl closed, fun differs => absurd rfl differs⟩

/-! ## The parts of a node -/

/-- The lengths of the parts, each with a separator. -/
def partsLength (parts : List Part) : Nat := (parts.map fun part => part.content.length + 3).sum

/-- One turn of the loop over the parts. -/
def joinPart (state : Text × Bool) (part : Part) : Text × Bool :=
  let output := if state.1 ≠ [] then
      state.1 ++ (if state.2 || part.isHtml then text "\n\n" else text "  \n")
    else state.1
  (output ++ part.content, part.isHtml)

theorem joinParts_eq (parts : List Part) : joinParts parts = (parts.foldl joinPart ([], false)).1 := rfl

theorem joinPart_length {parts : List Part} (written : ∀ part ∈ parts, part.isHtml = false) :
    ∀ {output : Text}, output ≠ [] →
      (parts.foldl joinPart (output, false)).1.length = output.length + partsLength parts := by
  induction parts with
  | nil => exact fun _ => rfl
  | cons part parts ih =>
    intro output some
    have plain := written part List.mem_cons_self
    have turn : joinPart (output, false) part = (output ++ text "  \n" ++ part.content, false) := by
      unfold joinPart
      dsimp only
      rw [if_pos some, plain]
      rfl
    rw [List.foldl_cons, turn, ih (fun p mem => written p (List.mem_cons_of_mem _ mem))
      (List.append_ne_nil_of_left_ne_nil (List.append_ne_nil_of_left_ne_nil some _) _)]
    have size : (text "  \n").length = 3 := by decide
    simp only [partsLength, List.map_cons, List.sum_cons, List.length_append, size]
    omega

/-- No part is lost, and nothing but separators is written between them. -/
theorem joinParts_length {parts : List Part} (some : parts ≠ [])
    (written : ∀ part ∈ parts, part.isHtml = false ∧ part.content ≠ []) :
    (joinParts parts).length + 3 = partsLength parts := by
  obtain ⟨part, parts, rfl⟩ := List.exists_cons_of_ne_nil some
  obtain ⟨plain, filled⟩ := written part List.mem_cons_self
  have turn : joinPart ([], false) part = (part.content, false) := by
    unfold joinPart
    rw [plain]
    rfl
  rw [joinParts_eq, List.foldl_cons, turn,
    joinPart_length (fun p mem => (written p (List.mem_cons_of_mem _ mem)).1) filled]
  simp only [partsLength, List.map_cons, List.sum_cons]
  omega

theorem childParts_written (children : List Block) :
    ∀ part ∈ childParts children, part.isHtml = false ∧ part.content ≠ [] := by
  intro part mem
  obtain ⟨listed, filled⟩ := List.mem_filter.mp mem
  obtain ⟨child, -, rfl⟩ := List.mem_map.mp listed
  exact ⟨rfl, of_decide_eq_true filled⟩

theorem visualParts_length {body : Block} {content : Text} (filled : content ≠ [])
    (captions footnotes : List Block) :
    (joinParts (visualParts body false content captions footnotes)).length =
      partsLength (childParts captions) + content.length + partsLength (childParts footnotes) := by
  let parts := childParts captions ++ [Part.mk body.index content false] ++ childParts footnotes
  have sorted : visualParts body false content captions footnotes =
      parts.mergeSort fun a b => a.index ≤ b.index := by
    unfold visualParts
    rw [if_pos filled]
  have perm : (visualParts body false content captions footnotes).Perm parts :=
    sorted ▸ List.mergeSort_perm _ _
  have written : ∀ part ∈ visualParts body false content captions footnotes,
      part.isHtml = false ∧ part.content ≠ [] := by
    intro part mem
    rcases List.mem_append.mp (perm.mem_iff.mp mem) with front | footnote
    · rcases List.mem_append.mp front with caption | own
      · exact childParts_written captions part caption
      · obtain rfl := List.mem_singleton.mp own
        exact ⟨rfl, filled⟩
    · exact childParts_written footnotes part footnote
  have some : visualParts body false content captions footnotes ≠ [] := fun empty => by
    have := perm.length_eq
    rw [empty] at this
    simp [parts] at this
  have whole := joinParts_length some written
  have total : partsLength (visualParts body false content captions footnotes) =
      partsLength (childParts captions) + (content.length + 3) +
        partsLength (childParts footnotes) := by
    unfold partsLength
    rw [(perm.map _).sum_eq]
    simp only [parts, List.map_append, List.map_cons, List.map_nil, List.sum_append, List.sum_cons,
      List.sum_nil, Nat.add_zero]
  omega

theorem visualParts_alone {body : Block} {content : Text} (filled : content ≠ []) :
    joinParts (visualParts body false content [] []) = content := by
  unfold visualParts
  rw [if_pos filled]
  exact congrArg joinParts (List.mergeSort_singleton _)

theorem fenced_length (lang : Option String) (content : Text) :
    (fenced lang content).length = (fenced lang []).length + content.length := by
  simp only [fenced, List.length_append, List.length_cons, List.length_nil]
  omega

theorem fenced_ne_nil (lang : Option String) (content : Text) : fenced lang content ≠ [] := by
  refine List.ne_nil_of_length_pos ?_
  rw [fenced_length]
  simp only [fenced, List.length_append, List.length_cons]
  omega

/-! ## What is published -/

theorem bodyMarkdown_code (outputHtml : Text → Text) (tableEnable : Bool) (body : Block)
    (subType : Option String) :
    bodyMarkdown outputHtml tableEnable "code" body subType = codeMarkdown body subType := by
  unfold bodyMarkdown
  dsimp only
  rw [if_neg (by decide), if_neg (by decide)]

/-- What a node of plain code writes. -/
theorem markdownNode_code (outputHtml : Text → Text) (formulaEnable tableEnable : Bool)
    (absorbed attached : List (Block × Block)) {code : RawCode} {index : Nat} {block : Block}
    (isCode : code.blockType = "code") (plain : plainCode (code.content.getD []) = true)
    (built : rawBlock code.raw index = .ok block) :
    markdownNode outputHtml formulaEnable tableEnable (visualNode absorbed attached block) =
      joinParts (visualParts block false
        (fenced block.guessLang (escapeLeadingBlockMarker
          (trim (normalizeFullWidth (codeContent (code.content.getD []))))))
        (childrenOf attached block fun b => b.kind = "caption")
        (childrenOf attached block fun b => b.kind ≠ "caption")) := by
  rw [rawBlock_code isCode plain] at built
  obtain rfl := Except.ok.inj built
  have kind : visualKind "code_body" = "code" := by decide
  have noTable : ("code" == "table") = false := by decide
  have noAlgorithm : ¬ some "code" = some "algorithm" := by decide
  unfold visualNode markdownNode
  dsimp only
  rw [kind, bodyMarkdown_code, noTable, Bool.false_and]
  unfold codeMarkdown mergeParaWithText
  dsimp only
  rw [if_neg noAlgorithm, mergeBlockLines_code _ _ _ _ _ rfl, Bool.not_false, Bool.and_self,
    if_pos rfl]

/-- **Plain code is published as it is exactly if it does not begin like a block.** The marker at
its beginning gets a backslash, although nothing is a block between fences, and a reader of the
Markdown sees it as a part of the code. -/
theorem code_published_iff (outputHtml : Text → Text) (formulaEnable tableEnable : Bool)
    (absorbed attached : List (Block × Block)) {code : RawCode} {index : Nat} {block : Block}
    (isCode : code.blockType = "code") (plain : plainCode (code.content.getD []) = true)
    (built : rawBlock code.raw index = .ok block) :
    markdownNode outputHtml formulaEnable tableEnable (visualNode absorbed attached block) =
      joinParts (visualParts block false
        (fenced block.guessLang (normalizeFullWidth (codeContent (code.content.getD []))))
        (childrenOf attached block fun b => b.kind = "caption")
        (childrenOf attached block fun b => b.kind ≠ "caption")) ↔
      ¬ OpensBlock (normalizeFullWidth (codeContent (code.content.getD []))) := by
  rw [markdownNode_code outputHtml formulaEnable tableEnable absorbed attached isCode plain built]
  have trimmed := trim_codeContent (code.content.getD [])
  obtain ⟨unchanged, changed⟩ :=
    escapeLeadingBlockMarker_iff (normalizeFullWidth (codeContent (code.content.getD [])))
  rw [trimmed] at unchanged changed ⊢
  rw [← unchanged]
  constructor
  · intro same
    by_contra differs
    have lengths := congrArg List.length same
    rw [visualParts_length (fenced_ne_nil _ _), visualParts_length (fenced_ne_nil _ _),
      fenced_length _ (escapeLeadingBlockMarker _), changed differs, List.length_cons,
      fenced_length _ (normalizeFullWidth _)] at lengths
    omega
  · intro same
    rw [same]

/-- A program with a comment, an empty line and a leading minus behind its first line. -/
def linesOfCode : Text := text "if x:\n  # a-\n\n  - *b*"

def sampleCode : RawCode := ⟨"code", ⟨0, 0, 10, 10⟩, 0, some linesOfCode, none⟩

/-- Its lines are published as they are. -/
theorem code_published_lines :
    ∃ block, rawBlock sampleCode.raw 0 = .ok block ∧
      markdownNode id true true (visualNode [] [] block) =
        joinParts (visualParts block false (fenced block.guessLang linesOfCode) [] []) := by
  have whole : normalizeFullWidth (codeContent linesOfCode) = linesOfCode := by decide
  have inside : ¬ OpensBlock (normalizeFullWidth (codeContent linesOfCode)) := by
    rw [whole, opensBlock_iff]
    decide
  obtain ⟨block, built⟩ : ∃ block, rawBlock sampleCode.raw 0 = .ok block := ⟨_, rfl⟩
  have published := (code_published_iff id true true [] [] rfl
    (show plainCode (sampleCode.content.getD []) = true by decide) built).mpr inside
  refine ⟨block, built, published.trans ?_⟩
  rw [show sampleCode.content.getD [] = linesOfCode from rfl, whole]
  rfl

/-- A program that begins with a comment. -/
def commentCode : RawCode := ⟨"code", ⟨0, 0, 10, 10⟩, 0, some (text "# x"), none⟩

/-- The comment is published with a backslash before it. -/
theorem comment_escaped :
    ∃ block, rawBlock commentCode.raw 0 = .ok block ∧ plainCode (text "# x") = true ∧
      normalizeFullWidth (codeContent (text "# x")) = text "# x" ∧
      markdownNode id true true (visualNode [] [] block) = fenced none (text "\\# x") ∧
      markdownNode id true true (visualNode [] [] block) ≠ fenced none (text "# x") := by
  have plain : plainCode (text "# x") = true := by decide
  have content : normalizeFullWidth (codeContent (text "# x")) = text "# x" := by decide
  have isCode : commentCode.blockType = "code" := rfl
  have built := rawBlock_code isCode plain 0
  have escaped : escapeLeadingBlockMarker (trim (normalizeFullWidth (codeContent
      (commentCode.content.getD [])))) = text "\\# x" := by decide
  refine ⟨_, built, plain, content, ?_⟩
  rw [markdownNode_code id true true [] [] isCode plain built, escaped]
  constructor
  · exact visualParts_alone (by decide)
  · intro same
    have written := (visualParts_alone (by decide)).symm.trans same
    exact absurd written (by decide)

end Mineru.Builders
