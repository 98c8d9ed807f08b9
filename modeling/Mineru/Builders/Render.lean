import Mineru.Vlm.Clean

/-!
# From blocks to Markdown

What `raw_block` makes of the content of a text and of code, and what `markdown_node` writes of a node:
`text_spans` cuts a text at its inline equations, `merge_para_with_text` puts the spans of a block in a
row, and a list, a visual or a code block is written around that. The HTML of a table is given.

The loops over lines and spans are read from the front: the line and the span at hand come with the
spans behind it in its line and with the later lines, which are all that the source looks at.
-/

set_option autoImplicit false

namespace Mineru.Builders

open Logic Logic.Regex
open Vlm (containsText replaceText splitWhitespace)

/-! ## The content of a raw block -/

/-- `str::matches` and `count`. -/
def countMatches (pattern t : Text) : Nat :=
  (Matches.cut (fun t => if pattern.isPrefixOf t then some ((), pattern.length) else none) 0 t).1.length

/-- `.` of an expression. -/
def anyButLf (c : Char) : Bool := c ≠ '\n'

/-- `\\\[(.*?)\\\]`. -/
def displayMath : Expr :=
  seqs [literal ['\\', '['], .group 1 (.many false anyButLf), literal ['\\', ']']]

/-- `\\\((.+?)\\\)`. -/
def inlineMath : Expr :=
  seqs [literal ['\\', '('], .group 1 (.seq (.one anyButLf) (.many false anyButLf)),
    literal ['\\', ')']]

def cleanTextContent (content : Text) : Text :=
  if countMatches ['\\', '['] content = countMatches ['\\', ']'] content ∧
      containsText content ['\\', '['] then
    replaceAll displayMath (fun _ groups => '[' :: ((groups.get 1).getD [] ++ [']'])) content
  else content

def textSpans (content : Text) : List Span :=
  let content := cleanTextContent content
  if countMatches ['\\', '('] content ≠ countMatches ['\\', ')'] content ∨
      !containsText content ['\\', '('] then [.text content]
  else
    let (matched, after) := Matches.cut (matchAt inlineMath) 0 content
    let spoken (t : Text) : List Span := if trim t ≠ [] then [.text t] else []
    let spans := (matched.flatMap fun (before, groups) =>
      spoken before ++ [.inlineEquation (trim ((groups.get 1).getD []))]) ++ spoken after
    if spans = [] then [.text content] else spans

def codeContent (content : Text) : Text :=
  let lines := linesOf content
  let start := if lines.head?.any (fun line => (text "```").isPrefixOf line) then 1 else 0
  let stop := lines.length - if lines.getLast?.any (fun line => trim line = text "```") then 1 else 0
  trim (List.intercalate ['\n'] ((lines.take (max stop start)).drop start))

/-- What `raw_block` takes of code or an algorithm. -/
structure RawCode where
  blockType : String
  bbox : Bbox
  angle : Int
  content : Option Text
  guessLang : Option String

/-- The arm of `raw_block` for code and algorithms. -/
def RawCode.raw (code : RawCode) : RawBlock :=
  let spans := textSpans (codeContent (code.content.getD []))
  { blockType := code.blockType
    bbox := .ok code.bbox
    angle := .ok code.angle
    content := code.content
    lines := .ok [⟨code.bbox, spans⟩]
    imagePath := .ok none
    mergePrev := none
    subType := some (if code.blockType = "code" ∧ spans.any (fun span => match span with
      | .inlineEquation _ => true
      | _ => false) then "algorithm" else code.blockType)
    guessLang := code.guessLang.filter fun lang => lang ≠ ""
    cellMerge := none }

/-! ## Text -/

/-- The map of `normalize_full_width`: digits and letters. -/
def fullWidth (c : Char) : Char :=
  if ('\uff10' ≤ c ∧ c ≤ '\uff19') ∨ ('\uff21' ≤ c ∧ c ≤ '\uff3a') ∨ ('\uff41' ≤ c ∧ c ≤ '\uff5a') then
    Char.ofNat (c.toNat - 0xfee0)
  else c

theorem fullWidth_blank (c : Char) : isWhitespace (fullWidth c) = isWhitespace c := by
  unfold fullWidth
  split
  · rename_i wide
    have codes : (0xff10 ≤ c.toNat ∧ c.toNat ≤ 0xff19) ∨ (0xff21 ≤ c.toNat ∧ c.toNat ≤ 0xff3a) ∨
        (0xff41 ≤ c.toNat ∧ c.toNat ≤ 0xff5a) := wide
    have valid : (c.toNat - 0xfee0).isValidChar := .inl (by omega)
    have code : (Char.ofNat (c.toNat - 0xfee0)).toNat = c.toNat - 0xfee0 := by
      unfold Char.ofNat
      rw [dif_pos valid]
      rfl
    unfold isWhitespace
    dsimp only
    rw [code]
    rw [Bool.eq_iff_iff]
    simp only [Bool.or_eq_true, Bool.and_eq_true, decide_eq_true_eq, beq_iff_eq]
    omega
  · rfl

def normalizeFullWidth (content : Text) : Text := content.map fullWidth

/-- The characters that Markdown gives a meaning inside a line. -/
def isMarkup (c : Char) : Bool := ['*', '_', '\x60', '~', '$'].contains c

/-- The loop of `markdown_text`, behind so many backslashes. -/
def escapeFrom : Nat → Text → Text
  | _, [] => []
  | backslashes, c :: t =>
    (if isMarkup c && backslashes % 2 == 0 then ['\\', c] else [c]) ++
      escapeFrom (if c = '\\' then backslashes + 1 else 0) t

def markdownText (content : Text) : Text := escapeFrom 0 (normalizeFullWidth content)

def isCjk (c : Char) : Bool :=
  ('\u3400' ≤ c && c ≤ '\u4dbf') || ('\u4e00' ≤ c && c ≤ '\u9fff') || ('\uf900' ≤ c && c ≤ '\ufaff') ||
    ('\u3040' ≤ c && c ≤ '\u309f') || ('\u30a0' ≤ c && c ≤ '\u30ff') || ('\uac00' ≤ c && c ≤ '\ud7af')

/-- A span that `has_following_joinable_span` looks for. -/
def isJoinable : Span → Bool
  | .text content => trim (normalizeFullWidth content) ≠ []
  | .inlineEquation content => trim content ≠ []
  | _ => false

/-- `has_following_joinable_span`: the spans behind the span in its line, and the later lines. -/
def hasFollowingJoinableSpan (after : List Span) (later : List Line) : Bool :=
  (after ++ later.flatMap Line.spans).any isJoinable

/-- The arguments of `starts_with([' ', '\t'])`. -/
def isBlank (c : Char) : Bool := c = ' ' || c = '\t'

def escapeLeadingBlockMarker (value : Text) : Text :=
  let indent := (value.takeWhile isBlank).take 4
  if indent.length > 3 then value
  else
    let rest := value.drop indent.length
    let markerLen := if rest.head?.any fun c => c = '+' || c = '-' then 1
      else (rest.takeWhile fun c => c = '#').length
    if markerLen > 0 ∧ markerLen ≤ 6 ∧ (rest.drop markerLen).head?.any isBlank then
      indent ++ '\\' :: rest
    else value

/-! ## The spans of a block -/

/-- The hyphens of `merge_para_with_text`. -/
def isHyphen (c : Char) : Bool := ['-', '\u00ad', '\u2010', '\u2011', '\u2043'].contains c

/-- `u8::is_ascii_alphabetic`. -/
def isAsciiAlphabetic (c : Char) : Bool := ('a' ≤ c && c ≤ 'z') || ('A' ≤ c && c ≤ 'Z')

def isAsciiLowercase (c : Char) : Bool := 'a' ≤ c && c ≤ 'z'

/-- The value of a span before it is trimmed. -/
def spanMarkdown (block : Block) (formulaEnable : Bool) : Span → Text
  | .text content =>
    if block.kind ≠ "code_body" then markdownText (normalizeFullWidth content)
    else normalizeFullWidth content
  | .inlineEquation content => '$' :: (content ++ ['$'])
  | .interlineEquation content =>
    if formulaEnable then text "\n$$\n" ++ content ++ text "\n$$\n"
    else (block.imagePath.map fun path => text "![](images/" ++ path ++ [')']).getD []
  | _ => []

/-- `hyphenated_line_end`, for a text that ends its line. -/
def endsHyphenated (value : Text) : Bool :=
  value.getLast?.any isHyphen &&
    (splitWhitespace value.dropLast).getLast?.any fun word => word.all isAsciiAlphabetic

/-- `next_starts_lowercase`. -/
def startsLowercase (next : Option Line) : Bool :=
  match next.bind fun line => line.spans.head? with
  | some (.text content) => (normalizeFullWidth content).head?.any isAsciiLowercase
  | _ => false

def isText : Span → Bool
  | .text _ => true
  | _ => false

def isInlineEquation : Span → Bool
  | .inlineEquation _ => true
  | _ => false

/-- What the loop of `merge_para_with_text` pushes for a span. -/
def mergeSpan (block : Block) (formulaEnable cjkBlock : Bool) (span : Span) (after : List Span)
    (later : List Line) : Text :=
  let value := trim (spanMarkdown block formulaEnable span)
  if value = [] then []
  else
    let isLastSpan := after.isEmpty
    let following := hasFollowingJoinableSpan after later
    let hyphenatedLineEnd := isText span && isLastSpan && endsHyphenated value
    if cjkBlock then
      value ++ if following && (!isLastSpan || isInlineEquation span) then [' '] else []
    else if hyphenatedLineEnd then
      if startsLowercase later.head? then value.dropLast else value
    else value ++ if following then [' '] else []

/-- The inner loop: the spans of a line. -/
def mergeLine (block : Block) (formulaEnable cjkBlock : Bool) (later : List Line) : List Span → Text
  | [] => []
  | span :: after =>
    mergeSpan block formulaEnable cjkBlock span after later ++
      mergeLine block formulaEnable cjkBlock later after

/-- The outer loop. -/
def mergeBlockLines (block : Block) (formulaEnable cjkBlock : Bool) : List Line → Text
  | [] => []
  | line :: later =>
    mergeLine block formulaEnable cjkBlock later line.spans ++
      mergeBlockLines block formulaEnable cjkBlock later

/-- The text of the spans of a block. -/
def aggregateText (block : Block) : Text :=
  (block.lines.flatMap Line.spans).flatMap fun span => match span with
    | .text content => normalizeFullWidth content
    | _ => []

def mergeParaWithText (block : Block) (formulaEnable escapeBlockMarker isListChild : Bool) : Text :=
  let output := mergeBlockLines block formulaEnable ((aggregateText block).any isCjk) block.lines
  if escapeBlockMarker && !isListChild then escapeLeadingBlockMarker output else output

def renderBlock (block : Block) (formulaEnable : Bool) : Text :=
  mergeParaWithText block formulaEnable true false

def renderListItem (block : Block) : Text := mergeParaWithText block true true true

/-! ## Code -/

def htmlEscape (content : Text) : Text :=
  replaceText ['>'] (text "&gt;") (replaceText ['<'] (text "&lt;")
    (replaceText ['&'] (text "&amp;") content))

/-- The loop of `render_algorithm_html_from_lines`, which remembers whether an inline equation came
before. -/
def algorithmInner : Bool → List Span → Text
  | _, [] => []
  | wasEquation, span :: rest =>
    (match span with
    | .text content => htmlEscape (normalizeFullWidth content)
    | .inlineEquation content =>
      (if wasEquation then [' '] else []) ++ '$' :: (htmlEscape content ++ ['$'])
    | _ => []) ++ algorithmInner (isInlineEquation span) rest

def renderAlgorithmHtmlFromLines (body : Block) : Text :=
  let inner := algorithmInner false (body.lines.flatMap Line.spans)
  if trim inner = [] then []
  else
    text "<div class=\"mineru-algorithm\" style=\"white-space: pre-wrap; font-family:monospace;\">\n" ++
      inner ++ text "\n</div>"

/-- The lines of a code fence, with a body between them. -/
def fenced (lang : Option String) (content : Text) : Text :=
  text "```" ++ text (lang.getD "txt") ++ '\n' :: (content ++ text "\n```")

def codeMarkdown (body : Block) (subType : Option String) : Text :=
  if subType = some "algorithm" then renderAlgorithmHtmlFromLines body
  else fenced body.guessLang (mergeParaWithText body true true false)

/-! ## Nodes -/

/-- The content of `body_data`: of the last span that has one. -/
def bodyContentData (body : Block) : Option Text :=
  (body.lines.flatMap Line.spans).foldl (fun content span => match span with
    | .image (some value) | .chart (some value) | .text value => some value
    | _ => content) none

/-- The HTML of `body_data`. -/
def bodyHtml (body : Block) : Option Text :=
  (body.lines.flatMap Line.spans).foldl (fun html span => match span with
    | .table value => some value
    | _ => html) none

/-- The `body_content` of a visual node. -/
def bodyMarkdown (outputHtml : Text → Text) (tableEnable : Bool) (kind : String) (body : Block)
    (subType : Option String) : Text :=
  let image := body.imagePath.map fun path => text "![](images/" ++ path ++ [')']
  if kind = "table" then
    if tableEnable then ((bodyHtml body).map outputHtml).getD [] else image.getD []
  else if kind = "image" ∨ kind = "chart" then
    let content := (bodyContentData body).getD []
    let summary := subType.getD (if kind = "chart" then "chart content" else "image content")
    let details := if trim content ≠ [] then
        some (text "<details>\n<summary>" ++ text summary ++ text "</summary>\n\n" ++ content ++
          text "\n</details>")
      else none
    List.intercalate (text "\n\n") (image.toList ++ details.toList)
  else codeMarkdown body subType

/-- A part of a visual node: its index, its content, and whether it is HTML. -/
structure Part where
  index : Nat
  content : Text
  isHtml : Bool

/-- The loop over the parts. -/
def joinParts (parts : List Part) : Text :=
  (parts.foldl (fun (output, priorHtml) part =>
    let output := if output ≠ [] then
        output ++ (if priorHtml || part.isHtml then text "\n\n" else text "  \n")
      else output
    (output ++ part.content, part.isHtml)) (([], false) : Text × Bool)).1

/-- The parts of captions or footnotes. -/
def childParts (children : List Block) : List Part :=
  (children.map fun child => Part.mk child.index (renderBlock child true) false).filter fun part =>
    part.content ≠ []

/-- The parts of a visual node, sorted by their indexes. -/
def visualParts (body : Block) (isHtml : Bool) (content : Text) (captions footnotes : List Block) :
    List Part :=
  (childParts captions ++ (if content ≠ [] then [Part.mk body.index content isHtml] else []) ++
    childParts footnotes).mergeSort fun a b => a.index ≤ b.index

def markdownNode (outputHtml : Text → Text) (formulaEnable tableEnable : Bool) : Node → Text
  | .leaf block =>
    if block.kind = "title" then text "# " ++ renderBlock block true
    else if ["text", "ref_text", "phonetic", "interline_equation"].contains block.kind then
      renderBlock block formulaEnable
    else []
  | .list _ items =>
    List.intercalate (text "  \n") ((items.map renderListItem).filter fun item => item ≠ [])
  | .visual kind body captions footnotes subType _ _ =>
    joinParts (visualParts body (kind == "table" && tableEnable)
      (bodyMarkdown outputHtml tableEnable kind body subType) captions footnotes)
  | .tombstone .. => []

end Mineru.Builders
