import Mineru.Logic.Regex
import Mineru.Stems.Canonical

/-!
# Image references in Markdown

`validate_markup_assets` of `result_assets.rs` rejects a result whose Markdown shows an image that is not
among its assets. Code is no reference: `mask_markdown_code` blanks the elements `pre` and `code`, the
lines of fenced code and the code spans of the other lines before the references are looked for.

The expressions are written without word boundaries: behind a word character, `\b` is a character of
another kind, and it is named where it stands. What a word character is comes from the Unicode tables
of the library (`isWord`).
-/

set_option autoImplicit false

namespace Mineru.Official.Markup

open Logic
open Stems (eqIgnoreAsciiCase trimEndMatches)

/-! ## Expressions -/

section Expressions

open Regex

variable (isWord : Char → Bool)

/-- A character other than `>` at which a word ends. -/
def isEdge (c : Char) : Bool := c ≠ '>' && !isWord c

/-- `(?is)<name\b[^>]*>.*?</name\s*>`. -/
def element (name : Text) : Expr :=
  seqs [literal ['<'], folded name, optional (.seq (.one (isEdge isWord)) (.many true fun c => c ≠ '>')),
    literal ['>'], .many false fun _ => true, literal ['<', '/'], folded name, .many true isWhitespace,
    literal ['>']]

/-- `PRE`. -/
def preElement : Expr := element isWord (text "pre")

/-- `CODE`. -/
def codeElement : Expr := element isWord (text "code")

/-- `!\[[^\]]*\]\(([^)\s]+)`. -/
def markdownImage : Expr :=
  seqs [literal ['!', '['], .many true fun c => c ≠ ']', literal [']', '('],
    .group 1 (plus fun c => c ≠ ')' && !isWhitespace c)]

/-- `(?is)<img\b[^>]*?\bsrc\s*=\s*["']?([^"'>\s]+)`. -/
def htmlImage : Expr :=
  seqs [literal ['<'], folded (text "img"),
    .either (.one (isEdge isWord))
      (seqs [.one (isEdge isWord), .many false fun c => c ≠ '>', .one (isEdge isWord)]),
    folded (text "src"), .many true isWhitespace, literal ['='], .many true isWhitespace,
    optional (.one fun c => c = '"' || c = '\''),
    .group 1 (plus fun c => c ≠ '"' && c ≠ '\'' && c ≠ '>' && !isWhitespace c)]

/-- The first group of each match. -/
def capturesOf (e : Expr) (t : Text) : List Text :=
  (Matches.cut (matchAt e) 0 t).1.filterMap fun found => found.2.get 1

end Expressions

/-! ## Masking -/

/-- `" ".repeat(n)`. -/
def spaces (n : Nat) : Text := List.replicate n ' '

/-- `str::split_inclusive` at line feeds. -/
def splitInclusive : Text → List Text
  | [] => []
  | c :: t =>
    if c = '\n' then [c] :: splitInclusive t
    else
      match splitInclusive t with
      | [] => [[c]]
      | line :: lines => (c :: line) :: lines

/-- `line.trim_end_matches('\n')`. -/
def bodyOf (line : Text) : Text := trimEndMatches (fun c => c = '\n') line

/-- The line feed of a line that ends with one. -/
def endOf (line : Text) : Text := if line.getLast? = some '\n' then ['\n'] else []

/-- A backtick. -/
def isTick (c : Char) : Bool := c = '\x60'

theorem dropTicks_length (c : Char) (t : Text) (tick : isTick c) :
    ((c :: t).dropWhile isTick).length ≤ t.length := by
  rw [List.dropWhile_cons_of_pos tick]
  exact (List.dropWhile_suffix _).length_le

/-- The inner loop of `mask_inline_code`: what stands up to the next run of this width, the run
included, and the rest of the line. -/
def closeSpan (width : Nat) : Text → Option (Text × Text)
  | [] => none
  | c :: t =>
    if _tick : isTick c then
      let run := (c :: t).takeWhile isTick
      let rest := (c :: t).dropWhile isTick
      if run.length = width then some (run, rest)
      else (closeSpan width rest).map fun (inside, after) => (run ++ inside, after)
    else (closeSpan width t).map fun (inside, after) => (c :: inside, after)
termination_by t => t.length
decreasing_by
  · exact Nat.lt_succ_of_le (dropTicks_length c t _tick)
  · exact Nat.lt_succ_self _

theorem closeSpan_length (width : Nat) (t : Text) :
    ∀ inside after, closeSpan width t = some (inside, after) → after.length ≤ t.length := by
  fun_induction closeSpan width t with
  | case1 => intro _ _ found; cases found
  | case2 c t tick run rest same =>
    intro inside after found
    cases found
    exact (dropTicks_length c t tick).trans (Nat.le_succ _)
  | case3 c t tick run rest _ ih =>
    intro inside after found
    obtain ⟨⟨inside', after'⟩, within, same⟩ := Option.map_eq_some_iff.mp found
    cases same
    exact (ih inside' after within).trans ((dropTicks_length c t tick).trans (Nat.le_succ _))
  | case4 c t tick ih =>
    intro inside after found
    obtain ⟨⟨inside', after'⟩, within, same⟩ := Option.map_eq_some_iff.mp found
    cases same
    exact (ih inside' after within).trans (Nat.le_succ _)

/-- `mask_inline_code`. -/
def maskInlineCode : Text → Text
  | [] => []
  | c :: t =>
    if _tick : isTick c then
      let run := (c :: t).takeWhile isTick
      let rest := (c :: t).dropWhile isTick
      match _found : closeSpan run.length rest with
      | some (inside, after) => spaces (run ++ inside).length ++ maskInlineCode after
      | none => run ++ maskInlineCode rest
    else c :: maskInlineCode t
termination_by t => t.length
decreasing_by
  · exact Nat.lt_succ_of_le ((closeSpan_length _ _ _ _ _found).trans (dropTicks_length c t _tick))
  · exact Nat.lt_succ_of_le (dropTicks_length c t _tick)
  · exact Nat.lt_succ_self _

/-- An open fence: its character and its width. -/
structure Fence where
  marker : Char
  width : Nat
  deriving DecidableEq, Repr

/-- A line of the masked text, and whether it was blanked as a whole. -/
structure MaskedLine where
  whole : Bool
  text : Text
  deriving DecidableEq, Repr

/-- A character of a fence. -/
def isFenceChar (c : Char) : Bool := isTick c || c = '~'

/-- `body.trim_start_matches(' ')`. -/
def trimmedOf (body : Text) : Text := body.dropWhile fun c => c = ' '

/-- `indent`. -/
def indentOf (body : Text) : Nat := utf8Len body - utf8Len (trimmedOf body)

/-- `run`. -/
def runOf (body : Text) : Text := (trimmedOf body).takeWhile isFenceChar

/-- `closes`. -/
def closes (fence : Fence) (body : Text) : Prop :=
  indentOf body ≤ 3 ∧ fence.width ≤ (runOf body).length ∧ (runOf body).head? = some fence.marker ∧
    trim ((trimmedOf body).drop (runOf body).length) = []

instance (fence : Fence) (body : Text) : Decidable (closes fence body) :=
  inferInstanceAs (Decidable (_ ∧ _ ∧ _ ∧ _))

/-- The fence that a line opens. -/
def openedFence (body : Text) : Option Fence :=
  match runOf body with
  | [] => none
  | first :: more =>
    if indentOf body ≤ 3 ∧ 3 ≤ (first :: more).length ∧ ∀ c ∈ first :: more, c = first then
      some ⟨first, (first :: more).length⟩
    else none

/-- A line that is blanked. -/
def blanked (line : Text) : MaskedLine := ⟨true, spaces (utf8Len (bodyOf line)) ++ endOf line⟩

/-- The loop body of `mask_markdown_code`. -/
def maskLine (fence : Option Fence) (line : Text) : Option Fence × MaskedLine :=
  match fence with
  | some open' => (if closes open' (bodyOf line) then none else fence, blanked line)
  | none =>
    match openedFence (bodyOf line) with
    | some opened => (some opened, blanked line)
    | none =>
      if 4 ≤ indentOf (bodyOf line) then (none, blanked line)
      else (none, ⟨false, maskInlineCode (bodyOf line) ++ endOf line⟩)

/-- The lines one after the other. -/
def maskLines : Option Fence → List Text → List MaskedLine
  | _, [] => []
  | fence, line :: lines =>
    (maskLine fence line).2 :: maskLines (maskLine fence line).1 lines

section Validate

variable (isWord : Char → Bool)

/-- The text without the elements `pre` and `code`. -/
def withoutElements (t : Text) : Text :=
  let blank := fun (found : Text) (_ : Regex.Groups) => spaces (utf8Len found)
  Regex.replaceAll (codeElement isWord) blank (Regex.replaceAll (preElement isWord) blank t)

/-- The lines of `mask_markdown_code`. -/
def maskedLines (t : Text) : List MaskedLine :=
  maskLines none (splitInclusive (withoutElements isWord t))

/-- `mask_markdown_code`. -/
def maskMarkdownCode (t : Text) : Text := (maskedLines isWord t).flatMap MaskedLine.text

/-! ## References -/

/-- `is_http_url`. -/
def isHttpUrl (value : Text) : Bool :=
  (splitAtByte 7 value).any (fun parts => eqIgnoreAsciiCase parts.1 (text "http://")) ||
    (splitAtByte 8 value).any fun parts => eqIgnoreAsciiCase parts.1 (text "https://")

/-- The reference is remote, holds its data, or is among the assets. -/
def isProvided (assets : List Text) (reference : Text) : Bool :=
  isHttpUrl reference || (text "data:").isPrefixOf reference ||
    reference ∈ assets || (text "images/" ++ reference) ∈ assets

/-- The references to images in a text. -/
def imageReferences (searchable : Text) : List Text :=
  capturesOf markdownImage searchable ++ capturesOf (htmlImage isWord) searchable

/-- `validate_markup_assets`, with the names of the assets. -/
def validateMarkupAssets (markdown : Text) (assets : List Text) : Except OfficialError Unit :=
  if (imageReferences isWord (maskMarkdownCode isWord markdown)).any fun reference =>
      !isProvided assets reference then
    .error ⟨.invalidInput, "result references a missing image asset"⟩
  else .ok ()

end Validate

end Mineru.Official.Markup
