import Mineru.Official.Markup

/-!
# Code in Markdown

What the code of a Markdown text is by CommonMark: the lines of fenced code blocks, and on every other
line the spans between two backtick strings of one length. `hiddenLines` blanks exactly this, and
`Hides` says that the masking of a text does so too.

The readings of `mask_markdown_code` and of CommonMark differ on three kinds of lines. `InStep` follows
the lines of a text and says that none of them does any harm.
-/

set_option autoImplicit false

namespace Mineru.Official.Markup

/-! ## Fences -/

/-- The spaces before a line. -/
def leading (body : Text) : Nat := (body.takeWhile fun c => c = ' ').length

/-- The string of this character at the beginning of the line, behind its spaces. -/
def stringOf (marker : Char) (body : Text) : Text := (trimmedOf body).takeWhile fun c => c = marker

/-- What stands behind that string. -/
def behind (marker : Char) (body : Text) : Text := (trimmedOf body).dropWhile fun c => c = marker

/-- The line begins with a string of at least three of the character. -/
def HasString (marker : Char) (body : Text) : Prop :=
  leading body ≤ 3 ∧ 3 ≤ (stringOf marker body).length

instance (marker : Char) (body : Text) : Decidable (HasString marker body) :=
  inferInstanceAs (Decidable (_ ∧ _))

/-- The fence that a line opens: at least three equal backticks or tildes, and behind backticks no other
one. -/
def openingFence (body : Text) : Option Fence :=
  if HasString '\x60' body ∧ '\x60' ∉ behind '\x60' body then
    some ⟨'\x60', (stringOf '\x60' body).length⟩
  else if HasString '~' body then some ⟨'~', (stringOf '~' body).length⟩
  else none

/-- The line closes the fence: a string of its character, at least as long, and white space. -/
def ClosesFence (fence : Fence) (body : Text) : Prop :=
  leading body ≤ 3 ∧ fence.width ≤ (stringOf fence.marker body).length ∧
    (behind fence.marker body).all isWhitespace

instance (fence : Fence) (body : Text) : Decidable (ClosesFence fence body) :=
  inferInstanceAs (Decidable (_ ∧ _ ∧ _))

/-! ## Code spans -/

/-- The backtick strings of a line, and the characters between them. -/
def segments (body : Text) : List Text := body.splitBy fun c d => isTick c && isTick d

/-- A backtick string begins a code span if one of its length follows; the span ends with the first
such. -/
def blankSpans : List Text → Text
  | [] => []
  | string :: rest =>
    if string.head?.any isTick ∧ string ∈ rest then
      spaces (string ++ (rest.takeWhile fun other => other ≠ string).flatten ++ string).length ++
        blankSpans (rest.dropWhile fun other => other ≠ string).tail
    else string ++ blankSpans rest
termination_by rest => rest.length
decreasing_by
  · rw [List.length_tail, List.length_cons]
    have := (List.dropWhile_suffix (fun other => decide (other ≠ string)) (l := rest)).length_le
    omega
  · exact Nat.lt_succ_self _

/-! ## The text without its code -/

/-- The fence that is open behind a line. -/
def fenceBehind (fence : Option Fence) (body : Text) : Option Fence :=
  match fence with
  | none => openingFence body
  | some open' => if ClosesFence open' body then none else fence

/-- The line is one of a fenced code block. -/
def isFenced (fence : Option Fence) (body : Text) : Bool :=
  fence.isSome || (openingFence body).isSome

/-- The lines of a text with the code blanked. -/
def hiddenLines : Option Fence → List Text → List MaskedLine
  | _, [] => []
  | fence, line :: lines =>
    (if isFenced fence (bodyOf line) then blanked line
      else ⟨false, blankSpans (segments (bodyOf line)) ++ endOf line⟩) ::
    hiddenLines (fenceBehind fence (bodyOf line)) lines

/-- The text with its code blanked. -/
def hideCode (t : Text) : Text := (hiddenLines none (splitInclusive t)).flatMap MaskedLine.text

/-- Masking hides exactly the code, and exactly the references outside of it have to be provided. -/
structure Hides (isWord : Char → Bool) (t : Text) : Prop where
  /-- The lines blanked as a whole are those of fenced code, and on the others the spans are blanked. -/
  lines : maskedLines isWord t = hiddenLines none (splitInclusive t)
  /-- The text is accepted if every reference outside of code is provided. -/
  references : ∀ assets, validateMarkupAssets isWord t assets = .ok () ↔
    ∀ reference ∈ imageReferences isWord (hideCode t), isProvided assets reference

/-! ## Lines that are misread -/

/-- The other character of a fence. -/
def otherMarker (marker : Char) : Char := if marker = '\x60' then '~' else '\x60'

/-- Backticks with another one later in the line are taken for a fence. -/
def OpenedWrongly (body : Text) : Prop :=
  HasString '\x60' body ∧ (behind '\x60' body).head? ≠ some '~' ∧ '\x60' ∈ behind '\x60' body

instance (body : Text) : Decidable (OpenedWrongly body) :=
  inferInstanceAs (Decidable (_ ∧ _ ∧ _))

/-- A fence with the other character directly behind it is not seen. -/
def Missed (body : Text) : Prop :=
  HasString '\x60' body ∧ (behind '\x60' body).head? = some '~' ∧ '\x60' ∉ behind '\x60' body ∨
    HasString '~' body ∧ (behind '~' body).head? = some '\x60'

instance (body : Text) : Decidable (Missed body) :=
  inferInstanceAs (Decidable ((_ ∧ _ ∧ _) ∨ (_ ∧ _)))

/-- A run of both characters that begins with the fence's and has its width is taken for its end. -/
def ClosedWrongly (fence : Fence) (body : Text) : Prop :=
  (runOf body).head? = some fence.marker ∧ fence.width ≤ (runOf body).length ∧
    otherMarker fence.marker ∈ runOf body ∧
    ((trimmedOf body).drop (runOf body).length).all isWhitespace

instance (fence : Fence) (body : Text) : Decidable (ClosedWrongly fence body) :=
  inferInstanceAs (Decidable (_ ∧ _ ∧ _ ∧ _))

/-- The fence that `mask_markdown_code` has open behind a line. -/
def codeFenceBehind (fence : Option Fence) (body : Text) : Option Fence :=
  match fence with
  | none => openedFence body
  | some open' => if closes open' body then none else fence

mutual

/-- Both readings have the same fence open. No line is misread outside of it, and if it is closed
wrongly, the rest of the text does not show it. -/
def InStep (fence : Option Fence) : List Text → Prop
  | [] => True
  | body :: rest =>
    match fence with
    | none => ¬ OpenedWrongly body ∧ ¬ Missed body ∧ InStep (openingFence body) rest
    | some open' =>
      if ClosedWrongly open' body then Unnoticed none fence rest
      else InStep (fenceBehind fence body) rest

/-- The readings are apart. A line outside of a fence in one of them opens one in it, up to where they
meet again. -/
def Unnoticed (code mark : Option Fence) : List Text → Prop
  | [] => True
  | body :: rest =>
    (code = none → openedFence body ≠ none) ∧ (mark = none → openingFence body ≠ none) ∧
      if codeFenceBehind code body = fenceBehind mark body then InStep (fenceBehind mark body) rest
      else Unnoticed (codeFenceBehind code body) (fenceBehind mark body) rest

end

/-- The lines of a text without their ends. -/
def bodies (t : Text) : List Text := (splitInclusive t).map bodyOf

/-! ## The texts in question -/

/-- No line is indented by four or more spaces. -/
def Shallow (t : Text) : Prop := ∀ body ∈ bodies t, leading body ≤ 3

instance (t : Text) : Decidable (Shallow t) :=
  inferInstanceAs (Decidable (∀ body ∈ bodies t, leading body ≤ 3))

/-- No element `pre` or `code` is found. -/
def Untagged (isWord : Char → Bool) (t : Text) : Prop :=
  ∀ u, u <:+ t → Logic.Regex.matchAt (preElement isWord) u = none ∧
    Logic.Regex.matchAt (codeElement isWord) u = none

/-- A Markdown text without tabs, indented code, elements of code, block quotes and lists. -/
structure Plain (isWord : Char → Bool) (t : Text) : Prop where
  tabless : '\t' ∉ t
  shallow : Shallow t
  untagged : Untagged isWord t
  unquoted : ∀ body ∈ bodies t, (trimmedOf body).head? ≠ some '>'
  unlisted : ∀ body ∈ bodies t, ∀ c ∈ (trimmedOf body).head?, c ∉ ['-', '+', '*'] ∧ ¬ c.isDigit

end Mineru.Official.Markup
