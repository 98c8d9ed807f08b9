import Mineru.Logic.Regex
import Mineru.Vlm.Block
import Mineru.Vlm.Equation
import Mineru.Vlm.Otsl

/-!
# Cleaning a block

`clean_block` of `vlm_postprocess.rs` reads the model's answer for a block: the class that an image is
given, a table in OTSL, a formula or a text. It changes the kind and the content of the block, and the
two entries of its metadata that a class comes with.
-/

set_option autoImplicit false

namespace Mineru.Vlm

open Logic Regex

/-! ## Strings -/

/-- `str::replace` for a pattern that is not empty; so many characters belong to the last match
still. -/
def replaceFrom (pattern replacement : Text) : Nat → Text → Text
  | _, [] => []
  | skip + 1, _ :: t => replaceFrom pattern replacement skip t
  | 0, c :: t =>
    if pattern.isPrefixOf (c :: t) then
      replacement ++ replaceFrom pattern replacement (pattern.length - 1) t
    else c :: replaceFrom pattern replacement 0 t

/-- `str::replace`: an empty pattern is found around every character. -/
def replaceText (pattern replacement : Text) (t : Text) : Text :=
  if pattern = [] then replacement ++ t.flatMap fun c => c :: replacement
  else replaceFrom pattern replacement 0 t

/-- `str::split_once`. -/
def splitOnce (pattern : Text) : Text → Option (Text × Text)
  | [] => if pattern = [] then some ([], []) else none
  | c :: t =>
    if pattern.isPrefixOf (c :: t) then some ([], (c :: t).drop pattern.length)
    else (splitOnce pattern t).map fun (front, back) => (c :: front, back)

def containsText (t part : Text) : Bool := t.tails.any part.isPrefixOf

/-- `str::split_whitespace`. -/
def splitWhitespace (t : Text) : List Text := (t.splitOnP isWhitespace).filter fun word => word ≠ []

def compactWhitespace (value : Text) : Text := List.intercalate [' '] (splitWhitespace value)

def lowercase (t : Text) : Text := t.map Char.toLower

/-! ## Fields -/

def spaces : Expr := .many true isWhitespace

def blanks : Expr := .many true fun c => c = ' ' || c = '\t'

/-- The expression for the name of a field. -/
def fieldName (name : String) : Expr :=
  if name = "sub_class" then
    seqs [folded (text "sub"), .many true fun c => isWhitespace c || c = '_' || c = '-',
      folded (text "class")]
  else folded (text name)

/-- `(?i)<\|\s*{name}\s*_(?:{first}|{second})\s*\|>`. -/
def fieldTag (name first second : String) : Expr :=
  seqs [literal (text "<|"), spaces, fieldName name, spaces, literal ['_'],
    .either (folded (text first)) (folded (text second)), spaces, literal (text "|>")]

/-- `(?is)<\s*{name}\s*>\s*(.*?)\s*</\s*{name}\s*>`. -/
def xmlField (name : String) : Expr :=
  seqs [literal ['<'], spaces, fieldName name, spaces, literal ['>'], spaces,
    .group 1 (.many false fun _ => true), spaces, literal (text "</"), spaces, fieldName name, spaces,
    literal ['>']]

/-- `(?im)^[ \t]*(?:[-*][ \t]+)?{name}[ \t]*(?::|=)[ \t]*(.+?)[ \t]*$`. -/
def fieldLine (name : String) : Expr :=
  seqs [.lineStart, blanks,
    optional (seqs [.one fun c => c = '-' || c = '*', plus fun c => c = ' ' || c = '\t']),
    fieldName name, blanks, .one fun c => c = ':' || c = '=', blanks,
    .group 1 (.seq (.one fun c => c ≠ '\n') (.many false fun c => c ≠ '\n')), blanks, .lineEnd]

/-- The text of the first group of the first match. -/
def captured (e : Expr) (value : Text) : Option Text :=
  ((find e none value).bind fun found => found.groups.get 1).map trim

def taggedField (value : Text) (name : String) : Option Text :=
  match find (fieldTag name "start" "begin") none value with
  | some start =>
    match find (fieldTag name "end" "stop") none start.after with
    | some stop => some (trim stop.before)
    | none => if name = "content" then some (trim start.after) else captured (xmlField name) value
  | none => captured (xmlField name) value

def lineField (value : Text) (name : String) : Option Text := captured (fieldLine name) value

def field (value : Text) (name : String) : Option Text :=
  (taggedField value name).orElse fun _ => lineField value name

structure VlmClassOutput where
  className : Text
  subClass : Option Text
  caption : Option Text
  content : Option Text

def parseVlmClassOutput (value : Text) : Option VlmClassOutput :=
  (taggedField value "class").bind fun className =>
    let className := compactWhitespace className
    if className.isEmpty then none
    else some {
      className
      subClass := field value "sub_class"
      caption := field value "caption"
      content := field value "content" }

def normalizedClass (value : Text) : Text :=
  (lowercase (compactWhitespace value)).map fun c => if c = ' ' ∨ c = '-' then '_' else c

def captionBlock (caption : Option Text) (block : ContentBlock) : ContentBlock :=
  match caption.filter fun caption => !caption.isEmpty with
  | some caption => { block with metadata := block.metadata.insert "caption" (.string caption) }
  | none => block

/-- The kind of a class, and the `sub_type` of a chart. -/
def classBlock (className : Text) (subClass : Option Text) (block : ContentBlock) : ContentBlock :=
  if className ∈ ["pure_table", "table"].map text then { block with kind := "table" }
  else if className ∈ ["pure_formula", "formula", "equation"].map text then
    { block with kind := "equation" }
  else if className = text "chart" then
    match subClass.filter fun subClass => !subClass.isEmpty with
    | some subClass => { block with
        kind := "chart"
        metadata := block.metadata.insert "sub_type" (.string (compactWhitespace subClass)) }
    | none => { block with kind := "chart" }
  else { block with kind := "image" }

/-- The block with the kind and the entries of a class, and the text of the answer. -/
def applyVlmClassOutput (block : ContentBlock) (output : VlmClassOutput) : ContentBlock × Text :=
  (classBlock (normalizedClass output.className) output.subClass (captionBlock output.caption block),
    ((output.content.filter fun content => !content.isEmpty).orElse fun _ =>
      output.caption).getD [])

/-! ## Tables and formulas -/

def isPureTable (value : Text) : Bool :=
  let value := lowercase (trim value)
  (text "<table").isPrefixOf value && (text "</table>").isSuffixOf value

def isPureFormula (value : Text) : Bool := (outerEquationDelimiter (trim value)).isSome

/-- The order of the keys of a `Map`. -/
def keyLE (a b : Text × Value) : Bool := decide (a.1.map Char.toNat ≤ b.1.map Char.toNat)

def replaceTableImages (block : ContentBlock) (value : Text) : Text :=
  if block.kind ≠ "table" then value
  else match Value.find block.metadata (text "_table_image_token_map") with
    | some (.object map) => (map.mergeSort keyLE).foldl (fun value (token, url) => match url with
        | .string url => replaceText token (text "<img src=\"" ++ escapeAttr url ++ text "\"/>") value
        | _ => value) value
    | _ => value

/-- The two kinds of delimiters of a formula in a table. -/
inductive Delimiters where
  | round
  | square
  deriving DecidableEq, Repr

namespace Delimiters

def opening : Delimiters → Text
  | round => text "\\("
  | square => text "\\["

def closing : Delimiters → Text
  | round => text "\\)"
  | square => text "\\]"

end Delimiters

/-- One alternative of the pattern: its lazy body ends before the first closing delimiter. -/
def formulaIn (kind : Delimiters) : Matches.Pattern Char Text := fun t =>
  if kind.opening.isPrefixOf t then
    (splitOnce kind.closing (t.drop kind.opening.length)).map fun (body, _) =>
      (body, kind.opening.length + body.length + kind.closing.length)
  else none

/-- `(?s)\x5c\((.*?)\x5c\)|\x5c\[(.*?)\x5c\]` at the beginning of a text; what is found is the body. -/
def formulaAt : Matches.Pattern Char Text := fun t =>
  (formulaIn .round t).or (formulaIn .square t)

def formulas (value : Text) : Text :=
  let (found, tail) := Matches.cut formulaAt 0 value
  (found.flatMap fun (gap, body) => gap ++ text "<eq>" ++ trim body ++ text "</eq>") ++ tail

/-! ## Texts -/

def displayToInline (value : Text) : Text :=
  match splitOnce (text "\\[") value with
  | none => value
  | some (front, body) => match splitOnce (text "\\]") body with
    | none => value
    | some (body', back) =>
      if containsText back (text "\\]") || containsText body (text "\\[") then value
      else
        let inner := trim body'
        let rangeOnly := !inner.isEmpty && inner.all fun c =>
          c.isDigit || isWhitespace c || [',', '.', '-'].contains c
        if inner.isEmpty || rangeOnly || inner.any (fun c => ['\n', '\r', '&', '$'].contains c) ||
            ["\\\\", "\\begin", "\\end", "\\tag", "\\label"].any (fun needle =>
              containsText inner (text needle)) then value
        else front ++ text "\\(" ++ inner ++ text "\\)" ++ back

/-- `(?s)\\\((.*?)\\\)`. -/
def inlineMath : Expr :=
  seqs [literal (text "\\("), .group 1 (.many false fun _ => true), literal (text "\\)")]

/-- `\\(?:cong|to|times|subset|in)([A-Za-z])([^A-Za-z]|$)`. -/
def macroSuffix : Expr :=
  seqs [literal ['\\'], eithers (["cong", "to", "times", "subset", "in"].map fun name =>
      literal (text name)),
    .group 1 (.one Char.isAlpha), .group 2 (.either (.one fun c => !c.isAlpha) .textEnd)]

def spaceMacro (matched : Text) (groups : Groups) : Text :=
  let letter := (groups.get 1).getD []
  let boundary := (groups.get 2).getD []
  let complete := matched.take (matched.length - boundary.length)
  if complete ∈ ["\\top", "\\int", "\\inf"].map text then matched
  else complete.take (complete.length - letter.length) ++ [' '] ++ letter ++ boundary

def fixInlineMacroSpacing (value : Text) : Text :=
  replaceAll inlineMath (fun _ groups =>
    text "\\(" ++ replaceAll macroSuffix spaceMacro ((groups.get 1).getD []) ++ text "\\)") value

/-- `_{3,}`. -/
def blank : Expr := seqs [literal (text "___"), .many true fun c => c = '_']

/-- The runs of underscores between spaces, each with the text before it, and the text behind the
last one. -/
def blankPieces (inner : Text) : List (Text × Text) × Text :=
  let (found, tail) := Matches.cut (fun t => (matchAt blank t).map fun (_, size) => (t.take size, size))
    0 inner
  let behind := (found.map Prod.fst).tail ++ [tail]
  -- A run that stands next to something else is part of the text around it.
  let s := (found.zip behind).foldl (fun (s : List (Text × Text) × Text) piece =>
    let (gap, run) := piece.1
    if gap.getLast?.all isWhitespace && piece.2.head?.all isWhitespace then
      (s.1 ++ [(s.2 ++ gap, run)], [])
    else (s.1, s.2 ++ gap ++ run)) ([], [])
  (s.1, s.2 ++ tail)

/-- A piece of inline mathematics, if there is anything in it. -/
def inlinePiece (gap : Text) : List Text :=
  if (trim gap).isEmpty then [] else [text "\\(" ++ trim gap ++ text "\\)"]

def splitBlanks (matched : Text) (groups : Groups) : Text :=
  let (pieces, tail) := blankPieces ((groups.get 1).getD [])
  if (pieces.head?.all fun piece => (trim piece.1).isEmpty) || (trim tail).isEmpty then matched
  else List.intercalate [' ']
    ((pieces.flatMap fun (gap, run) => inlinePiece gap ++ [run]) ++ inlinePiece tail)

def moveBlankUnderscores (value : Text) : Text := replaceAll inlineMath splitBlanks value

def cleanText (value : Text) : Text :=
  moveBlankUnderscores (fixInlineMacroSpacing (displayToInline value))

/-! ## Blocks -/

def isVisual (kind : String) : Bool := kind = "image" || kind = "chart" || kind = "image_block"

/-- The class of an image, and the text of the answer. -/
def classify (block : ContentBlock) (answer : Text) : ContentBlock × Text :=
  if isVisual block.kind then
    match parseVlmClassOutput answer with
    | some output => applyVlmClassOutput block output
    | none => (block, answer)
  else (block, answer)

/-- The kind that the text itself shows. -/
def rekind (kind : String) (marker : Text) : String :=
  let kind :=
    if isVisual kind then
      if isPureTable marker then "table"
      else if isPureFormula marker then "equation"
      else if kind = "image_block" && !marker.isEmpty then "image"
      else kind
    else kind
  if kind = "equation_block" && isPureFormula marker then "equation" else kind

/-- The text of a table or a formula. -/
def convert (w : WordChars) (block : ContentBlock) (answer : Text) : Text :=
  if block.kind = "table" then formulas (otslHtml (replaceTableImages block answer))
  else if block.kind = "equation" then normalizeEquation w answer
  else answer

/-- A list item becomes a text, without its marker. -/
def itemText (kind : String) (answer : Text) : String × Text :=
  if kind = "list_item" then
    ("text", answer.dropWhile fun c => ['-', '*', '•', ' '].contains c)
  else (kind, answer)

def cleanBlock (w : WordChars) (block : ContentBlock) (response : Text) : ContentBlock :=
  let (block, answer) := classify block (replaceText (text "<|im_end|>") [] response)
  let block := { block with kind := rekind block.kind (trim answer) }
  let (kind, answer) := itemText block.kind (trim (convert w block answer))
  let answer := if kind = "text" then cleanText answer else answer
  let answer := if answer = text "[Non-Text]" then [] else answer
  { block with kind, content := if answer.isEmpty then none else some answer }

end Mineru.Vlm
