import Mineru.Logic.Checked
import Mineru.Text

/-!
# Character references

`html_unescape` of `official_builders.rs` replaces the character references of a table cell or an
equation. `html_reference` reads one: it works on the bytes of the text and slices the text at byte
offsets, which panics inside a character.

The table `html_escape::NAMED_ENTITIES` of the other crate is a parameter. Byte offsets into the text
after an ampersand are numbers, and `utf8` gives the bytes they count.
-/

set_option autoImplicit false

namespace Mineru.Builders

open Logic

/-- The bytes of a text. -/
def utf8 (t : Text) : List UInt8 := t.flatMap String.utf8EncodeChar

/-- The byte of an ASCII character. -/
def byteOf (c : Char) : UInt8 := UInt8.ofNat c.toNat

/-- A slice of the text at a byte offset. -/
def sliceAt (n : Nat) (t : Text) : Checked Empty (Text × Text) :=
  match splitAtByte n t with
  | some parts => .ok parts
  | none => .error .panic

/-! ## Names -/

/-- The replacements that `named_entity` adds to the table of the crate. -/
def combinedEntities : List (List String × String) :=
  [(["acE"], "\u223e\u0333"), (["bne"], "=\u20e5"), (["bnequiv"], "\u2261\u20e5"),
   (["caps"], "\u2229\ufe00"), (["cups"], "\u222a\ufe00"), (["fjlig"], "fj"),
   (["gesl"], "\u22db\ufe00"), (["gvertneqq", "gvnE"], "\u2269\ufe00"),
   (["lates"], "\u2aad\ufe00"), (["lesg"], "\u22da\ufe00"),
   (["lvertneqq", "lvnE"], "\u2268\ufe00"), (["nang"], "\u2220\u20d2"),
   (["napE"], "\u2a70\u0338"), (["napid"], "\u224b\u0338"),
   (["nbump", "NotHumpDownHump"], "\u224e\u0338"), (["nbumpe", "NotHumpEqual"], "\u224f\u0338"),
   (["ncongdot"], "\u2a6d\u0338"), (["nedot"], "\u2250\u0338"),
   (["nesim", "NotEqualTilde"], "\u2242\u0338"),
   (["ngE", "ngeqq", "NotGreaterFullEqual"], "\u2267\u0338"),
   (["ngeqslant", "nges", "NotGreaterSlantEqual"], "\u2a7e\u0338"), (["nGg"], "\u22d9\u0338"),
   (["nGt"], "\u226b\u20d2"), (["nGtv", "NotGreaterGreater"], "\u226b\u0338"),
   (["nlE", "nleqq"], "\u2266\u0338"),
   (["nleqslant", "nles", "NotLessSlantEqual"], "\u2a7d\u0338"), (["nLl"], "\u22d8\u0338"),
   (["nLt"], "\u226a\u20d2"), (["nLtv", "NotLessLess"], "\u226a\u0338"),
   (["notindot"], "\u22f5\u0338"), (["notinE"], "\u22f9\u0338"),
   (["NotLeftTriangleBar"], "\u29cf\u0338"), (["NotNestedGreaterGreater"], "\u2aa2\u0338"),
   (["NotNestedLessLess"], "\u2aa1\u0338"),
   (["NotPrecedesEqual", "npre", "npreceq"], "\u2aaf\u0338"),
   (["NotRightTriangleBar"], "\u29d0\u0338"), (["NotSquareSubset"], "\u228f\u0338"),
   (["NotSquareSuperset"], "\u2290\u0338"), (["NotSubset", "nsubset", "vnsub"], "\u2282\u20d2"),
   (["NotSucceedsEqual", "nsce", "nsucceq"], "\u2ab0\u0338"),
   (["NotSucceedsTilde"], "\u227f\u0338"), (["NotSuperset", "nsupset", "vnsup"], "\u2283\u20d2"),
   (["nparsl"], "\u2afd\u20e5"), (["npart"], "\u2202\u0338"), (["nrarrc"], "\u2933\u0338"),
   (["nrarrw"], "\u219d\u0338"), (["nsubE", "nsubseteqq"], "\u2ac5\u0338"),
   (["nsupE", "nsupseteqq"], "\u2ac6\u0338"), (["nvap"], "\u224d\u20d2"),
   (["nvge"], "\u2265\u20d2"), (["nvgt"], ">\u20d2"), (["nvle"], "\u2264\u20d2"),
   (["nvlt"], "<\u20d2"), (["nvltrie"], "\u22b4\u20d2"), (["nvrtrie"], "\u22b5\u20d2"),
   (["nvsim"], "\u223c\u20d2"), (["race"], "\u223d\u0331"), (["smtes"], "\u2aac\ufe00"),
   (["sqcaps"], "\u2293\ufe00"), (["sqcups"], "\u2294\ufe00"), (["ThickSpace"], "\u205f\u200a"),
   (["varsubsetneq", "vsubne"], "\u228a\ufe00"), (["varsubsetneqq", "vsubnE"], "\u2acb\ufe00"),
   (["varsupsetneq", "vsupne"], "\u228b\ufe00"), (["varsupsetneqq", "vsupnE"], "\u2acc\ufe00")]

/-- `LEGACY`. -/
def legacyNames : List String :=
  ["AElig", "AMP", "Aacute", "Acirc", "Agrave", "Aring", "Atilde", "Auml", "COPY", "Ccedil",
   "ETH", "Eacute", "Ecirc", "Egrave", "Euml", "GT", "Iacute", "Icirc", "Igrave", "Iuml", "LT",
   "Ntilde", "Oacute", "Ocirc", "Ograve", "Oslash", "Otilde", "Ouml", "QUOT", "REG", "THORN",
   "Uacute", "Ucirc", "Ugrave", "Uuml", "Yacute", "aacute", "acirc", "acute", "aelig", "agrave",
   "amp", "aring", "atilde", "auml", "brvbar", "ccedil", "cedil", "cent", "copy", "curren", "deg",
   "divide", "eacute", "ecirc", "egrave", "eth", "euml", "frac12", "frac14", "frac34", "gt",
   "iacute", "icirc", "iexcl", "igrave", "iquest", "iuml", "laquo", "lt", "macr", "micro",
   "middot", "nbsp", "not", "ntilde", "oacute", "ocirc", "ograve", "ordf", "ordm", "oslash",
   "otilde", "ouml", "para", "plusmn", "pound", "quot", "raquo", "reg", "sect", "shy", "sup1",
   "sup2", "sup3", "szlig", "thorn", "times", "uacute", "ucirc", "ugrave", "uml", "uuml",
   "yacute", "yen", "yuml"]

/-- `html_escape::NAMED_ENTITIES`, as a lookup. -/
abbrev NamedEntities := Text → Option Text

/-- `named_entity`. -/
def namedEntity (entities : NamedEntities) (name : Text) : Option Text :=
  match combinedEntities.find? fun row => row.1.any fun n => text n = name with
  | some row => some (text row.2)
  | none => entities name

/-- `legacy_entity`; the binary search finds every name of the list, which is sorted. -/
def legacyEntity (name : Text) : Bool := legacyNames.any fun n => text n = name

/-! ## Numbers -/

/-- The table `c1`. -/
def c1Characters : List (Nat × Char) :=
  [(0x80, '\u20ac'), (0x81, '\u0081'), (0x82, '\u201a'), (0x83, '\u0192'), (0x84, '\u201e'),
   (0x85, '\u2026'), (0x86, '\u2020'), (0x87, '\u2021'), (0x88, '\u02c6'), (0x89, '\u2030'),
   (0x8a, '\u0160'), (0x8b, '\u2039'), (0x8c, '\u0152'), (0x8d, '\u008d'), (0x8e, '\u017d'),
   (0x8f, '\u008f'), (0x90, '\u0090'), (0x91, '\u2018'), (0x92, '\u2019'), (0x93, '\u201c'),
   (0x94, '\u201d'), (0x95, '\u2022'), (0x96, '\u2013'), (0x97, '\u2014'), (0x98, '\u02dc'),
   (0x99, '\u2122'), (0x9a, '\u0161'), (0x9b, '\u203a'), (0x9c, '\u0153'), (0x9d, '\u009d'),
   (0x9e, '\u017e'), (0x9f, '\u0178')]

/-- `python_numeric_reference`; past its checks the number is a Unicode scalar value. -/
def pythonNumericReference (number : Nat) : Text :=
  match c1Characters.find? fun row => row.1 = number with
  | some row => [row.2]
  | none =>
    if number = 0 ∨ (0xd800 ≤ number ∧ number ≤ 0xdfff) ∨ number > 0x10ffff then ['\ufffd']
    else if ((1 ≤ number ∧ number ≤ 8) ∨ number = 11 ∨ (14 ≤ number ∧ number ≤ 31) ∨
        (127 ≤ number ∧ number ≤ 159)) ∨ (0xfdd0 ≤ number ∧ number ≤ 0xfdef) ∨
        number % 0x10000 = 0xfffe ∨ number % 0x10000 = 0xffff then []
    else [Char.ofNat number]

/-- The value of a hexadecimal digit. -/
def hexValue (c : Char) : Nat :=
  if c.toNat < 58 then c.toNat - 48 else if c.toNat < 71 then c.toNat - 55 else c.toNat - 87

/-- The number that digits spell. -/
def digitsValue (radix : Nat) (digits : Text) : Nat :=
  digits.foldl (fun n c => n * radix + hexValue c) 0

/-- `u32::from_str_radix`, with `u32::MAX` for a number that does not fit. -/
def fromStrRadix (radix : Nat) (digits : Text) : Nat :=
  let number := digitsValue radix digits
  if number < 2 ^ 32 then number else 2 ^ 32 - 1

/-- `u8::is_ascii_digit` and `u8::is_ascii_hexdigit`. -/
def isDigitByte (radix : Nat) (b : UInt8) : Bool :=
  (48 ≤ b && b ≤ 57) || (radix = 16 && ((65 ≤ b && b ≤ 70) || (97 ≤ b && b ≤ 102)))

/-! ## References -/

/-- The bytes that end a name. -/
def isNameByte (b : UInt8) : Bool := b ∉ [0x09, 0x0a, 0x0c, 0x20, 0x3c, 0x26, 0x23, 0x3b]

/-- The digits from an offset on, and the number they spell. -/
def digitsFrom (radix digits : Nat) (value : Text) : Checked Empty (Option (Nat × Text)) :=
  let bytes := utf8 value
  let index := digits + ((bytes.drop digits).takeWhile (isDigitByte radix)).length
  if index = digits then .ok none
  else do
    let (_, tail) ← sliceAt digits value
    let (run, _) ← sliceAt (index - digits) tail
    let number := fromStrRadix radix run
    let index := if bytes[index]? = some (byteOf ';') then index + 1 else index
    return some (index, pythonNumericReference number)

/-- The first half of `html_reference`, where `value` starts with `&#`. -/
def numericReference (value : Text) : Checked Empty (Option (Nat × Text)) :=
  let third := (utf8 value)[2]?
  if third = some (byteOf 'x') ∨ third = some (byteOf 'X') then digitsFrom 16 3 value
  else digitsFrom 10 2 value

/-- The loop over the byte lengths of a name, from `n` down. -/
def legacyPrefix (entities : NamedEntities) (name : Text) :
    Nat → Checked Empty (Option (Nat × Text))
  | 0 => .ok none
  | n + 1 => do
    let (start, rest) ← sliceAt (n + 1) name
    match if legacyEntity start then namedEntity entities start else none with
    | some decoded => return some (1 + utf8Len name, decoded ++ rest)
    | none => legacyPrefix entities name n

/-- The second half of `html_reference`. -/
def namedReference (entities : NamedEntities) (value : Text) :
    Checked Empty (Option (Nat × Text)) :=
  let bytes := utf8 value
  let stop := 1 + (((bytes.drop 1).take 32).takeWhile isNameByte).length
  if stop = 1 then .ok none
  else do
    let (_, tail) ← sliceAt 1 value
    let (name, _) ← sliceAt (stop - 1) tail
    if bytes[stop]? = some (byteOf ';') then
      return (namedEntity entities name).map fun decoded => (stop + 1, decoded)
    else legacyPrefix entities name (utf8Len name)

/-- `html_reference`: the end of the reference at the front of the text, and what it stands for. -/
def htmlReference (entities : NamedEntities) (value : Text) : Checked Empty (Option (Nat × Text)) :=
  if (utf8 value)[1]? = some (byteOf '#') then numericReference value
  else namedReference entities value

/-- The loop of `html_unescape`: the output, the text since the last reference, and the text from
`index` on. `none` is a loop that has not ended. -/
def unescapeLoop (entities : NamedEntities) :
    Nat → Text → Text → Text → Option (Checked Empty Text)
  | 0, _, _, _ => none
  | _ + 1, output, copied, [] => some (.ok (output ++ copied))
  | fuel + 1, output, copied, c :: rest =>
    if c ≠ '&' then unescapeLoop entities fuel output (copied ++ [c]) rest
    else
      match htmlReference entities (c :: rest) with
      | .error e => some (.error e)
      | .ok none => unescapeLoop entities fuel output (copied ++ [c]) rest
      | .ok (some (stop, decoded)) =>
        match sliceAt stop (c :: rest) with
        | .error e => some (.error e)
        | .ok (_, after) => unescapeLoop entities fuel (output ++ copied ++ decoded) [] after

/-- `html_unescape`. -/
def htmlUnescape (entities : NamedEntities) (fuel : Nat) (value : Text) :
    Option (Checked Empty Text) :=
  unescapeLoop entities fuel [] [] value

end Mineru.Builders
