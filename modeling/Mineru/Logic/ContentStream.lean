import Mathlib

/-!
# Reading the text of a PDF content stream

A content stream is a sequence of tokens: operands followed by the operator that takes them. `Lexer`
cuts the bytes into tokens one byte at a time, with the escapes, the nested parentheses and the ends of
line of literal strings. `Painter` carries out the text operators and notes what each `Tj` shows, in
which font and on which line.

The reader knows words (names, whole numbers, operators), literal strings and comments; anything else
is refused. Both machines run left to right, so a stream is read piece by piece: `Lexer.run_append` and
`Painter.run_append` cut a run, `Lexer.run_word` and `Lexer.run_literal` read one token.
-/

set_option autoImplicit false

namespace Mineru.Logic.Content

/-- The byte of an ASCII character. -/
def octet (c : Char) : UInt8 := UInt8.ofNat c.toNat

/-- The bytes of an ASCII text. -/
def octets (s : String) : List UInt8 := s.toList.map octet

/-! ## Tokens -/

/-- A word (a name, a number or an operator), or the value of a literal string. -/
inductive Token where
  | word (bytes : List UInt8)
  | literal (bytes : List UInt8)
  deriving DecidableEq, Repr

/-- White space of PDF. -/
def isSpace (b : UInt8) : Bool :=
  b = 0 || b = 9 || b = 10 || b = 12 || b = 13 || b = 32

/-- The bytes that end a word without being white space. -/
def isDelimiter (b : UInt8) : Bool := (octets "()<>[]\x7b\x7d/%").contains b

/-- Where the lexer stands. A literal string knows how many parentheses are open inside it, whether its
last byte was a carriage return, and its value so far. -/
inductive Mode where
  | between
  | comment
  | word (sofar : List UInt8)
  | literal (depth : Nat) (return' : Bool) (sofar : List UInt8)
  | escape (depth : Nat) (sofar : List UInt8)
  | octal (depth : Nat) (sofar : List UInt8) (value count : Nat)
  deriving DecidableEq, Repr

/-- A lexer: where it stands and the tokens it has read. -/
structure Lexer where
  mode : Mode
  tokens : List Token
  deriving DecidableEq, Repr

/-- A byte between tokens. -/
def Lexer.outside (tokens : List Token) (b : UInt8) : Option Lexer :=
  if isSpace b then some ⟨.between, tokens⟩
  else if b = octet '(' then some ⟨.literal 0 false [], tokens⟩
  else if b = octet '%' then some ⟨.comment, tokens⟩
  else if b = octet '/' ∨ ¬ isDelimiter b then some ⟨.word [b], tokens⟩
  else none

/-- A byte of a literal string: an end of line is a line feed, parentheses nest. -/
def Lexer.inside (tokens : List Token) (depth : Nat) (return' : Bool) (sofar : List UInt8)
    (b : UInt8) : Lexer :=
  if b = octet '\\' then ⟨.escape depth sofar, tokens⟩
  else if b = octet '(' then ⟨.literal (depth + 1) false (sofar ++ [b]), tokens⟩
  else if b = octet ')' then
    match depth with
    | 0 => ⟨.between, tokens ++ [.literal sofar]⟩
    | depth + 1 => ⟨.literal depth false (sofar ++ [b]), tokens⟩
  else if b = octet '\r' then ⟨.literal depth true (sofar ++ [octet '\n']), tokens⟩
  else if b = octet '\n' ∧ return' then ⟨.literal depth false sofar, tokens⟩
  else ⟨.literal depth false (sofar ++ [b]), tokens⟩

/-- A digit of an octal escape. -/
def octalDigit (b : UInt8) : Option Nat :=
  if octet '0' ≤ b ∧ b ≤ octet '7' then some (b.toNat - 48) else none

/-- The byte behind a backslash: a letter, an octal code, a line that goes on, or the byte itself. -/
def Lexer.escaped (tokens : List Token) (depth : Nat) (sofar : List UInt8) (b : UInt8) : Lexer :=
  let push := fun c => (⟨.literal depth false (sofar ++ [c]), tokens⟩ : Lexer)
  match octalDigit b with
  | some value => ⟨.octal depth sofar value 1, tokens⟩
  | none =>
    if b = octet 'n' then push 10
    else if b = octet 'r' then push 13
    else if b = octet 't' then push 9
    else if b = octet 'b' then push 8
    else if b = octet 'f' then push 12
    else if b = octet '\n' then ⟨.literal depth false sofar, tokens⟩
    else if b = octet '\r' then ⟨.literal depth true sofar, tokens⟩
    else push b

/-- One byte. -/
def Lexer.step (s : Lexer) (b : UInt8) : Option Lexer :=
  match s.mode with
  | .between => Lexer.outside s.tokens b
  | .comment =>
    some ⟨if b = octet '\n' ∨ b = octet '\r' then .between else .comment, s.tokens⟩
  | .word sofar =>
    if isSpace b ∨ isDelimiter b then Lexer.outside (s.tokens ++ [.word sofar]) b
    else some ⟨.word (sofar ++ [b]), s.tokens⟩
  | .literal depth return' sofar => some (Lexer.inside s.tokens depth return' sofar b)
  | .escape depth sofar => some (Lexer.escaped s.tokens depth sofar b)
  | .octal depth sofar value count =>
    match octalDigit b with
    | some digit =>
      if count < 3 then some ⟨.octal depth sofar (8 * value + digit) (count + 1), s.tokens⟩
      else some (Lexer.inside s.tokens depth false (sofar ++ [UInt8.ofNat value]) b)
    | none => some (Lexer.inside s.tokens depth false (sofar ++ [UInt8.ofNat value]) b)

/-- The bytes one after the other. -/
def Lexer.run (s : Lexer) (bytes : List UInt8) : Option Lexer := bytes.foldlM Lexer.step s

/-- The tokens of a whole stream; an open string is refused. -/
def tokensOf (bytes : List UInt8) : Option (List Token) :=
  match Lexer.run ⟨.between, []⟩ bytes with
  | some ⟨.between, tokens⟩ | some ⟨.comment, tokens⟩ => some tokens
  | some ⟨.word sofar, tokens⟩ => some (tokens ++ [.word sofar])
  | _ => none

/-! ## Operators -/

/-- What an operator takes. -/
inductive Operand where
  | name (bytes : List UInt8)
  | number (n : Int)
  | string (bytes : List UInt8)
  deriving DecidableEq, Repr

/-- A row of decimal digits behind the value of those before it. -/
def digits (value : Nat) : List UInt8 → Option Nat
  | [] => some value
  | b :: rest =>
    if octet '0' ≤ b ∧ b ≤ octet '9' then digits (10 * value + (b.toNat - 48)) rest else none

/-- A whole number with an optional sign. -/
def number : List UInt8 → Option Int
  | [] => none
  | b :: rest =>
    if b = octet '-' then
      if rest = [] then none else (digits 0 rest).map fun n => -(n : Int)
    else (digits 0 (b :: rest)).map fun n => (n : Int)

/-- A token as an operand; a word that is neither a name nor a number is an operator. -/
def Token.operand? : Token → Option Operand
  | .literal bytes => some (.string bytes)
  | .word bytes =>
    if bytes.head? = some (octet '/') then some (.name bytes.tail) else (number bytes).map .number

/-- One string shown: the font, the size, the origin of its line and the bytes. -/
structure Shown (φ : Type) where
  font : φ
  size : Int
  x : Int
  y : Int
  bytes : List UInt8
  deriving DecidableEq, Repr

/-- The state of the text operators. `origin` is where the current line begins, inside a text object. -/
structure Painter (φ : Type) where
  operands : List Operand
  origin : Option (Int × Int)
  font : Option (φ × Int)
  shown : List (Shown φ)
  deriving DecidableEq, Repr

namespace Painter

variable {φ : Type}

/-- The text operators. `fonts` are the font resources of the page. -/
def operate (fonts : List UInt8 → Option φ) (s : Painter φ) (operator : List UInt8) :
    Option (Painter φ) :=
  if operator = octets "BT" then
    match s.operands, s.origin with
    | [], none => some { s with origin := some (0, 0) }
    | _, _ => none
  else if operator = octets "ET" then
    match s.operands, s.origin with
    | [], some _ => some { s with origin := none }
    | _, _ => none
  else if operator = octets "Tf" then
    match s.operands with
    | [.name name, .number size] =>
      (fonts name).map fun font => { s with operands := [], font := some (font, size) }
    | _ => none
  else if operator = octets "Td" then
    match s.operands, s.origin with
    | [.number dx, .number dy], some (x, y) =>
      some { s with operands := [], origin := some (x + dx, y + dy) }
    | _, _ => none
  else if operator = octets "Tj" then
    match s.operands, s.origin, s.font with
    | [.string bytes], some (x, y), some (font, size) =>
      some { s with operands := [], shown := s.shown ++ [⟨font, size, x, y, bytes⟩] }
    | _, _, _ => none
  else none

/-- One token. -/
def step (fonts : List UInt8 → Option φ) (s : Painter φ) (token : Token) : Option (Painter φ) :=
  match token.operand?, token with
  | some operand, _ => some { s with operands := s.operands ++ [operand] }
  | none, .word operator => s.operate fonts operator
  | none, .literal _ => none

/-- The tokens one after the other. -/
def run (fonts : List UInt8 → Option φ) (s : Painter φ) (tokens : List Token) :
    Option (Painter φ) :=
  tokens.foldlM (step fonts) s

end Painter

/-- What a stream shows, in order. -/
def read {φ : Type} (fonts : List UInt8 → Option φ) (bytes : List UInt8) :
    Option (List (Shown φ)) := do
  let tokens ← tokensOf bytes
  match ← Painter.run fonts ⟨[], none, none, []⟩ tokens with
  | ⟨[], none, _, shown⟩ => some shown
  | _ => none

example : read some (octets "BT /F1 9 Tf 3 -4 Td (a\\)\\\\(b\\101)) Tj ET") =
    some [⟨octets "F1", 9, 3, -4, octets "a)\\(bA)"⟩] := by
  decide

/-! ## Runs -/

theorem Lexer.run_nil (s : Lexer) : s.run [] = some s := rfl

theorem Lexer.run_cons (s : Lexer) (b : UInt8) (rest : List UInt8) :
    s.run (b :: rest) = (s.step b).bind fun s => s.run rest := rfl

theorem Lexer.run_append (s : Lexer) (a b : List UInt8) :
    s.run (a ++ b) = (s.run a).bind fun s => s.run b := List.foldlM_append

theorem Painter.run_append {φ : Type} (fonts : List UInt8 → Option φ) (s : Painter φ)
    (a b : List Token) : s.run fonts (a ++ b) = (s.run fonts a).bind fun s => s.run fonts b :=
  List.foldlM_append

namespace Painter

variable {φ : Type} (fonts : List UInt8 → Option φ)

theorem run_nil (s : Painter φ) : s.run fonts [] = some s := rfl

theorem run_cons (s : Painter φ) (token : Token) (rest : List Token) :
    s.run fonts (token :: rest) = (s.step fonts token).bind fun s => s.run fonts rest := rfl

/-- An operand waits for its operator. -/
theorem step_operand {token : Token} {operand : Operand} (is : token.operand? = some operand)
    (s : Painter φ) : s.step fonts token = some { s with operands := s.operands ++ [operand] } := by
  unfold step
  rw [is]

theorem step_operator {word : List UInt8} (is : (Token.word word).operand? = none)
    (s : Painter φ) : s.step fonts (.word word) = s.operate fonts word := by
  unfold step
  rw [is]

/-- `BT … Tf … Td (…) Tj ET`: one string at one place. -/
theorem run_object {fonts : List UInt8 → Option φ} {name : List UInt8} {font : φ}
    (resource : fonts name = some font) {size dx dy : Int} {nameWord sizeWord dxWord dyWord : Token}
    (isName : nameWord.operand? = some (.name name))
    (isSize : sizeWord.operand? = some (.number size))
    (isDx : dxWord.operand? = some (.number dx)) (isDy : dyWord.operand? = some (.number dy))
    (value : List UInt8) (selected : Option (φ × Int)) (shown : List (Shown φ)) :
    run fonts ⟨[], none, selected, shown⟩
      [.word (octets "BT"), nameWord, sizeWord, .word (octets "Tf"), dxWord, dyWord,
        .word (octets "Td"), .literal value, .word (octets "Tj"), .word (octets "ET")] =
      some ⟨[], none, some (font, size), shown ++ [⟨font, size, dx, dy, value⟩]⟩ := by
  have isString : (Token.literal value).operand? = some (.string value) := rfl
  have begins : operate fonts ⟨[], none, selected, shown⟩ (octets "BT") =
      some ⟨[], some (0, 0), selected, shown⟩ := rfl
  have selects : operate fonts ⟨[.name name, .number size], some (0, 0), selected, shown⟩
      (octets "Tf") = some ⟨[], some (0, 0), some (font, size), shown⟩ := by
    change (fonts name).map _ = _
    rw [resource, Option.map_some]
  have moves : operate fonts ⟨[.number dx, .number dy], some (0, 0), some (font, size), shown⟩
      (octets "Td") = some ⟨[], some (dx, dy), some (font, size), shown⟩ := by
    change some (⟨[], some (0 + dx, 0 + dy), some (font, size), shown⟩ : Painter φ) = _
    rw [Int.zero_add, Int.zero_add]
  have shows : operate fonts ⟨[.string value], some (dx, dy), some (font, size), shown⟩
      (octets "Tj") = some ⟨[], some (dx, dy), some (font, size),
        shown ++ [⟨font, size, dx, dy, value⟩]⟩ := rfl
  have ends (shown : List (Shown φ)) :
      operate fonts ⟨[], some (dx, dy), some (font, size), shown⟩ (octets "ET") =
        some ⟨[], none, some (font, size), shown⟩ := rfl
  rw [run_cons, step_operator fonts (by decide), begins, Option.bind_some,
    run_cons, step_operand fonts isName, Option.bind_some,
    run_cons, step_operand fonts isSize, Option.bind_some,
    run_cons, step_operator fonts (by decide), List.nil_append, List.singleton_append, selects,
    Option.bind_some,
    run_cons, step_operand fonts isDx, Option.bind_some,
    run_cons, step_operand fonts isDy, Option.bind_some,
    run_cons, step_operator fonts (by decide), List.nil_append, List.singleton_append, moves,
    Option.bind_some,
    run_cons, step_operand fonts isString, Option.bind_some,
    run_cons, step_operator fonts (by decide), List.nil_append, shows, Option.bind_some,
    run_cons, step_operator fonts (by decide), ends, Option.bind_some, run_nil]

end Painter

/-! ## One word -/

/-- A byte of a word behind its first one. -/
def isRegular (b : UInt8) : Bool := !isSpace b && !isDelimiter b

theorem Lexer.run_regular (tokens : List Token) (sofar rest : List UInt8)
    (regular : ∀ b ∈ rest, isRegular b) :
    Lexer.run ⟨.word sofar, tokens⟩ rest = some ⟨.word (sofar ++ rest), tokens⟩ := by
  induction rest generalizing sofar with
  | nil => rw [List.append_nil, run_nil]
  | cons b rest ih =>
    have plain := regular b List.mem_cons_self
    simp only [isRegular, Bool.and_eq_true, Bool.not_eq_true'] at plain
    have step : Lexer.step ⟨.word sofar, tokens⟩ b = some ⟨.word (sofar ++ [b]), tokens⟩ := by
      simp [Lexer.step, plain.1, plain.2]
    rw [run_cons, step, Option.bind_some, ih _ fun c mem => regular c (List.mem_cons_of_mem b mem),
      List.append_assoc, List.singleton_append]

/-- A word as the lexer cuts it. -/
def isWord : List UInt8 → Bool
  | [] => false
  | first :: rest => (first = octet '/' || isRegular first) && rest.all isRegular

/-- A word and the white space behind it. -/
theorem Lexer.run_word {word : List UInt8} (is : isWord word) {space : UInt8} (ends : isSpace space)
    (tokens : List Token) :
    Lexer.run ⟨.between, tokens⟩ (word ++ [space]) = some ⟨.between, tokens ++ [.word word]⟩ := by
  cases word with
  | nil => cases is
  | cons first rest =>
    simp only [isWord, Bool.and_eq_true, Bool.or_eq_true, decide_eq_true_eq,
      List.all_eq_true] at is
    obtain ⟨starts, regular⟩ := is
    have begins : Lexer.step ⟨.between, tokens⟩ first = some ⟨.word [first], tokens⟩ := by
      rcases starts with rfl | plain
      · rfl
      · simp only [isRegular, Bool.and_eq_true, Bool.not_eq_true'] at plain
        have paren : first ≠ octet '(' := by rintro rfl; exact absurd plain.2 (by decide)
        have percent : first ≠ octet '%' := by rintro rfl; exact absurd plain.2 (by decide)
        simp [Lexer.step, Lexer.outside, plain.1, plain.2, paren, percent]
    have finishes : Lexer.step ⟨.word (first :: rest), tokens⟩ space =
        some ⟨.between, tokens ++ [.word (first :: rest)]⟩ := by
      simp [Lexer.step, Lexer.outside, ends]
    rw [List.cons_append, run_cons, begins, Option.bind_some, run_append, run_regular _ _ _ regular,
      Option.bind_some, List.singleton_append, run_cons, finishes, Option.bind_some, run_nil]

/-- Words with a blank behind each of them. -/
def spaced (words : List (List UInt8)) : List UInt8 := words.flatMap fun word => word ++ [octet ' ']

theorem Lexer.run_spaced {words : List (List UInt8)} (are : ∀ word ∈ words, isWord word)
    (tokens : List Token) :
    Lexer.run ⟨.between, tokens⟩ (spaced words) =
      some ⟨.between, tokens ++ words.map Token.word⟩ := by
  induction words generalizing tokens with
  | nil => rw [List.map_nil, List.append_nil]; rfl
  | cons word words ih =>
    have cut : spaced (word :: words) = (word ++ [octet ' ']) ++ spaced words := List.flatMap_cons
    rw [cut, run_append, run_word (are word List.mem_cons_self) (by decide), Option.bind_some,
      ih fun other mem => are other (List.mem_cons_of_mem word mem), List.map_cons,
      List.append_assoc, List.singleton_append]

/-! ## One literal string -/

/-- `spelling` writes `value` in a literal string: parentheses and backslashes behind a backslash, any
other byte but an end of line as it is. -/
inductive Spells : List UInt8 → List UInt8 → Prop where
  | nil : Spells [] []
  | plain {b : UInt8} {spelling value : List UInt8}
      (other : b ∉ octets "()\\\r\n") (rest : Spells spelling value) :
      Spells (b :: spelling) (b :: value)
  | escaped {b : UInt8} {spelling value : List UInt8}
      (special : b ∈ octets "()\\") (rest : Spells spelling value) :
      Spells (octet '\\' :: b :: spelling) (b :: value)

theorem Lexer.run_spelling {spelling value : List UInt8} (spells : Spells spelling value)
    (tokens : List Token) (sofar : List UInt8) :
    Lexer.run ⟨.literal 0 false sofar, tokens⟩ spelling =
      some ⟨.literal 0 false (sofar ++ value), tokens⟩ := by
  induction spells generalizing sofar with
  | nil => rw [List.append_nil, run_nil]
  | @plain b spelling value other _ ih =>
    have step : Lexer.step ⟨.literal 0 false sofar, tokens⟩ b =
        some ⟨.literal 0 false (sofar ++ [b]), tokens⟩ := by
      change b ∉ [octet '(', octet ')', octet '\\', octet '\r', octet '\n'] at other
      simp only [List.mem_cons, List.not_mem_nil, or_false, not_or] at other
      simp [Lexer.step, Lexer.inside, other]
    rw [run_cons, step, Option.bind_some, ih, List.append_assoc, List.singleton_append]
  | @escaped b spelling value special _ ih =>
    have step : Lexer.step ⟨.escape 0 sofar, tokens⟩ b =
        some ⟨.literal 0 false (sofar ++ [b]), tokens⟩ := by
      change b ∈ [octet '(', octet ')', octet '\\'] at special
      simp only [List.mem_cons, List.not_mem_nil, or_false] at special
      rcases special with rfl | rfl | rfl <;> rfl
    have backslash : Lexer.step ⟨.literal 0 false sofar, tokens⟩ (octet '\\') =
        some ⟨.escape 0 sofar, tokens⟩ := rfl
    rw [run_cons, backslash, Option.bind_some, run_cons, step, Option.bind_some, ih,
      List.append_assoc, List.singleton_append]

/-- A literal string between its parentheses is read as its value. -/
theorem Lexer.run_literal {spelling value : List UInt8} (spells : Spells spelling value)
    (tokens : List Token) :
    Lexer.run ⟨.between, tokens⟩ (octet '(' :: spelling ++ [octet ')']) =
      some ⟨.between, tokens ++ [.literal value]⟩ := by
  have opens : Lexer.step ⟨.between, tokens⟩ (octet '(') = some ⟨.literal 0 false [], tokens⟩ := rfl
  have closes : Lexer.step ⟨.literal 0 false value, tokens⟩ (octet ')') =
      some ⟨.between, tokens ++ [.literal value]⟩ := rfl
  rw [List.cons_append, run_cons, opens, Option.bind_some, run_append, run_spelling spells,
    Option.bind_some, List.nil_append, run_cons, closes, Option.bind_some, run_nil]

end Mineru.Logic.Content
