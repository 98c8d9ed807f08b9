import Mineru.Text
import Mineru.Logic.Brackets

/-!
# Repairing equations

`normalize_equation` of `vlm_postprocess.rs` takes the delimiters off a formula, balances its `\left`
and `\right` commands, and removes the braces without a partner. Offsets count characters.
-/

set_option autoImplicit false

namespace Mineru.Vlm

open Logic

/-! ## Commands -/

/-- The Unicode class `\w` of the patterns. -/
structure WordChars where
  isWord : Char → Bool
  ascii : ∀ c, c.toNat < 128 → isWord c = (c.isAlphanum || c == '_')

inductive Command where
  | left
  | right
  deriving DecidableEq, Repr

def Command.word : Command → Text
  | left => text "\\left"
  | right => text "\\right"

/-- A word at the beginning of a text, with the boundary `\b` behind its last letter. -/
def startsWord (w : WordChars) (word t : Text) : Bool :=
  word.isPrefixOf t && (t.drop word.length).head?.all fun c => !w.isWord c

/-- `\\(?:left|right)\b` at the beginning of a text. -/
def commandAt (w : WordChars) (t : Text) : Option Command :=
  if startsWord w Command.left.word t then some .left
  else if startsWord w Command.right.word t then some .right
  else none

/-- The commands of a text, each with the text before it, and the text behind the last one. -/
abbrev Pieces := List (Text × Command) × Text

/-- A character before the pieces. -/
def Pieces.ahead (c : Char) : Pieces → Pieces
  | ([], tail) => ([], c :: tail)
  | ((gap, command) :: found, tail) => ((c :: gap, command) :: found, tail)

/-- `find_iter` for the commands. So many characters belong to the last match still. -/
def findCommands (w : WordChars) : Nat → Text → Pieces
  | _, [] => ([], [])
  | skip + 1, _ :: t => findCommands w skip t
  | 0, c :: t =>
    match commandAt w (c :: t) with
    | some command =>
      let rest := findCommands w (command.word.length - 1) t
      (([], command) :: rest.1, rest.2)
    | none => (findCommands w 0 t).ahead c

/-- `\\begin\s*\{` or `\\end\s*\{` at the beginning of a text. -/
def environmentAt (word t : Text) : Bool :=
  word.isPrefixOf t && ((t.drop word.length).dropWhile isWhitespace).head? == some '\x7b'

/-- `find_iter(…).count()`: the matches do not overlap. -/
def countEnvironments (word : Text) : Text → Nat
  | [] => 0
  | c :: t => (if environmentAt word (c :: t) then 1 else 0) + countEnvironments word t

def beginWord : Text := text "\\begin"

def endWord : Text := text "\\end"

/-- The loop's variables. -/
structure Commands where
  output : Text
  opened : Nat

def Commands.next (s : Commands) : Text × Command → Commands := fun (gap, command) =>
  let output := s.output ++ gap
  let output := if command = .right ∧ s.opened = 0 then output ++ text "\\left." else output
  { output := output ++ command.word
    opened := match command with
      | .left => s.opened + 1
      | .right => s.opened - 1 }

def normalizeLeftRight (w : WordChars) (value : Text) : Text :=
  if countEnvironments beginWord value ≠ countEnvironments endWord value then value
  else
    let (found, tail) := findCommands w 0 value
    let s := found.foldl Commands.next ⟨[], 0⟩
    s.output ++ tail ++ (List.replicate s.opened (text "\\right.")).flatten

/-! ## Braces -/

/-- The variables of the loop over the characters. -/
structure BraceScan where
  slashes : Nat
  opens : List Nat
  remove : List Nat

def BraceScan.next (s : BraceScan) (index : Nat) (character : Char) : BraceScan :=
  if character = '\\' then { s with slashes := s.slashes + 1 }
  else
    let escaped := s.slashes % 2 = 1
    let s := { s with slashes := 0 }
    if character = '\x7b' ∧ ¬ escaped then { s with opens := index :: s.opens }
    else if character = '\x7d' ∧ ¬ escaped then
      match s.opens with
      | [] => { s with remove := index :: s.remove }
      | _ :: opens => { s with opens }
    else s

/-- The loop, from a character with an index on. -/
def scanBraces : Nat → BraceScan → Text → BraceScan
  | _, s, [] => s
  | index, s, character :: t => scanBraces (index + 1) (s.next index character) t

def removeUnmatchedBraces (value : Text) : Text :=
  let s := scanBraces 0 ⟨0, [], []⟩ value
  Brackets.without (s.opens ++ s.remove) 0 value

/-! ## The whole repair -/

/-- `outer_equation_delimiter`: the text between a pair of delimiters. -/
def outerEquationDelimiter (value : Text) : Option Text :=
  [(text "$$", text "$$"), (text "\\[", text "\\]"), (text "\\(", text "\\)")].findSome?
    fun (opening, closing) =>
      if utf8Len value ≥ utf8Len opening + utf8Len closing ∧ opening.isPrefixOf value ∧
        closing.isSuffixOf value then
        some ((value.drop opening.length).take (value.length - opening.length - closing.length))
      else none

theorem outerEquationDelimiter_shorter {value inner : Text}
    (found : outerEquationDelimiter value = some inner) : inner.length < value.length := by
  obtain ⟨⟨opening, closing⟩, among, is⟩ := List.exists_of_findSome?_eq_some found
  have two : opening.length = 2 := by
    simp only [List.mem_cons, List.not_mem_nil, or_false, Prod.mk.injEq] at among
    rcases among with ⟨rfl, _⟩ | ⟨rfl, _⟩ | ⟨rfl, _⟩ <;> decide
  dsimp only at is
  split_ifs at is with fits
  obtain rfl := Option.some.inj is
  have long : opening.length ≤ value.length := (List.isPrefixOf_iff_prefix.mp fits.2.1).length_le
  rw [List.length_take]
  omega

theorem length_trim_le (t : Text) : (trim t).length ≤ t.length := by
  have dropped : ∀ u : Text, (u.dropWhile isWhitespace).length ≤ u.length :=
    fun u => (List.dropWhile_sublist isWhitespace).length_le
  calc (trim t).length
      ≤ (t.dropWhile isWhitespace).length := by
        simpa [trim, trimMatches] using dropped (t.dropWhile isWhitespace).reverse
    _ ≤ t.length := dropped t

/-- The loop of `normalize_equation`. -/
def stripDelimiters (value : Text) : Text :=
  match _found : outerEquationDelimiter value with
  | some inner => stripDelimiters (trim inner)
  | none => value
termination_by value.length
decreasing_by
  exact (length_trim_le inner).trans_lt (outerEquationDelimiter_shorter _found)

def normalizeEquation (w : WordChars) (value : Text) : Text :=
  removeUnmatchedBraces (normalizeLeftRight w (stripDelimiters (trim value)))

end Mineru.Vlm
