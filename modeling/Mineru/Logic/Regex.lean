import Mineru.Logic.Matches

/-!
# Regular expressions

The matches of an expression at a place of a text, in the order in which they are preferred: the first
alternative before the second one, a greedy repetition from its longest run down, a lazy one from its
shortest run up. The match that counts is the first one at the first place that has any.
-/

set_option autoImplicit false

namespace Mineru.Logic.Regex

/-- A place in a text. -/
structure Place where
  prev : Option Char
  rest : List Char

inductive Expr where
  | empty
  | one (p : Char → Bool)
  | seq (a b : Expr)
  | either (a b : Expr)
  | many (greedy : Bool) (p : Char → Bool)
  | group (number : Nat) (a : Expr)
  | lineStart
  | lineEnd
  | textEnd

/-- What the groups have matched. -/
abbrev Groups := List (Nat × List Char)

/-- The places behind a run of such characters, from the shortest run up. -/
def runs (p : Char → Bool) : Option Char → List Char → List Place
  | prev, [] => [⟨prev, []⟩]
  | prev, c :: t => ⟨prev, c :: t⟩ :: if p c then runs p (some c) t else []

/-- The text between two places. -/
def between (start stop : Place) : List Char :=
  start.rest.take (start.rest.length - stop.rest.length)

/-- The places behind a match, with its groups, in the order of preference. -/
def outcomes : Expr → Place → List (Place × Groups)
  | .empty, place => [(place, [])]
  | .one p, place =>
    match place.rest with
    | [] => []
    | c :: t => if p c then [(⟨some c, t⟩, [])] else []
  | .seq a b, place => (outcomes a place).flatMap fun (middle, first) =>
    (outcomes b middle).map fun (stop, second) => (stop, first ++ second)
  | .either a b, place => outcomes a place ++ outcomes b place
  | .many greedy p, place =>
    let places := runs p place.prev place.rest
    (if greedy then places.reverse else places).map fun stop => (stop, [])
  | .group number a, place => (outcomes a place).map fun (stop, groups) =>
    (stop, (number, between place stop) :: groups)
  | .lineStart, place => if place.prev.all fun c => c = '\n' then [(place, [])] else []
  | .lineEnd, place => if place.rest.head?.all fun c => c = '\n' then [(place, [])] else []
  | .textEnd, place => if place.rest.isEmpty then [(place, [])] else []

/-- The groups and the length of the match at the beginning of a text. -/
def matchAt (e : Expr) : Matches.Pattern Char Groups := fun t =>
  (outcomes e ⟨none, t⟩).head?.map fun (stop, groups) => (groups, t.length - stop.rest.length)

/-- The first match, with the text before it and the text behind it. -/
structure Found where
  before : List Char
  groups : Groups
  after : List Char

/-- `Regex::captures` and `Regex::find`. -/
def find (e : Expr) : Option Char → List Char → Option Found
  | prev, t =>
    match (outcomes e ⟨prev, t⟩).head? with
    | some (stop, groups) => some ⟨[], groups, stop.rest⟩
    | none =>
      match t with
      | [] => none
      | c :: t => (find e (some c) t).map fun found => { found with before := c :: found.before }

/-- `Regex::replace_all`, for an expression whose matches are not empty; the replacement is given the
match and its groups. -/
def replaceAll (e : Expr) (replacement : List Char → Groups → List Char) (t : List Char) :
    List Char :=
  let pattern : Matches.Pattern Char (List Char) := fun t =>
    (matchAt e t).map fun (groups, size) => (replacement (t.take size) groups, size)
  let (found, tail) := Matches.cut pattern 0 t
  (found.flatMap fun (gap, replaced) => gap ++ replaced) ++ tail

/-! ## Expressions -/

def Groups.get (groups : Groups) (number : Nat) : Option (List Char) := groups.lookup number

def seqs : List Expr → Expr
  | [] => .empty
  | e :: es => .seq e (seqs es)

def eithers : List Expr → Expr
  | [] => .empty
  | [e] => e
  | e :: es => .either e (eithers es)

def optional (e : Expr) : Expr := .either e .empty

def plus (p : Char → Bool) : Expr := .seq (.one p) (.many true p)

def literal (word : List Char) : Expr := seqs (word.map fun c => .one fun d => d = c)

/-- Whether two characters fold to the same letter, for the first one in ASCII. -/
def folds (c d : Char) : Bool :=
  c.toLower == d.toLower || (c.toLower == 's' && d == 'ſ') || (c.toLower == 'k' && d == '\u212a')

/-- A word under `(?i)`. -/
def folded (word : List Char) : Expr := seqs (word.map fun c => .one (folds c))

end Mineru.Logic.Regex
