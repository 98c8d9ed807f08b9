import Mathlib

/-!
# Text

A Rust `str` is a sequence of Unicode scalar values stored in UTF-8. The model keeps the sequence:
`Text` is a list of `Char`, and `utf8Len` is what `str::len` counts. The operations here are the
ones of the standard library that the modelled code calls, under the library's names.
-/

set_option autoImplicit false

namespace Mineru

/-- The characters of a `str`. -/
abbrev Text := List Char

/-- A string literal of the source. -/
abbrev text (s : String) : Text := s.toList

/-- Membership of a `str` in a list of them. -/
instance decidableMemText (t : Text) (ts : List Text) : Decidable (t ∈ ts) :=
  List.instDecidableMemOfLawfulBEq t ts

/-- `str::len`: the bytes of the UTF-8 encoding. -/
def utf8Len (t : Text) : Nat := (t.map Char.utf8Size).sum

@[simp] theorem utf8Len_nil : utf8Len [] = 0 := rfl

@[simp] theorem utf8Len_cons (c : Char) (t : Text) :
    utf8Len (c :: t) = c.utf8Size + utf8Len t := rfl

@[simp] theorem utf8Len_append (t u : Text) : utf8Len (t ++ u) = utf8Len t + utf8Len u := by
  simp only [utf8Len, List.map_append, List.sum_append]

/-- `char::is_whitespace`: the Unicode property `White_Space`. -/
def isWhitespace (c : Char) : Bool :=
  let n := c.toNat
  (0x09 ≤ n && n ≤ 0x0d) || n == 0x20 || n == 0x85 || n == 0xa0 || n == 0x1680 ||
    (0x2000 ≤ n && n ≤ 0x200a) || n == 0x2028 || n == 0x2029 || n == 0x202f || n == 0x205f ||
    n == 0x3000

/-- `str::trim_matches` with a predicate on characters. -/
def trimMatches (p : Char → Bool) (t : Text) : Text :=
  ((t.dropWhile p).reverse.dropWhile p).reverse

/-- `str::trim`. -/
def trim (t : Text) : Text := trimMatches isWhitespace t

/-- `str::split_at` at a byte offset, `none` off a character boundary or past the end: the test
behind `str::get` with an offset. -/
def splitAtByte : Nat → Text → Option (Text × Text)
  | 0, t => some ([], t)
  | _ + 1, [] => none
  | n + 1, c :: t =>
    if c.utf8Size ≤ n + 1 then
      (splitAtByte (n + 1 - c.utf8Size) t).map fun (a, b) => (c :: a, b)
    else none
termination_by _ t => t.length

/-- The bytes of a digest under `{:02x}`. -/
def hexDigest (bytes : List UInt8) : Text :=
  bytes.flatMap fun b => [Nat.digitChar (b.toNat / 16), Nat.digitChar (b.toNat % 16)]

theorem hexDigest_length (bytes : List UInt8) : (hexDigest bytes).length = 2 * bytes.length := by
  induction bytes with
  | nil => rfl
  | cons b bytes ih =>
    show (hexDigest bytes).length + 2 = 2 * (bytes.length + 1)
    rw [ih]
    omega

theorem nibble_inj : ∀ a < 16, ∀ b < 16, Nat.digitChar a = Nat.digitChar b → a = b := by decide

/-- Different bytes are written differently. -/
theorem hexDigest_inj {a b : List UInt8} (same : hexDigest a = hexDigest b) : a = b := by
  induction a generalizing b with
  | nil =>
    cases b with
    | nil => rfl
    | cons => cases same
  | cons x a ih =>
    cases b with
    | nil => cases same
    | cons y b =>
      obtain ⟨high, rest⟩ := List.cons.inj same
      obtain ⟨low, rest⟩ := List.cons.inj rest
      have hx := x.toNat_lt
      have hy := y.toNat_lt
      have h1 := nibble_inj _ (by omega) _ (by omega) high
      have h2 := nibble_inj _ (by omega) _ (by omega) low
      rw [show x = y from UInt8.toNat.inj (by omega), ih rest]

/-! ## Lines -/

/-- `strip_suffix('\r')`. -/
def stripCr (line : Text) : Text := if line.getLast? = some '\r' then line.dropLast else line

/-- `str::lines`: a line ends with `\n` or `\r\n`, the last one may have no end. -/
def linesOf (t : Text) : List Text :=
  let parts := t.splitOn '\n'
  parts.dropLast.map stripCr ++ parts.getLast?.toList.filter fun line => line ≠ []

end Mineru
