import Mineru.Laws.Builders.Entities

/-!
# `html.unescape` of Python

The reference for `html_unescape`, as Python's library has it: every match of the regular expression
`&(#[0-9]+;?|#[xX][0-9a-fA-F]+;?|[^\t\n\f <&#;]{1,32};?)` is replaced by `replaceCharref`. The Rust
code leaves a name alone that a semicolon ends and that is not known, where Python tries its
beginnings; `amendedCharref` has that rule, and with it the two agree on ASCII texts
(`html_unescape_amended`).

The two are compared reference by reference. `charref_name` is what the expression matches at an
ampersand, and both tables are searched for the same beginnings of it (`name_closed` tells whether a
semicolon follows). For numbers the table of the characters from 0x80 to 0x9f is the same on both
sides (`invalidCharref_c1`).

The tables of names are parameters, with what the WHATWG list promises of them (`Whatwg`). Texts
beyond ASCII are not compared, because the source may panic on them.
-/

set_option autoImplicit false

namespace Mineru.Builders

open Logic

/-! ## The reference -/

/-- `html.entities.html5`: the names with a semicolon, and some without. -/
abbrev Html5 := Text → Option Text

/-- The tables of the code hold the names of `html5`. -/
structure Whatwg (entities : NamedEntities) (html5 : Html5) : Prop where
  closed : ∀ name, ';' ∉ name → html5 (name ++ [';']) = namedEntity entities name
  legacy : ∀ name, ';' ∉ name →
    html5 name = if legacyEntity name then namedEntity entities name else none

/-- `[^\t\n\f <&#;]`. -/
def isCharrefChar (c : Char) : Bool := c ∉ ['\t', '\n', '\x0c', ' ', '<', '&', '#', ';']

/-- `[0-9]`. -/
def isDecimal (c : Char) : Bool := '0' ≤ c && c ≤ '9'

/-- `[0-9a-fA-F]`. -/
def isHex (c : Char) : Bool := isDecimal c || ('a' ≤ c && c ≤ 'f') || ('A' ≤ c && c ≤ 'F')

/-- A run and the semicolon behind it, if there is one. -/
def withSemicolon (run back : Text) : Text := if back.head? = some ';' then run ++ [';'] else run

/-- The group of the regular expression, behind an ampersand. -/
def charref (after : Text) : Option Text :=
  if after.head? = some '#' then
    let digits := after.tail.takeWhile isDecimal
    let hex := after.tail.tail.takeWhile isHex
    if digits ≠ [] then some ('#' :: withSemicolon digits (after.tail.dropWhile isDecimal))
    else (after.tail.head?.filter fun x => (x = 'x' ∨ x = 'X') ∧ hex ≠ []).map fun x =>
      '#' :: x :: withSemicolon hex (after.tail.tail.dropWhile isHex)
  else
    let name := (after.take 32).takeWhile isCharrefChar
    if name = [] then none else some (withSemicolon name (after.drop name.length))

/-- `_invalid_charrefs` from 0x80 on. -/
def c1Text : Text :=
  text ("\u20ac\u0081\u201a\u0192\u201e\u2026\u2020\u2021\u02c6\u2030\u0160\u2039" ++
    "\u0152\u008d\u017d\u008f\u0090\u2018\u2019\u201c\u201d\u2022\u2013\u2014" ++
    "\u02dc\u2122\u0161\u203a\u0153\u009d\u017e\u0178")

/-- `_invalid_charrefs`. -/
def invalidCharref (number : Nat) : Option Char :=
  if number = 0 then some '\ufffd'
  else if number = 0x0d then some '\r'
  else if 0x80 ≤ number then c1Text[number - 0x80]?
  else none

/-- `_invalid_codepoints`. -/
def invalidCodepoint (number : Nat) : Prop :=
  (0x1 ≤ number ∧ number ≤ 0x8) ∨ (0xe ≤ number ∧ number ≤ 0x1f) ∨
    (0x7f ≤ number ∧ number ≤ 0x9f) ∨ (0xfdd0 ≤ number ∧ number ≤ 0xfdef) ∨ number = 0xb ∨
    ∃ plane ≤ 16, number = plane * 0x10000 + 0xfffe ∨ number = plane * 0x10000 + 0xffff

instance (number : Nat) : Decidable (invalidCodepoint number) :=
  inferInstanceAs (Decidable (_ ∨ _))

/-- The replacement of a number. -/
def replaceNumber (number : Nat) : Text :=
  match invalidCharref number with
  | some c => [c]
  | none =>
    if (0xd800 ≤ number ∧ number ≤ 0xdfff) ∨ number > 0x10ffff then ['\ufffd']
    else if invalidCodepoint number then []
    else [Char.ofNat number]

/-- `rstrip(';')`. -/
def stripSemicolons (t : Text) : Text := (t.reverse.dropWhile (· = ';')).reverse

/-- The number of a numeric group, without its `#`. -/
def charrefNumber (digits : Text) : Nat :=
  if digits.head? = some 'x' ∨ digits.head? = some 'X' then
    digitsValue 16 (stripSemicolons digits.tail)
  else digitsValue 10 (stripSemicolons digits)

/-- The longest beginning of the group that is a name, of `n` characters at most and two at least,
replaced. -/
def longestName (html5 : Html5) (group : Text) : Nat → Option Text
  | 0 => none
  | n + 1 =>
    if n = 0 then none
    else match html5 (group.take (n + 1)) with
      | some value => some (value ++ group.drop (n + 1))
      | none => longestName html5 group n

/-- `_replace_charref`. -/
def replaceCharref (html5 : Html5) (group : Text) : Text :=
  if group.head? = some '#' then replaceNumber (charrefNumber group.tail)
  else ((html5 group).or (longestName html5 group (group.length - 1))).getD ('&' :: group)

/-- The replacement of the code: a name that a semicolon ends stands for itself or for nothing. -/
def amendedCharref (html5 : Html5) (group : Text) : Text :=
  if group.head? ≠ some '#' ∧ group.getLast? = some ';' then (html5 group).getD ('&' :: group)
  else replaceCharref html5 group

/-- `re.sub`, where `skip` characters belong to the last match. -/
def substitute (replace : Text → Text) : Nat → Text → Text
  | _, [] => []
  | skip + 1, _ :: rest => substitute replace skip rest
  | 0, c :: rest =>
    if c = '&' then
      match charref rest with
      | some group => replace group ++ substitute replace group.length rest
      | none => c :: substitute replace 0 rest
    else c :: substitute replace 0 rest

/-- `html.unescape`. -/
def pythonUnescape (html5 : Html5) (value : Text) : Text :=
  substitute (replaceCharref html5) 0 value

/-! ## Numbers -/

/-- What the proofs below read off the tables, in one evaluation. -/
theorem entity_tables :
    ((List.range 32).all fun k => decide (c1Text[k]? =
      (c1Characters.find? fun row => row.1 = 0x80 + k).map Prod.snd)) = true ∧
    c1Text.length = 32 ∧
    (c1Characters.all fun row => decide (0x80 ≤ row.1 ∧ row.1 ≤ 0x9f)) = true ∧
    (legacyNames.all fun n => decide (1 < (text n).length)) = true := by
  decide +kernel

theorem invalidCharref_c1 : ∀ k < 32, c1Text[k]? =
    (c1Characters.find? fun row => row.1 = 0x80 + k).map Prod.snd := by
  intro k lt
  exact of_decide_eq_true (List.all_eq_true.mp entity_tables.1 k (List.mem_range.mpr lt))

theorem c1Text_length : c1Text.length = 32 := entity_tables.2.1

theorem c1Characters_range {number : Nat} {row : Nat × Char}
    (h : c1Characters.find? (fun row => row.1 = number) = some row) :
    0x80 ≤ number ∧ number ≤ 0x9f := by
  have mem := List.mem_of_find?_eq_some h
  have same : row.1 = number := by simpa using List.find?_some h
  rw [← same]
  exact of_decide_eq_true (List.all_eq_true.mp entity_tables.2.2.1 row mem)

theorem plane_end {number : Nat} (le : number ≤ 0x10ffff) :
    (number % 0x10000 = 0xfffe ∨ number % 0x10000 = 0xffff) ↔
      ∃ plane ≤ 16, number = plane * 0x10000 + 0xfffe ∨ number = plane * 0x10000 + 0xffff := by
  constructor
  · intro h
    exact ⟨number / 0x10000, by omega, by omega⟩
  · intro ⟨plane, _, h⟩
    omega

/-- The two tables agree. -/
theorem invalidCharref_eq {number : Nat} (zero : number ≠ 0) (carriage : number ≠ 0x0d) :
    invalidCharref number = (c1Characters.find? fun row => row.1 = number).map Prod.snd := by
  unfold invalidCharref
  rw [if_neg zero, if_neg carriage]
  by_cases c1 : 0x80 ≤ number ∧ number ≤ 0x9f
  · obtain ⟨k, rfl⟩ := Nat.exists_eq_add_of_le c1.1
    rw [if_pos c1.1, Nat.add_sub_cancel_left, invalidCharref_c1 k (by omega)]
  · have outside : (if 0x80 ≤ number then c1Text[number - 0x80]? else none) = none := by
      split
      · rw [List.getElem?_eq_none_iff, c1Text_length]
        omega
      · rfl
    rw [outside]
    cases found : c1Characters.find? (fun row => row.1 = number) with
    | none => rfl
    | some row => exact absurd (c1Characters_range found) c1

/-- The rules for numbers are those of Python. -/
theorem pythonNumericReference_eq (number : Nat) :
    pythonNumericReference number = replaceNumber number := by
  by_cases zero : number = 0
  · subst zero
    rfl
  · by_cases carriage : number = 0x0d
    · subst carriage
      rfl
    · unfold pythonNumericReference replaceNumber
      rw [invalidCharref_eq zero carriage]
      cases c1Characters.find? (fun row => row.1 = number) with
      | some row => rfl
      | none =>
        dsimp only [Option.map_none]
        by_cases range : (0xd800 ≤ number ∧ number ≤ 0xdfff) ∨ number > 0x10ffff
        · rw [if_pos (Or.inr range), if_pos range]
        · have inside : ¬ (number = 0 ∨ (0xd800 ≤ number ∧ number ≤ 0xdfff) ∨ number > 0x10ffff) :=
            fun h => h.elim zero range
          rw [if_neg inside, if_neg range]
          refine if_congr ?_ rfl rfl
          unfold invalidCodepoint
          rw [← plane_end (by omega)]
          omega

/-- A number is read and replaced alike on both sides, an overflow included: Rust stops reading
where Python has a number beyond all characters. -/
theorem fromStrRadix_eq (radix : Nat) (digits : Text) :
    pythonNumericReference (fromStrRadix radix digits) = replaceNumber (digitsValue radix digits) := by
  rw [← pythonNumericReference_eq]
  unfold fromStrRadix
  dsimp only
  split
  · rfl
  · -- both numbers are past the last code point
    have large : ∀ number, 0x10ffff < number → pythonNumericReference number = ['\ufffd'] := by
      intro number lt
      have missing : c1Characters.find? (fun row => row.1 = number) = none := by
        cases found : c1Characters.find? (fun row => row.1 = number) with
        | none => rfl
        | some row =>
          have := c1Characters_range found
          omega
      unfold pythonNumericReference
      rw [missing]
      exact if_pos (Or.inr (Or.inr lt))
    rw [large _ (by omega), large _ (by omega)]

/-! ## ASCII texts -/

/-- A range of ASCII characters is a range of bytes. -/
theorem between_ascii {low c high : Char} (hl : low.toNat < 128) (hc : c.toNat < 128)
    (hh : high.toNat < 128) :
    (decide (byteOf low ≤ byteOf c) && decide (byteOf c ≤ byteOf high)) =
      (decide (low ≤ c) && decide (c ≤ high)) := by
  have le (a b : Char) (ha : a.toNat < 128) (hb : b.toNat < 128) :
      decide (byteOf a ≤ byteOf b) = decide (a ≤ b) := by
    apply Bool.eq_iff_iff.mpr
    rw [decide_eq_true_iff, decide_eq_true_iff, UInt8.le_iff_toNat_le, byteOf_toNat ha,
      byteOf_toNat hb]
    exact Iff.rfl
  rw [le low c hl hc, le c high hc hh]

theorem isDigitChar_ten {c : Char} (ascii : c.toNat < 128) : isDigitChar 10 c = isDecimal c := by
  have digit : isDigitByte 10 (byteOf c) = isDecimal c :=
    (Bool.or_false _).trans (@between_ascii '0' c '9' (by decide) ascii (by decide))
  rw [isDigitChar, decide_eq_true ascii, Bool.true_and, digit]

theorem isDigitChar_sixteen {c : Char} (ascii : c.toNat < 128) : isDigitChar 16 c = isHex c := by
  have digit := @between_ascii '0' c '9' (by decide) ascii (by decide)
  have upper := @between_ascii 'A' c 'F' (by decide) ascii (by decide)
  have lower := @between_ascii 'a' c 'f' (by decide) ascii (by decide)
  have all : isDigitByte 16 (byteOf c) =
      (isDecimal c || (('A' ≤ c && c ≤ 'F') || ('a' ≤ c && c ≤ 'f'))) := by
    rw [isDecimal, ← digit, ← upper, ← lower]
    rw [isDigitByte, decide_eq_true (rfl : 16 = 16), Bool.true_and]
    rfl
  rw [isDigitChar, decide_eq_true ascii, Bool.true_and, all, isHex, Bool.or_assoc,
    Bool.or_comm (decide ('A' ≤ c) && _)]

theorem isNameByte_ascii {c : Char} (ascii : c.toNat < 128) :
    isNameByte (byteOf c) = isCharrefChar c := by
  have stops : ([0x09, 0x0a, 0x0c, 0x20, 0x3c, 0x26, 0x23, 0x3b] : List UInt8) =
      ['\t', '\n', '\x0c', ' ', '<', '&', '#', ';'].map byteOf := rfl
  have low : ∀ d ∈ ['\t', '\n', '\x0c', ' ', '<', '&', '#', ';'], d.toNat < 128 := by
    intro d mem
    fin_cases mem <;> decide
  unfold isNameByte isCharrefChar
  rw [stops, decide_eq_decide, List.mem_map]
  constructor
  · exact fun out mem => out ⟨c, mem, rfl⟩
  · rintro out ⟨d, mem, same⟩
    exact out ((byteOf_inj (low d mem) ascii).mp same ▸ mem)

/-- Two tests of characters that agree on ASCII take the same beginning of an ASCII text. -/
theorem takeWhile_ascii {p q : Char → Bool} (agree : ∀ c : Char, c.toNat < 128 → p c = q c)
    {t : Text} (ascii : ∀ c ∈ t, c.toNat < 128) :
    t.takeWhile p = t.takeWhile q ∧ t.dropWhile p = t.dropWhile q := by
  induction t with
  | nil => exact ⟨rfl, rfl⟩
  | cons c t ih =>
    obtain ⟨take, drop⟩ := ih fun d mem => ascii d (List.mem_cons_of_mem c mem)
    have same := agree c (ascii c List.mem_cons_self)
    constructor
    · rw [List.takeWhile_cons, List.takeWhile_cons, same, take]
    · rw [List.dropWhile_cons, List.dropWhile_cons, same, drop]

theorem stripSemicolons_with {run : Text} (clear : ';' ∉ run) (back : Text) :
    stripSemicolons (withSemicolon run back) = run := by
  have plain : run.reverse.dropWhile (· = ';') = run.reverse := by
    cases reversed : run.reverse with
    | nil => rfl
    | cons c rest =>
      have mem : c ∈ run := List.mem_reverse.mp (reversed ▸ List.mem_cons_self)
      rw [List.dropWhile_cons_of_neg]
      rw [decide_eq_true_iff]
      exact fun same => clear (same ▸ mem)
  unfold stripSemicolons withSemicolon
  split
  · rw [List.reverse_append, List.reverse_singleton, List.singleton_append,
      List.dropWhile_cons_of_pos (by decide), plain, List.reverse_reverse]
  · rw [plain, List.reverse_reverse]

theorem withSemicolon_length (run back : Text) : (withSemicolon run back).length =
    run.length + if back.head? = some ';' then 1 else 0 := by
  unfold withSemicolon
  split
  · rw [List.length_append, List.length_singleton]
  · rfl

/-- The digits of the code are the digits of the regular expression. -/
theorem digitsReference_eq {radix : Nat} {p : Char → Bool}
    (agree : ∀ c : Char, c.toNat < 128 → isDigitChar radix c = p c) (n : Nat) {t : Text}
    (ascii : ∀ c ∈ t, c.toNat < 128) :
    digitsReference radix n t = if t.takeWhile p = [] then none
      else some (n + (withSemicolon (t.takeWhile p) (t.dropWhile p)).length,
        replaceNumber (digitsValue radix (t.takeWhile p))) := by
  obtain ⟨take, drop⟩ := takeWhile_ascii agree ascii
  unfold digitsReference
  dsimp only
  rw [take, drop, withSemicolon_length, fromStrRadix_eq, Nat.add_assoc]

theorem takeWhile_clear {p : Char → Bool} {c : Char} (other : p c = false) (t : Text) :
    c ∉ t.takeWhile p := by
  intro mem
  have := List.mem_takeWhile_imp mem
  rw [other] at this
  cases this

/-- A numeric reference is what the regular expression matches. -/
theorem numericChars_eq {t : Text} (ascii : ∀ c ∈ t, c.toNat < 128) :
    numericChars t = (charref ('#' :: t)).map fun group =>
      (1 + group.length, replaceNumber (charrefNumber group.tail)) := by
  unfold numericChars charref
  rw [List.head?_cons, if_pos rfl]
  dsimp only [List.tail_cons]
  by_cases digits : t.takeWhile isDecimal = []
  · rw [if_neg (not_not.mpr digits)]
    by_cases hex : t.head? = some 'x' ∨ t.head? = some 'X'
    · obtain ⟨x, tail, rfl⟩ : ∃ x tail, t = x :: tail := by
        cases t with
        | nil => rcases hex with hex | hex <;> cases hex
        | cons x tail => exact ⟨x, tail, rfl⟩
      have isX : x = 'x' ∨ x = 'X' := by
        rcases hex with hex | hex
        · exact Or.inl (Option.some.inj hex)
        · exact Or.inr (Option.some.inj hex)
      rw [if_pos hex, List.tail_cons, digitsReference_eq (fun c => isDigitChar_sixteen) 3
        fun c mem => ascii c (List.mem_cons_of_mem x mem)]
      by_cases none : tail.takeWhile isHex = []
      · rw [if_pos none, List.head?_cons, Option.filter_some_neg]
        · rfl
        · rw [decide_eq_false_iff_not]
          exact fun h => h.2 none
      · have kept : (some x).filter (fun x => decide ((x = 'x' ∨ x = 'X') ∧
            tail.takeWhile isHex ≠ [])) = some x :=
          Option.filter_some_pos (decide_eq_true ⟨isX, none⟩)
        rw [List.head?_cons] at hex
        rw [if_neg none, List.head?_cons, kept]
        simp only [Option.map_some, List.length_cons, List.tail_cons, charrefNumber,
          List.head?_cons, if_pos hex,
          stripSemicolons_with (takeWhile_clear (p := isHex) (by decide) tail)]
        congr 2
        omega
    · rw [if_neg hex, digitsReference_eq (fun c => isDigitChar_ten) 2 ascii, if_pos digits]
      cases t with
      | nil => rfl
      | cons x tail =>
        rw [List.head?_cons, Option.filter_some_neg]
        · rfl
        · rw [decide_eq_false_iff_not]
          intro h
          refine hex (h.1.imp ?_ ?_) <;> exact fun same => congrArg some same
  · have decimal : ¬ (t.head? = some 'x' ∨ t.head? = some 'X') := by
      intro hex
      rcases hex with hex | hex <;> obtain ⟨tail, rfl⟩ := List.head?_eq_some_iff.mp hex <;>
        exact digits rfl
    have group : ¬ ((withSemicolon (t.takeWhile isDecimal) (t.dropWhile isDecimal)).head? = some 'x' ∨
        (withSemicolon (t.takeWhile isDecimal) (t.dropWhile isDecimal)).head? = some 'X') := by
      obtain ⟨c, run, shape⟩ := List.exists_cons_of_ne_nil digits
      have digit : isDecimal c = true :=
        List.mem_takeWhile_imp (shape ▸ List.mem_cons_self : c ∈ t.takeWhile isDecimal)
      have first : (withSemicolon (c :: run) (t.dropWhile isDecimal)).head? = some c := by
        unfold withSemicolon
        split <;> rfl
      rw [shape, first]
      intro hex
      rcases hex with hex | hex <;> obtain rfl := Option.some.inj hex <;> cases digit
    rw [if_neg decimal, digitsReference_eq (fun c => isDigitChar_ten) 2 ascii, if_neg digits,
      if_pos digits]
    simp only [Option.map_some, List.length_cons, List.tail_cons, charrefNumber, if_neg group,
      stripSemicolons_with (takeWhile_clear (p := isDecimal) (by decide) t)]
    congr 2
    omega

/-! ## Names -/

/-- What the expression matches at a name, with its semicolon if there is one. -/
theorem charref_name {after : Text} (hash : after.head? ≠ some '#') : charref after =
    if (after.take 32).takeWhile isCharrefChar = [] then none
    else some (withSemicolon ((after.take 32).takeWhile isCharrefChar)
      (after.drop ((after.take 32).takeWhile isCharrefChar).length)) := if_neg hash

/-- The bytes of the name are the name of the regular expression. -/
theorem nameBytes_ascii {after : Text} (ascii : ∀ c ∈ after, c.toNat < 128) :
    nameBytes after = ((after.take 32).takeWhile isCharrefChar).map byteOf := by
  unfold nameBytes
  rw [utf8_ascii ascii, ← List.map_take, List.takeWhile_map]
  congr 1
  exact (takeWhile_ascii (fun c low => isNameByte_ascii low)
    fun c mem => ascii c (List.mem_of_mem_take mem)).1

/-- Both sides see the semicolon at the same place. -/
theorem name_closed {after : Text} (ascii : ∀ c ∈ after, c.toNat < 128) (n : Nat) :
    (utf8 after)[n]? = some (byteOf ';') ↔ (after.drop n).head? = some ';' := by
  rw [utf8_ascii ascii, List.getElem?_map, List.head?_drop]
  constructor
  · intro h
    obtain ⟨c, there, same⟩ := Option.map_eq_some_iff.mp h
    rw [there, (byteOf_inj (ascii c (List.mem_of_getElem? there)) (by decide)).mp same]
  · intro h
    rw [h]
    rfl

section
variable {entities : NamedEntities} {html5 : Html5}

theorem legacyEntity_short {name : Text} (short : name.length ≤ 1) : legacyEntity name = false := by
  rw [Bool.eq_false_iff]
  intro legacy
  obtain ⟨n, mem, same⟩ := List.any_eq_true.mp legacy
  have long := of_decide_eq_true (List.all_eq_true.mp entity_tables.2.2.2 n mem)
  rw [of_decide_eq_true same] at long
  omega

/-- The loops over the beginnings of a name agree. -/
theorem legacyChars_eq (whatwg : Whatwg entities html5) {name : Text} (clear : ';' ∉ name)
    {n : Nat} (le : n ≤ name.length) : legacyChars entities name n = longestName html5 name n := by
  induction n with
  | zero => rfl
  | succ n ih =>
    have whole := ih (Nat.le_of_succ_le le)
    have start : ';' ∉ name.take (n + 1) := fun mem => clear (List.mem_of_mem_take mem)
    unfold legacyChars longestName
    rw [← whatwg.legacy _ start]
    by_cases zero : n = 0
    · subst zero
      have none : html5 (name.take 1) = none := by
        rw [whatwg.legacy _ start, legacyEntity_short (List.length_take_le 1 name)]
        rfl
      simp [none, legacyChars]
    · cases html5 (name.take (n + 1)) with
      | none => exact whole.trans (if_neg zero).symm
      | some known => exact (if_neg zero).symm

/-- A name without a semicolon. -/
theorem replaceCharref_open (whatwg : Whatwg entities html5) {name : Text} (clear : ';' ∉ name)
    (hash : name.head? ≠ some '#') (ne : name ≠ []) :
    replaceCharref html5 name = (legacyChars entities name name.length).getD ('&' :: name) := by
  unfold replaceCharref
  rw [if_neg hash]
  congr 1
  obtain ⟨n, len⟩ := Nat.exists_eq_succ_of_ne_zero (mt List.length_eq_zero_iff.mp ne)
  rw [legacyChars_eq whatwg clear le_rfl, len, Nat.succ_sub_one]
  have all : name.take (n + 1) = name := List.take_of_length_le len.le
  conv_rhs => unfold longestName
  rw [all]
  by_cases zero : n = 0
  · have none : html5 name = none := by
      rw [whatwg.legacy _ clear, legacyEntity_short (by omega)]
      rfl
    rw [if_pos zero, none, zero]
    rfl
  · rw [if_neg zero]
    cases html5 name with
    | none => rfl
    | some value =>
      have rest : name.drop (n + 1) = [] := List.drop_of_length_le len.le
      simp only [Option.some_or, rest, List.append_nil]

theorem withSemicolon_starts (run back : Text) : withSemicolon run back <+: run ++ back := by
  unfold withSemicolon
  split
  · next closed =>
    obtain ⟨rest, rfl⟩ := List.head?_eq_some_iff.mp closed
    exact ⟨rest, List.append_assoc _ _ _⟩
  · exact List.prefix_append _ _

/-- What the regular expression matches behind `&#`. -/
theorem charref_hash {t group : Text} (h : charref ('#' :: t) = some group) :
    group.head? = some '#' ∧ group <+: '#' :: t := by
  unfold charref at h
  rw [List.head?_cons, if_pos rfl] at h
  dsimp only [List.tail_cons] at h
  split at h
  · cases h
    refine ⟨rfl, (List.prefix_cons_inj '#').mpr ?_⟩
    have := withSemicolon_starts (t.takeWhile isDecimal) (t.dropWhile isDecimal)
    rwa [List.takeWhile_append_dropWhile] at this
  · obtain ⟨x, there, rfl⟩ := Option.map_eq_some_iff.mp h
    obtain ⟨first, -⟩ := Option.filter_eq_some_iff.mp there
    obtain ⟨tail, rfl⟩ := List.head?_eq_some_iff.mp first
    refine ⟨rfl, (List.prefix_cons_inj '#').mpr ((List.prefix_cons_inj x).mpr ?_)⟩
    have := withSemicolon_starts (tail.takeWhile isHex) (tail.dropWhile isHex)
    rwa [List.takeWhile_append_dropWhile] at this

theorem name_split (after : Text) : after = (after.take 32).takeWhile isCharrefChar ++
    after.drop ((after.take 32).takeWhile isCharrefChar).length := by
  have starts : (after.take 32).takeWhile isCharrefChar <+: after :=
    (List.takeWhile_prefix _).trans (List.take_prefix _ _)
  conv_lhs => rw [← List.take_append_drop ((after.take 32).takeWhile isCharrefChar).length after]
  rw [← List.prefix_iff_eq_take.mp starts]

/-- Two ways to write what follows the same number of characters. -/
theorem split_unique {after a b x y : Text} (one : after = a ++ x) (two : after = b ++ y)
    (len : a.length = b.length) : a = b ∧ x = y := List.append_inj (one.symm.trans two) len

/-- At an ampersand the code finds what the regular expression matches, or it finds nothing and the
match stands for itself. -/
theorem htmlReference_charref (whatwg : Whatwg entities html5) {after : Text}
    (ascii : ∀ c ∈ after, c.toNat < 128) :
    (charref after = none ∧ htmlReference entities ('&' :: after) = .ok none) ∨
    ∃ group back, charref after = some group ∧ after = group ++ back ∧
      (htmlReference entities ('&' :: after) =
          .ok (some (1 + group.length, amendedCharref html5 group)) ∨
        htmlReference entities ('&' :: after) = .ok none ∧
          amendedCharref html5 group = '&' :: group ∧ '&' ∉ group) := by
  rw [htmlReference_eq]
  by_cases hash : after.head? = some '#'
  · rw [if_pos hash]
    obtain ⟨t, rfl⟩ := List.head?_eq_some_iff.mp hash
    rw [List.tail_cons, numericChars_eq fun c mem => ascii c (List.mem_cons_of_mem _ mem)]
    cases found : charref ('#' :: t) with
    | none => exact Or.inl ⟨rfl, rfl⟩
    | some group =>
      obtain ⟨head, back, split⟩ := charref_hash found
      refine Or.inr ⟨group, back, rfl, split.symm, Or.inl ?_⟩
      unfold amendedCharref replaceCharref
      rw [if_neg (fun h => h.1 head), if_pos head]
      rfl
  · rw [if_neg hash, charref_name hash]
    have bytes := nameBytes_ascii ascii
    have split := name_split after
    have clear : ∀ c, isCharrefChar c = false → c ∉ (after.take 32).takeWhile isCharrefChar :=
      fun c other => takeWhile_clear other _
    generalize (after.take 32).takeWhile isCharrefChar = name at *
    have len : (nameBytes after).length = name.length := by rw [bytes, List.length_map]
    have low : ∀ c ∈ name, c.toNat < 128 := by
      intro c mem
      refine ascii c ?_
      rw [split]
      exact List.mem_append_left _ mem
    by_cases empty : name = []
    · refine Or.inl ⟨if_pos empty, namedReference_empty ?_⟩
      rw [bytes, empty]
      rfl
    · have some : nameBytes after ≠ [] := by
        rw [bytes]
        exact mt List.map_eq_nil_iff.mp empty
      have head : name.head? ≠ .some '#' := fun same =>
        clear '#' (by decide) (List.mem_of_mem_head? same)
      have ampersand := clear '&' (by decide)
      rw [if_neg empty]
      have closing := name_closed ascii (nameBytes after).length
      rw [len] at closing
      by_cases closed : (after.drop name.length).head? = .some ';'
      · -- a name that a semicolon ends
        obtain ⟨tail, rest⟩ := List.head?_eq_some_iff.mp closed
        have group : withSemicolon name (after.drop name.length) = name ++ [';'] := if_pos closed
        obtain ⟨name', back, split', len', run⟩ := @namedReference_closed entities _ some
          (len ▸ closing.mpr closed)
        have ascii' : ∀ c ∈ name', c.toNat < 128 := by
          intro c mem
          refine ascii c ?_
          rw [split']
          exact List.mem_append_left _ mem
        rw [utf8Len_ascii ascii', len] at len'
        obtain ⟨rfl, tails⟩ := split_unique split' split len'
        rw [group]
        have last : (name' ++ [';']).getLast? = .some ';' := List.getLast?_concat
        have first : (name' ++ [';']).head? ≠ .some '#' := by
          rw [List.head?_append_of_ne_nil _ empty]
          exact head
        have amended : amendedCharref html5 (name' ++ [';']) =
            (namedEntity entities name').getD ('&' :: (name' ++ [';'])) := by
          unfold amendedCharref
          rw [if_pos ⟨first, last⟩, whatwg.closed _ (clear ';' (by decide))]
        refine Or.inr ⟨name' ++ [';'], back, rfl, ?_, ?_⟩
        · rw [List.append_assoc]
          exact split'
        · rw [run, amended]
          cases namedEntity entities name' with
          | none =>
            refine Or.inr ⟨rfl, rfl, ?_⟩
            rw [List.mem_append, not_or]
            exact ⟨ampersand, by decide⟩
          | some decoded =>
            refine Or.inl ?_
            rw [utf8Len_ascii low, List.length_append, List.length_singleton]
            have two : 1 + (name'.length + 1) = name'.length + 2 := by omega
            rw [two]
            rfl
      · -- a name without a semicolon
        have group : withSemicolon name (after.drop name.length) = name := if_neg closed
        obtain ⟨name', back, split', len', -, run⟩ := @namedReference_open entities _ some
          (by
            rw [bytes]
            intro b mem
            obtain ⟨c, there, rfl⟩ := List.mem_map.mp mem
            rw [byteOf_toNat (low c there)]
            exact low c there)
          (len ▸ mt closing.mp closed)
        rw [len] at len'
        obtain ⟨rfl, tails⟩ := split_unique split' split len'
        rw [group]
        have amended : amendedCharref html5 name' =
            (legacyChars entities name' name'.length).getD ('&' :: name') := by
          unfold amendedCharref
          rw [if_neg, replaceCharref_open whatwg (clear ';' (by decide)) head empty]
          intro h
          exact clear ';' (by decide) (List.mem_of_getLast? h.2)
        refine Or.inr ⟨name', back, rfl, split', ?_⟩
        rw [run, amended]
        cases legacyChars entities name' name'.length with
        | none => exact Or.inr ⟨rfl, rfl, ampersand⟩
        | some decoded =>
          refine Or.inl ?_
          rw [utf8Len_ascii low]
          rfl

end

/-! ## Whole texts -/

/-- The substitution goes on behind what a match has taken, and copies what holds no ampersand
(`substitute_plain`). -/
theorem substitute_skip (replace : Text → Text) {x : Text} (rest : Text) :
    substitute replace x.length (x ++ rest) = substitute replace 0 rest := by
  induction x with
  | nil => rfl
  | cons c x ih => exact ih

theorem substitute_plain (replace : Text → Text) {x : Text} (clear : '&' ∉ x) (rest : Text) :
    substitute replace 0 (x ++ rest) = x ++ substitute replace 0 rest := by
  induction x with
  | nil => rfl
  | cons c x ih =>
    have plain : c ≠ '&' := fun same => clear (same ▸ List.mem_cons_self)
    have tail := ih fun mem => clear (List.mem_cons_of_mem c mem)
    rw [List.cons_append, substitute, if_neg plain, tail]
    rfl

section
variable {entities : NamedEntities} {html5 : Html5}

/-- The loop appends what the reference makes of the rest. -/
theorem unescapeLoop_substitute (whatwg : Whatwg entities html5) {fuel : Nat}
    {output copied rest : Text} (ascii : ∀ c ∈ rest, c.toNat < 128)
    (enough : rest.length < fuel) : unescapeLoop entities fuel output copied rest =
      some (.ok (output ++ copied ++ substitute (amendedCharref html5) 0 rest)) := by
  induction fuel generalizing output copied rest with
  | zero => exact absurd enough (Nat.not_lt_zero _)
  | succ fuel ih =>
    cases rest with
    | nil =>
      rw [substitute, List.append_nil]
      rfl
    | cons c rest =>
      have shorter : rest.length < fuel := Nat.lt_of_succ_lt_succ enough
      have low : ∀ d ∈ rest, d.toNat < 128 := fun d mem => ascii d (List.mem_cons_of_mem c mem)
      unfold unescapeLoop
      by_cases plain : c ≠ '&'
      · rw [if_pos plain, ih low shorter, substitute, if_neg plain]
        simp only [List.append_assoc, List.singleton_append]
      · rw [if_neg plain]
        obtain rfl := not_not.mp plain
        rw [substitute, if_pos rfl]
        rcases htmlReference_charref whatwg low with
          ⟨unmatched, run⟩ | ⟨group, back, matched, rfl, run | ⟨run, same, clear⟩⟩
        · rw [run, unmatched]
          dsimp only
          rw [ih low shorter]
          simp only [List.append_assoc, List.singleton_append]
        · have small : ∀ d ∈ group, d.toNat < 128 := fun d mem => low d (List.mem_append_left _ mem)
          have cut : sliceAt (1 + group.length) ('&' :: (group ++ back)) =
              .ok ('&' :: group, back) := by
            rw [← List.cons_append]
            refine sliceAt_eq ?_
            rw [utf8Len_cons, utf8Len_ascii small]
            rfl
          rw [run, matched]
          dsimp only
          rw [cut, substitute_skip]
          dsimp only
          rw [ih (fun d mem => low d (List.mem_append_right _ mem)) ?_]
          · simp only [List.append_assoc, List.nil_append]
          · rw [List.length_append] at shorter
            omega
        · rw [run, matched]
          dsimp only
          rw [ih low shorter, same, substitute_skip, substitute_plain _ clear]
          simp only [List.append_assoc, List.nil_append, List.cons_append]

/-- **On ASCII texts the code is Python's `html.unescape`**, but for names that a semicolon ends and
that are not known. For these Python takes the longest known beginning, and the code leaves them
alone. -/
theorem html_unescape_amended (whatwg : Whatwg entities html5) {value : Text}
    (ascii : ∀ c ∈ value, c.toNat < 128) {fuel : Nat} (enough : value.length < fuel) :
    htmlUnescape entities fuel value =
      some (.ok (substitute (amendedCharref html5) 0 value)) :=
  unescapeLoop_substitute whatwg ascii enough

end

/-- The names of the sample, with a semicolon and without. -/
def sampleHtml5 : Html5 := fun s =>
  if s.getLast? = some ';' then namedEntity sampleEntities s.dropLast
  else if legacyEntity s then namedEntity sampleEntities s else none

theorem sampleWhatwg : Whatwg sampleEntities sampleHtml5 := by
  constructor
  · intro name _
    unfold sampleHtml5
    rw [if_pos List.getLast?_concat, List.dropLast_concat]
  · intro name clear
    exact if_neg fun last => clear (List.mem_of_getLast? last)

/-- Names without a semicolon, of which the last is only known by its beginning. -/
theorem html_unescape_amended_copy :
    htmlUnescape sampleEntities 16 (text "&copy &lt &ampx") =
      some (.ok (substitute (amendedCharref sampleHtml5) 0 (text "&copy &lt &ampx"))) :=
  html_unescape_amended sampleWhatwg
    (fun c mem => of_decide_eq_true (List.all_eq_true.mp
      (show ((text "&copy &lt &ampx").all fun c => decide (c.toNat < 128)) = true by decide +kernel)
      c mem)) (by decide)

/-- Python decodes the beginning of a name that a semicolon ends; the code leaves it alone. -/
theorem html_unescape_notit : Whatwg sampleEntities sampleHtml5 ∧
    pythonUnescape sampleHtml5 (text "&notit;") = text "\u00acit;" ∧
    htmlUnescape sampleEntities 8 (text "&notit;") = some (.ok (text "&notit;")) := by
  exact ⟨sampleWhatwg, by decide +kernel, by decide +kernel⟩

end Mineru.Builders
