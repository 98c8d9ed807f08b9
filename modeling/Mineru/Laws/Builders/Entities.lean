import Mineru.Builders.Entities
import Mineru.Laws.Text

/-!
# What `html_unescape` does

A byte below 128 is a character of its own (`utf8_low`), so a name that ends at a delimiter or holds
ASCII characters only is sliced between characters. Everything else panics: the slice at the cap of
32 bytes, or the loop over the byte lengths of the name (`legacyPrefix_panic`).

Texts are lists of characters here, and the source works on bytes. `sliceAt` is where the two meet:
it is the slice at a number of bytes, and it panics inside of a character. All other functions are
followed by `utf8_drop` and `utf8_getElem?` from one view to the other.

The table of names is a parameter. What it maps a name to is not looked at in this module.
-/

set_option autoImplicit false

namespace Mineru.Builders

open Logic

/-! ## Bytes -/

theorem utf8_cons (c : Char) (t : Text) : utf8 (c :: t) = String.utf8EncodeChar c ++ utf8 t :=
  List.flatMap_cons

theorem utf8_append (t u : Text) : utf8 (t ++ u) = utf8 t ++ utf8 u := List.flatMap_append

theorem utf8_length (t : Text) : (utf8 t).length = utf8Len t := by
  induction t with
  | nil => rfl
  | cons c t ih => rw [utf8_cons, List.length_append, String.length_utf8EncodeChar, ih, utf8Len_cons]

theorem utf8EncodeChar_ascii {c : Char} (h : c.toNat < 128) :
    String.utf8EncodeChar c = [byteOf c] := by
  unfold String.utf8EncodeChar
  exact if_pos (Nat.le_of_lt_succ h)

/-- Every byte of another character is at least 128. -/
theorem utf8EncodeChar_high {c : Char} (h : ¬ c.toNat < 128) :
    ∀ b ∈ String.utf8EncodeChar c, 128 ≤ b.toNat := by
  have big : ¬ c.val.toNat ≤ 0x7f := fun le => h (Nat.lt_succ_of_le le)
  unfold String.utf8EncodeChar
  dsimp only
  rw [if_neg big]
  split_ifs <;> intro b mem <;>
    simp only [List.mem_cons, List.not_mem_nil, or_false] at mem <;>
    rcases mem with rfl | rfl | rfl | rfl <;> rw [UInt8.toNat_ofNat'] <;> omega

/-- An ASCII text has one byte for each character. -/
theorem utf8_ascii {t : Text} (h : ∀ c ∈ t, c.toNat < 128) : utf8 t = t.map byteOf := by
  induction t with
  | nil => rfl
  | cons c t ih =>
    rw [utf8_cons, utf8EncodeChar_ascii (h c List.mem_cons_self),
      ih fun d mem => h d (List.mem_cons_of_mem c mem)]
    rfl

theorem byteOf_toNat {c : Char} (h : c.toNat < 128) : (byteOf c).toNat = c.toNat := by
  unfold byteOf
  rw [UInt8.toNat_ofNat']
  exact Nat.mod_eq_of_lt (h.trans (by decide))

theorem byteOf_inj {c d : Char} (hc : c.toNat < 128) (hd : d.toNat < 128) :
    byteOf c = byteOf d ↔ c = d := by
  constructor
  · intro same
    have codes := congrArg UInt8.toNat same
    rw [byteOf_toNat hc, byteOf_toNat hd] at codes
    exact Char.toNat_inj.mp codes
  · exact congrArg byteOf

/-- A byte below 128 is a character at a character boundary. -/
theorem utf8_low {t : Text} {n : Nat} {b : UInt8} (h : (utf8 t)[n]? = some b)
    (low : b.toNat < 128) :
    ∃ front c back, t = front ++ c :: back ∧ utf8Len front = n ∧ c.toNat < 128 ∧ byteOf c = b := by
  induction t generalizing n with
  | nil => cases h
  | cons c t ih =>
    rw [utf8_cons] at h
    by_cases within : n < c.utf8Size
    · rw [List.getElem?_append_left (by rwa [String.length_utf8EncodeChar])] at h
      by_cases ascii : c.toNat < 128
      · rw [utf8EncodeChar_ascii ascii] at h
        rw [utf8Size_ascii.mpr ascii] at within
        obtain rfl := Nat.lt_one_iff.mp within
        exact ⟨[], c, t, rfl, rfl, ascii, Option.some.inj h⟩
      · have := utf8EncodeChar_high ascii b (List.mem_of_getElem? h)
        omega
    · rw [List.getElem?_append_right (by rw [String.length_utf8EncodeChar]; omega),
        String.length_utf8EncodeChar] at h
      obtain ⟨front, d, back, rfl, len, ascii, byte⟩ := ih h
      refine ⟨c :: front, d, back, rfl, ?_, ascii, byte⟩
      rw [utf8Len_cons, len]
      omega

/-- Bytes below 128 at the front are the first characters. -/
theorem utf8_take_low {t : Text} {n : Nat} (le : n ≤ (utf8 t).length)
    (low : ∀ b ∈ (utf8 t).take n, b.toNat < 128) :
    ∃ front back, t = front ++ back ∧ front.length = n ∧ ∀ c ∈ front, c.toNat < 128 := by
  induction n generalizing t with
  | zero => exact ⟨[], t, rfl, rfl, nofun⟩
  | succ n ih =>
    cases t with
    | nil => exact absurd le (Nat.not_succ_le_zero n)
    | cons c t =>
      rw [utf8_cons] at le low
      have ascii : c.toNat < 128 := by
        by_contra high
        obtain ⟨b, rest, bytes⟩ := List.exists_cons_of_ne_nil (String.utf8EncodeChar_ne_nil (c := c))
        have mem : b ∈ (String.utf8EncodeChar c ++ utf8 t).take (n + 1) := by
          rw [bytes]
          exact List.mem_cons_self
        have := low b mem
        have := utf8EncodeChar_high high b (by rw [bytes]; exact List.mem_cons_self)
        omega
      rw [utf8EncodeChar_ascii ascii] at le low
      obtain ⟨front, back, rfl, len, all⟩ := ih (t := t) (Nat.le_of_succ_le_succ le)
        fun b mem => low b (List.mem_cons_of_mem _ mem)
      refine ⟨c :: front, back, rfl, by rw [List.length_cons, len], ?_⟩
      intro d mem
      rcases List.mem_cons.mp mem with rfl | mem
      · exact ascii
      · exact all d mem

/-- A run of ASCII bytes is a run of characters. -/
theorem takeWhile_utf8 {p : UInt8 → Bool} (low : ∀ b, p b = true → b.toNat < 128) (t : Text) :
    (utf8 t).takeWhile p =
      (t.takeWhile fun c => c.toNat < 128 && p (byteOf c)).map byteOf := by
  induction t with
  | nil => rfl
  | cons c t ih =>
    rw [utf8_cons]
    by_cases ascii : c.toNat < 128
    · rw [utf8EncodeChar_ascii ascii, List.singleton_append]
      by_cases holds : p (byteOf c) = true
      · rw [List.takeWhile_cons_of_pos holds, List.takeWhile_cons_of_pos (by simp [ascii, holds]),
          List.map_cons, ih]
      · rw [List.takeWhile_cons_of_neg holds, List.takeWhile_cons_of_neg (by simp [holds])]
        rfl
    · obtain ⟨b, rest, bytes⟩ := List.exists_cons_of_ne_nil (String.utf8EncodeChar_ne_nil (c := c))
      have high := utf8EncodeChar_high ascii b (by rw [bytes]; exact List.mem_cons_self)
      rw [bytes, List.cons_append, List.takeWhile_cons_of_neg fun holds => by
        have := low b holds
        omega, List.takeWhile_cons_of_neg (by simp [ascii])]
      rfl

/-! ## Slices -/

theorem sliceAt_append (t u : Text) : sliceAt (utf8Len t) (t ++ u) = .ok (t, u) := by
  unfold sliceAt
  rw [splitAtByte_some.mpr ⟨rfl, rfl⟩]

theorem sliceAt_eq {n : Nat} {t u : Text} (len : utf8Len t = n) :
    sliceAt n (t ++ u) = .ok (t, u) := len ▸ sliceAt_append t u

/-- A slice panics, or it cuts the text between two characters. -/
theorem sliceAt_cases (n : Nat) (t : Text) : sliceAt n t = .error .panic ∨
    ∃ front back, sliceAt n t = .ok (front, back) ∧ t = front ++ back ∧ utf8Len front = n := by
  unfold sliceAt
  cases cut : splitAtByte n t with
  | none => exact Or.inl rfl
  | some parts => exact Or.inr ⟨parts.1, parts.2, rfl, splitAtByte_some.mp cut⟩

/-! ## The byte lengths of a name -/

/-- The loop over the lengths of an ASCII name, from `n` down. -/
def legacyChars (entities : NamedEntities) (name : Text) : Nat → Option Text
  | 0 => none
  | n + 1 =>
    match if legacyEntity (name.take (n + 1)) then namedEntity entities (name.take (n + 1))
      else none with
    | some decoded => some (decoded ++ name.drop (n + 1))
    | none => legacyChars entities name n

/-- The loop over the prefixes of an ASCII name never slices inside of a character. -/
theorem legacyPrefix_ascii (entities : NamedEntities) {name : Text}
    (ascii : ∀ c ∈ name, c.toNat < 128) {n : Nat} (le : n ≤ name.length) :
    legacyPrefix entities name n =
      .ok ((legacyChars entities name n).map fun decoded => (1 + utf8Len name, decoded)) := by
  induction n with
  | zero => rfl
  | succ n ih =>
    have cut : sliceAt (n + 1) name = .ok (name.take (n + 1), name.drop (n + 1)) := by
      unfold sliceAt
      rw [splitAtByte_ascii ascii le]
    unfold legacyPrefix legacyChars
    rw [cut]
    dsimp only [bind, Except.bind]
    cases (if legacyEntity (name.take (n + 1)) then namedEntity entities (name.take (n + 1))
      else none) with
    | some decoded => rfl
    | none => exact ih (Nat.le_of_succ_le le)

theorem legacyNames_ascii {name : Text} (h : legacyEntity name = true) :
    ∀ c ∈ name, c.toNat < 128 := by
  have all : (legacyNames.all fun n => (text n).all fun c => decide (c.toNat < 128)) = true := by
    decide +kernel
  obtain ⟨n, mem, same⟩ := List.any_eq_true.mp h
  obtain rfl := of_decide_eq_true same
  intro c char
  exact of_decide_eq_true (List.all_eq_true.mp (List.all_eq_true.mp all n mem) c char)

/-- The loop meets every offset inside a character that is not ASCII. -/
theorem legacyPrefix_panic (entities : NamedEntities) {front back : Text} {c : Char}
    (wide : ¬ c.toNat < 128) {n : Nat} (ge : utf8Len front < n) :
    legacyPrefix entities (front ++ c :: back) n = .error .panic := by
  induction n with
  | zero => exact absurd ge (Nat.not_lt_zero _)
  | succ n ih =>
    unfold legacyPrefix
    rcases sliceAt_cases (n + 1) (front ++ c :: back) with panics | ⟨start, rest, cut, whole, len⟩
    · rw [panics]
      rfl
    · -- the slice ends behind the character, so it is no legacy name
      obtain ⟨more, rfl⟩ : front ++ [c] <+: start := by
        have one : front ++ [c] <+: front ++ c :: back :=
          (List.prefix_append_right_inj front).mpr ⟨back, rfl⟩
        have two : start <+: front ++ c :: back := ⟨rest, whole.symm⟩
        rcases List.prefix_or_prefix_of_prefix one two with le | le
        · exact le
        · have short : start <+: front ∨ start = front ++ [c] := by
            rcases List.prefix_concat_iff.mp le with same | shorter
            · exact Or.inr same
            · exact Or.inl shorter
          rcases short with ⟨tail, rfl⟩ | rfl
          · rw [utf8Len_append] at ge
            omega
          · exact List.prefix_refl _
      have other : legacyEntity (front ++ [c] ++ more) = false := by
        rw [Bool.eq_false_iff]
        intro legacy
        refine wide (legacyNames_ascii legacy c ?_)
        exact List.mem_append_left _ (List.mem_append_right _ List.mem_cons_self)
      have size := c.utf8Size_pos
      have two : 1 < c.utf8Size := by
        by_contra small
        exact wide (utf8Size_ascii.mp (by omega))
      rw [cut]
      dsimp only [bind, Except.bind]
      rw [other]
      refine ih ?_
      rw [utf8Len_append, utf8Len_append, utf8Len_cons, utf8Len_nil] at len
      omega

/-! ## Numeric references -/

/-- A digit, as a character. -/
def isDigitChar (radix : Nat) (c : Char) : Bool := c.toNat < 128 && isDigitByte radix (byteOf c)

/-- The numeric reference whose digits start the text, `n` characters behind the ampersand. -/
def digitsReference (radix n : Nat) (t : Text) : Option (Nat × Text) :=
  let run := t.takeWhile (isDigitChar radix)
  if run = [] then none
  else some (n + run.length + (if (t.dropWhile (isDigitChar radix)).head? = some ';' then 1 else 0),
    pythonNumericReference (fromStrRadix radix run))

theorem isDigitByte_low {radix : Nat} {b : UInt8} (h : isDigitByte radix b = true) :
    b.toNat < 128 := by
  simp only [isDigitByte, Bool.or_eq_true, Bool.and_eq_true, decide_eq_true_eq,
    UInt8.le_iff_toNat_le] at h
  rcases h with h | ⟨-, h | h⟩
  · exact h.2.trans_lt (by decide)
  · exact h.2.trans_lt (by decide)
  · exact h.2.trans_lt (by decide)

/-- The byte of an ASCII character stands at an offset exactly if the character does. -/
theorem utf8_head {t : Text} {c : Char} (ascii : c.toNat < 128) :
    (utf8 t)[0]? = some (byteOf c) ↔ t.head? = some c := by
  constructor
  · intro h
    obtain ⟨front, d, back, rfl, len, low, same⟩ :=
      utf8_low h (by rwa [byteOf_toNat ascii])
    obtain rfl := (byteOf_inj low ascii).mp same
    cases front with
    | nil => rfl
    | cons e front =>
      rw [utf8Len_cons] at len
      have := e.utf8Size_pos
      omega
  · intro h
    obtain ⟨back, rfl⟩ := List.head?_eq_some_iff.mp h
    rw [utf8_cons, utf8EncodeChar_ascii ascii]
    rfl

/-- Behind an ASCII head the bytes go on with those of the rest. -/
theorem utf8_drop {head : Text} (ascii : ∀ c ∈ head, c.toNat < 128) (t : Text) :
    (utf8 (head ++ t)).drop head.length = utf8 t := by
  rw [utf8_append]
  have len : (utf8 head).length = head.length := by rw [utf8_length, utf8Len_ascii ascii]
  rw [← len, List.drop_left]

theorem utf8_getElem? {head : Text} (ascii : ∀ c ∈ head, c.toNat < 128) (t : Text) (n : Nat) :
    (utf8 (head ++ t))[head.length + n]? = (utf8 t)[n]? := by
  rw [← utf8_drop ascii t, List.getElem?_drop]

/-- The digits behind an ASCII beginning. -/
theorem digitsFrom_append {head : Text} (ascii : ∀ c ∈ head, c.toNat < 128) (radix : Nat)
    (t : Text) :
    digitsFrom radix head.length (head ++ t) = .ok (digitsReference radix head.length t) := by
  have run : (((utf8 (head ++ t)).drop head.length).takeWhile (isDigitByte radix)).length =
      (t.takeWhile (isDigitChar radix)).length := by
    rw [utf8_drop ascii, takeWhile_utf8 (fun b => isDigitByte_low), List.length_map]
    rfl
  have low : ∀ c ∈ t.takeWhile (isDigitChar radix), c.toNat < 128 := by
    intro c mem
    have digit := List.mem_takeWhile_imp mem
    exact of_decide_eq_true (Bool.and_eq_true_iff.mp digit).1
  have split := List.takeWhile_append_dropWhile (p := isDigitChar radix) (l := t)
  unfold digitsFrom digitsReference
  dsimp only
  rw [run, Nat.add_sub_cancel_left, sliceAt_eq (utf8Len_ascii ascii), utf8_getElem? ascii]
  generalize t.takeWhile (isDigitChar radix) = digits at *
  generalize t.dropWhile (isDigitChar radix) = back at *
  subst split
  by_cases none : digits = []
  · rw [if_pos none, if_pos (by rw [none]; rfl)]
  · have longer : ¬ (head.length + digits.length = head.length) := by
      have := List.length_pos_iff.mpr none
      omega
    rw [if_neg longer, if_neg none]
    have next := utf8_getElem? low back 0
    rw [Nat.add_zero] at next
    simp only [bind, Except.bind, sliceAt_eq (utf8Len_ascii low), next,
      utf8_head (c := ';') (by decide)]
    by_cases closed : back.head? = some ';'
    · rw [if_pos closed, if_pos closed]
      rfl
    · rw [if_neg closed, if_neg closed]
      rfl

/-- The numeric reference behind `&#`. -/
def numericChars (after : Text) : Option (Nat × Text) :=
  if after.head? = some 'x' ∨ after.head? = some 'X' then digitsReference 16 3 after.tail
  else digitsReference 10 2 after

/-- A numeric reference is read byte by byte in the source, and all that it takes are ASCII
characters. -/
theorem numericReference_eq (after : Text) :
    numericReference ('&' :: '#' :: after) = .ok (numericChars after) := by
  have ascii : ∀ c ∈ ['&', '#'], c.toNat < 128 := by
    intro c mem
    rcases List.mem_pair.mp mem with rfl | rfl <;> decide
  have third : (utf8 ('&' :: '#' :: after))[2]? = (utf8 after)[0]? := utf8_getElem? ascii after 0
  unfold numericReference numericChars
  simp only [third, utf8_head (c := 'x') (by decide), utf8_head (c := 'X') (by decide)]
  by_cases hex : after.head? = some 'x' ∨ after.head? = some 'X'
  · rw [if_pos hex, if_pos hex]
    obtain ⟨x, tail, rfl, small⟩ : ∃ x tail, after = x :: tail ∧ x.toNat < 128 := by
      rcases hex with lower | upper
      · obtain ⟨tail, rfl⟩ := List.head?_eq_some_iff.mp lower
        exact ⟨'x', tail, rfl, by decide⟩
      · obtain ⟨tail, rfl⟩ := List.head?_eq_some_iff.mp upper
        exact ⟨'X', tail, rfl, by decide⟩
    refine @digitsFrom_append ['&', '#', x] ?_ 16 tail
    intro c mem
    rcases List.mem_cons.mp mem with rfl | mem
    · decide
    · rcases List.mem_cons.mp mem with rfl | mem
      · decide
      · rwa [List.mem_singleton.mp mem]
  · rw [if_neg hex, if_neg hex]
    exact digitsFrom_append ascii 10 after

/-! ## Named references -/

/-- The bytes of the name behind an ampersand: at most 32 of them, up to a delimiter. -/
def nameBytes (after : Text) : List UInt8 := ((utf8 after).take 32).takeWhile isNameByte

/-- The name behind the ampersand holds a byte that is not ASCII, and no semicolon ends it. -/
def CutsName (after : Text) : Prop :=
  after.head? ≠ some '#' ∧ (∃ b ∈ nameBytes after, 128 ≤ b.toNat) ∧
    (utf8 after)[(nameBytes after).length]? ≠ some (byteOf ';')

/-- A name is a beginning of the bytes that follow the ampersand. -/
theorem nameBytes_take (after : Text) :
    nameBytes after = (utf8 after).take (nameBytes after).length := by
  have starts : nameBytes after <+: utf8 after :=
    (List.takeWhile_prefix _).trans (List.take_prefix _ _)
  exact List.prefix_iff_eq_take.mp starts

/-- Every ASCII character of a name is one that a name may have. -/
theorem nameBytes_name {after : Text} {c : Char} (ascii : c.toNat < 128) {name back : Text}
    (split : after = name ++ back) (len : utf8Len name = (nameBytes after).length)
    (mem : c ∈ name) : isNameByte (byteOf c) = true := by
  have bytes : nameBytes after = utf8 name := by
    rw [nameBytes_take, ← len, split, utf8_append, ← utf8_length, List.take_left]
  have there : byteOf c ∈ nameBytes after := by
    rw [bytes]
    refine List.mem_flatMap.mpr ⟨c, mem, ?_⟩
    rw [utf8EncodeChar_ascii ascii]
    exact List.mem_singleton_self _
  exact List.mem_takeWhile_imp there

theorem ampersand_ascii : ∀ c ∈ ['&'], c.toNat < 128 := by
  intro c mem
  rw [List.mem_singleton.mp mem]
  decide

/-- `html_reference` at the ampersand, with the slices behind it. -/
theorem namedReference_cons (entities : NamedEntities) (after : Text) :
    namedReference entities ('&' :: after) =
      if (nameBytes after).length = 0 then .ok none
      else sliceAt (nameBytes after).length after >>= fun parts =>
        if (utf8 after)[(nameBytes after).length]? = some (byteOf ';') then
          .ok ((namedEntity entities parts.1).map fun decoded =>
            ((nameBytes after).length + 2, decoded))
        else legacyPrefix entities parts.1 (utf8Len parts.1) := by
  have bytes : (utf8 ('&' :: after)).drop 1 = utf8 after := utf8_drop ampersand_ascii after
  have stop : (utf8 ('&' :: after))[1 + (nameBytes after).length]? =
      (utf8 after)[(nameBytes after).length]? := utf8_getElem? ampersand_ascii after _
  have first : sliceAt 1 ('&' :: after) = .ok (['&'], after) :=
    sliceAt_eq (t := ['&']) (by decide)
  unfold namedReference
  dsimp only
  rw [bytes]
  change (if 1 + (nameBytes after).length = 1 then _ else _) = _
  by_cases empty : (nameBytes after).length = 0
  · rw [if_pos empty, if_pos (by omega)]
  · rw [if_neg empty, if_neg (by omega), first]
    change (sliceAt (1 + (nameBytes after).length - 1) after >>= _) = _
    rw [Nat.add_sub_cancel_left]
    refine congrArg _ (funext fun parts => ?_)
    refine if_congr (Eq.congr_left stop) ?_ rfl
    have two : 1 + (nameBytes after).length + 1 = (nameBytes after).length + 2 := by omega
    rw [← two]
    rfl

section
variable {entities : NamedEntities} {after : Text}

theorem namedReference_empty (empty : nameBytes after = []) :
    namedReference entities ('&' :: after) = .ok none := by
  rw [namedReference_cons, if_pos (by rw [empty]; rfl)]

/-- A name that a semicolon ends is looked up as it is. -/
theorem namedReference_closed (some : nameBytes after ≠ [])
    (closed : (utf8 after)[(nameBytes after).length]? = .some (byteOf ';')) :
    ∃ name back, after = name ++ ';' :: back ∧ utf8Len name = (nameBytes after).length ∧
      namedReference entities ('&' :: after) =
        .ok ((namedEntity entities name).map fun decoded => (utf8Len name + 2, decoded)) := by
  obtain ⟨name, c, back, split, len, ascii, same⟩ := utf8_low closed (by decide)
  obtain rfl := (byteOf_inj ascii (by decide)).mp same
  refine ⟨name, back, split, len, ?_⟩
  have cut : sliceAt (nameBytes after).length after = .ok (name, ';' :: back) := by
    conv_lhs => rw [split]
    exact sliceAt_eq (len.trans (by rw [split]))
  rw [namedReference_cons, if_neg (mt List.length_eq_zero_iff.mp some), cut]
  change (if _ then _ else _) = _
  rw [if_pos closed, len]

/-- An ASCII name without a semicolon is tried by its beginnings. -/
theorem namedReference_open (some : nameBytes after ≠ [])
    (low : ∀ b ∈ nameBytes after, b.toNat < 128)
    (opened : (utf8 after)[(nameBytes after).length]? ≠ .some (byteOf ';')) :
    ∃ name back, after = name ++ back ∧ name.length = (nameBytes after).length ∧
      (∀ c ∈ name, c.toNat < 128) ∧
      namedReference entities ('&' :: after) = .ok ((legacyChars entities name name.length).map
        fun decoded => (1 + utf8Len name, decoded)) := by
  have starts : nameBytes after <+: utf8 after :=
    (List.takeWhile_prefix _).trans (List.take_prefix _ _)
  rw [nameBytes_take] at low
  obtain ⟨name, back, split, len, ascii⟩ := utf8_take_low starts.length_le low
  refine ⟨name, back, split, len, ascii, ?_⟩
  have cut : sliceAt (nameBytes after).length after = .ok (name, back) := by
    conv_lhs => rw [split]
    refine sliceAt_eq ?_
    rw [utf8Len_ascii ascii, len, split]
  rw [namedReference_cons, if_neg (mt List.length_eq_zero_iff.mp some), cut]
  change (if _ then _ else _) = _
  rw [if_neg opened]
  dsimp only
  rw [utf8Len_ascii ascii, legacyPrefix_ascii entities ascii le_rfl, utf8Len_ascii ascii]

/-- Any other name is sliced inside a character. -/
theorem namedReference_panic (high : ∃ b ∈ nameBytes after, 128 ≤ b.toNat)
    (opened : (utf8 after)[(nameBytes after).length]? ≠ .some (byteOf ';')) :
    namedReference entities ('&' :: after) = .error .panic := by
  obtain ⟨b, mem, big⟩ := high
  have some : nameBytes after ≠ [] := List.ne_nil_of_mem mem
  rw [namedReference_cons, if_neg (mt List.length_eq_zero_iff.mp some)]
  rcases sliceAt_cases (nameBytes after).length after with panics | ⟨name, back, cut, split, len⟩
  · rw [panics]
    rfl
  · rw [cut]
    change (if _ then _ else _) = _
    rw [if_neg opened]
    have bytes : nameBytes after = utf8 name := by
      rw [nameBytes_take, ← len, split, utf8_append, ← utf8_length, List.take_left]
    rw [bytes] at mem
    obtain ⟨c, char, byte⟩ := List.mem_flatMap.mp mem
    have wide : ¬ c.toNat < 128 := by
      intro ascii
      rw [utf8EncodeChar_ascii ascii, List.mem_singleton] at byte
      rw [byte, byteOf_toNat ascii] at big
      omega
    obtain ⟨front, rest, rfl⟩ := List.append_of_mem char
    refine legacyPrefix_panic entities wide ?_
    have := c.utf8Size_pos
    rw [utf8Len_append, utf8Len_cons]
    omega

end

/-! ## One reference -/

/-- Which of the two kinds of reference is tried depends on the character behind the ampersand. -/
theorem htmlReference_eq (entities : NamedEntities) (after : Text) :
    htmlReference entities ('&' :: after) =
      if after.head? = some '#' then .ok (numericChars after.tail)
      else namedReference entities ('&' :: after) := by
  have second : (utf8 ('&' :: after))[1]? = (utf8 after)[0]? := utf8_getElem? ampersand_ascii after 0
  unfold htmlReference
  simp only [second, utf8_head (c := '#') (by decide)]
  by_cases hash : after.head? = some '#'
  · obtain ⟨rest, rfl⟩ := List.head?_eq_some_iff.mp hash
    rw [if_pos hash, if_pos hash]
    exact numericReference_eq rest
  · rw [if_neg hash, if_neg hash]

/-- What a reference consumes behind the ampersand. -/
def Consumes (after : Text) (stop : Nat) : Prop :=
  ∃ x rest, after = x ++ rest ∧ '&' ∉ x ∧ stop = 1 + utf8Len x

theorem digitsReference_consumes {radix n stop : Nat} {t decoded : Text}
    (h : digitsReference radix n t = some (stop, decoded)) :
    ∃ x rest, t = x ++ rest ∧ '&' ∉ x ∧ stop = n + utf8Len x := by
  have low : ∀ c ∈ t.takeWhile (isDigitChar radix),
      c.toNat < 128 ∧ isDigitByte radix (byteOf c) = true := by
    intro c mem
    have digit : isDigitChar radix c = true := List.mem_takeWhile_imp mem
    have both := Bool.and_eq_true_iff.mp digit
    exact ⟨of_decide_eq_true both.1, both.2⟩
  have ampersand : '&' ∉ t.takeWhile (isDigitChar radix) := by
    intro mem
    have digit := (low '&' mem).2
    unfold isDigitByte at digit
    revert digit
    simp [byteOf]
  have split := List.takeWhile_append_dropWhile (p := isDigitChar radix) (l := t)
  have len := utf8Len_ascii fun c mem => (low c mem).1
  unfold digitsReference at h
  dsimp only at h
  generalize t.takeWhile (isDigitChar radix) = run at *
  generalize t.dropWhile (isDigitChar radix) = back at *
  split at h
  · cases h
  · by_cases closed : back.head? = some ';'
    · rw [if_pos closed] at h
      obtain ⟨rest, rfl⟩ := List.head?_eq_some_iff.mp closed
      refine ⟨run ++ [';'], rest, by rw [← split, List.append_assoc]; rfl, ?_, ?_⟩
      · rw [List.mem_append, not_or]
        exact ⟨ampersand, by decide⟩
      · rw [utf8Len_append, len]
        cases h
        rw [Nat.add_assoc]
        rfl
    · rw [if_neg closed] at h
      cases h
      exact ⟨run, back, split.symm, ampersand, by rw [len, Nat.add_zero]⟩

/-- A reference that is decoded takes at least one character and no second ampersand, so the loop
goes on behind it. -/
theorem numericChars_consumes {after decoded : Text} {stop : Nat}
    (h : numericChars after = some (stop, decoded)) : Consumes ('#' :: after) stop := by
  unfold numericChars at h
  split at h
  · next hex =>
    obtain ⟨x, tail, rfl, plain, one⟩ : ∃ x tail, after = x :: tail ∧ x ≠ '&' ∧ x.utf8Size = 1 := by
      rcases hex with lower | upper
      · obtain ⟨tail, rfl⟩ := List.head?_eq_some_iff.mp lower
        exact ⟨'x', tail, rfl, by decide, by decide⟩
      · obtain ⟨tail, rfl⟩ := List.head?_eq_some_iff.mp upper
        exact ⟨'X', tail, rfl, by decide, by decide⟩
    obtain ⟨run, rest, split, clear, stop⟩ := digitsReference_consumes h
    have whole : '#' :: x :: tail = '#' :: x :: run ++ rest :=
      congrArg (fun t => '#' :: x :: t) split
    refine ⟨'#' :: x :: run, rest, whole, ?_, ?_⟩
    · simp only [List.mem_cons, not_or]
      exact ⟨by decide, plain.symm, clear⟩
    · rw [stop, utf8Len_cons, utf8Len_cons, one, show ('#').utf8Size = 1 by decide]
      omega
  · obtain ⟨run, rest, rfl, clear, stop⟩ := digitsReference_consumes h
    refine ⟨'#' :: run, rest, rfl, ?_, ?_⟩
    · rw [List.mem_cons, not_or]
      exact ⟨by decide, clear⟩
    · rw [stop, utf8Len_cons, show ('#').utf8Size = 1 by decide]
      omega

/-- No ampersand is inside of a name. -/
theorem semicolon_name {after name back : Text} (split : after = name ++ back)
    (len : utf8Len name = (nameBytes after).length) : '&' ∉ name := by
  intro mem
  have := nameBytes_name (c := '&') (by decide) split len mem
  revert this
  decide

/-- A reference panics exactly if it cuts a name; elsewhere it finds nothing, or consumes a part of
the text without another ampersand. -/
theorem htmlReference_cases (entities : NamedEntities) (after : Text) :
    CutsName after ∧ htmlReference entities ('&' :: after) = .error .panic ∨
    ¬ CutsName after ∧ (htmlReference entities ('&' :: after) = .ok none ∨
      ∃ stop decoded, htmlReference entities ('&' :: after) = .ok (some (stop, decoded)) ∧
        Consumes after stop) := by
  rw [htmlReference_eq]
  by_cases hash : after.head? = some '#'
  · obtain ⟨rest, rfl⟩ := List.head?_eq_some_iff.mp hash
    rw [if_pos hash, List.tail_cons]
    refine Or.inr ⟨fun cuts => cuts.1 hash, ?_⟩
    cases number : numericChars rest with
    | none => exact Or.inl rfl
    | some found => exact Or.inr ⟨found.1, found.2, rfl, numericChars_consumes number⟩
  · rw [if_neg hash]
    by_cases empty : nameBytes after = []
    · refine Or.inr ⟨?_, Or.inl (namedReference_empty empty)⟩
      intro cuts
      obtain ⟨b, mem, -⟩ := cuts.2.1
      rw [empty] at mem
      cases mem
    · by_cases closed : (utf8 after)[(nameBytes after).length]? = some (byteOf ';')
      · refine Or.inr ⟨fun cuts => cuts.2.2 closed, ?_⟩
        obtain ⟨name, back, split, len, run⟩ := @namedReference_closed entities _ empty closed
        rw [run]
        cases namedEntity entities name with
        | none => exact Or.inl rfl
        | some decoded =>
          refine Or.inr ⟨_, _, rfl, name ++ [';'], back, ?_, ?_, ?_⟩
          · rw [List.append_assoc]
            exact split
          · rw [List.mem_append, not_or]
            exact ⟨semicolon_name split len, by decide⟩
          · rw [utf8Len_append, show utf8Len [';'] = 1 by decide]
            omega
      · by_cases high : ∃ b ∈ nameBytes after, 128 ≤ b.toNat
        · exact Or.inl ⟨⟨hash, high, closed⟩, namedReference_panic high closed⟩
        · refine Or.inr ⟨fun cuts => high cuts.2.1, ?_⟩
          have low : ∀ b ∈ nameBytes after, b.toNat < 128 := by
            intro b mem
            by_contra big
            exact high ⟨b, mem, Nat.le_of_not_lt big⟩
          obtain ⟨name, back, split, len, ascii, run⟩ :=
            @namedReference_open entities _ empty low closed
          rw [run]
          cases legacyChars entities name name.length with
          | none => exact Or.inl rfl
          | some decoded =>
            refine Or.inr ⟨_, _, rfl, name, back, split, ?_, rfl⟩
            exact semicolon_name split ((utf8Len_ascii ascii).trans len)

/-! ## Panics -/

/-- Some ampersand of the text is followed by a name that is cut. -/
def Cuts (value : Text) : Prop := ∃ front after, value = front ++ '&' :: after ∧ CutsName after

/-- A text without an ampersand in front of another one has no part in the condition. -/
theorem cuts_append {x : Text} (clear : '&' ∉ x) (rest : Text) : Cuts (x ++ rest) ↔ Cuts rest := by
  constructor
  · intro ⟨front, after, same, cuts⟩
    rcases List.append_eq_append_iff.mp same with ⟨mid, rfl, rfl⟩ | ⟨mid, rfl, tail⟩
    · exact ⟨mid, after, rfl, cuts⟩
    · cases mid with
      | nil => exact ⟨[], after, tail.symm, cuts⟩
      | cons c mid =>
        obtain ⟨rfl, -⟩ := List.cons.inj tail
        exact absurd (List.mem_append_right front List.mem_cons_self) clear
  · intro ⟨front, after, same, cuts⟩
    exact ⟨x ++ front, after, by rw [same, List.append_assoc], cuts⟩

theorem cuts_cons (after : Text) : Cuts ('&' :: after) ↔ CutsName after ∨ Cuts after := by
  constructor
  · intro ⟨front, rest, same, cuts⟩
    cases front with
    | nil =>
      obtain rfl := (List.cons.inj same).2
      exact Or.inl cuts
    | cons c front => exact Or.inr ⟨front, rest, (List.cons.inj same).2, cuts⟩
  · intro h
    rcases h with cuts | ⟨front, rest, same, cuts⟩
    · exact ⟨[], after, rfl, cuts⟩
    · exact ⟨'&' :: front, rest, by rw [same]; rfl, cuts⟩

/-- The loop ends, with a panic exactly if some name is cut. -/
theorem unescapeLoop_ends (entities : NamedEntities) {fuel : Nat} {output copied rest : Text}
    (enough : rest.length < fuel) :
    (Cuts rest → unescapeLoop entities fuel output copied rest = some (.error .panic)) ∧
      (¬ Cuts rest → ∃ out, unescapeLoop entities fuel output copied rest = some (.ok out)) := by
  induction fuel generalizing output copied rest with
  | zero => exact absurd enough (Nat.not_lt_zero _)
  | succ fuel ih =>
    cases rest with
    | nil =>
      refine ⟨fun cuts => ?_, fun _ => ⟨_, rfl⟩⟩
      obtain ⟨front, after, same, -⟩ := cuts
      exact absurd same.symm (List.append_ne_nil_of_right_ne_nil front (List.cons_ne_nil _ _))
    | cons c rest =>
      have shorter : rest.length < fuel := Nat.lt_of_succ_lt_succ enough
      unfold unescapeLoop
      by_cases plain : c ≠ '&'
      · rw [if_pos plain]
        have clear : '&' ∉ [c] := fun mem => plain (List.mem_singleton.mp mem).symm
        have skip := cuts_append clear rest
        rw [List.singleton_append] at skip
        rw [skip]
        exact ih shorter
      · rw [if_neg plain]
        obtain rfl := not_not.mp plain
        rw [cuts_cons]
        rcases htmlReference_cases entities rest with
          ⟨cuts, run⟩ | ⟨whole, run | ⟨stop, decoded, run, x, tail, rfl, clear, len⟩⟩
        · rw [run]
          exact ⟨fun _ => rfl, fun clear => absurd (Or.inl cuts) clear⟩
        · rw [run, or_iff_right whole]
          exact ih shorter
        · have cut : sliceAt stop ('&' :: (x ++ tail)) = .ok ('&' :: x, tail) := by
            rw [← List.cons_append]
            exact sliceAt_eq (by rw [len, utf8Len_cons]; rfl)
          rw [run, or_iff_right whole, cuts_append clear]
          dsimp only
          rw [cut]
          refine ih (lt_of_le_of_lt ?_ shorter)
          rw [List.length_append]
          exact Nat.le_add_left _ _

/-- **Decoding ends without a panic exactly if no name is cut.** The beginnings of a name that no
semicolon ends are tried by their length in bytes, and such a length falls inside of a character if
the name has one that is not ASCII. -/
theorem html_unescape_splits (entities : NamedEntities) (value : Text) :
    (∀ fuel, value.length < fuel → ∃ out, htmlUnescape entities fuel value = some (.ok out)) ↔
      ¬ Cuts value := by
  constructor
  · intro ends cuts
    obtain ⟨out, run⟩ := ends (value.length + 1) (Nat.lt_succ_self _)
    have panics := (@unescapeLoop_ends entities _ [] [] _ (Nat.lt_succ_self value.length)).1 cuts
    unfold htmlUnescape at run
    rw [panics] at run
    cases run
  · intro whole fuel enough
    exact (unescapeLoop_ends entities enough).2 whole

/-- Some entries of the table. -/
def sampleEntities : NamedEntities := fun name =>
  ([("amp", "&"), ("copy", "\u00a9"), ("lt", "<"), ("not", "\u00ac")].find? fun row =>
    text row.1 = name).map fun row => text row.2

/-- An accented letter behind an ampersand. -/
theorem html_unescape_accent :
    htmlUnescape sampleEntities 3 ['&', '\u00e9'] = some (.error .panic) ∧
    ¬ ∀ fuel, ['&', '\u00e9'].length < fuel →
      ∃ out, htmlUnescape sampleEntities fuel ['&', '\u00e9'] = some (.ok out) := by
  have panics : htmlUnescape sampleEntities 3 ['&', '\u00e9'] = some (.error .panic) := by
    decide +kernel
  refine ⟨panics, fun ends => ?_⟩
  obtain ⟨out, run⟩ := ends 3 (by decide)
  rw [panics] at run
  cases run

end Mineru.Builders
