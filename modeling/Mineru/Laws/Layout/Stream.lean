import Mineru.Layout.Stream
import Mineru.Logic.Reads

/-!
# Layout streams

An `Item` is a header as the model writes it, with the free text behind it. The text cannot begin a
header or lengthen the one before it, also not together with the next header: `<` stands only at the
beginning of a tag (`straddle`). So the expression finds the headers of a list of items and no
others, and `parse_blocks` returns their blocks.

The expression is read piece by piece: `Numeral.reads`, `Blanks.reads`, `Turn.reads` say what each
part of it takes and what it captures, and `Item.reads` what the whole takes at a header.
`captures_stream` is the induction over the items. `parseBlocks_eq` needs no items: it describes the
loop over the captures of any text, and the modules behind this one start from there.

Boxes are exact here: a coordinate is the number that its digits spell, divided by a thousand.
-/

set_option autoImplicit false

namespace Mineru.Layout

open Builders Logic Regex Vlm

/-! ## Items -/

/-- An integer from 0 to 1000, in digits. -/
structure Numeral where
  digits : Text
  some : digits ≠ []
  decimal : ∀ c ∈ digits, isDigit c = true
  small : coordinate digits ≤ 1000

/-- Digits that are written are read back. -/
theorem coordinate_toDigits (n : Nat) : coordinate (Nat.toDigits 10 n) = n := by
  rw [coordinate]
  exact congrArg Nat.cast (@Nat.ofDigitChars_ten_toDigits n)

/-- An integer as it is printed. -/
def Numeral.ofNat (n : Nat) (small : n ≤ 1000) : Numeral where
  digits := Nat.toDigits 10 n
  some := Nat.toDigits_ne_nil
  decimal c mem := by
    have digit := Nat.isDigit_of_mem_toDigits (by decide) (by decide) mem
    simpa [isDigit, Char.isDigit, Char.le_def] using digit
  small := by
    rw [coordinate_toDigits]
    exact_mod_cast small

example : (Numeral.ofNat 70 (by decide)).digits = text "70" := by decide

/-- The blanks between two integers. -/
structure Blanks where
  blanks : Text
  some : blanks ≠ []
  white : ∀ c ∈ blanks, isWhitespace c = true

/-- The rotate tokens. -/
inductive Turn where
  | up
  | right
  | down
  | left
  deriving DecidableEq, Repr

namespace Turn

def word : Turn → Text
  | up => text "up"
  | right => text "right"
  | down => text "down"
  | left => text "left"

def rotation : Turn → Rotation
  | up => .deg0
  | right => .deg90
  | down => .deg180
  | left => .deg270

def token (turn : Turn) : Text := text "<|rotate_" ++ (turn.word ++ text "|>")

theorem token_append (turn : Turn) (rest : Text) :
    turn.token ++ rest = text "<|rotate_" ++ (turn.word ++ (text "|>" ++ rest)) := by
  rw [show turn.token = text "<|rotate_" ++ (turn.word ++ text "|>") from rfl]
  simp only [List.append_assoc]

end Turn

/-- A boxed header and the text that follows it. -/
structure Item (w : WordChars) where
  x1 : Numeral
  y1 : Numeral
  x2 : Numeral
  y2 : Numeral
  blanks1 : Blanks
  blanks2 : Blanks
  blanks3 : Blanks
  kind : Text
  turn : Option Turn
  following : Text
  across : coordinate x1.digits ≠ coordinate x2.digits
  down : coordinate y1.digits ≠ coordinate y2.digits
  kindSome : kind ≠ []
  kindWord : ∀ c ∈ kind, w.isWord c = true
  noHeader : ¬ text "<|box_start|>" <:+: following
  noTurn : turn = none → ∀ turn : Turn, ¬ turn.token <+: following

namespace Item

variable {w : WordChars}

def turnText (item : Item w) : Text := (item.turn.map Turn.token).getD []

def header (item : Item w) : Text :=
  text "<|box_start|>" ++ (item.x1.digits ++ (item.blanks1.blanks ++ (item.y1.digits ++
    (item.blanks2.blanks ++ (item.x2.digits ++ (item.blanks3.blanks ++ (item.y2.digits ++
      (text "<|box_end|><|ref_start|>" ++ (item.kind ++ (text "<|ref_end|>" ++ item.turnText))))))))))

theorem header_append (item : Item w) (rest : Text) : item.header ++ rest =
    text "<|box_start|>" ++ (item.x1.digits ++ (item.blanks1.blanks ++ (item.y1.digits ++
      (item.blanks2.blanks ++ (item.x2.digits ++ (item.blanks3.blanks ++ (item.y2.digits ++
        (text "<|box_end|><|ref_start|>" ++ (item.kind ++ (text "<|ref_end|>" ++
          (item.turnText ++ rest))))))))))) := by
  rw [show item.header = text "<|box_start|>" ++ (item.x1.digits ++ (item.blanks1.blanks ++
    (item.y1.digits ++ (item.blanks2.blanks ++ (item.x2.digits ++ (item.blanks3.blanks ++
      (item.y2.digits ++ (text "<|box_end|><|ref_start|>" ++ (item.kind ++ (text "<|ref_end|>" ++
        item.turnText)))))))))) from rfl]
  simp only [List.append_assoc]

def stream (item : Item w) : Text := item.header ++ item.following

/-- The block that the item stands for; an item of another kind stands for none. -/
def block (item : Item w) : Option VlmLayoutBlock :=
  if String.ofList item.kind ∈ layoutKinds then some {
    blockType := String.ofList item.kind
    bbox := {
      left := min (coordinate item.x1.digits) (coordinate item.x2.digits) / 1000
      top := min (coordinate item.y1.digits) (coordinate item.y2.digits) / 1000
      right := max (coordinate item.x1.digits) (coordinate item.x2.digits) / 1000
      bottom := max (coordinate item.y1.digits) (coordinate item.y2.digits) / 1000 }
    angle := item.turn.map Turn.rotation
    content := none
    mergePrev := some (decide (String.ofList item.kind = "text") &&
      decide (text "txt_contd_tgt" <:+: item.following))
    metadata := [] }
  else none

end Item

/-! ## Tags -/

section Tags

variable {word s rest : Text}

/-- A tag that begins inside a text ends there, when a tag follows. -/
theorem straddle (once : '<' ∉ word.tail) (starts : ∀ c ∈ rest.head?, c = '<') (some : s ≠ [])
    (h : word <+: s ++ rest) : word <+: s := by
  obtain ⟨more, whole⟩ := h
  rcases List.append_eq_append_iff.mp whole with ⟨left, rfl, -⟩ | ⟨tail, rfl, rfl⟩
  · exact List.prefix_append _ _
  · cases tail with
    | nil => rw [List.append_nil]
    | cons c tail =>
      obtain rfl := starts c rfl
      rw [List.tail_append_of_ne_nil some] at once
      exact absurd (List.mem_append_right _ List.mem_cons_self) once

theorem boxStart_eq : text "<|box_start|>" = '<' :: text "|box_start|>" := by decide

/-- In a token of a turn `<` is the first character and no other. -/
theorem turn_once (turn : Turn) : '<' ∉ turn.token.tail := by
  cases turn <;> decide

theorem box_once : '<' ∉ (text "<|box_start|>").tail := by decide

/-- What follows an item begins with the tag of the next one, or there is nothing. -/
theorem head_box (box : rest ≠ [] → text "<|box_start|>" <+: rest) : ∀ c ∈ rest.head?, c = '<' := by
  intro c mem
  obtain ⟨tail, rfl⟩ := List.head?_eq_some_iff.mp mem
  have first := box (List.cons_ne_nil _ _)
  rw [boxStart_eq, List.cons_prefix_cons] at first
  exact first.1.symm

/-- No rotate token begins the text, also not with a header behind it. -/
theorem noTurn_append (noTurn : ∀ turn : Turn, ¬ turn.token <+: s)
    (box : rest ≠ [] → text "<|box_start|>" <+: rest) : ∀ turn : Turn, ¬ turn.token <+: s ++ rest := by
  intro turn h
  by_cases some : s = []
  · rw [some, List.nil_append] at h
    have other : rest ≠ [] := by
      rintro rfl
      cases turn <;> exact absurd (List.prefix_nil.mp h) (by decide)
    have apart : ¬ turn.token <+: text "<|box_start|>" ∧ ¬ text "<|box_start|>" <+: turn.token := by
      cases turn <;> decide
    rcases List.prefix_or_prefix_of_prefix h (box other) with first | first
    · exact apart.1 first
    · exact apart.2 first
  · exact noTurn turn (straddle (turn_once turn) (head_box box) some h)

end Tags

/-! ## The expression -/

section Expression

variable {w : WordChars} {t rest : Text} {e : Expr} {es : List Expr} {g g' : Groups} {middle : Text}

/-- A sequence of expressions reads one piece after another. -/
theorem reads_cons (first : Reads e t g middle) (second : Reads (seqs es) middle g' rest) :
    Reads (seqs (e :: es)) t (g ++ g') rest := Reads.seq first second

theorem reads_nil : Reads (seqs []) t [] t := Reads.empty

theorem digit_bounds {c : Char} (digit : isDigit c = true) : 48 ≤ c.toNat ∧ c.toNat ≤ 57 := by
  simpa [isDigit, Char.le_def, UInt32.le_iff_toNat_le] using digit

theorem digit_not_white {c : Char} (digit : isDigit c = true) : isWhitespace c = false := by
  have := digit_bounds digit
  simp only [isWhitespace, Bool.or_eq_false_iff, Bool.and_eq_false_iff, decide_eq_false_iff_not,
    beq_eq_false_iff_ne]
  omega

theorem white_not_digit {c : Char} (white : isWhitespace c = true) : isDigit c = false := by
  by_contra digit
  rw [Bool.not_eq_false] at digit
  exact absurd white (by rw [digit_not_white digit]; exact Bool.false_ne_true)

theorem head_append {p q : Char → Bool} {run : Text} (some : run ≠ []) (all : ∀ c ∈ run, p c = true)
    (apart : ∀ c, p c = true → q c = false) : ∀ c ∈ (run ++ rest).head?, q c = false := by
  obtain ⟨c, run, rfl⟩ := List.exists_cons_of_ne_nil some
  rintro _ ⟨⟩
  exact apart c (all c List.mem_cons_self)

/-- A numeral takes all of its digits, because no digit stands behind them. -/
theorem Numeral.reads (n : Numeral) (number : Nat) (stops : ∀ c ∈ rest.head?, isDigit c = false) :
    Reads (Layout.digits number) (n.digits ++ rest) [(number, n.digits)] rest :=
  (Reads.plus n.some n.decimal stops).group

/-- The blanks between two numerals end at the first digit. -/
theorem Blanks.reads (b : Blanks) (n : Numeral) :
    Reads (plus isWhitespace) (b.blanks ++ (n.digits ++ rest)) [] (n.digits ++ rest) :=
  Reads.plus b.some b.white (head_append n.some n.decimal fun _ => digit_not_white)

theorem Blanks.stops (b : Blanks) : ∀ c ∈ (b.blanks ++ rest).head?, isDigit c = false :=
  head_append b.some b.white fun _ => white_not_digit

theorem Turn.listed (turn : Turn) : turn.word ∈ ["up", "right", "down", "left"].map text := by
  cases turn <;> decide

theorem Turn.of_listed {word : Text} (listed : word ∈ ["up", "right", "down", "left"].map text) :
    ∃ turn : Turn, turn.word = word := by
  obtain ⟨name, mem, rfl⟩ := List.mem_map.mp listed
  simp only [List.mem_cons, List.not_mem_nil, or_false] at mem
  rcases mem with rfl | rfl | rfl | rfl
  · exact ⟨.up, rfl⟩
  · exact ⟨.right, rfl⟩
  · exact ⟨.down, rfl⟩
  · exact ⟨.left, rfl⟩

theorem Turn.apart (turn : Turn) : ∀ other ∈ ["up", "right", "down", "left"].map text,
    other ≠ turn.word → ¬ other <+: turn.word ∧ ¬ turn.word <+: other := by
  cases turn <;> decide

/-- A turn is captured twice: as the whole token and as its word. -/
theorem Turn.reads (turn : Turn) :
    Reads rotateExpr (turn.token ++ rest) [(6, turn.token), (7, turn.word)] rest := by
  have parts := reads_cons (.literal (text "<|rotate_") _)
    (reads_cons (.group (n := 7) (.words turn.listed turn.apart (text "|>" ++ rest)))
      (reads_cons (.literal (text "|>") rest) reads_nil))
  exact .left (.group ((turn.token_append rest).symm ▸ parts))

/-- What the group of the rotation finds is a rotate token. -/
theorem turn_of_mem {prev : Option Char} {found : Place × Groups}
    (mem : found ∈ outcomes (seqs [literal (text "<|rotate_"),
      .group 7 (eithers ((["up", "right", "down", "left"].map text).map literal)),
      literal (text "|>")]) ⟨prev, t⟩) : ∃ turn : Turn, turn.token <+: t := by
  obtain ⟨⟨⟨_, start⟩, _⟩, first, behind⟩ := List.mem_flatMap.mp mem
  obtain ⟨⟨_, _⟩, parts, -⟩ := List.mem_map.mp behind
  obtain ⟨⟨⟨_, stop⟩, _⟩, group, behind⟩ := List.mem_flatMap.mp parts
  obtain ⟨⟨_, _⟩, parts, -⟩ := List.mem_map.mp behind
  obtain ⟨⟨⟨_, tail⟩, _⟩, last, -⟩ := List.mem_flatMap.mp parts
  obtain ⟨⟨place, _⟩, word, same⟩ := List.mem_map.mp group
  obtain ⟨_, listed, isWord⟩ := words_mem (List.cons_ne_nil _ _) word
  obtain ⟨turn, rfl⟩ := Turn.of_listed listed
  obtain ⟨rfl, -⟩ := Prod.mk.inj same
  obtain rfl := literal_mem first
  obtain rfl : start = _ := isWord
  obtain rfl : stop = _ := literal_mem last
  exact ⟨turn, tail, turn.token_append tail⟩

/-- Where no turn stands, the optional part of the expression reads nothing. -/
theorem noTurn_reads (noTurn : ∀ turn : Turn, ¬ turn.token <+: t) : Reads rotateExpr t [] t := by
  refine .without (.group fun prev => List.eq_nil_iff_forall_not_mem.mpr fun found mem => ?_)
  obtain ⟨turn, h⟩ := turn_of_mem mem
  exact noTurn turn h

/-- What the groups of a header hold. -/
def Item.groups (item : Item w) : Groups :=
  [(1, item.x1.digits), (2, item.y1.digits), (3, item.x2.digits), (4, item.y2.digits),
    (5, item.kind)] ++ (item.turn.map fun turn => [(6, turn.token), (7, turn.word)]).getD []

/-- Both cases at the place behind a header. -/
theorem Item.turn_reads (item : Item w) (box : rest ≠ [] → text "<|box_start|>" <+: rest) :
    Reads rotateExpr (item.turnText ++ (item.following ++ rest))
      ((item.turn.map fun turn => [(6, turn.token), (7, turn.word)]).getD [])
      (item.following ++ rest) := by
  unfold Item.turnText
  cases is : item.turn with
  | some turn => exact turn.reads
  | none =>
    show Reads rotateExpr (item.following ++ rest) [] (item.following ++ rest)
    exact noTurn_reads (noTurn_append (item.noTurn is) box)

/-- The name of a block ends where the tag begins, since no character of the tag is one of a
word. -/
theorem word_not_tag (w : WordChars) {c : Char} (word : w.isWord c = true) (t : Text) :
    ¬ text "<|ref_end|>" <+: c :: t := by
  intro h
  have first : text "<|ref_end|>" = '<' :: text "|ref_end|>" := by decide
  rw [first, List.cons_prefix_cons] at h
  rw [← h.1, w.ascii '<' (by decide)] at word
  exact absurd word (by decide)

/-- The expression reads a header, whatever follows the item. -/
theorem Item.reads (item : Item w) (box : rest ≠ [] → text "<|box_start|>" <+: rest) :
    Reads (layoutExpr w) (item.header ++ (item.following ++ rest)) item.groups
      (item.following ++ rest) := by
  have turn := item.turn_reads box
  have kind : Reads (seqs [.group 5 (.seq (.one w.isWord) (.many false w.isWord)),
      literal (text "<|ref_end|>"), rotateExpr]) _ _ _ := Reads.lazy item.kindSome item.kindWord
    (fun c t word => Fails.seq (Fails.literal (word_not_tag w word t)))
    (reads_cons (.literal (text "<|ref_end|>") _) (reads_cons turn reads_nil))
  have tag : ∀ c ∈ (text "<|box_end|><|ref_start|>" ++ (item.kind ++ (text "<|ref_end|>" ++
      (item.turnText ++ (item.following ++ rest))))).head?, isDigit c = false := by
    have first : text "<|box_end|><|ref_start|>" = '<' :: text "|box_end|><|ref_start|>" := by decide
    rw [first]
    rintro _ ⟨⟩
    rfl
  have boxes := reads_cons (.literal (text "<|box_start|>") _)
    (reads_cons (item.x1.reads 1 item.blanks1.stops) (reads_cons (item.blanks1.reads item.y1)
    (reads_cons (item.y1.reads 2 item.blanks2.stops) (reads_cons (item.blanks2.reads item.x2)
    (reads_cons (item.x2.reads 3 item.blanks3.stops) (reads_cons (item.blanks3.reads item.y2)
    (reads_cons (item.y2.reads 4 tag)
    (reads_cons (.literal (text "<|box_end|><|ref_start|>") _) kind))))))))
  rw [item.header_append]
  simp only [List.nil_append, List.append_nil, List.cons_append] at boxes
  exact boxes

end Expression

/-! ## The headers of a stream -/

section Stream

variable {w : WordChars} {rest : Text}

/-- A stream that is not empty begins with a tag. -/
theorem box_of_stream (items : List (Item w)) (some : items.flatMap Item.stream ≠ []) :
    text "<|box_start|>" <+: items.flatMap Item.stream := by
  cases items with
  | nil => exact absurd rfl some
  | cons item items =>
    rw [List.flatMap_cons, Item.stream, List.append_assoc, item.header_append]
    exact List.prefix_append _ _

/-- No header begins in the free text. -/
theorem free_following {gap : Text} (noHeader : ¬ text "<|box_start|>" <:+: gap)
    (box : rest ≠ [] → text "<|box_start|>" <+: rest) :
    Matches.Free (matchAt (layoutExpr w)) gap rest := by
  induction gap with
  | nil => trivial
  | cons c gap ih =>
    refine ⟨?_, ih fun inside => noHeader (inside.trans (List.suffix_cons c gap).isInfix)⟩
    have here : ¬ text "<|box_start|>" <+: (c :: gap) ++ rest := by
      intro h
      exact noHeader (straddle box_once (head_box box) (List.cons_ne_nil _ _) h).isInfix
    exact Fails.matchAt (Fails.seq (Fails.literal here))

theorem leading_before (gap : Text) (pieces : Matches.Pieces Char Groups) :
    leading (Matches.before gap pieces) = gap ++ leading pieces := by
  obtain ⟨_ | ⟨⟨first, b⟩, found⟩, tail⟩ := pieces
  · rfl
  · rfl

/-- Text before the first header takes no part in what is captured. -/
theorem tokens_before (gap : Text) (pieces : Matches.Pieces Char Groups) :
    tokens (Matches.before gap pieces).1 (Matches.before gap pieces).2 =
      tokens pieces.1 pieces.2 := by
  obtain ⟨_ | ⟨⟨first, b⟩, found⟩, tail⟩ := pieces
  · rfl
  · rfl

theorem Item.header_ne_nil (item : Item w) : item.header ≠ [] := by
  intro empty
  have tag := item.header_append []
  rw [empty, boxStart_eq] at tag
  exact nomatch tag

/-- The matches in a stream are its headers, each with the text of its item. -/
theorem captures_stream (items : List (Item w)) :
    captures w (items.flatMap Item.stream) =
        items.map (fun item => tokenOf item.groups item.following) ∧
      leading (Matches.cut (matchAt (layoutExpr w)) 0 (items.flatMap Item.stream)) = [] := by
  induction items with
  | nil => exact ⟨rfl, rfl⟩
  | cons item items ih =>
    have box := box_of_stream items
    have header := Matches.cut_match (item.reads box).matchAt item.header_ne_nil
    have gap := Matches.cut_gap (free_following (w := w) item.noHeader box)
    obtain ⟨later, first⟩ := ih
    have trailing := leading_before item.following
      (Matches.cut (matchAt (layoutExpr w)) 0 (items.flatMap Item.stream))
    rw [first, List.append_nil] at trailing
    unfold captures at later ⊢
    rw [List.flatMap_cons, Item.stream, List.append_assoc, header, gap]
    refine ⟨?_, rfl⟩
    dsimp only [tokens] at later ⊢
    rw [trailing, tokens_before, later, List.map_cons]

end Stream

/-! ## The blocks of a stream -/

section Blocks

variable {w : WordChars}

theorem isInfix_eq (needle t : Text) : isInfix needle t = decide (needle <:+: t) := by
  rw [Bool.eq_iff_iff, decide_eq_true_iff, isInfix, List.any_eq_true]
  constructor
  · rintro ⟨tail, mem, h⟩
    exact (List.isPrefixOf_iff_prefix.mp h).isInfix.trans ((List.mem_tails _ _).mp mem).isInfix
  · intro inside
    obtain ⟨tail, front, back⟩ := List.infix_iff_prefix_suffix.mp inside
    exact ⟨tail, (List.mem_tails _ _).mpr back, List.isPrefixOf_iff_prefix.mpr front⟩

/-- A box with its corners in order and inside of the page is taken as it is. -/
theorem normalizedBbox_of {left top right bottom : Rat} (left_nonneg : 0 ≤ left)
    (top_nonneg : 0 ≤ top) (across : left < right) (down : top < bottom) (right_le : right ≤ 1)
    (bottom_le : bottom ≤ 1) :
    normalizedBbox left top right bottom = .ok ⟨left, top, right, bottom⟩ := by
  have unit : [left, top, right, bottom].any (fun v => !inUnit v) = false := by
    simp only [List.any_cons, List.any_nil, Bool.or_false, Bool.or_eq_false_iff,
      Bool.not_eq_false', inUnit, Bool.and_eq_true, decide_eq_true_eq]
    refine ⟨⟨left_nonneg, ?_⟩, ⟨top_nonneg, ?_⟩, ⟨?_, right_le⟩, ?_, bottom_le⟩
    · linarith
    · linarith
    · linarith
    · linarith
  rw [normalizedBbox, unit, if_neg]
  rintro (no | no | no)
  · exact absurd no Bool.false_ne_true
  · exact absurd across (not_lt.mpr no)
  · exact absurd down (not_lt.mpr no)

/-- Coordinates have no sign. -/
theorem coordinate_nonneg (digits : Text) : 0 ≤ coordinate digits := Nat.cast_nonneg _

theorem rotationOf_word (turn : Turn) :
    rotationOf (some (String.ofList turn.word)) = some turn.rotation := by
  cases turn <;> rfl

/-- A header is read as the block that it stands for. -/
theorem readToken_item (item : Item w) : readToken (tokenOf item.groups item.following) = item.block := by
  have x1 := coordinate_nonneg item.x1.digits
  have y1 := coordinate_nonneg item.y1.digits
  have x2 := coordinate_nonneg item.x2.digits
  have y2 := coordinate_nonneg item.y2.digits
  have x1' := item.x1.small
  have y1' := item.y1.small
  have x2' := item.x2.small
  have y2' := item.y2.small
  have bbox := normalizedBbox_of
    (div_nonneg (le_min x1 x2) (by norm_num : (0 : Rat) ≤ 1000))
    (div_nonneg (le_min y1 y2) (by norm_num : (0 : Rat) ≤ 1000))
    (div_lt_div_of_pos_right (min_lt_max.mpr item.across) (by norm_num : (0 : Rat) < 1000))
    (div_lt_div_of_pos_right (min_lt_max.mpr item.down) (by norm_num : (0 : Rat) < 1000))
    ((div_le_one (by norm_num : (0 : Rat) < 1000)).mpr (max_le x1' x2'))
    ((div_le_one (by norm_num : (0 : Rat) < 1000)).mpr (max_le y1' y2'))
  have rotation : rotationOf ((item.groups.get 7).map String.ofList) =
      item.turn.map Turn.rotation := by
    unfold Item.groups
    cases item.turn with
    | none => rfl
    | some turn => exact rotationOf_word turn
  have groups : tokenOf item.groups item.following =
      ⟨item.x1.digits, item.y1.digits, item.x2.digits, item.y2.digits, String.ofList item.kind,
        (item.groups.get 7).map String.ofList, item.following⟩ := rfl
  rw [groups, readToken, Item.block]
  dsimp only
  rw [bbox]
  dsimp only
  simp only [rotation, isInfix_eq, List.contains_iff_mem]

/-- The loop goes on to the limit, and stops at the first block behind it. -/
theorem parseBlocks_eq {maxBlocks : Nat} {blocks : List VlmLayoutBlock} {tokens : List Token}
    (within : blocks.length ≤ maxBlocks) : parseBlocks maxBlocks blocks tokens =
      ((blocks ++ tokens.filterMap readToken).take maxBlocks,
        decide (maxBlocks < (blocks ++ tokens.filterMap readToken).length)) := by
  induction tokens generalizing blocks with
  | nil =>
    rw [parseBlocks, List.filterMap_nil, List.append_nil, List.take_of_length_le within,
      decide_eq_false (Nat.not_lt.mpr within)]
  | cons token tokens ih =>
    unfold parseBlocks
    cases read : readToken token with
    | none =>
      dsimp only
      rw [ih within, List.filterMap_cons_none read]
    | some block =>
      dsimp only
      rw [List.filterMap_cons_some read]
      split
      · rename_i full
        have exact : blocks.length = maxBlocks := Nat.le_antisymm within full
        rw [List.take_append_of_le_length full, List.take_of_length_le within, decide_eq_true]
        rw [List.length_append, List.length_cons]
        omega
      · rename_i room
        have next : (blocks ++ [block]).length ≤ maxBlocks := by
          rw [List.length_append, List.length_singleton]
          omega
        rw [ih next, List.append_assoc, List.singleton_append]

/-- The blocks of a stream of items, up to the limit, and whether there are more. -/
theorem parseBlocks_stream (items : List (Item w)) (maxBlocks : Nat) :
    parseBlocks maxBlocks [] (captures w (items.flatMap Item.stream)) =
      ((items.filterMap Item.block).take maxBlocks,
        decide (maxBlocks < (items.filterMap Item.block).length)) := by
  rw [(captures_stream items).1, parseBlocks_eq (Nat.zero_le _), List.nil_append, List.filterMap_map]
  have same : readToken ∘ (fun item : Item w => tokenOf item.groups item.following) = Item.block :=
    funext readToken_item
  rw [same]

/-- **Parsing a stream returns the blocks of its items**, and fails on a limit exactly when there
are too many. An item whose kind or box is not accepted has no block, and the others do not depend
on it. -/
theorem parse_stream (items : List (Item w)) (maxBlocks : Nat) :
    ((items.filterMap Item.block).length ≤ maxBlocks →
      parseBlocks maxBlocks [] (captures w (items.flatMap Item.stream)) =
        (items.filterMap Item.block, false)) ∧
    ((∃ resource limit actual, parseLayout w maxBlocks (items.flatMap Item.stream) =
        .error (.limitExceeded resource limit actual)) ↔
      maxBlocks < (items.filterMap Item.block).length) := by
  have parsed := parseBlocks_stream items maxBlocks
  refine ⟨fun fits => ?_, ?_⟩
  · rw [parsed, List.take_of_length_le fits, decide_eq_false (Nat.not_lt.mpr fits)]
  · unfold parseLayout
    rw [parsed]
    dsimp only
    by_cases more : maxBlocks < (items.filterMap Item.block).length
    · rw [if_pos (decide_eq_true more)]
      exact iff_of_true ⟨_, _, _, rfl⟩ more
    · rw [if_neg (by simpa using more)]
      refine iff_of_false ?_ more
      rintro ⟨resource, limit, actual, is⟩
      split at is
      · exact nomatch is
      · exact nomatch is

end Blocks

/-! ## Items of a stream -/

def oneBlank : Blanks where
  blanks := [' ']
  some := nofun
  white := by simp [isWhitespace]

def plainWords : WordChars where
  isWord c := decide (c.toNat < 128) && (c.isAlphanum || c == '_')
  ascii c small := by rw [decide_eq_true small, Bool.true_and]

/-- An item of this kind, with one blank between its numbers. -/
def printedItem (x1 y1 x2 y2 : Nat) (kind : String) (turn : Option Turn) (following : String)
    (small : x1 ≤ 1000 ∧ y1 ≤ 1000 ∧ x2 ≤ 1000 ∧ y2 ≤ 1000) (apart : x1 ≠ x2 ∧ y1 ≠ y2)
    (kindSome : text kind ≠ []) (kindWord : (text kind).all plainWords.isWord = true)
    (noHeader : isInfix (text "<|box_start|>") (text following) = false)
    (noTurn : ∀ turn : Turn, ¬ turn.token <+: text following) : Item plainWords where
  x1 := .ofNat x1 small.1
  y1 := .ofNat y1 small.2.1
  x2 := .ofNat x2 small.2.2.1
  y2 := .ofNat y2 small.2.2.2
  blanks1 := oneBlank
  blanks2 := oneBlank
  blanks3 := oneBlank
  kind := text kind
  turn
  following := text following
  across := by
    show coordinate (Nat.toDigits 10 x1) ≠ coordinate (Nat.toDigits 10 x2)
    rw [coordinate_toDigits, coordinate_toDigits]
    exact_mod_cast apart.1
  down := by
    show coordinate (Nat.toDigits 10 y1) ≠ coordinate (Nat.toDigits 10 y2)
    rw [coordinate_toDigits, coordinate_toDigits]
    exact_mod_cast apart.2
  kindSome
  kindWord := List.all_eq_true.mp kindWord
  noHeader h := by
    rw [isInfix_eq, decide_eq_true h] at noHeader
    cases noHeader
  noTurn _ := noTurn

theorem noTurn_of_head {t : Text} {c : Char} (head : t.head? = some c) (other : c ≠ '<')
    (turn : Turn) : ¬ turn.token <+: t := by
  rintro ⟨rest, rfl⟩
  have first : (turn.token ++ rest).head? = some '<' := by cases turn <;> rfl
  exact other (Option.some.inj (head.symm.trans first))

/-- A text with its corners swapped and turned, a kind that is not listed, and a title. -/
def threeItems : List (Item plainWords) :=
  [printedItem 900 200 100 100 "text" (some .right) "Hello txt_contd_tgt\n" (by decide) (by decide)
      (by decide) (by decide) (by decide) (noTurn_of_head (c := 'H') (by decide) (by decide)),
    printedItem 0 0 10 10 "stamp" none " seal" (by decide) (by decide) (by decide) (by decide)
      (by decide) (noTurn_of_head (c := ' ') (by decide) (by decide)),
    printedItem 100 300 900 600 "title" none "Tail" (by decide) (by decide) (by decide) (by decide)
      (by decide) (noTurn_of_head (c := 'T') (by decide) (by decide))]

theorem threeItems_blocks : (threeItems.filterMap Item.block).map
      (fun b => (b.blockType, b.angle, b.mergePrev)) =
    [("text", some .deg90, some true), ("title", none, some false)] := by
  decide +kernel

/-- The two blocks are read; a limit of one is exceeded. -/
theorem parse_stream_three :
    (∃ blocks, parseBlocks 2 [] (captures plainWords (threeItems.flatMap Item.stream)) =
        (blocks, false) ∧
      blocks.map (fun b => (b.blockType, b.angle, b.mergePrev)) =
        [("text", some .deg90, some true), ("title", none, some false)]) ∧
    ∃ resource limit actual, parseLayout plainWords 1 (threeItems.flatMap Item.stream) =
      .error (.limitExceeded resource limit actual) := by
  have two : (threeItems.filterMap Item.block).length = 2 := by
    have lengths := congrArg List.length threeItems_blocks
    rwa [List.length_map] at lengths
  exact ⟨⟨_, (parse_stream threeItems 2).1 two.le, threeItems_blocks⟩,
    (parse_stream threeItems 1).2.mpr (by rw [two]; exact Nat.lt_succ_self 1)⟩

end Mineru.Layout
