import Mineru.Builders.Render
import Mineru.Laws.Trim

/-!
# The text of a paragraph

A paragraph is read as its places: the spans in order, each with what stands behind it. Every place
adds a piece (`mergeBlockLines_places`), and without white space the piece is what the span says,
but for a hyphen at the end of a line (`Place.piece_written`). Two places go wrong: an equation
without content is written as two dollars, and a dash behind a word is taken for its hyphen. The
text is conserved exactly if there is none of them (`paragraph_renders_iff`).

That the two kinds of failure cannot make up for each other is an argument by counting: a taken dash
makes the text shorter and an empty equation makes it longer, but only the second adds dollars
(`Place.piece_dollars`). White space is left out on both sides, since where the renderer puts a
blank depends on the language.

A paragraph is a block of text or of references with its spans as `text_spans` builds them. Titles,
code and captions are written by other functions.
-/

set_option autoImplicit false

namespace Mineru.Builders

open Logic
open Vlm (splitWhitespace)

/-! ## Words and hyphens -/

theorem splitWhitespace_word {word : Text} (some : word ≠ [])
    (shown : ∀ c ∈ word, isWhitespace c = false) : splitWhitespace word = [word] := by
  unfold splitWhitespace
  rw [List.splitOnP_eq_singleton shown, List.filter_singleton, decide_eq_true some, cond_true]

theorem splitWhitespace_append {blank : Char} (isBlank : isWhitespace blank = true) (t u : Text) :
    splitWhitespace (t ++ blank :: u) = splitWhitespace t ++ splitWhitespace u := by
  unfold splitWhitespace
  rw [List.splitOnP_append_cons _ _ isBlank, List.filter_append]

theorem splitWhitespace_blank {gap : Text} (blank : ∀ c ∈ gap, isWhitespace c = true) :
    splitWhitespace gap = [] := by
  induction gap with
  | nil => rfl
  | cons c gap ih =>
    have first := splitWhitespace_append (blank c List.mem_cons_self) [] gap
    rw [List.nil_append] at first
    rw [first, ih fun d mem => blank d (List.mem_cons_of_mem c mem)]
    rfl

/-- The white space before a word, and its letters. -/
structure AsciiWord (front word : Text) : Prop where
  some : word ≠ []
  letters : ∀ c ∈ word, isAsciiAlphabetic c = true
  starts : ∀ c ∈ front.getLast?, isWhitespace c = true

theorem isAsciiAlphabetic_shown {c : Char} (letter : isAsciiAlphabetic c = true) :
    isWhitespace c = false := by
  have codes : (97 ≤ c.toNat ∧ c.toNat ≤ 122) ∨ (65 ≤ c.toNat ∧ c.toNat ≤ 90) := by
    unfold isAsciiAlphabetic at letter
    simp only [Bool.or_eq_true, Bool.and_eq_true, decide_eq_true_eq] at letter
    exact letter
  rw [← Bool.not_eq_true]
  intro blank
  unfold isWhitespace at blank
  simp only [Bool.or_eq_true, Bool.and_eq_true, decide_eq_true_eq, beq_iff_eq] at blank
  omega

/-- A hyphen is visible, so to take it away is seen. -/
theorem isHyphen_shown {c : Char} (hyphen : isHyphen c = true) : isWhitespace c = false := by
  unfold isHyphen at hyphen
  simp only [List.contains_cons, List.contains_nil, Bool.or_false, Bool.or_eq_true, beq_iff_eq] at hyphen
  rcases hyphen with rfl | rfl | rfl | rfl | rfl <;> decide

/-- The last word of a text, with white space behind it. -/
theorem splitWhitespace_getLast? {front word gap : Text} (some : word ≠ [])
    (shown : ∀ c ∈ word, isWhitespace c = false) (starts : ∀ c ∈ front.getLast?, isWhitespace c = true)
    (blank : ∀ c ∈ gap, isWhitespace c = true) :
    (splitWhitespace (front ++ word ++ gap)).getLast? = .some word := by
  have last : (splitWhitespace (front ++ word)).getLast? = .some word := by
    rcases List.eq_nil_or_concat' front with rfl | ⟨front, c, rfl⟩
    · rw [List.nil_append, splitWhitespace_word some shown]
      rfl
    · have space : isWhitespace c = true := starts c (by rw [List.getLast?_concat]; rfl)
      rw [List.append_assoc, List.singleton_append, splitWhitespace_append space,
        splitWhitespace_word some shown, List.getLast?_concat]
  cases gap with
  | nil => rwa [List.append_nil]
  | cons c gap =>
    rw [splitWhitespace_append (blank c List.mem_cons_self),
      splitWhitespace_blank fun d mem => blank d (List.mem_cons_of_mem c mem), List.append_nil, last]

/-- The last word of a text stands behind white space or at its beginning. -/
theorem splitWhitespace_last {t word : Text} (last : (splitWhitespace t).getLast? = some word) :
    ∃ front gap, t = front ++ word ++ gap ∧ word ≠ [] ∧ (∀ c ∈ word, isWhitespace c = false) ∧
      (∀ c ∈ front.getLast?, isWhitespace c = true) ∧ ∀ c ∈ gap, isWhitespace c = true := by
  let body := t.rdropWhile isWhitespace
  let gap := t.rtakeWhile isWhitespace
  let found := body.rtakeWhile fun c => !isWhitespace c
  let front := body.rdropWhile fun c => !isWhitespace c
  have inner : front ++ found = body := List.rdropWhile_append_rtakeWhile
  have whole : front ++ found ++ gap = t := by
    rw [inner]
    exact List.rdropWhile_append_rtakeWhile
  have blank : ∀ c ∈ gap, isWhitespace c = true := fun c mem => List.mem_rtakeWhile_imp mem
  have shown : ∀ c ∈ found, isWhitespace c = false := fun c mem =>
    Bool.not_eq_true' _ ▸ List.mem_rtakeWhile_imp (p := fun c => !isWhitespace c) mem
  have starts : ∀ c ∈ front.getLast?, isWhitespace c = true := by
    intro c ends
    have some : front ≠ [] := fun empty => by
      rw [empty] at ends
      exact nomatch ends
    have stop : ¬ (!isWhitespace (front.getLast some)) = true :=
      List.rdropWhile_last_not (fun c => !isWhitespace c) body some
    have is : front.getLast some = c := Option.some.inj ((List.getLast?_eq_some_getLast some).symm.trans ends)
    rw [is] at stop
    simpa using stop
  by_cases some : found = []
  · -- without a last word, the text before the gap is empty
    have empty : body = [] := by
      by_contra filled
      have ends : ¬ isWhitespace (body.getLast filled) = true :=
        List.rdropWhile_last_not isWhitespace t filled
      have same : front = body := by
        rw [some, List.append_nil] at inner
        exact inner
      exact ends (starts _ (by rw [same]; exact List.getLast?_eq_some_getLast filled))
    have gone : gap = t := by
      rw [← whole, inner, empty, List.nil_append]
    rw [← gone, splitWhitespace_blank blank] at last
    exact nomatch last
  · have is := splitWhitespace_getLast? some shown starts blank
    rw [whole] at is
    obtain rfl : found = word := Option.some.inj (is.symm.trans last)
    exact ⟨front, gap, whole.symm, some, shown, starts, blank⟩

/-- The text ends with an ASCII word and a hyphen. -/
def EndsWord (t : Text) : Prop :=
  ∃ front word hyphen, t = front ++ word ++ [hyphen] ∧ isHyphen hyphen = true ∧ AsciiWord front word

/-- There is white space between the last word and the hyphen. -/
def EndsDash (t : Text) : Prop :=
  ∃ front word gap hyphen, t = front ++ word ++ gap ++ [hyphen] ∧ isHyphen hyphen = true ∧
    AsciiWord front word ∧ gap ≠ [] ∧ ∀ c ∈ gap, isWhitespace c = true

theorem endsHyphenated_iff {t : Text} : endsHyphenated t = true ↔ EndsWord t ∨ EndsDash t := by
  unfold endsHyphenated
  rw [Bool.and_eq_true, Option.any_eq_true, Option.any_eq_true]
  constructor
  · rintro ⟨⟨hyphen, ends, isHyphen⟩, word, last, letters⟩
    have parts : t.dropLast ++ [hyphen] = t := List.dropLast_append_getLast? hyphen ends
    obtain ⟨front, gap, is, some, -, starts, blank⟩ := splitWhitespace_last last
    have ascii : AsciiWord front word := ⟨some, List.all_eq_true.mp letters, starts⟩
    rcases gap with _ | ⟨c, gap⟩
    · left
      rw [List.append_nil] at is
      exact ⟨front, word, hyphen, by rw [← is, parts], isHyphen, ascii⟩
    · right
      exact ⟨front, word, c :: gap, hyphen, by rw [← is, parts], isHyphen, ascii,
        List.cons_ne_nil _ _, blank⟩
  · have read {front word gap : Text} {hyphen : Char} (isHyphen' : isHyphen hyphen = true)
        (ascii : AsciiWord front word) (blank : ∀ c ∈ gap, isWhitespace c = true) :
        (∃ x, (front ++ word ++ gap ++ [hyphen]).getLast? = some x ∧ isHyphen x = true) ∧
          ∃ x, (splitWhitespace (front ++ word ++ gap ++ [hyphen]).dropLast).getLast? = some x ∧
            (x.all isAsciiAlphabetic) = true := by
      refine ⟨⟨hyphen, List.getLast?_concat, isHyphen'⟩, word, ?_, List.all_eq_true.mpr ascii.letters⟩
      rw [List.dropLast_concat]
      exact splitWhitespace_getLast? ascii.some
        (fun c mem => isAsciiAlphabetic_shown (ascii.letters c mem)) ascii.starts blank
    rintro (⟨front, word, hyphen, rfl, isHyphen, ascii⟩ |
      ⟨front, word, gap, hyphen, rfl, isHyphen, ascii, -, blank⟩)
    · have tight : ∀ c ∈ ([] : Text), isWhitespace c = true := nofun
      have bare := read isHyphen ascii tight
      rwa [List.append_nil] at bare
    · exact read isHyphen ascii blank

/-- A hyphen belongs to its word or stands apart. -/
theorem EndsWord.not_dash {t : Text} (ends : EndsWord t) : ¬ EndsDash t := by
  obtain ⟨front, word, hyphen, rfl, -, ascii⟩ := ends
  rintro ⟨front', word', gap, hyphen', same, -, -, some, blank⟩
  obtain ⟨body, -⟩ := List.append_inj' same rfl
  obtain ⟨letters, c, is⟩ := (List.eq_nil_or_concat' word).resolve_left ascii.some
  obtain ⟨gap', d, is'⟩ := (List.eq_nil_or_concat' gap).resolve_left some
  rw [is, is', ← List.append_assoc, ← List.append_assoc] at body
  obtain ⟨-, last⟩ := List.append_inj' body rfl
  have letter := isAsciiAlphabetic_shown (ascii.letters c (by rw [is]; exact List.mem_append_right _ (List.mem_singleton_self c)))
  have space := blank d (by rw [is']; exact List.mem_append_right _ (List.mem_singleton_self d))
  obtain ⟨rfl, -⟩ := List.cons.inj last
  rw [space] at letter
  exact nomatch letter

/-! ## Places -/

/-- A span with the spans behind it in its line and the later lines. -/
structure Place where
  span : Span
  after : List Span
  later : List Line

def linePlaces (later : List Line) : List Span → List Place
  | [] => []
  | span :: after => ⟨span, after, later⟩ :: linePlaces later after

def spanPlaces : List Line → List Place
  | [] => []
  | line :: later => linePlaces later line.spans ++ spanPlaces later

/-- The spans behind a place. -/
def Place.behind (p : Place) : List Span := p.after ++ p.later.flatMap Line.spans

theorem linePlaces_spans (later : List Line) (spans : List Span) :
    (linePlaces later spans).map Place.span = spans := by
  induction spans with
  | nil => rfl
  | cons span after ih => rw [linePlaces, List.map_cons, ih]

theorem spanPlaces_spans (lines : List Line) : (spanPlaces lines).map Place.span = lines.flatMap Line.spans := by
  induction lines with
  | nil => rfl
  | cons line later ih => rw [spanPlaces, List.map_append, linePlaces_spans, ih, List.flatMap_cons]

/-- What a place sees behind it are the spans of the later places. -/
theorem linePlaces_behind {later : List Line} {spans : List Span} {front back : List Place} {p : Place}
    (cut : linePlaces later spans = front ++ p :: back) :
    p.behind = back.map Place.span ++ later.flatMap Line.spans := by
  induction spans generalizing front with
  | nil => exact absurd cut.symm (List.append_ne_nil_of_right_ne_nil _ (List.cons_ne_nil _ _))
  | cons span after ih =>
    rcases front with _ | ⟨q, front⟩
    · obtain ⟨rfl, rfl⟩ := List.cons.inj cut
      rw [linePlaces_spans]
      rfl
    · exact ih (List.cons.inj cut).2

/-- What stands behind a place are the spans behind it, on its line and on the ones below. -/
theorem spanPlaces_behind {lines : List Line} {front back : List Place} {p : Place}
    (cut : spanPlaces lines = front ++ p :: back) : p.behind = back.map Place.span := by
  induction lines generalizing front with
  | nil => exact absurd cut.symm (List.append_ne_nil_of_right_ne_nil _ (List.cons_ne_nil _ _))
  | cons line later ih =>
    rcases List.append_eq_append_iff.mp cut with ⟨rest, rfl, below⟩ | ⟨rest, here, below⟩
    · exact ih below
    · rcases rest with _ | ⟨q, rest⟩
      · have whole : spanPlaces later = [] ++ p :: back := below.symm
        exact ih whole
      · obtain ⟨rfl, rfl⟩ := List.cons.inj below
        rw [linePlaces_behind here, ← spanPlaces_spans]
        exact List.map_append.symm

/-- What the loop pushes for a place. -/
def Place.piece (block : Block) (formulaEnable cjk : Bool) (p : Place) : Text :=
  mergeSpan block formulaEnable cjk p.span p.after p.later

/-- The loop over a line adds the piece of each place. -/
theorem mergeLine_places (block : Block) (formulaEnable cjk : Bool) (later : List Line)
    (spans : List Span) : mergeLine block formulaEnable cjk later spans =
      (linePlaces later spans).flatMap (Place.piece block formulaEnable cjk) := by
  induction spans with
  | nil => rfl
  | cons span after ih => rw [mergeLine, ih, linePlaces, List.flatMap_cons, Place.piece]

/-- The output is the pieces of the places. -/
theorem mergeBlockLines_places (block : Block) (formulaEnable cjk : Bool) (lines : List Line) :
    mergeBlockLines block formulaEnable cjk lines =
      (spanPlaces lines).flatMap (Place.piece block formulaEnable cjk) := by
  induction lines with
  | nil => rfl
  | cons line later ih =>
    rw [mergeBlockLines, ih, mergeLine_places, spanPlaces, List.flatMap_append]

/-! ## What a paragraph says -/

/-- A block of text: `text_spans` makes nothing but texts and inline equations. -/
structure Paragraph (block : Block) : Prop where
  kind : block.kind = "text" ∨ block.kind = "ref_text"
  spans : ∀ span ∈ block.lines.flatMap Line.spans, isText span = true ∨ isInlineEquation span = true

/-- The block has a CJK character in its text. -/
def hasCjk (block : Block) : Bool := (aggregateText block).any isCjk

/-- The trimmed Markdown of a text. -/
def spoken (content : Text) : Text := trim (markdownText (normalizeFullWidth content))

/-- A text at the end of its line, with a property. -/
def Place.EndsLine (p : Place) (property : Text → Prop) : Prop :=
  p.after = [] ∧ ∃ content, p.span = .text content ∧ property (spoken content)

/-- The hyphen of a word that goes on in the next line. -/
def Place.Divides (cjk : Bool) (p : Place) : Prop :=
  cjk = false ∧ p.EndsLine EndsWord ∧ startsLowercase p.later.head? = true

/-- A dash before a line that starts with a lower-case letter. -/
def Place.Dashes (cjk : Bool) (p : Place) : Prop :=
  cjk = false ∧ p.EndsLine EndsDash ∧ startsLowercase p.later.head? = true

/-- What a span says, without white space. -/
def said : Span → Text
  | .text content => visible (spoken content)
  | .inlineEquation content => if content = [] then [] else visible ('$' :: (content ++ ['$']))
  | _ => []

open Classical in
/-- What is to be written at a place, without white space. -/
noncomputable def Place.written (cjk : Bool) (p : Place) : Text :=
  if p.Divides cjk then (said p.span).dropLast else said p.span

/-- The words of two spans are kept apart: where the second one begins there is white space, or a
hyphen ends the line of the first one. -/
def Parted (block : Block) (output : Text) : Prop :=
  hasCjk block = false → ∀ front p back, spanPlaces block.lines = front ++ p :: back →
    isJoinable p.span = true → (∃ q ∈ back, isJoinable q.span = true) →
      ∃ a b, output = a ++ b ∧
        visible a = (front ++ [p]).flatMap (Place.written false) ∧
        visible b = back.flatMap (Place.written false) ∧
        ((p.EndsLine fun t => ∃ hyphen ∈ t.getLast?, isHyphen hyphen = true) ∨
          (∃ c ∈ a.getLast?, isWhitespace c = true) ∨ ∃ c ∈ b.head?, isWhitespace c = true)

/-- The text of a paragraph is conserved, and its words are kept apart. -/
structure Renders (block : Block) (output : Text) : Prop where
  conserved : visible output = (spanPlaces block.lines).flatMap (Place.written (hasCjk block))
  parted : Parted block output

/-- No equation without content, and no dash that looks like the hyphen of a word. -/
structure Plain (block : Block) : Prop where
  filled : ∀ p ∈ spanPlaces block.lines, p.span ≠ .inlineEquation []
  dashless : ∀ p ∈ spanPlaces block.lines, ¬ p.Dashes (hasCjk block)

/-- Escaping drops nothing. -/
theorem mem_escapeFrom {c : Char} {t : Text} (mem : c ∈ t) (backslashes : Nat) :
    c ∈ escapeFrom backslashes t := by
  induction t generalizing backslashes with
  | nil => exact absurd mem List.not_mem_nil
  | cons d t ih =>
    rw [escapeFrom]
    rcases List.mem_cons.mp mem with rfl | later
    · refine List.mem_append_left _ ?_
      split
      · exact List.mem_cons_of_mem _ (List.mem_singleton_self c)
      · exact List.mem_singleton_self c
    · exact List.mem_append_right _ (ih later _)

/-- A text with a word is spoken. -/
theorem spoken_ne_nil {content : Text} (word : trim (normalizeFullWidth content) ≠ []) :
    spoken content ≠ [] := by
  intro silent
  refine word (trim_eq_nil.mpr (visible_eq_nil.mpr fun c mem => ?_))
  have blank := visible_eq_nil.mp (trim_eq_nil.mp silent) (fullWidth c)
    (mem_escapeFrom (List.mem_map_of_mem mem) 0)
  rwa [fullWidth_blank] at blank

/-! ## The blocks that are built -/

theorem mem_of_ite {α : Type} {c : Prop} [Decidable c] {a b : List α} {x : α}
    (mem : x ∈ if c then a else b) : x ∈ a ∨ x ∈ b := by
  split at mem
  · exact .inl mem
  · exact .inr mem

/-- `text_spans` makes nothing but texts and inline equations. -/
theorem textSpans_speaks (content : Text) :
    ∀ span ∈ textSpans content, isText span = true ∨ isInlineEquation span = true := by
  have single (t : Text) : ∀ span ∈ [Span.text t], isText span = true ∨ isInlineEquation span = true := by
    intro span mem
    rw [List.mem_singleton.mp mem]
    exact .inl rfl
  have part (t : Text) : ∀ span ∈ (if trim t ≠ [] then [Span.text t] else []),
      isText span = true ∨ isInlineEquation span = true := fun span mem =>
    (mem_of_ite mem).elim (single t span) nofun
  intro span mem
  unfold textSpans at mem
  dsimp only at mem
  rcases mem_of_ite mem with whole | mem
  · exact single _ span whole
  · rcases mem_of_ite mem with whole | mem
    · exact single _ span whole
    · rcases List.mem_append.mp mem with found | after
      · obtain ⟨⟨before, groups⟩, -, inside⟩ := List.mem_flatMap.mp found
        rcases List.mem_append.mp inside with text | equation
        · exact part before span text
        · rw [List.mem_singleton.mp equation]
          exact .inr rfl
      · exact part _ span after

/-- Blocks that are built from a reply satisfy the assumptions. -/
theorem Paragraph.of_textSpans {block : Block} (kind : block.kind = "text" ∨ block.kind = "ref_text")
    (built : ∀ line ∈ block.lines, ∃ content, line.spans = textSpans content) : Paragraph block where
  kind
  spans span mem := by
    obtain ⟨line, listed, inside⟩ := List.mem_flatMap.mp mem
    obtain ⟨content, is⟩ := built line listed
    exact textSpans_speaks content span (is ▸ inside)

/-- What `merge_para_text` makes of two paragraphs. -/
theorem Paragraph.merged {previous current : Block} (first : Paragraph previous)
    (second : Paragraph current) :
    Paragraph { previous with lines := previous.lines ++ current.lines } where
  kind := first.kind
  spans span mem := by
    rw [List.flatMap_append] at mem
    rcases List.mem_append.mp mem with before | behind
    · exact first.spans span before
    · exact second.spans span behind

/-! ## Pieces -/

section Pieces

variable {block : Block} {formulaEnable cjk : Bool} {p : Place} {content : Text}

theorem visible_separated (t : Text) (b : Bool) :
    visible (t ++ if b then [' '] else []) = visible t := by
  have blank : visible [' '] = [] := by decide
  cases b
  · exact congrArg visible (List.append_nil t)
  · exact (visible_append t [' ']).trans (by rw [blank, List.append_nil])

/-- Taking the hyphen from a text takes it from what is visible. -/
theorem visible_dropLast {t : Text} {hyphen : Char} (last : t.getLast? = some hyphen)
    (isHyphen : isHyphen hyphen = true) : visible t = visible t.dropLast ++ [hyphen] := by
  have parts : t.dropLast ++ [hyphen] = t := List.dropLast_append_getLast? hyphen last
  conv_lhs => rw [← parts, visible_append, visible_cons (isHyphen_shown isHyphen), visible_nil]

/-- A text that ends in a hyphen has it as its last character, behind a word here and behind a dash
below. -/
theorem EndsWord.getLast? {t : Text} (ends : EndsWord t) :
    ∃ hyphen, t.getLast? = some hyphen ∧ isHyphen hyphen = true := by
  obtain ⟨front, word, hyphen, rfl, isHyphen, -⟩ := ends
  exact ⟨hyphen, List.getLast?_concat, isHyphen⟩

theorem EndsDash.getLast? {t : Text} (ends : EndsDash t) :
    ∃ hyphen, t.getLast? = some hyphen ∧ isHyphen hyphen = true := by
  obtain ⟨front, word, gap, hyphen, rfl, isHyphen, -, -, -⟩ := ends
  exact ⟨hyphen, List.getLast?_concat, isHyphen⟩

/-- A hyphen that the loop takes. -/
def Place.Taken (cjk : Bool) (p : Place) : Prop := p.Divides cjk ∨ p.Dashes cjk

/-- What is said at the end of a line ends with the hyphen. -/
theorem Place.Taken.said_eq (taken : p.Taken cjk) :
    ∃ front hyphen, said p.span = front ++ [hyphen] ∧ isHyphen hyphen = true := by
  have ends : ∃ content, p.span = .text content ∧
      ∃ hyphen, (spoken content).getLast? = some hyphen ∧ isHyphen hyphen = true := by
    rcases taken with ⟨-, ⟨-, content, is, word⟩, -⟩ | ⟨-, ⟨-, content, is, dash⟩, -⟩
    · exact ⟨content, is, word.getLast?⟩
    · exact ⟨content, is, dash.getLast?⟩
  obtain ⟨content, is, hyphen, last, isHyphen⟩ := ends
  rw [is]
  exact ⟨_, hyphen, visible_dropLast last isHyphen, isHyphen⟩

/-- The hyphenated line end of the source. -/
theorem hyphenatedLineEnd_iff (is : p.span = .text content) :
    (isText p.span && p.after.isEmpty && endsHyphenated (spoken content)) = true ↔
      p.EndsLine EndsWord ∨ p.EndsLine EndsDash := by
  have text : isText p.span = true := by
    rw [is]
    rfl
  rw [text, Bool.true_and, Bool.and_eq_true, endsHyphenated_iff, List.isEmpty_iff]
  constructor
  · rintro ⟨last, word | dash⟩
    · exact .inl ⟨last, content, is, word⟩
    · exact .inr ⟨last, content, is, dash⟩
  · rintro (⟨last, content', is', word⟩ | ⟨last, content', is', dash⟩)
    · obtain rfl := Span.text.inj (is.symm.trans is')
      exact ⟨last, .inl word⟩
    · obtain rfl := Span.text.inj (is.symm.trans is')
      exact ⟨last, .inr dash⟩

/-- When the hyphen of a place is taken: the language is not one without hyphens, nothing else
follows on the line, and the next line begins in lower case. -/
theorem Place.taken_iff (is : p.span = .text content) : p.Taken cjk ↔ cjk = false ∧
    (isText p.span && p.after.isEmpty && endsHyphenated (spoken content)) = true ∧
      startsLowercase p.later.head? = true := by
  rw [hyphenatedLineEnd_iff is]
  constructor
  · rintro (⟨plain, word, next⟩ | ⟨plain, dash, next⟩)
    · exact ⟨plain, .inl word, next⟩
    · exact ⟨plain, .inr dash, next⟩
  · rintro ⟨plain, word | dash, next⟩
    · exact .inl ⟨plain, word, next⟩
    · exact .inr ⟨plain, dash, next⟩

theorem value_text (notCode : block.kind ≠ "code_body") (content : Text) :
    trim (spanMarkdown block formulaEnable (.text content)) = spoken content := by
  unfold spanMarkdown
  dsimp only
  rw [if_pos notCode]
  rfl

theorem value_equation (content : Text) :
    trim (spanMarkdown block formulaEnable (.inlineEquation content)) = '$' :: (content ++ ['$']) := by
  refine trim_self (fun c first => ?_) fun c last => ?_
  · obtain rfl := Option.some.inj first
    decide
  · rw [spanMarkdown, ← List.cons_append, List.getLast?_concat] at last
    obtain rfl := Option.some.inj last
    decide

open Classical in
/-- The piece of a text says what the text says, but for a hyphen that is taken. -/
theorem Place.piece_text (notCode : block.kind ≠ "code_body") (is : p.span = .text content) :
    visible (p.piece block formulaEnable cjk) =
      if p.Taken cjk then (said p.span).dropLast else said p.span := by
  have isSaid : said (.text content) = visible (spoken content) := rfl
  have taken : p.Taken cjk ↔ _ := Place.taken_iff is
  unfold Place.piece mergeSpan
  dsimp only
  rw [is] at taken ⊢
  rw [value_text notCode, isSaid]
  split
  · rename_i empty
    rw [empty]
    split <;> rfl
  · split
    · rename_i isCjk
      rw [visible_separated, if_neg fun h => Bool.false_ne_true ((taken.mp h).1.symm.trans isCjk)]
    · rename_i plain
      have plain : cjk = false := Bool.not_eq_true _ ▸ plain
      split
      · rename_i ends
        split
        · rename_i next
          rw [if_pos (taken.mpr ⟨plain, ends, next⟩)]
          have hyphen : ∃ hyphen, (spoken content).getLast? = some hyphen ∧ isHyphen hyphen = true := by
            rcases endsHyphenated_iff.mp (Bool.and_eq_true_iff.mp ends).2 with word | dash
            · exact word.getLast?
            · exact dash.getLast?
          obtain ⟨hyphen, last, isHyphen⟩ := hyphen
          rw [visible_dropLast last isHyphen, List.dropLast_concat]
        · rename_i next
          rw [if_neg fun h => next (taken.mp h).2.2]
      · rename_i inside
        rw [visible_separated, if_neg fun h => inside (taken.mp h).2.1]

/-- The piece of an equation says the equation, also if it has no content. -/
theorem Place.piece_equation (is : p.span = .inlineEquation content) :
    visible (p.piece block formulaEnable cjk) = visible ('$' :: (content ++ ['$'])) := by
  unfold Place.piece mergeSpan
  dsimp only
  rw [is, value_equation, if_neg (List.cons_ne_nil _ _)]
  split
  · exact visible_separated _ _
  · rw [if_neg (by exact Bool.false_ne_true)]
    exact visible_separated _ _

theorem Place.written_equation (is : p.span = .inlineEquation content) :
    p.written cjk = said (.inlineEquation content) := by
  unfold Place.written
  rw [if_neg, is]
  rintro ⟨-, ⟨-, content', is', -⟩, -⟩
  exact Span.noConfusion (is.symm.trans is')

theorem said_equation (some : content ≠ []) :
    said (.inlineEquation content) = visible ('$' :: (content ++ ['$'])) := if_neg some

theorem Place.Taken.length (taken : p.Taken cjk) :
    (said p.span).dropLast.length + 1 = (said p.span).length := by
  obtain ⟨front, hyphen, is, -⟩ := taken.said_eq
  rw [is, List.dropLast_concat, List.length_append, List.length_singleton]

theorem Place.Taken.count (taken : p.Taken cjk) :
    (said p.span).dropLast.count '$' = (said p.span).count '$' := by
  obtain ⟨front, hyphen, is, isHyphen⟩ := taken.said_eq
  have other : hyphen ≠ '$' := fun same => by
    rw [same] at isHyphen
    exact absurd isHyphen (by decide)
  rw [is, List.dropLast_concat, List.count_append, List.count_singleton, if_neg (by simpa using other),
    Nat.add_zero]

variable (notCode : block.kind ≠ "code_body")
  (speaks : isText p.span = true ∨ isInlineEquation p.span = true)

theorem speaks_cases (speaks : isText p.span = true ∨ isInlineEquation p.span = true) :
    (∃ content, p.span = .text content) ∨ ∃ content, p.span = .inlineEquation content := by
  cases is : p.span with
  | text content => exact .inl ⟨content, rfl⟩
  | inlineEquation content => exact .inr ⟨content, rfl⟩
  | _ => simp [is, isText, isInlineEquation] at speaks

include notCode speaks

/-- Away from the two places that go wrong, the piece is what is to be written. -/
theorem Place.piece_written (filled : p.span ≠ .inlineEquation []) (dashless : ¬ p.Dashes cjk) :
    visible (p.piece block formulaEnable cjk) = p.written cjk := by
  rcases speaks_cases speaks with ⟨content, is⟩ | ⟨content, is⟩
  · rw [Place.piece_text notCode is, Place.written]
    by_cases divides : p.Divides cjk
    · rw [if_pos (.inl divides), if_pos divides]
    · have whole : ¬ p.Taken cjk := not_or_intro divides dashless
      rw [if_neg whole, if_neg divides]
  · have some : content ≠ [] := fun empty => filled (empty ▸ is)
    rw [Place.piece_equation is, Place.written_equation is, said_equation some]

/-- An equation without content adds two dollars, and nothing else changes their number. -/
theorem Place.piece_dollars :
    (p.written cjk).count '$' ≤ (visible (p.piece block formulaEnable cjk)).count '$' ∧
      (p.span = .inlineEquation [] →
        (p.written cjk).count '$' ≠ (visible (p.piece block formulaEnable cjk)).count '$') := by
  rcases speaks_cases speaks with ⟨content, is⟩ | ⟨content, is⟩
  · have piece : (visible (p.piece block formulaEnable cjk)).count '$' = (said p.span).count '$' := by
      rw [Place.piece_text notCode is]
      split
      · exact Place.Taken.count ‹_›
      · rfl
    have written : (p.written cjk).count '$' = (said p.span).count '$' := by
      unfold Place.written
      split
      · exact Place.Taken.count (.inl ‹_›)
      · rfl
    exact ⟨(written.trans piece.symm).le, fun empty => Span.noConfusion (is.symm.trans empty)⟩
  · rw [Place.piece_equation is, Place.written_equation is]
    by_cases empty : content = []
    · subst empty
      exact ⟨by decide, fun _ => by decide⟩
    · rw [said_equation empty]
      exact ⟨Nat.le_refl _, fun none => absurd (Span.inlineEquation.inj (is.symm.trans none)) empty⟩

/-- A dash takes a character from what is to be written. -/
theorem Place.piece_length (filled : p.span ≠ .inlineEquation []) :
    (visible (p.piece block formulaEnable cjk)).length ≤ (p.written cjk).length ∧
      (p.Dashes cjk →
        (visible (p.piece block formulaEnable cjk)).length ≠ (p.written cjk).length) := by
  by_cases dash : p.Dashes cjk
  · have taken : p.Taken cjk := .inr dash
    obtain ⟨-, ⟨-, content, is, ends⟩, -⟩ := dash
    have whole : ¬ p.Divides cjk := by
      rintro ⟨-, ⟨-, content', is', word⟩, -⟩
      obtain rfl := Span.text.inj (is.symm.trans is')
      exact word.not_dash ends
    have shorter := taken.length
    rw [Place.piece_text notCode is, if_pos taken, Place.written, if_neg whole]
    exact ⟨by omega, fun _ => by omega⟩
  · rw [Place.piece_written notCode speaks filled dash]
    exact ⟨Nat.le_refl _, fun h => absurd h dash⟩

end Pieces

/-! ## The paragraph -/

/-- Sums that are equal, of terms that are not greater. -/
theorem each_of_sum {α : Type} {f g : α → Nat} {l : List α} (le : ∀ a ∈ l, f a ≤ g a)
    (same : (l.map f).sum = (l.map g).sum) : ∀ a ∈ l, f a = g a := by
  induction l with
  | nil => exact nofun
  | cons a l ih =>
    have here := le a List.mem_cons_self
    have below : ∀ b ∈ l, f b ≤ g b := fun b mem => le b (List.mem_cons_of_mem a mem)
    have rest : (l.map f).sum ≤ (l.map g).sum := List.sum_le_sum below
    rw [List.map_cons, List.map_cons, List.sum_cons, List.sum_cons] at same
    intro b mem
    rcases List.mem_cons.mp mem with rfl | later
    · omega
    · exact ih below (by omega) b later

/-- What is seen of the pieces, one after another. -/
theorem visible_flatMap (l : List Place) (f : Place → Text) :
    visible (l.flatMap f) = l.flatMap fun p => visible (f p) := List.filter_flatMap

theorem Paragraph.notCode {block : Block} (paragraph : Paragraph block) : block.kind ≠ "code_body" := by
  rcases paragraph.kind with is | is <;> rw [is] <;> decide

theorem Paragraph.speaks {block : Block} (paragraph : Paragraph block) {p : Place}
    (mem : p ∈ spanPlaces block.lines) : isText p.span = true ∨ isInlineEquation p.span = true := by
  refine paragraph.spans p.span ?_
  rw [← spanPlaces_spans]
  exact List.mem_map_of_mem mem

/-- What is conserved shows that nothing goes wrong. -/
theorem Plain.of_conserved {block : Block} (paragraph : Paragraph block) (formulaEnable : Bool)
    (conserved : visible ((spanPlaces block.lines).flatMap (Place.piece block formulaEnable (hasCjk block))) =
      (spanPlaces block.lines).flatMap (Place.written (hasCjk block))) : Plain block := by
  rw [visible_flatMap] at conserved
  have filled : ∀ p ∈ spanPlaces block.lines, p.span ≠ .inlineEquation [] := by
    intro p mem empty
    have counts := congrArg (List.count '$') conserved
    rw [List.count_flatMap, List.count_flatMap] at counts
    have same := each_of_sum (fun p mem => (Place.piece_dollars paragraph.notCode (paragraph.speaks mem)).1) counts.symm p mem
    exact (Place.piece_dollars paragraph.notCode (paragraph.speaks mem)).2 empty same
  refine ⟨filled, fun p mem dash => ?_⟩
  have lengths := congrArg List.length conserved
  rw [List.length_flatMap, List.length_flatMap] at lengths
  have fewer : ∀ p ∈ spanPlaces block.lines,
      (visible (p.piece block formulaEnable (hasCjk block))).length ≤
        (p.written (hasCjk block)).length := fun p mem =>
    (Place.piece_length paragraph.notCode (paragraph.speaks mem) (filled p mem)).1
  have same := each_of_sum fewer lengths p mem
  exact (Place.piece_length paragraph.notCode (paragraph.speaks mem) (filled p mem)).2 dash same

theorem Plain.pieces {block : Block} (plain : Plain block) (paragraph : Paragraph block)
    (formulaEnable : Bool) {l : List Place} (sub : ∀ p ∈ l, p ∈ spanPlaces block.lines) :
    visible (l.flatMap (Place.piece block formulaEnable (hasCjk block))) =
      l.flatMap (Place.written (hasCjk block)) := by
  rw [visible_flatMap]
  refine List.flatMap_congr fun p mem => ?_
  exact Place.piece_written paragraph.notCode (paragraph.speaks (sub p mem)) (plain.filled p (sub p mem))
    (plain.dashless p (sub p mem))

/-- A span with a word, before another one, ends its line with a hyphen or has white space behind it. -/
theorem Place.piece_parted {block : Block} (notCode : block.kind ≠ "code_body") {p : Place}
    (formulaEnable : Bool) (speaks : isText p.span = true ∨ isInlineEquation p.span = true)
    (word : isJoinable p.span = true) (following : hasFollowingJoinableSpan p.after p.later = true) :
    (p.EndsLine fun t => ∃ hyphen ∈ t.getLast?, isHyphen hyphen = true) ∨
      (p.piece block formulaEnable false).getLast? = some ' ' := by
  have separated {t : Text} (some : t ≠ []) (is : trim (spanMarkdown block formulaEnable p.span) = t)
      (inside : (isText p.span && p.after.isEmpty && endsHyphenated t) = false) :
      (p.piece block formulaEnable false).getLast? = .some ' ' := by
    unfold Place.piece mergeSpan
    dsimp only
    rw [is, if_neg some, if_neg Bool.false_ne_true, inside, if_neg Bool.false_ne_true, following,
      if_pos rfl, List.getLast?_concat]
  rcases speaks_cases speaks with ⟨content, is⟩ | ⟨content, is⟩
  · have some : spoken content ≠ [] := by
      rw [is] at word
      exact spoken_ne_nil (of_decide_eq_true word)
    have value : trim (spanMarkdown block formulaEnable p.span) = spoken content := by
      rw [is]
      exact value_text notCode content
    cases ends : isText p.span && p.after.isEmpty && endsHyphenated (spoken content) with
    | false => exact .inr (separated some value ends)
    | true =>
      left
      rcases (hyphenatedLineEnd_iff is).mp ends with ⟨last, content, is, word⟩ | ⟨last, content, is, dash⟩
      · exact ⟨last, content, is, word.getLast?⟩
      · exact ⟨last, content, is, dash.getLast?⟩
  · refine .inr (separated (List.cons_ne_nil '$' (content ++ ['$'])) ?_ ?_)
    · rw [is]
      exact value_equation content
    · rw [is]
      rfl

/-- In a plain paragraph every piece is what its span says, with hyphens at the ends of lines left
out. -/
theorem Plain.parted {block : Block} (plain : Plain block) (paragraph : Paragraph block)
    (formulaEnable : Bool) :
    Parted block ((spanPlaces block.lines).flatMap (Place.piece block formulaEnable (hasCjk block))) := by
  rintro noCjk front p back cut word ⟨q, mem, word'⟩
  have here : p ∈ spanPlaces block.lines := cut ▸ List.mem_append_right _ List.mem_cons_self
  have following : hasFollowingJoinableSpan p.after p.later = true := by
    refine List.any_eq_true.mpr ⟨q.span, ?_, word'⟩
    show q.span ∈ p.behind
    rw [spanPlaces_behind cut]
    exact List.mem_map_of_mem mem
  have pieces := fun {l : List Place} sub => plain.pieces paragraph formulaEnable (l := l) sub
  rw [noCjk] at pieces ⊢
  refine ⟨(front ++ [p]).flatMap (Place.piece block formulaEnable false),
    back.flatMap (Place.piece block formulaEnable false), ?_, pieces ?_, pieces ?_, ?_⟩
  · rw [cut, ← List.flatMap_append, List.append_assoc, List.singleton_append]
  · intro p' mem'
    rw [cut]
    rcases List.mem_append.mp mem' with before | at'
    · exact List.mem_append_left _ before
    · rw [List.mem_singleton.mp at']
      exact List.mem_append_right _ List.mem_cons_self
  · intro p' mem'
    rw [cut]
    exact List.mem_append_right _ (List.mem_cons_of_mem p mem')
  · rcases Place.piece_parted paragraph.notCode formulaEnable (paragraph.speaks here) word following with
      hyphen | space
    · exact .inl hyphen
    · refine .inr (.inl ⟨' ', ?_, by decide⟩)
      rw [List.flatMap_append, List.flatMap_singleton, List.getLast?_append, space]
      rfl

/-- **A paragraph is rendered as it is to be exactly if no equation is empty and no dash looks like
a hyphen.** White space apart, every text is then written once and in its order, every equation
between its delimiters, and only hyphens at the end of a line are left out. -/
theorem paragraph_renders_iff {block : Block} (paragraph : Paragraph block)
    (formulaEnable isListChild : Bool) :
    Renders block (mergeParaWithText block formulaEnable false isListChild) ↔ Plain block := by
  have output : mergeParaWithText block formulaEnable false isListChild =
      (spanPlaces block.lines).flatMap (Place.piece block formulaEnable (hasCjk block)) :=
    mergeBlockLines_places block formulaEnable (hasCjk block) block.lines
  rw [output]
  constructor
  · exact fun renders => Plain.of_conserved paragraph formulaEnable renders.conserved
  · exact fun plain => ⟨plain.pieces paragraph formulaEnable fun _ mem => mem,
      plain.parted paragraph formulaEnable⟩

def textBlock (lines : List (List Span)) : Block :=
  ⟨"text", ⟨0, 0, 10, 10⟩, 0, lines.map fun spans => ⟨⟨0, 0, 10, 10⟩, spans⟩, 0, none, none, none,
    none, none, false, false⟩

/-- A word that is divided between two lines, and an equation between two texts. -/
def dividedBlock : Block := textBlock [[.text (text "a recur-")],
  [.text (text "rence over "), .inlineEquation (text "x_1"), .text (text "ends")]]

theorem dividedBlock_plain : Plain dividedBlock := by
  have said : spoken (text "a recur-") = text "a " ++ text "recur" ++ ['-'] := by rfl
  have letters : (text "recur").all isAsciiAlphabetic = true := by decide
  have word : EndsWord (spoken (text "a recur-")) :=
    ⟨text "a ", text "recur", '-', said, by decide,
      ⟨by decide, List.all_eq_true.mp letters, fun _ last => by cases last; rfl⟩⟩
  refine ⟨by decide, ?_⟩
  rintro p mem ⟨-, ⟨last, content, is, dash⟩, next⟩
  rcases List.mem_cons.mp mem with rfl | mem
  · cases is
    exact word.not_dash dash
  · have behind : ∀ p ∈ linePlaces [] [.text (text "rence over "), .inlineEquation (text "x_1"),
        .text (text "ends")], startsLowercase p.later.head? = false := by decide
    rw [behind p mem] at next
    cases next

/-- A word that is divided at the end of a line, and an equation. -/
theorem divided_renders :
    mergeParaWithText dividedBlock true false false = text "a recurrence over $x_1$ ends" ∧
      Renders dividedBlock (mergeParaWithText dividedBlock true false false) :=
  ⟨by decide, (paragraph_renders_iff ⟨.inl rfl, by decide⟩ true false).mpr dividedBlock_plain⟩

/-- The spans of a text with an equation that holds nothing but a blank. -/
def emptyEquation : Block := textBlock [textSpans (text "a \\( \\)")]

/-- The equation is written as two dollars. -/
theorem emptyEquation_written :
    mergeParaWithText emptyEquation true false false = text "a$$" ∧
      ¬ Renders emptyEquation (mergeParaWithText emptyEquation true false false) := by
  have spans : textSpans (text "a \\( \\)") = [.text (text "a "), .inlineEquation []] := by decide
  have paragraph : Paragraph emptyEquation := ⟨.inl rfl, by
    intro span mem
    rw [emptyEquation, spans] at mem
    rcases List.mem_cons.mp mem with rfl | mem
    · exact .inl rfl
    · rw [List.mem_singleton.mp mem]
      exact .inr rfl⟩
  refine ⟨by decide, fun renders => ?_⟩
  have conserved := renders.conserved
  rw [show mergeParaWithText emptyEquation true false false = _ from
    mergeBlockLines_places emptyEquation true (hasCjk emptyEquation) emptyEquation.lines] at conserved
  have plain := Plain.of_conserved paragraph true conserved
  have listed : ⟨.inlineEquation [], [], []⟩ ∈ spanPlaces emptyEquation.lines := by
    rw [emptyEquation, spans]
    exact List.mem_cons_of_mem _ List.mem_cons_self
  exact plain.filled _ listed rfl

end Mineru.Builders
