import Mineru.Laws.Builders.Entities
import Mineru.LegacyOffice.PageTree

/-!
# What a page of lines shows

A line is cut one character at a time (`IsCut`). A piece is printable ASCII, so it stands in the
stream as it was escaped, and a reader of the stream finds it again at its height
(`read_contentOf`).

The content stream is written as bytes and read by a lexer of its own: numbers, operators and
literal strings with their escapes. A page of fifty lines stays within the limit of a stream
(`contentOf_length`), so that limit never cuts a page short.

Which glyphs a font shows for the bytes is not part of it.
-/

set_option autoImplicit false

namespace Mineru.LegacyOffice

open Logic.Content
open Builders (utf8 byteOf utf8_append utf8_ascii)
open Vlm (fromUtf8)

/-! ## Cutting -/

/-- The parts written so far are full, and the last one may still grow. -/
structure IsCut {α : Type} (n : Nat) (l : List α) (written : List (List α)) (last : List α) :
    Prop where
  whole : l = written.flatten ++ last
  full : ∀ part ∈ written, part.length = n
  short : last.length ≤ n
  more : written ≠ [] → last ≠ []

namespace IsCut

variable {α : Type} {n : Nat} {l last : List α} {written : List (List α)}

theorem nil : IsCut n ([] : List α) [] [] :=
  ⟨rfl, fun _ mem => absurd mem List.not_mem_nil, Nat.zero_le n, fun some => absurd rfl some⟩

/-- A full part is closed by the next element. -/
theorem next (h : IsCut n l written last) (pos : 0 < n) (full : last.length = n) (x : α) :
    IsCut n (l ++ [x]) (written ++ [last]) [x] where
  whole := by rw [List.flatten_append, List.flatten_singleton, ← h.whole]
  full := fun part mem => by
    rcases List.mem_append.mp mem with before | here
    · exact h.full part before
    · rw [List.mem_singleton.mp here, full]
  short := pos
  more := fun _ => List.cons_ne_nil x []

/-- Another part takes the next element. -/
theorem push (h : IsCut n l written last) (room : last.length ≠ n) (x : α) :
    IsCut n (l ++ [x]) written (last ++ [x]) where
  whole := by rw [h.whole, List.append_assoc]
  full := h.full
  short := by
    rw [List.length_append, List.length_singleton]
    exact Nat.lt_of_le_of_ne h.short room
  more := fun _ => List.append_ne_nil_of_right_ne_nil last (List.cons_ne_nil x [])

/-- A full part is cut off when something follows it. -/
theorem cut_full {part rest : List α} (pos : 0 < n) (full : part.length = n) (more : rest ≠ []) :
    cut n (part ++ rest) = part :: cut n rest := by
  have long : n < (part ++ rest).length := by
    have some := List.length_pos_iff.mpr more
    rw [List.length_append]
    omega
  rw [cut, if_pos ⟨pos, long⟩, ← full, List.take_left, List.drop_left]

/-- The parts written and the last one are the cut. -/
theorem cut_eq (h : IsCut n l written last) (pos : 0 < n) : cut n l = written ++ [last] := by
  induction written generalizing l with
  | nil =>
    have whole := h.whole
    rw [List.flatten_nil, List.nil_append] at whole
    subst whole
    rw [cut, if_neg fun both => absurd h.short (Nat.not_le_of_lt both.2), List.nil_append]
  | cons part written ih =>
    have some : last ≠ [] := h.more (List.cons_ne_nil part written)
    have rest : IsCut n (written.flatten ++ last) written last :=
      ⟨rfl, fun other mem => h.full other (List.mem_cons_of_mem part mem), h.short, fun _ => some⟩
    rw [h.whole, List.flatten_cons, List.append_assoc, cut_full pos (h.full part List.mem_cons_self)
      (List.append_ne_nil_of_right_ne_nil _ some), ih rest, List.cons_append]

/-- A full part stays a part, whatever follows. -/
theorem closed (h : IsCut n l written last) (pos : 0 < n) (full : last.length = n) {rest : List α}
    (more : rest ≠ []) : last ∈ cut n (l ++ rest) := by
  have parts := h.full
  rw [h.whole, List.append_assoc]
  clear h
  induction written with
  | nil =>
    rw [List.flatten_nil, List.nil_append, cut_full pos full more]
    exact List.mem_cons_self
  | cons part written ih =>
    rw [List.flatten_cons, List.append_assoc, cut_full pos (parts part List.mem_cons_self)
      (List.append_ne_nil_of_right_ne_nil _ (List.append_ne_nil_of_right_ne_nil _ more))]
    exact List.mem_cons_of_mem _ (ih fun other mem => parts other (List.mem_cons_of_mem _ mem))

end IsCut

theorem cut_ne_nil {α : Type} (n : Nat) (l : List α) : cut n l ≠ [] := by
  rw [cut]
  split
  · exact List.cons_ne_nil _ _
  · exact List.cons_ne_nil _ _

/-- A text without lines has no pieces, and no other text. -/
theorem pieces_eq_nil {markdown : Text} : pieces markdown = [] ↔ linesOf markdown = [] := by
  unfold pieces
  rw [List.flatMap_eq_nil_iff]
  constructor
  · intro none'
    rcases shape : linesOf markdown with _ | ⟨raw, rest⟩
    · rfl
    · exact absurd (none' raw (by rw [shape]; exact List.mem_cons_self)) (cut_ne_nil _ _)
  · intro none' raw mem
    rw [none'] at mem
    exact absurd mem List.not_mem_nil

/-! ## Printable bytes -/

/-- The bytes of a piece are printable ASCII, and they fit on a line. -/
structure Printable (piece : List UInt8) : Prop where
  bytes : ∀ b ∈ piece, 32 ≤ b.toNat ∧ b.toNat < 127
  short : piece.length ≤ pdfMaxLineBytes

theorem safePdfByte_printable (c : Char) :
    32 ≤ (safePdfByte c).toNat ∧ (safePdfByte c).toNat < 127 := by
  unfold safePdfByte
  split_ifs with tab within
  · decide
  · rw [UInt8.toNat_ofNat', Nat.mod_eq_of_lt (by omega)]
    exact within
  · decide

/-- The character of an ASCII byte. -/
def characterOf (b : UInt8) : Char := Char.ofNat b.toNat

theorem characterOf_toNat {b : UInt8} (ascii : b.toNat < 128) : (characterOf b).toNat = b.toNat := by
  have valid : b.toNat.isValidChar := Or.inl (ascii.trans (by decide))
  unfold characterOf Char.ofNat
  rw [dif_pos valid]
  exact UInt32.toNat_ofNatLT

theorem utf8_characters {bytes : List UInt8} (ascii : ∀ b ∈ bytes, b.toNat < 128) :
    utf8 (bytes.map characterOf) = bytes := by
  have low : ∀ c ∈ bytes.map characterOf, c.toNat < 128 := fun c mem => by
    obtain ⟨b, listed, rfl⟩ := List.mem_map.mp mem
    rw [characterOf_toNat (ascii b listed)]
    exact ascii b listed
  have back : ∀ b ∈ bytes, (byteOf ∘ characterOf) b = b := fun b mem => by
    rw [Function.comp_apply, byteOf, characterOf_toNat (ascii b mem)]
    exact UInt8.ofNat_toNat
  rw [utf8_ascii low, List.map_map, List.map_congr_left back, List.map_id']

theorem fromUtf8_utf8 (t : Text) : fromUtf8 (utf8 t) = some t := by
  have bytes : (⟨(utf8 t).toArray⟩ : ByteArray) = (String.ofList t).toByteArray := by
    apply ByteArray.ext
    rw [String.toByteArray_ofList]
    exact List.data_toByteArray.symm
  have valid : (String.ofList t).toByteArray.IsValidUTF8 := (String.ofList t).isValidUTF8
  unfold fromUtf8 String.fromUTF8?
  rw [bytes, dif_pos valid, Option.map_some]
  exact congrArg some String.toList_ofList

/-- Bytes of ASCII are the text of their characters. -/
theorem fromUtf8_ascii {bytes : List UInt8} (ascii : ∀ b ∈ bytes, b.toNat < 128) :
    fromUtf8 bytes = some (bytes.map characterOf) := by
  have := fromUtf8_utf8 (bytes.map characterOf)
  rwa [utf8_characters ascii] at this

/-! ## Escapes -/

theorem escapePdfText_cons (b : UInt8) (piece : List UInt8) :
    escapePdfText (b :: piece) =
      (if b = octet '(' ∨ b = octet ')' ∨ b = octet '\\' then [octet '\\', b] else [b]) ++
        escapePdfText piece := List.flatMap_cons

theorem escapePdfText_ascii {piece : List UInt8} (plain : Printable piece) :
    ∀ b ∈ escapePdfText piece, b.toNat < 128 := by
  intro b mem
  obtain ⟨byte, listed, among⟩ := List.mem_flatMap.mp mem
  have low := (plain.bytes byte listed).2
  split at among
  · rcases List.mem_cons.mp among with rfl | same
    · decide
    · rw [List.mem_singleton.mp same]
      omega
  · rw [List.mem_singleton.mp among]
    omega

theorem escapePdfText_length (piece : List UInt8) :
    (escapePdfText piece).length ≤ 2 * piece.length := by
  induction piece with
  | nil => exact Nat.le_refl 0
  | cons b piece ih =>
    rw [escapePdfText_cons, List.length_append, List.length_cons]
    split
    · simp only [List.length_cons, List.length_nil]
      omega
    · simp only [List.length_cons, List.length_nil]
      omega

/-- The escaped text spells the piece in a literal string. -/
theorem escapePdfText_spells {piece : List UInt8} (plain : ∀ b ∈ piece, 32 ≤ b.toNat) :
    Spells (escapePdfText piece) piece := by
  induction piece with
  | nil => exact .nil
  | cons b piece ih =>
    have rest := ih fun c mem => plain c (List.mem_cons_of_mem b mem)
    rw [escapePdfText_cons]
    split
    · rename_i special
      refine .escaped ?_ rest
      change b ∈ [octet '(', octet ')', octet '\\']
      simpa only [List.mem_cons, List.not_mem_nil, or_false] using special
    · rename_i other
      refine .plain ?_ rest
      change b ∉ [octet '(', octet ')', octet '\\', octet '\r', octet '\n']
      have here := plain b List.mem_cons_self
      simp only [List.mem_cons, List.not_mem_nil, or_false, not_or] at other ⊢
      refine ⟨other.1, other.2.1, other.2.2, ?_, ?_⟩
      · rintro rfl
        exact absurd here (by decide)
      · rintro rfl
        exact absurd here (by decide)

/-! ## One line -/

/-- The digits of a height. -/
def heightBytes (lineIndex : Nat) : List UInt8 := utf8 (text (toString (lineHeight lineIndex)))

/-- A line as its tokens are spelled. -/
def lineBytes (lineIndex : Nat) (piece : List UInt8) : List UInt8 :=
  spaced ([octets "BT", octets "/F1", octets "10", octets "Tf", octets "36"] ++
      [heightBytes lineIndex, octets "Td"]) ++
    (octet '(' :: escapePdfText piece ++ [octet ')']) ++ [octet ' '] ++ spaced [octets "Tj"] ++
    (octets "ET" ++ [octet '\n'])

/-- The rendered line, byte by byte. -/
theorem utf8_renderPdfLine {piece : List UInt8} (plain : Printable piece) (lineIndex : Nat) :
    utf8 (renderPdfLine ((escapePdfText piece).map characterOf) lineIndex) =
      lineBytes lineIndex piece := by
  have opening : utf8 (text "BT /F1 10 Tf 36 ") =
      spaced [octets "BT", octets "/F1", octets "10", octets "Tf", octets "36"] := by decide
  have middle : utf8 (text " Td (") = octet ' ' :: octets "Td" ++ [octet ' ', octet '('] := by decide
  have closing : utf8 (text ") Tj ET\n") =
      octet ')' :: octet ' ' :: spaced [octets "Tj"] ++ (octets "ET" ++ [octet '\n']) := by decide
  have spread (a b c : List (List UInt8)) : spaced (a ++ (b ++ c)) = spaced a ++ spaced b ++ spaced c := by
    unfold spaced
    rw [List.flatMap_append, List.flatMap_append, List.append_assoc]
  have height : spaced [heightBytes lineIndex] = heightBytes lineIndex ++ [octet ' '] :=
    List.flatMap_singleton _ _
  have move : spaced [octets "Td"] = octets "Td" ++ [octet ' '] := List.flatMap_singleton _ _
  unfold renderPdfLine lineBytes
  rw [utf8_append, utf8_append, utf8_append, utf8_append, opening, middle, closing,
    utf8_characters (escapePdfText_ascii plain), ← List.singleton_append (x := heightBytes lineIndex),
    spread, height, move]
  simp only [heightBytes, List.append_assoc, List.cons_append, List.nil_append]

theorem heightBytes_read : ∀ lineIndex < pdfLinesPerPage,
    isWord (heightBytes lineIndex) = true ∧ (heightBytes lineIndex).length ≤ 3 ∧
      (Token.word (heightBytes lineIndex)).operand? = some (.number (lineHeight lineIndex)) := by
  decide

/-- A line takes at most 224 bytes. -/
theorem lineBytes_length {lineIndex : Nat} (within : lineIndex < pdfLinesPerPage)
    {piece : List UInt8} (plain : Printable piece) : (lineBytes lineIndex piece).length ≤ 224 := by
  have height := (heightBytes_read lineIndex within).2.1
  have escaped := escapePdfText_length piece
  have short : piece.length ≤ 96 := plain.short
  have words : (spaced ([octets "BT", octets "/F1", octets "10", octets "Tf", octets "36"] ++
      [heightBytes lineIndex, octets "Td"])).length = 20 + (heightBytes lineIndex).length := by
    simp only [spaced, List.length_flatMap, List.map_cons, List.map_nil, List.sum_cons, List.sum_nil,
      List.cons_append, List.nil_append, List.length_append, List.length_singleton]
    change 3 + (4 + (3 + (3 + (3 + ((heightBytes lineIndex).length + 1 + (3 + 0)))))) = _
    omega
  have rest : (spaced [octets "Tj"]).length = 3 := by decide
  have ends : (octets "ET" ++ [octet '\n']).length = 3 := by decide
  unfold lineBytes
  rw [List.length_append, List.length_append, List.length_append, List.length_append, words, rest,
    ends, List.length_append, List.length_cons, List.length_singleton, List.length_singleton]
  omega

/-- The tokens of a line. -/
def lineTokens (lineIndex : Nat) (piece : List UInt8) : List Token :=
  ([octets "BT", octets "/F1", octets "10", octets "Tf", octets "36"] ++
      [heightBytes lineIndex, octets "Td"]).map Token.word ++
    [.literal piece] ++ [octets "Tj"].map Token.word ++ [.word (octets "ET")]

theorem run_lineBytes {lineIndex : Nat} (within : lineIndex < pdfLinesPerPage) {piece : List UInt8}
    (plain : Printable piece) (tokens : List Token) :
    Lexer.run ⟨.between, tokens⟩ (lineBytes lineIndex piece) =
      some ⟨.between, tokens ++ lineTokens lineIndex piece⟩ := by
  have height := (heightBytes_read lineIndex within).1
  have words : ∀ word ∈ [octets "BT", octets "/F1", octets "10", octets "Tf", octets "36"] ++
      [heightBytes lineIndex, octets "Td"], isWord word = true := by
    have fixed : ∀ word ∈ [octets "BT", octets "/F1", octets "10", octets "Tf", octets "36"],
        isWord word = true := by decide
    have move : isWord (octets "Td") = true := by decide
    intro word mem
    rcases List.mem_append.mp mem with mem | mem
    · exact fixed word mem
    · rcases List.mem_cons.mp mem with rfl | mem
      · exact height
      · rw [List.mem_singleton.mp mem]
        exact move
  have shows : ∀ word ∈ [octets "Tj"], isWord word = true := by decide
  have blank (tokens : List Token) :
      Lexer.run ⟨.between, tokens⟩ [octet ' '] = some ⟨.between, tokens⟩ := rfl
  unfold lineBytes lineTokens
  rw [Lexer.run_append, Lexer.run_append, Lexer.run_append, Lexer.run_append, Lexer.run_spaced words,
    Option.bind_some,
    Lexer.run_literal (escapePdfText_spells fun b mem => (plain.bytes b mem).1), Option.bind_some,
    blank, Option.bind_some, Lexer.run_spaced shows, Option.bind_some,
    Lexer.run_word (by decide) (by decide)]
  simp only [List.append_assoc]

/-- What a line shows. -/
def shownLine {φ : Type} (font : φ) (lineIndex : Nat) (piece : List UInt8) : Shown φ :=
  ⟨font, 10, 36, lineHeight lineIndex, piece⟩

theorem run_lineTokens {φ : Type} {fonts : List UInt8 → Option φ} {font : φ}
    (resource : fonts (octets "F1") = some font) {lineIndex : Nat}
    (within : lineIndex < pdfLinesPerPage) (piece : List UInt8) (selected : Option (φ × Int))
    (shown : List (Shown φ)) :
    Painter.run fonts ⟨[], none, selected, shown⟩ (lineTokens lineIndex piece) =
      some ⟨[], none, some (font, 10), shown ++ [shownLine font lineIndex piece]⟩ := by
  have height := (heightBytes_read lineIndex within).2.2
  have name : (Token.word (octets "/F1")).operand? = some (.name (octets "F1")) := by decide
  have size : (Token.word (octets "10")).operand? = some (.number 10) := by decide
  have left : (Token.word (octets "36")).operand? = some (.number 36) := by decide
  exact Painter.run_object resource name size left height piece selected shown

/-! ## One page -/

/-- The content stream of a page. -/
def contentOf (page : List (List UInt8)) : List UInt8 := (page.mapIdx lineBytes).flatten

theorem contentOf_concat (page : List (List UInt8)) (piece : List UInt8) :
    contentOf (page ++ [piece]) = contentOf page ++ lineBytes page.length piece := by
  unfold contentOf
  rw [List.mapIdx_concat, List.flatten_append, List.flatten_singleton]

/-- A page of 50 lines stays below the limit of a stream. -/
theorem contentOf_length {page : List (List UInt8)} (short : page.length ≤ pdfLinesPerPage)
    (plain : ∀ piece ∈ page, Printable piece) : (contentOf page).length ≤ 224 * page.length := by
  induction page using List.reverseRecOn with
  | nil => exact Nat.le_refl 0
  | append_singleton page piece ih =>
    rw [List.length_append, List.length_singleton] at short
    have before := ih (Nat.le_of_succ_le short) fun other mem =>
      plain other (List.mem_append_left [piece] mem)
    have here := lineBytes_length short (plain piece (List.mem_append_right page List.mem_cons_self))
    rw [contentOf_concat, List.length_append, List.length_append, List.length_singleton]
    omega

theorem run_contentOf {φ : Type} {fonts : List UInt8 → Option φ} {font : φ}
    (resource : fonts (octets "F1") = some font) {page : List (List UInt8)}
    (short : page.length ≤ pdfLinesPerPage) (plain : ∀ piece ∈ page, Printable piece) :
    ∃ tokens selected, Lexer.run ⟨.between, []⟩ (contentOf page) = some ⟨.between, tokens⟩ ∧
      Painter.run fonts ⟨[], none, none, []⟩ tokens =
        some ⟨[], none, selected, page.mapIdx (shownLine font)⟩ := by
  induction page using List.reverseRecOn with
  | nil => exact ⟨[], none, rfl, rfl⟩
  | append_singleton page piece ih =>
    rw [List.length_append, List.length_singleton] at short
    obtain ⟨tokens, selected, lexed, painted⟩ := ih (Nat.le_of_succ_le short) fun other mem =>
      plain other (List.mem_append_left [piece] mem)
    have here := plain piece (List.mem_append_right page List.mem_cons_self)
    refine ⟨tokens ++ lineTokens page.length piece, some (font, 10), ?_, ?_⟩
    · rw [contentOf_concat, Lexer.run_append, lexed, Option.bind_some, run_lineBytes short here]
    · rw [Painter.run_append, painted, Option.bind_some, run_lineTokens resource short,
        List.mapIdx_concat]

/-- A page is read as its pieces, each on its line. -/
theorem read_contentOf {φ : Type} {fonts : List UInt8 → Option φ} {font : φ}
    (resource : fonts (octets "F1") = some font) {page : List (List UInt8)}
    (short : page.length ≤ pdfLinesPerPage) (plain : ∀ piece ∈ page, Printable piece) :
    Logic.Content.read fonts (contentOf page) = some (page.mapIdx (shownLine font)) := by
  obtain ⟨tokens, selected, lexed, painted⟩ := run_contentOf resource short plain
  have cut : tokensOf (contentOf page) = some tokens := by
    unfold tokensOf
    rw [lexed]
  unfold Logic.Content.read
  rw [cut, Option.bind_eq_bind, Option.bind_some, painted, Option.bind_eq_bind, Option.bind_some]

end Mineru.LegacyOffice
