import Mineru.Laws.LegacyOffice.Budget
import Mineru.Laws.LegacyOffice.PageTree

/-!
# The PDF shows the text

`Stands` describes the writer between two steps: the pages that are full are stored as objects, the
pieces of the open page are in its content. A piece written extends the open page
(`writeLine_after`), a page added closes it (`addPdfPage_after`), and a line of the text adds its
cut (`writeRaw_after`). At the end of the text a reader finds the pieces page by page
(`buildPdf_after`).

A run ends in one of the ways of `EndsWell`: the bytes are no text, there is no room for a budget, a
reservation is denied, the text has no line, the file cannot be saved, or it is returned. In the
last two the document that was built shows all pieces.

The reader looks at this document, whose objects the PDF library keeps (`Lawful`). That the bytes of
the file load to the same document is that library's part. Characters that the font cannot show are
replaced before the text is cut.
-/

set_option autoImplicit false

namespace Mineru.LegacyOffice

open Logic
open Logic.Content (octets Shown)
open Builders (utf8)
open Vlm (fromUtf8)

variable {L : Lopdf} {Given : L.Document → L.ObjectId → Prop} {cap : Nat}
  {told : List (List UInt8)} {pages font : L.ObjectId} {full : List (List (List UInt8))}
  {cur : List (List UInt8)} {s : Writer L}

/-! ## The writer between two steps -/

/-- The budget counts the pages added. -/
structure Counted (cap : Nat) (s : Writer L) : Prop where
  outputCap : s.budget.outputCap = cap
  count : s.budget.pageCount = s.kids.length
  room : s.budget.pageCount ≤ s.budget.maxPages
  most : s.budget.maxPages ≤ cap / pdfPageReserve

/-- What `markdown_to_pdf` asks of its budget: an object, a page with its two objects, or the bytes of a
line that shows one of the pieces `told`. -/
inductive Asked (told : List (List UInt8)) : PdfBudget.Reservation → Prop where
  | object : Asked told (.objects 1)
  | page : Asked told .page
  | line (lineIndex : Nat) (piece : List UInt8) (room : lineIndex < pdfLinesPerPage)
    (mem : piece ∈ told) : Asked told (.line (lineBytes lineIndex piece).length)

/-- A budget under the cap refuses one of these reservations, and is left as `left`. -/
def Refuses (cap : Nat) (told : List (List UInt8)) (f : Failure) (left : PdfBudget) : Prop :=
  ∃ (r : PdfBudget.Reservation) (b : PdfBudget), Asked told r ∧ b.outputCap = cap ∧
    r.step b = .error f left

/-- A reservation failed, and the run ended with what was left of the budget. -/
structure Refused (cap : Nat) (told : List (List UInt8)) (f : Failure) (s : Writer L) : Prop where
  cause : f.cause = .budget
  counted : Counted cap s
  reserved : Refuses cap told f s.budget

/-- The pages `full` are stored, and the pieces `cur` are on the open page. -/
structure Stands (Given : L.Document → L.ObjectId → Prop) (cap : Nat) (pages font : L.ObjectId)
    (full : List (List (List UInt8))) (cur : List (List UInt8)) (s : Writer L) : Prop where
  root : Given s.document pages
  typeface : Stored Given pages s.document font fontObject
  kids : List.Forall₂ (HoldsPage Given pages font s.document) s.kids full
  filled : ∀ page ∈ full, Filled page
  content : s.content = contentOf cur
  lines : s.linesOnPage = cur.length
  short : cur.length ≤ pdfLinesPerPage
  plain : ∀ piece ∈ cur, Printable piece
  wrote : s.wroteLine = true ↔ full.flatten ++ cur ≠ []
  counted : Counted cap s

theorem Counted.kept (h : Counted cap s) {b : PdfBudget} (kept : s.budget.Kept b) :
    Counted cap { s with budget := b } where
  outputCap := kept.outputCap.trans h.outputCap
  count := kept.pageCount.trans h.count
  room := by
    change b.pageCount ≤ b.maxPages
    rw [kept.pageCount, kept.maxPages]
    exact h.room
  most := by
    change b.maxPages ≤ cap / pdfPageReserve
    rw [kept.maxPages]
    exact h.most

/-- Only the budget and the kids are counted. -/
theorem Counted.of {s' : Writer L} (h : Counted cap s) (budget : s'.budget = s.budget)
    (kids : s'.kids = s.kids) : Counted cap s' where
  outputCap := by rw [budget, h.outputCap]
  count := by rw [budget, kids, h.count]
  room := by
    rw [budget]
    exact h.room
  most := by
    rw [budget]
    exact h.most

/-- A step on the budget leaves everything else. -/
theorem budgeted_after {r : PdfBudget.Reservation} (asked : Asked told r)
    (spec : ∀ b, After r.step b (fun _ b' => b.Kept b') b.Denied) (counted : Counted cap s) :
    After (budgeted r.step) s (fun _ s' => ∃ b, s.budget.Kept b ∧ s' = { s with budget := b })
      (Refused cap told) := by
  refine After.zoom (((spec s.budget).and After.self).weaken ?_ ?_)
  · rintro _ b ⟨kept, -⟩
    exact ⟨b, kept, rfl⟩
  · rintro f b ⟨denied, run⟩
    exact ⟨denied.cause, counted.kept denied.kept, r, s.budget, asked, counted.outputCap, run⟩

/-- A line that fits on the page is appended, or a reservation fails. The limit of the stream is never
reached. -/
theorem appendPdfLine_after (h : Stands Given cap pages font full cur s)
    (room : cur.length < pdfLinesPerPage) {line : List UInt8} (plain : Printable line)
    (mem : line ∈ told) :
    After (appendPdfLine line s.linesOnPage) s
      (fun _ s' => ∃ b, s.budget.Kept b ∧
        s' = { s with budget := b, content := contentOf (cur ++ [line]) })
      (Refused cap told) := by
  have decoded : fromUtf8 (escapePdfText line) = some ((escapePdfText line).map characterOf) :=
    fromUtf8_ascii (escapePdfText_ascii plain)
  have rendered : utf8 (renderPdfLine ((escapePdfText line).map characterOf) s.linesOnPage) =
      lineBytes cur.length line := by rw [utf8_renderPdfLine plain, h.lines]
  have below : ¬ min (s.content.length + (lineBytes cur.length line).length) (2 ^ 64 - 1) >
      pdfMaxContentStreamBytes := by
    have before := contentOf_length h.short h.plain
    have here := lineBytes_length room plain
    have limit : pdfMaxContentStreamBytes = 16384 := rfl
    have lines : pdfLinesPerPage = 50 := rfl
    rw [h.content]
    omega
  unfold appendPdfLine
  rw [decoded]
  dsimp only
  rw [rendered]
  refine After.get ?_
  rw [if_neg below]
  have asked : Asked told (.line (lineBytes cur.length line).length) := .line _ line room mem
  generalize (lineBytes cur.length line).length = bytes at asked
  refine After.bind (budgeted_after asked (fun b => PdfBudget.reserveLine_after b bytes) h.counted)
    fun _ s' done => ?_
  obtain ⟨b, kept, rfl⟩ := done
  refine After.modify ⟨b, kept, ?_⟩
  rw [contentOf_concat, ← h.content]

/-- A piece written is on the open page. -/
theorem writeLine_after (h : Stands Given cap pages font full cur s)
    (room : cur.length < pdfLinesPerPage) {line : List UInt8} (plain : Printable line)
    (mem : line ∈ told) :
    After (writeLine line) s (fun _ => Stands Given cap pages font full (cur ++ [line]))
      (Refused cap told) := by
  unfold writeLine
  refine After.get (After.bind (appendPdfLine_after h room plain mem) fun _ s' done => ?_)
  obtain ⟨b, kept, rfl⟩ := done
  have more : full.flatten ++ (cur ++ [line]) ≠ [] :=
    List.append_ne_nil_of_right_ne_nil _ (List.append_ne_nil_of_right_ne_nil _ (List.cons_ne_nil _ _))
  have counted := h.counted.kept kept
  refine After.modify {
    root := h.root
    typeface := h.typeface
    kids := h.kids
    filled := h.filled
    content := rfl
    lines := ?_
    short := ?_
    plain := ?_
    wrote := iff_of_true rfl more
    counted := counted.of rfl rfl }
  · rw [List.length_append, List.length_singleton, ← h.lines]
  · rw [List.length_append, List.length_singleton]
    exact room
  · intro piece mem
    rcases List.mem_append.mp mem with before | here
    · exact h.plain piece before
    · rw [List.mem_singleton.mp here]
      exact plain

/-- A page added holds the pieces of the open page. -/
theorem addPdfPage_after (lawful : L.Lawful Given) (h : Stands Given cap pages font full cur s)
    (some : cur ≠ []) :
    After (addPdfPage pages font) s
      (fun _ s' => Stands Given cap pages font (full ++ [cur]) []
        { s' with content := [], linesOnPage := 0 })
      (Refused cap told) := by
  have reserved : After (budgeted PdfBudget.reservePage) s
      (fun _ s' => ∃ b : PdfBudget, b.outputCap = s.budget.outputCap ∧
        b.maxPages = s.budget.maxPages ∧ b.pageCount = s.budget.pageCount + 1 ∧
        s.budget.pageCount < s.budget.maxPages ∧ s' = { s with budget := b })
      (Refused cap told) := by
    refine After.zoom (((PdfBudget.reservePage_after s.budget).and After.self).weaken ?_ ?_)
    · rintro _ b ⟨⟨cap', max', count, room⟩, -⟩
      exact ⟨b, cap', max', count, room, rfl⟩
    · rintro f b ⟨denied, run⟩
      exact ⟨denied.cause, h.counted.kept denied.kept, .page, s.budget, .page, h.counted.outputCap,
        run⟩
  unfold addPdfPage
  refine After.bind reserved fun _ s' done => ?_
  obtain ⟨b, cap', max', count, room, rfl⟩ := done
  let d₁ := (L.addObject s.document (.stream [] s.content)).2
  let contents := (L.addObject s.document (.stream [] s.content)).1
  let d₂ := (L.addObject d₁ (pageObject pages font contents)).2
  let page := (L.addObject d₁ (pageObject pages font contents)).1
  have first : Keeps Given s.document d₁ := addObject_keeps lawful _ _
  have second : Keeps Given d₁ d₂ := addObject_keeps lawful _ _
  have both : Keeps Given s.document d₂ := fun id given =>
    ⟨(second id (first id given).1).1, (second id (first id given).1).2.trans (first id given).2⟩
  have root₁ : Given d₁ pages := (first pages h.root).1
  have stream : Stored Given pages d₂ contents (.stream [] (contentOf cur)) := by
    rw [← h.content]
    exact (addObject_stored lawful h.root _).keeps second
  have object : Stored Given pages d₂ page (pageObject pages font contents) :=
    addObject_stored lawful root₁ _
  have stands : Stands Given cap pages font (full ++ [cur]) []
      { s with
        document := d₂, budget := b, kids := s.kids ++ [Object.reference page], content := [],
        linesOnPage := 0 } := {
    root := (both pages h.root).1
    typeface := h.typeface.keeps both
    kids := List.rel_append (h.kids.imp fun kid page holds => holds.keeps both)
      (.cons ⟨page, contents, rfl, object, stream⟩ .nil)
    filled := fun other mem => by
      rcases List.mem_append.mp mem with before | here
      · exact h.filled other before
      · rw [List.mem_singleton.mp here]
        exact ⟨some, h.short, h.plain⟩
    content := rfl
    lines := rfl
    short := Nat.zero_le _
    plain := fun piece mem => absurd mem List.not_mem_nil
    wrote := by
      rw [List.flatten_append, List.flatten_singleton, List.append_nil]
      exact h.wrote
    counted := {
      outputCap := cap'.trans h.counted.outputCap
      count := by
        change b.pageCount = (s.kids ++ [Object.reference page]).length
        rw [count, List.length_append, List.length_singleton, h.counted.count]
      room := by
        change b.pageCount ≤ b.maxPages
        rw [count, max']
        exact room
      most := by
        change b.maxPages ≤ cap / pdfPageReserve
        rw [max']
        exact h.counted.most } }
  exact stands

/-! ## The text so far -/

/-- The pieces written so far are on the pages, and the open page has room. -/
def Shows (Given : L.Document → L.ObjectId → Prop) (cap : Nat) (pages font : L.ObjectId)
    (written : List (List UInt8)) (s : Writer L) : Prop :=
  ∃ full cur, Stands Given cap pages font full cur s ∧ full.flatten ++ cur = written ∧
    cur.length < pdfLinesPerPage

/-- A full page is added, and the next one is open. -/
theorem breakPage_after (lawful : L.Lawful Given) (h : Stands Given cap pages font full cur s) :
    After (breakPage pages font) s (fun _ => Shows Given cap pages font (full.flatten ++ cur))
      (Refused cap told) := by
  unfold breakPage
  refine After.get ?_
  split
  · rename_i closed
    have some : cur ≠ [] := by
      rintro rfl
      rw [h.lines] at closed
      exact absurd closed (by decide)
    refine After.bind (addPdfPage_after lawful h some) fun _ s' stands => After.modify ?_
    refine ⟨full ++ [cur], [], stands, ?_, by decide⟩
    rw [List.flatten_append, List.flatten_singleton, List.append_nil]
  · rename_i open'
    rw [h.lines] at open'
    exact After.pure ⟨full, cur, h, rfl, Nat.lt_of_le_of_ne h.short open'⟩

theorem IsCut.printable {raw : Text} {written : List (List UInt8)} {last : List UInt8}
    (h : IsCut pdfMaxLineBytes (raw.map safePdfByte) written last) : Printable last where
  bytes := fun b mem => by
    have listed : b ∈ raw.map safePdfByte := h.whole ▸ List.mem_append_right _ mem
    obtain ⟨c, -, rfl⟩ := List.mem_map.mp listed
    exact safePdfByte_printable c
  short := h.short

/-- Inside a line: the full parts are written, and the last one waits. -/
def Waits (Given : L.Document → L.ObjectId → Prop) (cap : Nat) (pages font : L.ObjectId)
    (before : List (List UInt8)) (front : Text) (waiting : List UInt8 × Bool) (s : Writer L) : Prop :=
  ∃ written, IsCut pdfMaxLineBytes (front.map safePdfByte) written waiting.1 ∧
    (waiting.2 = true ↔ written ≠ []) ∧ Shows Given cap pages font (before ++ written) s

theorem pushCharacter_after (lawful : L.Lawful Given) {before : List (List UInt8)} {front : Text}
    {waiting : List UInt8 × Bool} (h : Waits Given cap pages font before front waiting s) (c : Char)
    {back : Text} (parts : ∀ piece ∈ cut pdfMaxLineBytes ((front ++ c :: back).map safePdfByte),
      piece ∈ told) :
    After (pushCharacter pages font waiting c) s
      (fun waiting => Waits Given cap pages font before (front ++ [c]) waiting) (Refused cap told) := by
  obtain ⟨written, isCut, wrote, full, cur, stands, same, room⟩ := h
  have grown : (front ++ [c]).map safePdfByte = front.map safePdfByte ++ [safePdfByte c] :=
    List.map_append
  unfold pushCharacter
  split
  · rename_i whole
    have closed : waiting.1 ∈ cut pdfMaxLineBytes ((front ++ c :: back).map safePdfByte) := by
      rw [List.map_append]
      exact isCut.closed (by decide) whole (List.cons_ne_nil _ _)
    refine After.bind (writeLine_after stands room isCut.printable (parts _ closed))
      fun _ s' stands => ?_
    refine After.bind (breakPage_after lawful stands) fun _ s'' shows => After.pure ?_
    refine ⟨written ++ [waiting.1], ?_, ?_, ?_⟩
    · rw [grown]
      exact isCut.next (by decide) whole _
    · exact iff_of_true rfl (List.append_ne_nil_of_right_ne_nil _ (List.cons_ne_nil _ _))
    · rwa [← List.append_assoc, same, List.append_assoc] at shows
  · rename_i room'
    refine After.pure ⟨written, ?_, wrote, full, cur, stands, same, room⟩
    rw [grown]
    exact isCut.push room' _

/-- A line of the text adds its cut. -/
theorem writeRaw_after (lawful : L.Lawful Given) {before : List (List UInt8)}
    (h : Shows Given cap pages font before s) (raw : Text)
    (parts : ∀ piece ∈ cut pdfMaxLineBytes (raw.map safePdfByte), piece ∈ told) :
    After (writeRaw pages font raw) s
      (fun _ => Shows Given cap pages font
        (before ++ cut pdfMaxLineBytes (raw.map safePdfByte))) (Refused cap told) := by
  have start : Waits Given cap pages font before [] ([], false) s :=
    ⟨[], IsCut.nil, iff_of_false Bool.false_ne_true fun some => some rfl, by rwa [List.append_nil]⟩
  unfold writeRaw
  refine After.bind (After.foldlM (Waits Given cap pages font before) raw start
    fun front c back split waiting s here => pushCharacter_after lawful here c (split ▸ parts)) ?_
  rintro ⟨line, wroteForRaw⟩ s' ⟨written, isCut, wrote, full, cur, stands, same, room⟩
  dsimp only at isCut wrote ⊢
  -- the last part is always written: it is empty only if the line is
  have due : line ≠ [] ∨ ¬ wroteForRaw = true := by
    by_cases some : written = []
    · exact .inr fun yes => wrote.mp yes some
    · exact .inl (isCut.more some)
  rw [isCut.cut_eq (by decide)] at parts
  rw [if_pos due, isCut.cut_eq (by decide)]
  refine After.bind (writeLine_after stands room isCut.printable
    (parts line (List.mem_append_right _ (List.mem_singleton_self _)))) fun _ s' stands => ?_
  rw [← List.append_assoc before, ← same, List.append_assoc]
  exact breakPage_after lawful stands

/-! ## The whole text -/

theorem asI64_small {n : Nat} (small : n < 2 ^ 63) : asI64 n = (n : Int) := by
  unfold asI64
  rw [BitVec.toInt_ofNat']
  exact Int.bmod_eq_of_le (by omega) (by omega)

theorem Counted.start {budget : PdfBudget} (is : PdfBudget.new cap = .ok budget)
    (d : L.Document) : Counted cap { Writer.start L budget with document := d } where
  outputCap := (PdfBudget.new_ok is).1
  count := (PdfBudget.new_ok is).2.1
  room := by
    change budget.pageCount ≤ budget.maxPages
    rw [(PdfBudget.new_ok is).2.1]
    exact Nat.zero_le _
  most := (PdfBudget.new_ok is).2.2

/-- The first steps give out the root of the page tree and store the font. -/
theorem Shows.start (lawful : L.Lawful Given) {budget b : PdfBudget}
    (is : PdfBudget.new cap = .ok budget) (kept : budget.Kept b) :
    let d := L.newObjectId (L.withVersion "1.4")
    let f := L.addObject d.2 fontObject
    Shows Given cap d.1 f.1 []
      { Writer.start L budget with document := f.2, budget := b } := by
  have root := (lawful.newObjectId_given (L.withVersion "1.4") _).mpr (.inl rfl)
  have counted := (Counted.start is (L.withVersion "1.4")).kept kept
  refine ⟨[], [], ?_, rfl, by decide⟩
  exact {
    root := (addObject_keeps lawful _ _ _ root).1
    typeface := addObject_stored lawful root fontObject
    kids := .nil
    filled := fun page mem => absurd mem List.not_mem_nil
    content := rfl
    lines := rfl
    short := Nat.zero_le _
    plain := fun piece mem => absurd mem List.not_mem_nil
    wrote := iff_of_false Bool.false_ne_true fun some => some rfl
    counted := counted.of rfl rfl }

/-- The last page is added if it has pieces. -/
theorem lastPage_after (lawful : L.Lawful Given) {written : List (List UInt8)}
    (h : Shows Given cap pages font written s) :
    After (lastPage pages font) s
      (fun _ s' => ∃ full, full.flatten = written ∧
        Stands Given cap pages font full [] { s' with content := [], linesOnPage := 0 })
      (Refused cap told) := by
  obtain ⟨full, cur, stands, rfl, -⟩ := h
  unfold lastPage
  refine After.get ?_
  by_cases some : cur = []
  · subst some
    have none' : ¬ s.linesOnPage > 0 := by
      rw [stands.lines]
      exact Nat.lt_irrefl 0
    rw [if_neg none']
    refine After.pure ⟨full, (List.append_nil _).symm, ?_⟩
    exact {
      root := stands.root
      typeface := stands.typeface
      kids := stands.kids
      filled := stands.filled
      content := rfl
      lines := rfl
      short := stands.short
      plain := stands.plain
      wrote := stands.wrote
      counted := stands.counted.of rfl rfl }
  · have open' : s.linesOnPage > 0 := by
      rw [stands.lines]
      exact List.length_pos_iff.mpr some
    rw [if_pos open']
    refine (addPdfPage_after lawful stands some).weaken (fun _ s' closed => ?_) fun _ _ r => r
    refine ⟨full ++ [cur], ?_, closed⟩
    rw [List.flatten_append, List.flatten_singleton]

/-- The page tree and the catalog are put around the pages. -/
theorem finish_after (lawful : L.Lawful Given) (word : cap < 2 ^ 64) {markdown : Text}
    (shows : full.flatten = pieces markdown)
    (stands : Stands Given cap pages font full [] { s with content := [], linesOnPage := 0 }) :
    After (do
      modify fun s => { s with
        document := L.insertObject s.document pages (pagesObject s.kids (asI64 s.budget.pageCount)) }
      budgeted (PdfBudget.reserveObjects 1)
      let catalog ← documented fun d => L.addObject d (catalogObject pages)
      modify fun s => { s with document := L.setTrailer s.document "Root" catalog } : Pdf L PUnit) s
      (fun _ s' => Counted cap s' ∧ ∃ shown, Paginated L s'.document markdown shown)
      (Refused cap told) := by
  have counted : Counted cap { s with
      document := L.insertObject s.document pages (pagesObject s.kids (asI64 s.budget.pageCount)) } :=
    stands.counted.of rfl rfl
  have count : asI64 s.budget.pageCount = (full.length : Int) := by
    have kids : s.budget.pageCount = full.length :=
      stands.counted.count.trans stands.kids.length_eq
    have below := stands.counted.room.trans stands.counted.most
    have small : cap / pdfPageReserve < 2 ^ 63 := by
      unfold pdfPageReserve
      omega
    rw [asI64_small (below.trans_lt small), kids]
  have inserted : After (modify fun s => { s with
        document := L.insertObject s.document pages (pagesObject s.kids (asI64 s.budget.pageCount)) } :
        Pdf L PUnit) s
      (fun _ s' => s' = { s with
        document := L.insertObject s.document pages (pagesObject s.kids (asI64 s.budget.pageCount)) })
      (Refused cap told) := After.modify rfl
  refine After.bind inserted ?_
  rintro _ _ rfl
  refine After.bind (budgeted_after .object (fun b => PdfBudget.reserveObjects_after b 1) counted) ?_
  rintro _ _ ⟨b, kept, rfl⟩
  have counted := counted.kept kept
  have shown := paginated_of lawful stands.root stands.typeface stands.kids stands.filled shows
  rw [← count] at shown
  exact ⟨counted.of rfl rfl, _, shown⟩

/-- How building ends: the pieces are shown, a reservation failed, or there was no line. -/
theorem buildPdf_after (lawful : L.Lawful Given) (word : cap < 2 ^ 64) {budget : PdfBudget}
    (is : PdfBudget.new cap = .ok budget) (markdown : Text) :
    After (buildPdf markdown) (Writer.start L budget)
      (fun _ s => Counted cap s ∧ ∃ shown, Paginated L s.document markdown shown)
      (fun f s => Refused cap (pieces markdown) f s ∨
        Counted cap s ∧ f.cause = .empty ∧ linesOf markdown = []) := by
  have refused : ∀ (f : Failure) (s : Writer L), Refused cap (pieces markdown) f s →
      Refused cap (pieces markdown) f s ∨
        Counted cap s ∧ f.cause = .empty ∧ linesOf markdown = [] := fun _ _ => .inl
  let d := L.newObjectId (L.withVersion "1.4")
  let f := L.addObject d.2 fontObject
  have given : After (documented L.newObjectId) (Writer.start L budget)
      (fun pages s => pages = d.1 ∧ s = { Writer.start L budget with document := d.2 })
      (fun f s => Refused cap (pieces markdown) f s ∨
        Counted cap s ∧ f.cause = .empty ∧ linesOf markdown = []) := ⟨rfl, rfl⟩
  unfold buildPdf
  refine After.bind given ?_
  rintro _ _ ⟨rfl, rfl⟩
  refine After.bind ((budgeted_after .object (fun b => PdfBudget.reserveObjects_after b 1)
    (Counted.start is d.2)).errors refused) ?_
  rintro _ _ ⟨b, kept, rfl⟩
  have added : After (documented fun d => L.addObject d fontObject)
      { Writer.start L budget with document := d.2, budget := b }
      (fun font s => font = f.1 ∧
        s = { Writer.start L budget with document := f.2, budget := b })
      (fun f s => Refused cap (pieces markdown) f s ∨
        Counted cap s ∧ f.cause = .empty ∧ linesOf markdown = []) := ⟨rfl, rfl⟩
  refine After.bind added ?_
  rintro _ _ ⟨rfl, rfl⟩
  refine After.bind ((budgeted_after .object (fun b => PdfBudget.reserveObjects_after b 1)
    ((Counted.start is f.2).kept kept)).errors refused) ?_
  rintro _ _ ⟨b', kept', rfl⟩
  have start := Shows.start lawful is (kept.trans kept')
  have loop : After ((linesOf markdown).foldlM (fun _ raw => writeRaw d.1 f.1 raw) (⟨⟩ : PUnit)) _
      (fun _ => Shows Given cap d.1 f.1 (pieces markdown)) (Refused cap (pieces markdown)) :=
    After.foldlM (fun front _ => Shows Given cap d.1 f.1
      (front.flatMap fun raw => cut pdfMaxLineBytes (raw.map safePdfByte))) (linesOf markdown) start
      fun front raw back split _ s here => by
        rw [List.flatMap_append, List.flatMap_singleton]
        refine writeRaw_after lawful here raw fun piece mem => ?_
        exact List.mem_flatMap.mpr ⟨raw, split ▸ List.mem_append_right _ List.mem_cons_self, mem⟩
  refine After.bind (loop.errors refused) fun _ s shows => ?_
  refine After.bind ((lastPage_after lawful shows).errors refused) fun _ s' closed => After.get ?_
  obtain ⟨full, whole, stands⟩ := closed
  split
  · rename_i blank
    refine After.throw (.inr ⟨stands.counted.of rfl rfl, rfl, pieces_eq_nil.mp ?_⟩)
    by_contra some
    refine blank (stands.wrote.mpr ?_)
    rw [List.append_nil, whole]
    exact some
  · exact (finish_after lawful word whole stands).errors refused

/-- Saving leaves the document as it is. -/
theorem savePdf_after (outputCap : Nat) (s : Writer L) :
    After (savePdf outputCap) s (fun output s' => s' = s ∧ L.saveTo s.document = some output)
      (fun f s' => s' = s ∧ f.cause = .saved) := by
  unfold savePdf
  refine After.get ?_
  cases saved : L.saveTo s.document with
  | none => exact After.throw ⟨rfl, rfl⟩
  | some output =>
    dsimp only
    split
    · exact After.throw ⟨rfl, rfl⟩
    · cases L.loadMem output with
      | none => exact After.throw ⟨rfl, rfl⟩
      | some loaded =>
        dsimp only
        split
        · exact After.throw ⟨rfl, rfl⟩
        · exact After.pure ⟨rfl, rfl⟩

/-- The estimate is within the cap, and the pages added are counted. -/
structure Within (outputCap : Nat) (s : Writer L) : Prop where
  estimate : s.budget.estimatedBytes ≤ outputCap
  count : s.budget.pageCount = s.kids.length

theorem Counted.within (h : Counted cap s) : Within cap s where
  estimate := h.outputCap ▸ s.budget.fits
  count := h.count

/-- How a run of `markdown_to_pdf` may end. The limit of the content stream is not among the causes. -/
inductive EndsWell (L : Lopdf) (markdown : List UInt8) (outputCap : Nat) : Prop where
  /-- The text is not UTF-8. -/
  | undecoded (f : Failure) (run : markdownToPdf L markdown outputCap = .error f)
      (cause : f.cause = .text) (bytes : fromUtf8 markdown = none)
  /-- The cap has no room for a page. -/
  | cramped (f : Failure) (run : markdownToPdf L markdown outputCap = .error f)
      (cause : f.cause = .budget) (low : outputCap < pdfFixedReserve + pdfPageReserve)
  /-- A reservation for the text is denied: a budget under the cap refuses it with the error of the
  run, and is left as the run leaves it. -/
  | denied (f : Failure) (s : Writer L) (run : markdownToPdf L markdown outputCap = .ok (.error f s))
      (within : Within outputCap s) (cause : f.cause = .budget) (t : Text)
      (decoded : fromUtf8 markdown = some t) (reserved : Refuses outputCap (pieces t) f s.budget)
  /-- The text has no line. -/
  | blank (f : Failure) (s : Writer L) (run : markdownToPdf L markdown outputCap = .ok (.error f s))
      (within : Within outputCap s) (cause : f.cause = .empty) (t : Text)
      (decoded : fromUtf8 markdown = some t) (none' : linesOf t = [])
  /-- The document shows the text, and its file is refused. -/
  | unsaved (f : Failure) (s : Writer L) (run : markdownToPdf L markdown outputCap = .ok (.error f s))
      (within : Within outputCap s) (cause : f.cause = .saved) (t : Text)
      (decoded : fromUtf8 markdown = some t) (shown : List (List (Shown (List UInt8))))
      (paginated : Paginated L s.document t shown)
  /-- The document shows the text, and its file is returned. -/
  | done (output : List UInt8) (s : Writer L)
      (run : markdownToPdf L markdown outputCap = .ok (.ok output s))
      (within : Within outputCap s) (saved : L.saveTo s.document = some output) (t : Text)
      (decoded : fromUtf8 markdown = some t) (shown : List (List (Shown (List UInt8))))
      (paginated : Paginated L s.document t shown)

/-- **Every run ends in one of these ways.** The reservations that were made are within the cap in
each of them, a denied one comes with what was asked for, and a file is only returned for a document
that shows the whole text. -/
theorem markdownToPdf_paginates (lawful : L.Lawful Given) {outputCap : Nat}
    (word : outputCap < 2 ^ 64) (markdown : List UInt8) : EndsWell L markdown outputCap := by
  cases decoded : fromUtf8 markdown with
  | none =>
    refine .undecoded ⟨.text, "invalid text output"⟩ ?_ rfl decoded
    unfold markdownToPdf
    rw [decoded]
    rfl
  | some t =>
    cases fresh : PdfBudget.new outputCap with
    | error f =>
      refine .cramped f ?_ (PdfBudget.new_error fresh).1 (PdfBudget.new_error fresh).2
      unfold markdownToPdf
      rw [decoded, fresh]
      rfl
    | ok budget =>
      let program : Pdf L (List UInt8) := do buildPdf t; savePdf outputCap
      have run : markdownToPdf L markdown outputCap = .ok (program (Writer.start L budget)) := by
        unfold markdownToPdf
        rw [decoded, fresh]
        rfl
      have whole : After program (Writer.start L budget)
          (fun output s => Within outputCap s ∧ L.saveTo s.document = some output ∧
            ∃ shown, Paginated L s.document t shown)
          (fun f s => Within outputCap s ∧
            (f.cause = .budget ∧ Refuses outputCap (pieces t) f s.budget ∨
              f.cause = .empty ∧ linesOf t = [] ∨
              f.cause = .saved ∧ ∃ shown, Paginated L s.document t shown)) := by
        refine After.bind ((buildPdf_after lawful word fresh t).errors ?_) ?_
        · rintro f s (refused | ⟨counted, empty⟩)
          · exact ⟨refused.counted.within, .inl ⟨refused.cause, refused.reserved⟩⟩
          · exact ⟨counted.within, .inr (.inl empty)⟩
        · rintro _ s ⟨counted, shown⟩
          refine (savePdf_after outputCap s).weaken ?_ ?_
          · rintro output _ ⟨rfl, saved⟩
            exact ⟨counted.within, saved, shown⟩
          · rintro f _ ⟨rfl, cause⟩
            exact ⟨counted.within, .inr (.inr ⟨cause, shown⟩)⟩
      unfold After at whole
      cases ending : program (Writer.start L budget) with
      | ok output s =>
        rw [ending] at whole run
        obtain ⟨within, saved, shown, paginated⟩ := whole
        exact .done output s run within saved t decoded shown paginated
      | error f s =>
        rw [ending] at whole run
        obtain ⟨within, ⟨cause, reserved⟩ | ⟨cause, none'⟩ | ⟨cause, shown, paginated⟩⟩ := whole
        · exact .denied f s run within cause t decoded reserved
        · exact .blank f s run within cause t decoded none'
        · exact .unsaved f s run within cause t decoded shown paginated

/-! ## A document in memory -/

/-- A document as a table of objects, the last one put under an identifier first. -/
structure Memory where
  next : Nat
  objects : List (Nat × Object Nat)
  trailer : List (String × Nat)

mutual

/-- An object as it stands in a file. -/
def Object.written : Object Nat → List UInt8
  | .name bytes => octets "/" ++ bytes
  | .integer n => octets (toString n)
  | .reference id => octets (toString id ++ " 0 R")
  | .array items => octets "[" ++ writtenItems items ++ octets "]"
  | .dictionary entries => octets "<<" ++ writtenEntries entries ++ octets ">>"
  | .stream entries content =>
    octets "<<" ++ writtenEntries entries ++ octets ("/Length " ++ toString content.length) ++
      octets ">>stream\n" ++ content ++ octets "endstream"

def writtenItems : List (Object Nat) → List UInt8
  | [] => []
  | item :: items => item.written ++ octets " " ++ writtenItems items

def writtenEntries : List (List UInt8 × Object Nat) → List UInt8
  | [] => []
  | (key, value) :: entries =>
    octets "/" ++ key ++ octets " " ++ value.written ++ writtenEntries entries

end

/-- The file of a document. -/
def Memory.file (d : Memory) : List UInt8 :=
  octets "%PDF-1.4\n" ++
    d.objects.flatMap (fun (id, object) =>
      octets (toString id ++ " 0 obj\n") ++ object.written ++ octets "\nendobj\n") ++
    octets "trailer\n<<" ++
    d.trailer.flatMap (fun (key, id) => octets ("/" ++ key ++ " " ++ toString id ++ " 0 R")) ++
    octets ">>\n%%EOF"

/-- A library that numbers its objects, with one page in what it reads back. -/
def memory : Lopdf where
  Document := Memory
  ObjectId := Nat
  decideId := inferInstance
  withVersion := fun _ => ⟨1, [], []⟩
  newObjectId := fun d => (d.next, { d with next := d.next + 1 })
  addObject := fun d object =>
    (d.next, { d with next := d.next + 1, objects := (d.next, object) :: d.objects })
  insertObject := fun d id object => { d with objects := (id, object) :: d.objects }
  getObject := fun d id => d.objects.lookup id
  setTrailer := fun d key id => { d with trailer := (key, id) :: d.trailer }
  trailer := fun d key => d.trailer.lookup key
  saveTo := fun d => some d.file
  loadMem := fun bytes => if octets "%PDF-" <+: bytes then some (false, 1) else none

theorem lookup_put {β : Type} (id other : Nat) (b : β) (rest : List (Nat × β)) :
    ((id, b) :: rest).lookup other = if other = id then some b else rest.lookup other := by
  split
  · rename_i same
    rw [same, List.lookup_cons_self]
  · rename_i differ
    rw [List.lookup_cons, beq_eq_false_iff_ne.mpr differ]

theorem memory_lawful : memory.Lawful fun (d : Memory) (id : Nat) => id < d.next where
  newObjectId_fresh := fun d => Nat.lt_irrefl d.next
  newObjectId_given := fun _ _ => Nat.lt_succ_iff_lt_or_eq.trans or_comm
  newObjectId_get := fun _ _ => rfl
  addObject_fresh := fun d _ => Nat.lt_irrefl d.next
  addObject_given := fun _ _ _ => Nat.lt_succ_iff_lt_or_eq.trans or_comm
  addObject_get := fun d object id => lookup_put d.next id object d.objects
  insertObject_given := fun _ _ _ _ _ => Iff.rfl
  insertObject_get := fun d id object other => lookup_put id other object d.objects
  setTrailer_given := fun _ _ _ _ => Iff.rfl
  setTrailer_get := fun _ _ _ _ => rfl
  setTrailer_trailer := fun _ _ _ => List.lookup_cons_self

/-- Whether a run returns a file. -/
def returned {α β : Type} : Except Failure (EStateM.Result Failure α β) → Bool
  | .ok (.ok _ _) => true
  | _ => false

/-- A text of two lines is set under a cap of 8192 bytes, and its file is returned. -/
theorem markdownToPdf_memory : ∃ output s t shown,
    markdownToPdf memory (octets "# Title\n(text)") 8192 = .ok (.ok output s) ∧ Within 8192 s ∧
      fromUtf8 (octets "# Title\n(text)") = some t ∧ Paginated memory s.document t shown := by
  have returns : returned (markdownToPdf memory (octets "# Title\n(text)") 8192) = true := by
    decide +kernel
  have ending := markdownToPdf_paginates memory_lawful (show 8192 < 2 ^ 64 by decide)
    (octets "# Title\n(text)")
  cases ending with
  | done output s run within saved t decoded shown paginated =>
    exact ⟨output, s, t, shown, run, within, decoded, paginated⟩
  | undecoded f run | cramped f run | denied f s run | blank f s run | unsaved f s run =>
    rw [run] at returns
    cases returns

end Mineru.LegacyOffice
