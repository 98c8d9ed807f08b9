import Mineru.Laws.Builders.Middle
import Mineru.Preview.Middle

/-!
# The preview reads what the builder writes

A node's value is read as the box of the node, divided by the size of its page: `Describes` says
what the reader looks at, and `Node.Placed` that it passes the checks. A page in turn passes its
own, since it has no more nodes than blocks of the snapshot, and the count of all blocks stays
within the product of the limits. The reader refuses the limits whose product does not fit.

The writer and the reader meet in the value of a document, not in its bytes: that a JSON text is
read back as the value it was written from is left to the JSON library. Numbers are exact, where the
source rounds the quotients to `f32`.

Only documents that the builder has prepared are considered. The reader may accept others.
-/

set_option autoImplicit false

namespace Mineru.Preview

open Builders

/-- The box of points divided by the size of the page. -/
def scaled (size : PageSize) (bbox : Bbox) : NormalizedBbox where
  left := bbox.left / size.width
  top := bbox.top / size.height
  right := bbox.right / size.width
  bottom := bbox.bottom / size.height

/-- The roots of the nodes and the discarded blocks, in order. -/
def pageBoxes (page : OfficialPreparedPage) : List (String × Bbox) :=
  (page.preproc.map fun node => (nodeType node, nodeBbox node)) ++
    page.discarded.map fun block => (block.kind, block.bbox)

/-- The preview of a page. -/
def previewPage (page : OfficialPreparedPage) : PageResult where
  pageIndex := page.slicePageIdx
  pageSize := page.pageSizePoints
  blocks := (pageBoxes page).map fun entry =>
    ⟨text entry.1, scaled page.pageSizePoints entry.2⟩

/-! ## A block -/

theorem asF64_intValue (decimal : Decimal) (n : Int) :
    decimal.asF64 (intValue n) = some (n : Rat) := by
  unfold intValue
  split
  · next nonneg =>
    show some ((n.toNat : Nat) : Rat) = some (n : Rat)
    rw [← Int.cast_natCast, Int.toNat_of_nonneg nonneg]
  · rfl

theorem readBox_bboxValue (decimal : Decimal) (bbox : Bbox) :
    readBox decimal [intValue bbox.left, intValue bbox.top, intValue bbox.right,
      intValue bbox.bottom] =
      some ((bbox.left : Rat), (bbox.top : Rat), (bbox.right : Rat), (bbox.bottom : Rat)) := by
  unfold readBox
  simp only [asF64_intValue]
  rfl

theorem nodeKinds_read : ∀ kind ∈ nodeKinds,
    (!(text kind).isEmpty && decide (utf8Len (text kind) ≤ 128)) = true := by
  decide

theorem inUnit_div {point : Int} {side : Rat} (positive : 0 < side) (low : 0 ≤ point)
    (high : (point : Rat) ≤ side) : inUnit (point / side) = true := by
  unfold inUnit
  rw [Bool.and_eq_true, decide_eq_true_eq, decide_eq_true_eq]
  exact ⟨div_nonneg (by exact_mod_cast low) positive.le, (div_le_one positive).mpr high⟩

theorem normalizedBbox_scaled {size : PageSize} (valid : size.Valid) {bbox : Bbox}
    (inside : bbox.Inside size) :
    normalizedBbox (bbox.left / size.width) (bbox.top / size.height) (bbox.right / size.width)
      (bbox.bottom / size.height) = .ok (scaled size bbox) := by
  have right : 0 ≤ bbox.right := inside.left.trans inside.across.le
  have bottom : 0 ≤ bbox.bottom := inside.top.trans inside.down.le
  have left' : (bbox.left : Rat) ≤ size.width :=
    (Int.cast_le.mpr inside.across.le).trans inside.right
  have top' : (bbox.top : Rat) ≤ size.height :=
    (Int.cast_le.mpr inside.down.le).trans inside.bottom
  have across : (bbox.left : Rat) / size.width < bbox.right / size.width :=
    div_lt_div_of_pos_right (Int.cast_lt.mpr inside.across) valid.width
  have down : (bbox.top : Rat) / size.height < bbox.bottom / size.height :=
    div_lt_div_of_pos_right (Int.cast_lt.mpr inside.down) valid.height
  unfold normalizedBbox
  rw [if_neg]
  · rfl
  · simp only [List.any_cons, List.any_nil, inUnit_div valid.width inside.left left',
      inUnit_div valid.height inside.top top', inUnit_div valid.width right inside.right,
      inUnit_div valid.height bottom inside.bottom]
    simp only [Bool.not_true, Bool.or_self, Bool.false_eq_true, false_or, ge_iff_le, not_or,
      not_le]
    exact ⟨across, down⟩

/-- A value that describes a node of the page is read as its box. -/
theorem parseBlock_ok (decimal : Decimal) {size : PageSize} (valid : size.Valid) {kind : String}
    {bbox : Bbox} {members : List (Text × Value)} (describes : Describes kind bbox members)
    (inside : bbox.Inside size) (known : kind ∈ nodeKinds) :
    parseBlock decimal size (.object members) = .ok ⟨text kind, scaled size bbox⟩ := by
  have kindRead : ((member members "type").bind Value.asStr).filter (fun v =>
      !v.isEmpty && decide (utf8Len v ≤ 128)) = some (text kind) := by
    unfold member
    rw [describes.kind]
    exact if_pos (nodeKinds_read kind known)
  have boxRead : (member members "bbox").bind asArray = some [intValue bbox.left,
      intValue bbox.top, intValue bbox.right, intValue bbox.bottom] := by
    unfold member
    rw [describes.bbox]
    rfl
  have ordered : (0 : Rat) ≤ bbox.left ∧ (bbox.left : Rat) ≤ bbox.right ∧
      (bbox.right : Rat) ≤ size.width ∧ (0 : Rat) ≤ bbox.top ∧ (bbox.top : Rat) ≤ bbox.bottom ∧
      (bbox.bottom : Rat) ≤ size.height :=
    ⟨by exact_mod_cast inside.left, Int.cast_le.mpr inside.across.le, inside.right,
      by exact_mod_cast inside.top, Int.cast_le.mpr inside.down.le, inside.bottom⟩
  unfold parseBlock
  show (orInvalid (some members) >>= _) = _
  simp only [orInvalid, bind, Except.bind, kindRead, boxRead, readBox_bboxValue]
  rw [decide_eq_false (not_not.mpr ordered)]
  simp only [invalidIf, Bool.false_eq_true, if_false, normalizedBbox_scaled valid inside]
  rfl

/-! ## A page -/

/-- The sides of the page are read back as they were written. -/
structure ReadsBack (decimal : Decimal) (size : PageSize) : Prop where
  width : decimal.read (decimal.write size.width) = some size.width
  height : decimal.read (decimal.write size.height) = some size.height

/-- The values of the blocks that the reader counts. -/
def pageValues (decimal : Decimal) (page : OfficialPreparedPage) : List Value :=
  page.preproc.map (nodeValue decimal) ++
    page.discarded.map fun block => blockValue decimal block none

theorem readSize_written {decimal : Decimal} {size : PageSize} (valid : size.Valid)
    (exact : ReadsBack decimal size) :
    readSize decimal [.number (.float (decimal.write size.width)),
      .number (.float (decimal.write size.height))] = some size := by
  have side : ∀ q, 0 < q → q ≤ f32Max → decimal.read (decimal.write q) = some q →
      readSide decimal (.number (.float (decimal.write q))) = some q := by
    intro q positive finite back
    unfold readSide
    rw [show decimal.asF64 (.number (.float (decimal.write q))) = some q from back]
    refine if_pos ?_
    rw [Bool.and_eq_true]
    exact ⟨decide_eq_true positive, decide_eq_true finite⟩
  unfold readSize
  simp only [side _ valid.width valid.widthMax exact.width,
    side _ valid.height valid.heightMax exact.height]
  rfl

theorem readPage_middlePage {decimal : Decimal} {page : OfficialPreparedPage} (para : List Node)
    {previous : Option Nat} (above : ∀ last ∈ previous, last < page.slicePageIdx)
    (valid : page.pageSizePoints.Valid) (exact : ReadsBack decimal page.pageSizePoints) :
    readPage decimal previous (middlePage decimal page para) =
      .ok ⟨page.slicePageIdx, page.pageSizePoints, pageValues decimal page⟩ := by
  have index : asU64 (intValue page.slicePageIdx) = some page.slicePageIdx := rfl
  have increases : (previous.any fun last => decide (page.slicePageIdx ≤ last)) = false := by
    rw [Option.any_eq_false]
    intro last mem
    exact decide_eq_false (not_le.mpr (above last mem))
  have size : ((member [
      (text "preproc_blocks", .array (page.preproc.map (nodeValue decimal))),
      (text "discarded_blocks", .array (page.discarded.map fun block =>
        blockValue decimal block none)),
      (text "page_size", .array [
        .number (.float (decimal.write page.pageSizePoints.width)),
        .number (.float (decimal.write page.pageSizePoints.height))]),
      (text "page_idx", intValue page.slicePageIdx),
      (text "para_blocks", .array (para.map (nodeValue decimal)))] "page_size").bind
        asArray).bind (readSize decimal) = some page.pageSizePoints :=
    readSize_written valid exact
  unfold readPage
  show (do
    let index ← orInvalid (asU64 (intValue page.slicePageIdx))
    invalidIf (previous.any fun last => decide (index ≤ last))
    let size ← orInvalid _
    let preproc ← orInvalid (some (page.preproc.map (nodeValue decimal)))
    let discarded ← orInvalid (some (page.discarded.map fun block =>
      blockValue decimal block none))
    return (⟨index, size, preproc ++ discarded⟩ : PageParts)) = _
  rw [size, index]
  show (invalidIf (previous.any fun last => decide (page.slicePageIdx ≤ last)) >>= _) = _
  rw [increases]
  rfl

theorem mapM_ok {α β ε : Type} {f : α → Except ε β} {as : List α} {bs : List β}
    (each : List.Forall₂ (fun a b => f a = .ok b) as bs) : as.mapM f = .ok bs := by
  induction each with
  | nil => rfl
  | cons first _ ih =>
    rw [List.mapM_cons, first, ih]
    rfl

/-- Each value of the page is read as its box. -/
theorem pageValues_read (decimal : Decimal) {page : OfficialPreparedPage}
    (composed : page.Composed) :
    (pageValues decimal page).mapM (parseBlock decimal page.pageSizePoints) =
      .ok (previewPage page).blocks := by
  apply mapM_ok
  show List.Forall₂ _ (page.preproc.map _ ++ page.discarded.map _)
    (((page.preproc.map _) ++ page.discarded.map _).map _)
  rw [List.map_append, List.map_map, List.map_map]
  refine List.rel_append ?_ ?_
  · rw [List.forall₂_map_left_iff, List.forall₂_map_right_iff, List.forall₂_same]
    intro node mem
    obtain ⟨members, shape, describes⟩ := nodeValue_describes decimal node
    have placed := composed.preproc node mem
    rw [shape]
    exact parseBlock_ok decimal composed.size describes placed.inside placed.kind
  · rw [List.forall₂_map_left_iff, List.forall₂_map_right_iff, List.forall₂_same]
    intro block mem
    obtain ⟨members, shape, describes⟩ := blockValue_describes decimal block none
    have placed := composed.discarded block mem
    rw [shape]
    exact parseBlock_ok decimal composed.size describes placed.inside
      (List.mem_append_right _ placed.kind)

theorem pageValues_length (decimal : Decimal) (page : OfficialPreparedPage) :
    (pageValues decimal page).length = page.preproc.length + page.discarded.length := by
  unfold pageValues
  rw [List.length_append, List.length_map, List.length_map]

/-! ## The document -/

/-- The pages are read one after the other. The total stays within what is left for the pages. -/
theorem parsePages_ok {decimal : Decimal} {route : OfficialPdfOptions} {maxTotal : Nat}
    {previous : Option Nat} {total : Nat} {pages : List OfficialPreparedPage} {paras : Paras}
    (length : paras.length = pages.length) (order : Increasing previous pages)
    (composed : ∀ page ∈ pages, page.Composed)
    (small : ∀ page ∈ pages, page.snapshot.length ≤ route.maxLayoutBlocksPerPage)
    (exact : ∀ page ∈ pages, ReadsBack decimal page.pageSizePoints)
    (room : total + pages.length * route.maxLayoutBlocksPerPage ≤ maxTotal) :
    parsePages decimal route maxTotal previous total
      ((pages.zip paras).map fun pair => middlePage decimal pair.1 pair.2) =
      .ok (pages.map previewPage) := by
  induction pages generalizing previous total paras with
  | nil => rfl
  | cons page rest ih =>
    cases paras with
    | nil => cases length
    | cons para paras =>
      obtain ⟨above, order⟩ := order
      have here := composed page List.mem_cons_self
      have count : page.preproc.length + page.discarded.length ≤ route.maxLayoutBlocksPerPage :=
        here.count.trans (small page List.mem_cons_self)
      rw [List.length_cons, Nat.succ_mul] at room
      rw [List.zip_cons_cons, List.map_cons]
      unfold parsePages
      rw [readPage_middlePage para above here.size (exact page List.mem_cons_self)]
      show (invalidIf _ >>= _) = _
      dsimp only
      rw [pageValues_length, decide_eq_false (not_lt.mpr count),
        decide_eq_false (not_lt.mpr (by omega))]
      show ((pageValues decimal page).mapM (parseBlock decimal page.pageSizePoints) >>= _) = _
      rw [pageValues_read decimal here]
      have others := ih (Nat.succ.inj length) order
        (fun p mem => composed p (List.mem_cons_of_mem _ mem))
        (fun p mem => small p (List.mem_cons_of_mem _ mem))
        (fun p mem => exact p (List.mem_cons_of_mem _ mem))
        (show total + (page.preproc.length + page.discarded.length) +
          rest.length * route.maxLayoutBlocksPerPage ≤ maxTotal by omega)
      show (parsePages decimal route maxTotal (some page.slicePageIdx) _ _ >>= _) = _
      rw [others]
      rfl

/-- The document of middle pages. -/
def middleDocument (middle : List Value) : Value := .object [(text "pdf_info", .array middle)]

/-- **The preview reads what the builder writes.** Pages that are prepared within the limits of the
route and written in one document are read back, if the product of the limits fits in a `usize`:
with their indexes and sizes, and with one block for each root node and each discarded block, whose
box is the box of points divided by the size of the page. Where the product does not fit, the
document is refused. -/
theorem parseMiddle_reads (decimal : Decimal) (r : Renderer) (tables : TableMerge)
    (tableEnable : Bool) (increasing merging emitting : Nat → Bool)
    (pages : List OfficialPreparedPage) (middle : List Value)
    (fromSlice : List UInt8 → Option Value) (bytes : List UInt8) (route : OfficialPdfOptions)
    (prepared : ∀ page ∈ pages, ∃ overflow built expired maxTextBytes,
      prepareOfficialPage overflow r.renderBlock expired maxTextBytes built = .ok page)
    (emitted : finalizeOfficialDocument decimal r tables tableEnable increasing merging emitting
      pages = .ok middle)
    (nonempty : pages ≠ []) (few : pages.length ≤ route.maxPages)
    (small : ∀ page ∈ pages, page.snapshot.length ≤ route.maxLayoutBlocksPerPage)
    (exact : ∀ page ∈ pages, ReadsBack decimal page.pageSizePoints)
    (read : fromSlice bytes = some (middleDocument middle)) :
    parseMiddle decimal fromSlice bytes route =
      if route.maxPages * route.maxLayoutBlocksPerPage < 2 ^ 64 then .ok (pages.map previewPage)
      else .error "invalid preview limits" := by
  have composed : ∀ page ∈ pages, page.Composed := by
    intro page mem
    obtain ⟨overflow, built, expired, maxTextBytes, is⟩ := prepared page mem
    exact prepareOfficialPage_composed is
  obtain ⟨order, paras, length, shape⟩ := finalizeOfficialDocument_pages emitted
  have count : middle.length = pages.length := by
    rw [shape, List.length_map, List.length_zip, length, Nat.min_self]
  have accepted : (!middle.isEmpty && decide (middle.length ≤ route.maxPages)) = true := by
    rw [count, decide_eq_true few, Bool.and_true, Bool.not_eq_true', List.isEmpty_eq_false_iff]
    intro none
    rw [none] at count
    exact nonempty (List.length_eq_zero_iff.mp count.symm)
  have found : (((fromSlice bytes).bind asObject).bind fun document =>
      (member document "pdf_info").bind asArray).filter (fun pages =>
        !pages.isEmpty && decide (pages.length ≤ route.maxPages)) = some middle := by
    rw [read]
    exact if_pos accepted
  unfold parseMiddle
  rw [found]
  show (checkedMul route.maxPages route.maxLayoutBlocksPerPage).elim _ _ = _
  unfold checkedMul
  by_cases fits : route.maxPages * route.maxLayoutBlocksPerPage < 2 ^ 64
  · rw [if_pos fits, if_pos fits, shape]
    show parsePages decimal route _ none 0 _ = _
    refine parsePages_ok length order composed small exact ?_
    rw [Nat.zero_add]
    exact Nat.mul_le_mul_right _ few
  · rw [if_neg fits, if_neg fits]
    rfl

/-! ## A document of one page -/

/-- Whole numbers as they are spelled. -/
def wholeDecimal : Decimal where
  write q := Nat.toDigits 10 q.floor.toNat ++ text ".0"
  read t := some (((t.takeWhile Char.isDigit).foldl (fun n c => 10 * n + (c.toNat - 48)) 0 : Nat))

def plainRenderer : Renderer := ⟨fun _ => [], fun _ => false⟩

/-- No tables are merged. -/
def keepTables : TableMerge where
  run paras := .ok paras
  length before after is := by
    cases is
    rfl

/-- A page with a text and a footer. -/
def onePage : OfficialBuildPage where
  slicePageIdx := 0
  pageSizePoints := ⟨100, 50⟩
  renderScale := 2
  rgbWidth := 200
  rgbHeight := 100
  snapshot := [
    ⟨plainBlock "text" ⟨10, 5, 50, 20⟩ (some (text "Hi")), some ⟨1 / 10, 1 / 10, 1 / 2, 2 / 5⟩,
      none, []⟩,
    ⟨plainBlock "footer" ⟨10, 40, 50, 45⟩ (some (text "1")), some ⟨1 / 10, 4 / 5, 1 / 2, 9 / 10⟩,
      none, []⟩]

/-- A block of the page. -/
def oneBlock (kind content : String) (bbox : Bbox) (index : Nat) : Block where
  kind
  bbox
  angle := 0
  lines := [⟨bbox, [.text (text content)]⟩]
  index
  mergePrev := none
  subType := none
  guessLang := none
  imagePath := none
  cellMerge := none
  crossPage := false
  linesDeleted := false

def onePrepared : OfficialPreparedPage where
  slicePageIdx := 0
  pageSizePoints := ⟨100, 50⟩
  snapshot := onePage.snapshot
  preproc := [.leaf (oneBlock "text" "Hi" ⟨10, 5, 50, 20⟩ 0)]
  discarded := [oneBlock "footer" "1" ⟨10, 40, 50, 45⟩ 1]

theorem onePage_valid : validatePage onePage none = .ok () := by decide +kernel

theorem onePage_placed : onePage.snapshot.map (ModelBlock.placed onePage.pageSizePoints) =
    [plainBlock "text" ⟨10, 5, 50, 20⟩ (some (text "Hi")),
      plainBlock "footer" ⟨10, 40, 50, 45⟩ (some (text "1"))] := by
  have first : pointBbox (some ⟨1 / 10, 1 / 10, 1 / 2, 2 / 5⟩) ⟨100, 50⟩ =
      .ok ⟨10, 5, 50, 20⟩ := by decide +kernel
  have second : pointBbox (some ⟨1 / 10, 4 / 5, 1 / 2, 9 / 10⟩) ⟨100, 50⟩ =
      .ok ⟨10, 40, 50, 45⟩ := by decide +kernel
  unfold onePage ModelBlock.placed
  simp only [List.map_cons, List.map_nil, first, second]
  rfl

theorem onePage_prepared : prepareOfficialPage .exact plainRenderer.renderBlock (fun _ => false) 100
    onePage = .ok onePrepared := by
  unfold prepareOfficialPage checkPage
  rw [onePage_valid, onePage_placed]
  rfl

def oneMiddle : List Value := [middlePage wholeDecimal onePrepared onePrepared.preproc]

theorem onePrepared_emitted : finalizeOfficialDocument wholeDecimal plainRenderer keepTables true
    (fun _ => false) (fun _ => false) (fun _ => false) [onePrepared] = .ok oneMiddle := by
  rfl

/-- The node of the text as it is written. -/
def oneNodeText : String :=
  "\x7b\"bbox\":[10,5,50,20],\"type\":\"text\",\"angle\":0,\"lines\":[\x7b\"bbox\":[10,5,50,20]," ++
  "\"spans\":[\x7b\"bbox\":[10,5,50,20],\"type\":\"text\",\"content\":\"Hi\"\x7d]\x7d],\"index\":0\x7d"

/-- The document as it is written. -/
def oneDocumentText : String :=
  "\x7b\"pdf_info\":[\x7b\"preproc_blocks\":[" ++ oneNodeText ++ "],\"discarded_blocks\":[" ++
  "\x7b\"bbox\":[10,40,50,45],\"type\":\"footer\",\"angle\":0,\"lines\":[\x7b\"bbox\":[10,40,50,45]," ++
  "\"spans\":[\x7b\"bbox\":[10,40,50,45],\"type\":\"text\",\"content\":\"1\"\x7d]\x7d],\"index\":1\x7d]," ++
  "\"page_size\":[100.0,50.0],\"page_idx\":0,\"para_blocks\":[" ++ oneNodeText ++ "]\x7d]\x7d"

def oneBytes : List UInt8 := oneDocumentText.toList.map fun c => UInt8.ofNat c.toNat

/-- The reader on the document. -/
def readOne (bytes : List UInt8) : Option Value :=
  if bytes = oneBytes then some (middleDocument oneMiddle) else none

/-- A page with a text and a footer. -/
theorem parseMiddle_reads_onePage : parseMiddle wholeDecimal readOne oneBytes ⟨1, 2⟩ =
    .ok [⟨0, ⟨100, 50⟩, [⟨text "text", 1 / 10, 1 / 10, 1 / 2, 2 / 5⟩,
      ⟨text "footer", 1 / 10, 4 / 5, 1 / 2, 9 / 10⟩]⟩] := by
  have reads := parseMiddle_reads wholeDecimal plainRenderer keepTables true (fun _ => false)
    (fun _ => false) (fun _ => false) [onePrepared] oneMiddle readOne oneBytes ⟨1, 2⟩
    (by
      intro page mem
      rw [List.mem_singleton.mp mem]
      exact ⟨.exact, onePage, fun _ => false, 100, onePage_prepared⟩)
    onePrepared_emitted (by decide) (by decide)
    (by
      intro page mem
      rw [List.mem_singleton.mp mem]
      decide)
    (by
      intro page mem
      rw [List.mem_singleton.mp mem]
      exact ⟨rfl, rfl⟩)
    (if_pos rfl)
  rw [reads, if_pos (by decide)]
  decide +kernel

/-- The limits of the route may be as large as they get, and then no document is read. -/
theorem parseMiddle_refuses : ∃ built middle,
    prepareOfficialPage .exact plainRenderer.renderBlock (fun _ => false) 100 onePage = .ok built ∧
      finalizeOfficialDocument wholeDecimal plainRenderer keepTables true (fun _ => false)
        (fun _ => false) (fun _ => false) [built] = .ok middle ∧
      readOne oneBytes = some (middleDocument middle) ∧
      parseMiddle wholeDecimal readOne oneBytes ⟨2 ^ 64 - 1, 2 ^ 64 - 1⟩ =
        .error "invalid preview limits" := by
  have read : readOne oneBytes = some (middleDocument oneMiddle) := if_pos rfl
  refine ⟨onePrepared, oneMiddle, onePage_prepared, onePrepared_emitted, read, ?_⟩
  unfold parseMiddle
  rw [read]
  rfl

end Mineru.Preview
