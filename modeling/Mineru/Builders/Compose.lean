import Mineru.Builders.Node

/-!
# Composing a page

`compose_page`: the blocks of a page become nodes in six passes over one set of consumed indexes.
Overlap ratios are rationals, and distances are compared by their squares. What the pixels and the
text of a block are made into is given with the page.

The source keeps boxes in `i32`. Its coordinates are not negative, so that a difference always fits;
what may not fit are the sums and products of `near_above`, `center_distance` and of the areas that
containers are compared by. `Overflow` says what becomes of those: the passes take their results
through `narrow`, and `composeNumbers` lists them in a run over exact integers, so that a build that
checks stops if and only if one of them does not fit.
-/

set_option autoImplicit false

namespace Mineru.Builders

open Logic

/-- A block of the snapshot, with what `raw_block` computes from pixels, geometry and text. -/
structure RawBlock where
  blockType : String
  bbox : Except VlmError Bbox
  angle : Except VlmError Int
  content : Option Text
  lines : Except VlmError (List Line)
  imagePath : Except VlmError (Option Text)
  mergePrev : Option Bool
  subType : Option String
  guessLang : Option String
  cellMerge : Option Value

/-- The kind of a raw type. -/
def blockKind (blockType : String) : Option String :=
  if ["text", "formula_number", "index", "list_item"].contains blockType then some "text"
  else if ["title", "ref_text", "phonetic", "header", "footer", "page_number", "aside_text",
      "page_footnote", "list"].contains blockType then some blockType
  else if ["table_caption", "image_caption", "chart_caption", "code_caption", "caption"].contains
      blockType then some "caption"
  else if ["table_footnote", "image_footnote", "chart_footnote", "code_footnote",
      "footnote"].contains blockType then some "footnote"
  else if blockType = "table" then some "table_body"
  else if blockType = "image" then some "image_body"
  else if blockType = "image_block" then some "image_block_body"
  else if blockType = "chart" then some "chart_body"
  else if blockType = "equation" then some "interline_equation"
  else if blockType = "equation_block" then some "equation_block"
  else if blockType = "code" ∨ blockType = "algorithm" then some "code_body"
  else none

def builderError (message : String) : VlmError := .protocol "official builders" message

/-- The kind of a block, whose marker has no content. -/
def rawKind (raw : RawBlock) : Except VlmError String :=
  match blockKind raw.blockType with
  | none => .error (builderError ("unknown raw type: " ++ raw.blockType))
  | some kind =>
    if kind = "list" ∧ raw.content.any (fun content => content ≠ []) then
      .error (builderError "list marker content must be null or empty")
    else .ok kind

def rawBlock (raw : RawBlock) (index : Nat) : Except VlmError Block := do
  let bbox ← raw.bbox
  let angle ← raw.angle
  let kind ← rawKind raw
  let lines ← raw.lines
  let imagePath ← raw.imagePath
  return {
    kind, bbox, angle, lines, index
    mergePrev := if raw.blockType = "text" then raw.mergePrev else none
    subType := raw.subType
    guessLang := raw.guessLang
    imagePath
    cellMerge := raw.cellMerge
    crossPage := false
    linesDeleted := false }

/-! ## Integers -/

/-- What becomes of a result that does not fit in an `i32`: it is kept as an exact integer, the build
checks and panics, or it wraps around. -/
inductive Overflow where
  | exact
  | panics
  | wraps
  deriving DecidableEq, Repr

/-- The result of an operation that does not panic. -/
def Overflow.narrow : Overflow → Int → Int
  | .wraps, n => Int.bmod n (2 ^ 32)
  | .exact, n => n
  | .panics, n => n

/-- Whether a number fits in an `i32`. -/
def fitsI32 (n : Int) : Bool := decide (-2 ^ 31 ≤ n) && decide (n < 2 ^ 31)

/-- Whether a run that forms these numbers panics. -/
def Overflow.stops (overflow : Overflow) (numbers : List Int) : Bool :=
  decide (overflow = .panics) && !numbers.all fitsI32

/-! ## Kinds and geometry -/

def isChrome (kind : String) : Bool :=
  ["header", "footer", "page_number", "aside_text", "page_footnote"].contains kind

def isVisualBody (kind : String) : Bool :=
  ["image_body", "image_block_body", "table_body", "chart_body", "code_body"].contains kind

def visualKind (kind : String) : String :=
  if kind = "table_body" then "table"
  else if kind = "chart_body" then "chart"
  else if kind = "code_body" then "code"
  else "image"

def overlapRatio (inner outer : Bbox) : Rat :=
  let left := max inner.left outer.left
  let top := max inner.top outer.top
  let right := min inner.right outer.right
  let bottom := min inner.bottom outer.bottom
  let overlap : Int := max (right - left) 0 * max (bottom - top) 0
  let area : Int := (inner.right - inner.left) * (inner.bottom - inner.top)
  if area = 0 then 0 else (overlap : Rat) / area

def overlaps (first second : Bbox) : Bool :=
  decide (first.left < second.right) && decide (first.right > second.left) &&
    decide (first.top < second.bottom) && decide (first.bottom > second.top)

def outsideVisualGap (between child parent : Bbox) : Bool :=
  let gap := if child.bottom ≤ parent.top then some (child.bottom, parent.top)
    else if parent.bottom ≤ child.top then some (parent.bottom, child.top)
    else none
  gap.any fun (top, bottom) =>
    !overlaps between child && !overlaps between parent &&
      (decide (between.top ≥ bottom) || decide (between.bottom ≤ top))

def visualNeighbor (child parent : Block) (blocks : List Block) : Bool :=
  if child.kind = "footnote" ∧ child.index < parent.index then false
  else
    let allowed := if child.kind = "caption" then ["caption"] else ["caption", "footnote"]
    let start := min child.index parent.index
    let stop := max child.index parent.index
    (blocks.filter fun b => decide (b.index > start) && decide (b.index < stop)).all fun between =>
      allowed.contains between.kind || outsideVisualGap between.bbox child.bbox parent.bbox

/-- The square of `bbox_distance`. -/
def bboxDistance (first second : Bbox) : Int :=
  let dx := if first.right < second.left then second.left - first.right
    else if second.right < first.left then first.left - second.right
    else 0
  let dy := if first.bottom < second.top then second.top - first.bottom
    else if second.bottom < first.top then first.top - second.bottom
    else 0
  dx * dx + dy * dy

/-- The square of `center_distance`. -/
def centerDistance (overflow : Overflow) (first second : Bbox) : Int :=
  let x := overflow.narrow (first.left + first.right - second.left - second.right)
  let y := overflow.narrow (first.top + first.bottom - second.top - second.bottom)
  x * x + y * y

/-- The numbers that it forms. -/
def centerNumbers (first second : Bbox) : List Int :=
  let x := first.left + first.right
  let y := first.top + first.bottom
  [x, x - second.left, x - second.left - second.right,
    y, y - second.top, y - second.top - second.bottom]

def effectiveIndexDistance (child parent : Block) (blocks : List Block) : Nat :=
  let start := min child.index parent.index
  let stop := max child.index parent.index
  stop - start - (blocks.filter fun b => decide (b.index > start) && decide (b.index < stop) &&
    decide (b.kind = child.kind)).length

/-- `min_by`: the first one with nothing less. -/
def minBy {α : Type} (less : α → α → Bool) : List α → Option α
  | [] => none
  | a :: rest => some (rest.foldl (fun best b => if less b best then b else best) a)

/-- `sqrt a + 2 < sqrt b`. -/
def farther (a b : Int) : Bool := decide (0 < b - a - 4) && decide (16 * a < (b - a - 4) ^ 2)

def bestVisualParent (overflow : Overflow) (child : Block) (parents blocks : List Block) :
    Option Block :=
  let candidates := parents.filter fun parent => visualNeighbor child parent blocks
  let distance (parent : Block) := effectiveIndexDistance child parent blocks
  match (candidates.map distance).min? with
  | none => none
  | some minimum =>
    let closest := candidates.filter fun parent => distance parent = minimum
    if closest.length = 1 then closest.head?
    else
      let near (parent : Block) := bboxDistance child.bbox parent.bbox
      if ((closest.map near).min?.bind fun low => (closest.map near).max?.map (farther low)) =
          some true then
        minBy (fun l r => decide (near l < near r) ||
          (decide (near l = near r) && decide (l.index < r.index))) closest
      else if child.kind = "caption" ∧ closest.all (fun parent => visualKind parent.kind = "table")
      then minBy (fun l r => decide (l.index ≥ r.index)) closest
      else if child.kind = "footnote" then minBy (fun l r => decide (l.index < r.index)) closest
      else
        let center (parent : Block) := centerDistance overflow child.bbox parent.bbox
        minBy (fun l r => decide (center l < center r) ||
          (decide (center l = center r) && decide (l.index < r.index))) closest

/-- The parents whose centers `best_visual_parent` compares: the closest ones, when nothing before
decides between them. -/
def centeredParents (child : Block) (parents blocks : List Block) : List Block :=
  let candidates := parents.filter fun parent => visualNeighbor child parent blocks
  let distance (parent : Block) := effectiveIndexDistance child parent blocks
  match (candidates.map distance).min? with
  | none => []
  | some minimum =>
    let closest := candidates.filter fun parent => distance parent = minimum
    let near (parent : Block) := bboxDistance child.bbox parent.bbox
    if closest.length = 1 ∨ ((closest.map near).min?.bind fun low =>
          (closest.map near).max?.map (farther low)) = some true ∨
        (child.kind = "caption" ∧ closest.all fun parent => visualKind parent.kind = "table") ∨
        child.kind = "footnote" then []
    else closest

/-! ## Captions -/

def nearAbove (overflow : Overflow) (child parent : Block) : Bool :=
  let width := max (parent.bbox.right - parent.bbox.left) 1
  let height := max (child.bbox.bottom - child.bbox.top) 1
  let margin := max (Int.tdiv (overflow.narrow (width * 3)) 100) 12
  decide (child.bbox.bottom ≤ parent.bbox.top) &&
    decide (parent.bbox.top - child.bbox.bottom ≤
      max (Int.tdiv (overflow.narrow (height * 3)) 2) 12) &&
    decide (child.bbox.right ≥ parent.bbox.left - margin) &&
    decide (child.bbox.left ≤ overflow.narrow (parent.bbox.right + margin))

/-- The numbers that it forms, from the first comparison to the one that fails. -/
def nearAboveNumbers (child parent : Block) : List Int :=
  let width := max (parent.bbox.right - parent.bbox.left) 1
  let height := max (child.bbox.bottom - child.bbox.top) 1
  let margin := max (Int.tdiv (width * 3) 100) 12
  if child.bbox.bottom > parent.bbox.top then []
  else if parent.bbox.top - child.bbox.bottom > max (Int.tdiv (height * 3) 2) 12 then [height * 3]
  else if child.bbox.right < parent.bbox.left - margin then [height * 3, width * 3]
  else [height * 3, width * 3, parent.bbox.right + margin]

/-- A text fragment becomes a caption. -/
def Block.asCaption (block : Block) : Block := { block with kind := "caption", mergePrev := none }

/-- One turn of the first loop of `caption_fallbacks`. -/
def captionBetween (overflow : Overflow) (blocks : List Block) (index : Nat) : List Block :=
  match blocks[index - 1]?, blocks[index]?, blocks[index + 1]? with
  | some before, some block, some after =>
    if block.kind = "text" ∧ before.kind = "caption" ∧ isVisualBody after.kind ∧
        nearAbove overflow block after ∧ before.bbox.top < block.bbox.bottom ∧
        before.bbox.bottom > block.bbox.top then blocks.set index block.asCaption
    else blocks
  | _, _, _ => blocks

def betweenNumbers (blocks : List Block) (index : Nat) : List Int :=
  match blocks[index - 1]?, blocks[index]?, blocks[index + 1]? with
  | some before, some block, some after =>
    if block.kind = "text" ∧ before.kind = "caption" ∧ isVisualBody after.kind then
      nearAboveNumbers block after
    else []
  | _, _, _ => []

/-- The fragments above a table, from the nearest one up. -/
def captionsAbove (overflow : Overflow) (table : Block) : Bool → List Block → Nat → List Block
  | _, blocks, 0 => blocks
  | saw, blocks, index + 1 => match blocks[index]? with
    | none => blocks
    | some block =>
      if !nearAbove overflow block table then blocks
      else if block.kind = "caption" then captionsAbove overflow table true blocks index
      else if saw ∧ (block.kind = "text" ∨ block.kind = "footnote") ∧ block.lines.length ≤ 1 then
        captionsAbove overflow table saw (blocks.set index block.asCaption) index
      else captionsAbove overflow table saw blocks index

/-- The loop stops where a block is not near, whatever the kinds. -/
def aboveNumbers (table : Block) (blocks : List Block) : Nat → List Int
  | 0 => []
  | index + 1 => match blocks[index]? with
    | none => []
    | some block => nearAboveNumbers block table ++
      if nearAbove .exact block table then aboveNumbers table blocks index else []

def isInfix (needle : Text) (t : Text) : Bool := t.tails.any needle.isPrefixOf

def continues (t : Text) : Bool :=
  let t := t.map Char.toLower
  isInfix (text "continued") t || isInfix (text "continuation") t || isInfix (text "续表") t

/-- One turn of the second loop of `caption_fallbacks`. -/
def captionsOfTable (overflow : Overflow) (renderBlock : Block → Text) (blocks : List Block)
    (tableIndex : Nat) : List Block :=
  match blocks[tableIndex]? with
  | none => blocks
  | some table =>
    if table.kind ≠ "table_body" then blocks
    else
      let blocks := captionsAbove overflow table false blocks tableIndex
      match blocks.findIdx? fun b => !isChrome b.kind with
      | none => blocks
      | some first => match blocks[first]? with
        | none => blocks
        | some block =>
          if first < tableIndex ∧ block.kind = "text" ∧ nearAbove overflow block table ∧
              continues (renderBlock block) then blocks.set first block.asCaption
          else blocks

def tableNumbers (blocks : List Block) (tableIndex : Nat) : List Int :=
  match blocks[tableIndex]? with
  | none => []
  | some table =>
    if table.kind ≠ "table_body" then []
    else
      let above := captionsAbove .exact table false blocks tableIndex
      aboveNumbers table blocks tableIndex ++
        match above.findIdx? fun b => !isChrome b.kind with
        | none => []
        | some first => match above[first]? with
          | none => []
          | some block =>
            if first < tableIndex ∧ block.kind = "text" then nearAboveNumbers block table else []

def captionFallbacks (overflow : Overflow) (renderBlock : Block → Text) (blocks : List Block) :
    List Block :=
  let blocks := (List.range' 1 (blocks.length - 1 - 1)).foldl (captionBetween overflow) blocks
  (List.range blocks.length).foldl (captionsOfTable overflow renderBlock) blocks

/-- The numbers of a loop, whose turns form numbers of their own. -/
def loopNumbers (turn : List Block → Nat → List Block) (numbers : List Block → Nat → List Int) :
    List Block → List Nat → List Int
  | _, [] => []
  | blocks, index :: rest => numbers blocks index ++ loopNumbers turn numbers (turn blocks index) rest

def fallbackNumbers (renderBlock : Block → Text) (blocks : List Block) : List Int :=
  let indexes := List.range' 1 (blocks.length - 1 - 1)
  loopNumbers (captionBetween .exact) betweenNumbers blocks indexes ++
    loopNumbers (captionsOfTable .exact renderBlock) tableNumbers
      (indexes.foldl (captionBetween .exact) blocks) (List.range blocks.length)

/-! ## The passes -/

/-- The kind that most items have; of kinds with as many, the last one in their order. -/
def majorityKind (items : List Block) : Option String :=
  let kinds := items.map Block.kind
  (kinds.insertionSort (· ≤ ·)).foldl (fun best kind => match best with
    | none => some kind
    | some k => if kinds.count k ≤ kinds.count kind then some kind else some k) none

/-- The inner loop of the list pass: the candidates that the marker takes. -/
def captureItems (marker : Block) (consumed : List Nat) (candidates : List Block) :
    List Nat × List Block :=
  candidates.foldl (fun (consumed, items) candidate =>
    if candidate.index ∈ consumed ∨ overlapRatio candidate.bbox marker.bbox < 4 / 5 then
      (consumed, items)
    else (consumed ++ [candidate.index], items ++ [candidate])) (consumed, [])

/-- One turn of the list pass. A marker without items is dropped. -/
def captureList (candidates : List Block) (s : List Nat × List Node) (marker : Block) :
    List Nat × List Node :=
  let (consumed, items) := captureItems marker s.1 candidates
  if items = [] then (consumed ++ [marker.index], s.2)
  else (consumed ++ [marker.index],
    s.2 ++ [.list { marker with subType := majorityKind items } items])

def area (overflow : Overflow) (b : Bbox) : Int :=
  overflow.narrow ((b.right - b.left) * (b.bottom - b.top))

/-- The containers that hold most of a member. -/
def containersOf (containers : List Block) (member : Block) : List Block :=
  containers.filter fun container => decide (9 / 10 ≤ overlapRatio member.bbox container.bbox)

/-- The container that a member is absorbed by. -/
def bestContainer (overflow : Overflow) (containers : List Block) (member : Block) :
    Option Block :=
  minBy (fun l r =>
      let left := overlapRatio member.bbox l.bbox
      let right := overlapRatio member.bbox r.bbox
      decide (right < left) || (decide (left = right) &&
        (decide (area overflow l.bbox < area overflow r.bbox) ||
          (decide (area overflow l.bbox = area overflow r.bbox) && decide (l.index < r.index)))))
    (containersOf containers member)

/-- The areas that are computed: a single container is not compared. -/
def containerNumbers (containers : List Block) (member : Block) : List Int :=
  let held := containersOf containers member
  if held.length ≤ 1 then [] else held.map fun container => area .exact container.bbox

/-- A number of thousandths, up to 1000, as `serde_json` writes the float. -/
def thousandths (n : Nat) : Text :=
  if n ≥ 1000 then text "1.0"
  else if n = 0 then text "0.0"
  else
    let digits := [n / 100, n / 10 % 10, n % 10].map fun d => Char.ofNat (d + '0'.toNat)
    text "0." ++ (digits.reverse.dropWhile (· = '0')).reverse

/-- The coordinate of a member within the size of its container. -/
def relative (offset size : Int) : Value :=
  let ratio : Rat := max 0 (min 1 ((offset : Rat) / size))
  .number (.float (thousandths (ratio * 1000 + 1 / 2).floor.toNat))

/-- The entry of a member in `sub_images`. -/
def subImage (member container : Block) : Value :=
  let width := container.bbox.right - container.bbox.left
  let height := container.bbox.bottom - container.bbox.top
  .object [
    (text "type", .string (text (if member.kind = "chart_body" then "chart" else "image"))),
    (text "bbox", .array [
      relative (member.bbox.left - container.bbox.left) width,
      relative (member.bbox.top - container.bbox.top) height,
      relative (member.bbox.right - container.bbox.left) width,
      relative (member.bbox.bottom - container.bbox.top) height])]

/-- The members with their containers, in the order of the pass. -/
def absorb (overflow : Overflow) (parents : List Block) : List (Block × Block) :=
  let containers := parents.filter fun b => b.kind = "image_block_body"
  (parents.filter fun b => b.kind = "image_body" ∨ b.kind = "chart_body").filterMap fun member =>
    (bestContainer overflow containers member).map fun container => (member, container)

def absorbNumbers (parents : List Block) : List Int :=
  let containers := parents.filter fun b => b.kind = "image_block_body"
  (parents.filter fun b => b.kind = "image_body" ∨ b.kind = "chart_body").flatMap
    (containerNumbers containers)

/-- The captions and footnotes with their parents, in the order of the pass. -/
def attach (overflow : Overflow) (children parents relationBlocks : List Block) :
    List (Block × Block) :=
  children.filterMap fun child =>
    (bestVisualParent overflow child parents relationBlocks).map fun parent => (child, parent)

def attachNumbers (children parents relationBlocks : List Block) : List Int :=
  children.flatMap fun child => (centeredParents child parents relationBlocks).flatMap
    fun parent => centerNumbers child.bbox parent.bbox

/-- The children of a parent that a condition selects, in the order of their indexes. -/
def childrenOf (attached : List (Block × Block)) (parent : Block) (p : Block → Bool) :
    List Block :=
  (((attached.filter fun pair => pair.2.index = parent.index).map Prod.fst).filter p).insertionSort
    fun a b => a.index ≤ b.index

def visualNode (absorbed attached : List (Block × Block)) (parent : Block) : Node :=
  .visual (visualKind parent.kind) parent
    (childrenOf attached parent fun b => b.kind = "caption")
    (childrenOf attached parent fun b => b.kind ≠ "caption")
    parent.subType parent.cellMerge
    ((absorbed.filter fun pair => pair.2.index = parent.index).map fun pair =>
      subImage pair.1 pair.2)

/-- A caption or footnote that is left over becomes text. -/
def leafOf (block : Block) : Block :=
  if block.kind = "caption" ∨ block.kind = "footnote" then
    { block with kind := "text", mergePrev := none }
  else block

/-- The blocks that the list pass consumes, with its lists. -/
def captureLists (blocks : List Block) : List Nat × List Node :=
  let candidates := blocks.filter fun b => b.kind = "text" ∨ b.kind = "ref_text"
  (blocks.filter fun b => b.kind = "list").foldl (captureList candidates) ([], [])

/-- The passes over the blocks: the nodes and the discarded blocks. -/
def composeBlocks (overflow : Overflow) (blocks : List Block) : List Node × List Block :=
  let discarded := blocks.filter fun b => isChrome b.kind
  let (consumed, lists) := captureLists blocks
  let parents := blocks.filter fun b => isVisualBody b.kind
  let absorbed := absorb overflow parents
  let consumed := consumed ++ absorbed.map fun pair => pair.1.index
  let parents := parents.filter fun b => b.index ∉ consumed
  let relationBlocks := blocks.filter fun b => b.index ∉ consumed
  let children := blocks.filter fun b => b.kind = "caption" ∨ b.kind = "footnote"
  let attached := attach overflow children parents relationBlocks
  let consumed := consumed ++ attached.map fun pair => pair.1.index
  let consumed := consumed ++ parents.map Block.index
  let visuals := parents.map (visualNode absorbed attached)
  let leaves := (blocks.filter fun b => b.index ∉ consumed ∧ ¬ isChrome b.kind).map
    fun b => Node.leaf (leafOf b)
  ((lists ++ visuals ++ leaves).insertionSort fun a b => nodeIndex a ≤ nodeIndex b, discarded)

/-- The numbers of the passes over the blocks. -/
def passNumbers (blocks : List Block) : List Int :=
  let parents := blocks.filter fun b => isVisualBody b.kind
  let consumed := (captureLists blocks).1 ++ (absorb .exact parents).map fun pair => pair.1.index
  let children := blocks.filter fun b => b.kind = "caption" ∨ b.kind = "footnote"
  absorbNumbers parents ++ attachNumbers children
    (parents.filter fun b => b.index ∉ consumed) (blocks.filter fun b => b.index ∉ consumed)

/-- The numbers that composing the blocks of a page forms. -/
def composeNumbers (renderBlock : Block → Text) (blocks : List Block) : List Int :=
  fallbackNumbers renderBlock blocks ++ passNumbers (captionFallbacks .exact renderBlock blocks)

/-- `compose_page`. -/
def composePage (overflow : Overflow) (renderBlock : Block → Text) (snapshot : List RawBlock) :
    Checked VlmError (List Node × List Block) := do
  let blocks ← Checked.ofExcept (snapshot.zipIdx.mapM fun (raw, index) => rawBlock raw index)
  if overflow.stops (composeNumbers renderBlock blocks) then .error .panic
  else return composeBlocks overflow (captionFallbacks overflow renderBlock blocks)

end Mineru.Builders
