import Mineru.Builders.Node

/-!
# Paragraphs and reference lists across nodes and pages

`merge_document_paras`: text is merged backwards within each page, then reference lists are merged
forwards, within a page and across pages. What follows for tables is a parameter here, and so is what
a block renders to, which only decides whether two blocks are merged.
-/

set_option autoImplicit false

namespace Mineru.Builders

open Logic
open Logic.Checked (fail)

/-- The text a block renders to, and `char::is_uppercase`. -/
structure Renderer where
  renderBlock : Block → Text
  isUppercase : Char → Bool

/-- The characters after which no paragraph goes on. -/
def sentenceEnds : List Char :=
  ['.', '!', '?', '。', '！', '？', ')', '）', '"', '”', ':', '：', ';', '；']

def canMergeText (r : Renderer) (current previous : Block) : Bool :=
  match current.lines.head?, previous.lines.getLast? with
  | some first, some last =>
    let firstContent := r.renderBlock current
    let lastContent := r.renderBlock previous
    let currentWidth := current.bbox.right - current.bbox.left
    let previousWidth := previous.bbox.right - previous.bbox.left
    !first.spans.isEmpty && !last.spans.isEmpty && !firstContent.isEmpty && !lastContent.isEmpty &&
      !lastContent.getLast?.any sentenceEnds.contains &&
      !firstContent.head?.any (fun c => c.isDigit || r.isUppercase c) &&
      decide (0 < currentWidth) && decide (0 < previousWidth) &&
      decide (|currentWidth - previousWidth| < min currentWidth previousWidth) &&
      decide (current.bbox.top < previous.bbox.bottom)
  | _, _ => false

/-- The text leaf before `index` that the current one continues, past visuals. -/
def previousText (r : Renderer) (nodes : List Node) (current : Block) : Nat → Option Nat
  | 0 => none
  | index + 1 => match nodes[index]? with
    | some (.visual ..) => previousText r nodes current index
    | some (.leaf block) =>
      if block.kind = "text" then
        if canMergeText r current block then some index else none
      else none
    | _ => none

/-- One turn of `merge_para_text`. -/
def mergeTextAt (r : Renderer) (nodes : List Node) (currentIndex : Nat) :
    Checked VlmError (List Node) :=
  match nodes[currentIndex]? with
  | none => .error .panic
  | some (.leaf current) =>
    if current.kind = "text" ∧ current.mergePrev = some true then
      match previousText r nodes current currentIndex with
      | none => .ok nodes
      | some previousIndex => match nodes[previousIndex]? with
        | some (.leaf previous) =>
          .ok ((nodes.set previousIndex
              (.leaf { previous with lines := previous.lines ++ current.lines })).set currentIndex
            (.leaf { current with lines := [] }))
        | _ => .error .panic
    else .ok nodes
  | some _ => .ok nodes

/-- `merge_para_text`, from the last node to the first. -/
def mergeParaText (r : Renderer) (nodes : List Node) : Checked VlmError (List Node) :=
  (List.range nodes.length).reverse.foldlM (mergeTextAt r) nodes

/-- `rposition`. -/
def rposition (p : Node → Bool) : List Node → Option Nat
  | [] => none
  | node :: rest => match rposition p rest with
    | some index => some (index + 1)
    | none => if p node then some 0 else none

def lastSurvivingNode (paras : Paras) : Nat → Option (Nat × Nat)
  | 0 => none
  | page + 1 => match paras[page]?.bind (rposition fun node => !nodeIsEmpty node) with
    | some index => some (page, index)
    | none => lastSurvivingNode paras page

def nodeAt (paras : Paras) (page index : Nat) : Option Node := paras[page]?.bind fun nodes => nodes[index]?

def setNode (paras : Paras) (page index : Nat) (node : Node) : Paras :=
  paras.modify page fun nodes => nodes.set index node

/-- The items go from the current list to the previous one. -/
def moveItems (paras : Paras) (page index previousPage previousIndex : Nat) :
    Checked VlmError Paras :=
  match nodeAt paras page index, nodeAt paras previousPage previousIndex with
  | some (.list marker items), some (.list previousMarker previousItems) => do
    let moved := if previousPage = page then items
      else items.map fun item => { item with crossPage := true }
    let deleted ← tombstone (.list marker [])
    return setNode (setNode paras previousPage previousIndex
      (.list previousMarker (previousItems ++ moved))) page index deleted
  | _, _ => .error .panic

/-- One turn of the loop over the nodes of a page. -/
def mergeListAt (page : Nat) (paras : Paras) (index : Nat) : Checked VlmError Paras :=
  match nodeAt paras page index with
  | none => .error .panic
  | some node =>
    if !isRefList node then .ok paras
    else
      let previous := if index > 0 then some (page, index - 1) else lastSurvivingNode paras page
      match previous with
      | none => .ok paras
      | some (previousPage, previousIndex) => match nodeAt paras previousPage previousIndex with
        | none => .error .panic
        | some node =>
          if !isRefList node then .ok paras
          else moveItems paras page index previousPage previousIndex

def pageLength (paras : Paras) (page : Nat) : Nat := (paras[page]?.map List.length).getD 0

/-- `check_builder_deadline`, where `expired` tells for each check whether the deadline is over. -/
def checkDeadline (expired : Nat → Bool) (check : Nat) : Checked VlmError Unit :=
  if expired check then fail (.timeout "official PDF") else .ok ()

/-- The first loop of `merge_document_paras`. -/
def mergeTexts (r : Renderer) (expired : Nat → Bool) (paras : Paras) (page : Nat) :
    Checked VlmError Paras := do
  checkDeadline expired page
  match paras[page]? with
  | none => .error .panic
  | some nodes =>
    let nodes ← mergeParaText r nodes
    return paras.set page nodes

/-- The second loop of `merge_document_paras`. -/
def mergeLists (expired : Nat → Bool) (paras : Paras) (page : Nat) : Checked VlmError Paras := do
  checkDeadline expired (paras.length + page)
  (List.range (pageLength paras page)).foldlM (mergeListAt page) paras

def mergeDocumentParas (r : Renderer) (expired : Nat → Bool)
    (mergeTables : Paras → Checked VlmError Paras) (tableEnable : Bool) (paras : Paras) :
    Checked VlmError Paras := do
  let paras ← (List.range paras.length).foldlM (mergeTexts r expired) paras
  let paras ← (List.range paras.length).foldlM (mergeLists expired) paras
  if !tableEnable then return paras
  mergeTables paras

end Mineru.Builders
