import Mineru.Vlm.Block

/-!
# The candidates of a page

`semantic_candidates_truncated` of `vlm_client.rs`: captions inside an image are dropped, the images
inside a table are marked as absorbed by it, and the blocks to ask the model about are collected up to
a cap.
-/

set_option autoImplicit false

namespace Mineru.Vlm

open Layout (VlmLayoutBlock)

/-- `COVERED_IMAGE_CAPTION`. -/
def coveredImageCaption : String := "_covered_image_caption"

structure SemanticCandidate where
  originalIndex : Nat
  block : ContentBlock
  absorbed : List ContentBlock

/-- A block with its index on the page. -/
abbrev Indexed := Nat × ContentBlock

/-- The closure `suppressed`. -/
def suppressed (prompts : List String) (kind : String) : Bool :=
  prompts.contains kind && isKnownKind kind

/-- `blocks.iter().cloned().map(from_vlm).enumerate()`. -/
def natives (blocks : List VlmLayoutBlock) : List Indexed :=
  blocks.zipIdx.map fun e => (e.2, fromVlm e.1)

/-- A caption that lies in an image, a chart or an image block. -/
def isCoveredCaption (native : List Indexed) (caption : ContentBlock) : Bool :=
  caption.kind = "image_caption" && native.any fun other =>
    ["image", "chart", "image_block"].contains other.2.kind &&
      coveredBy caption.bbox other.2.bbox

def markCaptions (blocks : List VlmLayoutBlock) (captions : List Nat) : List VlmLayoutBlock :=
  captions.foldl (fun blocks index => blocks.modify index fun b =>
    { b with metadata := Metadata.insert b.metadata coveredImageCaption (.bool true) }) blocks

/-- The locals of the loop over the tables. -/
structure Absorption where
  native : List Indexed
  tableImages : List (Nat × List Nat)

/-- The two marks of an absorbed image. -/
def markAbsorbed (table : Nat) (block : ContentBlock) : ContentBlock :=
  let absorbed := Metadata.insert block.metadata "_absorbed_by_table" (.number (.unsigned table))
  { block with metadata := Metadata.insert absorbed "_skip_asset" (.bool true) }

/-- The images that a table covers. -/
def absorbedIds (native : List Indexed) (table : ContentBlock) : List Nat :=
  (List.range native.length).filter fun image => native[image]?.any fun e =>
    e.2.kind = "image" && coveredBy e.2.bbox table.bbox

/-- One turn of the loop over the tables. -/
def absorbAt (prompts : List String) (s : Absorption) (table : Nat) : Absorption :=
  match s.native[table]? with
  | none => s
  | some t =>
    if t.2.kind ≠ "table" ∨ suppressed prompts "table" then s
    else
      let ids := absorbedIds s.native t.2
      { native := ids.foldl (fun native image =>
          native.modify image fun e => (e.1, markAbsorbed table e.2)) s.native
        tableImages := s.tableImages ++ [(table, ids)] }

def absorb (prompts : List String) (native : List Indexed) : Absorption :=
  (List.range native.length).foldl (absorbAt prompts) ⟨native, []⟩

/-- The conditions under which the loop over the candidates goes on to the next block. -/
def isSkipped (prompts : List String) (analyze : Bool) (native : List Indexed)
    (block : ContentBlock) : Bool :=
  let image := block.kind = "image" || block.kind = "chart"
  (match Value.find block.metadata (text "_skip_asset") with
    | some (.bool b) => b
    | _ => false) ||
    ["list", "image_block", "equation_block"].contains block.kind ||
    suppressed prompts block.kind || (image && !analyze) ||
    (image && ((native.any fun other => other.2.kind = "image_block" &&
        coveredBy block.bbox other.2.bbox) ||
      !((block.bbox.right - block.bbox.left > 1 / 10 && block.bbox.bottom - block.bbox.top > 1 / 10) ||
        area block.bbox > 1 / 100)))

/-- The candidate of the block at a position of `native`. -/
def candidateAt (s : Absorption) (index : Nat) (entry : Indexed) : SemanticCandidate where
  originalIndex := entry.1
  block := entry.2
  absorbed :=
    if entry.2.kind = "table" then
      ((s.tableImages.find? fun t => t.1 = index).map fun t =>
        t.2.filterMap fun i => s.native[i]?.map Prod.snd).getD []
    else []

/-- The loop over the candidates, which the cap ends. -/
def collect (prompts : List String) (analyze : Bool) (s : Absorption) (cap : Nat) :
    List (Indexed × Nat) → List SemanticCandidate → List SemanticCandidate × Bool
  | [], found => (found, false)
  | (entry, index) :: rest, found =>
    if isSkipped prompts analyze s.native entry.2 then collect prompts analyze s cap rest found
    else if found.length ≥ cap then (found, true)
    else collect prompts analyze s cap rest (found ++ [candidateAt s index entry])

/-- The state behind the loop over the tables. -/
def absorption (prompts : List String) (blocks : List VlmLayoutBlock) : Absorption :=
  let native := natives blocks
  absorb prompts (native.filter fun e => !isCoveredCaption native e.2)

/-- `semantic_candidates_truncated`, with the blocks that it has marked; `analyze` is
`image_analysis`, or what the configuration says. -/
def semanticCandidatesTruncated (prompts : List String) (analyze : Bool) (cap : Nat)
    (blocks : List VlmLayoutBlock) : List VlmLayoutBlock × List SemanticCandidate × Bool :=
  let native := natives blocks
  let covered := (native.filter fun e => isCoveredCaption native e.2).map Prod.fst
  let s := absorption prompts blocks
  let blocks := s.native.foldl (fun blocks e => blocks.set e.1 (toVlm e.2))
    (markCaptions blocks covered)
  (blocks, collect prompts analyze s cap s.native.zipIdx [])

end Mineru.Vlm
