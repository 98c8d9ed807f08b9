import Mineru.Vlm.Candidates
import Mineru.Vlm.Clean
import Mineru.Vlm.Containers

/-!
# Post-processing a page

`post_process` of `vlm_postprocess.rs` cleans the blocks of a page and resolves its containers.
`MinerUVlmPreprocessor::post_process` of `vlm_client.rs` calls it with the metadata of the caller in an
envelope and with the lists taken out, and puts both back.
-/

set_option autoImplicit false

namespace Mineru.Vlm

open Logic
open Layout (VlmLayoutBlock)

def ContentBlock.setMetadata (block : ContentBlock) (m : Metadata) : ContentBlock :=
  { block with metadata := m }

/-- `if let Some(content) = block.content.clone() { clean_block(block, content) }`. -/
def clean (w : WordChars) (block : ContentBlock) : ContentBlock :=
  match block.content with
  | some content => cleanBlock w block content
  | none => block

/-- `post_process` of `vlm_postprocess.rs`. -/
def postProcess (w : WordChars) (blocks : List ContentBlock) : List ContentBlock :=
  (retained (resolveContainers (blocks.map (clean w)))).map fun block =>
    block.setMetadata (block.metadata.retainKeys fun key => key.head? ≠ some '_')

structure VlmConfig where
  simplePostProcess : Bool
  handleEquationBlock : Bool
  abandonList : Bool
  abandonParatext : Bool
  enableTableFormulaEqWrap : Bool

/-- `POST_PROCESS_ORDER`. -/
def postProcessOrder : String := "mineru_post_process_order"

def externalMetadata : String := "mineru_external_metadata"

def internalKeys : List String :=
  ["_table_image_token_map", "_absorbed_by_table", "_skip_asset", coveredImageCaption]

def isInternal (key : Text) : Bool := (internalKeys.map text).contains key

def isParatext (kind : String) : Bool :=
  ["header", "footer", "page_number", "aside_text", "page_footnote", "unknown"].contains kind

/-- The metadata of the caller in an envelope, beside the internal keys. -/
def envelop (m : Metadata) : Metadata :=
  let external := m.retainKeys fun key => !isInternal key
  let internal := m.retainKeys isInternal
  if external.isEmpty then internal else internal.insert externalMetadata (.object external)

def isImageLike (kind : String) : Bool := ["table", "image", "chart"].contains kind

/-- The blocks after the first three loops. -/
def prepared (w : WordChars) (blocks : List VlmLayoutBlock) : List ContentBlock :=
  let native := (blocks.map fromVlm).map fun block => block.setMetadata (envelop block.metadata)
  let native := native.map fun block => if isImageLike block.kind then clean w block else block
  native.filter fun block => !block.metadata.containsKey coveredImageCaption

/-- The lists of a page with their indexes, and the other blocks with theirs in the metadata. -/
def takeLists (native : List ContentBlock) : List (Nat × ContentBlock) × List ContentBlock :=
  let indexed := native.zipIdx.map Prod.swap
  ((indexed.filter fun e => e.2.kind = "list"),
    (indexed.filter fun e => e.2.kind ≠ "list").map fun (index, block) =>
      block.setMetadata (block.metadata.insert postProcessOrder (.number (.unsigned index))))

def renameKind (kind kind' : String) (block : ContentBlock) : ContentBlock :=
  if block.kind = kind then { block with kind := kind' } else block

/-- A block with its index on the page, which is taken out of the metadata. -/
def ordered (block : ContentBlock) : Checked VlmError (Nat × ContentBlock) :=
  match Value.find block.metadata (text postProcessOrder) with
  | some (.number (.unsigned index)) =>
    .ok (index, block.setMetadata (block.metadata.remove postProcessOrder))
  | _ => .error .panic

/-- The lists are put back where they were. -/
def putBack (lists : List (Nat × ContentBlock)) (native : List ContentBlock) :
    Checked VlmError (List ContentBlock) :=
  if lists.isEmpty then .ok native
  else (native.mapM ordered).map fun blocks =>
    ((blocks ++ lists).insertionSort fun a b => a.1 ≤ b.1).map Prod.snd

/-- The branch without `simple_post_process`. -/
def fullPostProcess (w : WordChars) (config : VlmConfig) (native : List ContentBlock) :
    Checked VlmError (List ContentBlock) :=
  let (lists, native) := if config.abandonList then ([], native) else takeLists native
  let native :=
    if config.handleEquationBlock then native
    else native.map (renameKind "equation_block" "_mineru_equation_block")
  let native := (postProcess w native).map (renameKind "_mineru_equation_block" "equation_block")
  putBack lists native

/-- The condition of the last `retain`. -/
def isReturned (config : VlmConfig) (block : ContentBlock) : Bool :=
  !block.metadata.containsKey coveredImageCaption &&
    !block.metadata.containsKey "_absorbed_by_table" &&
    (config.simplePostProcess || !(config.abandonList && block.kind = "list" ||
      config.abandonParatext && isParatext block.kind)) &&
    (config.simplePostProcess || block.kind ≠ "equation_block")

/-- The metadata of the caller, out of its envelope. -/
def unwrap (m : Metadata) : Metadata :=
  let m := match Value.find m (text externalMetadata) with
    | some (.object external) => (m.remove externalMetadata).extend external
    | _ => m.remove externalMetadata
  internalKeys.foldl (fun m key => m.remove key) m

def unwrapEquations (config : VlmConfig) (block : ContentBlock) : ContentBlock :=
  if !config.enableTableFormulaEqWrap && block.kind = "table" then
    { block with content := block.content.map fun content =>
        replaceText (text "</eq>") (text "\\)") (replaceText (text "<eq>") (text "\\(") content) }
  else block

/-- `MinerUVlmPreprocessor::post_process`, before `to_vlm`. -/
def processed (w : WordChars) (config : VlmConfig) (blocks : List VlmLayoutBlock) :
    Checked VlmError (List ContentBlock) := do
  let native := prepared w blocks
  let native ← if config.simplePostProcess then .ok native else fullPostProcess w config native
  let native := native.filter (isReturned config)
  let native := if config.simplePostProcess then native.map (clean w) else native
  return native.map fun block => unwrapEquations config (block.setMetadata (unwrap block.metadata))

/-- `MinerUVlmPreprocessor::post_process`. -/
def VlmConfig.postProcess (w : WordChars) (config : VlmConfig) (blocks : List VlmLayoutBlock) :
    Checked VlmError (List VlmLayoutBlock) :=
  (processed w config blocks).map fun native => native.map toVlm

end Mineru.Vlm
