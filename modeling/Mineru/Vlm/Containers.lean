import Mineru.Vlm.Block

/-!
# Containers

`resolve_containers` of `vlm_postprocess.rs` goes over the blocks of a page: a container of one formula
is marked for removal, one of several formulas takes their contents over, and images and lists with
something inside are marked too. Later containers see what earlier ones have become.
-/

set_option autoImplicit false

namespace Mineru.Vlm

open Builders (NormalizedBbox)

/-- `covers`, which asks for more than nine tenths. -/
def covers (parent child : NormalizedBbox) : Bool :=
  let overlap := max (min parent.right child.right - max parent.left child.left) 0 *
    max (min parent.bottom child.bottom - max parent.top child.top) 0
  area child > 0 && overlap / area child > 9 / 10

/-- `content.as_deref().is_some_and(|content| !content.trim().is_empty())`. -/
def ContentBlock.hasContent (block : ContentBlock) : Bool :=
  block.content.any fun content => !(trim content).isEmpty

/-- The blocks, and for each of them whether it is to be removed. -/
structure Resolution where
  blocks : List ContentBlock
  remove : List Bool

/-- The other blocks with a property that a block covers. -/
def coveredIndexes (blocks : List ContentBlock) (index : Nat) (block : ContentBlock)
    (p : ContentBlock → Bool) : List Nat :=
  (List.range blocks.length).filter fun child =>
    child ≠ index && (blocks[child]?).any fun b => p b && covers block.bbox b.bbox

def isFilledEquation (block : ContentBlock) : Bool := block.kind = "equation" && block.hasContent

/-- The contents of several formulas as the lines of one. -/
def arrayContent (contents : List Text) : Text :=
  text "\\begin\x7barray\x7d\x7bl\x7d " ++ List.intercalate (text " \\\\ ") contents ++
    text " \\end\x7barray\x7d"

def resolveEquationBlock (s : Resolution) (index : Nat) (block : ContentBlock) : Resolution :=
  let children := coveredIndexes s.blocks index block isFilledEquation
  match children with
  | [] => s
  | [_] => { s with remove := s.remove.set index true }
  | _ =>
    let contents := children.filterMap fun child => (s.blocks[child]?).bind ContentBlock.content
    { blocks := s.blocks.set index
        { block with kind := "equation", content := some (arrayContent contents) }
      remove := children.foldl (fun remove child => remove.set child true) s.remove }

def resolveImageBlock (s : Resolution) (index : Nat) (block : ContentBlock) : Resolution :=
  let children := coveredIndexes s.blocks index block fun b =>
    ["image", "chart", "table", "equation"].contains b.kind &&
      (b.hasContent || b.metadata.containsKey "asset_path")
  if !children.isEmpty then { s with remove := s.remove.set index true }
  else if block.content.isNone then
    { s with blocks := s.blocks.set index { block with kind := "image" } }
  else s

def resolveList (s : Resolution) (index : Nat) (block : ContentBlock) : Resolution :=
  let children := coveredIndexes s.blocks index block fun b => b.kind = "text" && b.hasContent
  if !children.isEmpty then { s with remove := s.remove.set index true } else s

/-- One turn of the loop. -/
def resolveAt (s : Resolution) (index : Nat) : Resolution :=
  match s.blocks[index]? with
  | none => s
  | some block =>
    if block.kind = "equation_block" then resolveEquationBlock s index block
    else if block.kind = "image_block" then resolveImageBlock s index block
    else if block.kind = "list" then resolveList s index block
    else s

def resolveContainers (blocks : List ContentBlock) : Resolution :=
  (List.range blocks.length).foldl resolveAt ⟨blocks, List.replicate blocks.length false⟩

/-- The condition of `retain` in `post_process`. -/
def survives (block : ContentBlock) (remove : Bool) : Bool :=
  !(remove || block.metadata.containsKey "_absorbed_by_table" || block.kind = "paratext" ||
    block.kind = "list" && block.content.isNone)

/-- `retain`, which reads the marks in the order of the blocks. -/
def retained (s : Resolution) : List ContentBlock :=
  ((s.blocks.zip s.remove).filter fun x => survives x.1 x.2).map Prod.fst

end Mineru.Vlm
