import Mineru.Builders.Prepare
import Mineru.Laws.Builders.Compose

/-!
# A prepared page

Each node of a prepared page stands on a block of the snapshot: it has the box of the block, which
lies within the page and is not empty, and a kind from a fixed list. `Rooted` ties a node to the
block, and distinct nodes have distinct blocks, so that there are no more nodes than blocks.

These are the facts that a reader of the written document relies on (`Node.Placed`). The fallbacks
and the passes of `compose_page` keep them, because they change the kind of a block within the list
and leave its box alone.

Only pages that are prepared are described. When a page is refused, and with which error, is the
matter of the laws about layouts.
-/

set_option autoImplicit false

namespace Mineru.Builders

open Logic

/-! ## Boxes of points -/

structure PageSize.Valid (size : PageSize) : Prop where
  width : 0 < size.width
  widthMax : size.width ≤ f32Max
  height : 0 < size.height
  heightMax : size.height ≤ f32Max

/-- A box of points within a page, and not empty. -/
structure Bbox.Inside (size : PageSize) (bbox : Bbox) : Prop where
  left : 0 ≤ bbox.left
  across : bbox.left < bbox.right
  right : (bbox.right : Rat) ≤ size.width
  top : 0 ≤ bbox.top
  down : bbox.top < bbox.bottom
  bottom : (bbox.bottom : Rat) ≤ size.height

theorem pointCoordinate_within {coordinate dimension : Rat} {point : Int}
    (unit : inUnit coordinate = true) (positive : 0 < dimension)
    (is : pointCoordinate coordinate dimension = .ok point) :
    0 ≤ point ∧ (point : Rat) ≤ dimension := by
  unfold inUnit at unit
  rw [Bool.and_eq_true, decide_eq_true_eq, decide_eq_true_eq] at unit
  have low : 0 ≤ coordinate * dimension := mul_nonneg unit.1 positive.le
  have high : coordinate * dimension ≤ dimension := mul_le_of_le_one_left positive.le unit.2
  unfold pointCoordinate trunc at is
  rw [if_pos low] at is
  dsimp only at is
  split at is
  · cases is
  · cases is
    have floor : 0 ≤ ⌊coordinate * dimension⌋ := Int.floor_nonneg.mpr low
    refine ⟨le_min floor (by norm_num), ?_⟩
    have below : min ⌊coordinate * dimension⌋ (2 ^ 31 - 1) ≤ ⌊coordinate * dimension⌋ :=
      min_le_left _ _
    calc ((min ⌊coordinate * dimension⌋ (2 ^ 31 - 1) : Int) : Rat)
        ≤ ⌊coordinate * dimension⌋ := by exact_mod_cast below
      _ ≤ coordinate * dimension := Int.floor_le _
      _ ≤ dimension := high

theorem pointBbox_inside {bbox : Option NormalizedBbox} {size : PageSize} (valid : size.Valid)
    {point : Bbox} (is : pointBbox bbox size = .ok point) : point.Inside size := by
  unfold pointBbox at is
  split at is
  · cases is
  · next bbox =>
    split at is
    · cases is
    · next unit =>
      obtain ⟨x0, left, is⟩ := bind_ok is
      obtain ⟨y0, top, is⟩ := bind_ok is
      obtain ⟨x1, right, is⟩ := bind_ok is
      obtain ⟨y1, bottom, is⟩ := bind_ok is
      have unit : ([bbox.left, bbox.top, bbox.right, bbox.bottom].all inUnit) = true := by
        simpa using unit
      simp only [List.all_cons, List.all_nil, Bool.and_true, Bool.and_eq_true] at unit
      have hx0 := pointCoordinate_within unit.1 valid.width left
      have hy0 := pointCoordinate_within unit.2.1 valid.height top
      have hx1 := pointCoordinate_within unit.2.2.1 valid.width right
      have hy1 := pointCoordinate_within unit.2.2.2 valid.height bottom
      split at is
      · cases is
      · next apart =>
        cases is
        obtain ⟨across, down⟩ := not_or.mp apart
        refine ⟨le_min hx0.1 hx1.1, min_lt_max.mpr across, ?_, le_min hy0.1 hy1.1,
          min_lt_max.mpr down, ?_⟩
        · show ((max x0 x1 : Int) : Rat) ≤ size.width
          rw [Int.cast_max]
          exact max_le hx0.2 hx1.2
        · show ((max y0 y1 : Int) : Rat) ≤ size.height
          rw [Int.cast_max]
          exact max_le hy0.2 hy1.2

theorem validatePage_valid {page : OfficialBuildPage} {previous : Option Nat}
    (is : validatePage page previous = .ok ()) : page.pageSizePoints.Valid := by
  unfold validatePage at is
  split at is
  · cases is
  · next accepted =>
    simp only [isFinite, List.any_cons, List.any_nil, Bool.or_false, Bool.or_eq_true,
      Bool.not_eq_true', Bool.and_eq_false_iff, decide_eq_true_eq, decide_eq_false_iff_not,
      not_or, not_le] at accepted
    obtain ⟨-, ⟨⟨-, widthMax⟩, width⟩, ⟨-, heightMax⟩, height⟩ := accepted
    exact ⟨width, not_lt.mp widthMax, height, not_lt.mp heightMax⟩

theorem checkPage_valid {expired : Nat → Bool} {maxTextBytes : Nat} {page : OfficialBuildPage}
    (is : checkPage expired maxTextBytes page = .ok ()) : page.pageSizePoints.Valid := by
  unfold checkPage at is
  obtain ⟨⟨⟩, -, is⟩ := bind_ok is
  obtain ⟨⟨⟩, valid, -⟩ := bind_ok is
  exact validatePage_valid valid

/-! ## Kinds -/

/-- The kinds of blocks. -/
def blockKinds : List String :=
  ["text", "title", "ref_text", "phonetic", "header", "footer", "page_number", "aside_text",
    "page_footnote", "list", "caption", "footnote", "table_body", "image_body", "image_block_body",
    "chart_body", "interline_equation", "equation_block", "code_body"]

/-- The kinds of nodes. -/
def nodeKinds : List String := ["table", "chart", "code", "image"] ++ blockKinds

theorem blockKind_mem {blockType kind : String} (is : blockKind blockType = some kind) :
    kind ∈ blockKinds := by
  unfold blockKind at is
  split at is
  · cases is
    decide
  split at is
  · next same =>
    cases is
    have among := List.contains_iff_mem.mp same
    have all : ∀ k ∈ ["title", "ref_text", "phonetic", "header", "footer", "page_number",
      "aside_text", "page_footnote", "list"], k ∈ blockKinds := by decide
    exact all _ among
  all_goals
    repeat' split at is
  all_goals
    cases is
    try decide

theorem visualKind_mem (kind : String) : visualKind kind ∈ nodeKinds := by
  unfold visualKind
  repeat' split
  all_goals decide

/-- A block of a page of a size. -/
structure Block.Placed (size : PageSize) (block : Block) : Prop where
  inside : block.bbox.Inside size
  kind : block.kind ∈ blockKinds

theorem rawBlock_placed {size : PageSize} (valid : size.Valid) {block : ModelBlock} {index : Nat}
    {built : Block} (is : rawBlock (block.placed size) index = .ok built) : built.Placed size := by
  unfold rawBlock at is
  obtain ⟨bbox, point, is⟩ := bind_ok is
  obtain ⟨angle, -, is⟩ := bind_ok is
  obtain ⟨kind, known, is⟩ := bind_ok is
  obtain ⟨lines, -, is⟩ := bind_ok is
  obtain ⟨imagePath, -, is⟩ := bind_ok is
  cases is
  refine ⟨pointBbox_inside valid point, ?_⟩
  unfold rawKind at known
  split at known
  · cases known
  · next found =>
    split at known
    · cases known
    · cases known
      exact blockKind_mem found

theorem rawBlocks_placed {size : PageSize} (valid : size.Valid) {snapshot : List ModelBlock}
    {n : Nat} {blocks : List Block}
    (is : ((snapshot.map (ModelBlock.placed size)).zipIdx n).mapM
      (fun (raw, index) => rawBlock raw index) = .ok blocks) :
    ∀ b ∈ blocks, b.Placed size := by
  induction snapshot generalizing n blocks with
  | nil =>
    cases is
    intro b mem
    cases mem
  | cons block rest ih =>
    rw [List.map_cons, List.zipIdx_cons, List.mapM_cons] at is
    obtain ⟨built, first, is⟩ := bind_ok is
    obtain ⟨blocks', others, is⟩ := bind_ok is
    cases is
    intro b mem
    rcases List.mem_cons.mp mem with rfl | mem
    · exact rawBlock_placed valid first
    · exact ih others b mem

theorem Reclassified.placed {size : PageSize} {a b : Block} (h : Reclassified a b)
    (placed : a.Placed size) : b.Placed size := by
  rcases h with rfl | ⟨-, rfl⟩
  · exact placed
  · exact ⟨placed.inside, show "caption" ∈ blockKinds by decide⟩

theorem Fallbacks.placed {size : PageSize} {before after : List Block}
    (h : Fallbacks before after) (placed : ∀ b ∈ before, b.Placed size) :
    ∀ b ∈ after, b.Placed size := by
  induction h with
  | nil => exact placed
  | cons same _ ih =>
    intro b mem
    rcases List.mem_cons.mp mem with rfl | mem
    · exact same.placed (placed _ List.mem_cons_self)
    · exact ih (fun c inside => placed c (List.mem_cons_of_mem _ inside)) b mem

theorem leafOf_placed {size : PageSize} {block : Block} (placed : block.Placed size) :
    (leafOf block).Placed size := by
  unfold leafOf
  split
  · exact ⟨placed.inside, show "text" ∈ blockKinds by decide⟩
  · exact placed

/-! ## The roots of the nodes -/

/-- `node_bbox`. -/
def nodeBbox : Node → Bbox
  | .leaf block => block.bbox
  | .list marker _ => marker.bbox
  | .visual _ body _ _ _ _ _ => body.bbox
  | .tombstone _ bbox _ _ _ => bbox

/-- The type that a node is written under. -/
def nodeType : Node → String
  | .leaf block => block.kind
  | .list _ _ => "list"
  | .visual kind _ _ _ _ _ _ => kind
  | .tombstone kind _ _ _ _ => kind

/-- The block that a node stands on. -/
inductive Rooted (blocks : List Block) : Node → Prop where
  | leaf {block : Block} : block ∈ blocks → isChrome block.kind = false →
      Rooted blocks (.leaf (leafOf block))
  | list {marker : Block} (subType : Option String) (items : List Block) : marker ∈ blocks →
      isChrome marker.kind = false → Rooted blocks (.list { marker with subType } items)
  | visual {body : Block} (absorbed attached : List (Block × Block)) : body ∈ blocks →
      isChrome body.kind = false → Rooted blocks (visualNode absorbed attached body)

theorem captureLists_nodes (candidates markers : List Block) (s : List Nat × List Node) :
    ∀ node ∈ (markers.foldl (captureList candidates) s).2, node ∈ s.2 ∨
      ∃ marker ∈ markers, ∃ subType items, node = .list { marker with subType } items := by
  induction markers generalizing s with
  | nil =>
    intro node mem
    exact .inl mem
  | cons marker rest ih =>
    intro node mem
    rcases ih _ node mem with old | ⟨other, there, shape⟩
    · unfold captureList at old
      dsimp only at old
      split at old
      · exact .inl old
      · rcases List.mem_append.mp old with old | new
        · exact .inl old
        · exact .inr ⟨marker, List.mem_cons_self, _, _, List.mem_singleton.mp new⟩
    · exact .inr ⟨other, List.mem_cons_of_mem _ there, shape⟩

theorem composeBlocks_rooted (overflow : Overflow) (blocks : List Block) :
    ∀ node ∈ (composeBlocks overflow blocks).1, Rooted blocks node := by
  intro node mem
  unfold composeBlocks captureLists at mem
  dsimp only at mem
  rw [List.mem_insertionSort, List.mem_append, List.mem_append] at mem
  rcases mem with (list | visual) | leaf
  · rcases captureLists_nodes _ _ _ node list with none | ⟨marker, there, subType, items, rfl⟩
    · cases none
    · obtain ⟨inside, kind⟩ := List.mem_filter.mp there
      refine .list subType items inside ?_
      rw [of_decide_eq_true kind]
      decide
  · obtain ⟨body, there, rfl⟩ := List.mem_map.mp visual
    obtain ⟨inside, kind⟩ := List.mem_filter.mp (List.mem_filter.mp there).1
    exact .visual _ _ inside (Taken.visual kind).not_chrome
  · obtain ⟨block, there, rfl⟩ := List.mem_map.mp leaf
    obtain ⟨inside, both⟩ := List.mem_filter.mp there
    exact .leaf inside (by simpa using (of_decide_eq_true both).2)

theorem Rooted.index {blocks : List Block} {node : Node} (h : Rooted blocks node) :
    nodeIndex node ∈ (blocks.filter fun b => !isChrome b.kind).map Block.index := by
  have root : ∀ block ∈ blocks, isChrome block.kind = false →
      block.index ∈ (blocks.filter fun b => !isChrome b.kind).map Block.index := by
    intro block inside kind
    exact List.mem_map_of_mem (List.mem_filter.mpr ⟨inside, by rw [kind]; rfl⟩)
  cases h with
  | @leaf block inside kind =>
    show (leafOf block).index ∈ _
    rw [leafOf_index]
    exact root block inside kind
  | @list marker subType items inside kind => exact root marker inside kind
  | @visual body absorbed attached inside kind => exact root body inside kind

/-- A node of a page of a size. -/
structure Node.Placed (size : PageSize) (node : Node) : Prop where
  inside : (nodeBbox node).Inside size
  kind : nodeType node ∈ nodeKinds

theorem Rooted.placed {size : PageSize} {blocks : List Block} {node : Node}
    (h : Rooted blocks node) (placed : ∀ b ∈ blocks, b.Placed size) : node.Placed size := by
  cases h with
  | leaf inside _ =>
    have leaf := leafOf_placed (placed _ inside)
    exact ⟨leaf.inside, List.mem_append_right _ leaf.kind⟩
  | @list marker subType items inside _ =>
    exact ⟨(placed marker inside).inside, show "list" ∈ nodeKinds by decide⟩
  | @visual body absorbed attached inside _ =>
    exact ⟨(placed body inside).inside, visualKind_mem _⟩

/-! ## The page -/

/-- What is known of a prepared page. -/
structure OfficialPreparedPage.Composed (page : OfficialPreparedPage) : Prop where
  size : page.pageSizePoints.Valid
  preproc : ∀ node ∈ page.preproc, node.Placed page.pageSizePoints
  discarded : ∀ block ∈ page.discarded, block.Placed page.pageSizePoints
  count : page.preproc.length + page.discarded.length ≤ page.snapshot.length

/-- There are no more nodes and discarded blocks than blocks. -/
theorem composeBlocks_count (overflow : Overflow) {blocks : List Block}
    (distinct : (blocks.map Block.index).Nodup) :
    (composeBlocks overflow blocks).1.length + (composeBlocks overflow blocks).2.length ≤
      blocks.length := by
  obtain ⟨absorbed, conserves⟩ := composeBlocks_conserves overflow distinct
  have nodup : ((composeBlocks overflow blocks).1.map nodeIndex).Nodup :=
    List.pairwise_map.mpr (conserves.order.imp fun lt => Nat.ne_of_lt lt)
  have roots : (composeBlocks overflow blocks).1.map nodeIndex ⊆
      (blocks.filter fun b => !isChrome b.kind).map Block.index := by
    intro index mem
    obtain ⟨node, there, rfl⟩ := List.mem_map.mp mem
    exact (composeBlocks_rooted overflow blocks node there).index
  have nodes := (nodup.subperm roots).length_le
  rw [List.length_map, List.length_map] at nodes
  have parts := (List.filter_append_perm (fun b : Block => isChrome b.kind) blocks).length_eq
  rw [List.length_append] at parts
  rw [conserves.chrome]
  omega

theorem prepareOfficialPage_composed {overflow : Overflow} {renderBlock : Block → Text}
    {expired : Nat → Bool} {maxTextBytes : Nat} {page : OfficialBuildPage}
    {prepared : OfficialPreparedPage}
    (is : prepareOfficialPage overflow renderBlock expired maxTextBytes page = .ok prepared) :
    prepared.Composed := by
  unfold prepareOfficialPage at is
  obtain ⟨⟨⟩, checked, is⟩ := bind_ok is
  obtain ⟨⟨nodes, discarded⟩, composed, is⟩ := bind_ok is
  obtain ⟨⟨⟩, -, is⟩ := bind_ok is
  cases is
  have size := checkPage_valid (Checked.ofExcept_ok.mp checked)
  obtain ⟨raw, made, same⟩ := composePage_ok composed
  have fallbacks := captionFallbacks_fallbacks overflow renderBlock raw
  have placed := fallbacks.placed (rawBlocks_placed size made)
  have indexes := rawBlocks_index made
  have distinct : ((captionFallbacks overflow renderBlock raw).map Block.index).Nodup := by
    rw [fallbacks.indexes, indexes]
    exact List.nodup_range'
  have rooted := composeBlocks_rooted overflow (captionFallbacks overflow renderBlock raw)
  have count := composeBlocks_count overflow distinct
  obtain ⟨absorbed, conserves⟩ := composeBlocks_conserves overflow distinct
  rw [← same] at rooted count conserves
  have length : (captionFallbacks overflow renderBlock raw).length = page.snapshot.length := by
    have lengths := congrArg List.length (fallbacks.indexes.trans indexes)
    rw [List.length_map, List.length_range', List.length_map] at lengths
    exact lengths
  refine ⟨size, fun node mem => (rooted node mem).placed placed, ?_, count.trans length.le⟩
  intro block mem
  rw [show discarded = _ from conserves.chrome] at mem
  exact placed block (List.mem_filter.mp mem).1

end Mineru.Builders
