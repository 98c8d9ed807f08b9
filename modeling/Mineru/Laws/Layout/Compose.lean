import Mineru.Laws.Builders.Assets
import Mineru.Laws.Builders.Overflow
import Mineru.Laws.Layout.Stream
import Mineru.Layout.Snapshot

/-!
# Which layouts compose

An accepted block has a known kind and a box within the unit square that is not empty, and a marker has
no content; within the caps its pictures and its crop are stored. What is left is the truncation to
points: `FillsPoints` says that it leaves a box, and a page composes if and only if it does so for
every block. Otherwise the page is refused with the error of the empty box.

A build that checks its integers needs a page on which they fit as well. Beyond that page a layout may
panic; `prepareLayout_fails` has one for the product of two sides and one for three times a side.
-/

set_option autoImplicit false

namespace Mineru.Layout

open Builders Logic

/-! ## Accepted blocks -/

/-- What the parser accepts. -/
structure Accepted (block : VlmLayoutBlock) : Prop where
  kind : block.blockType ∈ layoutKinds
  left : inUnit block.bbox.left = true
  top : inUnit block.bbox.top = true
  right : inUnit block.bbox.right = true
  bottom : inUnit block.bbox.bottom = true
  across : block.bbox.left < block.bbox.right
  down : block.bbox.top < block.bbox.bottom
  silent : silentKinds.contains block.blockType = true → block.content = none

theorem normalizedBbox_ok {left top right bottom : Rat} {bbox : NormalizedBbox}
    (is : normalizedBbox left top right bottom = .ok bbox) :
    bbox = ⟨left, top, right, bottom⟩ ∧ inUnit left = true ∧ inUnit top = true ∧
      inUnit right = true ∧ inUnit bottom = true ∧ left < right ∧ top < bottom := by
  unfold normalizedBbox at is
  split at is
  · cases is
  · next accepted =>
    cases is
    simp only [List.any_cons, List.any_nil, Bool.or_false, Bool.or_eq_true, Bool.not_eq_true',
      ge_iff_le, not_or, Bool.not_eq_false, not_le] at accepted
    obtain ⟨⟨left', top', right', bottom'⟩, across, down⟩ := accepted
    exact ⟨rfl, left', top', right', bottom', across, down⟩

/-- What the parser accepts has a known kind, a box in the unit square and no content for a
marker. -/
theorem readToken_accepted {token : Token} {block : VlmLayoutBlock}
    (is : readToken token = some block) : Accepted block := by
  unfold readToken at is
  dsimp only at is
  split at is
  · cases is
  · next bbox read =>
    split at is
    · next known =>
      cases is
      obtain ⟨rfl, left, top, right, bottom, across, down⟩ := normalizedBbox_ok read
      exact ⟨List.contains_iff_mem.mp known, left, top, right, bottom, across, down, fun _ => rfl⟩
    · cases is

/-- The loop keeps accepted blocks only, and stops at its cap. -/
theorem parseBlocks_accepted (maxBlocks : Nat) {blocks : List VlmLayoutBlock}
    (before : ∀ b ∈ blocks, Accepted b) (tokens : List Token) :
    ∀ b ∈ (parseBlocks maxBlocks blocks tokens).1, Accepted b := by
  induction tokens generalizing blocks with
  | nil => exact before
  | cons token rest ih =>
    unfold parseBlocks
    split
    · exact ih before
    · next block read =>
      split
      · exact before
      · apply ih
        intro b mem
        rcases List.mem_append.mp mem with old | new
        · exact before b old
        · rw [List.mem_singleton.mp new]
          exact readToken_accepted read

theorem parseLayoutOutput_accepted {tools : Tools} {output : Text} {maxLayoutBlocks : Nat}
    {layout : List VlmLayoutBlock}
    (is : parseLayoutOutput tools output maxLayoutBlocks = .ok layout) :
    ∀ b ∈ layout, Accepted b := by
  unfold parseLayoutOutput at is
  dsimp only at is
  split at is
  · cases is
  · split at is
    · cases is
    · cases is
      intro b mem
      exact parseBlocks_accepted maxLayoutBlocks (fun _ none => absurd none List.not_mem_nil) _ b
        (List.mem_filter.mp mem).1

theorem answered_accepted {layout : List VlmLayoutBlock} (accepted : ∀ b ∈ layout, Accepted b)
    (replies : Nat → Option Text) : ∀ b ∈ answered replies layout, Accepted b := by
  intro b mem
  obtain ⟨⟨block, index⟩, there, rfl⟩ := List.mem_map.mp mem
  have here := accepted block (List.fst_mem_of_mem_zipIdx there)
  dsimp only
  split
  · exact here
  · next candidate =>
    exact ⟨here.kind, here.left, here.top, here.right, here.bottom, here.across, here.down,
      fun silent => absurd silent candidate⟩

/-! ## Points -/

/-- The truncated box is not empty. -/
structure FillsPoints (size : PageSize) (bbox : NormalizedBbox) : Prop where
  across : ⌊bbox.left * size.width⌋ < ⌊bbox.right * size.width⌋
  down : ⌊bbox.top * size.height⌋ < ⌊bbox.bottom * size.height⌋

/-- The sides of a page whose points are 32-bit integers. -/
structure PointSize (size : PageSize) : Prop where
  width : 0 < size.width
  widthMax : size.width < 2 ^ 31
  height : 0 < size.height
  heightMax : size.height < 2 ^ 31

/-- On a page below `2 ^ 31` points a coordinate is truncated and nothing more. -/
theorem pointCoordinate_eq {coordinate dimension : Rat} (unit : inUnit coordinate = true)
    (positive : 0 < dimension) (small : dimension < 2 ^ 31) :
    pointCoordinate coordinate dimension = .ok ⌊coordinate * dimension⌋ := by
  unfold inUnit at unit
  rw [Bool.and_eq_true, decide_eq_true_eq, decide_eq_true_eq] at unit
  have low : 0 ≤ coordinate * dimension := mul_nonneg unit.1 positive.le
  have high : coordinate * dimension ≤ dimension := mul_le_of_le_one_left positive.le unit.2
  have floor : 0 ≤ ⌊coordinate * dimension⌋ := Int.floor_nonneg.mpr low
  have below : ⌊coordinate * dimension⌋ < 2 ^ 31 := by
    rw [Int.floor_lt]
    exact_mod_cast high.trans_lt small
  unfold pointCoordinate trunc
  rw [if_pos low]
  dsimp only
  rw [if_neg (by omega), min_eq_left (by omega)]

/-- The point box of an accepted block is there if the truncation leaves a box, and else it is
refused as empty. -/
theorem pointBbox_cases {size : PageSize} (points : PointSize size) {block : VlmLayoutBlock}
    (accepted : Accepted block) :
    (FillsPoints size block.bbox ∧ ∃ point, pointBbox (some block.bbox) size = .ok point) ∨
      (¬ FillsPoints size block.bbox ∧
        pointBbox (some block.bbox) size = .error (builderError "empty snapshot geometry")) := by
  have acrossLe : ⌊block.bbox.left * size.width⌋ ≤ ⌊block.bbox.right * size.width⌋ :=
    Int.floor_le_floor (mul_le_mul_of_nonneg_right accepted.across.le points.width.le)
  have downLe : ⌊block.bbox.top * size.height⌋ ≤ ⌊block.bbox.bottom * size.height⌋ :=
    Int.floor_le_floor (mul_le_mul_of_nonneg_right accepted.down.le points.height.le)
  have unit : ([block.bbox.left, block.bbox.top, block.bbox.right, block.bbox.bottom].all
      inUnit) = true := by
    simp only [List.all_cons, List.all_nil, accepted.left, accepted.top, accepted.right,
      accepted.bottom, Bool.and_self]
  unfold pointBbox
  dsimp only
  rw [unit]
  simp only [Bool.not_true, Bool.false_eq_true, if_false,
    pointCoordinate_eq accepted.left points.width points.widthMax,
    pointCoordinate_eq accepted.top points.height points.heightMax,
    pointCoordinate_eq accepted.right points.width points.widthMax,
    pointCoordinate_eq accepted.bottom points.height points.heightMax]
  show (_ ∧ ∃ point, (if ⌊block.bbox.left * size.width⌋ = ⌊block.bbox.right * size.width⌋ ∨
    ⌊block.bbox.top * size.height⌋ = ⌊block.bbox.bottom * size.height⌋ then
      (.error _ : Except VlmError Bbox) else .ok _) = .ok point) ∨
    (_ ∧ (if ⌊block.bbox.left * size.width⌋ = ⌊block.bbox.right * size.width⌋ ∨
      ⌊block.bbox.top * size.height⌋ = ⌊block.bbox.bottom * size.height⌋ then
        (.error _ : Except VlmError Bbox) else .ok _) = _)
  split
  · next empty =>
    refine .inr ⟨fun fills => ?_, rfl⟩
    rcases empty with same | same
    · exact absurd same fills.across.ne
    · exact absurd same fills.down.ne
  · next apart =>
    obtain ⟨across, down⟩ := not_or.mp apart
    exact .inl ⟨⟨lt_of_le_of_ne acrossLe across, lt_of_le_of_ne downLe down⟩, _, rfl⟩

/-! ## What a page stores -/

namespace PageTools

variable (tools : PageTools)

/-- The seeds of the names under which a block stores its assets. -/
def blockSeeds (block : SnapshotBlock) : List Text :=
  (if block.blockType = "table" then Media.pictureUris (block.content.getD []) else []) ++
    match cropKind block.blockType, pointBbox block.bbox tools.raster.size with
    | some (tag, _), .ok point => [tools.media.cropSeed tools.raster tools.slicePageIdx tag point]
    | _, _ => []

/-- The seeds of a page, with the one that metafiles share. -/
def seeds (snapshot : List SnapshotBlock) : List Text :=
  tools.media.placeholderSeed :: snapshot.flatMap tools.blockSeeds

/-- The bytes that the crop of a block is counted with. -/
def blockCropBytes (block : SnapshotBlock) : Nat :=
  match cropKind block.blockType, pointBbox block.bbox tools.raster.size with
  | some _, .ok point => (Media.cropRect tools.raster point).elim 0 tools.media.cropBytes
  | _, _ => 0

/-- The bytes that the assets of a block are counted with. -/
def blockBytes (block : SnapshotBlock) : Nat :=
  (if block.blockType = "table" then
    ((Media.pictureUris (block.content.getD [])).map tools.media.uriBytes).sum else 0) +
  tools.blockCropBytes block

variable {tools}

/-- A crop is not named like the pictures of a table. -/
theorem cropSeed_other {blockType tag : String} {kind : AssetKind}
    (cropped : cropKind blockType = some (tag, kind)) (point : Bbox) :
    ¬ text "data:image/" <+: tools.media.cropSeed tools.raster tools.slicePageIdx tag point := by
  have tags : tag ∈ ["table", "image", "chart", "interline_equation"] := by
    unfold cropKind at cropped
    split at cropped
    · rw [← (Prod.mk.inj (Option.some.inj cropped)).1]
      decide
    · split at cropped
      · rw [← (Prod.mk.inj (Option.some.inj cropped)).1]
        decide
      · split at cropped
        · rw [← (Prod.mk.inj (Option.some.inj cropped)).1]
          decide
        · split at cropped
          · rw [← (Prod.mk.inj (Option.some.inj cropped)).1]
            decide
          · cases cropped
  have apart : ∀ tag ∈ ["table", "image", "chart", "interline_equation"],
      ∃ c t, text tag = c :: t ∧ c ≠ 'd' := by
    intro tag mem
    simp only [List.mem_cons, List.not_mem_nil, or_false] at mem
    rcases mem with rfl | rfl | rfl | rfl
    · exact ⟨'t', _, rfl, by decide⟩
    · exact ⟨'i', _, rfl, by decide⟩
    · exact ⟨'c', _, rfl, by decide⟩
    · exact ⟨'i', _, rfl, by decide⟩
  obtain ⟨c, t, is, differ⟩ := apart tag tags
  unfold Media.cropSeed
  rw [is]
  rintro ⟨u, same⟩
  exact differ (List.cons.inj same).1.symm

variable {seeds : List Text} (sound : tools.media.Sound seeds)

include sound

/-- The pictures in the HTML of a table are stored, within the cap and under digests that differ. -/
theorem storeLines_ok {block : SnapshotBlock} (point : Bbox) {assets : Assets}
    (named : tools.media.Named seeds assets) (listed : ∀ seed ∈ tools.blockSeeds block, seed ∈ seeds)
    (ample : Media.assetBytes assets + tools.blockBytes block ≤ tools.maxAssetBytes) :
    ∃ lines assets', tools.storeLines block point assets = .ok (lines, assets') ∧
      tools.media.Named seeds assets' ∧ Media.assetBytes assets' + tools.blockCropBytes block ≤
        Media.assetBytes assets + tools.blockBytes block := by
  unfold storeLines
  unfold blockBytes at ample ⊢
  unfold blockSeeds at listed
  split
  · next table =>
    rw [if_pos table] at ample listed
    have pictures : Media.assetBytes assets + ((Media.pictureUris (block.content.getD [])).map
        tools.media.uriBytes).sum ≤ tools.maxAssetBytes := by omega
    obtain ⟨html, assets', done, named', bytes⟩ := Media.inlineImages_ok sound named
      (fun uri mem => listed uri (List.mem_append_left _ mem)) pictures
    rw [done]
    exact ⟨_, assets', rfl, named', by omega⟩
  · exact ⟨_, assets, rfl, named, by omega⟩

omit sound in
/-- The crop of a block is stored within the cap. It has a pixel, because the point box of the block
is not empty and the crop is rounded outwards. -/
theorem storeCrop_ok (encodes : tools.media.Encodes) (fits : tools.raster.Fits) {block : SnapshotBlock}
    {point : Bbox} (read : pointBbox block.bbox tools.raster.size = .ok point)
    (inside : point.Inside tools.raster.size) {assets : Assets}
    (named : tools.media.Named seeds assets) (listed : ∀ seed ∈ tools.blockSeeds block, seed ∈ seeds)
    (ample : Media.assetBytes assets + tools.blockCropBytes block ≤ tools.maxAssetBytes) :
    ∃ name assets', tools.storeCrop block point assets = .ok (name, assets') ∧
      tools.media.Named seeds assets' ∧
        Media.assetBytes assets' ≤ Media.assetBytes assets + tools.blockCropBytes block := by
  unfold storeCrop
  unfold blockCropBytes at ample ⊢
  unfold blockSeeds at listed
  rw [read] at ample listed ⊢
  cases cropped : cropKind block.blockType with
  | none => exact ⟨none, assets, rfl, named, Nat.le_add_right _ _⟩
  | some tagged =>
    obtain ⟨tag, kind⟩ := tagged
    rw [cropped] at ample listed
    obtain ⟨rect, cut, drawable⟩ := Media.cropRect_ok fits inside
    obtain ⟨data, encoded⟩ := encodes rect drawable
    dsimp only at ample listed ⊢
    rw [cut] at ample ⊢
    obtain ⟨name, assets', done, named', bytes⟩ := Media.crop_ok named cut encoded
      (listed _ (List.mem_append_right _ (List.mem_singleton_self _))) (cropSeed_other cropped point)
      ample
    rw [done]
    exact ⟨some name, assets', rfl, named', bytes⟩

/-- A block with a box of points is stored, within the cap. -/
theorem store_ok (encodes : tools.media.Encodes) (fits : tools.raster.Fits) {b : SnapshotBlock}
    {point : Bbox} (read : pointBbox b.bbox tools.raster.size = .ok point)
    (inside : point.Inside tools.raster.size) {assets : Assets}
    (named : tools.media.Named seeds assets) (listed : ∀ seed ∈ tools.blockSeeds b, seed ∈ seeds)
    (ample : Media.assetBytes assets + tools.blockBytes b ≤ tools.maxAssetBytes) :
    ∃ stored, tools.store b assets = .ok stored ∧ tools.media.Named seeds stored.assets ∧
      Media.assetBytes stored.assets ≤ Media.assetBytes assets + tools.blockBytes b := by
  obtain ⟨lines, assets', lined, named', bytes⟩ := storeLines_ok sound point named listed ample
  have left : Media.assetBytes assets' + tools.blockCropBytes b ≤ tools.maxAssetBytes := by omega
  obtain ⟨name, assets'', cropped, named'', bytes'⟩ :=
    storeCrop_ok encodes fits read inside named' listed left
  refine ⟨⟨lines, name, assets''⟩, ?_, named'', by dsimp only; omega⟩
  unfold store
  rw [read]
  show (tools.storeLines b point assets >>= _) = _
  rw [lined]
  show (tools.storeCrop b point assets' >>= _) = _
  rw [cropped]
  rfl

end PageTools

/-! ## Blocks -/

/-- The composer knows every kind that the parser keeps, and only a marker becomes a list. -/
theorem layoutKinds_known : ∀ kind ∈ layoutKinds, ∃ k, blockKind kind = some k ∧
    (k = "list" → silentKinds.contains kind = true) := by
  have known : ∀ kind ∈ layoutKinds, (blockKind kind).isSome ∧
      (blockKind kind = some "list" → silentKinds.contains kind = true) := by decide
  intro kind mem
  obtain ⟨some_, silent⟩ := known kind mem
  obtain ⟨k, is⟩ := Option.isSome_iff_exists.mp some_
  refine ⟨k, is, fun same => silent ?_⟩
  rw [is, same]

/-- Each known kind becomes a kind of block, so none is refused for its kind. -/
theorem rawKind_ok {block : VlmLayoutBlock} (accepted : Accepted block) (raw : RawBlock)
    (kind : raw.blockType = block.blockType) (content : raw.content = block.content) :
    ∃ k, rawKind raw = .ok k := by
  obtain ⟨k, known, list⟩ := layoutKinds_known block.blockType accepted.kind
  unfold rawKind
  rw [kind, content, known]
  dsimp only
  rw [if_neg]
  · exact ⟨k, rfl⟩
  · intro both
    obtain ⟨same, some_⟩ := both
    rw [accepted.silent (list same)] at some_
    cases some_

theorem blockAngle_ok (rotation : Rotation) : ∃ degrees, blockAngle (some rotation) = .ok degrees := by
  cases rotation <;> exact ⟨_, rfl⟩

/-- A block whose box is read, and whose assets are stored, is made. -/
theorem rawBlock_made {tools : PageTools} {block : VlmLayoutBlock} (accepted : Accepted block)
    {point : Bbox} (read : pointBbox (some block.bbox) tools.raster.size = .ok point)
    (stored : Stored) (index : Nat) :
    ∃ built, rawBlock ((tools.model (snapshotRecord block) (.ok stored)).placed tools.raster.size)
      index = .ok built := by
  obtain ⟨degrees, turned⟩ := blockAngle_ok (block.angle.getD .deg0)
  obtain ⟨kind, known⟩ := rawKind_ok accepted
    ((tools.model (snapshotRecord block) (.ok stored)).placed tools.raster.size) rfl rfl
  unfold rawBlock
  show ∃ built, (pointBbox (some block.bbox) tools.raster.size >>= _) = .ok built
  rw [read]
  show ∃ built, (blockAngle (some (block.angle.getD .deg0)) >>= _) = .ok built
  rw [turned]
  show ∃ built, (rawKind _ >>= _) = .ok built
  rw [known]
  exact ⟨_, rfl⟩

/-- A block without a box of points is refused with that error. -/
theorem rawBlock_refused {tools : PageTools} {block : VlmLayoutBlock} {e : VlmError}
    (read : pointBbox (some block.bbox) tools.raster.size = .error e)
    (stored : Except VlmError Stored) (index : Nat) :
    rawBlock ((tools.model (snapshotRecord block) stored).placed tools.raster.size) index =
      .error e := by
  unfold rawBlock
  show (pointBbox (some block.bbox) tools.raster.size >>= _) = _
  rw [read]
  rfl

/-! ## The page -/

/-- The blocks of a page, from the one with an index on. -/
def PageTools.rawBlocks (tools : PageTools) (assets : Assets) (snapshot : List SnapshotBlock)
    (index : Nat) : Except VlmError (List Block) :=
  (((tools.modelBlocks assets snapshot).map (ModelBlock.placed tools.raster.size)).zipIdx
    index).mapM fun (raw, index) => rawBlock raw index

/-- The first block is made with the assets at hand, and the others with what it has stored. -/
theorem rawBlocks_cons (tools : PageTools) (assets : Assets) (block : SnapshotBlock)
    (rest : List SnapshotBlock) (index : Nat) :
    tools.rawBlocks assets (block :: rest) index =
      rawBlock ((tools.model block (tools.store block assets)).placed tools.raster.size) index >>=
        fun built => tools.rawBlocks (((tools.store block assets).map Stored.assets).toOption.getD
          assets) rest (index + 1) >>= fun others => pure (built :: others) := by
  unfold PageTools.rawBlocks
  rw [PageTools.modelBlocks, List.map_cons, List.zipIdx_cons, List.mapM_cons]

section Page

variable {tools : PageTools} {seeds : List Text} (sound : tools.media.Sound seeds)
  (encodes : tools.media.Encodes) (fits : tools.raster.Fits) (valid : tools.raster.size.Valid)
  (points : PointSize tools.raster.size)

include sound encodes fits valid points

/-- The blocks of a page are made, or the first one without a box of points is refused. -/
theorem rawBlocks_cases {blocks : List VlmLayoutBlock} (accepted : ∀ b ∈ blocks, Accepted b)
    (assets : Assets) (named : tools.media.Named seeds assets)
    (listed : ∀ b ∈ blocks, ∀ seed ∈ tools.blockSeeds (snapshotRecord b), seed ∈ seeds)
    (ample : Media.assetBytes assets +
      (blocks.map fun b => tools.blockBytes (snapshotRecord b)).sum ≤ tools.maxAssetBytes) (n : Nat) :
    ((∀ b ∈ blocks, FillsPoints tools.raster.size b.bbox) ∧
      ∃ built, tools.rawBlocks assets (blocks.map snapshotRecord) n = .ok built) ∨
      ((¬ ∀ b ∈ blocks, FillsPoints tools.raster.size b.bbox) ∧
        tools.rawBlocks assets (blocks.map snapshotRecord) n =
          .error (builderError "empty snapshot geometry")) := by
  induction blocks generalizing assets n with
  | nil => exact .inl ⟨fun _ none => absurd none List.not_mem_nil, [], rfl⟩
  | cons block rest ih =>
    rw [List.map_cons, List.sum_cons] at ample
    have here := accepted block List.mem_cons_self
    rw [List.map_cons, rawBlocks_cons, List.forall_mem_cons]
    rcases pointBbox_cases points here with ⟨filled, point, read⟩ | ⟨empty, read⟩
    · have room : Media.assetBytes assets + tools.blockBytes (snapshotRecord block) ≤
          tools.maxAssetBytes := by omega
      obtain ⟨stored, done, named', bytes⟩ := PageTools.store_ok sound encodes fits
        (b := snapshotRecord block) read (pointBbox_inside valid read) named
        (listed block List.mem_cons_self) room
      have left : Media.assetBytes stored.assets +
          (rest.map fun b => tools.blockBytes (snapshotRecord b)).sum ≤ tools.maxAssetBytes := by
        omega
      obtain ⟨built, made⟩ := rawBlock_made here read stored n
      have later := ih (fun b mem => accepted b (List.mem_cons_of_mem _ mem)) stored.assets named'
        (fun b mem => listed b (List.mem_cons_of_mem _ mem)) left (n + 1)
      rw [done, made]
      rcases later with ⟨fills, others, is⟩ | ⟨some_, is⟩
      · refine .inl ⟨⟨filled, fills⟩, built :: others, ?_⟩
        show (tools.rawBlocks stored.assets _ (n + 1) >>= _) = _
        rw [is]
        rfl
      · refine .inr ⟨fun both => some_ both.2, ?_⟩
        show (tools.rawBlocks stored.assets _ (n + 1) >>= _) = _
        rw [is]
        rfl
    · refine .inr ⟨fun both => empty both.1, ?_⟩
      rw [rawBlock_refused read]
      rfl

end Page

/-- Past its checks, a page is prepared as it is composed. -/
theorem prepareOfficialPage_eq {overflow : Overflow} {renderBlock : Block → Text} {maxTextBytes : Nat}
    {page : OfficialBuildPage} (valid : validatePage page none = .ok ())
    (ample : (page.snapshot.map ModelBlock.textBytes).sum ≤ maxTextBytes) :
    prepareOfficialPage overflow renderBlock (fun _ => false) maxTextBytes page =
      (composePage overflow renderBlock (page.snapshot.map (ModelBlock.placed page.pageSizePoints))).map
        fun (preproc, discarded) =>
          ⟨page.slicePageIdx, page.pageSizePoints, page.snapshot, preproc, discarded⟩ := by
  have checked : checkPage (fun _ => false) maxTextBytes page = .ok () := by
    unfold checkPage
    show (validatePage page none >>= _) = _
    rw [valid]
    show rejectIf (decide _) _ = _
    rw [decide_eq_false (not_lt.mpr ample)]
    rfl
  unfold prepareOfficialPage
  rw [checked]
  show (composePage overflow renderBlock _ >>= _) = _
  cases composePage overflow renderBlock (page.snapshot.map (ModelBlock.placed page.pageSizePoints))
  · rfl
  · rfl

/-- A page whose blocks are made is composed, where its integers fit. -/
theorem composePage_made {overflow : Overflow} {renderBlock : Block → Text} {snapshot : List RawBlock}
    {size : PageSize} {blocks : List Block} (room : overflow = .panics → size.FitsI32)
    (placed : ∀ b ∈ blocks, b.Placed size)
    (made : snapshot.zipIdx.mapM (fun (raw, index) => rawBlock raw index) = .ok blocks) :
    ∃ composed, composePage overflow renderBlock snapshot = .ok composed := by
  have goes : overflow.stops (composeNumbers renderBlock blocks) = false := by
    unfold Overflow.stops
    by_cases checks : overflow = .panics
    · rw [composeNumbers_fit (room checks) renderBlock placed, Bool.not_true, Bool.and_false]
    · rw [decide_eq_false checks, Bool.false_and]
  have step : composePage overflow renderBlock snapshot =
      if overflow.stops (composeNumbers renderBlock blocks) then .error .panic
      else .ok (composeBlocks overflow (captionFallbacks overflow renderBlock blocks)) := by
    unfold composePage
    rw [made]
    rfl
  rw [step, goes]
  exact ⟨_, rfl⟩

theorem composePage_refused {overflow : Overflow} {renderBlock : Block → Text}
    {snapshot : List RawBlock} {e : VlmError}
    (refused : snapshot.zipIdx.mapM (fun (raw, index) => rawBlock raw index) = .error e) :
    composePage overflow renderBlock snapshot = .error (.err e) := by
  unfold composePage
  rw [refused]
  rfl

/-- A page that is valid has a raster that fits it, if no side is too long for a JPEG. -/
theorem validatePage_fits {tools : PageTools} {snapshot : List SnapshotBlock}
    (widthMax : tools.raster.width ≤ 65535) (heightMax : tools.raster.height ≤ 65535)
    (is : validatePage (tools.buildPage snapshot) none = .ok ()) : tools.raster.Fits := by
  unfold validatePage at is
  split at is
  · cases is
  · next accepted =>
    simp only [Bool.or_eq_true, decide_eq_true_eq, not_or, not_le] at accepted
    obtain ⟨width, wide, is⟩ := bind_ok is
    obtain ⟨height, high, is⟩ := bind_ok is
    split at is
    · cases is
    · next same =>
      obtain ⟨sameWidth, sameHeight⟩ := not_or.mp same
      have width' : tools.raster.width = width := not_not.mp sameWidth
      have height' : tools.raster.height = height := not_not.mp sameHeight
      subst width' height'
      exact ⟨accepted.1.2, Media.expectedPixels_eq widthMax wide, widthMax,
        Media.expectedPixels_eq heightMax high, heightMax⟩

/-- Every accepted block goes into the snapshot. -/
theorem snapshot_eq {blocks : List VlmLayoutBlock} (accepted : ∀ b ∈ blocks, Accepted b) :
    blocks.mapM officialSnapshotBlock = .ok (blocks.map snapshotRecord) := by
  induction blocks with
  | nil => rfl
  | cons block rest ih =>
    have nonempty : ∀ kind ∈ layoutKinds, kind.isEmpty = false := by decide
    have named : block.blockType.isEmpty = false :=
      nonempty _ (accepted block List.mem_cons_self).kind
    have first : officialSnapshotBlock block = .ok (snapshotRecord block) := by
      unfold officialSnapshotBlock
      rw [named]
      rfl
    rw [List.mapM_cons, first, ih fun b mem => accepted b (List.mem_cons_of_mem _ mem)]
    rfl

/-- The snapshot of a layout with its replies. -/
def snapshotOf (replies : Nat → Option Text) (layout : List VlmLayoutBlock) : List SnapshotBlock :=
  (answered replies layout).map snapshotRecord

/-- Past its checks, the page of a layout is composed of the blocks of its snapshot. -/
theorem prepareLayout_eq {overflow : Overflow} {tools : PageTools} {renderBlock : Block → Text}
    {maxTextBytes : Nat} {replies : Nat → Option Text} {layout : List VlmLayoutBlock}
    (accepted : ∀ b ∈ answered replies layout, Accepted b)
    (matched : validatePage (tools.buildPage (snapshotOf replies layout)) none = .ok ())
    (ample : ((tools.buildPage (snapshotOf replies layout)).snapshot.map ModelBlock.textBytes).sum ≤
      maxTextBytes) :
    prepareLayout overflow tools renderBlock maxTextBytes (answered replies layout) =
      (composePage overflow renderBlock ((tools.modelBlocks [] (snapshotOf replies layout)).map
        (ModelBlock.placed tools.raster.size))).map fun (preproc, discarded) =>
          ⟨tools.slicePageIdx, tools.raster.size, tools.modelBlocks [] (snapshotOf replies layout),
            preproc, discarded⟩ := by
  unfold prepareLayout
  rw [snapshot_eq accepted]
  exact prepareOfficialPage_eq matched ample

/-- **Which layouts compose.** A layout that the parser accepts, with any replies, composes on a
raster that matches its page if and only if the box of each block is still not empty when it is
truncated to points; otherwise it is refused with the error of the empty box. The caps are ample for
what the page stores, and SHA-256 separates the names that it stores under. A build that panics on an
overflow needs a page on which the integers fit. -/
theorem prepareLayout_iff (overflow : Overflow) (parser : Tools) (tools : PageTools) (output : Text)
    (maxLayoutBlocks : Nat) (layout : List VlmLayoutBlock) (replies : Nat → Option Text)
    (renderBlock : Block → Text) (maxTextBytes : Nat)
    (parsed : parseLayoutOutput parser output maxLayoutBlocks = .ok layout)
    (encodes : tools.media.Encodes) (base64 : tools.media.Base64) (digests : tools.media.Digests)
    (separates : tools.media.Separates (tools.seeds (snapshotOf replies layout)))
    (points : PointSize tools.raster.size)
    (room : overflow = .panics → tools.raster.size.FitsI32)
    (widthMax : tools.raster.width ≤ 65535) (heightMax : tools.raster.height ≤ 65535)
    (matched : validatePage (tools.buildPage (snapshotOf replies layout)) none = .ok ())
    (ampleAssets : ((snapshotOf replies layout).map tools.blockBytes).sum ≤ tools.maxAssetBytes)
    (ampleTexts : ((tools.buildPage (snapshotOf replies layout)).snapshot.map
      ModelBlock.textBytes).sum ≤ maxTextBytes) :
    ((∃ prepared, prepareLayout overflow tools renderBlock maxTextBytes (answered replies layout) =
      .ok prepared) ↔
        ∀ block ∈ answered replies layout, FillsPoints tools.raster.size block.bbox) ∧
    ((¬ ∀ block ∈ answered replies layout, FillsPoints tools.raster.size block.bbox) →
      prepareLayout overflow tools renderBlock maxTextBytes (answered replies layout) =
        .error (.err (builderError "empty snapshot geometry"))) := by
  have accepted := answered_accepted (parseLayoutOutput_accepted parsed) replies
  have fits := validatePage_fits widthMax heightMax matched
  have valid : tools.raster.size.Valid := validatePage_valid matched
  have sound : tools.media.Sound (tools.seeds (snapshotOf replies layout)) :=
    ⟨base64, digests, separates, List.mem_cons_self⟩
  have listed : ∀ b ∈ answered replies layout, ∀ seed ∈ tools.blockSeeds (snapshotRecord b),
      seed ∈ tools.seeds (snapshotOf replies layout) := fun b mem seed there =>
    List.mem_cons_of_mem _ (List.mem_flatMap.mpr ⟨_, List.mem_map_of_mem mem, there⟩)
  have ample : Media.assetBytes [] + ((answered replies layout).map fun b =>
      tools.blockBytes (snapshotRecord b)).sum ≤ tools.maxAssetBytes := by
    unfold snapshotOf at ampleAssets
    rw [List.map_map] at ampleAssets
    exact (Nat.zero_add _).trans_le ampleAssets
  rw [prepareLayout_eq accepted matched ampleTexts]
  rcases rawBlocks_cases sound encodes fits valid points accepted [] (.nil _ _) listed ample 0 with
    ⟨fills, built, made⟩ | ⟨empty, refused⟩
  · obtain ⟨composed, done⟩ : ∃ composed, composePage overflow renderBlock _ = .ok composed :=
      composePage_made room (rawBlocks_placed valid made) made
    unfold snapshotOf
    rw [done]
    exact ⟨⟨fun _ => fills, fun _ => ⟨_, rfl⟩⟩, fun some_ => absurd fills some_⟩
  · have stops : composePage overflow renderBlock _ = _ := composePage_refused refused
    unfold snapshotOf
    rw [stops]
    refine ⟨⟨fun done => ?_, fun fills => absurd fills empty⟩, fun _ => rfl⟩
    obtain ⟨_, is⟩ := done
    cases is

/-! ## Layouts with plain tokens -/

/-- A token without a rotation, with nothing behind it. -/
def boxToken (x1 y1 x2 y2 kind : String) : Token where
  x1 := text x1
  y1 := text y1
  x2 := text x2
  y2 := text y2
  kind
  rotation := none
  trailing := []

/-- The block of such a token. -/
def boxBlock (kind : String) (bbox : NormalizedBbox) : VlmLayoutBlock :=
  ⟨kind, bbox, none, none, some false, []⟩

/-- The text of a token. -/
def Token.spelled (token : Token) : Text :=
  text "<|box_start|>" ++ List.intercalate [' '] [token.x1, token.y1, token.x2, token.y2] ++
    text "<|box_end|><|ref_start|>" ++ text token.kind ++ text "<|ref_end|>"

theorem readToken_box {x1 y1 x2 y2 kind : String} {bbox : NormalizedBbox}
    (box : normalizedBbox (min (coordinate (text x1)) (coordinate (text x2)) / 1000)
      (min (coordinate (text y1)) (coordinate (text y2)) / 1000)
      (max (coordinate (text x1)) (coordinate (text x2)) / 1000)
      (max (coordinate (text y1)) (coordinate (text y2)) / 1000) = .ok bbox)
    (known : layoutKinds.contains kind = true) :
    readToken (boxToken x1 y1 x2 y2 kind) = some (boxBlock kind bbox) := by
  have plain : isInfix (text "txt_contd_tgt") [] = false := rfl
  unfold readToken boxToken
  simp only [box, known, if_true, plain, Bool.and_false]
  rfl

/-- The layouts of the examples: a title and a table, the same with a text that is one thousandth wide,
two containers with a picture that fill the page, and a text above a table. -/
def titleTokens : List Token :=
  [boxToken "100" "100" "900" "200" "title", boxToken "100" "300" "900" "600" "table"]

def thinTokens : List Token := titleTokens ++ [boxToken "101" "700" "102" "900" "text"]

def fullTokens : List Token :=
  [boxToken "0" "0" "1000" "1000" "image_block", boxToken "0" "0" "1000" "1000" "image_block",
    boxToken "0" "0" "1000" "1000" "image"]

def splitTokens : List Token :=
  [boxToken "0" "0" "1000" "500" "text", boxToken "0" "500" "1000" "1000" "table"]

def spelled (tokens : List Token) : Text := tokens.flatMap Token.spelled

/-- The matches in the text of such a layout. -/
def matchesOf (tokens : List Token) (t : Text) : List Token :=
  if t = spelled tokens then tokens else []

def exampleParser (tokens : List Token) : Tools := ⟨matchesOf tokens, "no valid layout tokens"⟩

theorem exampleParser_captures (tokens : List Token) :
    (exampleParser tokens).captures (spelled tokens) = tokens := if_pos rfl

def titleBlock : VlmLayoutBlock := boxBlock "title" ⟨1 / 10, 1 / 10, 9 / 10, 1 / 5⟩

def tableBlock : VlmLayoutBlock := boxBlock "table" ⟨1 / 10, 3 / 10, 9 / 10, 3 / 5⟩

def thinBlock : VlmLayoutBlock := boxBlock "text" ⟨101 / 1000, 7 / 10, 102 / 1000, 9 / 10⟩

def upperBlock : VlmLayoutBlock := boxBlock "text" ⟨0, 0, 1, 1 / 2⟩

def lowerBlock : VlmLayoutBlock := boxBlock "table" ⟨0, 1 / 2, 1, 1⟩

/-- A block that fills the page. -/
def fullBlock (kind : String) : VlmLayoutBlock := boxBlock kind ⟨0, 0, 1, 1⟩

/-- The tokens of the layouts are read as their blocks. -/
theorem readToken_blocks :
    readToken (boxToken "100" "100" "900" "200" "title") = some titleBlock ∧
    readToken (boxToken "100" "300" "900" "600" "table") = some tableBlock ∧
    readToken (boxToken "101" "700" "102" "900" "text") = some thinBlock ∧
    readToken (boxToken "0" "0" "1000" "500" "text") = some upperBlock ∧
    readToken (boxToken "0" "500" "1000" "1000" "table") = some lowerBlock ∧
    ∀ kind, layoutKinds.contains kind = true →
      readToken (boxToken "0" "0" "1000" "1000" kind) = some (fullBlock kind) :=
  ⟨readToken_box (by decide +kernel) (by decide), readToken_box (by decide +kernel) (by decide),
    readToken_box (by decide +kernel) (by decide), readToken_box (by decide +kernel) (by decide),
    readToken_box (by decide +kernel) (by decide), fun _ => readToken_box (by decide +kernel)⟩

theorem layouts_plain : ∀ tokens ∈ [titleTokens, thinTokens, fullTokens, splitTokens],
    replace (text "<|ref_start|>unknown<|ref_end|>") (text "<|ref_start|>image<|ref_end|>")
      (spelled tokens).length (spelled tokens) = spelled tokens := by
  decide +kernel

/-- No table covers a text in the layouts. -/
theorem layouts_apart : ∀ blocks ∈ [[titleBlock, tableBlock], [titleBlock, tableBlock, thinBlock],
      [fullBlock "image_block", fullBlock "image_block", fullBlock "image"],
      [upperBlock, lowerBlock]],
    ∀ b ∈ blocks, ∀ t ∈ blocks, t.blockType = "table" → b.blockType = "text" →
      coveredBy b.bbox t.bbox = false := by
  decide +kernel

/-- What is parsed, when no placeholder is replaced and no block is covered by a table. -/
theorem parseLayoutOutput_of {parser : Tools} {output : Text} {tokens : List Token}
    {blocks : List VlmLayoutBlock}
    (same : replace (text "<|ref_start|>unknown<|ref_end|>") (text "<|ref_start|>image<|ref_end|>")
      output.length output = output) (matched : parser.captures output = tokens)
    (read : parseBlocks 10 [] tokens = (blocks, false)) (some_ : blocks.isEmpty = false)
    (apart : ∀ b ∈ blocks, ∀ t ∈ blocks, t.blockType = "table" → b.blockType = "text" →
      coveredBy b.bbox t.bbox = false)
    (kinds : ∀ b ∈ blocks, b.blockType ≠ "equation" ∧ b.blockType ≠ "equation_block") :
    parseLayoutOutput parser output 10 = .ok blocks := by
  have kept : ∀ b ∈ blocks, (!(["text", "equation", "equation_block"].contains b.blockType) ||
      !(((blocks.filter fun b => b.blockType = "table").map VlmLayoutBlock.bbox).any fun t =>
        coveredBy b.bbox t)) = true := by
    intro b mem
    by_cases isText : b.blockType = "text"
    · refine Bool.or_eq_true_iff.mpr (.inr ?_)
      rw [Bool.not_eq_true', List.any_eq_false]
      intro t there
      obtain ⟨table, inside, rfl⟩ := List.mem_map.mp there
      obtain ⟨inside, kind⟩ := List.mem_filter.mp inside
      rw [apart b mem table inside (of_decide_eq_true kind) isText]
      exact Bool.false_ne_true
    · obtain ⟨equation, container⟩ := kinds b mem
      refine Bool.or_eq_true_iff.mpr (.inl ?_)
      rw [Bool.not_eq_true', List.contains_eq_any_beq]
      simp [isText, equation, container]
  unfold parseLayoutOutput
  rw [same]
  dsimp only
  rw [matched, read]
  dsimp only
  rw [if_neg Bool.false_ne_true, some_, Bool.false_and, if_neg Bool.false_ne_true,
    List.filter_eq_self.mpr kept]

theorem parseLayoutOutput_title :
    parseLayoutOutput (exampleParser titleTokens) (spelled titleTokens) 10 =
      .ok [titleBlock, tableBlock] := by
  obtain ⟨title, table, -⟩ := readToken_blocks
  refine parseLayoutOutput_of (layouts_plain _ (by simp)) (exampleParser_captures titleTokens) ?_
    rfl (layouts_apart _ (by simp)) (by decide)
  rw [parseBlocks_eq (Nat.zero_le _)]
  simp only [titleTokens, List.filterMap, title, table]
  rfl

theorem parseLayoutOutput_thin :
    parseLayoutOutput (exampleParser thinTokens) (spelled thinTokens) 10 =
      .ok [titleBlock, tableBlock, thinBlock] := by
  obtain ⟨title, table, thin, -⟩ := readToken_blocks
  refine parseLayoutOutput_of (layouts_plain _ (by simp)) (exampleParser_captures thinTokens) ?_
    rfl (layouts_apart _ (by simp)) (by decide)
  rw [parseBlocks_eq (Nat.zero_le _)]
  simp only [thinTokens, titleTokens, List.cons_append, List.nil_append, List.filterMap, title,
    table, thin]
  rfl

theorem parseLayoutOutput_full :
    parseLayoutOutput (exampleParser fullTokens) (spelled fullTokens) 10 =
      .ok [fullBlock "image_block", fullBlock "image_block", fullBlock "image"] := by
  obtain ⟨-, -, -, -, -, full⟩ := readToken_blocks
  refine parseLayoutOutput_of (layouts_plain _ (by simp)) (exampleParser_captures fullTokens) ?_
    rfl (layouts_apart _ (by simp)) (by decide)
  rw [parseBlocks_eq (Nat.zero_le _)]
  simp only [fullTokens, List.filterMap, full "image_block" (by decide), full "image" (by decide)]
  rfl

theorem parseLayoutOutput_split :
    parseLayoutOutput (exampleParser splitTokens) (spelled splitTokens) 10 =
      .ok [upperBlock, lowerBlock] := by
  obtain ⟨-, -, -, upper, lower, -⟩ := readToken_blocks
  refine parseLayoutOutput_of (layouts_plain _ (by simp)) (exampleParser_captures splitTokens) ?_
    rfl (layouts_apart _ (by simp)) (by decide)
  rw [parseBlocks_eq (Nat.zero_le _)]
  simp only [splitTokens, List.filterMap, upper, lower]
  rfl

/-! ## Pages of the examples -/

/-- A digest that keeps the beginning of a text, base64 of one byte, and an encoder that writes the
markers of an empty picture. -/
def plainMedia : Media where
  sha256 t := (t.map (fun c : Char => UInt8.ofNat c.toNat) ++ List.replicate 32 0).take 32
  md5 _ := [0xab]
  decodeBase64 t := if t = text "AA==" then some [0] else none
  encodeBase64 _ := text "AA=="
  encoder _ := .ok [0xff, 0xd8, 0xff, 0xd9]
  attempted _ _ := 0
  placeholder := [0]

def plainTools (raster : Raster) : PageTools where
  media := plainMedia
  decimal := ⟨fun _ => [], fun _ => none⟩
  raster
  slicePageIdx := 0
  maxAssetBytes := 10 ^ 12

/-- A page of A4 with one pixel for each point. -/
def a4 : Raster := ⟨⟨595, 842⟩, 1, 595, 842, []⟩

/-- A page whose area does not fit. -/
def hugePage : Raster := ⟨⟨46341, 46341⟩, 1, 46341, 46341, []⟩

/-- A page of which three times the width does not fit. -/
def longPage : Raster := ⟨⟨715827883, 2⟩, 1 / 16384, 43691, 1, []⟩

/-- The replies to the requests: a title, and a table with a picture and a metafile. -/
def hello : Nat → Option Text
  | 0 => some (text "Hello")
  | 1 => some (text "<img " ++ text "src=" ++ '"' :: text "data:image/png;base64,AA==" ++
      '"' :: text "><img src=" ++ '"' :: text "data:image/wmf;base64,AA==" ++ '"' :: text ">")
  | _ => none

theorem plainMedia_digests : plainMedia.Digests := by
  intro t
  show (List.take 32 (t.map _ ++ List.replicate 32 (0 : UInt8))).length = 32
  rw [List.length_take, List.length_append, List.length_replicate]
  omega

theorem plainMedia_base64 : plainMedia.Base64 :=
  ⟨List.all_eq_true.mp (show (text "AA==").all Media.isBase64 = true by decide), by decide⟩

/-- A table with a picture and a metafile is stored, and its page is prepared by a build that checks. -/
theorem prepareLayout_iff_title : ∃ prepared, prepareLayout .panics (plainTools a4) (fun _ => []) 1000
    (answered hello [titleBlock, tableBlock]) = .ok prepared := by
  refine ((prepareLayout_iff .panics (exampleParser titleTokens) (plainTools a4) (spelled titleTokens)
    10 [titleBlock, tableBlock] hello (fun _ => []) 1000 parseLayoutOutput_title
    (fun _ _ => ⟨_, rfl⟩) plainMedia_base64 plainMedia_digests
    (by unfold Media.Separates; decide +kernel) ⟨by decide +kernel, by decide +kernel, by decide +kernel, by decide +kernel⟩
    (fun _ => ⟨by decide +kernel, by decide +kernel, by decide +kernel⟩) (by decide) (by decide)
    (by decide +kernel) (by decide +kernel) (by decide +kernel)).1).mpr ?_
  intro block mem
  rcases List.mem_cons.mp mem with rfl | mem
  · exact ⟨by decide +kernel, by decide +kernel⟩
  · rw [List.mem_singleton.mp mem]
    exact ⟨by decide +kernel, by decide +kernel⟩

/-! ## Layouts that do not compose -/

/-- Whether composing these blocks forms a number that does not fit. -/
def overflows (renderBlock : Block → Text) : Except VlmError (List Block) → Bool
  | .ok blocks => !(composeNumbers renderBlock blocks).all fitsI32
  | .error _ => false

/-- The error that blocks are refused with. -/
def refusal : Except VlmError (List Block) → Option VlmError
  | .ok _ => none
  | .error e => some e

section Failing

variable {tools : PageTools} {renderBlock : Block → Text} {maxTextBytes : Nat}
  {replies : Nat → Option Text} {layout : List VlmLayoutBlock}
  (accepted : ∀ b ∈ answered replies layout, Accepted b)
  (matched : validatePage (tools.buildPage (snapshotOf replies layout)) none = .ok ())
  (ample : ((tools.buildPage (snapshotOf replies layout)).snapshot.map ModelBlock.textBytes).sum ≤
    maxTextBytes)

include accepted matched ample

/-- Where a number leaves `i32`, a build that checks panics, although every box is fine. -/
theorem prepareLayout_panics
    (out : overflows renderBlock (tools.rawBlocks [] (snapshotOf replies layout) 0) = true) :
    prepareLayout .panics tools renderBlock maxTextBytes (answered replies layout) =
      .error .panic := by
  have stops : composePage .panics renderBlock ((tools.modelBlocks [] (snapshotOf replies layout)).map
      (ModelBlock.placed tools.raster.size)) = .error .panic := by
    unfold composePage
    show (Checked.ofExcept (tools.rawBlocks [] (snapshotOf replies layout) 0) >>= _) = _
    cases made : tools.rawBlocks [] (snapshotOf replies layout) 0 with
    | error e =>
      rw [made] at out
      cases out
    | ok blocks =>
      rw [made] at out
      have out : Overflow.stops .panics (composeNumbers renderBlock blocks) = true := out
      show (if Overflow.stops .panics (composeNumbers renderBlock blocks) = true then _ else _) = _
      rw [if_pos out]
  rw [prepareLayout_eq accepted matched ample, stops]
  rfl

/-- The first block that cannot be made decides the error of the page. -/
theorem prepareLayout_refuses {e : VlmError}
    (out : refusal (tools.rawBlocks [] (snapshotOf replies layout) 0) = some e) (overflow : Overflow) :
    prepareLayout overflow tools renderBlock maxTextBytes (answered replies layout) =
      .error (.err e) := by
  have refused : tools.rawBlocks [] (snapshotOf replies layout) 0 = .error e := by
    cases made : tools.rawBlocks [] (snapshotOf replies layout) 0 with
    | error e' =>
      rw [made] at out
      rw [Option.some.inj out]
    | ok blocks =>
      rw [made] at out
      cases out
  have stops : composePage overflow renderBlock ((tools.modelBlocks []
      (snapshotOf replies layout)).map (ModelBlock.placed tools.raster.size)) = .error (.err e) :=
    composePage_refused refused
  rw [prepareLayout_eq accepted matched ample, stops]
  rfl

end Failing

/-- The thin block is accepted, and its page is refused, whatever becomes of an overflow. In a build
that checks, two containers that hold a picture panic on a page of 46341 points each way, and a text
above a table on a page of 715827883 points by two. -/
theorem prepareLayout_fails :
    (parseLayoutOutput (exampleParser thinTokens) (spelled thinTokens) 10 =
        .ok [titleBlock, tableBlock, thinBlock] ∧
      ∀ overflow, prepareLayout overflow (plainTools a4) (fun _ => []) 1000
        (answered hello [titleBlock, tableBlock, thinBlock]) =
          .error (.err (builderError "empty snapshot geometry"))) ∧
    (parseLayoutOutput (exampleParser fullTokens) (spelled fullTokens) 10 =
        .ok [fullBlock "image_block", fullBlock "image_block", fullBlock "image"] ∧
      prepareLayout .panics (plainTools hugePage) (fun _ => []) 1000 (answered (fun _ => none)
        [fullBlock "image_block", fullBlock "image_block", fullBlock "image"]) = .error .panic) ∧
    (parseLayoutOutput (exampleParser splitTokens) (spelled splitTokens) 10 =
        .ok [upperBlock, lowerBlock] ∧
      prepareLayout .panics (plainTools longPage) (fun _ => []) 1000
        (answered (fun _ => none) [upperBlock, lowerBlock]) = .error .panic) := by
  refine ⟨⟨parseLayoutOutput_thin, fun overflow => ?_⟩, ⟨parseLayoutOutput_full, ?_⟩,
    parseLayoutOutput_split, ?_⟩
  · exact prepareLayout_refuses
      (answered_accepted (parseLayoutOutput_accepted parseLayoutOutput_thin) hello)
      (by decide +kernel) (by decide +kernel) (by decide +kernel) overflow
  · exact prepareLayout_panics
      (answered_accepted (parseLayoutOutput_accepted parseLayoutOutput_full) fun _ => none)
      (by decide +kernel) (by decide +kernel) (by decide +kernel)
  · exact prepareLayout_panics
      (answered_accepted (parseLayoutOutput_accepted parseLayoutOutput_split) fun _ => none)
      (by decide +kernel) (by decide +kernel) (by decide +kernel)

end Mineru.Layout
