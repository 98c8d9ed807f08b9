import Mineru.Image.Crop

/-!
# Two ways to turn a crop

Both pipelines round a box to the same pixels as soon as the crop is three pixels wide and high
(`cropRect_of_cropBounds`), for every rounding that keeps the floors of what it keeps. They turn the
crop by a quarter in opposite directions, so a table that lies on its side comes out upside down
against every other block, unless its crop does not change by half a turn.

The rounding of `f32` itself enters at one place, the comparison of the edges with the ratio 50. What
the resizing filter does and what becomes of absorbed images is not looked at here.
-/

set_option autoImplicit false

namespace Mineru.Image

open Logic
open Logic.Checked (fail)
open Layout (Rotation)
open Builders (NormalizedBbox)

/-! ## Turns -/

theorem ofPixels_inside {width height x y : Nat} {pixel : Nat → Nat → Rgb}
    (inside : x < width ∧ y < height) : (Raster.ofPixels width height pixel).pixel x y = pixel x y :=
  if_pos inside

/-- Rasters of one size with the same pixels inside. -/
theorem Raster.ext_inside {r s : Raster} (width : r.width = s.width) (height : r.height = s.height)
    (pixel : ∀ x y, x < r.width ∧ y < r.height → r.pixel x y = s.pixel x y) : r = s := by
  refine Raster.ext width height (funext fun x => funext fun y => ?_)
  by_cases inside : x < r.width ∧ y < r.height
  · exact pixel x y inside
  · rw [r.outside x y inside, s.outside x y (width ▸ height ▸ inside)]

/-- The two quarter turns are inverse to each other, and two equal ones make half a turn
(`rotate90_rotate90`). -/
theorem rotate90_rotate270 (r : Raster) : rotate90 (rotate270 r) = r := by
  refine Raster.ext_inside rfl rfl fun x y inside => ?_
  have left : x < r.width := inside.1
  have inner : y < r.height ∧ r.width - 1 - x < r.width := ⟨inside.2, by omega⟩
  have back : r.width - 1 - (r.width - 1 - x) = x := by omega
  refine (ofPixels_inside inside).trans ((ofPixels_inside inner).trans ?_)
  rw [back]

theorem rotate90_rotate90 (r : Raster) : rotate90 (rotate90 r) = rotate180 r := by
  refine Raster.ext_inside rfl rfl fun x y inside => ?_
  have left : x < r.width := inside.1
  have inner : y < r.height ∧ r.width - 1 - x < r.width := ⟨inside.2, by omega⟩
  have middle : x < r.width ∧ y < r.height := inside
  refine (ofPixels_inside inside).trans
    ((ofPixels_inside inner).trans (Eq.trans ?_ (ofPixels_inside middle).symm))
  rfl

theorem rotate90_rotate180 (r : Raster) : rotate90 (rotate180 r) = rotate270 r := by
  refine Raster.ext_inside rfl rfl fun x y inside => ?_
  have left : x < r.height := inside.1
  have inner : y < r.width ∧ r.height - 1 - x < r.height := ⟨inside.2, by omega⟩
  have outer : x < r.height ∧ y < r.width := inside
  have back : r.height - 1 - (r.height - 1 - x) = x := by omega
  refine (ofPixels_inside inside).trans
    ((ofPixels_inside inner).trans (Eq.trans ?_ (ofPixels_inside outer).symm))
  rw [back]

/-- The two quarter turns agree on what does not change by half a turn. -/
theorem quarter_turns_agree (r : Raster) : rotate90 r = rotate270 r ↔ rotate180 r = r := by
  constructor
  · intro same
    have twice := congrArg rotate90 same
    rwa [rotate90_rotate90, rotate90_rotate270] at twice
  · intro half
    rw [← rotate90_rotate180, half]

/-! ## Bounds -/

/-- A clamp with its bounds in order returns a number between them, and panics otherwise. -/
theorem clamp_ok {q low high : Rat} (le : low ≤ high) :
    clamp q low high = .ok (max low (min q high)) :=
  if_neg (not_lt.mpr le)

theorem clamp_between {q low high v : Rat} (h : clamp q low high = .ok v) :
    low ≤ high ∧ v = max low (min q high) := by
  unfold clamp at h
  split at h
  · cases h
  · rename_i le
    exact ⟨not_lt.mp le, (Except.ok.inj h).symm⟩

theorem subU32_eq {a b n : Nat} (h : subU32 a b = .ok n) : b ≤ a ∧ n = a - b := by
  unfold subU32 at h
  split at h
  · rename_i le
    exact ⟨le, (Except.ok.inj h).symm⟩
  · cases h

theorem asU32_lt (q : Rat) : asU32 q < 2 ^ 32 := by
  unfold asU32
  omega

/-- The cast rounds down and saturates, so it stays below a bound and above one that fits. -/
theorem asU32_le {q : Rat} {n : Nat} (le : q ≤ n) : asU32 q ≤ n := by
  have floor : ⌊q⌋ ≤ (n : Int) := Int.floor_le_iff.mpr (lt_of_le_of_lt le (by norm_num))
  unfold asU32
  omega

theorem asU32_ge {q : Rat} {n : Nat} (le : (n : Rat) ≤ q) (fits : n < 2 ^ 32) : n ≤ asU32 q := by
  have floor : (n : Int) ≤ ⌊q⌋ := Int.le_floor.mpr (by exact_mod_cast le)
  unfold asU32
  omega

theorem asU32_le_self {q : Rat} (positive : 0 ≤ q) : (asU32 q : Rat) ≤ q := by
  have floor : (asU32 q : Int) ≤ ⌊q⌋ := by
    have := Int.floor_nonneg.mpr positive
    unfold asU32
    omega
  exact (by exact_mod_cast floor : (asU32 q : Rat) ≤ ⌊q⌋).trans (Int.floor_le q)

/-- A number that is not saturated lies below the next pixel. -/
theorem lt_asU32_succ {q : Rat} (small : asU32 q < 2 ^ 32 - 1) : q < asU32 q + 1 := by
  have floor : ⌊q⌋ ≤ (asU32 q : Int) := by
    unfold asU32 at small ⊢
    omega
  exact (Int.lt_floor_add_one q).trans_le (add_le_add_left (by exact_mod_cast floor) 1)

section Rounded

variable {f : Rounding Rat}

/-- The first pixel of a box, on one axis. -/
theorem startPixel_eq {edge last : Rat} {size x : Nat} (h : startPixel f edge size last = .ok x) :
    0 ≤ last ∧ x = asU32 (max 0 (min ⌊f.round (edge * f.round size)⌋ last)) := by
  obtain ⟨v, clamped, h⟩ := bind_ok h
  obtain ⟨le, rfl⟩ := clamp_between clamped
  exact ⟨le, (Except.ok.inj h).symm⟩

theorem startPixel_ok {edge last : Rat} {size : Nat} (le : 0 ≤ last) :
    startPixel f edge size last =
      .ok (asU32 (max 0 (min ⌊f.round (edge * f.round size)⌋ last))) := by
  rw [startPixel, clamp_ok le]
  rfl

/-- The pixel behind an edge is no more than the rounded size, and no less than what the rounding makes
of the next pixel. -/
theorem endPixel_eq {edge : Rat} {size start v : Nat} (h : endPixel f edge size start = .ok v) :
    start + 1 < 2 ^ 32 ∧ ∃ q : Rat, v = asU32 q ∧ f.round (start + 1 : Nat) ≤ q ∧ q ≤ f.round size := by
  obtain ⟨next, added, h⟩ := bind_ok h
  obtain ⟨q, clamped, h⟩ := bind_ok h
  unfold addU32 at added
  split at added
  · rename_i fits
    cases added
    obtain ⟨le, rfl⟩ := clamp_between clamped
    exact ⟨fits, _, (Except.ok.inj h).symm, le_max_left _ _, max_le le (min_le_right _ _)⟩
  · cases added

/-- `w as f32 - 1.0` and `w.saturating_sub(1) as f32` may differ on an image that is too large for the
digits. A start that leaves three pixels up to the end of the box is below both. -/
theorem start_agrees (floors : ∀ v, f.Kept v → f.Kept ⌊v⌋) (zero : f.Kept 0) {left right : Rat}
    {size start stop : Nat}
    (isStart : startPixel f left size (f.round (f.round size - 1)) = .ok start)
    (isStop : endPixel f right size start = .ok stop) (apart : start + 3 ≤ stop) :
    startPixel f left size (f.round (size - 1 : Nat)) = .ok start := by
  obtain ⟨-, is⟩ := startPixel_eq isStart
  obtain ⟨-, q, rfl, low, high⟩ := endPixel_eq isStop
  have known := floors _ (f.kept (left * f.round size))
  obtain ⟨pixel, isPixel⟩ : ∃ pixel : Int, ⌊f.round (left * f.round size)⌋ = pixel := ⟨_, rfl⟩
  rw [isPixel] at is known
  have positive : 0 ≤ q := (Rounding.le_round zero (Nat.cast_nonneg _)).trans low
  have inside : (start : Rat) + 3 ≤ f.round size :=
    (by exact_mod_cast apart : (start : Rat) + 3 ≤ asU32 q).trans ((asU32_le_self positive).trans high)
  have last : f.round size - 2 ≤ f.round (f.round size - 1) := by
    have near := f.nearest (f.round size - 1) _ (f.kept size)
    rw [sub_sub_cancel, abs_one] at near
    have := (abs_le.mp near).1
    linarith
  have unsaturated : start < 2 ^ 32 - 1 := by
    have := asU32_lt q
    omega
  have below : max 0 (min (pixel : Rat) (f.round (f.round size - 1))) < start + 1 := by
    have succ := lt_asU32_succ (is ▸ unsaturated)
    rwa [← is] at succ
  have early : (pixel : Rat) < start + 1 := by
    rcases min_lt_iff.mp ((le_max_right _ _).trans_lt below) with early | late
    · exact early
    · linarith
  have before : (pixel : Rat) ≤ (size - 1 : Nat) := by
    by_contra beyond
    have whole : ((size : Nat) : Rat) ≤ pixel := by
      have : ((size - 1 : Nat) : Int) < pixel := by exact_mod_cast not_le.mp beyond
      have : (size : Int) ≤ pixel := by omega
      exact_mod_cast this
    have := Rounding.round_le known whole
    linarith
  have kept : (pixel : Rat) ≤ f.round (size - 1 : Nat) := Rounding.le_round known before
  have other : (pixel : Rat) ≤ f.round (f.round size - 1) := by linarith
  rw [startPixel_ok (Rounding.le_round zero (Nat.cast_nonneg _)), isPixel, min_eq_left kept, is,
    min_eq_left other]

/-- Both pipelines round a box to the same pixels if the crop is three pixels wide and high. -/
theorem cropRect_of_cropBounds (floors : ∀ v, f.Kept v → f.Kept ⌊v⌋) (zero : f.Kept 0) {image : Raster}
    {bbox : NormalizedBbox} {x y width height : Nat}
    (bounds : cropBounds f image bbox = .ok (x, y, width, height)) (wide : 3 ≤ width)
    (high : 3 ≤ height) : cropRect f image bbox = .ok (x, y, width, height) := by
  obtain ⟨x', isX, h⟩ := bind_ok bounds
  obtain ⟨y', isY, h⟩ := bind_ok h
  obtain ⟨right, isRight, h⟩ := bind_ok h
  obtain ⟨bottom, isBottom, h⟩ := bind_ok h
  obtain ⟨width', isWidth, h⟩ := bind_ok h
  obtain ⟨height', isHeight, h⟩ := bind_ok h
  cases h
  have apart := subU32_eq isWidth
  have apart' := subU32_eq isHeight
  have startX := start_agrees floors zero isX isRight (by omega)
  have startY := start_agrees floors zero isY isBottom (by omega)
  simp only [cropRect, startX, startY, isRight, isBottom, isWidth, isHeight, bind, Except.bind, pure,
    Except.pure]

/-- The raw crop, and what the table pipeline makes of a table without images. -/
theorem mask_eq (tools : Tools) (angle : Option Rotation) {page raw : Raster} {bbox : NormalizedBbox}
    (isRaw : rawCrop f page bbox none = .ok raw) :
    (∃ x y width height, cropBounds f page bbox = .ok (x, y, width, height) ∧
      raw = cropImm page x y width height) ∧
    maskAndEncodeTableImage f tools page bbox angle [] =
      .ok (padded f (enlarged f tools (rotate raw angle)), []) := by
  have again := isRaw
  obtain ⟨⟨x, y, width, height⟩, bounds, h⟩ := bind_ok isRaw
  cases h
  refine ⟨⟨x, y, width, height, bounds, rfl⟩, ?_⟩
  unfold maskAndEncodeTableImage crop
  rw [again, bounds]
  rfl

/-- Turns keep the shorter and the longer edge, so the tests on edges do not see the angle. -/
theorem rotate_edges (r : Raster) (angle : Option Rotation) :
    min (rotate r angle).width (rotate r angle).height = min r.width r.height ∧
      max (rotate r angle).width (rotate r angle).height = max r.width r.height := by
  unfold rotate
  split
  · exact ⟨min_comm _ _, max_comm _ _⟩
  · exact ⟨rfl, rfl⟩
  · exact ⟨min_comm _ _, max_comm _ _⟩
  · exact ⟨rfl, rfl⟩

/-- A crop of a usual size is not enlarged, and whether it is padded does not depend on the angle. -/
theorem padded_rotate (tools : Tools) {raw : Raster} (angle : Option Rotation)
    (big : 28 ≤ min raw.width raw.height) :
    padded f (enlarged f tools (rotate raw angle)) = if Pads f raw.width raw.height then
      overlay (fromPixel (max raw.width raw.height) (max raw.width raw.height) ⟨255, 255, 255⟩)
        (rotate raw angle) ((max raw.width raw.height - (rotate raw angle).width) / 2)
        ((max raw.width raw.height - (rotate raw angle).height) / 2)
      else rotate raw angle := by
  obtain ⟨least, most⟩ := rotate_edges raw angle
  have same : Pads f (rotate raw angle).width (rotate raw angle).height ↔
      Pads f raw.width raw.height := by
    unfold Pads
    rw [least, most]
  rw [enlarged, least, if_neg (Nat.not_lt.mpr big), padded, most, if_congr same rfl rfl]

/-- The other pipeline cuts out the same pixels and turns the other way. -/
theorem semanticCrop_eq {page b : Raster} {bbox : NormalizedBbox} {angle : Option Rotation}
    {maxPixels x y width height : Nat}
    (bounds : cropRect f page bbox = .ok (x, y, width, height))
    (produced : semanticCrop f page bbox angle maxPixels = .ok b) :
    b = undoRotation (cropImm page x y width height) angle := by
  obtain ⟨found, bounded, h⟩ := bind_ok produced
  rw [bounds] at bounded
  cases bounded
  obtain ⟨-, -, h⟩ := bind_ok h
  exact (Except.ok.inj h).symm

/-- The second pipeline on a crop that is within its limit of pixels. -/
theorem semanticCrop_small {page : Raster} {bbox : NormalizedBbox} {angle : Option Rotation}
    {maxPixels x y width height : Nat} (bounds : cropRect f page bbox = .ok (x, y, width, height))
    (fits : width * height < 2 ^ 64) (small : width * height ≤ maxPixels) :
    semanticCrop f page bbox angle maxPixels =
      .ok (undoRotation (cropImm page x y width height) angle) := by
  unfold semanticCrop imagePixelLimit
  rw [bounds]
  simp only [bind, Except.bind, if_pos fits]
  rw [if_neg (Nat.not_lt.mpr small)]
  rfl

end Rounded

/-! ## The crops of a table -/

/-- The floor of a kept number is kept: a number beyond the digits of the significand is whole
already. -/
theorem f32_floor (v : Rat) (kept : f32.Kept v) : f32.Kept ⌊v⌋ :=
  Rounding.significand_floor (by decide) kept

/-- Numbers of up to 24 bits are kept, and so are the sides of any page here. -/
theorem f32_nat {n : Nat} (small : n ≤ 2 ^ 24) : f32.Kept n := by
  have kept : f32.Kept ((n : Int) : Rat) := by
    refine Rounding.significand_int (by decide) ?_
    rw [Nat.abs_cast]
    exact_mod_cast small
  exact_mod_cast kept

theorem f32_zero : f32.Kept 0 := by exact_mod_cast f32_nat (Nat.zero_le _)

/-- The quotient of the edges is rounded, but no more than 50 stays no more than 50 as long as the edges
are `f32` themselves. -/
theorem not_pads {width height : Nat} (pos : 0 < min width height)
    (ratio : max width height ≤ 50 * min width height) (small : max width height ≤ 2 ^ 24) :
    ¬ Pads f32 width height := by
  have one : max (min width height) 1 = min width height := max_eq_left pos
  have least : min width height ≤ 2 ^ 24 := (min_le_max).trans small
  have bound : ((max width height : Nat) : Rat) ≤ 50 * (min width height : Nat) := by
    exact_mod_cast ratio
  unfold Pads
  rw [one, Rounding.round_eq (f32_nat small), Rounding.round_eq (f32_nat least), not_lt]
  have fifty : f32.Kept 50 := by exact_mod_cast f32_nat (n := 50) (by decide)
  exact Rounding.round_le fifty ((div_le_iff₀ (Nat.cast_pos.mpr pos)).mpr bound)

/-- A square is not padded, however large it is. -/
theorem square_not_pads {side : Nat} (pos : 0 < side) : ¬ Pads f32 side side := by
  have kept : f32.Kept 1 := by exact_mod_cast f32_nat (n := 1) (by decide)
  have positive : (0 : Rat) < f32.round side :=
    one_pos.trans_le (Rounding.le_round kept (by exact_mod_cast pos))
  unfold Pads
  rw [max_self, min_self, max_eq_left pos, div_self positive.ne', Rounding.round_eq kept]
  norm_num

theorem undoRotation_edges (r : Raster) (angle : Option Rotation) :
    min (undoRotation r angle).width (undoRotation r angle).height = min r.width r.height ∧
      max (undoRotation r angle).width (undoRotation r angle).height = max r.width r.height := by
  unfold undoRotation
  split
  · exact ⟨min_comm _ _, max_comm _ _⟩
  · exact ⟨rfl, rfl⟩
  · exact ⟨min_comm _ _, max_comm _ _⟩
  · exact ⟨rfl, rfl⟩

/-- A table without images comes out as any other block with its box and angle exactly if the comparison
of its edges in `f32` does not pad it, and it is not turned by a quarter or does not change by half a
turn. With edges in a ratio of at most 50 the comparison pads no crop up to 2 ^ 24 pixels long. -/
theorem table_crop_agrees (tools : Tools) {page raw b : Raster} {bbox : NormalizedBbox}
    {angle : Option Rotation} {maxPixels : Nat} (isRaw : rawCrop f32 page bbox none = .ok raw)
    (big : 28 ≤ min raw.width raw.height)
    (produced : semanticCrop f32 page bbox angle maxPixels = .ok b) :
    (maskAndEncodeTableImage f32 tools page bbox angle [] = .ok (b, []) ↔
      ¬ Pads f32 raw.width raw.height ∧
        ((angle ≠ some .deg90 ∧ angle ≠ some .deg270) ∨ rotate180 raw = raw)) ∧
    (max raw.width raw.height ≤ 50 * min raw.width raw.height → max raw.width raw.height ≤ 2 ^ 24 →
      ¬ Pads f32 raw.width raw.height) := by
  refine ⟨?_, not_pads (by omega)⟩
  obtain ⟨⟨x, y, width, height, bounds, isCrop⟩, masked⟩ := mask_eq tools angle isRaw
  have isWidth : raw.width = min width (page.width - min x page.width) := congrArg Raster.width isCrop
  have isHeight : raw.height = min height (page.height - min y page.height) :=
    congrArg Raster.height isCrop
  have same := cropRect_of_cropBounds f32_floor f32_zero bounds (by omega) (by omega)
  obtain rfl : b = undoRotation raw angle := isCrop ▸ semanticCrop_eq same produced
  have first : maskAndEncodeTableImage f32 tools page bbox angle [] = .ok (undoRotation raw angle, []) ↔
      padded f32 (enlarged f32 tools (rotate raw angle)) = undoRotation raw angle := by
    rw [masked]
    constructor
    · intro h
      exact congrArg Prod.fst (Except.ok.inj h)
    · intro h
      rw [h]
  rw [first, padded_rotate tools angle big]
  by_cases pads : Pads f32 raw.width raw.height
  · -- A padded crop is a square, and the other pipeline never pads.
    rw [if_pos pads]
    refine iff_of_false (fun square => ?_) fun h => h.1 pads
    obtain ⟨least, most⟩ := undoRotation_edges raw angle
    rw [← square] at least most
    have edges : max raw.width raw.height = min raw.width raw.height := (min_self _).symm.trans least
    have equal : raw.width = raw.height := by omega
    rw [equal] at pads big
    exact square_not_pads (by omega) pads
  · rw [if_neg pads, and_iff_right pads, ← quarter_turns_agree]
    cases angle with
    | none => simp [rotate, undoRotation]
    | some turn =>
      cases turn with
      | deg0 | deg90 | deg180 => simp [rotate, undoRotation]
      | deg270 => simp [rotate, undoRotation, eq_comm]

/-- A page of 28 by 28 that is white but for one corner. -/
def marked : Raster :=
  Raster.ofPixels 28 28 fun x y => if x = 0 ∧ y = 0 then ⟨0, 0, 0⟩ else ⟨255, 255, 255⟩

def whole : NormalizedBbox := ⟨0, 0, 1, 1⟩

def plainTools : Tools := ⟨fun image _ _ => image, fun _ _ _ _ _ _ state => .ok state⟩

theorem marked_bounds : cropBounds f32 marked whole = .ok (0, 0, 28, 28) := by decide +kernel

theorem marked_raw : rawCrop f32 marked whole none = .ok (cropImm marked 0 0 28 28) := by
  rw [rawCrop, marked_bounds]
  rfl

theorem marked_semantic (angle : Option Rotation) : semanticCrop f32 marked whole angle (28 * 28) =
    .ok (undoRotation (cropImm marked 0 0 28 28) angle) :=
  semanticCrop_small (cropRect_of_cropBounds f32_floor f32_zero marked_bounds (by decide) (by decide))
    (by decide) (by decide)

/-- A table that stands on its head comes out like a text that does. -/
theorem table_crop_agrees_half : maskAndEncodeTableImage f32 plainTools marked whole (some .deg180) [] =
    .ok (rotate180 (cropImm marked 0 0 28 28), []) := by
  obtain ⟨agrees, small⟩ :=
    table_crop_agrees plainTools marked_raw (by decide) (marked_semantic (some .deg180))
  exact agrees.mpr ⟨small (by decide) (by decide), Or.inl ⟨nofun, nofun⟩⟩

/-- A table that is turned by 90 degrees has its corner at the top right, a text at the bottom left. -/
theorem sideways_table_upside_down : ∃ table text : Raster,
    maskAndEncodeTableImage f32 plainTools marked whole (some .deg90) [] = .ok (table, []) ∧
      semanticCrop f32 marked whole (some .deg90) (28 * 28) = .ok text ∧
      table.pixel 27 0 = ⟨0, 0, 0⟩ ∧ text.pixel 27 0 = ⟨255, 255, 255⟩ := by
  have square : ¬ Pads f32 28 28 := square_not_pads (by decide)
  have plain : padded f32 (enlarged f32 plainTools (rotate (cropImm marked 0 0 28 28) (some .deg90))) =
      if Pads f32 28 28 then _ else _ := padded_rotate plainTools (some .deg90) (by decide)
  refine ⟨rotate90 (cropImm marked 0 0 28 28), rotate270 (cropImm marked 0 0 28 28), ?_,
    marked_semantic (some .deg90), by decide, by decide⟩
  rw [(mask_eq plainTools (some .deg90) marked_raw).2, plain]
  exact congrArg (fun r => Except.ok (r, [])) (if_neg square)

end Mineru.Image
