import Mineru.Laws.Route.Plan
import Mineru.Pdf.Dimensions

/-!
# Oversized pages

The scale of a page keeps its exact area within the caps (`renderScale_fits`). The estimate counts whole
pixels, so both sides are rounded up. A page is within the cap of the route if what the rounding adds
fits into what the exact area leaves of the cap, and a page whose exact area takes the whole cap is
skipped unless its sides are whole (`oversized_planned_iff`).

The arithmetic is that of an ordered field with a floor. What floating point makes of a scale near a
cap is not said.
-/

set_option autoImplicit false

namespace Mineru.Pdf

open Logic

variable {α : Type} [Field α] [LinearOrder α] [FloorRing α]

/-! ## The estimate -/

/-- A page with a scale that keeps its exact area within the caps of the route. -/
structure Fits (options : Limits) (width height scale : α) : Prop where
  wide : 0 < width
  high : 0 < height
  scaled : 0 < scale
  dpi : scale ≤ 200 / 72
  pixels : scale * scale * width * height ≤ options.maxPagePixels
  bytes : 3 * (scale * scale * width * height) ≤
    (min options.maxRenderedImageBytes options.maxInFlightImageBytes : Nat)

/-- Both scaled sides fit into a `u16`. -/
def Viewport (width height scale : α) : Prop :=
  ⌈width * scale⌉ ≤ 65535 ∧ ⌈height * scale⌉ ≤ 65535

/-- The page is estimated within the in-flight cap, and no window skips it. -/
def NeverSkipped (options : Limits) (width height scale : α) : Prop :=
  ∀ index bytes, dimensionsAt index width height scale = .ok (width, height, bytes) →
    bytes ≤ options.maxInFlightImageBytes ∧
      ∀ (d : Route.Document) (cursor size slotCap : Nat) (w : Route.PlannedWindow)
        (warnings : List Text), d.fullCap = options.maxInFlightImageBytes →
        d.pageBytes index = .ok bytes → d.planWindow cursor size slotCap = .ok (w, warnings) →
        index ∈ (d.indexes.drop cursor).take w.consumed → index ∈ w.indexes

section Estimate

variable [IsStrictOrderedRing α] {options : Limits} {width height scale : α}

theorem overhang_nonneg (x : α) : 0 ≤ overhang x := sub_nonneg.mpr (Int.le_ceil x)

theorem overhang_eq_zero {x : α} : overhang x = 0 ↔ ∃ n : Int, x = n := by
  constructor
  · intro zero
    exact ⟨⌈x⌉, (sub_eq_zero.mp zero).symm⟩
  · rintro ⟨n, rfl⟩
    rw [overhang, Int.ceil_intCast, sub_self]

omit [IsStrictOrderedRing α] in
theorem ceil_mul_ceil (x y : α) :
    (⌈x⌉ : α) * ⌈y⌉ = x * y + (x * overhang y + y * overhang x + overhang x * overhang y) := by
  unfold overhang
  ring

omit [IsStrictOrderedRing α] in
/-- The estimate of a page that is rendered at all. -/
theorem dimensionsAt_ok (index : Nat) (width_pos : 0 < width * scale)
    (height_pos : 0 < height * scale) (viewport : Viewport width height scale) :
    dimensionsAt index width height scale =
      .ok (width, height, 3 * (⌈width * scale⌉.toNat * ⌈height * scale⌉.toNat)) := by
  have wide : 0 < ⌈width * scale⌉ := Int.ceil_pos.mpr width_pos
  have high : 0 < ⌈height * scale⌉ := Int.ceil_pos.mpr height_pos
  obtain ⟨narrow, low⟩ := viewport
  have pixels : ⌈width * scale⌉.toNat * ⌈height * scale⌉.toNat ≤ 65535 * 65535 :=
    Nat.mul_le_mul (Int.toNat_le.mpr narrow) (Int.toNat_le.mpr low)
  unfold dimensionsAt saturatingMul
  rw [if_neg (by omega)]
  dsimp only
  rw [min_eq_left (by omega), min_eq_left (by omega), Nat.mul_comm _ 3]

/-- The estimate is within the cap exactly if the rounding has room. -/
theorem estimate_le_iff (width_pos : 0 < width * scale) (height_pos : 0 < height * scale) :
    3 * (⌈width * scale⌉.toNat * ⌈height * scale⌉.toNat) ≤ options.maxInFlightImageBytes ↔
      Roomy options width height scale := by
  have toNat {x : α} (pos : 0 < x) : ((⌈x⌉.toNat : Nat) : α) = ⌈x⌉ := by
    have nonneg : 0 ≤ ⌈x⌉ := (Int.ceil_pos.mpr pos).le
    exact_mod_cast congrArg (Int.cast (R := α)) (Int.toNat_of_nonneg nonneg)
  have area : scale * scale * width * height = width * scale * (height * scale) := by ring
  rw [← Nat.cast_le (α := α), Roomy, area]
  push_cast
  rw [toNat width_pos, toNat height_pos, ceil_mul_ceil, le_sub_iff_add_le', mul_add]

/-- A page is never skipped exactly if its estimate is within the cap. -/
theorem neverSkipped_iff (width_pos : 0 < width * scale) (height_pos : 0 < height * scale)
    (viewport : Viewport width height scale) :
    NeverSkipped options width height scale ↔ Roomy options width height scale := by
  rw [← estimate_le_iff width_pos height_pos]
  constructor
  · intro never
    exact (never 0 _ (dimensionsAt_ok 0 width_pos height_pos viewport)).1
  · intro room index bytes estimated
    rw [dimensionsAt_ok index width_pos height_pos viewport] at estimated
    obtain ⟨-, -, rfl⟩ := by simpa using estimated
    refine ⟨room, fun d cursor size slotCap w warnings cap estimate planned consumed => ?_⟩
    rw [(Route.Document.planWindow_ok planned).indexes]
    refine List.mem_filter.mpr ⟨consumed, ?_⟩
    rw [Route.Document.plannable, Route.plannable, estimate, cap]
    exact decide_eq_true room

/-- Where the exact area takes the whole cap, the page is skipped unless its sides are whole. -/
theorem full_planned (fits : Fits options width height scale)
    (viewport : Viewport width height scale)
    (full : 3 * (scale * scale * width * height) = options.maxInFlightImageBytes) :
    NeverSkipped options width height scale ↔
      (∃ n : Int, width * scale = n) ∧ ∃ n : Int, height * scale = n := by
  have width_pos := mul_pos fits.wide fits.scaled
  have height_pos := mul_pos fits.high fits.scaled
  rw [neverSkipped_iff width_pos height_pos viewport, Roomy, full, sub_self, ← overhang_eq_zero,
    ← overhang_eq_zero]
  have first := overhang_nonneg (width * scale)
  have second := overhang_nonneg (height * scale)
  have left := mul_nonneg width_pos.le second
  have right := mul_nonneg height_pos.le first
  have both := mul_nonneg first second
  constructor
  · intro room
    have noLeft : width * scale * overhang (height * scale) = 0 := by linarith
    have noRight : height * scale * overhang (width * scale) = 0 := by linarith
    exact ⟨(mul_eq_zero.mp noRight).resolve_left height_pos.ne',
      (mul_eq_zero.mp noLeft).resolve_left width_pos.ne'⟩
  · rintro ⟨one, two⟩
    simp [one, two]

/-- A page with whole sides is not skipped: its estimate is its exact area, which the scale keeps
within the cap. -/
theorem whole_planned (fits : Fits options width height scale)
    (viewport : Viewport width height scale) (one : ∃ n : Int, width * scale = n)
    (two : ∃ n : Int, height * scale = n) : NeverSkipped options width height scale := by
  rw [neverSkipped_iff (mul_pos fits.wide fits.scaled) (mul_pos fits.high fits.scaled) viewport,
    Roomy, overhang_eq_zero.mpr one, overhang_eq_zero.mpr two]
  have smaller : ((min options.maxRenderedImageBytes options.maxInFlightImageBytes : Nat) : α) ≤
      options.maxInFlightImageBytes := Nat.cast_le.mpr (Nat.min_le_right _ _)
  have bytes := fits.bytes.trans smaller
  simpa using bytes

/-- **A page that is scaled to fit is never skipped exactly if the rounding has room.** With whole sides
there is always room; where the exact area takes the whole in-flight cap, only then. -/
theorem oversized_planned_iff (fits : Fits options width height scale)
    (viewport : Viewport width height scale) :
    (NeverSkipped options width height scale ↔ Roomy options width height scale) ∧
      ((∃ n : Int, width * scale = n) → (∃ n : Int, height * scale = n) →
        NeverSkipped options width height scale) ∧
      (3 * (scale * scale * width * height) = options.maxInFlightImageBytes →
        (NeverSkipped options width height scale ↔
          (∃ n : Int, width * scale = n) ∧ ∃ n : Int, height * scale = n)) :=
  ⟨neverSkipped_iff (mul_pos fits.wide fits.scaled) (mul_pos fits.high fits.scaled) viewport,
    whole_planned fits viewport, full_planned fits viewport⟩

end Estimate

/-- The scale that `render_scale` chooses on the route keeps the exact area within the caps. -/
theorem renderScale_fits {options : Limits} {width height : ℝ} (accepted : options.Accepted)
    (wide : 0 < width) (high : 0 < height) :
    Fits options width height (renderScale Real.sqrt width height (renderLimits options)) := by
  have area : 0 < width * height := mul_pos wide high
  have pixels : 0 < (options.maxPagePixels : ℝ) / (width * height) :=
    div_pos (Nat.cast_pos.mpr accepted.pixels) area
  have bytes : 0 < ((min options.maxRenderedImageBytes options.maxInFlightImageBytes : Nat) : ℝ) / 3 /
      (width * height) :=
    div_pos (div_pos (Nat.cast_pos.mpr (lt_min accepted.rendered accepted.inFlight)) (by norm_num)) area
  have scaled : 0 < renderScale Real.sqrt width height (renderLimits options) :=
    lt_min (lt_min (by unfold standardScale; norm_num) (Real.sqrt_pos.mpr pixels))
      (Real.sqrt_pos.mpr bytes)
  -- a scale below a root keeps its square below what is under the root
  have square {cap : ℝ} (nonneg : 0 ≤ cap)
      (below : renderScale Real.sqrt width height (renderLimits options) ≤ Real.sqrt cap) :
      renderScale Real.sqrt width height (renderLimits options) *
        renderScale Real.sqrt width height (renderLimits options) * width * height ≤
          cap * (width * height) := by
    rw [mul_assoc _ width]
    refine mul_le_mul_of_nonneg_right ?_ area.le
    calc _ ≤ Real.sqrt cap * Real.sqrt cap := mul_self_le_mul_self scaled.le below
      _ = cap := Real.mul_self_sqrt nonneg
  have byPixels := square pixels.le ((min_le_left _ _).trans (min_le_right _ _))
  have byBytes := square bytes.le (min_le_right _ _)
  rw [div_mul_cancel₀ _ area.ne'] at byPixels byBytes
  exact ⟨wide, high, scaled, (min_le_left _ _).trans (min_le_left _ _), byPixels, by linarith⟩

/-- The default caps, with 60006000 bytes in flight. -/
def tightOptions : Limits := ⟨100000000, 67108864, 60006000⟩

/-- A page of 72 by 36 points is far within the caps at 200 dots an inch. -/
theorem oversized_planned_small : NeverSkipped tightOptions (72 : ℚ) 36 (200 / 72) :=
  (oversized_planned_iff (by constructor <;> norm_num [tightOptions])
    (by constructor <;> norm_num)).1.mpr (by norm_num [Roomy, overhang, tightOptions])

/-- A page of 5000.5 by 4000 points takes the whole cap at the scale that is chosen for it, and its
estimate is half a column of pixels too much. -/
theorem wide_page_skipped :
    tightOptions.Accepted ∧ renderScale Real.sqrt (10001 / 2) 4000 (renderLimits tightOptions) = 1 ∧
      Fits tightOptions (10001 / 2 : ℝ) 4000 1 ∧ Viewport (10001 / 2 : ℝ) 4000 1 ∧
      dimensionsAt 0 (10001 / 2 : ℝ) 4000 1 = .ok (10001 / 2, 4000, 60012000) ∧
      ¬ NeverSkipped tightOptions (10001 / 2 : ℝ) 4000 1 := by
  have accepted : tightOptions.Accepted := by constructor <;> decide
  have columns : ⌈(10001 / 2 : ℝ) * 1⌉ = 5001 := by
    rw [Int.ceil_eq_iff]
    norm_num
  have rows : ⌈(4000 : ℝ) * 1⌉ = 4000 := by
    rw [Int.ceil_eq_iff]
    norm_num
  have fits : Fits tightOptions (10001 / 2 : ℝ) 4000 1 := by
    constructor <;> norm_num [tightOptions]
  have viewport : Viewport (10001 / 2 : ℝ) 4000 1 := by
    rw [Viewport, columns, rows]
    decide
  have estimate : dimensionsAt 0 (10001 / 2 : ℝ) 4000 1 = .ok (10001 / 2, 4000, 60012000) := by
    rw [dimensionsAt_ok 0 (by norm_num) (by norm_num) viewport, columns, rows]
    rfl
  refine ⟨accepted, ?_, fits, viewport, estimate, fun never => ?_⟩
  · have pixels : Real.sqrt (((100000000 : Nat) : ℝ) / (10001 / 2 * 4000)) ≥ 1 :=
      Real.one_le_sqrt.mpr (by norm_num)
    have bytes : ((min 67108864 60006000 : Nat) : ℝ) / 3 / (10001 / 2 * 4000) = 1 := by norm_num
    unfold renderScale renderLimits tightOptions standardScale
    dsimp only
    rw [bytes, Real.sqrt_one]
    exact min_eq_right (le_min (by norm_num) pixels)
  · exact absurd (never 0 _ estimate).1 (by decide)

end Mineru.Pdf
