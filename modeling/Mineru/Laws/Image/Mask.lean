import Mineru.Image.Mask
import Mineru.Laws.Image.Crop

/-!
# The mask and the image under it

The rectangle of an image is turned with the crop of the table, so on a crop that is only turned, or
enlarged by a whole number, the mask covers exactly the pixels of the image. A crop with edges in a
ratio above 50 is put into the middle of a square, and the mask is scaled to the square as if the crop
had been stretched to it: then it misses the image, unless it reaches over the middle of the crop.

Coordinates are exact rationals here (`Rounding.exact`). What `f32` makes of the same boxes, and what the
resizing filter does with the pixels, is not proved; the resized raster only has the size asked for.
-/

set_option autoImplicit false

namespace Mineru.Image

open Logic
open Logic.Checked (EnsuresOr)
open Layout (Rotation)
open Builders (NormalizedBbox)

/-! ## One axis -/

section Axis

/-- An axis of the crop: `n` pixels in the raw crop, `e` after enlargement, `side` after padding, and
the image from `a` to `b` in the raw crop. -/
structure Axis where
  n : Nat
  e : Nat
  side : Nat
  a : Nat
  b : Nat

/-- The pixels that are painted. -/
def Axis.Painted (x : Axis) (i : Nat) : Prop :=
  x.a * x.side / x.n ≤ i ∧ i < (x.b * x.side + (x.n - 1)) / x.n

/-- The pixels where the image is. -/
def Axis.Shown (x : Axis) (i : Nat) : Prop :=
  (x.side - x.e) / 2 ≤ i ∧ i - (x.side - x.e) / 2 < x.e ∧
    x.a ≤ (i - (x.side - x.e) / 2) * x.n / x.e ∧ (i - (x.side - x.e) / 2) * x.n / x.e < x.b

/-- An axis that is enlarged by `k`. -/
structure Axis.Whole (x : Axis) (k : Nat) : Prop where
  pos : 0 < x.n
  factor : 0 < k
  enlarged : x.e = k * x.n
  ordered : x.a ≤ x.b
  within : x.b ≤ x.n

variable {x : Axis} {k : Nat}

/-- On a crop that is enlarged by a whole number the pixels of the image are an interval, moved by
the margin. -/
theorem Axis.Whole.shown_iff (whole : x.Whole k) (i : Nat) :
    x.Shown i ↔ (x.side - x.e) / 2 + k * x.a ≤ i ∧ i < (x.side - x.e) / 2 + k * x.b := by
  obtain ⟨pos, factor, enlarged, ordered, within⟩ := whole
  unfold Axis.Shown
  have upper : k * x.b ≤ x.e := enlarged ▸ Nat.mul_le_mul_left k within
  have scaled (j : Nat) : j * x.n / x.e = j / k := by
    rw [enlarged, Nat.mul_div_mul_right _ _ pos]
  rw [scaled, Nat.le_div_iff_mul_le factor, Nat.div_lt_iff_lt_mul factor, mul_comm x.a, mul_comm x.b]
  omega

theorem Axis.Whole.shown_some (whole : x.Whole k) : (∃ i, x.Shown i) ↔ x.a < x.b := by
  simp only [whole.shown_iff]
  constructor
  · rintro ⟨i, low, high⟩
    exact lt_of_mul_lt_mul_left (by omega) (Nat.zero_le k)
  · intro lt
    exact ⟨_, le_rfl, Nat.add_lt_add_left ((Nat.mul_lt_mul_left whole.factor).mpr lt) _⟩

/-- Without padding the painted pixels are those of the image. -/
theorem Axis.Whole.painted_iff (whole : x.Whole k) (unpadded : x.side = x.e) (i : Nat) :
    x.Painted i ↔ x.Shown i := by
  rw [whole.shown_iff, Axis.Painted, unpadded, whole.enlarged, Nat.sub_self]
  have pos := whole.pos
  have low : x.a * (k * x.n) / x.n = k * x.a := by
    rw [← mul_assoc, Nat.mul_div_cancel _ pos, mul_comm]
  have high : (x.b * (k * x.n) + (x.n - 1)) / x.n = k * x.b := by
    rw [← mul_assoc, mul_comm x.b, Nat.add_comm, Nat.add_mul_div_right _ _ pos,
      Nat.div_eq_of_lt (by omega), Nat.zero_add]
  rw [low, high]
  omega

/-- In the padding the painted pixels are those of a crop that is stretched to the side. -/
theorem Axis.Whole.stretched (whole : x.Whole k) (padded : 50 * x.e < x.side) :
    x.a * x.side / x.n = k * x.a + x.a * (x.side - x.e) / x.n ∧
      (x.b * x.side + (x.n - 1)) / x.n = k * x.b + (x.b * (x.side - x.e) + (x.n - 1)) / x.n := by
  have split (v : Nat) : v * x.side = k * v * x.n + v * (x.side - x.e) := by
    have : x.side = x.e + (x.side - x.e) := by omega
    rw [this, Nat.mul_add, Nat.add_sub_cancel_left, whole.enlarged]
    ring
  constructor
  · rw [split, Nat.add_comm, Nat.add_mul_div_right _ _ whole.pos, Nat.add_comm]
  · rw [split, Nat.add_assoc, Nat.add_comm, Nat.add_mul_div_right _ _ whole.pos, Nat.add_comm]

/-- In a square that is more than 49 times as wide as the crop, the scaled lower edge is at or
before the middle exactly when the edge itself is. -/
theorem floor_le_half {n d : Nat} (pos : 0 < n) (wide : 49 * n < d) (v : Nat) :
    v * d / n ≤ d / 2 ↔ 2 * v ≤ n := by
  have halves : d < 2 * (d / 2) + 2 ∧ 2 * (d / 2) ≤ d := by omega
  rw [← Nat.lt_add_one_iff, Nat.div_lt_iff_lt_mul pos]
  constructor
  · intro lt
    by_contra more
    have : (n + 1) * d ≤ 2 * v * d := Nat.mul_le_mul_right d (by omega)
    nlinarith
  · intro le
    have : 2 * v * d ≤ n * d := Nat.mul_le_mul_right d le
    nlinarith

/-- The same for the upper edge, which is rounded up. -/
theorem half_le_ceil {n d : Nat} (pos : 0 < n) (wide : 49 * n < d) (v : Nat) :
    d / 2 ≤ (v * d + (n - 1)) / n ↔ n ≤ 2 * v := by
  have halves : d < 2 * (d / 2) + 2 ∧ 2 * (d / 2) ≤ d := by omega
  rw [Nat.le_div_iff_mul_le pos]
  constructor
  · intro le
    by_contra less
    have : (2 * v + 1) * d ≤ n * d := Nat.mul_le_mul_right d (by omega)
    have : n - 1 < n := by omega
    nlinarith
  · intro le
    have : n * d ≤ 2 * v * d := Nat.mul_le_mul_right d le
    nlinarith

/-- In the padding the painted pixels include those of the image exactly if there are none, or the image
reaches over the middle of the axis. -/
theorem Axis.Whole.covers_iff (whole : x.Whole k) (padded : 50 * x.e < x.side) :
    (∀ i, x.Shown i → x.Painted i) ↔ x.a = x.b ∨ (2 * x.a ≤ x.n ∧ x.n ≤ 2 * x.b) := by
  obtain ⟨lowEdge, highEdge⟩ := whole.stretched padded
  have pos := whole.pos
  -- the padding is wider than 49 raw crops
  have wide : 49 * x.n < x.side - x.e := by
    have : x.n ≤ x.e := whole.enlarged ▸ Nat.le_mul_of_pos_left x.n whole.factor
    omega
  generalize gap : x.side - x.e = d at lowEdge highEdge wide
  have low := floor_le_half pos wide x.a
  have high := half_le_ceil pos wide x.b
  simp only [whole.shown_iff, Axis.Painted, lowEdge, highEdge, gap]
  constructor
  · intro covers
    rcases whole.ordered.eq_or_lt with empty | lt
    · exact .inl empty
    · have longer := (Nat.mul_lt_mul_left whole.factor).mpr lt
      have first := covers (d / 2 + k * x.a) ⟨le_rfl, by omega⟩
      have last := covers (d / 2 + k * x.b - 1) ⟨by omega, by omega⟩
      exact .inr ⟨low.mp (by omega), high.mp (by omega)⟩
  · rintro (empty | ⟨before, behind⟩) i ⟨above, below⟩
    · rw [empty] at above
      omega
    · have := low.mpr before
      have := high.mpr behind
      omega

/-- In the padding the painted pixels are those of the image exactly if both are none. -/
theorem Axis.Whole.equal_iff (whole : x.Whole 1) (padded : 50 * x.e < x.side) :
    (∀ i, x.Painted i ↔ x.Shown i) ↔ x.a = x.b ∧ x.n ∣ x.a * x.side := by
  obtain ⟨lowEdge, highEdge⟩ := whole.stretched padded
  have pos := whole.pos
  have ceil_eq (v : Nat) : (v + (x.n - 1)) / x.n ≤ v / x.n ↔ x.n ∣ v := by
    rw [← Nat.lt_add_one_iff, Nat.div_lt_iff_lt_mul pos, Nat.dvd_iff_mod_eq_zero]
    have := Nat.div_add_mod v x.n
    have := Nat.mod_lt v pos
    rw [Nat.add_mul, Nat.one_mul, mul_comm]
    omega
  constructor
  · intro same
    rcases whole.ordered.eq_or_lt with empty | lt
    · refine ⟨empty, (ceil_eq _).mp (not_lt.mp fun some => ?_)⟩
      obtain ⟨i, shown⟩ : ∃ i, x.Shown i :=
        ⟨_, (same (x.a * x.side / x.n)).mp ⟨le_rfl, by rwa [← empty]⟩⟩
      exact absurd (whole.shown_some.mp ⟨i, shown⟩) (by omega)
    · -- both ends agree, but the painted pixels are more than 49 times as many
      have first := (same (x.a * x.side / x.n))
      have shown := (same ((x.side - x.e) / 2 + x.a)).mpr ((whole.shown_iff _).mpr (by omega))
      have last := (same ((x.b * x.side + (x.n - 1)) / x.n - 1))
      simp only [Axis.Painted, whole.shown_iff] at first last shown
      have many : x.a * x.side / x.n + 50 * (x.b - x.a) ≤ x.b * x.side / x.n := by
        rw [Nat.le_div_iff_mul_le pos]
        have side : 50 * x.n ≤ x.side := by
          have := whole.enlarged
          omega
        calc (x.a * x.side / x.n + 50 * (x.b - x.a)) * x.n
            = x.a * x.side / x.n * x.n + (x.b - x.a) * (50 * x.n) := by ring
          _ ≤ x.a * x.side + (x.b - x.a) * x.side :=
            Nat.add_le_add (Nat.div_mul_le_self _ _) (Nat.mul_le_mul_left _ side)
          _ = x.b * x.side := by rw [← Nat.add_mul, Nat.add_sub_cancel' lt.le]
      have round : x.b * x.side / x.n ≤ (x.b * x.side + (x.n - 1)) / x.n :=
        Nat.div_le_div_right (Nat.le_add_right _ _)
      omega
  · rintro ⟨empty, divides⟩ i
    have none := (ceil_eq _).mpr divides
    rw [whole.shown_iff, Axis.Painted, ← empty]
    omega

end Axis

/-! ## Sizes -/

/-- The size behind `enlarged`. -/
def enlargedSize (size : Nat × Nat) : Nat × Nat :=
  if min size.1 size.2 < 28 then minEdgeDimensions .exact size.1 size.2 28 else size

/-- Whether `padded` puts a raster of this size into a square. -/
def Narrow (size : Nat × Nat) : Prop := 50 * max (min size.1 size.2) 1 < max size.1 size.2

instance (size : Nat × Nat) : Decidable (Narrow size) := inferInstanceAs (Decidable (_ < _))

/-- The size behind `padded`. -/
def paddedSize (size : Nat × Nat) : Nat × Nat :=
  if Narrow size then (max size.1 size.2, max size.1 size.2) else size

def Raster.size (r : Raster) : Nat × Nat := (r.width, r.height)

/-- `imageops::resize` gives a raster of the size that is asked for. -/
def Sized (tools : Tools) : Prop := ∀ r width height, (tools.resize r width height).size = (width, height)

/-- A small crop grows until its shorter edge has 28 pixels. -/
theorem enlarged_size {tools : Tools} (sized : Sized tools) (out : Raster) :
    (enlarged .exact tools out).size = enlargedSize out.size := by
  unfold enlarged enlargedSize
  show Raster.size (if min out.width out.height < 28 then _ else _) =
    if min out.width out.height < 28 then _ else _
  split
  · exact sized _ _ _
  · rfl

theorem padded_if (out : Raster) : padded .exact out = if Narrow out.size then
    overlay (fromPixel (max out.width out.height) (max out.width out.height) ⟨255, 255, 255⟩) out
      ((max out.width out.height - out.width) / 2) ((max out.width out.height - out.height) / 2)
    else out := by
  have same : Pads .exact out.width out.height ↔ Narrow out.size := by
    unfold Pads
    simp only [Rounding.exact_round]
    rw [gt_iff_lt, lt_div_iff₀ (by positivity)]
    exact_mod_cast Iff.rfl
  rw [padded, if_congr same rfl rfl]

/-- A narrow crop becomes a square on its longer edge. -/
theorem padded_size (out : Raster) : (padded .exact out).size = paddedSize out.size := by
  rw [padded_if, paddedSize]
  split <;> rfl

/-- A quarter turn swaps the edges. -/
theorem rotate_size (r : Raster) (angle : Option Rotation) :
    (rotate r angle).size = rotatedSize angle r.width r.height := by
  unfold rotate rotatedSize
  cases angle with
  | none => rfl
  | some turn => cases turn <;> rfl

/-! ## Where the image is -/

def Rect.Contains (r : Rect) (x y : Nat) : Prop := r.x0 ≤ x ∧ x < r.x1 ∧ r.y0 ≤ y ∧ y < r.y1

instance (r : Rect) (x y : Nat) : Decidable (r.Contains x y) :=
  inferInstanceAs (Decidable (_ ∧ _ ∧ _ ∧ _))

/-- The rounded box lies in the raw crop. -/
structure Rect.Within (r : Rect) (width height : Nat) : Prop where
  x : r.x0 ≤ r.x1
  y : r.y0 ≤ r.y1
  right : r.x1 ≤ width
  bottom : r.y1 ≤ height

/-- The color of the traces. -/
def trace : Rgb := ⟨1, 0, 0⟩

/-- The pixels of a rectangle in the color of the traces. -/
def traced (size : Nat × Nat) (r : Rect) : Raster :=
  Raster.ofPixels size.1 size.2 fun x y => if r.Contains x y then trace else default

/-- Every pixel of the new size is the one of the raster that it lies in. -/
def magnified (r : Raster) (width height : Nat) : Raster :=
  Raster.ofPixels width height fun i j => r.pixel (i * r.width / width) (j * r.height / height)

def tracing : Tools := ⟨magnified, fun _ _ _ _ _ _ state => .ok state⟩

/-- The pixels of the raw crop that lie in the rectangle, turned, enlarged and padded like the crop. -/
def shown (angle : Option Rotation) (size : Nat × Nat) (r : Rect) : Raster :=
  padded .exact (enlarged .exact tracing (rotate (traced size r) angle))

/-- The turned rectangle. -/
def turned (angle : Option Rotation) (size : Nat × Nat) (r : Rect) : Rect :=
  match angle with
  | some .deg90 => ⟨size.2 - r.y1, r.x0, size.2 - r.y0, r.x1⟩
  | some .deg180 => ⟨size.1 - r.x1, size.2 - r.y1, size.1 - r.x0, size.2 - r.y0⟩
  | some .deg270 => ⟨r.y0, size.1 - r.x1, r.y1, size.1 - r.x0⟩
  | _ => r

theorem subU32_ok {a b : Nat} (le : b ≤ a) : subU32 a b = .ok (a - b) := if_pos le

/-- No subtraction underflows. -/
theorem turnRect_ok (angle : Option Rotation) {width height : Nat} {r : Rect}
    (within : r.Within width height) :
    turnRect angle width height r = .ok (turned angle (width, height) r) := by
  obtain ⟨x, y, right, bottom⟩ := within
  unfold turnRect turned
  cases angle with
  | none => rfl
  | some turn =>
    cases turn with
    | deg0 => rfl
    | deg90 => rw [subU32_ok bottom, subU32_ok (y.trans bottom)]; rfl
    | deg180 =>
      rw [subU32_ok right, subU32_ok bottom, subU32_ok (x.trans right), subU32_ok (y.trans bottom)]
      rfl
    | deg270 => rw [subU32_ok right, subU32_ok (x.trans right)]; rfl

/-- A rectangle inside of the crop stays inside when both are turned. -/
theorem turned_within (angle : Option Rotation) {size : Nat × Nat} {r : Rect}
    (within : r.Within size.1 size.2) :
    (turned angle size r).Within (rotatedSize angle size.1 size.2).1 (rotatedSize angle size.1 size.2).2 := by
  obtain ⟨x, y, right, bottom⟩ := within
  unfold turned rotatedSize
  cases angle with
  | none => exact ⟨x, y, right, bottom⟩
  | some turn => cases turn <;> constructor <;> dsimp only <;> omega

theorem traced_inside {size : Nat × Nat} {r : Rect} {x y : Nat} (inside : x < size.1 ∧ y < size.2) :
    (traced size r).pixel x y = if r.Contains x y then trace else default :=
  ofPixels_inside inside

/-- The turned rectangle holds the pixels of the rectangle where `rotate` puts them. -/
theorem rotate_traced (angle : Option Rotation) {size : Nat × Nat} {r : Rect}
    (within : r.Within size.1 size.2) :
    rotate (traced size r) angle =
      traced (rotatedSize angle size.1 size.2) (turned angle size r) := by
  obtain ⟨-, -, right, bottom⟩ := within
  have agree {width height i j x y : Nat} {r' : Rect} (there : i < width ∧ j < height)
      (here : x < size.1 ∧ y < size.2) (same : r.Contains x y ↔ r'.Contains i j) :
      (traced size r).pixel x y = (traced (width, height) r').pixel i j := by
    rw [traced_inside here, traced_inside there, if_congr same rfl rfl]
  cases angle with
  | none => rfl
  | some turn =>
    cases turn with
    | deg0 => rfl
    | deg90 =>
      refine Raster.ext_inside rfl rfl fun x y inside => (ofPixels_inside inside).trans ?_
      have : x < size.2 ∧ y < size.1 := inside
      have here : y < size.1 ∧ size.2 - 1 - x < size.2 := by omega
      show (traced size r).pixel y (size.2 - 1 - x) = _
      refine agree this here ?_
      simp only [Rect.Contains, turned]
      omega
    | deg180 =>
      refine Raster.ext_inside rfl rfl fun x y inside => (ofPixels_inside inside).trans ?_
      have : x < size.1 ∧ y < size.2 := inside
      have here : size.1 - 1 - x < size.1 ∧ size.2 - 1 - y < size.2 := by omega
      show (traced size r).pixel (size.1 - 1 - x) (size.2 - 1 - y) = _
      refine agree this here ?_
      simp only [Rect.Contains, turned]
      omega
    | deg270 =>
      refine Raster.ext_inside rfl rfl fun x y inside => (ofPixels_inside inside).trans ?_
      have : x < size.2 ∧ y < size.1 := inside
      have here : size.1 - 1 - y < size.1 ∧ x < size.2 := by omega
      show (traced size r).pixel (size.1 - 1 - y) x = _
      refine agree this here ?_
      simp only [Rect.Contains, turned]
      omega

/-- A raster that is painted where the rectangle is, and nowhere else: its pixels are the
rectangle. -/
theorem traced_pixel {size : Nat × Nat} {r : Rect} (within : r.Within size.1 size.2) (x y : Nat) :
    (traced size r).pixel x y = trace ↔ r.Contains x y := by
  show (if x < size.1 ∧ y < size.2 then if r.Contains x y then trace else default else default) =
    trace ↔ _
  have other : (default : Rgb) ≠ trace := by decide
  obtain ⟨-, -, right, bottom⟩ := within
  split
  · split <;> simp [*]
  · rename_i out
    refine iff_of_false other fun ⟨_, _, _, _⟩ => out ?_
    omega

/-- The two axes of a crop with the turned rectangle. -/
def axisX (size : Nat × Nat) (t : Rect) : Axis :=
  ⟨size.1, (enlargedSize size).1, (paddedSize (enlargedSize size)).1, t.x0, t.x1⟩

def axisY (size : Nat × Nat) (t : Rect) : Axis :=
  ⟨size.2, (enlargedSize size).2, (paddedSize (enlargedSize size)).2, t.y0, t.y1⟩

/-- The enlarged trace shows the rectangle, each of its pixels as often as the crop was enlarged. -/
theorem enlarged_pixel {size : Nat × Nat} {t : Rect} (within : t.Within size.1 size.2)
    (wide : 0 < size.1) (high : 0 < size.2) (i j : Nat) :
    (enlarged .exact tracing (traced size t)).pixel i j = trace ↔
      i < (enlargedSize size).1 ∧ j < (enlargedSize size).2 ∧
        t.Contains (i * size.1 / (enlargedSize size).1) (j * size.2 / (enlargedSize size).2) := by
  unfold enlarged enlargedSize
  show (Raster.pixel (if min size.1 size.2 < 28 then _ else _) i j) = trace ↔ _
  split
  · have other : (default : Rgb) ≠ trace := by decide
    show (if _ ∧ _ then (traced size t).pixel _ _ else default) = trace ↔ _
    split
    · rename_i inside
      rw [traced_pixel within]
      exact ⟨fun held => ⟨inside.1, inside.2, held⟩, fun held => held.2.2⟩
    · rename_i out
      exact iff_of_false other fun held => out ⟨held.1, held.2.1⟩
  · rw [traced_pixel within, Nat.mul_div_cancel _ wide, Nat.mul_div_cancel _ high]
    obtain ⟨-, -, right, bottom⟩ := within
    unfold Rect.Contains
    omega

/-- The padded trace shows the rectangle in the middle of the square. -/
theorem padded_pixel (out : Raster) (i j : Nat) :
    (padded .exact out).pixel i j = trace ↔
      ((paddedSize out.size).1 - out.width) / 2 ≤ i ∧ ((paddedSize out.size).2 - out.height) / 2 ≤ j ∧
        i - ((paddedSize out.size).1 - out.width) / 2 < out.width ∧
        j - ((paddedSize out.size).2 - out.height) / 2 < out.height ∧
        out.pixel (i - ((paddedSize out.size).1 - out.width) / 2)
          (j - ((paddedSize out.size).2 - out.height) / 2) = trace := by
  have other : (default : Rgb) ≠ trace := by decide
  have white : (⟨255, 255, 255⟩ : Rgb) ≠ trace := by decide
  rw [padded_if, paddedSize]
  split
  · show (if _ ∧ _ then (if _ then out.pixel _ _ else if _ ∧ _ then _ else default) else default) =
      trace ↔ (max out.width out.height - out.width) / 2 ≤ i ∧
        (max out.width out.height - out.height) / 2 ≤ j ∧
          i - (max out.width out.height - out.width) / 2 < out.width ∧
          j - (max out.width out.height - out.height) / 2 < out.height ∧
          out.pixel (i - (max out.width out.height - out.width) / 2)
            (j - (max out.width out.height - out.height) / 2) = trace
    split
    · split
      · rename_i inner
        exact ⟨fun held => ⟨inner.1, inner.2.1, inner.2.2.1, inner.2.2.2, held⟩,
          fun held => held.2.2.2.2⟩
      · rename_i border
        refine iff_of_false ?_ fun held => border ⟨held.1, held.2.1, held.2.2.1, held.2.2.2.1⟩
        split
        · exact white
        · exact other
    · rename_i out
      refine iff_of_false other fun held => out ?_
      show i < max _ _ ∧ j < max _ _
      omega
  · show out.pixel i j = trace ↔ (out.width - out.width) / 2 ≤ i ∧ (out.height - out.height) / 2 ≤ j ∧
      i - (out.width - out.width) / 2 < out.width ∧ j - (out.height - out.height) / 2 < out.height ∧
        out.pixel (i - (out.width - out.width) / 2) (j - (out.height - out.height) / 2) = trace
    simp only [Nat.sub_self, Nat.zero_div, Nat.sub_zero, Nat.zero_le, true_and]
    refine ⟨fun held => ?_, fun held => held.2.2⟩
    have inside : i < out.width ∧ j < out.height :=
      by_contra fun outer => other ((out.outside i j outer).symm.trans held)
    exact ⟨inside.1, inside.2, held⟩

theorem tracing_sized : Sized tracing := fun _ _ _ => rfl

/-- All three together: the pixel of the final raster that shows a pixel of the image. -/
theorem shown_pixel (angle : Option Rotation) {size : Nat × Nat} {r : Rect}
    (within : r.Within size.1 size.2) (wide : 0 < (rotatedSize angle size.1 size.2).1)
    (high : 0 < (rotatedSize angle size.1 size.2).2) (i j : Nat) :
    (shown angle size r).pixel i j = trace ↔
      (axisX (rotatedSize angle size.1 size.2) (turned angle size r)).Shown i ∧
        (axisY (rotatedSize angle size.1 size.2) (turned angle size r)).Shown j := by
  have inner := turned_within angle within
  unfold shown
  rw [rotate_traced angle within, padded_pixel, enlarged_pixel inner wide high]
  generalize rotatedSize angle size.1 size.2 = turnedSize at *
  have isSize := enlarged_size tracing_sized (traced turnedSize (turned angle size r))
  have isWidth : (enlarged .exact tracing (traced turnedSize (turned angle size r))).width =
      (enlargedSize turnedSize).1 := congrArg Prod.fst isSize
  have isHeight : (enlarged .exact tracing (traced turnedSize (turned angle size r))).height =
      (enlargedSize turnedSize).2 := congrArg Prod.snd isSize
  rw [isWidth, isHeight, isSize]
  show _ ↔ Axis.Shown ⟨_, _, _, _, _⟩ i ∧ Axis.Shown ⟨_, _, _, _, _⟩ j
  unfold Axis.Shown Rect.Contains
  dsimp only [traced, Raster.ofPixels, Raster.size]
  tauto

/-! ## The painted rectangle -/

theorem enlargedSize_lt {size : Nat × Nat} (width : size.1 < 2 ^ 32) (height : size.2 < 2 ^ 32) :
    (enlargedSize size).1 < 2 ^ 32 ∧ (enlargedSize size).2 < 2 ^ 32 := by
  unfold enlargedSize
  split
  · exact ⟨asU32_lt _, asU32_lt _⟩
  · exact ⟨width, height⟩

theorem paddedSize_lt {size : Nat × Nat} (width : size.1 < 2 ^ 32) (height : size.2 < 2 ^ 32) :
    (paddedSize size).1 < 2 ^ 32 ∧ (paddedSize size).2 < 2 ^ 32 := by
  unfold paddedSize
  split
  · exact ⟨max_lt width height, max_lt width height⟩
  · exact ⟨width, height⟩

/-- No product saturates, and the minimum with the target changes nothing. -/
theorem scaleCoordinate_eq {value target source : Nat} (pos : 0 < source) (le : value ≤ source)
    (small : source < 2 ^ 32) (fits : target < 2 ^ 32) :
    scaleCoordinate value target source false = value * target / source ∧
      scaleCoordinate value target source true = (value * target + (source - 1)) / source := by
  have product : value * target ≤ (2 ^ 32 - 1) * (2 ^ 32 - 1) :=
    Nat.mul_le_mul (by omega) (by omega)
  have bounded : value * target ≤ target * source := by
    rw [mul_comm target]
    exact Nat.mul_le_mul_right target le
  have divisor : max source 1 = source := max_eq_left pos
  have room : value * target ≤ maxU64 := product.trans (by decide)
  have sum : value * target + (source - 1) ≤ maxU64 := by
    have : (2 ^ 32 - 1) * (2 ^ 32 - 1) + (2 ^ 32 - 1) ≤ maxU64 := by decide
    omega
  unfold scaleCoordinate
  simp only [divisor, if_pos room, Bool.false_eq_true, if_false, if_true, min_eq_left sum]
  constructor
  · exact min_eq_left ((Nat.div_le_div_right bounded).trans_eq (Nat.mul_div_cancel _ pos))
  · refine min_eq_left (Nat.le_of_lt_succ ((Nat.div_lt_iff_lt_mul pos).mpr ?_))
    rw [Nat.succ_mul]
    omega

/-- A rectangle of a crop, scaled to another size. -/
def scaledRect (source target : Nat × Nat) (t : Rect) : Rect where
  x0 := scaleCoordinate t.x0 target.1 source.1 false
  y0 := scaleCoordinate t.y0 target.2 source.2 false
  x1 := scaleCoordinate t.x1 target.1 source.1 true
  y1 := scaleCoordinate t.y1 target.2 source.2 true

/-- The rectangle of an image that is painted over, as the pixels of the two axes. -/
theorem maskRect_ok (angle : Option Rotation) {raw masked : Raster} {r : Rect}
    (within : r.Within raw.width raw.height) (wide : 0 < raw.width) (high : 0 < raw.height)
    (width : raw.width < 2 ^ 32) (height : raw.height < 2 ^ 32)
    (size : masked.size = paddedSize (enlargedSize (rotatedSize angle raw.width raw.height))) :
    ∃ p, maskRect angle raw masked r = .ok p ∧ p.x1 ≤ masked.width ∧ p.y1 ≤ masked.height ∧
      ∀ i j, p.Contains i j ↔
        (axisX (rotatedSize angle raw.width raw.height) (turned angle raw.size r)).Painted i ∧
          (axisY (rotatedSize angle raw.width raw.height) (turned angle raw.size r)).Painted j := by
  have inner : (turned angle raw.size r).Within (rotatedSize angle raw.width raw.height).1
      (rotatedSize angle raw.width raw.height).2 := turned_within angle within
  have turnedOk := turnRect_ok angle within
  have turnedWide : 0 < (rotatedSize angle raw.width raw.height).1 ∧
      0 < (rotatedSize angle raw.width raw.height).2 ∧
      (rotatedSize angle raw.width raw.height).1 < 2 ^ 32 ∧
      (rotatedSize angle raw.width raw.height).2 < 2 ^ 32 := by
    unfold rotatedSize
    split <;> exact ⟨‹_›, ‹_›, ‹_›, ‹_›⟩
  have masksTo : maskRect angle raw masked r =
      .ok (scaledRect (rotatedSize angle raw.width raw.height) masked.size (turned angle raw.size r)) := by
    unfold maskRect
    rw [turnedOk]
    rfl
  refine ⟨_, masksTo, min_le_right _ _, min_le_right _ _, fun i j => ?_⟩
  obtain ⟨wide, high, width, height⟩ := turnedWide
  generalize rotatedSize angle raw.width raw.height = turnedSize at *
  obtain ⟨x, y, right, bottom⟩ := inner
  obtain ⟨enlargedWidth, enlargedHeight⟩ := enlargedSize_lt width height
  obtain ⟨fitsX, fitsY⟩ := paddedSize_lt enlargedWidth enlargedHeight
  show _ ↔ Axis.Painted ⟨_, _, _, _, _⟩ i ∧ Axis.Painted ⟨_, _, _, _, _⟩ j
  rw [size]
  unfold Rect.Contains Axis.Painted scaledRect
  dsimp only
  rw [(scaleCoordinate_eq wide (x.trans right) width fitsX).1,
    (scaleCoordinate_eq wide right width fitsX).2, (scaleCoordinate_eq high (y.trans bottom) height fitsY).1,
    (scaleCoordinate_eq high bottom height fitsY).2]
  tauto

/-! ## The crops -/

/-- The upper edge of a box is rounded to a pixel behind the lower one, and inside of the page. -/
theorem endPixel_exact {edge : Rat} {size start stop : Nat} (fits : size < 2 ^ 32)
    (h : endPixel .exact edge size start = .ok stop) : start < stop ∧ stop ≤ size := by
  obtain ⟨-, q, rfl, low, high⟩ := endPixel_eq h
  rw [Rounding.exact_round] at low high
  have within : start + 1 ≤ size := by exact_mod_cast low.trans high
  exact ⟨asU32_ge low (by omega), asU32_le high⟩

/-- Both crops are of the same part of the page, which has a pixel. -/
theorem crops_eq {tools : Tools} {page raw masked : Raster} {bbox : NormalizedBbox}
    {angle : Option Rotation} (width : page.width < 2 ^ 32) (height : page.height < 2 ^ 32)
    (isRaw : rawCrop .exact page bbox none = .ok raw)
    (isMasked : crop .exact tools page bbox angle = .ok masked) :
    masked = padded .exact (enlarged .exact tools (rotate raw angle)) ∧ 0 < raw.width ∧ 0 < raw.height ∧
      raw.width < 2 ^ 32 ∧ raw.height < 2 ^ 32 := by
  obtain ⟨⟨x, y, cropWidth, cropHeight⟩, bounds, h⟩ := bind_ok isRaw
  cases h
  unfold crop at isMasked
  rw [bounds] at isMasked
  cases isMasked
  obtain ⟨x', -, h⟩ := bind_ok bounds
  obtain ⟨y', -, h⟩ := bind_ok h
  obtain ⟨right, isRight, h⟩ := bind_ok h
  obtain ⟨bottom, isBottom, h⟩ := bind_ok h
  obtain ⟨width', isWidth, h⟩ := bind_ok h
  obtain ⟨height', isHeight, h⟩ := bind_ok h
  cases h
  have acrossX := endPixel_exact width isRight
  have acrossY := endPixel_exact height isBottom
  have sizeX := subU32_eq isWidth
  have sizeY := subU32_eq isHeight
  refine ⟨rfl, ?_⟩
  show 0 < min cropWidth (page.width - min x page.width) ∧
    0 < min cropHeight (page.height - min y page.height) ∧
    min cropWidth (page.width - min x page.width) < 2 ^ 32 ∧
    min cropHeight (page.height - min y page.height) < 2 ^ 32
  omega

/-! ## Painting -/

/-- No turn of a painting fails. -/
abbrev Paints (x : Checked VlmError Raster) (P : Raster → Prop) : Prop := EnsuresOr (fun _ => False) x P

/-- The rectangle has the color, and nothing else has changed. -/
def Filled (r : Rect) (color : Rgb) (before after : Raster) : Prop :=
  after.size = before.size ∧
    ∀ i j, after.pixel i j = if r.Contains i j then color else before.pixel i j

theorem putPixel_filled {image : Raster} {x y : Nat} (color : Rgb) (inX : x < image.width)
    (inY : y < image.height) :
    Paints (putPixel image x y color) (Filled ⟨x, y, x + 1, y + 1⟩ color image) := by
  rw [Paints, putPixel, if_pos ⟨inX, inY⟩]
  refine ⟨rfl, fun i j => ?_⟩
  have one : Rect.Contains ⟨x, y, x + 1, y + 1⟩ i j ↔ i = x ∧ j = y := by
    simp only [Rect.Contains]
    omega
  rw [if_congr one rfl rfl]
  show (if _ then _ else _) = _
  split
  · rfl
  · rename_i out
    rw [if_neg (by rintro ⟨rfl, rfl⟩; exact out ⟨inX, inY⟩), image.outside i j out]

/-- Two rectangles side by side make one. -/
theorem Filled.join {r s t : Rect} {color : Rgb} {a b c : Raster} (first : Filled r color a b)
    (second : Filled s color b c) (union : ∀ i j, t.Contains i j ↔ r.Contains i j ∨ s.Contains i j) :
    Filled t color a c := by
  refine ⟨second.1.trans first.1, fun i j => ?_⟩
  rw [second.2, first.2, if_congr (union i j) rfl rfl]
  by_cases inR : r.Contains i j <;> by_cases inS : s.Contains i j <;> simp [inR, inS]

theorem Filled.nothing (r : Rect) (color : Rgb) (image : Raster) (none : ∀ i j, ¬ r.Contains i j) :
    Filled r color image image :=
  ⟨rfl, fun i j => (if_neg (none i j)).symm⟩

/-- The inner loop fills a row, by induction on its length. -/
theorem fillRow_filled (color : Rgb) {y : Nat} (n : Nat) {x : Nat} {image : Raster}
    (inX : x + n ≤ image.width) (inY : y < image.height) :
    Paints ((List.range' x n).foldlM (fun image x => putPixel image x y color) image)
      (Filled ⟨x, y, x + n, y + 1⟩ color image) := by
  induction n generalizing x image with
  | zero =>
    refine Filled.nothing _ color image fun i j => ?_
    simp only [Rect.Contains]
    omega
  | succ n ih =>
    rw [List.range'_succ, List.foldlM_cons]
    refine (putPixel_filled color (by omega) inY).bind fun next first => ?_
    have width : next.width = image.width := congrArg Prod.fst first.1
    have height : next.height = image.height := congrArg Prod.snd first.1
    refine (ih (by omega) (by omega)).weaken fun last rest => first.join rest fun i j => ?_
    simp only [Rect.Contains]
    omega

/-- The outer loop fills the rectangle. -/
theorem fill_filled (color : Rgb) {r : Rect} (n : Nat) {y : Nat} {image : Raster}
    (order : r.x0 ≤ r.x1) (inX : r.x1 ≤ image.width) (inY : y + n ≤ image.height) :
    Paints ((List.range' y n).foldlM (fillRow r color) image)
      (Filled ⟨r.x0, y, r.x1, y + n⟩ color image) := by
  induction n generalizing y image with
  | zero =>
    refine Filled.nothing _ color image fun i j => ?_
    simp only [Rect.Contains]
    omega
  | succ n ih =>
    rw [List.range'_succ, List.foldlM_cons]
    have row : Paints (fillRow r color image y) _ :=
      fillRow_filled color (r.x1 - r.x0) (by omega) (by omega)
    refine row.bind fun next first => ?_
    have width : next.width = image.width := congrArg Prod.fst first.1
    have height : next.height = image.height := congrArg Prod.snd first.1
    refine (ih (by omega) (by omega)).weaken fun last rest => first.join rest fun i j => ?_
    simp only [Rect.Contains]
    omega

/-- Pixels of the rectangle may have become black. -/
def Blackened (r : Rect) (before after : Raster) : Prop :=
  after.size = before.size ∧ ∀ i j, after.pixel i j = before.pixel i j ∨
    (r.Contains i j ∧ after.pixel i j = ⟨0, 0, 0⟩)

section

variable {r : Rect} {before image : Raster}

/-- A dot of a glyph stays inside of the rectangle, where everything may be overpainted. -/
theorem paintDot_blackened {x y : Nat} (scale : Nat) (right : r.x1 ≤ before.width)
    (bottom : r.y1 ≤ before.height) (fromX : r.x0 ≤ x) (fromY : r.y0 ≤ y)
    (black : Blackened r before image) : Paints (paintDot r scale x y image) (Blackened r before) := by
  refine EnsuresOr.foldlM black fun image dy _ black => EnsuresOr.foldlM black fun image dx _ black => ?_
  split
  · rename_i inside
    have width : image.width = before.width := congrArg Prod.fst black.1
    have height : image.height = before.height := congrArg Prod.snd black.1
    refine (putPixel_filled ⟨0, 0, 0⟩ (by omega) (by omega)).weaken fun after dot => ?_
    refine ⟨dot.1.trans black.1, fun i j => ?_⟩
    rw [dot.2]
    split
    · rename_i here
      refine .inr ⟨?_, rfl⟩
      simp only [Rect.Contains] at here ⊢
      omega
    · exact black.2 i j
  · exact black

theorem paintGlyph_blackened {x y : Nat} (scale : Nat) (ch : Char) (right : r.x1 ≤ before.width)
    (bottom : r.y1 ≤ before.height) (fromX : r.x0 ≤ x) (fromY : r.y0 ≤ y)
    (black : Blackened r before image) :
    Paints (paintGlyph r scale x y ch image) (Blackened r before) := by
  unfold paintGlyph
  split
  · refine EnsuresOr.foldlM black fun image row _ black => EnsuresOr.foldlM black fun image col _ black => ?_
    split
    · exact paintDot_blackened scale right bottom (by omega) (by omega) black
    · exact black
  · exact black

/-- The token is written inside of the rectangle as well, whatever its text. -/
theorem paintToken_blackened (token : Text) (right : r.x1 ≤ before.width)
    (bottom : r.y1 ≤ before.height) (black : Blackened r before image) :
    Paints (paintToken r token image) (Blackened r before) := by
  unfold paintToken
  dsimp only
  refine EnsuresOr.foldlM black fun image ch _ black => ?_
  exact paintGlyph_blackened _ _ right bottom (by omega) (by omega) black

end

theorem Paints.ok {x : Checked VlmError Raster} {P : Raster → Prop} (h : Paints x P) :
    ∃ a, x = .ok a ∧ P a := by
  rcases x with (_ | _) | a
  · exact absurd h id
  · exact absurd h id
  · exact ⟨a, rfl, h⟩

section

variable {jpegDataUrl : Raster → Checked VlmError Text} {page rawTable masked : Raster}
  {table : NormalizedBbox} {angle : Option Rotation} {image : NormalizedBbox × Option Rotation}
  {source : Raster} {url : Text} {p : Rect}

/-- The turn of the loop when the crop, its encoding and the rectangle are there. -/
theorem absorbImage_eq (n : Nat) (map : List (Text × Value))
    (isSource : rawCrop .exact page image.1 image.2 = .ok source) (isUrl : jpegDataUrl source = .ok url)
    (isMask : maskRect angle rawTable masked (rawRect .exact table image.1 rawTable.width rawTable.height) = .ok p) :
    absorbImage .exact jpegDataUrl page table angle rawTable n image (masked, map) =
      if p.x1 ≤ p.x0 ∨ p.y1 ≤ p.y0 then .ok (masked, Value.insert (token n) (.string url) map)
      else do
        let masked ← fill p (average source) masked
        let masked ← paintToken p (token n) masked
        return (masked, Value.insert (token n) (.string url) map) := by
  unfold absorbImage
  dsimp only
  rw [isSource]
  simp only [bind, Except.bind]
  rw [isUrl]
  dsimp only
  rw [isMask]
  rfl

/-- Inside of the rectangle everything is of the color or black, and outside nothing has changed. -/
structure PaintedOver (before after : Raster) (p : Rect) (color : Rgb) : Prop where
  size : after.size = before.size
  inside : ∀ i j, p.Contains i j → after.pixel i j = color ∨ after.pixel i j = ⟨0, 0, 0⟩
  outside : ∀ i j, ¬ p.Contains i j → after.pixel i j = before.pixel i j

/-- A turn of the loop changes no pixel outside of the painted rectangle, and leaves nothing of what was
inside. -/
theorem absorbImage_paints (n : Nat) (map : List (Text × Value))
    (isSource : rawCrop .exact page image.1 image.2 = .ok source) (isUrl : jpegDataUrl source = .ok url)
    (isMask : maskRect angle rawTable masked (rawRect .exact table image.1 rawTable.width rawTable.height) = .ok p)
    (right : p.x1 ≤ masked.width) (bottom : p.y1 ≤ masked.height) :
    ∃ after, absorbImage .exact jpegDataUrl page table angle rawTable n image (masked, map) =
        .ok (after, Value.insert (token n) (.string url) map) ∧
      PaintedOver masked after p (average source) := by
  rw [absorbImage_eq n map isSource isUrl isMask]
  by_cases empty : p.x1 ≤ p.x0 ∨ p.y1 ≤ p.y0
  · refine ⟨masked, if_pos empty, rfl, fun i j inside => ?_, fun _ _ _ => rfl⟩
    unfold Rect.Contains at inside
    omega
  · have painting : Paints (fill p (average source) masked) _ :=
      fill_filled (average source) (p.y1 - p.y0) (by omega) right (by omega)
    obtain ⟨filledImage, isFill, filled⟩ := painting.ok
    have width : filledImage.width = masked.width := congrArg Prod.fst filled.1
    have height : filledImage.height = masked.height := congrArg Prod.snd filled.1
    have writing : Paints (paintToken p (token n) filledImage) (Blackened p filledImage) :=
      paintToken_blackened (token n) (width ▸ right) (height ▸ bottom) ⟨rfl, fun _ _ => .inl rfl⟩
    obtain ⟨after, isToken, black⟩ := writing.ok
    have same (i j : Nat) : Rect.Contains ⟨p.x0, p.y0, p.x1, p.y0 + (p.y1 - p.y0)⟩ i j ↔ p.Contains i j := by
      simp only [Rect.Contains]
      omega
    rw [if_neg empty, isFill]
    refine ⟨after, ?_, black.1.trans filled.1, fun i j inside => ?_, fun i j outside => ?_⟩
    · show (paintToken p (token n) filledImage >>= _) = _
      rw [isToken]
      rfl
    · rcases black.2 i j with kept | ⟨-, isBlack⟩
      · exact .inl (kept.trans ((filled.2 i j).trans (if_pos ((same i j).mpr inside))))
      · exact .inr isBlack
    · rcases black.2 i j with kept | ⟨inside, -⟩
      · exact kept.trans ((filled.2 i j).trans (if_neg (mt (same i j).mp outside)))
      · exact absurd inside outside

end

/-! ## The loop -/

/-- The rectangle of the mask is computed from sizes only. -/
theorem maskRect_size (angle : Option Rotation) (raw : Raster) {a b : Raster} (same : a.size = b.size)
    (r : Rect) : maskRect angle raw a r = maskRect angle raw b r := by
  have width : a.width = b.width := congrArg Prod.fst same
  have height : a.height = b.height := congrArg Prod.snd same
  unfold maskRect
  rw [width, height]

/-- What the loop needs of an image: its crop, the encoding of it, and a box inside of the table. -/
structure Absorbable (jpegDataUrl : Raster → Checked VlmError Text) (page raw : Raster)
    (table : NormalizedBbox) (image : NormalizedBbox × Option Rotation) : Prop where
  encoded : ∃ source url, rawCrop .exact page image.1 image.2 = .ok source ∧ jpegDataUrl source = .ok url
  within : (rawRect .exact table image.1 raw.width raw.height).Within raw.width raw.height

/-- The loop over the images does not panic, and it changes no pixel outside of their rectangles. -/
theorem absorbed_paint {jpegDataUrl : Raster → Checked VlmError Text} {page raw : Raster}
    {table : NormalizedBbox} {angle : Option Rotation} (wide : 0 < raw.width) (high : 0 < raw.height)
    (width : raw.width < 2 ^ 32) (height : raw.height < 2 ^ 32)
    (images : List (NormalizedBbox × Option Rotation))
    (absorbable : ∀ image ∈ images, Absorbable jpegDataUrl page raw table image) (n : Nat)
    {masked : Raster} (map : List (Text × Value))
    (size : masked.size = paddedSize (enlargedSize (rotatedSize angle raw.width raw.height))) :
    ∃ after entries, (images.zipIdx n).foldlM (fun state entry =>
        absorbImage .exact jpegDataUrl page table angle raw entry.2 entry.1 state) (masked, map) =
          .ok (after, entries) ∧ after.size = masked.size ∧
      ∀ i j, (∀ image ∈ images, ∀ p,
        maskRect angle raw masked (rawRect .exact table image.1 raw.width raw.height) = .ok p → ¬ p.Contains i j) →
          after.pixel i j = masked.pixel i j := by
  induction images generalizing n masked map with
  | nil => exact ⟨masked, map, rfl, rfl, fun _ _ _ => rfl⟩
  | cons image images ih =>
    obtain ⟨⟨source, url, isSource, isUrl⟩, within⟩ := absorbable image List.mem_cons_self
    obtain ⟨p, isMask, right, bottom, -⟩ := maskRect_ok angle within wide high width height size
    obtain ⟨next, turn, sameSize, -, pixels⟩ :=
      absorbImage_paints n map isSource isUrl isMask right bottom
    obtain ⟨after, entries, run, lastSize, others⟩ :=
      ih (fun image mem => absorbable image (List.mem_cons_of_mem _ mem)) (n + 1)
        (Value.insert (token n) (.string url) map) (sameSize.trans size)
    refine ⟨after, entries, ?_, lastSize.trans sameSize, fun i j outside => ?_⟩
    · rw [List.zipIdx_cons, List.foldlM_cons, turn]
      exact run
    · have rest : ∀ image ∈ images, ∀ p, maskRect angle raw next
          (rawRect .exact table image.1 raw.width raw.height) = .ok p → ¬ p.Contains i j := by
        intro image mem p isMask
        rw [maskRect_size angle raw sameSize] at isMask
        exact outside image (List.mem_cons_of_mem _ mem) p isMask
      exact (others i j rest).trans (pixels i j (outside image List.mem_cons_self p isMask))

/-- The masked crop of a table is its crop but for the rectangles of its images. -/
theorem mask_paints {resize : Raster → Nat → Nat → Raster} {jpegDataUrl : Raster → Checked VlmError Text}
    (sized : Sized (maskTools .exact resize jpegDataUrl)) {page raw masked : Raster} {table : NormalizedBbox}
    {angle : Option Rotation} (width : page.width < 2 ^ 32) (height : page.height < 2 ^ 32)
    (isRaw : rawCrop .exact page table none = .ok raw)
    (isMasked : crop .exact (maskTools .exact resize jpegDataUrl) page table angle = .ok masked)
    {images : List (NormalizedBbox × Option Rotation)}
    (absorbable : ∀ image ∈ images, Absorbable jpegDataUrl page raw table image) :
    ∃ after entries, maskAndEncodeTableImage .exact (maskTools .exact resize jpegDataUrl) page table angle images =
        .ok (after, entries) ∧ after.size = masked.size ∧
      ∀ i j, (∀ image ∈ images, ∀ p,
        maskRect angle raw masked (rawRect .exact table image.1 raw.width raw.height) = .ok p → ¬ p.Contains i j) →
          after.pixel i j = masked.pixel i j := by
  obtain ⟨isPadded, wide, high, fitsX, fitsY⟩ := crops_eq width height isRaw isMasked
  have size : masked.size = paddedSize (enlargedSize (rotatedSize angle raw.width raw.height)) := by
    rw [isPadded, padded_size, enlarged_size sized, rotate_size]
  obtain ⟨after, entries, run, painted⟩ :=
    absorbed_paint wide high fitsX fitsY images absorbable 0 [] size
  refine ⟨after, entries, ?_, painted⟩
  unfold maskAndEncodeTableImage
  rw [isRaw, isMasked]
  exact run

/-! ## When the mask covers the image -/

/-- What is promised of the rectangle of an image: it is painted inside of the masked crop; on a crop
that is not resized it is where the image is, and on one that is resized by a whole number it includes
where the image is. -/
structure Covers (angle : Option Rotation) (raw masked : Raster) (r : Rect) : Prop where
  safe : ∃ p, maskRect angle raw masked r = .ok p ∧ p.x1 ≤ masked.width ∧ p.y1 ≤ masked.height
  exact : ¬ min raw.width raw.height < 28 → ∀ p, maskRect angle raw masked r = .ok p →
    ∀ i j, p.Contains i j ↔ (shown angle raw.size r).pixel i j = trace
  scaled : min raw.width raw.height < 28 → (∃ k l, enlargedSize (rotate raw angle).size =
      (k * (rotate raw angle).width, l * (rotate raw angle).height)) →
    ∀ p, maskRect angle raw masked r = .ok p →
      ∀ i j, (shown angle raw.size r).pixel i j = trace → p.Contains i j

/-- On a crop with a short axis that is padded: nothing of the image is there and nothing is painted, or
the image reaches over the middle of the axis. -/
def ReachesMiddle (resized : Prop) (short long : Axis) : Prop :=
  (¬ resized → long.a = long.b ∨ (short.a = short.b ∧ short.n ∣ short.a * short.side)) ∧
    (resized → short.n ∣ short.e → long.n ∣ long.e →
      long.a = long.b ∨ short.a = short.b ∨ (2 * short.a ≤ short.n ∧ short.n ≤ 2 * short.b))

/-- The crop is not padded, or the image reaches over the middle of its short axis. -/
def Centered (angle : Option Rotation) (raw : Raster) (r : Rect) : Prop :=
  let size := rotatedSize angle raw.width raw.height
  let t := turned angle raw.size r
  let resized := min raw.width raw.height < 28
  Narrow (enlargedSize size) →
    if (enlargedSize size).1 < (enlargedSize size).2 then
      ReachesMiddle resized (axisX size t) (axisY size t)
    else ReachesMiddle resized (axisY size t) (axisX size t)

/-- The two promises on the pixels of the axes. -/
structure Kept (resized : Prop) (x y : Axis) : Prop where
  exact : ¬ resized → ∀ i j, x.Painted i ∧ y.Painted j ↔ x.Shown i ∧ y.Shown j
  scaled : resized → x.n ∣ x.e → y.n ∣ y.e → ∀ i j, x.Shown i ∧ y.Shown j → x.Painted i ∧ y.Painted j

theorem Kept.swap {resized : Prop} {x y : Axis} (kept : Kept resized x y) : Kept resized y x where
  exact plain i j := and_comm.trans ((kept.exact plain j i).trans and_comm)
  scaled small n m i j held := (kept.scaled small m n j i held.symm).symm

/-- An axis of the crop, before its side is known. -/
structure Axis.Sound (resized : Prop) (x : Axis) : Prop where
  pos : 0 < x.n
  filled : 0 < x.e
  same : ¬ resized → x.e = x.n
  ordered : x.a ≤ x.b
  within : x.b ≤ x.n

theorem Axis.Sound.plain {resized : Prop} {x : Axis} (sound : x.Sound resized) (plain : ¬ resized) :
    x.Whole 1 :=
  ⟨sound.pos, Nat.one_pos, by rw [sound.same plain, Nat.one_mul], sound.ordered, sound.within⟩

/-- A crop that divides the enlarged edge is enlarged by a whole number. -/
theorem Axis.Sound.whole {resized : Prop} {x : Axis} (sound : x.Sound resized) (divides : x.n ∣ x.e) :
    ∃ k, x.Whole k := by
  obtain ⟨k, enlarged⟩ := divides
  have factor : 0 < k := Nat.pos_of_ne_zero fun zero => by
    have := sound.filled
    rw [enlarged, zero] at this
    omega
  exact ⟨k, sound.pos, factor, enlarged.trans (mul_comm _ _), sound.ordered, sound.within⟩

/-- Without padding the mask meets the image on each axis, and so on both. -/
theorem kept_unpadded {resized : Prop} {x y : Axis} (soundX : x.Sound resized) (soundY : y.Sound resized)
    (sideX : x.side = x.e) (sideY : y.side = y.e) : Kept resized x y where
  exact plain i j := and_congr ((soundX.plain plain).painted_iff sideX i)
    ((soundY.plain plain).painted_iff sideY j)
  scaled _ dividesX dividesY i j held := by
    obtain ⟨k, wholeX⟩ := soundX.whole dividesX
    obtain ⟨l, wholeY⟩ := soundY.whole dividesY
    exact ⟨(wholeX.painted_iff sideX i).mpr held.1, (wholeY.painted_iff sideY j).mpr held.2⟩

/-- With a padded short axis the promises are kept exactly if the image reaches over its middle. -/
theorem kept_padded_iff {resized : Prop} {short long : Axis} (soundS : short.Sound resized)
    (soundL : long.Sound resized) (padded : 50 * short.e < short.side) (side : long.side = long.e) :
    Kept resized short long ↔ ReachesMiddle resized short long := by
  have empty {k : Nat} (whole : long.Whole k) : long.a = long.b ↔ ∀ j, ¬ long.Shown j := by
    rw [← not_exists, whole.shown_some]
    have := whole.ordered
    omega
  constructor
  · intro kept
    constructor
    · intro plain
      have wholeL := soundL.plain plain
      rw [empty wholeL, ← (soundS.plain plain).equal_iff padded]
      by_cases some : ∃ j, long.Shown j
      · obtain ⟨j, there⟩ := some
        refine .inr fun i => ⟨fun painted => ?_, fun shown => ?_⟩
        · exact ((kept.exact plain i j).mp ⟨painted, (wholeL.painted_iff side j).mpr there⟩).1
        · exact ((kept.exact plain i j).mpr ⟨shown, there⟩).1
      · exact .inl (not_exists.mp some)
    · intro small dividesS dividesL
      obtain ⟨k, wholeS⟩ := soundS.whole dividesS
      obtain ⟨l, wholeL⟩ := soundL.whole dividesL
      rw [empty wholeL, ← wholeS.covers_iff padded]
      by_cases some : ∃ j, long.Shown j
      · obtain ⟨j, there⟩ := some
        exact .inr fun i shown => (kept.scaled small dividesS dividesL i j ⟨shown, there⟩).1
      · exact .inl (not_exists.mp some)
  · intro reaches
    constructor
    · intro plain i j
      have wholeL := soundL.plain plain
      rw [wholeL.painted_iff side]
      refine and_congr_left fun there => ?_
      rcases reaches.1 plain with none | none
      · exact absurd there ((empty wholeL).mp none j)
      · exact ((soundS.plain plain).equal_iff padded).mpr none i
    · intro small dividesS dividesL i j held
      obtain ⟨k, wholeS⟩ := soundS.whole dividesS
      obtain ⟨l, wholeL⟩ := soundL.whole dividesL
      rcases reaches.2 small dividesS dividesL with none | middle
      · exact absurd held.2 ((empty wholeL).mp none j)
      · exact ⟨(wholeS.covers_iff padded).mpr middle i held.1, (wholeL.painted_iff side j).mpr held.2⟩

/-! ## The crop of a table -/

theorem enlargedSize_pos {size : Nat × Nat} (wide : 0 < size.1) (high : 0 < size.2) :
    0 < (enlargedSize size).1 ∧ 0 < (enlargedSize size).2 := by
  unfold enlargedSize minEdgeDimensions
  split
  · have positive {n : Nat} (pos : 0 < n) :
        0 < asU32 ⌈(n : Rat) * (((28 : Nat) : Rat) / (max (min size.1 size.2) 1 : Nat))⌉ := by
      have ceil : (0 : Rat) < n * (((28 : Nat) : Rat) / (max (min size.1 size.2) 1 : Nat)) := by positivity
      refine asU32_ge ?_ (by decide)
      exact_mod_cast Int.one_le_ceil_iff.mpr ceil
    exact ⟨positive wide, positive high⟩
  · exact ⟨wide, high⟩

/-- A turn leaves the shorter edge as it is, so whether a crop is enlarged does not depend on the
angle. -/
theorem min_rotatedSize (angle : Option Rotation) (width height : Nat) :
    min (rotatedSize angle width height).1 (rotatedSize angle width height).2 = min width height := by
  unfold rotatedSize
  split
  · exact min_comm _ _
  · exact min_comm _ _
  · rfl

theorem rotatedSize_pos (angle : Option Rotation) {width height : Nat} (wide : 0 < width)
    (high : 0 < height) :
    0 < (rotatedSize angle width height).1 ∧ 0 < (rotatedSize angle width height).2 := by
  unfold rotatedSize
  split <;> exact ⟨‹_›, ‹_›⟩

/-- Both axes of a real crop satisfy what the lemmas about one axis assume. -/
theorem axes_sound (angle : Option Rotation) {raw : Raster} {r : Rect}
    (within : r.Within raw.width raw.height) (wide : 0 < raw.width) (high : 0 < raw.height) :
    (axisX (rotatedSize angle raw.width raw.height) (turned angle raw.size r)).Sound
        (min raw.width raw.height < 28) ∧
      (axisY (rotatedSize angle raw.width raw.height) (turned angle raw.size r)).Sound
        (min raw.width raw.height < 28) := by
  have inner : (turned angle raw.size r).Within (rotatedSize angle raw.width raw.height).1
      (rotatedSize angle raw.width raw.height).2 := turned_within angle within
  obtain ⟨turnedWide, turnedHigh⟩ := rotatedSize_pos angle wide high
  obtain ⟨filledX, filledY⟩ := enlargedSize_pos turnedWide turnedHigh
  have same (plain : ¬ min raw.width raw.height < 28) :
      enlargedSize (rotatedSize angle raw.width raw.height) = rotatedSize angle raw.width raw.height := by
    rw [enlargedSize, min_rotatedSize, if_neg plain]
  exact ⟨⟨turnedWide, filledX, fun plain => congrArg Prod.fst (same plain), inner.x, inner.right⟩,
    turnedHigh, filledY, fun plain => congrArg Prod.snd (same plain), inner.y, inner.bottom⟩

/-- The promises on the axes are kept exactly if the crop is not padded, or the image reaches over the
middle. -/
theorem kept_iff (angle : Option Rotation) {raw : Raster} {r : Rect}
    (within : r.Within raw.width raw.height) (wide : 0 < raw.width) (high : 0 < raw.height) :
    Kept (min raw.width raw.height < 28)
        (axisX (rotatedSize angle raw.width raw.height) (turned angle raw.size r))
        (axisY (rotatedSize angle raw.width raw.height) (turned angle raw.size r)) ↔
      Centered angle raw r := by
  obtain ⟨soundX, soundY⟩ := axes_sound angle within wide high
  unfold Centered
  dsimp only
  by_cases narrow : Narrow (enlargedSize (rotatedSize angle raw.width raw.height))
  · have side : paddedSize (enlargedSize (rotatedSize angle raw.width raw.height)) = _ := if_pos narrow
    rw [imp_iff_right narrow]
    unfold Narrow at narrow
    split
    · rename_i lt
      have long : max (enlargedSize (rotatedSize angle raw.width raw.height)).1
        (enlargedSize (rotatedSize angle raw.width raw.height)).2 = _ := max_eq_right lt.le
      refine kept_padded_iff soundX soundY ?_ ((congrArg Prod.snd side).trans long)
      show 50 * (enlargedSize _).1 < (paddedSize _).1
      rw [side]
      omega
    · rename_i le
      have long : max (enlargedSize (rotatedSize angle raw.width raw.height)).1
        (enlargedSize (rotatedSize angle raw.width raw.height)).2 = _ := max_eq_left (not_lt.mp le)
      have padded := kept_padded_iff soundY soundX (by
        show 50 * (enlargedSize _).2 < (paddedSize _).2
        rw [side]
        omega) ((congrArg Prod.fst side).trans long)
      exact ⟨fun kept => padded.mp kept.swap, fun reaches => (padded.mpr reaches).swap⟩
  · have side : paddedSize (enlargedSize (rotatedSize angle raw.width raw.height)) = _ := if_neg narrow
    exact iff_of_true (kept_unpadded soundX soundY (congrArg Prod.fst side) (congrArg Prod.snd side))
      fun padded => absurd padded narrow

/-- The turn of the loop for an image, with any encoder of its crop, paints over the rectangle that
`maskRect` gives and nothing else. This rectangle keeps its promises exactly if the crop of the table is
not padded, or the image reaches over the middle of its short axis. -/
theorem mask_covers_iff {tools : Tools} (sized : Sized tools) {page raw masked : Raster}
    {bbox : NormalizedBbox} {angle : Option Rotation} (width : page.width < 2 ^ 32)
    (height : page.height < 2 ^ 32) (isRaw : rawCrop .exact page bbox none = .ok raw)
    (isMasked : crop .exact tools page bbox angle = .ok masked) {image : NormalizedBbox}
    (within : (rawRect .exact bbox image raw.width raw.height).Within raw.width raw.height) :
    (∀ (jpegDataUrl : Raster → Checked VlmError Text) (turn : Option Rotation) (n : Nat)
        (map : List (Text × Value)) (source : Raster) (url : Text),
      rawCrop .exact page image turn = .ok source → jpegDataUrl source = .ok url →
        ∃ p after, maskRect angle raw masked (rawRect .exact bbox image raw.width raw.height) = .ok p ∧
          absorbImage .exact jpegDataUrl page bbox angle raw n (image, turn) (masked, map) =
            .ok (after, Value.insert (token n) (.string url) map) ∧
          PaintedOver masked after p (average source)) ∧
    (Covers angle raw masked (rawRect .exact bbox image raw.width raw.height) ↔
      Centered angle raw (rawRect .exact bbox image raw.width raw.height)) := by
  obtain ⟨rfl, wide, high, fitsX, fitsY⟩ := crops_eq width height isRaw isMasked
  have size : (padded .exact (enlarged .exact tools (rotate raw angle))).size =
      paddedSize (enlargedSize (rotatedSize angle raw.width raw.height)) := by
    rw [padded_size, enlarged_size sized, rotate_size]
  obtain ⟨p, isMask, inX, inY, pixels⟩ := maskRect_ok angle within wide high fitsX fitsY size
  refine ⟨fun jpegDataUrl turn n map source url isSource isUrl => ?_, ?_⟩
  · obtain ⟨after, run, painted⟩ :=
      @absorbImage_paints jpegDataUrl page raw _ bbox angle (image, turn) source url p n map isSource
        isUrl isMask inX inY
    exact ⟨p, after, isMask, run, painted⟩
  generalize rawRect .exact bbox image raw.width raw.height = r at *
  obtain ⟨turnedWide, turnedHigh⟩ := rotatedSize_pos angle wide high
  have image := shown_pixel angle (show r.Within raw.size.1 raw.size.2 from within) turnedWide turnedHigh
  rw [← kept_iff angle within wide high]
  constructor
  · intro covers
    constructor
    · intro plain i j
      exact (pixels i j).symm.trans ((covers.exact plain p isMask i j).trans (image i j))
    · rintro small ⟨k, enlargedX⟩ ⟨l, enlargedY⟩ i j held
      refine (pixels i j).mp (covers.scaled small ⟨k, l, ?_⟩ p isMask i j ((image i j).mpr held))
      rw [rotate_size]
      have turnedSize := rotate_size raw angle
      exact Prod.ext (enlargedX.trans ((mul_comm _ _).trans
        (congrArg (k * ·) (congrArg Prod.fst turnedSize).symm)))
        (enlargedY.trans ((mul_comm _ _).trans (congrArg (l * ·) (congrArg Prod.snd turnedSize).symm)))
  · intro kept
    refine ⟨⟨p, isMask, inX, inY⟩, fun plain q again i j => ?_, fun small whole q again i j held => ?_⟩
    · obtain rfl : p = q := Except.ok.inj (isMask.symm.trans again)
      exact (pixels i j).trans ((kept.exact plain i j).trans (image i j).symm)
    · obtain rfl : p = q := Except.ok.inj (isMask.symm.trans again)
      obtain ⟨k, l, enlarged⟩ := whole
      have turnedSize := rotate_size raw angle
      have turnedX : (rotate raw angle).width = _ := congrArg Prod.fst turnedSize
      have turnedY : (rotate raw angle).height = _ := congrArg Prod.snd turnedSize
      rw [turnedSize, turnedX, turnedY] at enlarged
      refine (pixels i j).mpr (kept.scaled small ?_ ?_ i j ((image i j).mp held))
      · exact ⟨k, (congrArg Prod.fst enlarged).trans (mul_comm _ _)⟩
      · exact ⟨l, (congrArg Prod.snd enlarged).trans (mul_comm _ _)⟩

/-- The raw crop and the final one have the same bounds, and differ in what is done to them
afterwards. -/
theorem crops_of_bounds (tools : Tools) {page : Raster} {bbox : NormalizedBbox}
    {x y width height : Nat} (angle : Option Rotation)
    (bounds : cropBounds .exact page bbox = .ok (x, y, width, height)) :
    rawCrop .exact page bbox none = .ok (cropImm page x y width height) ∧
      crop .exact tools page bbox angle =
        .ok (padded .exact (enlarged .exact tools (rotate (cropImm page x y width height) angle))) := by
  unfold rawCrop crop
  rw [bounds]
  exact ⟨rfl, rfl⟩

theorem marked_exact : cropBounds .exact marked whole = .ok (0, 0, 28, 28) := by decide +kernel

/-- The upper left quarter of a table of 28 by 28 that lies on its side. -/
theorem mask_covers_quarter :
    Covers (some .deg90) (cropImm marked 0 0 28 28)
      (padded .exact (enlarged .exact tracing (rotate (cropImm marked 0 0 28 28) (some .deg90))))
      (rawRect .exact whole ⟨0, 0, 1 / 2, 1 / 2⟩ 28 28) := by
  obtain ⟨isRaw, isMasked⟩ := crops_of_bounds tracing (some .deg90) marked_exact
  have quarter : rawRect .exact whole ⟨0, 0, 1 / 2, 1 / 2⟩ 28 28 = ⟨0, 0, 14, 14⟩ := by decide +kernel
  have within : (rawRect .exact whole ⟨0, 0, 1 / 2, 1 / 2⟩ 28 28).Within 28 28 := by
    rw [quarter]
    constructor <;> decide
  have square : ¬ Narrow (enlargedSize (28, 28)) := by decide
  exact (mask_covers_iff tracing_sized (by decide) (by decide) isRaw isMasked within).2.mpr
    fun narrow => absurd narrow square

/-- The page of a table of 28 by 1500. -/
def column : Raster := fromPixel 28 1500 ⟨255, 255, 255⟩

theorem column_bounds : cropBounds .exact column whole = .ok (0, 0, 28, 1500) := by decide +kernel

/-- The image in the upper left quarter of a narrow table is in the middle of the padded crop, and its
mask at the left. -/
theorem narrow_table_missed :
    crop .exact tracing column whole none = .ok (padded .exact (cropImm column 0 0 28 1500)) ∧
      rawRect .exact whole ⟨0, 0, 1 / 4, 1 / 2⟩ 28 1500 = ⟨0, 0, 7, 750⟩ ∧
      maskRect none (cropImm column 0 0 28 1500) (padded .exact (cropImm column 0 0 28 1500)) ⟨0, 0, 7, 750⟩ =
        .ok ⟨0, 0, 375, 750⟩ ∧
      (shown none (28, 1500) ⟨0, 0, 7, 750⟩).pixel 740 0 = trace ∧
      ¬ Covers none (cropImm column 0 0 28 1500) (padded .exact (cropImm column 0 0 28 1500)) ⟨0, 0, 7, 750⟩ := by
  have isMask : maskRect none (cropImm column 0 0 28 1500) (padded .exact (cropImm column 0 0 28 1500))
      ⟨0, 0, 7, 750⟩ = .ok ⟨0, 0, 375, 750⟩ := by decide +kernel
  have isShown : (shown none (28, 1500) ⟨0, 0, 7, 750⟩).pixel 740 0 = trace := by decide +kernel
  refine ⟨(crops_of_bounds tracing none column_bounds).2, by decide +kernel, isMask, isShown, ?_⟩
  intro covers
  have inside := (covers.exact (by decide) _ isMask 740 0).mpr isShown
  exact absurd inside (by decide)

end Mineru.Image
