import Mineru.Laws.Builders.Prepare

/-!
# Pages without an overflow

`composeNumbers` lists the sums and products that composing a page forms. On a page whose whole points
leave room for them (`PageSize.FitsI32`: the product of the sides, and each side three times) they all
fit in an `i32`, whatever the boxes of the blocks are, as long as these lie within the page. A build
that checks then never panics while it composes (`composeNumbers_fit`).

The bound on the product is that of a block as large as the page; nothing is said of larger pages.
-/

set_option autoImplicit false

namespace Mineru.Builders

open Logic

/-- A page whose numbers fit: the product of its sides, and three times each of them. -/
structure PageSize.FitsI32 (size : PageSize) : Prop where
  width : 3 * ⌊size.width⌋ < 2 ^ 31
  height : 3 * ⌊size.height⌋ < 2 ^ 31
  area : ⌊size.width⌋ * ⌊size.height⌋ < 2 ^ 31

/-- A box of whole points within a page of whole points. -/
structure Bbox.Within (width height : Int) (bbox : Bbox) : Prop where
  left : 0 ≤ bbox.left
  across : bbox.left < bbox.right
  right : bbox.right ≤ width
  top : 0 ≤ bbox.top
  down : bbox.top < bbox.bottom
  bottom : bbox.bottom ≤ height

theorem Bbox.Inside.within {size : PageSize} {bbox : Bbox} (h : bbox.Inside size) :
    bbox.Within ⌊size.width⌋ ⌊size.height⌋ :=
  ⟨h.left, h.across, Int.le_floor.mpr h.right, h.top, h.down, Int.le_floor.mpr h.bottom⟩

/-- All numbers of a list fit. -/
def Fit (numbers : List Int) : Prop := ∀ n ∈ numbers, fitsI32 n = true

theorem fitsI32_of {n : Int} (low : -2 ^ 31 ≤ n) (high : n < 2 ^ 31) : fitsI32 n = true := by
  unfold fitsI32
  rw [decide_eq_true low, decide_eq_true high]
  rfl

theorem Fit.nil : Fit [] := fun _ none => absurd none List.not_mem_nil

theorem Fit.cons {n : Int} {rest : List Int} (low : -2 ^ 31 ≤ n) (high : n < 2 ^ 31)
    (h : Fit rest) : Fit (n :: rest) := by
  intro m mem
  rcases List.mem_cons.mp mem with rfl | mem
  · exact fitsI32_of low high
  · exact h m mem

theorem Fit.append {first second : List Int} (h : Fit first) (h' : Fit second) :
    Fit (first ++ second) := by
  intro n mem
  rcases List.mem_append.mp mem with mem | mem
  · exact h n mem
  · exact h' n mem

theorem Fit.flatMap {α : Type} {f : α → List Int} {as : List α} (h : ∀ a ∈ as, Fit (f a)) :
    Fit (as.flatMap f) := by
  intro n mem
  obtain ⟨a, there, mem⟩ := List.mem_flatMap.mp mem
  exact h a there n mem

/-! ## The numbers of two blocks -/

section

variable {width height : Int}

theorem nearAboveNumbers_fit (wide : 3 * width < 2 ^ 31) (high : 3 * height < 2 ^ 31)
    {child parent : Block} (hc : child.bbox.Within width height)
    (hp : parent.bbox.Within width height) : Fit (nearAboveNumbers child parent) := by
  obtain ⟨pLeft, pAcross, pRight, -, -, -⟩ := hp
  obtain ⟨-, -, -, cTop, cDown, cBottom⟩ := hc
  have tripled : Fit [max (child.bbox.bottom - child.bbox.top) 1 * 3] :=
    .cons (by omega) (by omega) .nil
  have widened : Fit [max (child.bbox.bottom - child.bbox.top) 1 * 3,
      max (parent.bbox.right - parent.bbox.left) 1 * 3] :=
    .cons (by omega) (by omega) (.cons (by omega) (by omega) .nil)
  -- The margin is a hundredth of three widths, or twelve points.
  have margin : Int.tdiv (max (parent.bbox.right - parent.bbox.left) 1 * 3) 100 =
      max (parent.bbox.right - parent.bbox.left) 1 * 3 / 100 :=
    Int.tdiv_eq_ediv_of_nonneg (by omega)
  unfold nearAboveNumbers
  dsimp only
  split
  · exact .nil
  · split
    · exact tripled
    · split
      · exact widened
      · rw [margin]
        exact .cons (by omega) (by omega) (.cons (by omega) (by omega)
          (.cons (by omega) (by omega) .nil))

theorem centerNumbers_fit (wide : 3 * width < 2 ^ 31) (high : 3 * height < 2 ^ 31)
    {first second : Bbox} (h : first.Within width height) (h' : second.Within width height) :
    Fit (centerNumbers first second) := by
  obtain ⟨left, across, right, top, down, bottom⟩ := h
  obtain ⟨left', across', right', top', down', bottom'⟩ := h'
  unfold centerNumbers
  refine .cons ?_ ?_ (.cons ?_ ?_ (.cons ?_ ?_ (.cons ?_ ?_ (.cons ?_ ?_ (.cons ?_ ?_ .nil)))))
  all_goals omega

/-- The area of a box is at most that of the page. -/
theorem area_fit (area : width * height < 2 ^ 31) {bbox : Bbox} (h : bbox.Within width height) :
    fitsI32 (Builders.area .exact bbox) = true := by
  obtain ⟨left, across, right, top, down, bottom⟩ := h
  have low : 0 ≤ (bbox.right - bbox.left) * (bbox.bottom - bbox.top) :=
    Int.mul_nonneg (by omega) (by omega)
  have le : (bbox.right - bbox.left) * (bbox.bottom - bbox.top) ≤ width * height :=
    Int.mul_le_mul (by omega) (by omega) (by omega) (by omega)
  exact fitsI32_of (show -2 ^ 31 ≤ (bbox.right - bbox.left) * (bbox.bottom - bbox.top) by omega)
    (show (bbox.right - bbox.left) * (bbox.bottom - bbox.top) < 2 ^ 31 by omega)

/-! ## The numbers of the passes -/

/-- All blocks lie within the page. -/
def AllWithin (width height : Int) (blocks : List Block) : Prop :=
  ∀ b ∈ blocks, b.bbox.Within width height

theorem AllWithin.get {blocks : List Block} (h : AllWithin width height blocks) {index : Nat}
    {block : Block} (there : blocks[index]? = some block) : block.bbox.Within width height :=
  h block (List.mem_of_getElem? there)

theorem AllWithin.filter {blocks : List Block} (h : AllWithin width height blocks)
    (p : Block → Bool) : AllWithin width height (blocks.filter p) :=
  fun b mem => h b (List.mem_filter.mp mem).1

/-- The fallbacks leave every box as it is. -/
theorem Fallbacks.within {before after : List Block} (h : Fallbacks before after)
    (within : AllWithin width height before) : AllWithin width height after := by
  induction h with
  | nil => exact within
  | @cons a b _ _ same _ ih =>
    intro c mem
    rcases List.mem_cons.mp mem with rfl | mem
    · have there := within a List.mem_cons_self
      rcases same with rfl | ⟨-, rfl⟩
      · exact there
      · exact there
    · exact ih (fun d inside => within d (List.mem_cons_of_mem _ inside)) c mem

theorem loopNumbers_fit {turn : List Block → Nat → List Block}
    {numbers : List Block → Nat → List Int} (step : ∀ blocks index, Fallbacks blocks (turn blocks index))
    (fit : ∀ blocks index, AllWithin width height blocks → Fit (numbers blocks index))
    (indexes : List Nat) {blocks : List Block} (within : AllWithin width height blocks) :
    Fit (loopNumbers turn numbers blocks indexes) := by
  induction indexes generalizing blocks with
  | nil => exact .nil
  | cons index rest ih =>
    exact (fit blocks index within).append (ih ((step blocks index).within within))

theorem betweenNumbers_fit (wide : 3 * width < 2 ^ 31) (high : 3 * height < 2 ^ 31)
    (blocks : List Block) (index : Nat) (within : AllWithin width height blocks) :
    Fit (betweenNumbers blocks index) := by
  unfold betweenNumbers
  split
  · split
    · exact nearAboveNumbers_fit wide high (within.get (by assumption)) (within.get (by assumption))
    · exact .nil
  · exact .nil

theorem aboveNumbers_fit (wide : 3 * width < 2 ^ 31) (high : 3 * height < 2 ^ 31) {table : Block}
    (ht : table.bbox.Within width height) {blocks : List Block}
    (within : AllWithin width height blocks) (index : Nat) : Fit (aboveNumbers table blocks index) := by
  induction index with
  | zero => exact .nil
  | succ index ih =>
    unfold aboveNumbers
    split
    · exact .nil
    · next block there =>
      refine (nearAboveNumbers_fit wide high (within.get there) ht).append ?_
      split
      · exact ih
      · exact .nil

theorem tableNumbers_fit (wide : 3 * width < 2 ^ 31) (high : 3 * height < 2 ^ 31)
    (blocks : List Block) (tableIndex : Nat) (within : AllWithin width height blocks) :
    Fit (tableNumbers blocks tableIndex) := by
  unfold tableNumbers
  split
  · exact .nil
  · next table there =>
    split
    · exact .nil
    · have ht := within.get there
      have above := (captionsAbove_fallbacks .exact table false blocks tableIndex).within within
      refine (aboveNumbers_fit wide high ht within tableIndex).append ?_
      split
      · exact .nil
      · split
        · exact .nil
        · next block inside =>
          split
          · exact nearAboveNumbers_fit wide high (above.get inside) ht
          · exact .nil

theorem fallbackNumbers_fit (wide : 3 * width < 2 ^ 31) (high : 3 * height < 2 ^ 31)
    (renderBlock : Block → Text) {blocks : List Block} (within : AllWithin width height blocks) :
    Fit (fallbackNumbers renderBlock blocks) := by
  have between := Fallbacks.foldl (captionBetween_fallbacks .exact)
    (List.range' 1 (blocks.length - 1 - 1)) blocks
  exact (loopNumbers_fit (captionBetween_fallbacks .exact) (betweenNumbers_fit wide high) _
    within).append (loopNumbers_fit (captionsOfTable_fallbacks .exact renderBlock)
      (tableNumbers_fit wide high) _ (between.within within))

theorem absorbNumbers_fit (area : width * height < 2 ^ 31) {parents : List Block}
    (within : AllWithin width height parents) : Fit (absorbNumbers parents) := by
  refine Fit.flatMap fun member _ => ?_
  unfold containerNumbers
  dsimp only
  split
  · exact .nil
  · intro n mem
    obtain ⟨container, there, rfl⟩ := List.mem_map.mp mem
    exact area_fit area (((within.filter _).filter _) container there)

theorem centeredParents_mem {child parent : Block} {parents blocks : List Block}
    (mem : parent ∈ centeredParents child parents blocks) : parent ∈ parents := by
  unfold centeredParents at mem
  dsimp only at mem
  split at mem
  · exact absurd mem List.not_mem_nil
  · split at mem
    · exact absurd mem List.not_mem_nil
    · exact (List.mem_filter.mp (List.mem_filter.mp mem).1).1

theorem attachNumbers_fit (wide : 3 * width < 2 ^ 31) (high : 3 * height < 2 ^ 31)
    {children parents : List Block} (relation : List Block)
    (hc : AllWithin width height children) (hp : AllWithin width height parents) :
    Fit (attachNumbers children parents relation) := by
  refine Fit.flatMap fun child there => Fit.flatMap fun parent mem => ?_
  exact centerNumbers_fit wide high (hc child there) (hp parent (centeredParents_mem mem))

end

/-- **No overflow on a page with room.** Of blocks that lie within the page, composing forms numbers
that fit only. -/
theorem composeNumbers_fit {size : PageSize} (room : size.FitsI32) (renderBlock : Block → Text)
    {blocks : List Block} (placed : ∀ b ∈ blocks, b.Placed size) :
    (composeNumbers renderBlock blocks).all fitsI32 = true := by
  have within : AllWithin ⌊size.width⌋ ⌊size.height⌋ blocks :=
    fun b mem => (placed b mem).inside.within
  have after := (captionFallbacks_fallbacks .exact renderBlock blocks).within within
  have fit : Fit (composeNumbers renderBlock blocks) :=
    (fallbackNumbers_fit room.width room.height renderBlock within).append
      ((absorbNumbers_fit room.area (after.filter _)).append
        (attachNumbers_fit room.width room.height _ (after.filter _)
          ((after.filter _).filter _)))
  exact List.all_eq_true.mpr fit

end Mineru.Builders
