import Mathlib

/-!
# Borders and periods

A border of the first `n` elements of a list is a shorter part that they begin and end with. A period is
a distance at which the elements repeat. The two are the same thing seen from either end
(`border_iff_period`), so the longest border gives the smallest period (`LongestBorder.period`). The
borders of a border are borders (`Border.trans`, `Border.below`), and one more element extends a border
exactly if it is the one behind the border (`border_succ`).
-/

set_option autoImplicit false

namespace Mineru.Logic

variable {α : Type} {l : List α} {n k k' : Nat}

/-- The first `k` of the first `n` elements are also the last `k` of them. -/
def Border (l : List α) (n k : Nat) : Prop :=
  k < n ∧ ∀ j < k, l[j]? = l[n - k + j]?

structure LongestBorder (l : List α) (n k : Nat) : Prop where
  border : Border l n k
  longest : ∀ k', Border l n k' → k' ≤ k

/-- The elements repeat at the distance `p`. -/
def Period (l : List α) (p : Nat) : Prop :=
  0 < p ∧ ∀ i, p ≤ i → i < l.length → l[i]? = l[i - p]?

structure SmallestPeriod (l : List α) (p : Nat) : Prop where
  period : Period l p
  smallest : ∀ q, Period l q → p ≤ q

/-! ## Borders -/

theorem border_zero (pos : 0 < n) : Border l n 0 := ⟨pos, fun _ lt => absurd lt (Nat.not_lt_zero _)⟩

/-- A border of a border is a border. -/
theorem Border.trans (outer : Border l n k) (inner : Border l k k') : Border l n k' := by
  refine ⟨inner.1.trans outer.1, fun j lt => ?_⟩
  have low := inner.1
  have high := outer.1
  have place : n - k + (k - k' + j) = n - k' + j := by omega
  rw [inner.2 j lt, outer.2 (k - k' + j) (by omega), place]

/-- The shorter of two borders is a border of the longer one. -/
theorem Border.below (long : Border l n k) (short : Border l n k') (lt : k' < k) : Border l k k' := by
  refine ⟨lt, fun j small => ?_⟩
  have high := long.1
  have place : n - k + (k - k' + j) = n - k' + j := by omega
  rw [short.2 j small, long.2 (k - k' + j) (by omega), place]

/-- A border grows by the element behind it. -/
theorem border_succ (lt : k < n) :
    Border l (n + 1) (k + 1) ↔ Border l n k ∧ l[k]? = l[n]? := by
  have shift (j : Nat) : n + 1 - (k + 1) + j = n - k + j := by omega
  have last : n - k + k = n := Nat.sub_add_cancel lt.le
  constructor
  · rintro ⟨-, same⟩
    refine ⟨⟨lt, fun j small => ?_⟩, ?_⟩
    · rw [same j (by omega), shift]
    · rw [same k (Nat.lt_succ_self k), shift, last]
  · rintro ⟨⟨-, same⟩, next⟩
    refine ⟨Nat.succ_lt_succ lt, fun j small => ?_⟩
    rw [shift]
    rcases Nat.lt_succ_iff_lt_or_eq.mp small with before | rfl
    · exact same j before
    · rw [next, last]

/-! ## Periods -/

theorem border_iff_period (lt : k < l.length) : Border l l.length k ↔ Period l (l.length - k) := by
  constructor
  · rintro ⟨-, same⟩
    refine ⟨by omega, fun i le small => ?_⟩
    have place : l.length - k + (i - (l.length - k)) = i := by omega
    rw [same (i - (l.length - k)) (by omega), place]
  · rintro ⟨-, same⟩
    refine ⟨lt, fun j small => ?_⟩
    rw [same (l.length - k + j) (by omega) (by omega), Nat.add_sub_cancel_left]

/-- What the longest border leaves is the smallest period. -/
theorem LongestBorder.period (h : LongestBorder l l.length k) : SmallestPeriod l (l.length - k) where
  period := (border_iff_period h.border.1).mp h.border
  smallest q period := by
    by_cases wide : l.length ≤ q
    · omega
    · have lt : l.length - q < l.length := by
        have := period.1
        omega
      have rest : l.length - (l.length - q) = q := by omega
      have := h.longest _ ((border_iff_period lt).mpr (rest.symm ▸ period))
      omega

theorem SmallestPeriod.unique {p q : Nat} (h : SmallestPeriod l p) (h' : SmallestPeriod l q) : p = q :=
  Nat.le_antisymm (h.smallest q h'.period) (h'.smallest p h.period)

/-! ## The next longest border -/

/-- A border that no longer border is followed by the next element. -/
structure Fallback (l : List α) (n k : Nat) : Prop where
  border : Border l n k
  covers : ∀ k', Border l n k' → l[k']? = l[n]? → k' ≤ k

theorem LongestBorder.fallback (h : LongestBorder l n k) : Fallback l n k :=
  ⟨h.border, fun k' border _ => h.longest k' border⟩

/-- If the element behind a border is not the next one, the longest border of the border is left. -/
theorem Fallback.descend (h : Fallback l n k) (differs : l[k]? ≠ l[n]?) (inner : LongestBorder l k k') :
    Fallback l n k' := by
  refine ⟨h.border.trans inner.border, fun j border follows => ?_⟩
  have le : j ≤ k := h.covers j border follows
  have ne : j ≠ k := fun same => differs (same ▸ follows)
  exact inner.longest j (h.border.below border (Nat.lt_of_le_of_ne le ne))

/-- A border that the next element follows grows to the longest one. -/
theorem Fallback.extend (h : Fallback l n k) (follows : l[k]? = l[n]?) :
    LongestBorder l (n + 1) (k + 1) where
  border := (border_succ h.border.1).mpr ⟨h.border, follows⟩
  longest k' border := by
    rcases k' with _ | k'
    · exact Nat.zero_le _
    · obtain ⟨inner, next⟩ := (border_succ (Nat.lt_of_succ_lt_succ border.1)).mp border
      exact Nat.succ_le_succ (h.covers k' inner next)

/-- If no border is followed by the next element, none is left. -/
theorem Fallback.clear (h : Fallback l n 0) (differs : l[0]? ≠ l[n]?) : LongestBorder l (n + 1) 0 where
  border := border_zero (Nat.succ_pos n)
  longest k' border := by
    rcases k' with _ | k'
    · exact Nat.le_refl 0
    · obtain ⟨inner, next⟩ := (border_succ (Nat.lt_of_succ_lt_succ border.1)).mp border
      obtain rfl := Nat.le_zero.mp (h.covers k' inner next)
      exact absurd next differs

/-- A single element has no border but the empty one. -/
theorem longestBorder_one : LongestBorder l 1 0 :=
  ⟨border_zero Nat.one_pos, fun _ border => Nat.le_of_lt_succ border.1⟩

end Mineru.Logic
