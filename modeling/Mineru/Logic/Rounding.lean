import Mathlib

/-!
# Rounding to a nearest number

A `Rounding` of an ordered group comes with the numbers that it keeps, and goes to one of those that
are nearest. That it is monotone and changes none of the kept numbers follows from this alone, whatever
it does with ties. `binary p least` is the rounding of a binary floating point format, with ties to the
even significand: `p` digits, and no exponent below `least`. Its numbers have no upper bound, so
overflow to an infinity is not covered.
-/

set_option autoImplicit false

namespace Mineru.Logic

universe u

/-- A function to the numbers that are `Kept`, none of which is nearer. -/
structure Rounding (α : Type u) [AddCommGroup α] [LinearOrder α] where
  Kept : α → Prop
  round : α → α
  kept : ∀ q, Kept (round q)
  nearest : ∀ q v, Kept v → |round q - q| ≤ |v - q|

namespace Rounding

/-! ## Any rounding -/

section General

variable {α : Type u} [AddCommGroup α] [LinearOrder α] [IsOrderedAddMonoid α]

/-- Exact arithmetic, which keeps every number. -/
def exact : Rounding α where
  Kept _ := True
  round q := q
  kept _ := trivial
  nearest q v _ := by
    rw [sub_self, abs_zero]
    exact abs_nonneg _

@[simp]
theorem exact_round (q : α) : (exact : Rounding α).round q = q := rfl

variable {f : Rounding α} {q r v : α}

theorem round_eq (kept : f.Kept v) : f.round v = v := by
  have near := f.nearest v v kept
  rw [sub_self, abs_zero] at near
  exact sub_eq_zero.mp (abs_nonpos_iff.mp near)

/-- The greater of two numbers is no farther only from the middle on. -/
theorem sum_le_of_near {a b : α} (lt : b < a) (near : |a - q| ≤ |b - q|) : a + b ≤ q + q := by
  have up : a - q ≤ |b - q| := (le_abs_self _).trans near
  rcases le_total b q with left | right
  · rw [abs_of_nonpos (sub_nonpos.mpr left), neg_sub] at up
    exact sub_le_sub_iff.mp up
  · rw [abs_of_nonneg (sub_nonneg.mpr right)] at up
    exact absurd ((sub_le_sub_iff_right q).mp up) (not_le.mpr lt)

theorem le_sum_of_near {a b : α} (lt : b < a) (near : |b - q| ≤ |a - q|) : q + q ≤ a + b := by
  have down : q - b ≤ |a - q| := (neg_sub b q ▸ neg_le_abs (b - q)).trans near
  rcases le_total q a with left | right
  · rw [abs_of_nonneg (sub_nonneg.mpr left)] at down
    exact sub_le_sub_iff.mp down
  · rw [abs_of_nonpos (sub_nonpos.mpr right), neg_sub] at down
    exact absurd ((sub_le_sub_iff_left q).mp down) (not_le.mpr lt)

/-- Two numbers that go to kept ones in the wrong order would lie on the wrong sides of their middle. -/
theorem round_mono (le : q ≤ r) : f.round q ≤ f.round r := by
  rcases le.eq_or_lt with rfl | lt
  · exact le_rfl
  by_contra crossed
  have below : f.round r < f.round q := not_le.mp crossed
  have left := sum_le_of_near below (f.nearest q _ (f.kept r))
  have right := le_sum_of_near below (f.nearest r _ (f.kept q))
  exact absurd (right.trans left) (not_le.mpr (add_lt_add lt lt))

theorem round_le (kept : f.Kept v) (le : q ≤ v) : f.round q ≤ v :=
  (round_mono le).trans_eq (round_eq kept)

theorem le_round (kept : f.Kept v) (le : v ≤ q) : v ≤ f.round q :=
  (round_eq kept).symm.trans_le (round_mono le)

end General

/-! ## Binary formats -/

/-- The nearest integer, and of two the even one. -/
def toEven (q : Rat) : Int :=
  if q - ⌊q⌋ < 1 / 2 ∨ q - ⌊q⌋ = 1 / 2 ∧ ⌊q⌋ % 2 = 0 then ⌊q⌋ else ⌊q⌋ + 1

theorem toEven_nearest (q : Rat) (n : Int) : |(toEven q : Rat) - q| ≤ |(n : Rat) - q| := by
  have floor := Int.floor_le q
  have next := Int.lt_floor_add_one q
  unfold toEven
  rcases le_or_gt n ⌊q⌋ with below | above
  · have low : (n : Rat) ≤ ⌊q⌋ := Int.cast_le.mpr below
    rw [abs_of_nonpos (sub_nonpos.mpr (low.trans floor))]
    split
    · rw [abs_of_nonpos (sub_nonpos.mpr floor)]
      linarith
    · rename_i up
      have half : 1 / 2 ≤ q - ⌊q⌋ := not_lt.mp fun lt => up (Or.inl lt)
      rw [Int.cast_add, Int.cast_one, abs_of_nonneg (by linarith)]
      linarith
  · have high : (⌊q⌋ : Rat) + 1 ≤ n := by exact_mod_cast above
    rw [abs_of_nonneg (sub_nonneg.mpr (next.le.trans high))]
    split
    · rename_i down
      have half : q - ⌊q⌋ ≤ 1 / 2 := by
        rcases down with lt | ⟨tie, -⟩
        · exact lt.le
        · exact tie.le
      rw [abs_of_nonpos (sub_nonpos.mpr floor)]
      linarith
    · rw [Int.cast_add, Int.cast_one, abs_of_nonneg (by linarith)]
      linarith

/-- The integers with the nearest one. -/
def integers : Rounding Rat where
  Kept v := ∃ n : Int, v = n
  round q := toEven q
  kept q := ⟨toEven q, rfl⟩
  nearest q v := by
    rintro ⟨n, rfl⟩
    exact toEven_nearest q n

/-- A significand of `p` digits with an exponent from `least` on. The power itself stands for the next
exponent. -/
def Significand (p : Nat) (least : Int) (v : Rat) : Prop :=
  ∃ m e : Int, |m| ≤ 2 ^ p ∧ least ≤ e ∧ v = m * 2 ^ e

/-- The exponent of the last digit. -/
def lastDigit (p : Nat) (least : Int) (q : Rat) : Int := max least (Int.log 2 |q| - (p - 1))

def roundBinary (p : Nat) (least : Int) (q : Rat) : Rat :=
  toEven (q / 2 ^ lastDigit p least q) * 2 ^ lastDigit p least q

variable {p : Nat} {least : Int}

theorem power_pos (e : Int) : (0 : Rat) < 2 ^ e := zpow_pos two_pos e

theorem abs_lt_digits (q : Rat) : |q| < 2 ^ (lastDigit p least q + p) := by
  have log : |q| < 2 ^ (Int.log 2 |q| + 1) := by exact_mod_cast Int.lt_zpow_succ_log_self one_lt_two |q|
  refine log.trans_le (zpow_le_zpow_right₀ one_le_two ?_)
  unfold lastDigit
  omega

theorem significand_roundBinary (q : Rat) : Significand p least (roundBinary p least q) := by
  refine ⟨toEven (q / 2 ^ lastDigit p least q), lastDigit p least q, ?_, le_max_left _ _, rfl⟩
  have scaled : |q / 2 ^ lastDigit p least q| ≤ ((2 ^ p : Int) : Rat) := by
    have digits : |q| < 2 ^ (lastDigit p least q + p) := abs_lt_digits q
    rw [zpow_add₀ two_ne_zero] at digits
    rw [abs_div, abs_of_pos (power_pos _), div_le_iff₀ (power_pos _), mul_comm]
    exact_mod_cast digits.le
  obtain ⟨low, high⟩ := abs_le.mp scaled
  have below : (toEven (q / 2 ^ lastDigit p least q) : Rat) ≤ (2 ^ p : Int) :=
    round_le (f := integers) ⟨_, rfl⟩ high
  have above : -((2 ^ p : Int) : Rat) ≤ toEven (q / 2 ^ lastDigit p least q) :=
    le_round (f := integers) ⟨-2 ^ p, by rw [Int.cast_neg]⟩ low
  exact abs_le.mpr ⟨by exact_mod_cast above, by exact_mod_cast below⟩

/-- The multiples of the last digit are no nearer. -/
theorem roundBinary_nearest_multiple (q : Rat) (n : Int) :
    |roundBinary p least q - q| ≤ |n * 2 ^ lastDigit p least q - q| := by
  have pos := power_pos (lastDigit p least q)
  have scale (x : Rat) : |x * 2 ^ lastDigit p least q - q| =
      |x - q / 2 ^ lastDigit p least q| * 2 ^ lastDigit p least q := by
    rw [← abs_of_pos pos, ← abs_mul, abs_of_pos pos, sub_mul, div_mul_cancel₀ _ pos.ne']
  rw [roundBinary, scale, scale]
  exact mul_le_mul_of_nonneg_right (toEven_nearest _ n) pos.le

theorem significand_nearest (digits : 0 < p) {q v : Rat} (is : Significand p least v) :
    |roundBinary p least q - q| ≤ |v - q| := by
  obtain ⟨m, e, bound, from_least, rfl⟩ := is
  rcases le_or_gt (lastDigit p least q) e with coarse | fine
  · have same : (m : Rat) * 2 ^ e =
        ((m * 2 ^ (e - lastDigit p least q).toNat : Int) : Rat) * 2 ^ lastDigit p least q := by
      have power : (2 : Rat) ^ e = 2 ^ (e - lastDigit p least q).toNat * 2 ^ lastDigit p least q := by
        rw [← zpow_natCast, ← zpow_add₀ two_ne_zero]
        congr 1
        omega
      rw [power]
      push_cast
      ring
    rw [same]
    exact roundBinary_nearest_multiple q _
  · -- A finer exponent means a number below the least one with the digits of `q`.
    have edge : lastDigit p least q = Int.log 2 |q| - (p - 1) := by
      unfold lastDigit at fine ⊢
      omega
    rcases eq_or_ne q 0 with rfl | nonzero
    · have zero : roundBinary p least 0 = 0 := by
        have origin : toEven 0 = 0 := by decide +kernel
        rw [roundBinary, zero_div, origin, Int.cast_zero, zero_mul]
      rw [zero, sub_zero, abs_zero]
      exact abs_nonneg _
    have power : (2 : Rat) ^ Int.log 2 |q| = ((2 ^ (p - 1) : Int) : Rat) * 2 ^ lastDigit p least q := by
      push_cast
      rw [← zpow_natCast, ← zpow_add₀ two_ne_zero]
      congr 1
      omega
    have reach : ((2 ^ (p - 1) : Int) : Rat) * 2 ^ lastDigit p least q ≤ |q| := by
      rw [← power]
      exact_mod_cast Int.zpow_log_le_self one_lt_two (abs_pos.mpr nonzero)
    have small : |(m : Rat) * 2 ^ e| ≤ ((2 ^ (p - 1) : Int) : Rat) * 2 ^ lastDigit p least q := by
      have below : (2 : Rat) ^ (p + e) ≤ 2 ^ Int.log 2 |q| := zpow_le_zpow_right₀ one_le_two (by omega)
      have significand : |(m : Rat)| ≤ 2 ^ p := by exact_mod_cast bound
      rw [← power, abs_mul, abs_of_pos (power_pos e)]
      refine (mul_le_mul_of_nonneg_right significand (power_pos e).le).trans (le_trans (le_of_eq ?_) below)
      rw [zpow_add₀ two_ne_zero, zpow_natCast]
    obtain ⟨low, high⟩ := abs_le.mp small
    rcases nonzero.lt_or_gt with negative | positive
    · refine (roundBinary_nearest_multiple q (-2 ^ (p - 1))).trans ?_
      rw [abs_of_neg negative] at reach
      rw [Int.cast_neg, neg_mul, abs_of_nonneg (by linarith), abs_of_nonneg (by linarith)]
      linarith
    · refine (roundBinary_nearest_multiple q (2 ^ (p - 1))).trans ?_
      rw [abs_of_pos positive] at reach
      rw [abs_of_nonpos (by linarith), abs_of_nonpos (by linarith)]
      linarith

/-- Rounding to a binary format of `p` digits. -/
def binary (p : Nat) (least : Int) (digits : 0 < p) : Rounding Rat where
  Kept := Significand p least
  round := roundBinary p least
  kept := significand_roundBinary
  nearest _ _ := significand_nearest digits

/-- The integers that need no more than the digits. -/
theorem significand_int (below : least ≤ 0) {n : Int} (small : |n| ≤ 2 ^ p) :
    Significand p least n :=
  ⟨n, 0, small, below, by rw [zpow_zero, mul_one]⟩

/-- The integer below a kept number is kept. -/
theorem significand_floor (below : least ≤ 0) {v : Rat} (is : Significand p least v) :
    Significand p least ⌊v⌋ := by
  obtain ⟨m, e, bound, from_least, rfl⟩ := is
  rcases le_or_gt 0 e with whole | part
  · obtain ⟨k, rfl⟩ := Int.eq_ofNat_of_zero_le whole
    have integer : (m : Rat) * 2 ^ (k : Int) = ((m * 2 ^ k : Int) : Rat) := by
      rw [zpow_natCast]
      push_cast
      rfl
    refine ⟨m, k, bound, from_least, ?_⟩
    rw [integer, Int.floor_intCast]
  · have small : |(m : Rat) * 2 ^ e| ≤ ((2 ^ p : Int) : Rat) := by
      rw [abs_mul, abs_of_pos (power_pos e)]
      have significand : |(m : Rat)| ≤ ((2 ^ p : Int) : Rat) := by exact_mod_cast bound
      exact (mul_le_of_le_one_right (abs_nonneg _) (zpow_le_one_of_nonpos₀ one_le_two part.le)).trans
        significand
    obtain ⟨low, high⟩ := abs_le.mp small
    refine significand_int below (abs_le.mpr ⟨?_, ?_⟩)
    · exact Int.le_floor.mpr (by rw [Int.cast_neg]; exact low)
    · exact Int.cast_le.mp ((Int.floor_le _).trans high)

end Rounding

end Mineru.Logic
