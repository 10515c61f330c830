import Mathlib.Algebra.Order.Field.Power
import Mathlib.Algebra.Order.Round
import Mathlib.Data.Int.Log
import Mathlib.Data.Rat.Floor
import Mathlib.Tactic.Linarith
import Mathlib.Tactic.Positivity
import Mathlib.Tactic.Ring

/-! Binary floating point numbers of a fixed precision, as rational numbers: which ones there are, and
the rounding to the nearest of them. Numbers that are too large are not cut off. -/
namespace FloatingPoint

/-- The digits of a significand and the least exponent. -/
structure Format where
  precision : Nat
  minExponent : Int
  positive : 0 < precision

def binary64 : Format := ⟨53, -1074, by decide⟩

def Format.Representable (F : Format) (x : ℚ) : Prop :=
  ∃ m e : Int, |m| < 2 ^ F.precision ∧ F.minExponent ≤ e ∧ x = m * (2 : ℚ) ^ e

/-- Nothing representable is closer to `x` than `y` is. -/
structure Format.Nearest (F : Format) (x y : ℚ) : Prop where
  representable : F.Representable y
  closest : ∀ z, F.Representable z → |y - x| ≤ |z - x|

variable {F : Format} {x y z : ℚ} {m e : Int}

theorem zpow_step (e : Int) : (2 : ℚ) ^ (e + 1) = 2 * 2 ^ e := by
  rw [zpow_add_one₀ two_ne_zero, mul_comm]

theorem representable_of_le (size : |m| ≤ 2 ^ F.precision) (least : F.minExponent ≤ e) :
    F.Representable (m * 2 ^ e) := by
  rcases lt_or_eq_of_le size with small | full
  · exact ⟨m, e, small, least, rfl⟩
  · have digits : (2 : Int) ^ F.precision = 2 ^ (F.precision - 1) * 2 := by
      rw [← pow_succ, Nat.sub_add_cancel F.positive]
    have positive : (0 : Int) < 2 ^ (F.precision - 1) := by positivity
    rcases abs_choice m with same | opposite
    · refine ⟨2 ^ (F.precision - 1), e + 1, ?_, by omega, ?_⟩
      · rw [abs_of_pos positive, digits]
        omega
      · rw [zpow_step, show m = 2 ^ (F.precision - 1) * 2 by omega]
        push_cast
        ring
    · refine ⟨-2 ^ (F.precision - 1), e + 1, ?_, by omega, ?_⟩
      · rw [abs_neg, abs_of_pos positive, digits]
        omega
      · rw [zpow_step, show m = -(2 ^ (F.precision - 1) * 2) by omega]
        push_cast
        ring

theorem representable_int (size : |m| ≤ 2 ^ F.precision) (least : F.minExponent ≤ 0) :
    F.Representable m := by
  have multiple := representable_of_le size least
  rwa [zpow_zero, mul_one] at multiple

theorem multiple_of_le {e' : Int} (m : Int) (below : e ≤ e') :
    ∃ k : Int, m * (2 : ℚ) ^ e' = k * 2 ^ e := by
  refine ⟨m * 2 ^ (e' - e).toNat, ?_⟩
  have exponent : e' = (e' - e).toNat + e := by omega
  push_cast
  rw [mul_assoc, ← zpow_natCast, ← zpow_add₀ two_ne_zero, ← exponent]

/-- Large representable numbers are multiples of a power of two. -/
theorem Format.Representable.multiple (representable : F.Representable x)
    (large : 2 ^ (F.precision - 1) * (2 : ℚ) ^ e ≤ |x|) : ∃ k : Int, x = k * 2 ^ e := by
  obtain ⟨m, e', size, -, rfl⟩ := representable
  have positive : (0 : ℚ) < 2 ^ e' := by positivity
  have bound : |(m : ℚ)| < 2 ^ F.precision := by exact_mod_cast size
  have below : e ≤ e' := by
    by_contra beyond
    have power : (2 : ℚ) ^ (e' + 1) ≤ 2 ^ e := zpow_le_zpow_right₀ one_le_two (by omega)
    have digits : (2 : ℚ) ^ F.precision = 2 ^ (F.precision - 1) * 2 := by
      rw [← pow_succ, Nat.sub_add_cancel F.positive]
    have half : (0 : ℚ) < 2 ^ (F.precision - 1) := by positivity
    rw [abs_mul, abs_of_pos positive] at large
    rw [zpow_step] at power
    nlinarith
  exact multiple_of_le m below

/-! What a nearest number is. -/

theorem Format.Nearest.le (nearest : F.Nearest x y) (representable : F.Representable z) (below : x ≤ z) :
    y ≤ z := by
  by_contra beyond
  have closer := nearest.closest z representable
  rw [abs_of_nonneg (by linarith : 0 ≤ z - x), abs_of_pos (by linarith : 0 < y - x)] at closer
  linarith

theorem Format.Nearest.ge (nearest : F.Nearest x y) (representable : F.Representable z) (above : z ≤ x) :
    z ≤ y := by
  by_contra beyond
  have closer := nearest.closest z representable
  rw [abs_of_nonpos (by linarith : z - x ≤ 0), abs_of_neg (by linarith : y - x < 0)] at closer
  linarith

theorem Format.Nearest.exact (nearest : F.Nearest x y) (representable : F.Representable x) : y = x :=
  le_antisymm (nearest.le representable le_rfl) (nearest.ge representable le_rfl)

theorem abs_round_le {q : ℚ} {n : Int} (size : |q| ≤ n) : |round q| ≤ n := by
  have limits := abs_le.mp size
  have low := sub_half_lt_round q
  have high := round_le_add_half q
  rw [abs_le]
  constructor
  · have step : (-(n : ℚ)) < ((round q + 1 : Int) : ℚ) := by
      push_cast
      linarith
    have cast : -n < round q + 1 := by exact_mod_cast step
    omega
  · have step : ((round q : Int) : ℚ) < n + 1 := by linarith
    have cast : round q < n + 1 := by exact_mod_cast step
    omega

/-- The error is at most half of the distance between numbers of the size of `x`. -/
theorem Format.Nearest.error (nearest : F.Nearest x y) (least : F.minExponent ≤ e)
    (size : |x| ≤ 2 ^ ((F.precision : Int) + e)) : |y - x| ≤ 2 ^ e / 2 := by
  have positive : (0 : ℚ) < 2 ^ e := by positivity
  have place : x = x / 2 ^ e * 2 ^ e := (div_mul_cancel₀ x positive.ne').symm
  have close := abs_sub_round (x / 2 ^ e)
  have inside : |round (x / 2 ^ e)| ≤ 2 ^ F.precision := by
    apply abs_round_le
    rw [abs_div, abs_of_pos positive, div_le_iff₀ positive]
    rw [zpow_add₀ two_ne_zero, zpow_natCast] at size
    push_cast
    exact size
  calc |y - x| ≤ |round (x / 2 ^ e) * 2 ^ e - x| := nearest.closest _ (representable_of_le inside least)
    _ = |x / 2 ^ e - round (x / 2 ^ e)| * 2 ^ e := by
      rw [← abs_of_pos positive, ← abs_mul, abs_of_pos positive, sub_mul, ← place, abs_sub_comm]
    _ ≤ 1 / 2 * 2 ^ e := mul_le_mul_of_nonneg_right close positive.le
    _ = 2 ^ e / 2 := by ring

/-- A number of full precision is the nearest one for everything within half a step of it. -/
theorem Format.Nearest.snap (nearest : F.Nearest x y) (least : F.minExponent ≤ e)
    (above : 2 ^ (F.precision - 1) < m) (size : m ≤ 2 ^ F.precision)
    (near : |x - m * 2 ^ e| < 2 ^ e / 2) : y = m * 2 ^ e := by
  have positive : (0 : ℚ) < 2 ^ e := by positivity
  have lower : ((2 ^ (F.precision - 1) : Int) : ℚ) + 1 ≤ m := by exact_mod_cast above
  have inside : |m| ≤ 2 ^ F.precision :=
    abs_le.mpr ⟨by have : (0 : Int) < 2 ^ (F.precision - 1) := by positivity
                   linarith, size⟩
  have closer := nearest.closest _ (representable_of_le inside least)
  have apart : |y - m * 2 ^ e| < 2 ^ e := by
    calc |y - m * 2 ^ e| ≤ |y - x| + |x - m * 2 ^ e| := abs_sub_le _ _ _
      _ ≤ |m * 2 ^ e - x| + |x - m * 2 ^ e| := by gcongr
      _ = |x - m * 2 ^ e| + |x - m * 2 ^ e| := by rw [abs_sub_comm]
      _ < 2 ^ e := by linarith
  push_cast at lower
  have large : 2 ^ (F.precision - 1) * (2 : ℚ) ^ e ≤ y := by
    have limits := abs_lt.mp apart
    nlinarith
  obtain ⟨k, rfl⟩ := nearest.representable.multiple (large.trans (le_abs_self y))
  rw [← sub_mul, abs_mul, abs_of_pos positive, mul_lt_iff_lt_one_left positive] at apart
  have same : |k - m| < 1 := by exact_mod_cast apart
  rw [sub_eq_zero.mp (Int.abs_lt_one_iff.mp same)]

/-! The rounding to nearest, ties to even. -/

/-- The integer nearest to `t`; of two, the even one. -/
def nearestEven (t : ℚ) : Int :=
  if 2 * (t - ⌊t⌋) < 1 then ⌊t⌋
  else if 1 < 2 * (t - ⌊t⌋) then ⌊t⌋ + 1
  else if ⌊t⌋ % 2 = 0 then ⌊t⌋ else ⌊t⌋ + 1

theorem nearestEven_cases (t : ℚ) :
    (nearestEven t = ⌊t⌋ ∧ 2 * (t - ⌊t⌋) ≤ 1) ∨ (nearestEven t = ⌊t⌋ + 1 ∧ 1 ≤ 2 * (t - ⌊t⌋)) := by
  rw [nearestEven]
  split_ifs with low high even
  · exact .inl ⟨rfl, low.le⟩
  · exact .inr ⟨rfl, high.le⟩
  · exact .inl ⟨rfl, not_lt.mp high⟩
  · exact .inr ⟨rfl, not_lt.mp low⟩

theorem nearestEven_closest (t : ℚ) (k : Int) : |nearestEven t - t| ≤ |k - t| := by
  have low := Int.floor_le t
  have high := Int.lt_floor_add_one t
  have side : k ≤ ⌊t⌋ ∨ ⌊t⌋ + 1 ≤ k := by omega
  have cast : (k : ℚ) ≤ ⌊t⌋ ∨ (⌊t⌋ : ℚ) + 1 ≤ k := by exact_mod_cast side
  rcases nearestEven_cases t with ⟨value, half⟩ | ⟨value, half⟩
  · rw [value, abs_of_nonpos (by linarith : (⌊t⌋ : ℚ) - t ≤ 0), le_abs]
    rcases cast with below | above
    · right
      linarith
    · left
      linarith
  · rw [value]
    push_cast
    rw [abs_of_nonneg (by linarith : (0 : ℚ) ≤ ⌊t⌋ + 1 - t), le_abs]
    rcases cast with below | above
    · right
      linarith
    · left
      linarith

/-- The exponent of the last digit of numbers of the size of `x`. -/
def Format.exponent (F : Format) (x : ℚ) : Int :=
  max (Int.log 2 |x| + 1 - F.precision) F.minExponent

def Format.round (F : Format) (x : ℚ) : ℚ := nearestEven (x / 2 ^ F.exponent x) * 2 ^ F.exponent x

theorem abs_nearestEven_le {t : ℚ} {n : Int} (size : |t| ≤ n) : |nearestEven t| ≤ n := by
  have limits := abs_le.mp size
  have low : -n ≤ ⌊t⌋ := Int.le_floor.mpr (by push_cast; exact limits.1)
  rw [abs_le]
  rcases nearestEven_cases t with ⟨value, -⟩ | ⟨value, half⟩
  · have high : ⌊t⌋ ≤ n := by exact_mod_cast (Int.floor_le t).trans limits.2
    omega
  · have step : (⌊t⌋ : ℚ) < n := by linarith
    have high : ⌊t⌋ < n := by exact_mod_cast step
    omega

theorem abs_le_exponent (F : Format) (x : ℚ) : |x| ≤ 2 ^ ((F.precision : Int) + F.exponent x) := by
  have logarithm : |x| < 2 ^ (Int.log 2 |x| + 1) := Int.lt_zpow_succ_log_self one_lt_two |x|
  apply logarithm.le.trans
  apply zpow_le_zpow_right₀ one_le_two
  have : Int.log 2 |x| + 1 - F.precision ≤ F.exponent x := le_max_left _ _
  omega

/-- Below the least exponent a number that is not 0 has full precision. -/
theorem exponent_le_abs {F : Format} {x : ℚ} (nonzero : x ≠ 0) (normal : F.minExponent < F.exponent x) :
    2 ^ (F.precision - 1) * (2 : ℚ) ^ F.exponent x ≤ |x| := by
  have logarithm : (2 : ℚ) ^ Int.log 2 |x| ≤ |x| :=
    Int.zpow_log_le_self one_lt_two (abs_pos.mpr nonzero)
  have digits := F.positive
  have exponent : Int.log 2 |x| = (F.precision - 1 : Nat) + F.exponent x := by
    rw [Format.exponent] at normal ⊢
    omega
  rwa [exponent, zpow_add₀ two_ne_zero, zpow_natCast] at logarithm

theorem round_nearest (F : Format) (x : ℚ) : F.Nearest x (F.round x) := by
  have positive : (0 : ℚ) < 2 ^ F.exponent x := by positivity
  have least : F.minExponent ≤ F.exponent x := le_max_right _ _
  have scaled (q : ℚ) : q * 2 ^ F.exponent x - x = (q - x / 2 ^ F.exponent x) * 2 ^ F.exponent x := by
    rw [sub_mul, div_mul_cancel₀ x positive.ne']
  have closest (k : Int) : |F.round x - x| ≤ |k * 2 ^ F.exponent x - x| := by
    rw [Format.round, scaled, scaled, abs_mul, abs_mul]
    exact mul_le_mul_of_nonneg_right (nearestEven_closest _ k) (abs_nonneg _)
  constructor
  · apply representable_of_le (abs_nearestEven_le ?_) least
    rw [abs_div, abs_of_pos positive, div_le_iff₀ positive]
    have size := abs_le_exponent F x
    rw [zpow_add₀ two_ne_zero, zpow_natCast] at size
    push_cast
    exact size
  · rintro z representable
    by_cases zero : x = 0
    · have same := closest 0
      rw [Int.cast_zero, zero_mul, zero_sub, abs_neg] at same
      apply same.trans
      rw [zero, abs_zero]
      exact abs_nonneg _
    by_cases normal : F.minExponent < F.exponent x
    · by_cases large : 2 ^ (F.precision - 1) * (2 : ℚ) ^ F.exponent x ≤ |z|
      · obtain ⟨k, rfl⟩ := representable.multiple large
        exact closest k
      -- the smallest number of full precision lies between
      · have size := exponent_le_abs zero normal
        have small := abs_lt.mp (not_le.mp large)
        rcases lt_or_gt_of_ne zero with negative | above
        · have between := closest (-2 ^ (F.precision - 1))
          push_cast at between
          rw [abs_of_neg negative] at size
          rw [abs_of_nonneg (by linarith : 0 ≤ -2 ^ (F.precision - 1) * 2 ^ F.exponent x - x)] at between
          rw [abs_of_nonneg (by linarith : 0 ≤ z - x)]
          linarith
        · have between := closest (2 ^ (F.precision - 1))
          push_cast at between
          rw [abs_of_pos above] at size
          rw [abs_of_nonpos (by linarith : 2 ^ (F.precision - 1) * 2 ^ F.exponent x - x ≤ 0)] at between
          rw [abs_of_nonpos (by linarith : z - x ≤ 0)]
          linarith
    · have exponent : F.exponent x = F.minExponent := le_antisymm (not_lt.mp normal) least
      obtain ⟨m, e, -, smallest, rfl⟩ := representable
      obtain ⟨k, value⟩ := multiple_of_le m smallest
      rw [value, ← exponent]
      exact closest k

/-- A representable number is not changed. -/
theorem round_representable (representable : F.Representable x) : F.round x = x :=
  (round_nearest F x).exact representable

end FloatingPoint
