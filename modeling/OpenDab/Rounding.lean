import Mathlib.Data.Rat.Floor
import Mathlib.Tactic.Linarith

/-! Conversion of a number with a fraction to an integer. -/
namespace OpenDab

def trunc (q : ℚ) : Int := if 0 ≤ q then ⌊q⌋ else ⌈q⌉

/-- `(int)q`, which is defined when the result is an `int`. -/
def toInt (q : ℚ) : Option Int :=
  if -0x80000000 ≤ trunc q ∧ trunc q ≤ 0x7fffffff then some (trunc q) else none

theorem trunc_intCast (n : Int) : trunc n = n := by
  rw [trunc, Int.floor_intCast, Int.ceil_intCast, ite_self]

theorem trunc_nonneg {q : ℚ} (nonneg : 0 ≤ q) : 0 ≤ trunc q := by
  rw [trunc, if_pos nonneg]
  exact Int.floor_nonneg.mpr nonneg

theorem trunc_mono {q q' : ℚ} (le : q ≤ q') : trunc q ≤ trunc q' := by
  by_cases first : 0 ≤ q
  · rw [trunc, if_pos first, trunc, if_pos (first.trans le)]
    exact Int.floor_mono le
  · have low : ⌈q⌉ ≤ 0 := Int.ceil_nonpos.mpr (le_of_not_ge first)
    rw [trunc, if_neg first]
    by_cases second : 0 ≤ q'
    · exact low.trans (trunc_nonneg second)
    · rw [trunc, if_neg second]
      exact Int.ceil_mono le

/-- Everything above -1 is rounded up to 0. -/
theorem zero_le_trunc_iff (q : ℚ) : 0 ≤ trunc q ↔ -1 < q := by
  by_cases sign : 0 ≤ q
  · have above : -1 < q := by linarith
    exact iff_of_true (trunc_nonneg sign) above
  · have ceiling := Int.lt_ceil (z := -1) (a := q)
    rw [Int.cast_neg, Int.cast_one] at ceiling
    rw [trunc, if_neg sign, ← ceiling]
    omega

theorem trunc_le_iff {n : Int} (nonneg : 0 ≤ n) (q : ℚ) : trunc q ≤ n ↔ q < n + 1 := by
  have bound : (0 : ℚ) ≤ n := by exact_mod_cast nonneg
  by_cases sign : 0 ≤ q
  · have floor := Int.floor_lt (z := n + 1) (a := q)
    rw [Int.cast_add, Int.cast_one] at floor
    rw [trunc, if_pos sign, ← floor]
    omega
  · have low : ⌈q⌉ ≤ 0 := Int.ceil_nonpos.mpr (le_of_not_ge sign)
    have below : q < n + 1 := by linarith
    rw [trunc, if_neg sign]
    exact iff_of_true (low.trans nonneg) below

/-- Truncation of a quotient is integer division. -/
theorem trunc_div (n : Int) {d : Nat} (positive : 0 < d) : trunc ((n : ℚ) / d) = n.tdiv d := by
  have denominator : (0 : ℚ) < d := by exact_mod_cast positive
  by_cases sign : 0 ≤ n
  · have quotient : (0 : ℚ) ≤ (n : ℚ) / d := div_nonneg (by exact_mod_cast sign) denominator.le
    rw [trunc, if_pos quotient, Rat.floor_intCast_div_natCast, Int.tdiv_eq_ediv_of_nonneg sign]
  · have below : (n : ℚ) < 0 := by exact_mod_cast lt_of_not_ge sign
    have quotient : ¬(0 : ℚ) ≤ (n : ℚ) / d := not_le.mpr (div_neg_of_neg_of_pos below denominator)
    have turned : n.tdiv d = -((-n).tdiv d) := by rw [Int.neg_tdiv, neg_neg]
    rw [trunc, if_neg quotient, Rat.ceil_intCast_div_natCast, turned,
      Int.tdiv_eq_ediv_of_nonneg (by omega)]

/-- A quotient that is not negative is rounded down. -/
theorem trunc_eq_ediv {q : ℚ} {n : Int} {d : Nat} (nonneg : 0 ≤ n) (positive : 0 < d)
    (quotient : q = (n : ℚ) / d) : trunc q = n / d := by
  rw [quotient, trunc_div n positive, Int.tdiv_eq_ediv_of_nonneg nonneg]

end OpenDab
