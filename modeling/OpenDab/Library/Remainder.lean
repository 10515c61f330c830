import Mathlib.Algebra.Field.ZMod
import Mathlib.Algebra.Polynomial.Div
import Mathlib.Tactic.LinearCombination
import OpenDab.Library.Division

/-! Bit strings as polynomials over the field of two elements: the shift register of a cyclic
redundancy check holds the remainder of a polynomial division. -/
namespace Division

open Polynomial

noncomputable def bitPolynomial (b : Bool) : (ZMod 2)[X] := if b then 1 else 0

/-- The polynomial of a bit string, the first bit the coefficient of the highest power. -/
noncomputable def polynomial : List Bool → (ZMod 2)[X]
  | [] => 0
  | b :: l => bitPolynomial b * X ^ l.length + polynomial l

/-- The divisor of a register: the leading power is not held in the word. -/
noncomputable def generator (poly : BitVec w) : (ZMod 2)[X] := X ^ w + polynomial (msbFirst poly)

theorem bitPolynomial_xor (a b : Bool) :
    bitPolynomial (a ^^ b) = bitPolynomial a + bitPolynomial b := by
  cases a <;> cases b <;> simp [bitPolynomial, CharTwo.add_self_eq_zero]

theorem polynomial_append (l l' : List Bool) :
    polynomial (l ++ l') = polynomial l * X ^ l'.length + polynomial l' := by
  induction l with
  | nil => simp [polynomial]
  | cons b l ih =>
    rw [List.cons_append, polynomial, ih, polynomial, List.length_append, pow_add]
    ring

theorem polynomial_push (l : List Bool) (b : Bool) :
    polynomial (l ++ [b]) = polynomial l * X + bitPolynomial b := by
  rw [polynomial_append]
  simp [polynomial]

theorem degree_polynomial (l : List Bool) : (polynomial l).degree < l.length := by
  induction l with
  | nil => simp [polynomial]
  | cons b l ih =>
    have lead : (bitPolynomial b * X ^ l.length).degree ≤ (l.length : WithBot Nat) := by
      cases b <;> simp [bitPolynomial]
    have longer : (l.length : WithBot Nat) < (b :: l).length := by
      exact_mod_cast Nat.lt_succ_self l.length
    exact (degree_add_le _ _).trans_lt (max_lt (lead.trans_lt longer) (ih.trans longer))

/-- A bit string of known length is determined by its polynomial. -/
theorem polynomial_injective {l l' : List Bool} (length : l.length = l'.length)
    (same : polynomial l = polynomial l') : l = l' := by
  induction l generalizing l' with
  | nil => exact (List.length_eq_zero_iff.mp length.symm).symm
  | cons b l ih =>
    obtain ⟨b', l', rfl⟩ := List.exists_cons_of_length_eq_add_one length.symm
    have rest : l.length = l'.length := Nat.succ_injective length
    have top (c : Bool) (k : List Bool) : (polynomial (c :: k)).coeff k.length =
        if c then 1 else 0 := by
      rw [polynomial, coeff_add, coeff_eq_zero_of_degree_lt (degree_polynomial k), add_zero]
      cases c <;> simp [bitPolynomial]
    have leading : b = b' := by
      have equal : (polynomial (b :: l)).coeff l.length = (polynomial (b' :: l')).coeff l.length := by
        rw [same]
      rw [top, rest, top] at equal
      cases b <;> cases b' <;> simp_all
    subst leading
    rw [polynomial, polynomial, rest, add_right_inj] at same
    rw [ih rest same]

theorem polynomial_xor (u v : BitVec n) :
    polynomial (msbFirst (u ^^^ v)) = polynomial (msbFirst u) + polynomial (msbFirst v) := by
  unfold msbFirst
  generalize List.range n = places
  induction places with
  | nil => simp [polynomial]
  | cons i places ih =>
    simp only [List.map_cons, polynomial, List.length_map]
    rw [ih, BitVec.getMsbD_xor, bitPolynomial_xor]
    ring

theorem polynomial_zero (n : Nat) : polynomial (msbFirst 0#n) = 0 := by
  have twice := polynomial_xor 0#n 0#n
  rw [BitVec.xor_self] at twice
  exact left_eq_add.mp twice

/-- A shift drops the leading power. -/
theorem polynomial_shiftLeft (crc : BitVec w) : polynomial (msbFirst crc) * X =
    polynomial (msbFirst (crc <<< 1)) + bitPolynomial crc.msb * X ^ w := by
  cases w with
  | zero => simp [msbFirst, polynomial, bitPolynomial, BitVec.msb]
  | succ w =>
    have before : msbFirst crc = crc.msb :: (List.range w).map fun i => crc.getMsbD (i + 1) := by
      rw [msbFirst, List.range_succ_eq_map, List.map_cons, List.map_map]
      rfl
    have after : msbFirst (crc <<< 1) = ((List.range w).map fun i => crc.getMsbD (i + 1)) ++ [false] := by
      rw [msbFirst, List.range_succ, List.map_append]
      congr 1
      · exact List.map_congr_left fun i member => by
          simp [BitVec.getMsbD_shiftLeft]
      · simp [BitVec.getMsbD_shiftLeft]
    rw [before, after, polynomial_push, polynomial, List.length_map, List.length_range]
    simp only [bitPolynomial, Bool.false_eq_true, if_false]
    ring

/-- One bit: the generator is subtracted or not. -/
theorem shiftIn_polynomial (poly crc : BitVec w) (bit : Bool) :
    polynomial (msbFirst (shiftIn poly crc bit)) + generator poly * bitPolynomial (crc.msb ^^ bit) =
      polynomial (msbFirst crc) * X + bitPolynomial bit * X ^ w := by
  have taps : polynomial (msbFirst (if crc.msb ^^ bit then poly else 0)) =
      polynomial (msbFirst poly) * bitPolynomial (crc.msb ^^ bit) := by
    cases crc.msb ^^ bit
    · simp [bitPolynomial, polynomial_zero]
    · simp [bitPolynomial]
  have twice (p : (ZMod 2)[X]) : p + p = 0 := CharTwo.add_self_eq_zero p
  rw [shiftIn, polynomial_xor, taps, polynomial_shiftLeft, generator, bitPolynomial_xor]
  linear_combination twice (polynomial (msbFirst poly) *
    (bitPolynomial crc.msb + bitPolynomial bit))

/-- The register holds the remainder, of its start followed by the dividend and room for it. -/
theorem divide_polynomial (poly crc : BitVec w) (bits : List Bool) :
    polynomial (msbFirst (divide poly crc bits)) =
      (polynomial (msbFirst crc) * X ^ bits.length + polynomial bits * X ^ w) %ₘ
        generator poly := by
  have small (v : BitVec w) : (polynomial (msbFirst v)).degree < w := by
    simpa using degree_polynomial (msbFirst v)
  have monic : (generator poly).Monic := monic_X_pow_add (small poly)
  have degree : (generator poly).degree = w := by
    rw [generator, degree_add_eq_left_of_degree_lt] <;> rw [degree_X_pow]
    exact small poly
  obtain ⟨q, division⟩ : ∃ q, polynomial (msbFirst (divide poly crc bits)) + generator poly * q =
      polynomial (msbFirst crc) * X ^ bits.length + polynomial bits * X ^ w := by
    induction bits using List.reverseRecOn with
    | nil => exact ⟨0, by simp [divide, polynomial]⟩
    | append_singleton bits bit ih =>
      obtain ⟨q, division⟩ := ih
      have step := shiftIn_polynomial poly (divide poly crc bits) bit
      refine ⟨q * X + bitPolynomial ((divide poly crc bits).msb ^^ bit), ?_⟩
      rw [divide_append, polynomial_push, List.length_append, List.length_singleton, pow_succ]
      change polynomial (msbFirst (shiftIn poly (divide poly crc bits) bit)) + _ = _
      linear_combination step + X * division
  exact ((div_modByMonic_unique q _ monic ⟨division, degree ▸ small _⟩).2).symm

/-- From an empty register, the remainder of the dividend alone. -/
theorem divide_empty_polynomial (poly : BitVec w) (bits : List Bool) :
    polynomial (msbFirst (divide poly 0#w bits)) = (polynomial bits * X ^ w) %ₘ generator poly := by
  simp only [divide_polynomial, polynomial_zero, zero_mul, zero_add]

end Division
