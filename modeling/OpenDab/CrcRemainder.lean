import OpenDab.CrcCheck
import OpenDab.Library.Remainder

/-! The generator polynomials of the three checks, and the loops over their tables as division of
polynomials over the field of two elements. -/
namespace OpenDab

open Buffers Division Polynomial

theorem ccitt_generator : generator ccittPoly = X ^ 16 + X ^ 12 + X ^ 5 + 1 := by
  have bits : msbFirst ccittPoly = [false, false, false, true, false, false, false, false,
      false, false, true, false, false, false, false, true] := by decide
  simp [generator, bits, polynomial, bitPolynomial, add_assoc]

theorem crc16_generator : generator crc16Poly = X ^ 16 + X ^ 15 + X ^ 2 + 1 := by
  have bits : msbFirst crc16Poly = [true, false, false, false, false, false, false, false,
      false, false, false, false, false, true, false, true] := by decide
  simp [generator, bits, polynomial, bitPolynomial, add_assoc]

theorem fire_generator :
    generator firePoly = (X ^ 11 + 1) * (X ^ 5 + X ^ 3 + X ^ 2 + X + 1) := by
  have bits : msbFirst firePoly = [false, true, true, true, true, false, false, false,
      false, false, true, false, true, true, true, true] := by decide
  simp [generator, bits, polynomial, bitPolynomial]
  ring

/-- The loop leaves the remainder of the start value followed by the message. -/
theorem crcLoop_polynomial {poly : BitVec 16} {tab : List UInt16} (remainders : Remainders poly tab)
    (crc : UInt16) (buf : Nat → UInt8) (len : Nat) :
    polynomial (msbFirst (crcLoop tab crc buf len).toBitVec) =
      (polynomial (msbFirst crc.toBitVec) * X ^ (8 * len) +
        polynomial (byteBits (cells buf 0 len)) * X ^ 16) %ₘ generator poly := by
  rw [crcLoop_divide remainders, divide_polynomial, length_byteBits, length_cells]

/-- The Fire code is accepted exactly when it is the remainder. -/
theorem firecrccheck_polynomial (buf : Nat → UInt8) : firecrccheck buf = true ↔
    polynomial (byteBits (cells buf 0 2)) =
      (polynomial (byteBits (cells buf 2 9)) * X ^ 16) %ₘ
        ((X ^ 11 + 1) * (X ^ 5 + X ^ 3 + X ^ 2 + X + 1)) := by
  have remainder := divide_empty_polynomial firePoly (byteBits (cells buf 2 9))
  rw [fire_generator, ← byteBits_crcBytes] at remainder
  have code : [buf 0, buf 1] = cells buf 0 2 := rfl
  rw [firecrccheck_iff, ← remainder, code]
  constructor
  · exact fun bytes => by rw [bytes]
  · intro same
    refine byteBits_injective (polynomial_injective ?_ same)
    rw [length_byteBits, length_byteBits, length_cells]
    rfl

/-- The loops over the three tables divide by their generator polynomials, bit by bit and as
polynomials. -/
theorem crc_loops_divide (buf : Nat → UInt8) (len : Nat) :
    (crcLoop crctab 0xffff buf len).toBitVec =
        divide ccittPoly 0xffff (byteBits (cells buf 0 len)) ∧
      polynomial (msbFirst (crcLoop crctab 0xffff buf len).toBitVec) =
        (polynomial (msbFirst 0xffff#16) * X ^ (8 * len) +
          polynomial (byteBits (cells buf 0 len)) * X ^ 16) %ₘ (X ^ 16 + X ^ 12 + X ^ 5 + 1) ∧
      (crcLoop crc16tab 0xffff buf len).toBitVec =
        divide crc16Poly 0xffff (byteBits (cells buf 0 len)) ∧
      polynomial (msbFirst (crcLoop crc16tab 0xffff buf len).toBitVec) =
        (polynomial (msbFirst 0xffff#16) * X ^ (8 * len) +
          polynomial (byteBits (cells buf 0 len)) * X ^ 16) %ₘ (X ^ 16 + X ^ 15 + X ^ 2 + 1) ∧
      (firecrccheck buf = true ↔ polynomial (byteBits (cells buf 0 2)) =
        (polynomial (byteBits (cells buf 2 9)) * X ^ 16) %ₘ
          ((X ^ 11 + 1) * (X ^ 5 + X ^ 3 + X ^ 2 + X + 1))) := by
  refine ⟨crcLoop_divide crctab_remainders 0xffff buf len, ?_,
    crcLoop_divide crc16tab_remainders 0xffff buf len, ?_, firecrccheck_polynomial buf⟩
  · rw [← ccitt_generator]
    exact crcLoop_polynomial crctab_remainders 0xffff buf len
  · rw [← crc16_generator]
    exact crcLoop_polynomial crc16tab_remainders 0xffff buf len

end OpenDab
