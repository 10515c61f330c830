import Mathlib.Analysis.Fourier.ZMod

/-! The discrete Fourier transform on the integers modulo `N`: conjugates, translates, a constant,
and a product of a transform with another sequence transformed back. -/
namespace CyclicFourier

open ZMod
open scoped ZMod ComplexConjugate

variable {N : Nat} [NeZero N]

theorem conj_stdAddChar (k : ZMod N) : conj (stdAddChar k : ℂ) = stdAddChar (-k) := by
  rw [stdAddChar_apply, stdAddChar_apply, AddChar.map_neg_eq_inv, Circle.coe_inv_eq_conj]

/-- The transform of the conjugates is the conjugate of the reversed transform. -/
theorem dft_conj (Φ : ZMod N → ℂ) (k : ZMod N) : 𝓕 (fun j => conj (Φ j)) k = conj (𝓕 Φ (-k)) := by
  rw [dft_apply, dft_apply, map_sum]
  refine Finset.sum_congr rfl fun j _ => ?_
  rw [smul_eq_mul, smul_eq_mul, map_mul, conj_stdAddChar, mul_neg, neg_neg]

/-- The transform of an imaginary sequence. -/
theorem dft_imaginary {Φ : ZMod N → ℂ} (imaginary : ∀ j, conj (Φ j) = -Φ j) (k : ZMod N) :
    conj (𝓕 Φ k) = -𝓕 Φ (-k) := by
  have conjugate := dft_conj Φ (-k)
  rw [neg_neg] at conjugate
  rw [← conjugate, funext imaginary]
  exact congrFun (map_neg _ Φ) (-k)

/-- A translate is transformed into a modulated transform. -/
theorem dft_translate (Φ : ZMod N → ℂ) (s k : ZMod N) :
    𝓕 (fun j => Φ (j + s)) k = stdAddChar (s * k) * 𝓕 Φ k := by
  rw [dft_apply, dft_apply, Finset.mul_sum]
  refine Fintype.sum_equiv (Equiv.addRight s) _ _ fun j => ?_
  rw [smul_eq_mul, smul_eq_mul, ← mul_assoc, ← AddChar.map_add_eq_mul, Equiv.coe_addRight]
  congr 2
  ring

/-- A transform multiplied point by point and transformed back is a convolution. -/
theorem dft_dft_mul (Φ Ψ : ZMod N → ℂ) (m : ZMod N) :
    𝓕 (fun k => 𝓕 Φ k * Ψ k) (-m) = ∑ t, Φ t * 𝓕 Ψ (t - m) := by
  calc 𝓕 (fun k => 𝓕 Φ k * Ψ k) (-m)
      = ∑ k, ∑ t, Φ t * (stdAddChar (-(k * (t - m))) * Ψ k) := by
        rw [dft_apply]
        refine Finset.sum_congr rfl fun k _ => ?_
        rw [dft_apply, smul_eq_mul, Finset.sum_mul, Finset.mul_sum]
        refine Finset.sum_congr rfl fun t _ => ?_
        have split : (stdAddChar (-(k * (t - m))) : ℂ) = stdAddChar (-(k * -m)) * stdAddChar (-(t * k)) := by
          rw [← AddChar.map_add_eq_mul]
          congr 1
          ring
        rw [split, smul_eq_mul]
        ring
    _ = ∑ t, Φ t * 𝓕 Ψ (t - m) := by
        rw [Finset.sum_comm]
        refine Finset.sum_congr rfl fun t _ => ?_
        rw [dft_apply, Finset.mul_sum]
        rfl

/-- Only the first point of a constant's transform is not zero. -/
theorem dft_constant (c : ℂ) (k : ZMod N) : 𝓕 (fun _ => c) k = if k = 0 then N * c else 0 := by
  have sum := AddChar.sum_mulShift k (isPrimitive_stdAddChar N)
  rw [ZMod.card] at sum
  have negated : ∑ j : ZMod N, (stdAddChar (-(j * k)) : ℂ) = ∑ j : ZMod N, stdAddChar (j * k) := by
    refine Fintype.sum_equiv (Equiv.neg _) _ _ fun j => ?_
    rw [Equiv.neg_apply, neg_mul]
  simp only [dft_apply, smul_eq_mul]
  rw [← Finset.sum_mul, negated, sum]
  split <;> simp

/-- A sum over the places of a circle. -/
theorem sum_val {M : Type} [AddCommMonoid M] (f : Nat → M) :
    ∑ k : ZMod N, f k.val = ∑ i ∈ Finset.range N, f i := by
  obtain ⟨n, rfl⟩ := Nat.exists_eq_succ_of_ne_zero (NeZero.ne N)
  exact Fin.sum_univ_eq_sum_range f (n + 1)

end CyclicFourier
