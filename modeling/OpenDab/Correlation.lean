import OpenDab.Library.Fourier
import OpenDab.Spectrum

/-! What the coarse search computes, with exact transforms. The reversals make a forward transform
of the backward one and the other way round, so the search correlates the received symbol with the
reference at every offset at once. -/
namespace OpenDab

open Buffers Peak ZMod CyclicFourier
open scoped ZMod ComplexConjugate

instance circle_neZero : NeZero (2048 : Nat) := ⟨Nat.succ_ne_zero 2047⟩

def circle (points : Nat → ℝ × ℝ) (k : ZMod 2048) : ℂ := ⟨(points k.val).1, (points k.val).2⟩

/-- The library's transforms, neither of them normalised. -/
structure Instruments.Exact (tools : Instruments ℝ) : Prop where
  fft : ∀ points k, circle (tools.fft points) k = 𝓕 (circle points) k
  ifft : ∀ points k, circle (tools.ifft points) k = 𝓕 (circle points) (-k)
  sqrt : tools.sqrt = Real.sqrt

theorem val_reversed (k : ZMod 2048) : reversed 2048 k.val = (-k).val := by
  rw [reversed, ZMod.neg_val]
  by_cases zero : k = 0
  · rw [if_pos zero, zero, ZMod.val_zero, if_pos rfl]
  · rw [if_neg zero, if_neg ((ZMod.val_ne_zero k).mpr zero)]

section Exact

variable {tools : Instruments ℝ} (exact : tools.Exact)
include exact

/-- The inverse transform with its real parts reversed is the forward transform. -/
theorem receivedPoints_exact (prsb : Nat → UInt8) (k : ZMod 2048) :
    circle (receivedPoints tools prsb) k = 𝓕 (circle (prsScale prsb)) k := by
  have inside := ZMod.val_lt k
  have imaginary : ∀ j, conj (circle (prsScale prsb) j) = -circle (prsScale prsb) j := by
    intro j
    apply Complex.ext <;> simp [circle, prsScale]
  have mirrored := dft_imaginary imaginary k
  have re := congrArg Complex.re (exact.ifft (prsScale prsb) (-k))
  have im := congrArg Complex.im (exact.ifft (prsScale prsb) k)
  have opposite := congrArg Complex.im mirrored
  rw [neg_neg] at re
  rw [Complex.conj_im, Complex.neg_im] at opposite
  apply Complex.ext
  · rw [circle, receivedPoints, prsPoints, reverseReal_apply (by decide) _ inside, val_reversed]
    exact re
  · rw [circle, receivedPoints, prsPoints, reverseReal_apply (by decide) _ inside]
    exact im.trans (neg_injective opposite).symm

/-- The forward transform with its points reversed is the inverse transform. -/
theorem reversed_exact (points : Nat → ℝ × ℝ) (k : ZMod 2048) :
    circle (reversePoints 2048 (tools.fft points)) k = 𝓕 (circle points) (-k) := by
  have value := exact.fft points (-k)
  rw [circle] at value ⊢
  rw [reversePoints_apply (by decide) _ (ZMod.val_lt k), val_reversed]
  exact value

end Exact

/-- An index on the circle. -/
theorem val_offset (k : ZMod 2048) (a : Int) : (k + a).val = (((k.val : Int) + a) % 2048).toNat := by
  have value := ZMod.val_intCast (n := 2048) ((k.val : Int) + a)
  rw [Int.cast_add, Int.cast_natCast, ZMod.natCast_zmod_val] at value
  rw [← Int.toNat_natCast (k + a).val, value]
  rfl

theorem circle_reference (tools : Instruments ℝ) (syncLocked : Bool) {j : Nat} (small : j ≤ 24)
    (k : ZMod 2048) : circle (shift (localReference tools syncLocked) j) k =
      circle tools.prs1 (k + (referenceShift syncLocked j : Int)) := by
  have inside := ZMod.val_lt k
  have place : referenceShift syncLocked (j + k.val) = (k.val : Int) + referenceShift syncLocked j := by
    cases syncLocked <;> simp only [referenceShift, if_true, if_false, Bool.false_eq_true] <;> omega
  simp only [circle, shift_apply]
  rw [localReference_apply tools syncLocked (by omega), place, val_offset]

theorem circle_mpyBy (d : ℝ) (srca srcb : Nat → ℝ × ℝ) (k : ZMod 2048) :
    circle (mpyBy d srca srcb) k = circle srca k * circle srcb k / d := by
  apply Complex.ext
  · simp [circle, mpyBy, Complex.div_ofReal_re]
  · simp [circle, mpyBy, Complex.div_ofReal_im]

/-- The correlation at an offset: each point of the received symbol against the reference's
transform at its distance from the offset, turned in phase by the shift. -/
noncomputable def correlationAt (tools : Instruments ℝ) (prsb : Nat → UInt8) (s : Int) (m : ZMod 2048) : ℂ :=
  ∑ t, circle (prsScale prsb) t * (stdAddChar ((s : ZMod 2048) * (t - m)) * 𝓕 (circle tools.prs1) (t - m))

theorem correlation_exact {tools : Instruments ℝ} (exact : tools.Exact) (prsb : Nat → UInt8)
    (syncLocked : Bool) {j : Nat} (small : j ≤ 24) (m : ZMod 2048) :
    circle (correlation tools syncLocked (receivedPoints tools prsb) j) m =
      correlationAt tools prsb (referenceShift syncLocked j) m / 1024 := by
  have product : circle (mpy3 (receivedPoints tools prsb)
      (shift (localReference tools syncLocked) j)) = fun k =>
      𝓕 (circle (prsScale prsb)) k *
        circle tools.prs1 (k + (referenceShift syncLocked j : Int)) * (1024 : ℂ)⁻¹ := by
    funext k
    rw [mpy3, circle_mpyBy, receivedPoints_exact exact, circle_reference tools syncLocked small]
    push_cast
    ring
  have transform := dft_dft_mul (circle (prsScale prsb))
    (fun k : ZMod 2048 => circle tools.prs1 (k + (referenceShift syncLocked j : Int))) m
  simp only [dft_translate] at transform
  rw [correlation, prsPoints, reversed_exact exact, product, dft_mul_const]
  dsimp only
  rw [transform, correlationAt, div_eq_mul_inv]

/-! The search picks the strongest of the correlations that stand out. -/

noncomputable def strength (tools : Instruments ℝ) (prsb : Nat → UInt8) (s : Int) (m : ZMod 2048) : ℝ :=
  ‖correlationAt tools prsb s m‖ / 0x200000

/-- Somewhere a shift is 12 times as strong as it is on average. -/
def StandsOut (tools : Instruments ℝ) (prsb : Nat → UInt8) (s : Int) : Prop :=
  ∃ m, (∑ k, strength tools prsb s k) / 2048 * (12 : Nat) ≤ strength tools prsb s m

theorem standsOut_iff (tools : Instruments ℝ) (prsb : Nat → UInt8) (s : Int) :
    StandsOut tools prsb s ↔ ∃ m, (∑ k, strength tools prsb s k) / 2048 * 12 ≤ strength tools prsb s m := by
  rw [StandsOut, Nat.cast_ofNat]

def tried (syncLocked : Bool) : List Int :=
  (List.range (if syncLocked then 1 else 25)).map (referenceShift syncLocked)

theorem few_shifts {syncLocked : Bool} {j : Nat} (bound : j < if syncLocked then 1 else 25) : j ≤ 24 := by
  cases syncLocked <;> simp at bound <;> omega

theorem mag_norm (points : Nat → ℝ × ℝ) (k : ZMod 2048) :
    mag Real.sqrt 2048 points k.val = ‖circle points k‖ / 2048 := by
  rw [mag, Complex.norm_def, Complex.normSq_apply]
  norm_num [circle]

/-- A shift and an offset are the strongest of those that stand out. -/
structure Strongest (tools : Instruments ℝ) (prsb : Nat → UInt8) (syncLocked : Bool) (v : ℝ)
    (m : ZMod 2048) : Prop where
  positive : 0 < v
  reached : ∃ s ∈ tried syncLocked, StandsOut tools prsb s ∧ strength tools prsb s m = v
  largest : ∀ s ∈ tried syncLocked, StandsOut tools prsb s → ∀ k, strength tools prsb s k ≤ v

section Search

variable {tools : Instruments ℝ} (exact : tools.Exact) (prsb : Nat → UInt8) (syncLocked : Bool)
include exact

theorem magnitudes_exact {j : Nat} (small : j ≤ 24) (m : ZMod 2048) :
    magnitudes tools syncLocked (receivedPoints tools prsb) j m.val =
      strength tools prsb (referenceShift syncLocked j) m := by
  rw [magnitudes, exact.sqrt, prsPoints, mag_norm, correlation_exact exact prsb syncLocked small,
    norm_div, strength, div_div]
  norm_num

/-- What one shift contributes, and at which offset. -/
theorem shiftValue_exact {j : Nat} (small : j ≤ 24) :
    let values := magnitudes tools syncLocked (receivedPoints tools prsb) j
    ∃ k : ZMod 2048, (maxext values prsPoints).2 = k.val ∧
      (∀ m, strength tools prsb (referenceShift syncLocked j) m ≤
        strength tools prsb (referenceShift syncLocked j) k) ∧
      (StandsOut tools prsb (referenceShift syncLocked j) ∧
          shiftValue tools syncLocked (receivedPoints tools prsb) j =
            strength tools prsb (referenceShift syncLocked j) k ∨
        ¬StandsOut tools prsb (referenceShift syncLocked j) ∧
          shiftValue tools syncLocked (receivedPoints tools prsb) j = 0) := by
  intro values
  have exactly (m : ZMod 2048) : values m.val = strength tools prsb (referenceShift syncLocked j) m :=
    magnitudes_exact exact prsb syncLocked small m
  obtain ⟨pair, found⟩ := maxext_first values (show 0 < prsPoints by decide)
  obtain ⟨k, place⟩ : ∃ k : ZMod 2048, (maxext values prsPoints).2 = k.val :=
    ⟨((maxext values prsPoints).2 : ZMod 2048), (ZMod.val_cast_of_lt found.inside).symm⟩
  have largest (m : ZMod 2048) : strength tools prsb (referenceShift syncLocked j) m ≤
      strength tools prsb (referenceShift syncLocked j) k := by
    rw [← exactly, ← exactly, ← place]
    exact found.largest _ (ZMod.val_lt m)
  have value : shiftValue tools syncLocked (receivedPoints tools prsb) j =
      if (∑ m, strength tools prsb (referenceShift syncLocked j) m) / 2048 * 12 >
        strength tools prsb (referenceShift syncLocked j) k then 0
      else strength tools prsb (referenceShift syncLocked j) k := by
    have top : (maxext values prsPoints).1 = strength tools prsb (referenceShift syncLocked j) k := by
      rw [pair, place, exactly]
    have mean : meanMag values prsPoints =
        (∑ m, strength tools prsb (referenceShift syncLocked j) m) / 2048 := by
      rw [meanMag_eq, prsPoints, ← sum_val]
      simp only [exactly]
      norm_num
    rw [← mean, ← top]
    rfl
  refine ⟨k, place, largest, ?_⟩
  rw [value]
  split
  · next more =>
    refine .inr ⟨fun stands => ?_, rfl⟩
    obtain ⟨m, enough⟩ := (standsOut_iff tools prsb _).mp stands
    exact absurd (enough.trans (largest m)) (not_le.mpr more)
  · next less => exact .inl ⟨(standsOut_iff tools prsb _).mpr ⟨k, not_lt.mp less⟩, rfl⟩

/-- What bounds the value of every shift bounds every correlation that stands out. -/
theorem strength_le {v : ℝ} (high : ∀ j < if syncLocked then 1 else 25,
    shiftValue tools syncLocked (receivedPoints tools prsb) j ≤ v) {s : Int}
    (member : s ∈ tried syncLocked) (stands : StandsOut tools prsb s) (k : ZMod 2048) :
    strength tools prsb s k ≤ v := by
  obtain ⟨j, bound, rfl⟩ := List.mem_map.mp member
  rw [List.mem_range] at bound
  obtain ⟨top, -, largest, ⟨-, value⟩ | ⟨weak, -⟩⟩ :=
    shiftValue_exact exact prsb syncLocked (few_shifts bound)
  · exact (largest k).trans (value ▸ high j bound)
  · exact absurd stands weak

/-- Where something stands out, the search finds the strongest. -/
theorem coarseSearch_strongest {s : Int} (member : s ∈ tried syncLocked)
    (stands : StandsOut tools prsb s) {k : ZMod 2048} (positive : 0 < strength tools prsb s k) :
    ∃ m : ZMod 2048, (coarseSearch tools syncLocked prsb).2 = m.val ∧
      Strongest tools prsb syncLocked (coarseSearch tools syncLocked prsb).1 m := by
  rw [coarseSearch_scan]
  rcases scan_cases (shiftValue tools syncLocked (receivedPoints tools prsb)) 0
    (if syncLocked then 1 else 25) with ⟨-, low⟩ | ⟨j, scanned, above, found⟩
  · exact absurd positive (not_lt.mpr (strength_le exact prsb syncLocked low member stands k))
  · rw [scanned]
    obtain ⟨m, place, -, ⟨stands, value⟩ | ⟨-, none⟩⟩ :=
      shiftValue_exact exact prsb syncLocked (few_shifts found.inside)
    · exact ⟨m, place, above,
        ⟨_, List.mem_map.mpr ⟨j, List.mem_range.mpr found.inside, rfl⟩, stands, value.symm⟩,
        fun s member stands k => strength_le exact prsb syncLocked found.largest member stands k⟩
    · exact absurd above (not_lt.mpr none.le)

/-- A shift has a value only through a correlation that stands out. -/
theorem coarseSearch_silent (silent : ∀ s ∈ tried syncLocked, StandsOut tools prsb s →
    ∀ k, strength tools prsb s k = 0) : coarseSearch tools syncLocked prsb = (0, 0) := by
  rw [coarseSearch_scan]
  rcases scan_cases (shiftValue tools syncLocked (receivedPoints tools prsb)) 0
    (if syncLocked then 1 else 25) with ⟨scanned, -⟩ | ⟨j, -, above, found⟩
  · rw [scanned]
    rfl
  · obtain ⟨m, -, -, ⟨stands, value⟩ | ⟨-, none⟩⟩ :=
      shiftValue_exact exact prsb syncLocked (few_shifts found.inside)
    · have zero := silent _ (List.mem_map.mpr ⟨j, List.mem_range.mpr found.inside, rfl⟩) stands m
      exact absurd above (not_lt.mpr (value.trans zero).le)
    · exact absurd above (not_lt.mpr none.le)

/-- The search finds the strongest correlation that stands out, or nothing if there is none. -/
theorem coarse_search_exact :
    (∃ m : ZMod 2048, (coarseSearch tools syncLocked prsb).2 = m.val ∧
        Strongest tools prsb syncLocked (coarseSearch tools syncLocked prsb).1 m) ∨
      (coarseSearch tools syncLocked prsb = (0, 0) ∧
        ∀ s ∈ tried syncLocked, StandsOut tools prsb s → ∀ k, strength tools prsb s k = 0) := by
  by_cases silent : ∀ s ∈ tried syncLocked, StandsOut tools prsb s → ∀ k, strength tools prsb s k = 0
  · exact .inr ⟨coarseSearch_silent exact prsb syncLocked silent, silent⟩
  · push Not at silent
    obtain ⟨s, member, stands, k, heard⟩ := silent
    have positive : 0 < strength tools prsb s k :=
      lt_of_le_of_ne (div_nonneg (norm_nonneg _) (by norm_num)) heard.symm
    exact .inl (coarseSearch_strongest exact prsb syncLocked member stands positive)

end Search

def moved (d : ZMod 2048) (prsb : Nat → UInt8) (k : Nat) : UInt8 := prsb ((k : ZMod 2048) - d).val

section Moved

variable (tools : Instruments ℝ) (prsb : Nat → UInt8) (d : ZMod 2048)

theorem strength_moved (s : Int) (m : ZMod 2048) :
    strength tools (moved d prsb) s (m + d) = strength tools prsb s m := by
  have data (t : ZMod 2048) : circle (prsScale (moved d prsb)) t = circle (prsScale prsb) (t - d) := by
    simp only [circle, prsScale, moved, ZMod.natCast_zmod_val]
  have same : correlationAt tools (moved d prsb) s (m + d) = correlationAt tools prsb s m := by
    refine Fintype.sum_equiv (Equiv.subRight d) _ _ fun t => ?_
    rw [data, Equiv.subRight_apply, show t - (m + d) = t - d - m by ring]
  rw [strength, strength, same]

theorem standsOut_moved (s : Int) :
    StandsOut tools (moved d prsb) s ↔ StandsOut tools prsb s := by
  have sum : ∑ k, strength tools (moved d prsb) s k = ∑ k, strength tools prsb s k :=
    (Fintype.sum_equiv (Equiv.addRight d) _ _ fun k => (strength_moved tools prsb d s k).symm).symm
  unfold StandsOut
  rw [sum]
  constructor
  · rintro ⟨m, enough⟩
    refine ⟨m - d, ?_⟩
    rwa [← strength_moved tools prsb d, sub_add_cancel]
  · rintro ⟨m, enough⟩
    refine ⟨m + d, ?_⟩
    rwa [strength_moved]

theorem strongest_moved (syncLocked : Bool) (v : ℝ) (m : ZMod 2048) :
    Strongest tools (moved d prsb) syncLocked v (m + d) ↔ Strongest tools prsb syncLocked v m := by
  constructor
  · rintro ⟨positive, ⟨s, member, stands, reached⟩, largest⟩
    refine ⟨positive, ⟨s, member, ?_, ?_⟩, fun s member stands k => ?_⟩
    · rwa [standsOut_moved] at stands
    · rwa [strength_moved] at reached
    · rw [← strength_moved tools prsb d]
      exact largest s member ((standsOut_moved tools prsb d s).mpr stands) (k + d)
  · rintro ⟨positive, ⟨s, member, stands, reached⟩, largest⟩
    refine ⟨positive, ⟨s, member, ?_, ?_⟩, fun s member stands k => ?_⟩
    · rwa [standsOut_moved]
    · rwa [strength_moved]
    · have bound := largest s member ((standsOut_moved tools prsb d s).mp stands) (k - d)
      rwa [← strength_moved tools prsb d, sub_add_cancel] at bound

end Moved

theorem signedIndex_val (m : ZMod 2048) : ((signedIndex m.val : Int) : ZMod 2048) = -m ∧
    -1024 < signedIndex m.val ∧ signedIndex m.val ≤ 1024 := by
  have inside := ZMod.val_lt m
  unfold signedIndex
  split
  · refine ⟨?_, by omega, by omega⟩
    rw [Int.cast_neg, Int.cast_natCast, ZMod.natCast_zmod_val]
  · refine ⟨?_, by omega, by omega⟩
    rw [Int.cast_sub, Int.cast_natCast, ZMod.natCast_zmod_val]
    exact zero_sub m

/-- Where one offset only is the strongest, the search finds it, and with the carriers moved it
finds it moved: the signed offset goes the other way, round the symbol. -/
theorem coarse_search_moved {tools : Instruments ℝ} (exact : tools.Exact) {prsb : Nat → UInt8}
    {syncLocked : Bool} {v : ℝ} {m : ZMod 2048} (strongest : Strongest tools prsb syncLocked v m)
    (only : ∀ k, Strongest tools prsb syncLocked v k → k = m) (d : ZMod 2048) :
    coarseSearch tools syncLocked (moved d prsb) = (v, (m + d).val) ∧
      ((signedIndex (coarseSearch tools syncLocked (moved d prsb)).2 : Int) : ZMod 2048) = -(m + d) := by
  have there := (strongest_moved tools prsb d syncLocked v m).mpr strongest
  obtain ⟨s, member, stands, reached⟩ := there.reached
  obtain ⟨k, place, best⟩ := coarseSearch_strongest exact (moved d prsb) syncLocked member stands
    (there.positive.trans_eq reached.symm)
  obtain ⟨s', member', stands', reached'⟩ := best.reached
  have value : (coarseSearch tools syncLocked (moved d prsb)).1 = v :=
    le_antisymm (reached' ▸ there.largest s' member' stands' k)
      (reached ▸ best.largest s member stands (m + d))
  rw [value, ← sub_add_cancel k d, strongest_moved] at best
  have offset : k = m + d := by rw [← only _ best, sub_add_cancel]
  rw [offset] at place
  refine ⟨Prod.ext value place, ?_⟩
  rw [place]
  exact (signedIndex_val (m + d)).1

/-! A reference whose transform is one point correlates to the symbol itself. -/

noncomputable def flatTools : Instruments ℝ where
  fft points k := ((𝓕 (circle points) (k : ZMod 2048)).re, (𝓕 (circle points) (k : ZMod 2048)).im)
  ifft points k := ((𝓕 (circle points) (-(k : ZMod 2048))).re, (𝓕 (circle points) (-(k : ZMod 2048))).im)
  sqrt := Real.sqrt
  cosTable _ := 0
  prs1 _ := (1, 0)
  prs2 _ := (1, 0)

theorem flatTools_exact : flatTools.Exact := by
  refine ⟨fun points k => ?_, fun points k => ?_, rfl⟩
  · rw [circle, flatTools]
    dsimp only
    rw [ZMod.natCast_zmod_val]
  · rw [circle, flatTools]
    dsimp only
    rw [ZMod.natCast_zmod_val]

def oneCarrier (k : Nat) : UInt8 := if k = 6 then 228 else 128

theorem strength_flat (prsb : Nat → UInt8) (s : Int) (m : ZMod 2048) :
    strength flatTools prsb s m = |((prsb m.val).toNat : ℝ) - 128| / 1024 := by
  have reference : circle flatTools.prs1 = fun _ => 1 := by
    funext k
    rfl
  have point : correlationAt flatTools prsb s m = circle (prsScale prsb) m * 2048 := by
    rw [correlationAt, reference]
    simp only [dft_constant, sub_eq_zero]
    rw [Finset.sum_eq_single_of_mem m (Finset.mem_univ m)]
    · simp
    · intro t _ other
      rw [if_neg other, mul_zero, mul_zero]
  have size : ‖circle (prsScale prsb) m‖ = |((prsb m.val).toNat : ℝ) - 128| := by
    have imaginary : circle (prsScale prsb) m = (((prsb m.val).toNat : ℝ) - 128 : ℝ) * Complex.I := by
      apply Complex.ext <;> simp [circle, prsScale]
    rw [imaginary, norm_mul, Complex.norm_I, mul_one, Complex.norm_real, Real.norm_eq_abs]
  rw [strength, point, norm_mul, size, Complex.norm_ofNat]
  ring

theorem strength_oneCarrier (s : Int) (m : ZMod 2048) :
    strength flatTools oneCarrier s m = if m = 6 then 100 / 1024 else 0 := by
  have place : m.val = 6 ↔ m = 6 := ⟨fun same => ZMod.val_injective 2048 same, fun same => same ▸ rfl⟩
  have loud : (228 : UInt8).toNat = 228 := rfl
  have silent : (128 : UInt8).toNat = 128 := rfl
  rw [strength_flat, oneCarrier]
  simp only [place]
  split
  · rw [loud]
    norm_num
  · rw [silent]
    norm_num

theorem strongest_oneCarrier (v : ℝ) (m : ZMod 2048) :
    Strongest flatTools oneCarrier false v m ↔ v = 100 / 1024 ∧ m = 6 := by
  constructor
  · rintro ⟨positive, ⟨s, -, -, reached⟩, -⟩
    rw [strength_oneCarrier] at reached
    split at reached
    · next place => exact ⟨reached.symm, place⟩
    · exact absurd reached positive.ne
  · rintro ⟨rfl, rfl⟩
    have stands : StandsOut flatTools oneCarrier (-12) := by
      refine (standsOut_iff _ _ _).mpr ⟨6, ?_⟩
      simp only [strength_oneCarrier]
      rw [Finset.sum_ite_eq' Finset.univ 6, if_pos (Finset.mem_univ 6)]
      norm_num
    refine ⟨by norm_num, ⟨-12, by decide, stands, by rw [strength_oneCarrier, if_pos rfl]⟩,
      fun s _ _ k => ?_⟩
    rw [strength_oneCarrier]
    split <;> norm_num

theorem coarse_search_exact_oneCarrier :
    coarseSearch flatTools false oneCarrier = (100 / 1024, (6 : ZMod 2048).val) := by
  have best := (strongest_oneCarrier (100 / 1024) 6).mpr ⟨rfl, rfl⟩
  obtain ⟨s, member, stands, reached⟩ := best.reached
  rcases coarse_search_exact flatTools_exact oneCarrier false with ⟨m, place, found⟩ | ⟨-, silent⟩
  · obtain ⟨value, rfl⟩ := (strongest_oneCarrier _ m).mp found
    exact Prod.ext value place
  · exact absurd (silent s member stands 6) (reached ▸ best.positive.ne')

theorem coarse_search_moved_oneCarrier :
    coarseSearch flatTools false (moved 7 oneCarrier) = (100 / 1024, (6 + 7 : ZMod 2048).val) ∧
      ((signedIndex (coarseSearch flatTools false (moved 7 oneCarrier)).2 : Int) : ZMod 2048) =
        -(6 + 7) :=
  coarse_search_moved flatTools_exact ((strongest_oneCarrier _ 6).mpr ⟨rfl, rfl⟩)
    (fun k best => ((strongest_oneCarrier _ k).mp best).2) 7

end OpenDab
