import OpenDab.Wfic.FreeDistance
import OpenDab.Wfic.Erasure
import OpenDab.Wfic.Puncture
import Mathlib.Tactic.LinearCombination
import Mathlib.Tactic.Ring

/-! Errors in the received code bits of the FIC. Two codewords differ in at least ten of the
bits that are sent, so four errors leave the one that was sent the best. -/
namespace OpenDab

open Buffers Puncturing Finset

def Apart (keep : Nat → Bool) (c c' : Nat → UInt8) (p : Nat) : Prop := keep p = true ∧ c p ≠ c' p

instance (keep : Nat → Bool) (c c' : Nat → UInt8) : DecidablePred (Apart keep c c') :=
  fun _ => inferInstanceAs (Decidable (_ ∧ _))

theorem bit_weight {a b : UInt8} (bit : a = 0 ∨ a = 1) (bit' : b = 0 ∨ b = 1) :
    (a ^^^ b).toNat = if a ≠ b then 1 else 0 := by
  rcases bit with rfl | rfl <;> rcases bit' with rfl | rfl <;> rfl

theorem firstWeight_sum (x y : Nat → Bool) (t : Nat) :
    firstWeight (window (fun t => x t ^^ y t) t) =
      (if codeword x (4 * t) ≠ codeword y (4 * t) then 1 else 0) +
        if codeword x (4 * t + 1) ≠ codeword y (4 * t + 1) then 1 else 0 := by
  have output {p r : Nat} (place : p / 4 = t ∧ p % 4 = r) :
      (parity (window (fun t => x t ^^ y t) t &&& polys r)).toNat =
        if codeword x p ≠ codeword y p then 1 else 0 := by
    rw [← bit_weight (codeword_bit x p) (codeword_bit y p), ← codeword_xor, codeword, place.1, place.2]
  rw [firstWeight, output (p := 4 * t) (by omega), output (p := 4 * t + 1) (by omega)]

theorem weight_le_apart {keep : Nat → Bool} (two : ∀ t, keep (4 * t) = true ∧ keep (4 * t + 1) = true)
    (x y : Nat → Bool) (n : Nat) :
    ∑ t ∈ range n, firstWeight (window (fun t => x t ^^ y t) t) ≤
      Nat.count (Apart keep (codeword x) (codeword y)) (4 * n) := by
  induction n with
  | zero => simp
  | succ n ih =>
    rw [Finset.sum_range_succ, show 4 * (n + 1) = 4 * n + 1 + 1 + 1 + 1 by omega, Nat.count_succ,
      Nat.count_succ, Nat.count_succ, Nat.count_succ, firstWeight_sum]
    simp only [Apart, two n, true_and]
    omega

/-- Two messages that leave the register empty are ten kept bits apart. -/
theorem codewords_apart {keep : Nat → Bool} (two : ∀ t, keep (4 * t) = true ∧ keep (4 * t + 1) = true)
    {x y : Nat → Bool} {n : Nat} (differ : ∃ t < n, x t ≠ y t) (empty : register x n = 0)
    (empty' : register y n = 0) :
    10 ≤ Nat.count (Apart keep (codeword x) (codeword y)) (4 * n) := by
  refine Nat.le_trans (free_distance ?_ ?_) (weight_le_apart two x y n)
  · obtain ⟨t, inside, apart⟩ := differ
    exact ⟨t, inside, by simpa using apart⟩
  · rw [register_xor, empty, empty']
    rfl

/-- The received symbols are the kept code bits, inverted where there is an error. -/
def Damaged (keep err : Nat → Bool) (c symbols : Nat → UInt8) (n : Nat) : Prop :=
  ∀ p < n, symbols p = if keep p then soft (if err p then 1 - c p else c p) else 128

theorem Damaged.soft {keep err : Nat → Bool} {c symbols : Nat → UInt8} {n : Nat}
    (damaged : Damaged keep err c symbols n) (bits : ∀ p, c p = 0 ∨ c p = 1) :
    ∀ p < n, symbols p = 127 ∨ symbols p = 128 ∨ symbols p = 129 := by
  intro p inside
  rw [damaged p inside]
  apply soft_cases
  cases err p with
  | false => exact bits p
  | true =>
    rcases bits p with zero | one
    · rw [zero]
      exact .inr rfl
    · rw [one]
      exact .inl rfl

section Errors

variable {mettab : Nat → Nat → Int} (met : GenMet mettab)
include met

/-- One position: right and wrong bits differ by the same amount wherever they differ. -/
theorem mettab_difference {b c : UInt8} (bit : b = 0 ∨ b = 1) (other : c = 0 ∨ c = 1)
    (kept wrong : Bool) :
    mettab b.toNat (if kept then soft (if wrong then 1 - b else b) else 128).toNat -
        mettab c.toNat (if kept then soft (if wrong then 1 - b else b) else 128).toNat =
      (mettab 0 127 - mettab 0 129) * ((if kept = true ∧ b ≠ c then 1 else 0) -
        2 * if (kept = true ∧ b ≠ c) ∧ wrong = true then 1 else 0) := by
  have same := met.same
  have flipped := met.flipped
  have erased := met.erased
  rcases bit with rfl | rfl <;> rcases other with rfl | rfl <;> cases kept <;> cases wrong <;>
    simp [soft] <;> omega

/-- Every kept bit in which another word differs counts for the word that was sent, or against
it if it is in error. -/
theorem pathMetric_difference {keep err : Nat → Bool} {b c symbols : Nat → UInt8} {n : Nat}
    (damaged : Damaged keep err b symbols n) (bits : ∀ p, b p = 0 ∨ b p = 1)
    (others : ∀ p, c p = 0 ∨ c p = 1) :
    pathMetric mettab symbols b n - pathMetric mettab symbols c n =
      (mettab 0 127 - mettab 0 129) * (Nat.count (Apart keep b c) n -
        2 * Nat.count (fun p => Apart keep b c p ∧ err p = true) n) := by
  induction n with
  | zero => simp [pathMetric]
  | succ n ih =>
    have before := ih fun p inside => damaged p (by omega)
    have step : mettab (b n).toNat (symbols n).toNat - mettab (c n).toNat (symbols n).toNat =
        (mettab 0 127 - mettab 0 129) * ((if Apart keep b c n then 1 else 0) -
          2 * if Apart keep b c n ∧ err n = true then 1 else 0) := by
      rw [damaged n (by omega)]
      exact mettab_difference met (bits n) (others n) (keep n) (err n)
    rw [pathMetric, pathMetric, Nat.count_succ, Nat.count_succ]
    simp only [Nat.cast_add, Nat.cast_ite, Nat.cast_one, Nat.cast_zero]
    linear_combination before + step

/-- With fewer errors than half the bits that tell a word apart, it is worse. -/
theorem pathMetric_apart {keep err : Nat → Bool} {b c symbols : Nat → UInt8} {n : Nat}
    (damaged : Damaged keep err b symbols n) (bits : ∀ p, b p = 0 ∨ b p = 1)
    (others : ∀ p, c p = 0 ∨ c p = 1)
    (few : 2 * Nat.count (fun p => Apart keep b c p ∧ err p = true) n < Nat.count (Apart keep b c) n) :
    pathMetric mettab symbols c n < pathMetric mettab symbols b n := by
  have difference := pathMetric_difference met damaged bits others
  have better : 0 < mettab 0 127 - mettab 0 129 := by
    have better := met.better
    omega
  have more : 0 < (Nat.count (Apart keep b c) n : Int) -
      2 * Nat.count (fun p => Apart keep b c p ∧ err p = true) n := by
    omega
  have positive := Int.mul_pos better more
  omega

end Errors

/-- The positions of kept bits in error, one for each error. -/
theorem count_errors (keep : Nat → Bool) (c c' : Nat → UInt8) (errors : Finset Nat) (n : Nat) :
    Nat.count (fun p => Apart keep c c' p ∧ decide (rank keep p ∈ errors) = true) n ≤
      errors.card := by
  rw [Nat.count_eq_card_filter_range]
  refine Finset.card_le_card_of_injOn (rank keep) (fun p member => ?_) fun p member q member' same => ?_
  · exact of_decide_eq_true (Finset.mem_filter.mp member).2.2
  · have chosen := (Finset.mem_filter.mp member).2.1.1
    have chosen' := (Finset.mem_filter.mp member').2.1.1
    by_contra apart
    rcases Nat.lt_or_gt_of_ne apart with before | after
    · exact absurd same (Nat.ne_of_lt (rank_lt before chosen))
    · exact absurd same.symm (Nat.ne_of_lt (rank_lt after chosen'))

def invert (errors : Finset Nat) (bits : Nat → UInt8) (i : Nat) : UInt8 :=
  if i ∈ errors then 1 - bits i else bits i

theorem ficKeeps_two (t : Nat) : ficKeeps (4 * t) = true ∧ ficKeeps (4 * t + 1) = true := by
  refine ⟨ficKeeps_first t, ?_⟩
  have enough := keptBits_cases t
  rw [ficKeeps_group t (by decide), decide_eq_true (by omega)]

/-- A message encoded and punctured, sent with errors, and depunctured. -/
def transmitted (symbols message pbuf dbuf : Nat → UInt8) (errors : Finset Nat) :
    (Nat → UInt8) × Nat :=
  depuncture (invert errors (puncture (encode symbols message 96 0 0) pbuf).1) dbuf

/-- The soft symbols of a punctured and damaged codeword. -/
theorem damaged_transmitted (symbols message pbuf dbuf : Nat → UInt8) (errors : Finset Nat) :
    Damaged ficKeeps (fun p => decide (rank ficKeeps p ∈ errors)) (codeword (messageBits message 96))
      (fun p => softSymbol ((transmitted symbols message pbuf dbuf errors).1 p)) 3096 := by
  intro p inside
  dsimp only
  rw [transmitted, depuncture_apply _ _ inside]
  by_cases chosen : ficKeeps p = true
  · rw [if_pos chosen, if_pos chosen, invert, puncture_sent _ _ inside chosen,
      encode_codeword _ _ _ inside]
    simp only [decide_eq_true_eq]
    rcases codeword_bit (messageBits message 96) p with zero | one
    · rw [zero]
      split <;> rfl
    · rw [one]
      split <;> rfl
  · rw [if_neg chosen, if_neg chosen]
    rfl

/-- At most four errors among the 2304 bits of a block are corrected. -/
theorem viterbi_corrects {T : Target} (native : T.Native) {mettab : Nat → Nat → Int}
    (met : GenMet mettab) (message symbols pbuf dbuf obuf : Nat → UInt8) (errors : Finset Nat)
    (few : errors.card ≤ 4) :
    ∃ data, viterbi T mettab (transmitted symbols message pbuf dbuf errors).1
        (transmitted symbols message pbuf dbuf errors).2 obuf = some (data, 768) ∧
      ∀ i < 768, data i = bitAt (message (i / 8)) (7 - i % 8) := by
  obtain ⟨x, bits⟩ : ∃ x, x = messageBits message 96 := ⟨_, rfl⟩
  have damaged := damaged_transmitted symbols message pbuf dbuf errors
  have length : (transmitted symbols message pbuf dbuf errors).2 = 3096 := depuncture_length _ _
  rw [← bits] at damaged
  generalize transmitted symbols message pbuf dbuf errors = received at *
  have narrow : 24 * ((999 : Int) - -999) < 999999 := by decide
  have ends : ∀ t, 768 ≤ t → x t = false := fun t late => bits ▸ messageBits_late message late
  have bounded : Bounded mettab (fun p => softSymbol (received.1 p)) (-999) 999 :=
    met.bounded fun p early => damaged.soft (codeword_bit x) p (by omega)
  obtain ⟨r, run, read, -⟩ := kViterbi_decoded bounded narrow native 768 obuf
  have best := decoded_best bounded narrow 768 ends
  have tail : ∀ t, 768 ≤ t → decoded mettab (fun p => softSymbol (received.1 p)) 768 t = false :=
    fun t late => decoded_tail bounded narrow late
  generalize decoded mettab (fun p => softSymbol (received.1 p)) 768 = y at *
  have equal : ∀ t < 768 + 6, x t = y t := by
    by_contra differ
    have some : ∃ t < 768 + 6, x t ≠ y t := by simpa using differ
    have apart := codewords_apart ficKeeps_two some (register_tail x fun t late _ => ends t late)
      (register_tail y fun t late _ => tail t late)
    rw [show 4 * (768 + 6) = 3096 from rfl] at apart best
    have wrong := count_errors ficKeeps (codeword x) (codeword y) errors 3096
    have worse := pathMetric_apart met damaged (codeword_bit x) (codeword_bit y) (by omega)
    exact absurd best (Int.not_le.mpr worse)
  refine ⟨r.data, ?_, fun i inside => ?_⟩
  · rw [viterbi, length, show 3096 / 4 - (7 - 1) = 768 from rfl, run]
    rfl
  · rw [read, if_pos inside, ← equal i (by omega), bits, messageBits_cell message (by omega)]

/-- The bytes 0, 1, 2 and so on, with errors in the middle and at both ends. -/
theorem viterbi_corrects_counting :
    ∃ data, viterbi .x86_64 unitMettab
        (transmitted (fun _ => 0) UInt8.ofNat (fun _ => 0) (fun _ => 0) {0, 1, 1152, 2303}).1
        (transmitted (fun _ => 0) UInt8.ofNat (fun _ => 0) (fun _ => 0) {0, 1, 1152, 2303}).2
        (fun _ => 0) = some (data, 768) ∧
      ∀ i < 768, data i = bitAt (UInt8.ofNat (i / 8)) (7 - i % 8) :=
  viterbi_corrects (T := .x86_64) rfl genMet_unit UInt8.ofNat _ _ _ _ _ (by decide)

end OpenDab
