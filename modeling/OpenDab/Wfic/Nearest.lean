import OpenDab.Wfic.Correction
import OpenDab.Wfic.MaximumLikelihood

/-! With the metrics of `gen_met` the best message is the nearest one: its code bits differ
from the received bits in the fewest places. -/
namespace OpenDab

open Buffers Puncturing

/-- The symbols of received bits, with erasures at the positions that were not sent. -/
def Softened (keep : Nat → Bool) (received symbols : Nat → UInt8) (n : Nat) : Prop :=
  ∀ p < n, symbols p = if keep p then soft (received (rank keep p)) else 128

theorem Softened.soft {keep : Nat → Bool} {received symbols : Nat → UInt8} {n : Nat}
    (softened : Softened keep received symbols n)
    (bits : ∀ i < rank keep n, received i = 0 ∨ received i = 1) :
    ∀ p < n, symbols p = 127 ∨ symbols p = 128 ∨ symbols p = 129 := by
  intro p inside
  rw [softened p inside]
  cases chosen : keep p with
  | false => exact .inr (.inl rfl)
  | true => exact soft_cases (bits _ (rank_lt inside chosen)) true

def Missed (keep : Nat → Bool) (received c : Nat → UInt8) (p : Nat) : Prop :=
  keep p = true ∧ c p ≠ received (rank keep p)

instance (keep : Nat → Bool) (received c : Nat → UInt8) : DecidablePred (Missed keep received c) :=
  fun _ => inferInstanceAs (Decidable (_ ∧ _))

section Metric

variable {mettab : Nat → Nat → Int} (met : GenMet mettab)
include met

/-- The metric falls by the same amount with every miss. -/
theorem pathMetric_missed {keep : Nat → Bool} {received c symbols : Nat → UInt8} {n : Nat}
    (softened : Softened keep received symbols n)
    (bits : ∀ i < rank keep n, received i = 0 ∨ received i = 1) (code : ∀ p, c p = 0 ∨ c p = 1) :
    pathMetric mettab symbols c n =
      mettab 0 127 * rank keep n + mettab 0 128 * (n - rank keep n) -
        (mettab 0 127 - mettab 0 129) * Nat.count (Missed keep received c) n := by
  induction n with
  | zero => simp [pathMetric, rank]
  | succ n ih =>
    have earlier : rank keep n ≤ rank keep (n + 1) := rank_mono keep (Nat.le_succ n)
    have before := ih (fun p inside => softened p (by omega)) fun i small => bits i (by omega)
    have same := met.same
    have flipped := met.flipped
    have erased := met.erased
    rw [pathMetric, before, softened n (Nat.lt_succ_self n), Nat.count_succ, rank]
    cases chosen : keep n with
    | false =>
      have erasure : mettab (c n).toNat (128 : UInt8).toNat = mettab 0 128 := by
        rcases code n with zero | one
        · rw [zero]; rfl
        · rw [one]; exact erased.symm
      have fine : ¬Missed keep received c n := fun missed => by
        rw [Missed, chosen] at missed
        exact absurd missed.1 Bool.false_ne_true
      simp only [Bool.false_eq_true, if_false, if_neg fine, erasure, Nat.add_zero, Nat.cast_add,
        Nat.cast_one]
      ring
    | true =>
      have bit := bits (rank keep n) (rank_lt (Nat.lt_succ_self n) chosen)
      have metric : mettab (c n).toNat (soft (received (rank keep n))).toNat =
          mettab 0 127 - (mettab 0 127 - mettab 0 129) *
            if Missed keep received c n then 1 else 0 := by
        have here : Missed keep received c n ↔ c n ≠ received (rank keep n) := by
          rw [Missed, chosen, eq_self, true_and]
        simp only [here]
        rcases bit with zero | one <;> rcases code n with low | high
        · simp [zero, low, soft]
        · simp [zero, high, soft, flipped]
        · simp [one, low, soft]
        · simp [one, high, soft, same]
      simp only [if_true, metric, Nat.cast_add, Nat.cast_one, Nat.cast_ite, Nat.cast_zero]
      ring

/-- The better metric belongs to the word with fewer misses. -/
theorem missed_le {keep : Nat → Bool} {received b c symbols : Nat → UInt8} {n : Nat}
    (softened : Softened keep received symbols n)
    (bits : ∀ i < rank keep n, received i = 0 ∨ received i = 1)
    (code : ∀ p, b p = 0 ∨ b p = 1) (code' : ∀ p, c p = 0 ∨ c p = 1)
    (best : pathMetric mettab symbols c n ≤ pathMetric mettab symbols b n) :
    Nat.count (Missed keep received b) n ≤ Nat.count (Missed keep received c) n := by
  rw [pathMetric_missed met softened bits code, pathMetric_missed met softened bits code'] at best
  have better := met.better
  by_contra more
  have product := Int.mul_lt_mul_of_pos_left
    (show (Nat.count (Missed keep received c) n : Int) < Nat.count (Missed keep received b) n by omega)
    (show 0 < mettab 0 127 - mettab 0 129 by omega)
  omega

/-- The decoder returns a message, and none has fewer misses. -/
theorem kViterbi_nearest {T : Target} (native : T.Native) {nbits : Nat} {keep : Nat → Bool}
    {received symbols : Nat → UInt8} (softened : Softened keep received symbols (4 * (nbits + 6)))
    (bits : ∀ i < rank keep (4 * (nbits + 6)), received i = 0 ∨ received i = 1)
    (data : Nat → UInt8) :
    ∃ r x, kViterbi T data symbols nbits mettab 0 0 = some r ∧
      (∀ i, r.data i = if i < nbits then if x i then 1 else 0 else data i) ∧
      (∀ t, nbits ≤ t → x t = false) ∧
      ∀ y : Nat → Bool, (∀ t, nbits ≤ t → y t = false) →
        Nat.count (Missed keep received (codeword x)) (4 * (nbits + 6)) ≤
          Nat.count (Missed keep received (codeword y)) (4 * (nbits + 6)) := by
  have narrow : 24 * ((999 : Int) - -999) < 999999 := by decide
  have bounded : Bounded mettab symbols (-999) 999 :=
    met.bounded fun p early => softened.soft bits p (by omega)
  obtain ⟨r, run, read, -⟩ := kViterbi_decoded bounded narrow native nbits data
  refine ⟨r, decoded mettab symbols nbits, run, read,
    fun t late => decoded_tail bounded narrow late, fun y ends => ?_⟩
  apply missed_le met softened bits (codeword_bit _) (codeword_bit _)
  exact decoded_best bounded narrow nbits ends

end Metric

/-- Two words are no further apart than their misses together. -/
theorem apart_le_missed (keep : Nat → Bool) (received b c : Nat → UInt8) (n : Nat) :
    Nat.count (Apart keep b c) n ≤
      Nat.count (Missed keep received b) n + Nat.count (Missed keep received c) n := by
  induction n with
  | zero => exact Nat.zero_le _
  | succ n ih =>
    have step : (if Apart keep b c n then 1 else 0) ≤
        (if Missed keep received b n then 1 else 0) + if Missed keep received c n then 1 else 0 := by
      by_cases apart : Apart keep b c n
      · by_cases first : b n = received (rank keep n)
        · have second : Missed keep received c n := ⟨apart.1, fun same => apart.2 (first.trans same.symm)⟩
          rw [if_pos second]
          split <;> omega
        · rw [if_pos (show Missed keep received b n from ⟨apart.1, first⟩)]
          split <;> omega
      · rw [if_neg apart]
        omega
    simp only [Nat.count_succ]
    omega

/-- A message with few misses, or with none, is the nearest one and no other is as near. -/
theorem nearest_unique {keep : Nat → Bool} {received : Nat → UInt8} {nbits : Nat} {x y : Nat → Bool}
    (ends : ∀ t, nbits ≤ t → x t = false)
    (ends' : ∀ t, nbits ≤ t → y t = false)
    (first : ∀ t < nbits + 6, keep (4 * t) = true) {errors : Nat}
    (few : errors = 0 ∨ errors ≤ 4 ∧ ∀ t < nbits + 6, keep (4 * t + 1) = true)
    (sent : Nat.count (Missed keep received (codeword y)) (4 * (nbits + 6)) ≤ errors)
    (near : Nat.count (Missed keep received (codeword x)) (4 * (nbits + 6)) ≤ errors) :
    x = y := by
  have close := apart_le_missed keep received (codeword x) (codeword y) (4 * (nbits + 6))
  have late (t : Nat) (tail : nbits ≤ t) : x t = y t := (ends t tail).trans (ends' t tail).symm
  funext t
  by_cases inside : t < nbits + 6
  · revert t
    rcases few with none | ⟨four, second⟩
    · -- no misses at all: the words agree in every bit that was sent
      have agree : ∀ t < nbits + 6, codeword x (4 * t) = codeword y (4 * t) := by
        intro t inside
        by_contra differ
        have zero : Nat.count (Apart keep (codeword x) (codeword y)) (4 * (nbits + 6)) = 0 := by
          omega
        exact Nat.count_iff_forall_not.mp zero (4 * t) (by omega) ⟨first t inside, differ⟩
      exact fun t inside => (message_unique (nbits + 6) agree).2 t inside
    · by_contra differ
      have some : ∃ t < nbits + 6, x t ≠ y t := by simpa using differ
      -- what is kept behind the last code bit does not matter
      obtain ⟨wide, extended⟩ : ∃ wide : Nat → Bool,
          wide = fun p => keep p || decide (4 * (nbits + 6) ≤ p) := ⟨_, rfl⟩
      have two : ∀ t, wide (4 * t) = true ∧ wide (4 * t + 1) = true := by
        intro t
        rw [extended]
        by_cases inside : t < nbits + 6
        · simp [first t inside, second t inside]
        · have past : 4 * (nbits + 6) ≤ 4 * t := by omega
          simp [past, Nat.le_succ_of_le past]
      have apart := codewords_apart two some (register_tail x fun t late _ => ends t late)
        (register_tail y fun t late _ => ends' t late)
      have same : Nat.count (Apart wide (codeword x) (codeword y)) (4 * (nbits + 6)) =
          Nat.count (Apart keep (codeword x) (codeword y)) (4 * (nbits + 6)) := by
        simp only [Nat.count_eq_card_filter_range]
        refine congrArg _ (Finset.filter_congr fun p inside => ?_)
        have early : ¬4 * (nbits + 6) ≤ p := Nat.not_le.mpr (Finset.mem_range.mp inside)
        simp [Apart, extended, early]
      omega
  · exact late t (by omega)

end OpenDab
