import OpenDab.Wfic.Optimal

/-! Erased code bits: with the metrics of `gen_met` an erasure favours no message, so the
decoder recovers a message whenever the first code bit of every input was received. -/
namespace OpenDab

/-- What the table of `gen_met` looks like at the three symbols that are fed to the decoder. -/
structure GenMet (mettab : Nat → Nat → Int) : Prop where
  same : mettab 0 127 = mettab 1 129
  flipped : mettab 0 129 = mettab 1 127
  better : mettab 0 127 > mettab 0 129
  erased : mettab 0 128 = mettab 1 128
  small : ∀ b < 2, ∀ s, s = 127 ∨ s = 128 ∨ s = 129 → -1000 < mettab b s ∧ mettab b s < 1000

/-- The values of `gen_met` for amplitude 1, noise 1 and scale 4 at these symbols. -/
def unitMettab (b s : Nat) : Int :=
  if s = 127 then if b = 0 then 3 else -7
  else if s = 129 then if b = 0 then -7 else 3
  else 0

theorem unitMettab_bounds (b s : Nat) : -7 ≤ unitMettab b s ∧ unitMettab b s ≤ 3 := by
  unfold unitMettab
  split
  · split <;> decide
  · split
    · split <;> decide
    · decide

theorem genMet_unit : GenMet unitMettab := by
  refine ⟨rfl, rfl, by decide, rfl, fun b _ s _ => ?_⟩
  have entry := unitMettab_bounds b s
  omega

theorem GenMet.bounded {mettab : Nat → Nat → Int} (met : GenMet mettab) {symbols : Nat → UInt8}
    (fed : ∀ p < 24, symbols p = 127 ∨ symbols p = 128 ∨ symbols p = 129) :
    Bounded mettab symbols (-999) 999 := by
  intro b bit p early
  have value : (symbols p).toNat = 127 ∨ (symbols p).toNat = 128 ∨ (symbols p).toNat = 129 := by
    rcases fed p early with soft | soft | soft
    · exact .inl (congrArg UInt8.toNat soft)
    · exact .inr (.inl (congrArg UInt8.toNat soft))
    · exact .inr (.inr (congrArg UInt8.toNat soft))
  have entry := met.small b bit _ value
  omega

theorem parity_bit (x : Nat) : parity x = 0 ∨ parity x = 1 := by
  have entries : ∀ i < 256, partab.getD i 0 = 0 ∨ partab.getD i 0 = 1 := by decide +kernel
  refine entries _ ?_
  exact Nat.lt_of_le_of_lt Nat.and_le_right (by decide)

theorem codeword_bit (x : Nat → Bool) (p : Nat) : codeword x p = 0 ∨ codeword x p = 1 :=
  parity_bit _

def soft (b : UInt8) : UInt8 := 127 + b + b

theorem soft_cases {b : UInt8} (bit : b = 0 ∨ b = 1) (kept : Bool) :
    (if kept then soft b else 128) = 127 ∨ (if kept then soft b else 128) = 128 ∨
      (if kept then soft b else 128) = 129 := by
  cases kept with
  | false => exact .inr (.inl rfl)
  | true =>
    rcases bit with rfl | rfl
    · exact .inl rfl
    · exact .inr (.inr rfl)

/-- The received symbols are the kept code bits, and erasures elsewhere. -/
def Received (keep : Nat → Bool) (c symbols : Nat → UInt8) (n : Nat) : Prop :=
  ∀ p < n, symbols p = if keep p then soft (c p) else 128

section Erasures

variable {mettab : Nat → Nat → Int} (met : GenMet mettab)
include met

/-- No other code bit is better than the one that was sent, and a received one is worse. -/
theorem mettab_sent {b c : UInt8} (bit : b = 0 ∨ b = 1) (other : c = 0 ∨ c = 1) (kept : Bool) :
    mettab c.toNat (if kept then soft b else 128).toNat ≤
        mettab b.toNat (if kept then soft b else 128).toNat ∧
      (mettab b.toNat (if kept then soft b else 128).toNat ≤
        mettab c.toNat (if kept then soft b else 128).toNat → kept = true → c = b) := by
  have same := met.same
  have flipped := met.flipped
  have better := met.better
  have erased := met.erased
  rcases bit with rfl | rfl <;> rcases other with rfl | rfl <;> cases kept <;>
    simp [soft] <;> omega

/-- Only a codeword with the same received bits is as good as the one that was sent. -/
theorem pathMetric_sent {keep : Nat → Bool} {b c symbols : Nat → UInt8} {n : Nat}
    (received : Received keep b symbols n) (bits : ∀ p, b p = 0 ∨ b p = 1)
    (others : ∀ p, c p = 0 ∨ c p = 1) :
    pathMetric mettab symbols c n ≤ pathMetric mettab symbols b n ∧
      (pathMetric mettab symbols b n ≤ pathMetric mettab symbols c n →
        ∀ p < n, keep p = true → c p = b p) := by
  induction n with
  | zero => exact ⟨Int.le_refl _, fun _ p inside => absurd inside (by omega)⟩
  | succ n ih =>
    obtain ⟨bound, tight⟩ := ih fun p inside => received p (by omega)
    obtain ⟨step, equal⟩ := mettab_sent met (bits n) (others n) (keep n)
    rw [← received n (by omega)] at step equal
    rw [pathMetric, pathMetric]
    refine ⟨by omega, fun as_good p inside kept => ?_⟩
    by_cases last : p = n
    · rw [last] at kept ⊢
      exact equal (by omega) kept
    · exact tight (by omega) p (by omega) kept

theorem kViterbi_erasures {T : Target} (native : T.Native) {nbits : Nat} {x : Nat → Bool}
    (ends : ∀ t, nbits ≤ t → x t = false) {keep : Nat → Bool}
    (first : ∀ t < nbits + 6, keep (4 * t) = true) {symbols : Nat → UInt8}
    (received : Received keep (codeword x) symbols (4 * (nbits + 6))) (data : Nat → UInt8) :
    ∃ r, kViterbi T data symbols nbits mettab 0 0 = some r ∧
      ∀ i, r.data i = if i < nbits then if x i then 1 else 0 else data i := by
  have narrow : 24 * ((999 : Int) - -999) < 999999 := by decide
  have bounded : Bounded mettab symbols (-999) 999 := by
    apply met.bounded
    intro p early
    rw [received p (by omega)]
    exact soft_cases (codeword_bit x p) (keep p)
  obtain ⟨r, run, read, -⟩ := kViterbi_decoded bounded narrow native nbits data
  have best := decoded_best bounded narrow nbits ends
  have agree := (pathMetric_sent met received (codeword_bit x)
    (codeword_bit (decoded mettab symbols nbits))).2 best
  have equal := (message_unique (nbits + 6) fun t inside =>
    agree (4 * t) (by omega) (first t inside)).2
  refine ⟨r, run, fun i => ?_⟩
  rw [read]
  by_cases inside : i < nbits
  · rw [if_pos inside, if_pos inside, equal i (by omega)]
  · rw [if_neg inside, if_neg inside]

end Erasures

end OpenDab
