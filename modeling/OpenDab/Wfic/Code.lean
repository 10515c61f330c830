import OpenDab.Wfic.Viterbi

/-! The convolutional code in its own terms: a message is a sequence of input bits, and
every input gives four code bits that depend on it and on the six inputs before it. -/
namespace OpenDab

open Buffers

/-- The last six inputs before time `t`, the newest in bit 0; no input came before time 0. -/
def register (x : Nat → Bool) : Nat → Nat
  | 0 => 0
  | t + 1 => (2 * register x t + (x t).toNat) % 64

/-- The register with the input of time `t` shifted in. -/
def window (x : Nat → Bool) (t : Nat) : Nat := 2 * register x t + (x t).toNat

/-- Code bit `p`, four for every input. -/
def codeword (x : Nat → Bool) (p : Nat) : UInt8 := parity (window x (p / 4) &&& polys (p % 4))

theorem register_lt (x : Nat → Bool) (t : Nat) : register x t < 64 := by
  cases t with
  | zero => exact Nat.zero_lt_succ 63
  | succ t => exact Nat.mod_lt _ (by decide)

theorem window_lt (x : Nat → Bool) (t : Nat) : window x t < 128 := by
  have small := register_lt x t
  have bit := (x t).toNat_le
  unfold window
  omega

theorem register_succ (x : Nat → Bool) (t : Nat) : register x (t + 1) = window x t % 64 := rfl

/-- Only the low seven bits of the encoder's register count. -/
theorem and_polys (s j : Nat) : s &&& polys j = s % 128 &&& polys j := by
  have mask : ∀ j, 127 &&& polys j = polys j := by
    intro j
    match j with
    | 0 | 1 | 2 | 3 => rfl
    | j + 4 => simp [polys]
  rw [← mask j, ← Nat.and_assoc, ← Nat.and_assoc, Nat.and_two_pow_sub_one_eq_mod s 7,
    Nat.and_two_pow_sub_one_eq_mod (s % 128) 7]
  simp

structure Encoder.Holds (x : Nat → Bool) (t : Nat) (e : Encoder) : Prop where
  state : e.encstate.toNat % 64 = register x t
  written : e.written = 4 * t
  symbols : ∀ p < 4 * t, e.symbols p = codeword x p

theorem push_symbols (v : Nat → UInt8) (n : Nat) (e : Encoder) :
    loop n (fun j e =>
      { e with symbols := store e.symbols e.written (v j), written := e.written + 1 }) e =
    { e with symbols := copy e.symbols e.written v n, written := e.written + n } := by
  induction n with
  | zero => simp [← loop_store]
  | succ n ih => rw [loop_succ, ih, ← loop_store, ← loop_store, loop_succ, Nat.add_assoc]

theorem Encoder.Holds.push {x : Nat → Bool} {t : Nat} {e : Encoder} (holds : Holds x t e)
    {bit : UInt32} (input : bit.toNat = (x t).toNat) : Holds x (t + 1) (e.push bit) := by
  obtain ⟨state, written, symbols⟩ := holds
  have small := (x t).toNat_le
  have shifted : (e.encstate <<< 1 ||| bit).toNat % 128 = window x t := by
    have even : (e.encstate <<< 1).toNat = e.encstate.toNat * 2 % 2 ^ 32 := by
      simp [UInt32.toNat_shiftLeft, Nat.shiftLeft_eq]
    have sum : e.encstate.toNat * 2 % 2 ^ 32 ||| bit.toNat =
        e.encstate.toNat * 2 % 2 ^ 32 + bit.toNat := by
      have half : e.encstate.toNat * 2 % 2 ^ 32 = e.encstate.toNat % 2 ^ 31 * 2 ^ 1 := by omega
      rw [half, Nat.mul_comm, ← Nat.two_pow_add_eq_or_of_lt (by omega)]
    rw [UInt32.toNat_or, even, sum, window, input, ← state]
    omega
  have pushed : e.push bit =
      { encstate := e.encstate <<< 1 ||| bit
        symbols := copy e.symbols e.written
          (fun j => parity ((e.encstate <<< 1 ||| bit).toNat &&& polys j)) 4
        written := e.written + 4 } := push_symbols _ 4 _
  rw [pushed]
  refine ⟨?_, ?_, fun p before => ?_⟩
  · rw [register_succ, ← shifted]
    dsimp only
    omega
  · dsimp only
    omega
  · dsimp only
    by_cases old : p < 4 * t
    · rw [copy_outside _ _ (by omega), symbols p old]
    · obtain ⟨j, rfl⟩ : ∃ j, p = e.written + j := ⟨p - e.written, by omega⟩
      have place : (e.written + j) / 4 = t ∧ (e.written + j) % 4 = j := by omega
      rw [copy_inside _ _ _ (by omega), codeword, place.1, place.2, and_polys, shifted]

def messageBits (data : Nat → UInt8) (nbytes : Nat) (i : Nat) : Bool :=
  decide (i < 8 * nbytes) && decide (bitAt (data (i / 8)) (7 - i % 8) = 1)

theorem messageBits_cell (data : Nat → UInt8) {nbytes i : Nat} (inside : i < 8 * nbytes) :
    (if messageBits data nbytes i then 1 else 0) = bitAt (data (i / 8)) (7 - i % 8) := by
  rcases bitAt_cases (data (i / 8)) (7 - i % 8) (by omega) with zero | one
  · simp [messageBits, zero]
  · simp [messageBits, one, inside]

theorem messageBits_late (data : Nat → UInt8) {nbytes i : Nat} (late : 8 * nbytes ≤ i) :
    messageBits data nbytes i = false := by
  simp only [messageBits, Bool.and_eq_false_iff, decide_eq_false_iff_not]
  exact .inl (by omega)

theorem messageBits_toNat (data : Nat → UInt8) {nbytes i : Nat} (inside : i < 8 * nbytes) :
    (messageBits data nbytes i).toNat = (bitAt (data (i / 8)) (7 - i % 8)).toNat := by
  rcases bitAt_cases (data (i / 8)) (7 - i % 8) (by omega) with zero | one
  · simp [messageBits, zero]
  · simp [messageBits, one, inside]

/-- `encode` from state 0 with a zero tail writes the codeword. -/
theorem encode_codeword (symbols data : Nat → UInt8) (nbytes : Nat) {p : Nat}
    (inside : p < 4 * (8 * nbytes + 6)) :
    encode symbols data nbytes 0 0 p = codeword (messageBits data nbytes) p := by
  have start : Encoder.Holds (messageBits data nbytes) 0 ⟨0, symbols, 0⟩ :=
    ⟨rfl, rfl, fun p before => absurd before (by omega)⟩
  have message : Encoder.Holds (messageBits data nbytes) (8 * nbytes)
      (loop nbytes (fun k => loop 8 fun r => Encoder.push (bitAt (data k) (7 - r)).toUInt32)
        ⟨0, symbols, 0⟩) := by
    refine loop_invariant (fun k e => Encoder.Holds (messageBits data nbytes) (8 * k) e) start
      fun k inside e before => ?_
    refine loop_invariant (fun r e => Encoder.Holds (messageBits data nbytes) (8 * k + r) e) before
      fun r low e before => ?_
    refine before.push ?_
    have place : (8 * k + r) / 8 = k ∧ (8 * k + r) % 8 = r := by omega
    rw [messageBits_toNat data (by omega), place.1, place.2]
    rfl
  have tail : Encoder.Holds (messageBits data nbytes) (8 * nbytes + 6)
      (loop 6 (fun r => Encoder.push (((0 : UInt32) >>> UInt32.ofNat (5 - r)) &&& 1))
        (loop nbytes (fun k => loop 8 fun r => Encoder.push (bitAt (data k) (7 - r)).toUInt32)
          ⟨0, symbols, 0⟩)) := by
    refine loop_invariant (fun r e => Encoder.Holds (messageBits data nbytes) (8 * nbytes + r) e)
      message fun r _ e before => ?_
    refine before.push ?_
    have beyond : messageBits data nbytes (8 * nbytes + r) = false := by simp [messageBits]
    rw [beyond]
    simp
  exact tail.symbols p inside

/-- The first code bit of an input tells the input once the earlier ones are known. -/
theorem parity_first : ∀ r < 64, parity ((2 * r + 1) &&& polys 0) ≠ parity (2 * r &&& polys 0) := by
  decide +kernel

/-- Two messages whose codewords agree in every first code bit are the same. -/
theorem message_unique {x y : Nat → Bool} (n : Nat)
    (agree : ∀ t < n, codeword x (4 * t) = codeword y (4 * t)) :
    register x n = register y n ∧ ∀ t < n, x t = y t := by
  induction n with
  | zero => exact ⟨rfl, fun t before => absurd before (by omega)⟩
  | succ n ih =>
    obtain ⟨same, equal⟩ := ih fun t before => agree t (by omega)
    have last := agree n (by omega)
    have place : 4 * n / 4 = n ∧ 4 * n % 4 = 0 := by omega
    rw [codeword, codeword, place.1, place.2, window, window, same] at last
    have apart := parity_first (register y n) (register_lt y n)
    have bit : x n = y n := by
      cases first : x n <;> cases second : y n
      · rfl
      · rw [first, second] at last
        exact absurd last.symm apart
      · rw [first, second] at last
        exact absurd last apart
      · rfl
    refine ⟨by rw [register, register, same, bit], fun t before => ?_⟩
    by_cases newest : t = n
    · rw [newest, bit]
    · exact equal t (by omega)

end OpenDab
