import OpenDab.Wfic.Bits
import OpenDab.Wfic.Interleaver

/-! One transmitted symbol: 384 bytes of 16-bit words that carry their first bit in
d15, interleaved in frequency and QPSK mapped. -/
namespace OpenDab

open Buffers

/-- The unpacked bit of the 384 bytes that becomes bit `a` of the demapped symbol. -/
def wireBit (a : Nat) : Nat :=
  let p := 2 * carrier (table49 (a % 1536)) + a / 1536
  p / 16 * 16 + (15 - p % 16)

/-- The receiver's chain reads every bit of a symbol from its own place in the bytes. -/
theorem demapped_bit (cbuf bits words cells obuf : Nat → UInt8) (a : Nat) (bound : a < 3072) :
    qpskSymbolDemapper (frequencyDeinterleaver
      (bitswap16 (byteToBit 0 cbuf 384 bits).1 words 3072) cells) obuf a =
      bitAt (cbuf (wireBit a / 8)) (wireBit a % 8) := by
  have cell : ∀ n < 1536, ∀ r < 2, frequencyDeinterleaver
      (bitswap16 (byteToBit 0 cbuf 384 bits).1 words 3072) cells (2 * n + r) =
      bitAt (cbuf (((2 * carrier (table49 n) + r) / 16 * 16 + (15 - (2 * carrier (table49 n) + r) % 16)) / 8))
        (((2 * carrier (table49 n) + r) / 16 * 16 + (15 - (2 * carrier (table49 n) + r) % 16)) % 8) := by
    intro n hn r hr
    have inside := carrier_bound n hn
    rw [frequencyDeinterleaver_apply _ _ _ (by omega), show (2 * n + r) / 2 = n by omega,
      show (2 * n + r) % 2 = r by omega]
    generalize carrier (table49 n) = k at inside
    rw [bitswap16_apply _ _ _ _ (by omega), byteToBit_apply, if_pos (by omega), if_pos rfl]
  rw [qpskSymbolDemapper_apply _ _ a bound]
  unfold wireBit
  split
  · next low =>
    rw [Nat.mod_eq_of_lt low, Nat.div_eq_of_lt low]
    exact cell a low 0 (by decide)
  · next high =>
    rw [show a % 1536 = a - 1536 by omega, show a / 1536 = 1 by omega]
    exact cell (a - 1536) (by omega) 1 (by decide)

/-- Pack bits into 16-bit little-endian words that carry the first bit in d15. -/
def packWords (bits : Nat → UInt8) (j : Nat) : UInt8 :=
  let word := Nat.ofBits fun d : Fin 16 => bits (16 * (j / 2) + (15 - d)) == 1
  UInt8.ofNat (if j % 2 = 0 then word else word / 256)

def transmitSymbol (P : Nat → UInt8) : Nat → UInt8 :=
  packWords (frequencyInterleaver (qpskSymbolMapper P fun _ => 0) fun _ => 0)

theorem bitAt_packWords (bits : Nat → UInt8) (j : Nat) {k : Nat} (small : k < 8)
    (cell : bits (16 * (j / 2) + (15 - (8 * (j % 2) + k))) = 0 ∨
      bits (16 * (j / 2) + (15 - (8 * (j % 2) + k))) = 1) :
    bitAt (packWords bits j) k = bits (16 * (j / 2) + (15 - (8 * (j % 2) + k))) := by
  let word := Nat.ofBits fun d : Fin 16 => bits (16 * (j / 2) + (15 - d)) == 1
  have byte : (packWords bits j).toNat = word / 2 ^ (8 * (j % 2)) % 256 := by
    rcases Nat.mod_two_eq_zero_or_one j with even | odd
    · simp [packWords, even, word]
    · simp [packWords, odd, word]
  have place : 8 * (j % 2) + k < 16 := by omega
  have digit : (word / 2 ^ (8 * (j % 2)) % 256).testBit k =
      (bits (16 * (j / 2) + (15 - (8 * (j % 2) + k))) == 1) := by
    rw [show 256 = 2 ^ 8 from rfl, Nat.testBit_mod_two_pow, ← Nat.shiftRight_eq_div_pow,
      Nat.testBit_shiftRight, decide_eq_true small, Bool.true_and,
      Nat.testBit_ofBits_lt _ _ place]
  apply UInt8.toNat_inj.mp
  rw [bitAt_toNat _ _ small, byte, ← Nat.toNat_testBit, digit]
  rcases cell with zero | one
  · rw [zero]
    rfl
  · rw [one]
    rfl

/-- The receiver's chain gives back every bit of a transmitted symbol. -/
theorem demapped_transmitSymbol (P bits words cells obuf : Nat → UInt8) {a : Nat}
    (bound : a < 3072) (bit : P a = 0 ∨ P a = 1) :
    qpskSymbolDemapper (frequencyDeinterleaver
      (bitswap16 (byteToBit 0 (transmitSymbol P) 384 bits).1 words 3072) cells) obuf a = P a := by
  have cell : ∀ n < 1536, ∀ r < 2, frequencyInterleaver (qpskSymbolMapper P fun _ => 0) (fun _ => 0)
      (2 * carrier (table49 n) + r) = P (1536 * r + n) := by
    intro n hn r hr
    rw [frequencyInterleaver_at _ _ n hn r hr, qpskSymbolMapper_apply, if_pos (by omega),
      show (2 * n + r) / 2 = n by omega]
    rcases (show r = 0 ∨ r = 1 by omega) with rfl | rfl
    · rw [if_pos (by omega), Nat.mul_zero, Nat.zero_add]
    · rw [if_neg (by omega), Nat.mul_one, Nat.add_comm]
  have sent := cell (a % 1536) (Nat.mod_lt _ (by decide)) (a / 1536) (by omega)
  rw [Nat.div_add_mod] at sent
  rw [demapped_bit _ _ _ _ _ _ bound]
  unfold wireBit
  generalize 2 * carrier (table49 (a % 1536)) + a / 1536 = p at sent
  have place : 16 * ((p / 16 * 16 + (15 - p % 16)) / 8 / 2) +
      (15 - (8 * ((p / 16 * 16 + (15 - p % 16)) / 8 % 2) + (p / 16 * 16 + (15 - p % 16)) % 8)) = p := by
    omega
  have packed := bitAt_packWords (frequencyInterleaver (qpskSymbolMapper P fun _ => 0) fun _ => 0)
    ((p / 16 * 16 + (15 - p % 16)) / 8) (Nat.mod_lt (p / 16 * 16 + (15 - p % 16)) (show 0 < 8 by decide))
  rw [place, sent] at packed
  exact packed bit

end OpenDab
