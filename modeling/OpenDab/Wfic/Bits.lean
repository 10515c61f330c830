import OpenDab.Library.Buffers
import Mathlib.Data.Nat.Bitwise

/-! Bit and byte conversions of the FIC decoder. Bit vectors are byte buffers
holding 0 or 1, as in the source; buffer lengths are returned beside the buffer. -/
namespace OpenDab

open Buffers

/-- `(b >> k) & 1`. -/
def bitAt (b : UInt8) (k : Nat) : UInt8 := (b >>> UInt8.ofNat k) &&& 1

theorem bitAt_toNat (b : UInt8) (k : Nat) (small : k < 8) :
    (bitAt b k).toNat = b.toNat / 2 ^ k % 2 := by
  have same : k % 256 % 8 = k := by omega
  simp [bitAt, UInt8.toNat_shiftRight, UInt8.toNat_and, Nat.shiftRight_eq_div_pow,
    Nat.and_one_is_mod, same]

theorem bitAt_cases (b : UInt8) (k : Nat) (small : k < 8) : bitAt b k = 0 ∨ bitAt b k = 1 := by
  have value := bitAt_toNat b k small
  have two : b.toNat / 2 ^ k % 2 = 0 ∨ b.toNat / 2 ^ k % 2 = 1 := by omega
  rcases two with h | h
  · exact .inl (UInt8.toNat_inj.mp (value.trans h))
  · exact .inr (UInt8.toNat_inj.mp (value.trans h))

/-- Expand bytes to bits; `endian` 0 sends the low bit first, otherwise the high bit. -/
def byteToBit (endian : Nat) (ibuf : Nat → UInt8) (ilen : Nat) (obuf : Nat → UInt8) :
    (Nat → UInt8) × Nat :=
  (loop ilen (fun i obuf => loop 8 (fun j obuf =>
      if endian = 0 then store obuf (i * 8 + j) (bitAt (ibuf i) j)
      else store obuf (i * 8 + j) (bitAt (ibuf i) (7 - j))) obuf) obuf, ilen * 8)

def bitToByte (endian : Nat) (ibuf : Nat → UInt8) (ilen : Nat) (obuf : Nat → UInt8) :
    (Nat → UInt8) × Nat :=
  (loop ((ilen + 7) / 8) (fun j obuf =>
    let i := 8 * j
    if endian = 0 then
      store obuf j ((ibuf (i + 0) <<< 0) + (ibuf (i + 1) <<< 1) + (ibuf (i + 2) <<< 2) +
        (ibuf (i + 3) <<< 3) + (ibuf (i + 4) <<< 4) + (ibuf (i + 5) <<< 5) +
        (ibuf (i + 6) <<< 6) + (ibuf (i + 7) <<< 7))
    else
      store obuf j ((ibuf (i + 0) <<< 7) + (ibuf (i + 1) <<< 6) + (ibuf (i + 2) <<< 5) +
        (ibuf (i + 3) <<< 4) + (ibuf (i + 4) <<< 3) + (ibuf (i + 5) <<< 2) +
        (ibuf (i + 6) <<< 1) + (ibuf (i + 7) <<< 0))) obuf, (ilen + 7) / 8)

/-- Reverse every group of 16 entries of `a` into `b`. -/
def bitswap16 (a b : Nat → UInt8) (len : Nat) : Nat → UInt8 :=
  loop ((len + 15) / 16) (fun block b =>
    let i := block * 16
    loop 16 (fun k b => store b (i + k) (a (i + (15 - k)))) b) b

@[simp] theorem byteToBit_length (endian : Nat) (ibuf : Nat → UInt8) (ilen : Nat)
    (obuf : Nat → UInt8) : (byteToBit endian ibuf ilen obuf).2 = ilen * 8 := rfl

theorem byteToBit_apply (endian : Nat) (ibuf : Nat → UInt8) (ilen : Nat) (obuf : Nat → UInt8)
    (a : Nat) :
    (byteToBit endian ibuf ilen obuf).1 a =
      if a / 8 < ilen then
        bitAt (ibuf (a / 8)) (if endian = 0 then a % 8 else 7 - a % 8)
      else obuf a := by
  have body : ∀ (i : Nat) (m : Nat → UInt8), loop 8 (fun j obuf =>
      if endian = 0 then store obuf (i * 8 + j) (bitAt (ibuf i) j)
      else store obuf (i * 8 + j) (bitAt (ibuf i) (7 - j))) m =
      copy m (i * 8) (fun j => bitAt (ibuf i) (if endian = 0 then j else 7 - j)) 8 := by
    intro i m
    rw [← loop_store]
    apply loop_congr
    intro j _ s
    split <;> rfl
  simp only [byteToBit, body]
  exact loop_copy ilen 8 (by decide) (fun i j => bitAt (ibuf i) (if endian = 0 then j else 7 - j)) _ _

theorem bitswap16_apply (a b : Nat → UInt8) (len p : Nat) (inside : p / 16 < (len + 15) / 16) :
    bitswap16 a b len p = a (p / 16 * 16 + (15 - p % 16)) := by
  simp only [bitswap16, loop_store]
  rw [loop_copy _ 16 (by decide) (fun block k => a (block * 16 + (15 - k)))]
  simp [inside]

theorem bitToByte_apply (ibuf : Nat → UInt8) (ilen : Nat) (obuf : Nat → UInt8) (j : Nat) :
    (bitToByte 1 ibuf ilen obuf).1 j =
      if j < (ilen + 7) / 8 then
        (ibuf (8 * j) <<< 7) + (ibuf (8 * j + 1) <<< 6) + (ibuf (8 * j + 2) <<< 5) +
          (ibuf (8 * j + 3) <<< 4) + (ibuf (8 * j + 4) <<< 3) + (ibuf (8 * j + 5) <<< 2) +
          (ibuf (8 * j + 6) <<< 1) + (ibuf (8 * j + 7) <<< 0)
      else obuf j := by
  refine loop_owned id (fun j => (ibuf (8 * j) <<< 7) + (ibuf (8 * j + 1) <<< 6) +
    (ibuf (8 * j + 2) <<< 5) + (ibuf (8 * j + 3) <<< 4) + (ibuf (8 * j + 4) <<< 3) +
    (ibuf (8 * j + 5) <<< 2) + (ibuf (8 * j + 6) <<< 1) + (ibuf (8 * j + 7) <<< 0)) ?_ ?_ obuf j
  · rintro i _ m a rfl
    exact store_same ..
  · intro i _ m a apart
    exact store_other _ _ apart

/-- Bits packed big-endian are read back from their byte. -/
theorem bitAt_packed (f : Nat → UInt8) (bits : ∀ i, f i = 0 ∨ f i = 1) {k : Nat} (small : k < 8) :
    bitAt ((f 0 <<< 7) + (f 1 <<< 6) + (f 2 <<< 5) + (f 3 <<< 4) + (f 4 <<< 3) + (f 5 <<< 2) +
      (f 6 <<< 1) + (f 7 <<< 0)) (7 - k) = f k := by
  have bound (i : Nat) : (f i).toNat ≤ 1 := by
    rcases bits i with bit | bit <;> simp [bit]
  have sum : ((f 0 <<< 7) + (f 1 <<< 6) + (f 2 <<< 5) + (f 3 <<< 4) + (f 4 <<< 3) + (f 5 <<< 2) +
      (f 6 <<< 1) + (f 7 <<< 0)).toNat = (f 0).toNat * 128 + (f 1).toNat * 64 + (f 2).toNat * 32 +
        (f 3).toNat * 16 + (f 4).toNat * 8 + (f 5).toNat * 4 + (f 6).toNat * 2 + (f 7).toNat := by
    simp only [UInt8.toNat_add, UInt8.toNat_shiftLeft, Nat.shiftLeft_eq]
    have := bound 0; have := bound 1; have := bound 2; have := bound 3
    have := bound 4; have := bound 5; have := bound 6; have := bound 7
    simp
    omega
  apply UInt8.toNat_inj.mp
  rw [bitAt_toNat _ _ (by omega), sum]
  have := bound 0; have := bound 1; have := bound 2; have := bound 3
  have := bound 4; have := bound 5; have := bound 6; have := bound 7
  match k with
  | 0 | 1 | 2 | 3 | 4 | 5 | 6 | 7 => omega

theorem bitAt_bitToByte {ibuf : Nat → UInt8} (bits : ∀ i, ibuf i = 0 ∨ ibuf i = 1) (ilen : Nat)
    (obuf : Nat → UInt8) {i : Nat} (inside : i < ilen) :
    bitAt ((bitToByte 1 ibuf ilen obuf).1 (i / 8)) (7 - i % 8) = ibuf i := by
  have packed := bitAt_packed (fun r => ibuf (8 * (i / 8) + r)) (fun r => bits _)
    (Nat.mod_lt i (show 0 < 8 by decide))
  rw [Nat.div_add_mod] at packed
  rw [bitToByte_apply, if_pos (by omega)]
  exact packed

theorem byte_ext {a b : UInt8} (same : ∀ k < 8, bitAt a k = bitAt b k) : a = b := by
  apply UInt8.toNat_inj.mp
  refine Nat.eq_of_testBit_eq fun k => ?_
  by_cases small : k < 8
  · rw [Nat.testBit_eq_decide_div_mod_eq, Nat.testBit_eq_decide_div_mod_eq, ← bitAt_toNat a k small,
      ← bitAt_toNat b k small, same k small]
  · have wide : 2 ^ 8 ≤ 2 ^ k := Nat.pow_le_pow_right (by decide) (by omega)
    rw [Nat.testBit_lt_two_pow (Nat.lt_of_lt_of_le a.toNat_lt wide),
      Nat.testBit_lt_two_pow (Nat.lt_of_lt_of_le b.toNat_lt wide)]

/-- Big-endian packing recovers a byte from its eight bits. -/
theorem byte_of_bits (b : UInt8) :
    (bitAt b 7 <<< 7) + (bitAt b 6 <<< 6) + (bitAt b 5 <<< 5) + (bitAt b 4 <<< 4) +
      (bitAt b 3 <<< 3) + (bitAt b 2 <<< 2) + (bitAt b 1 <<< 1) + (bitAt b 0 <<< 0) = b := by
  refine byte_ext fun k small => ?_
  have packed := bitAt_packed (fun i => bitAt b (7 - i)) (fun i => bitAt_cases b _ (by omega))
    (show 7 - k < 8 by omega)
  rw [show 7 - (7 - k) = k by omega] at packed
  exact packed

end OpenDab
