import OpenDab.CrcCheck
import OpenDab.Library.Detection
import OpenDab.Wfic.Fib

/-! The CRC of a FIB and the CRC of an access unit are one code: `crc16` shifts reflected words
and accepts the remainder of an inverted check, the loop over `crctab` shifts the other way and
accepts 0. -/
namespace OpenDab

open Buffers Division

/-- The bits that `crc16` sees in bytes are the bits of the message. -/
theorem crcBits_bytes (buf : Nat → UInt8) (len : Nat) :
    crcBits buf len 8 = byteBits (cells buf 0 len) := by
  have byte (b : UInt8) : (List.range 8).map (fun j => b.toNat.testBit (8 - 1 - j)) =
      msbFirst b.toBitVec := by
    refine List.map_congr_left fun j member => ?_
    simp [BitVec.getMsbD_eq_getLsbD, List.mem_range.mp member, BitVec.getLsbD]
  rw [crcBits, byteBits, cells, List.flatMap_map, ← List.range_eq_range']
  exact congrArg (List.flatMap · _) (funext fun i => byte (buf i))

/-- Expanding the bytes to single bits changes nothing for `crc16`. -/
theorem crcBits_expanded (buf obuf : Nat → UInt8) (len : Nat) :
    crcBits (byteToBit 1 buf len obuf).1 (8 * len) 1 = crcBits buf len 8 := by
  have bit {i j : Nat} (inside : i < len) (small : j < 8) :
      ((byteToBit 1 buf len obuf).1 (8 * i + j)).toNat.testBit 0 = (buf i).toNat.testBit (8 - 1 - j) := by
    have place : (8 * i + j) / 8 = i ∧ (8 * i + j) % 8 = j := by omega
    rw [byteToBit_apply, place.1, place.2, if_pos inside, if_neg (by decide), Nat.testBit_zero,
      bitAt_toNat _ _ (by omega), Nat.testBit_eq_decide_div_mod_eq]
    simp
  rw [crcBits_one]
  have upTo : ∀ n ≤ len, (List.range (8 * n)).map
      (fun i => ((byteToBit 1 buf len obuf).1 i).toNat.testBit 0) = crcBits buf n 8 := by
    intro n
    induction n with
    | zero => exact fun _ => rfl
    | succ n ih =>
      intro inside
      rw [Nat.mul_succ, List.range_add, List.map_append, ih (by omega), crcBits, crcBits,
        List.range_succ (n := n), List.flatMap_append, List.flatMap_singleton, List.map_map]
      exact congrArg _ (List.map_congr_left fun j member =>
        bit (by omega) (List.mem_range.mp member))
  exact upTo len (Nat.le_refl len)

def inverted : BitVec 16 := 0x1d0f

theorem crc16_good_iff (buf : Nat → UInt8) (len : Nat) : crc16 buf len 8 = 0 ↔
    divide ccittPoly (BitVec.allOnes 16) (byteBits (cells buf 0 len)) = inverted := by
  have poly : crcPoly.toBitVec.reverse = ccittPoly := by decide
  have ones : (0xffff : BitVec 16).reverse = BitVec.allOnes 16 := by decide
  have good : inverted.reverse = crcGood.toBitVec := by decide
  have register := run_reverse crcPoly.toBitVec 0xffff (crcBits buf len 8)
  rw [← crc16Register_run, poly, ones, crcBits_bytes] at register
  have same : crc16Register buf len 8 = crcGood ↔
      (crc16Register buf len 8).toBitVec.reverse = inverted := by
    constructor
    · intro accepted
      rw [accepted, ← good, BitVec.reverse_reverse_eq]
    · intro remainder
      rw [← UInt16.toBitVec_inj, ← good, ← remainder, BitVec.reverse_reverse_eq]
  rw [← register, ← same, crc16]
  split <;> simp_all

def lastTwo (len : Nat) : Nat → UInt8 := fun i => if len - 2 ≤ i ∧ i < len then 0xff else 0

/-- The last two bytes inverted, as `wfdabplusdec` does with an access unit. -/
def invertLast (buf : Nat → UInt8) (len : Nat) : Nat → UInt8 :=
  let buf := store buf (len - 2) (buf (len - 2) ^^^ 0xff)
  store buf (len - 1) (buf (len - 1) ^^^ 0xff)

theorem byteBits_xor (buf errors : Nat → UInt8) (len : Nat) :
    byteBits (cells (fun i => buf i ^^^ errors i) 0 len) =
      List.zipWith (· ^^ ·) (byteBits (cells buf 0 len)) (byteBits (cells errors 0 len)) := by
  induction len with
  | zero => rfl
  | succ len ih =>
    simp only [cells_add, byteBits_append, ih]
    rw [List.zipWith_append (by simp only [length_byteBits, length_cells])]
    refine congrArg _ ?_
    simp [cells, byteBits, msbFirst]

theorem crccheck_iff (buf : Nat → UInt8) (len : Nat) : crccheck buf len = true ↔
    divide ccittPoly (BitVec.allOnes 16) (byteBits (cells buf 0 len)) = 0#16 := by
  have remainder := crcLoop_divide crctab_remainders 0xffff buf len
  have ones : (0xffff : UInt16).toBitVec = BitVec.allOnes 16 := rfl
  rw [ones] at remainder
  rw [← remainder, crccheck, beq_iff_eq, ← UInt16.toBitVec_inj]
  rfl

/-- Errors change the remainder by what they leave alone. -/
theorem divide_errors (buf errors : Nat → UInt8) (len : Nat) :
    divide ccittPoly (BitVec.allOnes 16) (byteBits (cells (fun i => buf i ^^^ errors i) 0 len)) =
      divide ccittPoly (BitVec.allOnes 16) (byteBits (cells buf 0 len)) ^^^
        divide ccittPoly 0#16 (byteBits (cells errors 0 len)) := by
  rw [byteBits_xor, ← divide_zipWith _ _ _ (by simp only [length_byteBits, length_cells]),
    BitVec.xor_zero]

theorem invertLast_xor (buf : Nat → UInt8) {len : Nat} (two : 2 ≤ len) :
    invertLast buf len = fun i => buf i ^^^ lastTwo len i := by
  funext i
  have apart : len - 1 ≠ len - 2 := by omega
  simp only [invertLast, store_apply, lastTwo, if_neg apart]
  by_cases last : i = len - 1
  · rw [if_pos last, if_pos (by omega), last]
  · rw [if_neg last]
    by_cases before : i = len - 2
    · rw [if_pos before, if_pos (by omega), before]
    · rw [if_neg before, if_neg (by omega), UInt8.xor_zero]

/-- An inverted check leaves its remainder whatever is in front of it. -/
theorem divide_lastTwo {len : Nat} (two : 2 ≤ len) :
    divide ccittPoly 0#16 (byteBits (cells (lastTwo len) 0 len)) = inverted := by
  obtain ⟨n, rfl⟩ : ∃ n, len = n + 2 := ⟨len - 2, by omega⟩
  have front : cells (lastTwo (n + 2)) 0 n = List.replicate n 0 :=
    List.eq_replicate_iff.mpr ⟨by simp, fun b member => by
      obtain ⟨i, range, rfl⟩ := List.mem_map.mp member
      have := List.mem_range'.mp range
      exact if_neg (by omega)⟩
  have back : cells (lastTwo (n + 2)) (0 + n) 2 = [0xff, 0xff] := by
    simp [cells, lastTwo, List.range'_succ]
  have zeros : byteBits (List.replicate n 0) = List.replicate (8 * n) false := by
    refine List.eq_replicate_iff.mpr ⟨by rw [length_byteBits, List.length_replicate], ?_⟩
    intro b member
    obtain ⟨byte, zero, bit⟩ := List.mem_flatMap.mp member
    rw [List.eq_of_mem_replicate zero] at bit
    have none : ∀ b ∈ msbFirst (0 : UInt8).toBitVec, b = false := by decide
    exact none b bit
  rw [cells_add, front, back, byteBits_append, zeros, divide_leading]
  decide

/-- The two implementations agree on a buffer whose last two bytes one of them sees inverted, and
`crc16` on bytes agrees with itself on their bits. -/
theorem crc_implementations_agree (buf obuf : Nat → UInt8) (len : Nat) (two : 2 ≤ len) :
    (crc16 buf len 8 = 0 ↔ crccheck (invertLast buf len) len = true) ∧
      crc16 (byteToBit 1 buf len obuf).1 (8 * len) 1 = crc16 buf len 8 := by
  constructor
  · rw [crc16_good_iff, crccheck_iff, invertLast_xor buf two, divide_errors, divide_lastTwo two,
      BitVec.xor_eq_zero_iff]
  · have registers : crc16Register (byteToBit 1 buf len obuf).1 (8 * len) 1 =
        crc16Register buf len 8 := by
      rw [← UInt16.toBitVec_inj, crc16Register_run, crc16Register_run, crcBits_expanded]
    rw [crc16, crc16, registers]

theorem crc_implementations_agree_four : (crc16 (ofList [0, 0, 0xe2, 0xf0] fun _ => 0) 4 8 = 0 ↔
    crccheck (invertLast (ofList [0, 0, 0xe2, 0xf0] fun _ => 0) 4) 4 = true) ∧
    crc16 (byteToBit 1 (ofList [0, 0, 0xe2, 0xf0] fun _ => 0) 4 fun _ => 0).1 (8 * 4) 1 =
      crc16 (ofList [0, 0, 0xe2, 0xf0] fun _ => 0) 4 8 :=
  crc_implementations_agree _ _ 4 (by decide)

/-- A burst of at most 16 bits, or an odd number of wrong bits. -/
def Detectable (errors : Nat → UInt8) (len : Nat) : Prop :=
  (true ∈ byteBits (cells errors 0 len) ∧ Confined 16 (byteBits (cells errors 0 len))) ∨
    (byteBits (cells errors 0 len)).count true % 2 = 1

theorem Detectable.remainder {errors : Nat → UInt8} {len : Nat} (detectable : Detectable errors len) :
    divide ccittPoly 0#16 (byteBits (cells errors 0 len)) ≠ 0#16 := by
  rcases detectable with ⟨some, confined⟩ | odd
  · exact divide_confined (by decide) confined some
  · exact divide_odd (by decide) odd

/-- Neither implementation accepts a buffer that was accepted before such errors. -/
theorem crc_detects (buf errors : Nat → UInt8) (len : Nat) (detectable : Detectable errors len) :
    (crccheck buf len = true → crccheck (fun i => buf i ^^^ errors i) len = false) ∧
      (crc16 buf len 8 = 0 → crc16 (fun i => buf i ^^^ errors i) len 8 = 1) := by
  have left := detectable.remainder
  constructor
  · intro accepted
    rw [crccheck_iff] at accepted
    rw [← Bool.not_eq_true, crccheck_iff, divide_errors, accepted, BitVec.zero_xor]
    exact left
  · intro accepted
    have rejected : crc16 (fun i => buf i ^^^ errors i) len 8 ≠ 0 := by
      rw [crc16_good_iff] at accepted
      rw [Ne, crc16_good_iff, divide_errors, accepted]
      intro same
      exact left ((BitVec.xor_right_inj inverted).mp (same.trans BitVec.xor_zero.symm))
    revert rejected
    unfold crc16
    split <;> simp

theorem crc_detects_two :
    crccheck (fun i => ofList [0xff, 0xff] (fun _ => 0) i ^^^ ofList [0x01, 0x81] (fun _ => 0) i) 2 =
        false ∧
      crc16 (fun i => ofList [0x00, 0x00] (fun _ => 0) i ^^^ ofList [0x01, 0x80] (fun _ => 0) i) 2 8 = 1 :=
  ⟨(crc_detects _ _ 2 (.inr (by decide))).1 (by decide),
    (crc_detects _ _ 2 (.inl ⟨by decide, 0, fun p one =>
      ⟨Nat.zero_le p, (List.getElem?_eq_some_iff.mp one).1⟩⟩)).2 (by decide)⟩

end OpenDab
