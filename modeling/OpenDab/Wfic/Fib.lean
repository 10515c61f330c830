import OpenDab.Library.Buffers
import OpenDab.Library.Crc
import OpenDab.Wfic.Bits

/-! The check bits of a FIB, and the energy dispersal of the FIC. -/
namespace OpenDab

open Buffers Crc

def crcPoly : UInt16 := 0x8408

def crcGood : UInt16 := 0xf0b8

def crc16Shift (entry k : Nat) (crc : UInt16) : UInt16 :=
  let c15 := (crc.toNat &&& 1) ^^^ ((entry >>> k) &&& 1)
  let crc := crc >>> 1
  if c15 ≠ 0 then crc ^^^ crcPoly else crc

/-- The register of `crc16` after `len` entries of `width` bits. -/
def crc16Register (buf : Nat → UInt8) (len width : Nat) : UInt16 :=
  loop len (fun i => loop width fun j => crc16Shift (buf i).toNat (width - 1 - j)) 0xffff

/-- 0 if the CRC is good. -/
def crc16 (buf : Nat → UInt8) (len width : Nat) : Nat :=
  if crc16Register buf len width = crcGood then 0 else 1

def crcBits (buf : Nat → UInt8) (len width : Nat) : List Bool :=
  (List.range len).flatMap fun i => (List.range width).map fun j =>
    (buf i).toNat.testBit (width - 1 - j)

theorem crc16Shift_feed (entry k : Nat) (crc : UInt16) :
    (crc16Shift entry k crc).toBitVec = feed crcPoly.toBitVec crc.toBitVec (entry.testBit k) := by
  have low : crc.toNat &&& 1 = (crc.toBitVec.getLsbD 0).toNat := by
    rw [BitVec.getLsbD, Nat.toNat_testBit, Nat.and_one_is_mod]
    simp
  have bit : (entry >>> k) &&& 1 = (entry.testBit k).toNat := by
    rw [Nat.toNat_testBit, Nat.and_one_is_mod, Nat.shiftRight_eq_div_pow]
  simp only [crc16Shift, low, bit, feed]
  cases crc.toBitVec.getLsbD 0 <;> cases entry.testBit k <;> simp

/-- `crc16` runs the shift register over the bits of its entries. -/
theorem crc16Register_run (buf : Nat → UInt8) (len width : Nat) :
    (crc16Register buf len width).toBitVec =
      run crcPoly.toBitVec 0xffff (crcBits buf len width) := by
  refine loop_invariant (fun i (crc : UInt16) => crc.toBitVec =
    run crcPoly.toBitVec 0xffff (crcBits buf i width)) rfl fun i _ crc before => ?_
  have entry : (loop width (fun j => crc16Shift (buf i).toNat (width - 1 - j)) crc).toBitVec =
      run crcPoly.toBitVec 0xffff (crcBits buf i width ++
        (List.range width).map fun j => (buf i).toNat.testBit (width - 1 - j)) := by
    refine loop_invariant (fun j (crc : UInt16) => crc.toBitVec =
      run crcPoly.toBitVec 0xffff (crcBits buf i width ++
        (List.range j).map fun j => (buf i).toNat.testBit (width - 1 - j)))
      (by simpa using before) fun j _ crc before => ?_
    rw [crc16Shift_feed, before, List.range_succ, List.map_append, ← List.append_assoc,
      run_append _ _ (_ ++ _)]
    rfl
  rw [entry, crcBits, crcBits, List.range_succ, List.flatMap_append]
  simp

/-- Shift the scrambler's register; the bit that enters is also the output. -/
def scrambleShift (v : UInt16) : UInt16 × UInt16 :=
  let v := v <<< 1
  let v0 := ((v >>> 9) &&& (1 : UInt16)) ^^^ ((v >>> 5) &&& (1 : UInt16))
  (v ||| v0, v0)

def scramble (ibuf obuf : Nat → UInt8) (len : Nat) : Nat → UInt8 :=
  (loop len (fun i (s : UInt16 × (Nat → UInt8)) =>
    let r := scrambleShift s.1
    (r.1, store s.2 i (ibuf i ^^^ r.2.toUInt8))) (0x1ff, obuf)).2

def dispersal : Nat → UInt16
  | 0 => 0x1ff
  | i + 1 => (scrambleShift (dispersal i)).1

def prbs (i : Nat) : UInt8 := (scrambleShift (dispersal i)).2.toUInt8

theorem scramble_apply (ibuf obuf : Nat → UInt8) (len i : Nat) :
    scramble ibuf obuf len i = if i < len then ibuf i ^^^ prbs i else obuf i := by
  have run : (loop len (fun i (s : UInt16 × (Nat → UInt8)) =>
      ((scrambleShift s.1).1, store s.2 i (ibuf i ^^^ (scrambleShift s.1).2.toUInt8)))
      (0x1ff, obuf)) =
      (dispersal len, copy obuf 0 (fun i => ibuf i ^^^ prbs i) len) := by
    refine loop_invariant (fun n s => s = (dispersal n, copy obuf 0 (fun i => ibuf i ^^^ prbs i) n))
      ?_ fun n _ s before => ?_
    · rw [← loop_store]
      rfl
    · rw [before, ← loop_store, ← loop_store, loop_succ, Nat.zero_add]
      rfl
  refine (congrArg (fun s => s.2 i) run).trans ?_
  simp [copy]

theorem prbs_bit (i : Nat) : prbs i = 0 ∨ prbs i = 1 := by
  have low (v : UInt16) : v &&& 1 = 0 ∨ v &&& 1 = 1 := by
    have bit : (v &&& 1).toNat = v.toNat % 2 := by
      rw [UInt16.toNat_and]
      exact Nat.and_one_is_mod _
    rcases Nat.mod_two_eq_zero_or_one v.toNat with even | odd
    · exact .inl (UInt16.toNat_inj.mp (bit.trans even))
    · exact .inr (UInt16.toNat_inj.mp (bit.trans odd))
  unfold prbs scrambleShift
  rcases low (dispersal i <<< 1 >>> 9) with first | first <;>
    rcases low (dispersal i <<< 1 >>> 5) with second | second <;>
      simp [first, second]

/-- The 256 bits of a FIB of 30 bytes: first bit highest, then the complement of the CRC. -/
def fibBits (fib : Nat → UInt8) (i : Nat) : UInt8 :=
  let data := (byteToBit 1 fib 30 fun _ => 0).1
  let crc := crc16Register data 240 1
  if i < 240 then data i else if crc.toBitVec.getLsbD (i - 240) then 0 else 1

theorem crcBits_one (buf : Nat → UInt8) (len : Nat) :
    crcBits buf len 1 = (List.range len).map fun i => (buf i).toNat.testBit 0 := by
  rw [List.map_eq_flatMap]
  rfl

theorem fibBits_apply (fib : Nat → UInt8) {i : Nat} (inside : i < 240) :
    fibBits fib i = bitAt (fib (i / 8)) (7 - i % 8) := by
  have data : fibBits fib i = (byteToBit 1 fib 30 fun _ => 0).1 i := if_pos inside
  rw [data, byteToBit_apply, if_pos (by omega)]
  rfl

theorem fibBits_bit (fib : Nat → UInt8) (i : Nat) : fibBits fib i = 0 ∨ fibBits fib i = 1 := by
  by_cases inside : i < 240
  · rw [fibBits_apply fib inside]
    exact bitAt_cases _ _ (by omega)
  · rw [fibBits, if_neg inside]
    split
    · exact .inl rfl
    · exact .inr rfl

theorem crc16_fibBits (buf fib : Nat → UInt8) (same : ∀ i < 256, buf i = fibBits fib i) :
    crc16 buf 256 1 = 0 := by
  let data := (byteToBit 1 fib 30 fun _ => 0).1
  have message : crcBits buf 256 1 =
      crcBits data 240 1 ++ check (crc16Register data 240 1).toBitVec := by
    rw [crcBits_one, crcBits_one, check, show 256 = 240 + 16 from rfl, List.range_add,
      List.map_append]
    refine congrArg₂ (· ++ ·) ?_ ?_
    · refine List.map_congr_left fun i member => ?_
      have inside := List.mem_range.mp member
      rw [same i (by omega), fibBits, if_pos inside]
    · rw [List.map_map]
      refine List.map_congr_left fun i member => ?_
      have inside := List.mem_range.mp member
      rw [Function.comp_apply, same _ (by omega), fibBits, if_neg (by omega), Nat.add_sub_cancel_left]
      cases (crc16Register data 240 1).toBitVec.getLsbD i <;> rfl
  have register : (crc16Register buf 256 1).toBitVec = crcGood.toBitVec := by
    rw [crc16Register_run, message, run_append, ← crc16Register_run, run_check]
    decide
  rw [crc16, if_pos (UInt16.toBitVec_inj.mp register)]

end OpenDab
