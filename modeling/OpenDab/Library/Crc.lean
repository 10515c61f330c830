import Mathlib.Tactic.Common

/-! The shift register of a cyclic redundancy check, for any polynomial. Bit 0 of the
register is the next one to leave it, and the check bits are sent in that order. -/
namespace Crc

def feed (poly crc : BitVec w) (bit : Bool) : BitVec w :=
  (crc >>> 1) ^^^ if crc.getLsbD 0 ^^ bit then poly else 0

def run (poly crc : BitVec w) (bits : List Bool) : BitVec w := bits.foldl (feed poly) crc

/-- The complement of the register, as it is appended to a message. -/
def check (crc : BitVec w) : List Bool := (List.range w).map fun i => !crc.getLsbD i

theorem run_append (poly crc : BitVec w) (l l' : List Bool) :
    run poly crc (l ++ l') = run poly (run poly crc l) l' := List.foldl_append

theorem feed_xor (poly a b : BitVec w) (x y : Bool) :
    feed poly (a ^^^ b) (x ^^ y) = feed poly a x ^^^ feed poly b y := by
  have taps (p q : Bool) : (if p ^^ q then poly else 0) =
      (if p then poly else 0) ^^^ if q then poly else 0 := by
    cases p <;> cases q <;> simp
  have leaves : ((a ^^^ b).getLsbD 0 ^^ (x ^^ y)) = ((a.getLsbD 0 ^^ x) ^^ (b.getLsbD 0 ^^ y)) := by
    rw [BitVec.getLsbD_xor, Bool.xor_assoc, Bool.xor_left_comm _ x, ← Bool.xor_assoc]
  rw [feed, leaves, taps, BitVec.ushiftRight_xor_distrib, feed, feed]
  ac_rfl

/-- A bit equal to the one that leaves the register cancels it. -/
theorem feed_cancel (poly crc : BitVec w) : feed poly crc (crc.getLsbD 0) = crc >>> 1 := by
  simp [feed]

theorem run_check_prefix (poly crc : BitVec w) (n : Nat) :
    run poly crc ((List.range n).map fun i => !crc.getLsbD i) =
      crc >>> n ^^^ run poly 0 (List.replicate n true) := by
  induction n with
  | zero => simp [run]
  | succ n ih =>
    have leaves : (crc >>> n).getLsbD 0 = crc.getLsbD n := by simp
    have next : feed poly (crc >>> n) (crc.getLsbD n) = crc >>> (n + 1) := by
      rw [← leaves, feed_cancel, BitVec.shiftRight_add]
    rw [List.range_succ, List.map_append, run_append, ih, List.replicate_succ', run_append,
      ← next]
    have split := feed_xor poly (crc >>> n) (run poly 0 (List.replicate n true)) (crc.getLsbD n) true
    rw [Bool.xor_true] at split
    exact split

/-- Whatever the message was, its check bits leave the same remainder. -/
theorem run_check (poly crc : BitVec w) :
    run poly crc (check crc) = run poly 0 (List.replicate w true) := by
  have empty : crc >>> w = 0 := by
    apply BitVec.eq_of_getLsbD_eq
    intro i _
    simp
  rw [check, run_check_prefix, empty]
  simp

end Crc
