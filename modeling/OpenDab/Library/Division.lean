import Mathlib.Tactic.Common

/-! Division of a bit string by a polynomial, most significant bit first: the shift register
of a cyclic redundancy check, and its blockwise form with a table. -/
namespace Division

def msbFirst (v : BitVec n) : List Bool := (List.range n).map v.getMsbD

def shiftIn (poly crc : BitVec w) (bit : Bool) : BitVec w :=
  (crc <<< 1) ^^^ if crc.msb ^^ bit then poly else 0

/-- The register after the bits of a dividend. -/
def divide (poly crc : BitVec w) (bits : List Bool) : BitVec w := bits.foldl (shiftIn poly) crc

@[simp] theorem length_msbFirst (v : BitVec n) : (msbFirst v).length = n := by simp [msbFirst]

theorem msbFirst_injective {u v : BitVec n} (same : msbFirst u = msbFirst v) : u = v :=
  BitVec.eq_of_getMsbD_eq fun i inside => List.map_inj_left.mp same i (List.mem_range.mpr inside)

theorem divide_append (poly crc : BitVec w) (l l' : List Bool) :
    divide poly crc (l ++ l') = divide poly (divide poly crc l) l' := List.foldl_append

theorem shiftIn_xor (poly a b : BitVec w) (x y : Bool) :
    shiftIn poly (a ^^^ b) (x ^^ y) = shiftIn poly a x ^^^ shiftIn poly b y := by
  have taps (p q : Bool) : (if p ^^ q then poly else 0) =
      (if p then poly else 0) ^^^ if q then poly else 0 := by
    cases p <;> cases q <;> simp
  have leaves : ((a ^^^ b).msb ^^ (x ^^ y)) = ((a.msb ^^ x) ^^ (b.msb ^^ y)) := by
    rw [BitVec.msb_xor, Bool.xor_assoc, Bool.xor_left_comm _ x, ← Bool.xor_assoc]
  rw [shiftIn, leaves, taps, BitVec.shiftLeft_xor_distrib, shiftIn, shiftIn]
  ac_rfl

theorem divide_xor (poly a b : BitVec w) (u v : BitVec n) :
    divide poly (a ^^^ b) (msbFirst (u ^^^ v)) =
      divide poly a (msbFirst u) ^^^ divide poly b (msbFirst v) := by
  unfold divide msbFirst
  generalize List.range n = places
  induction places generalizing a b with
  | nil => rfl
  | cons i places ih =>
    simp only [List.map_cons, List.foldl_cons]
    rw [BitVec.getMsbD_xor, shiftIn_xor, ih]

/-- Bits equal to those that leave the register cancel them. -/
theorem divide_leaving (poly crc : BitVec w) (n : Nat) :
    divide poly crc ((List.range n).map crc.getMsbD) = crc <<< n := by
  induction n with
  | zero => simp [divide]
  | succ n ih =>
    have leaves : (crc <<< n).msb = crc.getMsbD n := by simp [BitVec.msb]
    rw [List.range_succ, List.map_append, divide_append, ih, BitVec.shiftLeft_add]
    simp [divide, shiftIn, leaves]

theorem divide_self (poly crc : BitVec w) : divide poly crc (msbFirst crc) = 0#w := by
  rw [msbFirst, divide_leaving]
  simp

/-- A block of bits at a time, with the remainders of all blocks in a table. -/
theorem divide_block (poly crc : BitVec w) {top : BitVec n} (block : BitVec n)
    (leads : ∀ i < n, top.getMsbD i = crc.getMsbD i) :
    divide poly crc (msbFirst block) =
      (crc <<< n) ^^^ divide poly 0#w (msbFirst (top ^^^ block)) := by
  have leaving : msbFirst top = (List.range n).map crc.getMsbD :=
    List.map_congr_left fun i member => leads i (List.mem_range.mp member)
  have linear := divide_xor poly crc 0#w top (top ^^^ block)
  rwa [leaving, divide_leaving, BitVec.xor_zero, ← BitVec.xor_assoc, BitVec.xor_self,
    BitVec.zero_xor] at linear

/-- One bit of the dividend, on numbers: this is what tables of remainders are checked with. -/
def shiftInNat (w poly crc : Nat) (bit : Bool) : Nat :=
  ((crc <<< 1) % (1 <<< w)) ^^^ bif crc.testBit (w - 1) ^^ bit then poly else 0

theorem shiftIn_toNat (poly crc : BitVec w) (bit : Bool) :
    (shiftIn poly crc bit).toNat = shiftInNat w poly.toNat crc.toNat bit := by
  have top : crc.msb = crc.toNat.testBit (w - 1) := by
    rw [BitVec.msb_eq_getLsbD_last, BitVec.getLsbD]
  rw [shiftIn, shiftInNat, ← top, BitVec.toNat_xor, BitVec.toNat_shiftLeft, Nat.one_shiftLeft]
  cases crc.msb ^^ bit <;> rfl

theorem divide_toNat (poly crc : BitVec w) (bits : List Bool) :
    (divide poly crc bits).toNat = bits.foldl (shiftInNat w poly.toNat) crc.toNat := by
  unfold divide
  induction bits generalizing crc with
  | nil => rfl
  | cons bit bits ih => rw [List.foldl_cons, ih, shiftIn_toNat, List.foldl_cons]

end Division
