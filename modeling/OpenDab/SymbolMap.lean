import OpenDab.Symsel

/-! The bit map that selects symbols. Two adjacent bits stand for each symbol; the bits are
collected in a 64-bit and a 32-bit accumulator which overlap by 16 bits. -/
namespace OpenDab

open Buffers

structure SymAcc where
  l : BitVec 64
  h : BitVec 32

def SymAcc.add (j : Nat) (acc : SymAcc) : SymAcc :=
  if j < 63 then { acc with l := acc.l ||| (0xc000000000000000#64 >>> (j - 2)) }
  else { acc with h := acc.h ||| (0xc0000000#32 >>> (j - 48 - 2)) }

/-- `for (j = start; j < end + 1; j++)`, for each of the four ranges. -/
def SymAcc.collect (r : Symrange) : SymAcc :=
  loop 4 (fun i => loop (r.end_ i + 1 - r.start i) (fun k => SymAcc.add (r.start i + k))) ⟨0, 0⟩

/-- `swab` of one word: the bytes change places in pairs, whichever way a word is stored. -/
def swab (low : BitVec w) (x : BitVec w) : BitVec w := ((x &&& low) <<< 8) ||| ((x >>> 8) &&& low)

def orByte (sel : Nat → UInt8) (address : Nat) (byte : BitVec 8) : Nat → UInt8 :=
  store sel address (sel address ||| .ofBitVec byte)

def wfsymsel (sel : Nat → UInt8) (r : Symrange) : Nat → UInt8 :=
  let acc := SymAcc.collect r
  let t := swab 0x00ff00ff00ff00ff#64 acc.l
  let j := swab 0x00ff00ff#32 acc.h
  let sel := copy sel 0 (fun _ => 0) 10
  let sel := loop 8 (fun i sel =>
    orByte sel i (((t >>> (8 * (7 - i))) &&& 0xff).setWidth 8)) sel
  let sel := loop 4 (fun i sel =>
    orByte sel (i + 6) (((j.sshiftRight (8 * (3 - i))) &&& 0xff).setWidth 8)) sel
  -- always select symbols 2, 3, 4
  orByte sel 1 0xf0

/-- Bit `p` of the map is bit `15 - p % 16` of word `p / 16`, whose high byte is the second. -/
def selBit (sel : Nat → UInt8) (p : Nat) : Bool :=
  ((sel (2 * (p / 16) + 1)).toBitVec ++ (sel (2 * (p / 16))).toBitVec).getLsbD (15 - p % 16)

def SymbolBit (n p : Nat) : Prop := p = n - 2 ∨ p = n - 1

structure SymAcc.Marks (symbols : Nat → Prop) (acc : SymAcc) : Prop where
  l : ∀ p < 64, acc.l.getMsbD p = true ↔ ∃ n, symbols n ∧ n < 63 ∧ SymbolBit n p
  h : ∀ q < 32, acc.h.getMsbD q = true ↔ ∃ n, symbols n ∧ 63 ≤ n ∧ SymbolBit n (48 + q)

theorem getMsbD_top64 : ∀ i < 64, (0xc000000000000000#64).getMsbD i = decide (i < 2) := by decide

theorem getMsbD_top32 : ∀ i < 32, (0xc0000000#32).getMsbD i = decide (i < 2) := by decide

/-- Two bits next to each other go into a word at `s`, counted from the left. -/
theorem getMsbD_or_shifted {w : Nat} {top : BitVec w} (two : ∀ i < w, top.getMsbD i = decide (i < 2))
    (x : BitVec w) (s : Nat) {p : Nat} (inside : p < w) :
    (x ||| (top >>> s)).getMsbD p = true ↔ x.getMsbD p = true ∨ (p = s ∨ p = s + 1) := by
  rw [BitVec.getMsbD_or, Bool.or_eq_true, BitVec.getMsbD_ushiftRight, two _ (by omega)]
  refine or_congr_right ?_
  simp only [Bool.and_eq_true, Bool.not_eq_true', decide_eq_true_eq, decide_eq_false_iff_not]
  omega

theorem SymAcc.Marks.add {symbols : Nat → Prop} {acc : SymAcc} (marks : acc.Marks symbols) {j : Nat}
    (first : 2 ≤ j) : (acc.add j).Marks fun n => symbols n ∨ n = j := by
  have more (which : Nat → Prop) : (∃ n, (symbols n ∨ n = j) ∧ which n) ↔
      (∃ n, symbols n ∧ which n) ∨ which j := by
    simp only [or_and_right, exists_or, exists_eq_left]
  unfold SymAcc.add
  split
  · next below =>
    refine ⟨fun p inside => ?_, fun q inside => ?_⟩
    · rw [more, ← marks.l p inside, getMsbD_or_shifted getMsbD_top64 _ _ inside, SymbolBit]
      exact or_congr_right (by omega)
    · rw [more, ← marks.h q inside, or_iff_left]
      exact fun high => absurd below (Nat.not_lt_of_le high.1)
  · next above =>
    refine ⟨fun p inside => ?_, fun q inside => ?_⟩
    · rw [more, ← marks.l p inside, or_iff_left]
      exact fun low => above low.1
    · rw [more, ← marks.h q inside, getMsbD_or_shifted getMsbD_top32 _ _ inside, SymbolBit]
      exact or_congr_right (by omega)

theorem SymAcc.Marks.congr {symbols symbols' : Nat → Prop} {acc : SymAcc} (marks : acc.Marks symbols)
    (same : ∀ n, symbols n ↔ symbols' n) : acc.Marks symbols' := by
  obtain rfl : symbols = symbols' := funext fun n => propext (same n)
  exact marks

def SelectedBy (r : Symrange) (cifs n : Nat) : Prop := ∃ i < cifs, r.start i ≤ n ∧ n ≤ r.end_ i

theorem SymAcc.collect_marks (r : Symrange) (first : ∀ i < 4, 2 ≤ r.start i ∧ r.start i ≤ r.end_ i) :
    (SymAcc.collect r).Marks (SelectedBy r 4) := by
  refine loop_invariant (fun i (acc : SymAcc) => acc.Marks (SelectedBy r i)) ?_ ?_
  · constructor <;> simp [SelectedBy]
  · intro i cif acc before
    obtain ⟨low, ordered⟩ := first i cif
    have range : (loop (r.end_ i + 1 - r.start i) (fun k => SymAcc.add (r.start i + k)) acc).Marks
        fun n => SelectedBy r i n ∨
          r.start i ≤ n ∧ n < r.start i + (r.end_ i + 1 - r.start i) := by
      refine loop_invariant (fun k (acc : SymAcc) => acc.Marks fun n =>
        SelectedBy r i n ∨ r.start i ≤ n ∧ n < r.start i + k) ?_ ?_
      · exact before.congr fun n => (or_iff_left (by omega)).symm
      · intro k _ acc marks
        refine (marks.add (j := r.start i + k) (by omega)).congr fun n => ?_
        exact or_assoc.trans (or_congr_right (by omega))
    refine range.congr fun n => ?_
    have upto : n < r.start i + (r.end_ i + 1 - r.start i) ↔ n ≤ r.end_ i := by omega
    rw [upto]
    constructor
    · rintro (⟨j, earlier, inside⟩ | inside)
      · exact ⟨j, by omega, inside⟩
      · exact ⟨i, by omega, inside⟩
    · rintro ⟨j, earlier, inside⟩
      rcases Nat.lt_succ_iff_lt_or_eq.mp earlier with lt | rfl
      · exact .inl ⟨j, lt, inside⟩
      · exact .inr inside

/-- The bits of a word change places by eight, up in an even byte and down in an odd one. -/
theorem getLsbD_swab {w : Nat} {low : BitVec w}
    (mask : ∀ b < w, low.getLsbD b = decide (b / 8 % 2 = 0)) (x : BitVec w) {b : Nat} (inside : b < w)
    (whole : 16 ∣ w) :
    (swab low x).getLsbD b = x.getLsbD (if b / 8 % 2 = 0 then b + 8 else b - 8) := by
  rw [swab, BitVec.getLsbD_or, BitVec.getLsbD_shiftLeft, BitVec.getLsbD_and, BitVec.getLsbD_and,
    BitVec.getLsbD_ushiftRight, mask b inside, mask (b - 8) (by omega)]
  split
  · next even =>
    by_cases first : b < 8
    · simp [even, first, Nat.add_comm 8]
    · have odd : ¬(b - 8) / 8 % 2 = 0 := by omega
      simp [even, odd, Nat.add_comm 8]
  · next odd =>
    have even : (b - 8) / 8 % 2 = 0 := by omega
    have second : ¬b < 8 := by omega
    simp [odd, even, second, inside]

theorem getLsbD_low64 : ∀ b < 64, (0x00ff00ff00ff00ff#64).getLsbD b = decide (b / 8 % 2 = 0) := by
  decide

theorem getLsbD_low32 : ∀ b < 32, (0x00ff00ff#32).getLsbD b = decide (b / 8 % 2 = 0) := by decide

theorem getLsbD_byte {w : Nat} (x : BitVec w) {b : Nat} (low : b < 8) :
    ((x &&& 0xff).setWidth 8).getLsbD b = x.getLsbD b := by
  have ones : (255 : Nat).testBit b = decide (b < 8) := Nat.testBit_two_pow_sub_one 8 b
  have inside (set : x.getLsbD b = true) : b < w := BitVec.lt_of_getLsbD set
  have mask : (0xff : BitVec w) = BitVec.ofNat w 255 := rfl
  simpa [mask, BitVec.getLsbD_ofNat, ones, low] using inside

theorem getLsbD_sshiftRight_inside {w : Nat} (x : BitVec w) {s b : Nat} (inside : s + b < w) :
    (x.sshiftRight s).getLsbD b = x.getLsbD (s + b) := by
  have small : ¬w ≤ b := by omega
  simp [BitVec.getLsbD_sshiftRight, inside, small]

def cellBit (sel : Nat → UInt8) (k b : Nat) : Bool := (sel k).toBitVec.getLsbD b

theorem cellBit_orByte (sel : Nat → UInt8) (address : Nat) (byte : BitVec 8) (k b : Nat) :
    cellBit (orByte sel address byte) k b = true ↔
      cellBit sel k b = true ∨ k = address ∧ byte.getLsbD b = true := by
  unfold cellBit orByte
  rw [store_apply]
  split
  · next same => simp [same]
  · next apart => simp [apart]

theorem cellBit_orBytes (sel : Nat → UInt8) (n : Nat) (place : Nat → Nat) (byte : Nat → BitVec 8)
    (k b : Nat) : cellBit (loop n (fun i sel => orByte sel (place i) (byte i)) sel) k b = true ↔
      cellBit sel k b = true ∨ ∃ i < n, k = place i ∧ (byte i).getLsbD b = true := by
  induction n with
  | zero => simp
  | succ n ih =>
    rw [loop_succ, cellBit_orByte, ih, or_assoc]
    refine or_congr_right ?_
    simp only [Nat.lt_succ_iff_lt_or_eq, or_and_right, exists_or, exists_eq_left]

/-- A byte of the map, with what each of the accumulators contributes. -/
theorem wfsymsel_byte (sel : Nat → UInt8) (r : Symrange) {k b : Nat} (inside : k < 10) (low : b < 8) :
    cellBit (wfsymsel sel r) k b = true ↔
      (k < 8 ∧ (swab 0x00ff00ff00ff00ff#64 (SymAcc.collect r).l).getLsbD (8 * (7 - k) + b) = true) ∨
      (6 ≤ k ∧ (swab 0x00ff00ff#32 (SymAcc.collect r).h).getLsbD (8 * (9 - k) + b) = true) ∨
      (k = 1 ∧ 4 ≤ b) := by
  have cleared : cellBit (copy sel 0 (fun _ => 0) 10) k b = false := by
    simp [cellBit, copy, inside]
  have always : ∀ b < 8, (0xf0 : BitVec 8).getLsbD b = true ↔ 4 ≤ b := by decide
  unfold wfsymsel
  rw [cellBit_orByte, cellBit_orBytes, cellBit_orBytes]
  simp only [cleared, getLsbD_byte _ low, always b low, Bool.false_eq_true, false_or, or_assoc]
  refine or_congr ?_ (or_congr_left ?_)
  · constructor
    · rintro ⟨i, small, rfl, bit⟩
      rw [BitVec.getLsbD_ushiftRight] at bit
      exact ⟨small, bit⟩
    · rintro ⟨small, bit⟩
      refine ⟨k, small, rfl, ?_⟩
      rwa [BitVec.getLsbD_ushiftRight]
  · constructor
    · rintro ⟨i, small, rfl, bit⟩
      rw [getLsbD_sshiftRight_inside _ (by omega)] at bit
      have place : 9 - (i + 6) = 3 - i := by omega
      exact ⟨Nat.le_add_left 6 i, by rwa [place]⟩
    · rintro ⟨high, bit⟩
      obtain ⟨i, rfl⟩ := Nat.exists_eq_add_of_le' high
      have place : 9 - (i + 6) = 3 - i := by omega
      refine ⟨i, by omega, rfl, ?_⟩
      rwa [getLsbD_sshiftRight_inside _ (by omega), ← place]

/-- A bit of the map lies in the byte whose number has its last bit flipped. -/
theorem selBit_cell (sel : Nat → UInt8) (p : Nat) :
    selBit sel p = cellBit sel (2 * (p / 16) + (1 - p / 8 % 2)) (7 - p % 8) := by
  unfold selBit cellBit
  rw [BitVec.getLsbD_append]
  rcases Nat.mod_two_eq_zero_or_one (p / 8) with even | odd
  · have high : ¬15 - p % 16 < 8 := by omega
    have place : 15 - p % 16 - 8 = 7 - p % 8 := by omega
    rw [even]
    rw [if_neg high, place]
  · have low : 15 - p % 16 < 8 := by omega
    have place : 15 - p % 16 = 7 - p % 8 := by omega
    rw [odd]
    rw [if_pos low, place]
    rfl

/-- The pairs of bytes that have changed places stand in the map from left to right. -/
theorem getLsbD_swab_left {w : Nat} {low : BitVec w}
    (mask : ∀ b < w, low.getLsbD b = decide (b / 8 % 2 = 0)) (x : BitVec w) {p b : Nat}
    (inside : p < w) (whole : 16 ∣ w)
    (place : b + 8 * (2 * (p / 16) + (1 - p / 8 % 2)) = w - 8 + (7 - p % 8)) :
    (swab low x).getLsbD b = x.getMsbD p := by
  rw [getLsbD_swab mask x (by omega) whole, BitVec.getMsbD, decide_eq_true inside, Bool.true_and]
  refine congrArg _ ?_
  split <;> omega

/-- The map has the bits of the accumulators in order, the second one from bit 48 on. -/
theorem wfsymsel_bit (sel : Nat → UInt8) (r : Symrange) {p : Nat} (inside : p < 80) :
    selBit (wfsymsel sel r) p = true ↔
      (p < 64 ∧ (SymAcc.collect r).l.getMsbD p = true) ∨
      (48 ≤ p ∧ (SymAcc.collect r).h.getMsbD (p - 48) = true) ∨ p < 4 := by
  rw [selBit_cell, wfsymsel_byte sel r (by omega) (by omega)]
  refine or_congr ?_ (or_congr ?_ (by omega))
  · have before : 2 * (p / 16) + (1 - p / 8 % 2) < 8 ↔ p < 64 := by omega
    rw [before]
    refine and_congr_right fun low => ?_
    rw [getLsbD_swab_left getLsbD_low64 _ low (by decide) (by omega)]
  · have behind : 6 ≤ 2 * (p / 16) + (1 - p / 8 % 2) ↔ 48 ≤ p := by omega
    rw [behind]
    refine and_congr_right fun high => ?_
    rw [getLsbD_swab_left (p := p - 48) getLsbD_low32 _ (by omega) (by decide) (by omega)]

/-- The map selects the symbols of the four ranges, and 2, 3 and 4, whatever was there before. -/
theorem wfsymsel_exact (sel : Nat → UInt8) (r : Symrange)
    (ranges : ∀ i < 4, 2 ≤ r.start i ∧ r.start i ≤ r.end_ i ∧ r.end_ i ≤ 76) (p : Nat)
    (inside : p < 80) :
    selBit (wfsymsel sel r) p = true ↔
      p < 4 ∨ ∃ n, (∃ i < 4, r.start i ≤ n ∧ n ≤ r.end_ i) ∧ (p = n - 2 ∨ p = n - 1) := by
  have marks := SymAcc.collect_marks r fun i cif => ⟨(ranges i cif).1, (ranges i cif).2.1⟩
  rw [wfsymsel_bit sel r inside, ← or_assoc, or_comm]
  refine or_congr_right ⟨?_, ?_⟩
  · rintro (⟨low, bit⟩ | ⟨high, bit⟩)
    · obtain ⟨n, selected, -, place⟩ := (marks.l p low).mp bit
      exact ⟨n, selected, place⟩
    · obtain ⟨n, selected, -, place⟩ := (marks.h (p - 48) (by omega)).mp bit
      rw [Nat.add_sub_cancel' high] at place
      exact ⟨n, selected, place⟩
  · rintro ⟨n, selected, place⟩
    obtain ⟨i, cif, within⟩ := selected
    have bounds := ranges i cif
    by_cases below : n < 63
    · have low : p < 64 := by omega
      exact .inl ⟨low, (marks.l p low).mpr ⟨n, ⟨i, cif, within⟩, below, place⟩⟩
    · have high : 48 ≤ p := by omega
      refine .inr ⟨high, (marks.h (p - 48) (by omega)).mpr ⟨n, ⟨i, cif, within⟩, by omega, ?_⟩⟩
      rwa [SymbolBit, Nat.add_sub_cancel' high]

theorem wfsymsel_exact_tenth :
    selBit (wfsymsel (fun _ => 0xff) ⟨fun i => 15 + 18 * i, fun i => 17 + 18 * i, 0, 0, 0⟩) 70 = true ↔
      70 < 4 ∨ ∃ n, (∃ i < 4, 15 + 18 * i ≤ n ∧ n ≤ 17 + 18 * i) ∧ (70 = n - 2 ∨ 70 = n - 1) :=
  wfsymsel_exact _ _ (fun i cif => by dsimp only; omega) 70 (by decide)

end OpenDab
