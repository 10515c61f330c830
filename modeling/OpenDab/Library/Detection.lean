import OpenDab.Library.Crc
import OpenDab.Library.Division

/-! Errors that a cyclic redundancy check detects. A register that shifts right with reflected
words divides like one that shifts left; a short burst and an odd number of wrong bits leave
a remainder. -/
namespace Division

/-- The reflected register divides by the reflected polynomial. -/
theorem feed_reverse (poly crc : BitVec w) (bit : Bool) :
    (Crc.feed poly crc bit).reverse = shiftIn poly.reverse crc.reverse bit := by
  apply BitVec.eq_of_getLsbD_eq
  intro i inside
  rw [Crc.feed, shiftIn, BitVec.getLsbD_reverse, BitVec.msb_reverse, BitVec.getMsbD_xor,
    BitVec.getLsbD_xor, BitVec.getMsbD_ushiftRight, BitVec.getLsbD_shiftLeft, BitVec.getLsbD_reverse]
  cases crc.getLsbD 0 ^^ bit with
  | false => cases i <;> simp [inside]
  | true => cases i <;> simp [inside, BitVec.getElem_reverse]

theorem run_reverse (poly crc : BitVec w) (bits : List Bool) :
    (Crc.run poly crc bits).reverse = divide poly.reverse crc.reverse bits := by
  unfold Crc.run divide
  induction bits generalizing crc with
  | nil => rfl
  | cons bit bits ih => rw [List.foldl_cons, ih, feed_reverse, List.foldl_cons]

/-- Division is linear, bit by bit. -/
theorem divide_zipWith (poly a b : BitVec w) {u v : List Bool} (same : u.length = v.length) :
    divide poly (a ^^^ b) (List.zipWith (· ^^ ·) u v) = divide poly a u ^^^ divide poly b v := by
  unfold divide
  induction u generalizing a b v with
  | nil => cases v <;> simp_all
  | cons x u ih =>
    cases v with
    | nil => simp at same
    | cons y v =>
      rw [List.zipWith_cons_cons, List.foldl_cons, shiftIn_xor]
      exact ih _ _ (Nat.succ.inj same)

theorem divide_zeros (poly : BitVec w) (n : Nat) :
    divide poly 0#w (List.replicate n false) = 0#w := by
  induction n with
  | zero => rfl
  | succ n ih =>
    have still : shiftIn poly 0#w false = 0#w := by simp [shiftIn]
    rw [List.replicate_succ, divide, List.foldl_cons, still]
    exact ih

/-- Zeros in front of the dividend do not count. -/
theorem divide_leading (poly : BitVec w) (n : Nat) (bits : List Bool) :
    divide poly 0#w (List.replicate n false ++ bits) = divide poly 0#w bits := by
  rw [divide_append, divide_zeros]

section Burst

variable {poly : BitVec w}

/-- With a constant term, no register but 0 is shifted to 0. -/
theorem shiftIn_eq_zero (constant : poly.getLsbD 0 = true) {crc : BitVec w}
    (zero : shiftIn poly crc false = 0#w) : crc = 0#w := by
  have low := congrArg (·.getLsbD 0) zero
  have top : crc.msb = false := by
    cases top : crc.msb with
    | false => rfl
    | true => simp [shiftIn, top, constant] at low
  have shifted : crc <<< 1 = 0#w := by simpa [shiftIn, top] using zero
  apply BitVec.eq_of_getMsbD_eq
  intro i inside
  cases i with
  | zero => simpa [BitVec.msb] using top
  | succ i =>
    have bit := congrArg (·.getMsbD i) shifted
    simpa [BitVec.getMsbD_shiftLeft, Nat.add_comm] using bit

theorem divide_trailing (constant : poly.getLsbD 0 = true) {crc : BitVec w} {n : Nat}
    (zero : divide poly crc (List.replicate n false) = 0#w) : crc = 0#w := by
  induction n generalizing crc with
  | zero => exact zero
  | succ n ih => exact shiftIn_eq_zero constant (ih zero)

theorem msbFirst_zero : msbFirst 0#n = List.replicate n false := by
  rw [msbFirst, List.eq_replicate_iff]
  simp

/-- A dividend as long as the register leaves what its bits in the register would. -/
theorem divide_word (poly v : BitVec w) :
    divide poly 0#w (msbFirst v) = divide poly v (List.replicate w false) := by
  have linear := divide_xor poly v v v 0#w
  rw [BitVec.xor_self, BitVec.xor_zero, divide_self, BitVec.zero_xor, msbFirst_zero] at linear
  exact linear

/-- A word with zeros around it leaves no remainder only if it is 0. -/
theorem divide_burst (constant : poly.getLsbD 0 = true) {front back : Nat} {v : BitVec w}
    (zero : divide poly 0#w (List.replicate front false ++ (msbFirst v ++ List.replicate back false)) =
      0#w) : v = 0#w := by
  rw [divide_leading, divide_append, divide_word] at zero
  exact divide_trailing constant (divide_trailing constant zero)

/-- All ones are among `n` consecutive bits. -/
def Confined (n : Nat) (bits : List Bool) : Prop :=
  ∃ first, ∀ p, bits[p]? = some true → first ≤ p ∧ p < first + n

theorem exists_msbFirst {l : List Bool} (length : l.length = w) : ∃ v : BitVec w, msbFirst v = l := by
  subst length
  refine ⟨BitVec.ofBoolListBE l, List.ext_getElem (by simp [msbFirst]) fun i inside inside' => ?_⟩
  simp [msbFirst, inside']

theorem eq_zeros {l : List Bool} {n : Nat} (length : l.length = n)
    (zeros : ∀ p < n, l[p]? = some false) : l = List.replicate n false := by
  refine List.ext_getElem? fun p => ?_
  rw [List.getElem?_replicate]
  split
  · next inside => exact zeros p inside
  · next outside => exact List.getElem?_eq_none (by omega)

/-- Bits confined to a word are that word with zeros around it, once there is room for it. -/
theorem Confined.split {bits : List Bool} (confined : Confined w bits) :
    ∃ front back, ∃ v : BitVec w, List.replicate w false ++ bits =
      List.replicate front false ++ (msbFirst v ++ List.replicate back false) := by
  obtain ⟨first, within⟩ := confined
  generalize padded : List.replicate w false ++ bits = l
  have long : l.length = w + bits.length := by simp [← padded]
  have ones : ∀ p, l[p]? = some true → first + w ≤ p ∧ p < first + w + w := by
    intro p one
    rw [← padded, List.getElem?_append, List.length_replicate] at one
    split at one
    · simp_all
    · have := within _ one
      omega
  have zeros : ∀ p, (p < first + w ∨ first + w + w ≤ p) → p < l.length → l[p]? = some false := by
    intro p outside inside
    rw [List.getElem?_eq_getElem inside]
    cases bit : l[p] with
    | false => rfl
    | true =>
      have := ones p (by rw [List.getElem?_eq_getElem inside, bit])
      omega
  let front := min (first + w) bits.length
  obtain ⟨v, word⟩ := exists_msbFirst (w := w) (l := (l.drop front).take w) (by simp; omega)
  refine ⟨front, bits.length - front, v, ?_⟩
  have zero : l.take front = List.replicate front false :=
    eq_zeros (by simp; omega) fun p inside => by
      rw [List.getElem?_take_of_lt inside]
      exact zeros p (by omega) (by omega)
  have rest : (l.drop front).drop w = List.replicate (bits.length - front) false :=
    eq_zeros (by simp; omega) fun p inside => by
      rw [List.drop_drop, List.getElem?_drop]
      exact zeros _ (by omega) (by omega)
  rw [word, ← zero, ← rest, List.take_append_drop, List.take_append_drop]

/-- A burst no longer than the register leaves a remainder. -/
theorem divide_confined (constant : poly.getLsbD 0 = true) {bits : List Bool}
    (confined : Confined w bits) (some : true ∈ bits) : divide poly 0#w bits ≠ 0#w := by
  intro zero
  obtain ⟨front, back, v, split⟩ := confined.split
  have all := divide_leading poly w bits
  rw [split, zero] at all
  have member : true ∈ List.replicate w false ++ bits := List.mem_append_right _ some
  rw [split, divide_burst constant all, msbFirst_zero] at member
  simp at member

end Burst

section Parity

theorem count_xor (u v : BitVec n) : (msbFirst (u ^^^ v)).count true % 2 =
    ((msbFirst u).count true + (msbFirst v).count true) % 2 := by
  unfold msbFirst
  generalize List.range n = places
  induction places with
  | nil => rfl
  | cons i places ih =>
    simp only [List.map_cons, List.count_cons, BitVec.getMsbD_xor]
    cases u.getMsbD i <;> cases v.getMsbD i <;> simp <;> omega

theorem count_shift (crc : BitVec w) :
    (msbFirst crc).count true = (msbFirst (crc <<< 1)).count true + crc.msb.toNat := by
  cases w with
  | zero => simp [msbFirst, BitVec.msb]
  | succ w =>
    have places : msbFirst crc = crc.msb :: (List.range w).map fun i => crc.getMsbD (i + 1) := by
      rw [msbFirst, List.range_succ_eq_map, List.map_cons, List.map_map]
      rfl
    have shifted : msbFirst (crc <<< 1) =
        (List.range w).map (fun i => crc.getMsbD (i + 1)) ++ [false] := by
      rw [msbFirst, List.range_succ, List.map_append]
      refine congrArg₂ (· ++ ·) (List.map_congr_left fun i _ => ?_) (by simp)
      simp [BitVec.getMsbD_shiftLeft]
    rw [places, shifted, List.count_cons, List.count_append]
    cases crc.msb <;> simp

variable {poly : BitVec w}

/-- With an odd number of terms below the leading one, a register takes in the parity of the
bits. -/
theorem count_shiftIn (odd : (msbFirst poly).count true % 2 = 1) (crc : BitVec w) (bit : Bool) :
    (msbFirst (shiftIn poly crc bit)).count true % 2 =
      ((msbFirst crc).count true + bit.toNat) % 2 := by
  have shift := count_shift crc
  rw [shiftIn, count_xor]
  have empty : (msbFirst 0#w).count true = 0 := by simp [msbFirst_zero, List.count_replicate]
  cases top : crc.msb <;> cases bit <;> simp only [top] at shift ⊢ <;> simp [empty] at * <;> omega

theorem count_divide (odd : (msbFirst poly).count true % 2 = 1) (crc : BitVec w) (bits : List Bool) :
    (msbFirst (divide poly crc bits)).count true % 2 =
      ((msbFirst crc).count true + bits.count true) % 2 := by
  induction bits generalizing crc with
  | nil => rfl
  | cons bit bits ih =>
    have first := count_shiftIn odd crc bit
    have rest := ih (shiftIn poly crc bit)
    rw [divide, List.foldl_cons, List.count_cons]
    change (msbFirst (divide poly (shiftIn poly crc bit) bits)).count true % 2 = _
    cases bit <;> simp at first ⊢ <;> omega

/-- An odd number of ones leaves a remainder. -/
theorem divide_odd (odd : (msbFirst poly).count true % 2 = 1) {bits : List Bool}
    (ones : bits.count true % 2 = 1) : divide poly 0#w bits ≠ 0#w := by
  intro zero
  have parity := count_divide odd 0#w bits
  rw [zero, msbFirst_zero, List.count_replicate] at parity
  simp [ones] at parity

end Parity

end Division
