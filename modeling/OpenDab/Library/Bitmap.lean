import Mathlib.Tactic.Common

/-! Arrays of machine words used as bitmaps: bit `s` counted from word `base` on lives in
word `base + s / w` at place `s % w`. -/
namespace Bitmap

variable {w : Nat}

/-- Bit `s` of the map that starts at word `base`. -/
def test (m : Array (BitVec w)) (base s : Nat) : Bool :=
  (m.getD (base + s / w) 0).getLsbD (s % w)

def mark (m : Array (BitVec w)) (address : Nat) (bit : BitVec w) : Array (BitVec w) :=
  m.modify address (· ||| bit)

@[simp] theorem size_mark (m : Array (BitVec w)) (address : Nat) (bit : BitVec w) :
    (mark m address bit).size = m.size := Array.size_modify

theorem getD_mark (m : Array (BitVec w)) {address : Nat} (inside : address < m.size)
    (other : Nat) (bit : BitVec w) : (mark m address bit).getD other 0 =
      if address = other then m.getD address 0 ||| bit else m.getD other 0 := by
  simp only [mark, Array.getD_eq_getD_getElem?, Array.getElem?_modify]
  split
  · next same =>
    rw [← same, Array.getElem?_eq_getElem inside]
    rfl
  · rfl

theorem getLsbD_one_shift {k i : Nat} (inside : i < w) :
    (1#w <<< k).getLsbD i = decide (i = k) := by
  rw [BitVec.getLsbD_shiftLeft, BitVec.getLsbD_one]
  by_cases same : i = k
  · simp [same ▸ inside, same]
    omega
  · by_cases below : i < k
    · simp [below, same]
    · have apart : i - k ≠ 0 := by omega
      simp [apart, same]

theorem and_one_shift (word : BitVec w) {k : Nat} (inside : k < w) :
    word &&& 1#w <<< k ≠ 0 ↔ word.getLsbD k = true := by
  constructor
  · intro nonzero
    by_contra unset
    apply nonzero
    apply BitVec.eq_of_getLsbD_eq
    intro i bound
    rw [BitVec.getLsbD_and, getLsbD_one_shift bound]
    by_cases same : i = k
    · simpa [same] using unset
    · simp [same]
  · intro set zero
    have bit := congrArg (fun v => v.getLsbD k) zero
    simp [getLsbD_one_shift inside, set] at bit

theorem test_mark (positive : 0 < w) (m : Array (BitVec w)) {base s : Nat}
    (inside : base + s / w < m.size) (other : Nat) :
    test (mark m (base + s / w) (1#w <<< (s % w))) base other =
      (test m base other || decide (other = s)) := by
  have bit := Nat.mod_lt other positive
  rw [test, getD_mark m inside]
  by_cases word : s / w = other / w
  · rw [if_pos (by rw [word]), BitVec.getLsbD_or, getLsbD_one_shift bit, test, word]
    have place : other % w = s % w ↔ other = s := by
      constructor
      · intro same
        rw [← Nat.div_add_mod other w, ← Nat.div_add_mod s w, word, same]
      · rintro rfl
        rfl
    simp [place]
  · have apart : other ≠ s := fun same => word (same ▸ rfl)
    rw [if_neg (by omega), test]
    simp [apart]

theorem test_mark_below (m : Array (BitVec w)) {base address : Nat} (bit : BitVec w) {s : Nat}
    (below : base + s / w < address) : test (mark m address bit) base s = test m base s := by
  have apart : ¬address = base + s / w := by omega
  simp only [test, mark, Array.getD_eq_getD_getElem?, Array.getElem?_modify, if_neg apart]

end Bitmap
