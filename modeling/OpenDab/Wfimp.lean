import OpenDab.Library.Buffers
import OpenDab.Rounding
import Mathlib.Tactic.Linarith
import Mathlib.Tactic.NormNum
import Mathlib.Tactic.Ring

/-! The search for the impulse, in exact arithmetic. `wfimp` goes round a table of 2^11 cosines in
steps of 1/2^12. The step is masked to one turn, but the phase it is added to is an `int` that is
never brought back to one turn. -/
namespace OpenDab

open Buffers

def maskInt (x : Int) (mask : BitVec 32) : Int := (BitVec.ofInt 32 x &&& mask).toInt

/-- The locals of `wfimp` that its loop updates. The phase is the exact sum: whether it is an
`int` is asked below. -/
structure Impulse where
  m : Int
  k : ℚ
  j : ℚ

def sineIndex (m : Int) : Int := maskInt ((m >>> (12 : Nat)) - 512) 0x7ff

def cosineIndex (m : Int) : Int := maskInt (m >>> (12 : Nat)) 0x7ff

def Impulse.step (cosTable : Int → Int) (mdata : Nat → ℚ × ℚ) (jr : Int) (i : Nat) (st : Impulse) :
    Impulse :=
  let cosa := cosTable (sineIndex st.m)
  let cosd := cosTable (cosineIndex st.m)
  let (rePrs, imPrs) := mdata i
  let p := trunc (imPrs * cosd)
  let q := trunc (imPrs * cosa)
  let r := trunc (rePrs * cosa)
  let s := trunc (rePrs * cosd)
  { m := st.m + jr, k := st.k + (s - q : Int), j := st.j + (r + p : Int) }

def phaseStep (irtime : ℚ) : Int := maskInt (trunc (irtime * 4096)) 0x7fffff

def impulseLoop (cosTable : Int → Int) (mdata : Nat → ℚ × ℚ) (irtime : ℚ) (n : Nat) : Impulse :=
  loop n (Impulse.step cosTable mdata (phaseStep irtime)) ⟨0x800, 0, 0⟩

def wfimp (sqrt : ℚ → ℚ) (cosTable : Int → Int) (irtime : ℚ) (mdata : Nat → ℚ × ℚ) : ℚ :=
  let st := impulseLoop cosTable mdata irtime 0x800
  let a1c := 0x800 * 32767
  1 / a1c * sqrt (st.k * st.k + st.j * st.j)

/-- The locals of `wf_sync` in the loop that refines the position, and the positions tried. -/
structure Refinement where
  ir : ℚ
  max : ℚ
  stf : ℚ
  tried : List ℚ

def Refinement.attempt (imp : ℚ → ℚ) (v : ℚ) (s : Refinement) : Refinement :=
  let s := { s with tried := s.tried ++ [v] }
  if imp v > s.max then { s with max := imp v, ir := v } else s

def Refinement.round (imp : ℚ → ℚ) (s : Refinement) : Refinement :=
  let s := { s with stf := s.stf / 2 }
  let s := s.attempt imp (s.ir - s.stf)
  s.attempt imp (s.ir + s.stf)

/-- The position of an index, ahead of the start or behind it. -/
def startPosition (indx : Nat) : ℚ := if indx ≥ 0x400 then (indx : ℚ) - 0x800 else indx

/-- The refinement after `n` rounds, from the index of the largest magnitude. -/
def refinePosition (imp : ℚ → ℚ) (max : ℚ) (indx n : Nat) : Refinement :=
  loop n (fun _ => Refinement.round imp) ⟨startPosition indx, max, 0.666666666, []⟩

def Representable (m : Int) : Prop := -0x80000000 ≤ m ∧ m ≤ 0x7fffffff

section Phase

variable (cosTable : Int → Int) (mdata : Nat → ℚ × ℚ)

/-- Every phase of a call is an `int`, and every index is in the table. -/
structure PhaseFits (irtime : ℚ) : Prop where
  phase : ∀ n ≤ 0x800, Representable (impulseLoop cosTable mdata irtime n).m
  sine : ∀ n < 0x800, 0 ≤ sineIndex (impulseLoop cosTable mdata irtime n).m ∧
    sineIndex (impulseLoop cosTable mdata irtime n).m ≤ 0x7ff
  cosine : ∀ n < 0x800, 0 ≤ cosineIndex (impulseLoop cosTable mdata irtime n).m ∧
    cosineIndex (impulseLoop cosTable mdata irtime n).m ≤ 0x7ff

/-- A mask of low bits is a remainder, for negative numbers as well. -/
theorem maskInt_low {k : Nat} (small : k < 32) (x : Int) :
    maskInt x (BitVec.ofNat 32 (2 ^ k - 1)) = x % 2 ^ k := by
  have power : 2 ^ k ≤ 2 ^ 31 := Nat.pow_le_pow_right (by decide) (Nat.le_of_lt_succ small)
  have positive : 0 < 2 ^ k := Nat.two_pow_pos k
  have divides : (2 : Int) ^ k ∣ 2 ^ 32 := pow_dvd_pow 2 small.le
  have low : 0 ≤ x % 2 ^ 32 := Int.emod_nonneg x (by decide)
  have value : ((BitVec.ofInt 32 x &&& BitVec.ofNat 32 (2 ^ k - 1)).toNat : Int) = x % 2 ^ k := by
    rw [BitVec.toNat_and, BitVec.toNat_ofNat, Nat.mod_eq_of_lt (by omega),
      Nat.and_two_pow_sub_one_eq_mod, BitVec.toNat_ofInt, Int.natCast_emod, Nat.cast_pow]
    change ((x % 2 ^ 32).toNat : Int) % 2 ^ k = x % 2 ^ k
    rw [Int.toNat_of_nonneg low, Int.emod_emod_of_dvd x divides]
  have bound : x % 2 ^ k < 2 ^ k := Int.emod_lt_of_pos x (by exact_mod_cast positive)
  have fits : (BitVec.ofInt 32 x &&& BitVec.ofNat 32 (2 ^ k - 1)).toNat < 2 ^ k := by
    exact_mod_cast value ▸ bound
  rw [maskInt, BitVec.toInt_eq_toNat_of_lt (by omega), value]

theorem phaseStep_eq (irtime : ℚ) : phaseStep irtime = trunc (irtime * 4096) % 2 ^ 23 :=
  maskInt_low (k := 23) (by decide) _

/-- Both indices are in the table whatever the phase is. -/
theorem maskInt_index (x : Int) : 0 ≤ maskInt x 0x7ff ∧ maskInt x 0x7ff ≤ 0x7ff := by
  have remainder : maskInt x 0x7ff = x % 2 ^ 11 := maskInt_low (k := 11) (by decide) x
  rw [remainder]
  omega

theorem impulseLoop_m (irtime : ℚ) (n : Nat) :
    (impulseLoop cosTable mdata irtime n).m = 0x800 + n * phaseStep irtime := by
  induction n with
  | zero => simp [impulseLoop]
  | succ n ih =>
    rw [impulseLoop] at ih ⊢
    rw [loop_succ, Impulse.step, ih]
    push_cast
    ring

/-- The last phase decides: the phase is never negative and does not go back. -/
theorem phases_iff (irtime : ℚ) :
    (∀ n ≤ 0x800, Representable (impulseLoop cosTable mdata irtime n).m) ↔
      phaseStep irtime ≤ 1048574 := by
  have positive : 0 ≤ phaseStep irtime := by
    rw [phaseStep_eq]
    exact Int.emod_nonneg _ (by decide)
  simp only [impulseLoop_m, Representable]
  constructor
  · intro all
    have last := (all 0x800 le_rfl).2
    omega
  · intro small n inside
    have grows : 0 ≤ n * phaseStep irtime := by positivity
    have below : n * phaseStep irtime ≤ 0x800 * 1048574 :=
      mul_le_mul (by exact_mod_cast inside) small positive (by decide)
    omega

/-- A time before 0 becomes almost a whole turn. -/
theorem phaseStep_small_iff {irtime : ℚ} (low : -1025 ≤ irtime) (high : irtime ≤ 1025) :
    phaseStep irtime ≤ 1048574 ↔ -1 / 4096 < irtime ∧ irtime < 1048575 / 4096 := by
  have first : -4198400 ≤ trunc (irtime * 4096) := by
    rw [← trunc_intCast (-4198400)]
    apply trunc_mono
    push_cast
    linarith
  have last : trunc (irtime * 4096) ≤ 4198400 := by
    rw [← trunc_intCast 4198400]
    apply trunc_mono
    push_cast
    linarith
  have turn : trunc (irtime * 4096) % 2 ^ 23 ≤ 1048574 ↔
      0 ≤ trunc (irtime * 4096) ∧ trunc (irtime * 4096) ≤ 1048574 := by omega
  rw [phaseStep_eq, turn, zero_le_trunc_iff, trunc_le_iff (by decide)]
  push_cast
  constructor
  · rintro ⟨above, below⟩
    constructor <;> linarith
  · rintro ⟨above, below⟩
    constructor <;> linarith

/-- A call stays in the range of an `int` exactly for times from 0 to just below 256. -/
theorem wfimp_phase_iff {irtime : ℚ} (low : -1025 ≤ irtime) (high : irtime ≤ 1025) :
    PhaseFits cosTable mdata irtime ↔ -1 / 4096 < irtime ∧ irtime < 1048575 / 4096 := by
  rw [← phaseStep_small_iff low high, ← phases_iff cosTable mdata]
  constructor
  · exact PhaseFits.phase
  · intro phase
    exact ⟨phase, fun n _ => maskInt_index _, fun n _ => maskInt_index _⟩

/-- Half way through the table. -/
theorem wfimp_phase_iff_early : PhaseFits (fun i => 32767 - i) (fun i => (i, 0)) 128 :=
  (wfimp_phase_iff (fun i => 32767 - i) (fun i => (i, 0)) (by norm_num) (by norm_num)).mpr
    ⟨by norm_num, by norm_num⟩

end Phase

/-- The first position that is tried for a peak at index 0. -/
theorem impulse_phase_overflows : ¬∀ cosTable mdata irtime, -1025 ≤ irtime → irtime ≤ 1025 →
    PhaseFits cosTable mdata irtime := by
  intro all
  have fits := all (fun i => 32767 - i) (fun i => (i, 0)) (-0.333333333) (by norm_num) (by norm_num)
  have late := ((phaseStep_small_iff (by norm_num) (by norm_num)).mp
    ((phases_iff _ _ _).mp fits.phase)).1
  norm_num at late

section Positions

variable (imp : ℚ → ℚ)

theorem Refinement.attempt_cases (v : ℚ) (s : Refinement) :
    ((s.attempt imp v).ir = s.ir ∨ (s.attempt imp v).ir = v) ∧ (s.attempt imp v).stf = s.stf ∧
      (s.attempt imp v).tried = s.tried ++ [v] := by
  unfold Refinement.attempt
  dsimp only
  split
  · exact ⟨.inr rfl, rfl, rfl⟩
  · exact ⟨.inl rfl, rfl, rfl⟩

structure Refinement.Near (start : ℚ) (s : Refinement) : Prop where
  positive : 0 < s.stf
  ir : |s.ir - start| ≤ 0.666666666 - s.stf
  tried : ∀ v ∈ s.tried, |v - start| ≤ 0.666666666

theorem Refinement.Near.attempt {start v : ℚ} {s : Refinement} (near : s.Near start)
    (inside : |v - start| ≤ 0.666666666 - s.stf) : (s.attempt imp v).Near start := by
  obtain ⟨position, stf, tried⟩ := Refinement.attempt_cases imp v s
  constructor
  · rw [stf]
    exact near.positive
  · rw [stf]
    rcases position with stays | moves
    · rw [stays]
      exact near.ir
    · rw [moves]
      exact inside
  · intro u member
    rw [tried, List.mem_append, List.mem_singleton] at member
    rcases member with before | rfl
    · exact near.tried u before
    · exact inside.trans (sub_le_self _ near.positive.le)

theorem Refinement.Near.round {start : ℚ} {s : Refinement} (near : s.Near start) :
    (s.round imp).Near start := by
  obtain ⟨positive, ir, tried⟩ := near
  obtain ⟨low, high⟩ := abs_le.mp ir
  have halved : Refinement.Near start { s with stf := s.stf / 2 } :=
    ⟨half_pos positive, ir.trans (sub_le_sub_left (half_le_self positive.le) _), tried⟩
  have ahead : |s.ir - s.stf / 2 - start| ≤ 0.666666666 - s.stf / 2 := by
    apply abs_le.mpr
    constructor <;> linarith
  obtain ⟨position, stf, -⟩ := Refinement.attempt_cases imp (s.ir - s.stf / 2)
    { s with stf := s.stf / 2 }
  apply (halved.attempt imp ahead).attempt
  apply abs_le.mpr
  rw [stf]
  dsimp only at position ⊢
  rcases position with stays | moves
  · rw [stays]
    constructor <;> linarith
  · rw [moves]
    constructor <;> linarith

theorem Refinement.round_tried (s : Refinement) :
    s.tried ++ [s.ir - s.stf / 2] ⊆ (s.round imp).tried := by
  have first := (Refinement.attempt_cases imp (s.ir - s.stf / 2) { s with stf := s.stf / 2 }).2.2
  intro v member
  rw [Refinement.round, (Refinement.attempt_cases imp _ _).2.2, first]
  exact List.mem_append_left _ member

/-- However often the step is halved, the positions tried stay within one of the start. -/
theorem refinePosition_near (max : ℚ) (indx n : Nat) :
    (refinePosition imp max indx n).Near (startPosition indx) := by
  induction n with
  | zero =>
    constructor
    · norm_num [refinePosition]
    · simp [refinePosition]
    · simp [refinePosition]
  | succ n ih =>
    rw [refinePosition, loop_succ]
    exact ih.round imp

/-- The positions that `wf_sync` passes to `wfimp`. -/
theorem tried_bounds (max : ℚ) {indx : Nat} (small : indx < 0x800) (n : Nat) :
    ∀ v ∈ (refinePosition imp max indx n).tried, -1025 ≤ v ∧ v ≤ 1025 := by
  intro v member
  obtain ⟨low, high⟩ := abs_le.mp ((refinePosition_near imp max indx n).tried v member)
  have bound : (indx : ℚ) ≤ 2047 := by exact_mod_cast Nat.le_of_lt_succ small
  have begins : -1024 ≤ startPosition indx ∧ startPosition indx ≤ 1024 := by
    unfold startPosition
    split
    · next late =>
      have above : (0x400 : ℚ) ≤ indx := by exact_mod_cast late
      constructor <;> linarith
    · next early =>
      have below : (indx : ℚ) ≤ 0x400 := by exact_mod_cast (Nat.lt_of_not_ge early).le
      have positive : (0 : ℚ) ≤ indx := Nat.cast_nonneg indx
      constructor <;> linarith
  constructor <;> linarith

end Positions

/-- With a peak at index 0 or before the start, the phase of the first call overflows. -/
theorem first_position_overflows (sqrt : ℚ → ℚ) (cosTable : Int → Int) (mdata : Nat → ℚ × ℚ) (max : ℚ)
    {indx n : Nat} (start : startPosition indx ≤ 0) (small : indx < 0x800) (rounds : 0 < n) :
    ∃ v ∈ (refinePosition (wfimp sqrt cosTable · mdata) max indx n).tried,
      ¬PhaseFits cosTable mdata v := by
  generalize (wfimp sqrt cosTable · mdata) = imp
  have tried : startPosition indx - 0.666666666 / 2 ∈ (refinePosition imp max indx n).tried := by
    induction n, rounds using Nat.le_induction with
    | base => exact Refinement.round_tried imp _ (by simp)
    | succ n _ ih =>
      rw [refinePosition, loop_succ]
      exact Refinement.round_tried imp _ (List.mem_append_left _ ih)
  obtain ⟨low, high⟩ := tried_bounds imp max small n _ tried
  refine ⟨_, tried, fun fits => ?_⟩
  have late := ((phaseStep_small_iff low high).mp ((phases_iff _ _ _).mp fits.phase)).1
  norm_num at late
  linarith

end OpenDab
