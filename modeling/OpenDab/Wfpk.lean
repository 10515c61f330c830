import OpenDab.Library.Peak
import Mathlib.Algebra.BigOperators.Group.Finset.Piecewise
import Mathlib.Algebra.Order.Ring.Rat
import Mathlib.Tactic.Linarith
import Mathlib.Tactic.Ring

/-! The search for the timing peak, in exact arithmetic. The sum over a window is kept from one
position to the next; it starts at the half width and not at the sum of a window, and the search
starts at 0. -/
namespace OpenDab

open Buffers Peak

structure PeakSearch where
  b : ℚ
  bmax : ℚ
  res : Int
  l : Nat
  a : Nat

def PeakSearch.step (magdata : Nat → ℚ) (s : PeakSearch) : PeakSearch :=
  let c := magdata ((0x800 - 0x1f8 / 2 + s.a) % 0x800)
  let d := magdata (s.l % 0x800)
  let s := { s with b := s.b + d - c }
  let s := if s.b > s.bmax then { s with bmax := s.b, res := (s.a % 0x800 : Nat) } else s
  { s with l := s.l + 1, a := s.a + 1 }

def wfpk (magdata : Nat → ℚ) (indx : Nat) : Int :=
  let a := indx + 0x800 - 0x1f8
  let b := 0x1f8 / 2
  let l := a + b - 1
  let s := loop (2 * 0x1f8) (fun _ => PeakSearch.step magdata) ⟨(b : Nat), 0, 0, l, a⟩
  if s.res > 0x400 then s.res - 0x800 else s.res

section Search

variable (magdata : Nat → ℚ)

def onCircle (p : Int) : ℚ := magdata (p % 2048).toNat

/-- The sum of the 503 magnitudes around a position. -/
def circularSum (a : Int) : ℚ := windowSum (onCircle magdata) 503 (a - 251)

/-- The first position from `indx - 504` to `indx + 503` with the largest sum. -/
structure BestWindow (indx : Nat) (a : Int) : Prop where
  inside : (indx : Int) - 504 ≤ a ∧ a ≤ indx + 503
  largest : ∀ a', (indx : Int) - 504 ≤ a' → a' ≤ indx + 503 →
    circularSum magdata a' ≤ circularSum magdata a
  first : ∀ a', (indx : Int) - 504 ≤ a' → a' < a → circularSum magdata a' < circularSum magdata a

/-- A position as a distance from 0, ahead or back. -/
def fromZero (a : Int) : Int := if a % 2048 > 1024 then a % 2048 - 2048 else a % 2048

def relativeSum (indx i : Nat) : ℚ :=
  252 + circularSum magdata (indx - 504 + i) - circularSum magdata (indx - 505)

theorem circularSum_next (a : Int) : circularSum magdata (a + 1) =
    circularSum magdata a + onCircle magdata (a + 252) - onCircle magdata (a - 251) := by
  have next := windowSum_next (onCircle magdata) 503 (a - 251)
  rw [show a - 251 + 1 = a + 1 - 251 by omega, show a - 251 + (503 : Nat) = a + 252 by omega] at next
  exact next

structure PeakSearch.Tracks (indx n : Nat) (s : PeakSearch) : Prop where
  a : s.a = indx + 1544 + n
  l : s.l = indx + 1795 + n
  b : s.b = 252 + circularSum magdata (indx - 505 + n) - circularSum magdata (indx - 505)
  best : s.bmax = (scan (relativeSum magdata indx) 0 n).1
  res : s.res = ((scan (relativeSum magdata indx) 0 n).2.map
    fun k : Nat => ((indx : Int) - 504 + k) % 2048).getD 0

theorem PeakSearch.Tracks.step {indx n : Nat} {s : PeakSearch} (tracks : s.Tracks magdata indx n) :
    (s.step magdata).Tracks magdata indx (n + 1) := by
  obtain ⟨a, l, b, best, res⟩ := tracks
  have oldest : magdata ((0x800 - 0x1f8 / 2 + s.a) % 0x800) =
      onCircle magdata ((indx : Int) - 505 + n - 251) := by
    rw [onCircle, a]
    exact congrArg magdata (by omega)
  have newest : magdata (s.l % 0x800) = onCircle magdata ((indx : Int) - 505 + n + 252) := by
    rw [onCircle, l]
    exact congrArg magdata (by omega)
  have slid : s.b + magdata (s.l % 0x800) - magdata ((0x800 - 0x1f8 / 2 + s.a) % 0x800) =
      relativeSum magdata indx n := by
    rw [oldest, newest, b, relativeSum, show (indx : Int) - 504 + n = indx - 505 + n + 1 by omega,
      circularSum_next]
    ring
  have place : ((s.a % 0x800 : Nat) : Int) = ((indx : Int) - 504 + n) % 2048 := by
    rw [a]
    omega
  have sum : relativeSum magdata indx n =
      252 + circularSum magdata (indx - 505 + (n + 1 : Nat)) - circularSum magdata (indx - 505) := by
    rw [relativeSum, show (indx : Int) - 504 + n = indx - 505 + (n + 1 : Nat) by push_cast; omega]
  unfold PeakSearch.step
  simp only [slid, place]
  split
  · next exceeds =>
    rw [best] at exceeds
    refine ⟨by simp only [a]; omega, by simp only [l]; omega, sum, ?_, ?_⟩
    · rw [scan_succ, if_pos exceeds]
    · rw [scan_succ, if_pos exceeds]
      rfl
  · next exceeds =>
    rw [best] at exceeds
    refine ⟨by simp only [a]; omega, by simp only [l]; omega, sum, ?_, ?_⟩
    · rw [scan_succ, if_neg exceeds]
      exact best
    · rw [scan_succ, if_neg exceeds]
      exact res

theorem PeakSearch.tracks_run (indx n : Nat) :
    (loop n (fun _ => PeakSearch.step magdata) ⟨(0x1f8 / 2 : Nat), 0, 0,
      indx + 0x800 - 0x1f8 + 0x1f8 / 2 - 1, indx + 0x800 - 0x1f8⟩).Tracks magdata indx n := by
  refine loop_invariant (fun n s => PeakSearch.Tracks magdata indx n s) ?_
    fun n _ s tracks => tracks.step
  refine ⟨by dsimp only; omega, by dsimp only; omega, ?_, rfl, rfl⟩
  norm_num

/-- What the search returns: the place that was found, or 0. -/
theorem wfpk_eq (indx : Nat) : wfpk magdata indx =
    ((scan (relativeSum magdata indx) 0 1008).2.map
      fun k : Nat => fromZero ((indx : Int) - 504 + k)).getD 0 := by
  have res := (PeakSearch.tracks_run magdata indx (2 * 0x1f8)).res
  unfold wfpk
  dsimp only at res ⊢
  rw [res]
  cases (scan (relativeSum magdata indx) 0 1008).2 with
  | none => rfl
  | some k => rfl

theorem relativeSum_le {indx i k : Nat} :
    relativeSum magdata indx i ≤ relativeSum magdata indx k ↔
      circularSum magdata (indx - 504 + i) ≤ circularSum magdata (indx - 504 + k) := by
  unfold relativeSum
  constructor <;> intro le <;> linarith

theorem relativeSum_lt {indx i k : Nat} :
    relativeSum magdata indx i < relativeSum magdata indx k ↔
      circularSum magdata (indx - 504 + i) < circularSum magdata (indx - 504 + k) := by
  unfold relativeSum
  constructor <;> intro lt <;> linarith

/-- The positions that the loop goes through. -/
theorem searched (indx : Nat) {a : Int} (inside : (indx : Int) - 504 ≤ a ∧ a ≤ indx + 503) :
    ∃ i, i < 1008 ∧ a = (indx : Int) - 504 + (i : Nat) :=
  ⟨(a - indx + 504).toNat, by omega, by omega⟩

theorem bestWindow_iff (indx k : Nat) :
    BestWindow magdata indx ((indx : Int) - 504 + k) ↔ First (relativeSum magdata indx) 1008 k := by
  constructor
  · rintro ⟨inside, largest, first⟩
    refine ⟨by omega, fun i bound => ?_, fun i bound => ?_⟩
    · exact (relativeSum_le magdata).mpr (largest _ (by omega) (by omega))
    · exact (relativeSum_lt magdata).mpr (first _ (by omega) (by omega))
  · rintro ⟨inside, largest, first⟩
    refine ⟨by omega, fun a low high => ?_, fun a low before => ?_⟩
    · obtain ⟨i, bound, rfl⟩ := searched indx ⟨low, high⟩
      exact (relativeSum_le magdata).mp (largest i bound)
    · obtain ⟨i, bound, rfl⟩ := searched indx ⟨low, by omega⟩
      exact (relativeSum_lt magdata).mp (first i (by omega))

theorem exists_bestWindow (indx : Nat) : ∃ k : Nat, First (relativeSum magdata indx) 1008 k ∧
    ∀ a, BestWindow magdata indx a ↔ a = (indx : Int) - 504 + k := by
  obtain ⟨k, found⟩ := exists_first (relativeSum magdata indx) (show 0 < 1008 by decide)
  refine ⟨k, found, fun a => ⟨fun best => ?_, ?_⟩⟩
  · obtain ⟨i, -, rfl⟩ := searched indx best.inside
    rw [((bestWindow_iff magdata indx i).mp best).unique found]
  · rintro rfl
    exact (bestWindow_iff magdata indx k).mpr found

/-- Where no window outweighs the one before the first by more than the half width, nothing is
found. -/
theorem wfpk_none {indx : Nat} (low : ∀ a, (indx : Int) - 504 ≤ a → a ≤ indx + 503 →
    circularSum magdata a + 252 ≤ circularSum magdata (indx - 505)) : wfpk magdata indx = 0 := by
  rw [wfpk_eq, scan_none fun i bound => ?_]
  · rfl
  · have below := low (indx - 504 + i) (by omega) (by omega)
    unfold relativeSum
    linarith

/-- The search finds the best window exactly when some window outweighs the one before the first,
less the half width, or when the best window is the one around position 0. -/
theorem wfpk_best_iff (indx : Nat) :
    (∀ a, BestWindow magdata indx a → wfpk magdata indx = fromZero a) ↔
      (∃ a, (indx : Int) - 504 ≤ a ∧ a ≤ indx + 503 ∧
        circularSum magdata (indx - 505) < circularSum magdata a + 252) ∨
      ∃ a, BestWindow magdata indx a ∧ a % 2048 = 0 := by
  obtain ⟨k, found, only⟩ := exists_bestWindow magdata indx
  simp only [only, forall_eq, exists_eq_left]
  by_cases exceeds : ∃ a, (indx : Int) - 504 ≤ a ∧ a ≤ indx + 503 ∧
      circularSum magdata (indx - 505) < circularSum magdata a + 252
  · refine iff_of_true ?_ (.inl exceeds)
    obtain ⟨a, low, high, more⟩ := exceeds
    obtain ⟨i, bound, rfl⟩ := searched indx ⟨low, high⟩
    have above : 0 < relativeSum magdata indx k := by
      refine lt_of_lt_of_le ?_ (found.largest i bound)
      unfold relativeSum
      linarith
    rw [wfpk_eq, scan_first found above]
    rfl
  · have none : wfpk magdata indx = 0 := by
      refine wfpk_none magdata fun a low high => ?_
      push Not at exceeds
      exact exceeds a low high
    rw [none]
    unfold fromZero
    constructor
    · intro zero
      right
      split at zero <;> omega
    · rintro (more | zero)
      · exact absurd more exceeds
      · rw [zero]
        rfl

end Search

def spike (q p : Nat) : ℚ := if p = q then 252 else 0

theorem circularSum_add (m m' : Nat → ℚ) (a : Int) :
    circularSum (fun p => m p + m' p) a = circularSum m a + circularSum m' a := by
  unfold circularSum windowSum onCircle
  exact Finset.sum_add_distrib

theorem circularSum_spike {q : Nat} (small : q < 2048) (a : Int) :
    circularSum (spike q) a = if (q - a + 251) % 2048 < 503 then 252 else 0 := by
  have cell (j : Nat) (bound : j ∈ Finset.range 503) : onCircle (spike q) (a - 251 + j) =
      if j = ((q - a + 251) % 2048).toNat then 252 else 0 := by
    have low := Finset.mem_range.mp bound
    have here : ((a - 251 + j) % 2048).toNat = q ↔ j = ((q - a + 251) % 2048).toNat := by omega
    rw [onCircle, spike, if_congr here rfl rfl]
  rw [circularSum, windowSum, Finset.sum_congr rfl cell, Finset.sum_ite_eq']
  refine if_congr ?_ rfl rfl
  rw [Finset.mem_range]
  omega

/-- The largest magnitude and two more as large, both in the window before the first. -/
def heavyStart (p : Nat) : ℚ := spike 0 p + spike 1292 p + spike 1293 p

theorem heavyStart_sum (a : Int) : circularSum heavyStart a =
    (if ((0 : Nat) - a + 251) % 2048 < 503 then (252 : ℚ) else 0) +
      (if ((1292 : Nat) - a + 251) % 2048 < 503 then 252 else 0) +
      (if ((1293 : Nat) - a + 251) % 2048 < 503 then 252 else 0) := by
  have sum : heavyStart = fun p => (spike 0 p + spike 1292 p) + spike 1293 p := rfl
  rw [sum, circularSum_add, circularSum_add, circularSum_spike (by decide),
    circularSum_spike (by decide), circularSum_spike (by decide)]

/-- No window is as heavy as the one before the first: the search returns 0, not the place of the
best window. -/
theorem heavy_start_hides_peak : (∀ p < 2048, 0 ≤ heavyStart p ∧ heavyStart p ≤ heavyStart 0) ∧
    ¬∀ a, BestWindow heavyStart 0 a → wfpk heavyStart 0 = fromZero a := by
  constructor
  · intro p _
    unfold heavyStart spike
    split_ifs <;> first | omega | norm_num
  · intro right
    have light (a : Int) (low : -504 ≤ a) (high : a ≤ 503) : circularSum heavyStart a ≤ 252 := by
      rw [heavyStart_sum]
      split_ifs <;> first | omega | norm_num
    have first : circularSum heavyStart (-504) = 252 := by
      rw [heavyStart_sum]
      norm_num
    have before : circularSum heavyStart (-505) = 504 := by
      rw [heavyStart_sum]
      norm_num
    have best : BestWindow heavyStart 0 (-504) := by
      refine ⟨by decide, fun a low high => ?_, fun a low less => ?_⟩
      · rw [first]
        exact light a (by omega) (by omega)
      · omega
    have none : wfpk heavyStart 0 = 0 := by
      refine wfpk_none heavyStart fun a low high => ?_
      have below := light a (by omega) (by omega)
      rw [show ((0 : Nat) : Int) - 505 = -505 by decide, before]
      linarith
    have place := right (-504) best
    rw [none] at place
    exact absurd place (by decide)

end OpenDab
