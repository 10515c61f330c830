import OpenDab.Library.Buffers
import Mathlib.Algebra.BigOperators.Group.Finset.Basic
import Mathlib.Order.Basic

/-! Sums over a window that slides along a sequence, and the search for the first largest of some
values. -/
namespace Peak

open Buffers

def windowSum [AddCommMonoid α] (f : Int → α) (n : Nat) (a : Int) : α :=
  ∑ j ∈ Finset.range n, f (a + j)

/-- One step on: a cell comes in and a cell goes out. -/
theorem windowSum_next [AddCommGroup α] (f : Int → α) (n : Nat) (a : Int) :
    windowSum f n (a + 1) = windowSum f n a + f (a + n) - f a := by
  have longer := Finset.sum_range_succ (fun j : Nat => f (a + j)) n
  rw [Finset.sum_range_succ'] at longer
  have shifted : windowSum f n (a + 1) = ∑ j ∈ Finset.range n, f (a + ((j + 1 : Nat) : Int)) := by
    refine Finset.sum_congr rfl fun j _ => congrArg f ?_
    push_cast
    omega
  rw [shifted, windowSum, ← longer]
  simp

/-- `k` is the first of `n` places with the largest value. -/
structure First [LinearOrder α] (f : Nat → α) (n k : Nat) : Prop where
  inside : k < n
  largest : ∀ i < n, f i ≤ f k
  first : ∀ i < k, f i < f k

theorem First.unique [LinearOrder α] {f : Nat → α} {n k k' : Nat} (found : First f n k)
    (found' : First f n k') : k = k' := by
  rcases Nat.lt_trichotomy k k' with less | same | more
  · exact absurd (found'.first k less) (not_lt.mpr (found.largest k' found'.inside))
  · exact same
  · exact absurd (found.first k' more) (not_lt.mpr (found'.largest k found.inside))

/-- Keep the last value that exceeded `start` and all values before it, with its place. -/
def scan [LinearOrder α] (f : Nat → α) (start : α) (n : Nat) : α × Option Nat :=
  loop n (fun i s => if s.1 < f i then (f i, some i) else s) (start, none)

theorem scan_succ [LinearOrder α] (f : Nat → α) (start : α) (n : Nat) :
    scan f start (n + 1) =
      if (scan f start n).1 < f n then (f n, some n) else scan f start n := loop_succ ..

/-- The search stops at the first largest value if anything exceeds the start. -/
theorem scan_cases [LinearOrder α] (f : Nat → α) (start : α) (n : Nat) :
    (scan f start n = (start, none) ∧ ∀ i < n, f i ≤ start) ∨
      ∃ k, scan f start n = (f k, some k) ∧ start < f k ∧ First f n k := by
  induction n with
  | zero => exact .inl ⟨rfl, fun i bound => absurd bound (Nat.not_lt_zero i)⟩
  | succ n ih =>
    rw [scan_succ]
    rcases ih with ⟨scanned, low⟩ | ⟨k, scanned, above, found⟩
    · rw [scanned]
      by_cases exceeds : start < f n
      · have lower (i : Nat) (bound : i < n) : f i < f n := (low i bound).trans_lt exceeds
        exact .inr ⟨n, if_pos exceeds, exceeds, Nat.lt_succ_self n,
          Nat.forall_lt_succ_right.mpr ⟨fun i bound => (lower i bound).le, le_refl _⟩, lower⟩
      · exact .inl ⟨if_neg exceeds, Nat.forall_lt_succ_right.mpr ⟨low, not_lt.mp exceeds⟩⟩
    · rw [scanned]
      by_cases exceeds : f k < f n
      · have lower (i : Nat) (bound : i < n) : f i < f n := (found.largest i bound).trans_lt exceeds
        exact .inr ⟨n, if_pos exceeds, above.trans exceeds, Nat.lt_succ_self n,
          Nat.forall_lt_succ_right.mpr ⟨fun i bound => (lower i bound).le, le_refl _⟩, lower⟩
      · exact .inr ⟨k, if_neg exceeds, above, found.inside.trans (Nat.lt_succ_self n),
          Nat.forall_lt_succ_right.mpr ⟨found.largest, not_lt.mp exceeds⟩, found.first⟩

/-- Some place is the first with the largest value. -/
theorem exists_first [LinearOrder α] (f : Nat → α) {n : Nat} (positive : 0 < n) :
    ∃ k, First f n k := by
  rcases scan_cases f (f 0) n with ⟨-, low⟩ | ⟨k, -, -, found⟩
  · exact ⟨0, positive, low, fun i bound => absurd bound (Nat.not_lt_zero i)⟩
  · exact ⟨k, found⟩

theorem scan_first [LinearOrder α] {f : Nat → α} {start : α} {n k : Nat} (found : First f n k)
    (above : start < f k) : scan f start n = (f k, some k) := by
  rcases scan_cases f start n with ⟨-, low⟩ | ⟨k', scanned, -, found'⟩
  · exact absurd above (not_lt.mpr (low k found.inside))
  · rw [found.unique found', scanned]

theorem scan_none [LinearOrder α] {f : Nat → α} {start : α} {n : Nat}
    (low : ∀ i < n, f i ≤ start) : scan f start n = (start, none) := by
  rcases scan_cases f start n with ⟨scanned, -⟩ | ⟨k, -, above, found⟩
  · exact scanned
  · exact absurd above (not_lt.mpr (low k found.inside))

end Peak
