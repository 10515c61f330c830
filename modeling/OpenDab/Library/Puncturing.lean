import OpenDab.Library.Buffers
import Mathlib.Data.List.GetD
import Mathlib.Data.List.Induction
import Mathlib.Data.Nat.Count
import Mathlib.Tactic.Common

/-! Puncturing keeps the cells of a sequence whose positions satisfy a predicate. The kept
cell of a position is found at its rank among the kept positions. -/
namespace Puncturing

open Buffers

def kept (keep : Nat → Bool) (c : Nat → α) (n : Nat) : List α :=
  ((List.range n).filter keep).map c

/-- The number of positions kept below `n`. -/
def rank (keep : Nat → Bool) : Nat → Nat
  | 0 => 0
  | n + 1 => rank keep n + if keep n then 1 else 0

theorem rank_mono (keep : Nat → Bool) {p n : Nat} (before : p ≤ n) : rank keep p ≤ rank keep n := by
  induction n with
  | zero => exact Nat.le_of_eq (congrArg _ (Nat.le_zero.mp before))
  | succ n ih =>
    by_cases last : p = n + 1
    · exact Nat.le_of_eq (congrArg _ last)
    · exact Nat.le_trans (ih (by omega)) (Nat.le_add_right _ _)

/-- A kept position has its rank to itself. -/
theorem rank_lt {keep : Nat → Bool} {p n : Nat} (before : p < n) (chosen : keep p = true) :
    rank keep p < rank keep n := by
  have next := rank_mono keep (show p + 1 ≤ n from before)
  rw [rank, if_pos chosen] at next
  exact next

/-- Every rank below the number of kept positions belongs to one of them. -/
theorem exists_rank {keep : Nat → Bool} {i n : Nat} (small : i < rank keep n) :
    ∃ p < n, keep p = true ∧ rank keep p = i := by
  induction n with
  | zero => exact absurd small (Nat.not_lt_zero i)
  | succ n ih =>
    by_cases earlier : i < rank keep n
    · obtain ⟨p, before, chosen, place⟩ := ih earlier
      exact ⟨p, by omega, chosen, place⟩
    · rw [rank] at small
      cases chosen : keep n with
      | true =>
        rw [if_pos chosen] at small
        exact ⟨n, by omega, chosen, by omega⟩
      | false =>
        rw [if_neg (by simp [chosen])] at small
        omega

theorem kept_succ (keep : Nat → Bool) (c : Nat → α) (n : Nat) :
    kept keep c (n + 1) = kept keep c n ++ if keep n then [c n] else [] := by
  cases chosen : keep n <;> simp [kept, List.range_succ, List.filter_append, chosen]

theorem length_kept (keep : Nat → Bool) (c : Nat → α) (n : Nat) :
    (kept keep c n).length = rank keep n := by
  induction n with
  | zero => rfl
  | succ n ih =>
    rw [kept_succ, List.length_append, ih, rank]
    cases keep n <;> rfl

/-- A buffer of kept cells gives each of them back at its rank. -/
theorem begins_kept {keep : Nat → Bool} {c m : Nat → α} {n : Nat}
    (begins : Begins m (kept keep c n)) {p : Nat} (inside : p < n) (chosen : keep p = true) :
    m (rank keep p) = c p := by
  induction n with
  | zero => omega
  | succ n ih =>
    rw [kept_succ, begins_append, length_kept] at begins
    by_cases last : p = n
    · subst last
      rw [if_pos chosen, begins_cons] at begins
      exact begins.2.1
    · exact ih begins.1 (by omega)

/-- A predicate given by a list keeps as many positions as the list has. -/
theorem rank_list {keep : Nat → Bool} {l : List Bool} (begins : Begins keep l) :
    rank keep l.length = l.count true := by
  induction l using List.reverseRecOn with
  | nil => rfl
  | append_singleton l b ih =>
    rw [begins_append, begins_cons] at begins
    have last : keep l.length = b := by simpa using begins.2.1
    rw [List.length_append, List.count_append, List.length_singleton, rank, ih begins.1, last]
    cases b <;> rfl

/-- Counting over the kept cells is counting over the kept positions. -/
theorem count_kept (keep : Nat → Bool) (c : Nat → α) (d : α) (differs : α → Nat → Prop)
    [∀ a i, Decidable (differs a i)] (n : Nat) :
    Nat.count (fun i => differs ((kept keep c n).getD i d) i) (kept keep c n).length =
      Nat.count (fun p => keep p = true ∧ differs (c p) (rank keep p)) n := by
  induction n with
  | zero => rfl
  | succ n ih =>
    have front : Nat.count (fun i => differs ((kept keep c (n + 1)).getD i d) i) (rank keep n) =
        Nat.count (fun i => differs ((kept keep c n).getD i d) i) (rank keep n) := by
      simp only [Nat.count_eq_card_filter_range]
      refine congrArg _ (Finset.filter_congr fun i inside => ?_)
      rw [kept_succ, List.getD_append]
      rw [length_kept]
      exact Finset.mem_range.mp inside
    rw [length_kept] at ih
    rw [length_kept, rank, Nat.count_succ, ← ih]
    cases chosen : keep n with
    | false =>
      simp only [Bool.false_eq_true, if_false, false_and, Nat.add_zero]
      exact front
    | true =>
      have last : (kept keep c (n + 1)).getD (rank keep n) d = c n := by
        rw [kept_succ, chosen, List.getD_append_right _ _ _ _ (Nat.le_of_eq (length_kept keep c n)),
          length_kept, Nat.sub_self]
        rfl
      rw [if_pos rfl, Nat.count_succ, front, last]
      simp

end Puncturing
