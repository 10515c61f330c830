import Mathlib.Algebra.BigOperators.Group.Finset.Basic
import Mathlib.Tactic.Common

/-! The Gregorian calendar and the week, day by day and by whole months and years. -/
namespace Calendar

structure Date where
  year : Nat
  month : Nat
  day : Nat
  deriving DecidableEq, Repr

def Leap (year : Nat) : Prop := year % 4 = 0 ∧ (year % 100 ≠ 0 ∨ year % 400 = 0)

instance (year : Nat) : Decidable (Leap year) := inferInstanceAs (Decidable (_ ∧ _))

def monthLength (year month : Nat) : Nat :=
  if month = 2 then if Leap year then 29 else 28
  else if month = 4 ∨ month = 6 ∨ month = 9 ∨ month = 11 then 30
  else 31

def yearLength (year : Nat) : Nat := if Leap year then 366 else 365

def Date.next (d : Date) : Date :=
  if d.day < monthLength d.year d.month then ⟨d.year, d.month, d.day + 1⟩
  else if d.month < 12 then ⟨d.year, d.month + 1, 1⟩
  else ⟨d.year + 1, 1, 1⟩

def Date.later (d : Date) : Nat → Date
  | 0 => d
  | n + 1 => (d.later n).next

/-- So many days after a day of the week; 1 is Monday. -/
def weekdayLater (w : Nat) : Nat → Nat
  | 0 => w
  | n + 1 => if weekdayLater w n = 7 then 1 else weekdayLater w n + 1

structure Date.Valid (d : Date) : Prop where
  month : 1 ≤ d.month ∧ d.month ≤ 12
  day : 1 ≤ d.day ∧ d.day ≤ monthLength d.year d.month

theorem monthLength_bounds (year month : Nat) :
    28 ≤ monthLength year month ∧ monthLength year month ≤ 31 := by
  unfold monthLength
  split_ifs <;> decide

theorem february_leap {year : Nat} (leap : Leap year) : monthLength year 2 = 29 := by
  rw [monthLength, if_pos rfl, if_pos leap]

theorem february_common {year : Nat} (common : ¬Leap year) : monthLength year 2 = 28 := by
  rw [monthLength, if_pos rfl, if_neg common]

theorem Date.Valid.next {d : Date} (valid : d.Valid) : d.next.Valid := by
  obtain ⟨month, day⟩ := valid
  unfold Date.next
  split
  · exact ⟨month, by dsimp only; omega⟩
  · split
    · exact ⟨by dsimp only; omega, le_refl 1, (by decide : 1 ≤ 28).trans (monthLength_bounds _ _).1⟩
    · exact ⟨⟨le_refl 1, Nat.le_add_left 1 11⟩, le_refl 1,
        (by decide : 1 ≤ 28).trans (monthLength_bounds _ _).1⟩

theorem Date.Valid.later {d : Date} (valid : d.Valid) (n : Nat) : (d.later n).Valid := by
  induction n with
  | zero => exact valid
  | succ n ih => exact ih.next

theorem later_add (d : Date) (n k : Nat) : d.later (n + k) = (d.later n).later k := by
  induction k with
  | zero => rfl
  | succ k ih => rw [← Nat.add_assoc, Date.later, ih, Date.later]

theorem next_day {year month day : Nat} (inside : day < monthLength year month) :
    (⟨year, month, day⟩ : Date).next = ⟨year, month, day + 1⟩ := if_pos inside

theorem next_month {year month day : Nat} (last : day = monthLength year month)
    (before : month < 12) : (⟨year, month, day⟩ : Date).next = ⟨year, month + 1, 1⟩ := by
  rw [Date.next, if_neg last.not_lt, if_pos before]

theorem next_year {year day : Nat} (last : day = monthLength year 12) :
    (⟨year, 12, day⟩ : Date).next = ⟨year + 1, 1, 1⟩ := if_neg last.not_lt

theorem later_inside {year month n : Nat} (inside : n < monthLength year month) :
    (⟨year, month, 1⟩ : Date).later n = ⟨year, month, n + 1⟩ := by
  induction n with
  | zero => rfl
  | succ n ih => rw [Date.later, ih (by omega), next_day inside]

/-- A whole month later. -/
theorem later_month {year month : Nat} (before : month < 12) :
    (⟨year, month, 1⟩ : Date).later (monthLength year month) = ⟨year, month + 1, 1⟩ := by
  obtain ⟨n, length⟩ : ∃ n, monthLength year month = n + 1 :=
    ⟨monthLength year month - 1, by have := (monthLength_bounds year month).1; omega⟩
  rw [length, Date.later, later_inside (by omega), next_month length.symm before]

/-- The first of month `k + 1` of a year. -/
theorem later_months (year : Nat) {k : Nat} (small : k < 12) :
    (⟨year, 1, 1⟩ : Date).later (∑ i ∈ Finset.range k, monthLength year (i + 1)) =
      ⟨year, k + 1, 1⟩ := by
  induction k with
  | zero => rfl
  | succ k ih => rw [Finset.sum_range_succ, later_add, ih (by omega), later_month small]

/-- A whole year later. -/
theorem later_year (year : Nat) :
    (⟨year, 1, 1⟩ : Date).later (yearLength year) = ⟨year + 1, 1, 1⟩ := by
  have december : monthLength year 12 = 31 := rfl
  have length : yearLength year =
      ∑ i ∈ Finset.range 11, monthLength year (i + 1) + 30 + 1 := by
    by_cases leap : Leap year <;> simp [Finset.sum_range_succ, yearLength, monthLength, leap]
  rw [length, Date.later, later_add, later_months year (by decide),
    later_inside (december.ge.trans' (by decide)), next_year december.symm]

theorem later_years (year k : Nat) :
    (⟨year, 1, 1⟩ : Date).later (∑ i ∈ Finset.range k, yearLength (year + i)) =
      ⟨year + k, 1, 1⟩ := by
  induction k with
  | zero => rfl
  | succ k ih => rw [Finset.sum_range_succ, later_add, ih, later_year, Nat.add_assoc]

theorem weekdayLater_eq {w : Nat} (day : 1 ≤ w ∧ w ≤ 7) (n : Nat) :
    weekdayLater w n = (w - 1 + n) % 7 + 1 := by
  induction n with
  | zero =>
    rw [weekdayLater]
    omega
  | succ n ih =>
    rw [weekdayLater, ih]
    split <;> omega

end Calendar
