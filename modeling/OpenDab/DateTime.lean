import OpenDab.FigProc
import OpenDab.Library.Calendar
import OpenDab.Rounding
import Mathlib.Tactic.FieldSimp
import Mathlib.Tactic.NormNum
import Mathlib.Tactic.Ring

/-! Date and time from FIG 0/10. The conversion of EN 50067 annex G counts a year from March, with
30.6001 days to the month. The code divides by `30,6001`, and the comma operator leaves a
division by 30: the month number is right through most of a month and one too high at its end. -/
namespace OpenDab

open Calendar

structure Datim where
  utcMin : Nat
  utcHour : Nat
  utcFlg : Nat
  confInd : Nat
  lsi : Nat
  mjd : Nat
  rfu : Nat

structure Utcl where
  utcMsec : Nat
  utcSec : Nat

structure DateAndTime where
  dt : Datim
  y : Int
  m : Int
  d : Int
  wd : Int
  ut : Option Utcl

def fig010 (fig : Nat → UInt8) : DateAndTime :=
  let f := (ipack fig).toNat
  let dt : Datim := ⟨bitField f 0 6, bitField f 6 5, bitField f 11 1, bitField f 12 1, bitField f 13 1,
    bitField f 14 17, bitField f 31 1⟩
  let y := trunc (((dt.mjd : ℚ) - 15078.2) / 365.25)
  -- The other half of `30,6001` is evaluated and thrown away.
  let m := trunc (((dt.mjd : ℚ) - 14956.1 - trunc (y * 365.25)) / 30)
  let d := (dt.mjd : Int) - 14956 - trunc (y * 365.25) - trunc (m * 30.6001)
  let g := (spack fun i => fig (i + 2)).toNat
  { dt
    y := (if m = 14 ∨ m = 15 then y + 1 else y) + 1900
    m := if m = 14 ∨ m = 15 then m - 13 else m - 1
    d
    wd := ((dt.mjd : Int) + 2).tmod 7 + 1
    ut := if dt.utcFlg ≠ 0 then some ⟨bitField g 0 10, bitField g 10 6⟩ else none }

/-- The day with a Modified Julian Date: day 0 is 17 November 1858, a Wednesday. -/
def gregorian (mjd : Nat) : Date := (⟨1858, 11, 17⟩ : Date).later mjd

def weekday (mjd : Nat) : Nat := weekdayLater 3 mjd

/-- The years since 1900, each from 1 March on. -/
def yearNumber (mjd : Nat) : Nat := (100 * mjd - 1507820) / 36525

/-- The number of the day in its year from March on; 1 March is 123. -/
def dayNumber (mjd : Nat) : Nat := mjd - 14956 - 1461 * yearNumber mjd / 4

def monthNumber (n : Nat) : Nat := (10000 * n - 1000) / 306001

def monthDay (n : Nat) : Nat := n - 306001 * monthNumber n / 10000

def shortMonthNumber (n : Nat) : Nat := (10 * n - 1) / 300

def marchDate (y n : Nat) : Date :=
  if monthNumber n < 14 then ⟨1900 + y, monthNumber n - 1, monthDay n⟩
  else ⟨1901 + y, monthNumber n - 13, monthDay n⟩

/-- A month of a common year by its number, 4 for March up to 15 for February. -/
def marchLength (k : Nat) : Nat := if k < 14 then monthLength 1 (k - 1) else monthLength 1 (k - 13)

theorem monthNumber_bounds : ∀ n < 489, 123 ≤ n → 4 ≤ monthNumber n ∧ monthNumber n ≤ 15 := by
  decide +kernel

theorem month_step : ∀ n < 487, 123 ≤ n →
    monthNumber (n + 1) = monthNumber n ∧ monthDay (n + 1) = monthDay n + 1 ∧
      monthDay n < marchLength (monthNumber n) ∨
    monthNumber n < 15 ∧ monthNumber (n + 1) = monthNumber n + 1 ∧ monthDay (n + 1) = 1 ∧
      monthDay n = marchLength (monthNumber n) := by
  decide +kernel

theorem monthLength_common (year month : Nat) : monthLength 1 month ≤ monthLength year month ∧
    (month ≠ 2 → monthLength year month = monthLength 1 month) := by
  have common : ¬Leap 1 := by decide
  by_cases february : month = 2
  · refine ⟨?_, fun other => absurd february other⟩
    rw [monthLength, if_pos february, if_neg common, monthLength, if_pos february]
    split <;> decide
  · have same : monthLength year month = monthLength 1 month := by simp [monthLength, february]
    exact ⟨same.ge, fun _ => same⟩

/-- Inside a year the day number counts the days. -/
theorem marchDate_next (y : Nat) {n : Nat} (first : 123 ≤ n) (inside : n < 487) :
    (marchDate y n).next = marchDate y (n + 1) := by
  obtain ⟨low, high⟩ := monthNumber_bounds n (by omega) first
  rcases month_step n inside first with ⟨month, day, room⟩ | ⟨before, month, day, full⟩
  · by_cases march : monthNumber n < 14
    · rw [marchLength, if_pos march] at room
      rw [marchDate, if_pos march, marchDate, month, if_pos march, day,
        next_day (room.trans_le (monthLength_common _ _).1)]
    · rw [marchLength, if_neg march] at room
      rw [marchDate, if_neg march, marchDate, month, if_neg march, day,
        next_day (room.trans_le (monthLength_common _ _).1)]
  · have shorter (year : Nat) {k : Nat} (other : k ≠ 2) (same : monthDay n = monthLength 1 k) :
        monthDay n = monthLength year k := same.trans ((monthLength_common year k).2 other).symm
    rcases lt_trichotomy (monthNumber n) 13 with autumn | december | january
    · rw [marchLength, if_pos (by omega)] at full
      rw [marchDate, if_pos (by omega), marchDate, month, if_pos (by omega), day,
        next_month (shorter _ (by omega) full) (by omega), Nat.sub_add_cancel (by omega),
        Nat.add_sub_cancel]
    · rw [marchLength, december, if_pos (by decide)] at full
      rw [marchDate, december, if_pos (by decide), marchDate, month, december,
        if_neg (by decide), day, next_year (shorter _ (by decide) full), Nat.add_right_comm]
    · have january : monthNumber n = 14 := by omega
      rw [marchLength, january, if_neg (by decide)] at full
      rw [marchDate, january, if_neg (by decide), marchDate, month, january, if_neg (by decide), day,
        next_month (shorter _ (by decide) full) (by decide)]

/-- The end of February. -/
theorem marchDate_last (y : Nat) : marchDate y 487 = ⟨1901 + y, 2, 28⟩ ∧
    marchDate y 488 = ⟨1901 + y, 2, 29⟩ ∧ marchDate (y + 1) 123 = ⟨1901 + y, 3, 1⟩ := by
  have february : monthNumber 487 = 15 ∧ monthDay 487 = 28 := by decide
  have leap : monthNumber 488 = 15 ∧ monthDay 488 = 29 := by decide
  have march : monthNumber 123 = 4 ∧ monthDay 123 = 1 := by decide
  refine ⟨?_, ?_, ?_⟩
  · rw [marchDate, february.1, if_neg (by decide), february.2]
  · rw [marchDate, leap.1, if_neg (by decide), leap.2]
  · rw [marchDate, march.1, if_pos (by decide), march.2, Nat.add_comm y 1, ← Nat.add_assoc]

theorem leap_iff {y : Nat} (small : y < 199) : Leap (1901 + y) ↔ y % 4 = 3 := by
  unfold Leap
  omega

theorem march_1900 : gregorian 15079 = ⟨1900, 3, 1⟩ := by
  have november : (⟨1858, 1, 1⟩ : Date).later 304 = ⟨1858, 11, 1⟩ := by
    rw [show 304 = ∑ i ∈ Finset.range 10, monthLength 1858 (i + 1) by decide +kernel,
      later_months 1858 (by decide)]
  have years : (⟨1858, 1, 1⟩ : Date).later 15340 = ⟨1900, 1, 1⟩ := by
    rw [show 15340 = ∑ i ∈ Finset.range 42, yearLength (1858 + i) by decide +kernel, later_years]
  have march : (⟨1900, 1, 1⟩ : Date).later 59 = ⟨1900, 3, 1⟩ := by
    rw [show 59 = ∑ i ∈ Finset.range 2, monthLength 1900 (i + 1) by decide +kernel,
      later_months 1900 (by decide)]
  have first : (⟨1858, 11, 1⟩ : Date).later 16 = ⟨1858, 11, 17⟩ := later_inside (by decide)
  rw [gregorian, ← first, ← november, ← later_add, ← later_add,
    show 304 + (16 + 15079) = 15340 + 59 by norm_num, later_add, years, march]

/-- The two numbers of a day, without the roundings. -/
theorem numbers {mjd : Nat} (first : 15079 ≤ mjd) :
    36525 * yearNumber mjd + 1507820 ≤ 100 * mjd ∧
      100 * mjd < 36525 * yearNumber mjd + 36525 + 1507820 ∧
      14956 + 365 * yearNumber mjd + yearNumber mjd / 4 + dayNumber mjd = mjd := by
  have low : 36525 * yearNumber mjd + 1507820 ≤ 100 * mjd := by
    unfold yearNumber
    omega
  have high : 100 * mjd < 36525 * yearNumber mjd + 36525 + 1507820 := by
    unfold yearNumber
    omega
  refine ⟨low, high, ?_⟩
  unfold dayNumber
  omega

/-- A year begins after the last day of February. -/
theorem numbers_succ {mjd : Nat} (first : 15079 ≤ mjd) :
    yearNumber (mjd + 1) = yearNumber mjd ∧ dayNumber (mjd + 1) = dayNumber mjd + 1 ∧
      123 ≤ dayNumber mjd ∧ (dayNumber mjd < 487 ∨ dayNumber mjd = 487 ∧ yearNumber mjd % 4 = 3) ∨
    yearNumber (mjd + 1) = yearNumber mjd + 1 ∧ dayNumber (mjd + 1) = 123 ∧
      (dayNumber mjd = 488 ∧ yearNumber mjd % 4 = 3 ∨
        dayNumber mjd = 487 ∧ yearNumber mjd % 4 ≠ 3) := by
  obtain ⟨low, high, days⟩ := numbers first
  obtain ⟨low', high', days'⟩ := numbers (by omega : 15079 ≤ mjd + 1)
  rcases (by omega : yearNumber (mjd + 1) = yearNumber mjd ∨
    yearNumber (mjd + 1) = yearNumber mjd + 1) with year | year
  · rw [year] at days' high'
    omega
  · rw [year] at days' low'
    omega

/-- The conversion of annex G goes on from day to day. -/
theorem marchDate_succ {mjd : Nat} (first : 15079 ≤ mjd) (last : mjd < 88127) :
    (marchDate (yearNumber mjd) (dayNumber mjd)).next =
      marchDate (yearNumber (mjd + 1)) (dayNumber (mjd + 1)) := by
  have early (late : 487 ≤ dayNumber mjd) : yearNumber mjd < 199 := by
    obtain ⟨-, -, days⟩ := numbers first
    omega
  obtain ⟨february, leap, march⟩ := marchDate_last (yearNumber mjd)
  rcases numbers_succ first with ⟨year, day, low, inside | ⟨feb28, fourth⟩⟩ |
    ⟨year, day, ⟨feb29, fourth⟩ | ⟨feb28, other⟩⟩
  · rw [year, day, marchDate_next _ low inside]
  · have long := february_leap ((leap_iff (early feb28.ge)).mpr fourth)
    rw [year, day, feb28, february, leap, next_day (long.ge.trans' (by decide))]
  · have long := february_leap ((leap_iff (early (feb29.ge.trans' (by decide)))).mpr fourth)
    rw [year, day, feb29, leap, march, next_month long.symm (by decide)]
  · have short := february_common fun leap => other ((leap_iff (early feb28.ge)).mp leap)
    rw [year, day, feb28, february, march, next_month short.symm (by decide)]

/-- The conversion of annex G is right for every day of its two centuries. -/
theorem gregorian_eq {mjd : Nat} (first : 15079 ≤ mjd) (last : mjd ≤ 88127) :
    gregorian mjd = marchDate (yearNumber mjd) (dayNumber mjd) := by
  induction mjd, first using Nat.le_induction with
  | base => exact march_1900.trans (by decide)
  | succ mjd first ih =>
    calc gregorian (mjd + 1)
      _ = (gregorian mjd).next := rfl
      _ = (marchDate (yearNumber mjd) (dayNumber mjd)).next := congrArg Date.next (ih (by omega))
      _ = marchDate (yearNumber (mjd + 1)) (dayNumber (mjd + 1)) := marchDate_succ first last

/-- The formula for the year, in integers. -/
theorem year_formula {mjd : Nat} (first : 15079 ≤ mjd) :
    trunc (((mjd : ℚ) - 15078.2) / 365.25) = yearNumber mjd := by
  have quotient : ((mjd : ℚ) - 15078.2) / 365.25 =
      ((100 * mjd - 1507820 : Int) : ℚ) / (36525 : Nat) := by
    push_cast
    ring
  rw [trunc_eq_ediv (by omega) (by decide) quotient, yearNumber]
  omega

theorem yearDays_formula (y : Nat) : trunc (((y : Int) : ℚ) * 365.25) = 1461 * y / 4 := by
  apply trunc_eq_ediv (d := 4) (by omega) (by decide)
  push_cast
  ring

/-- The formula for the month, with 30 where annex G has 30.6001. -/
theorem month_formula {mjd : Nat} (first : 15079 ≤ mjd) :
    trunc (((mjd : ℚ) - 14956.1 - ((1461 * yearNumber mjd / 4 : Int) : ℚ)) / 30) =
      shortMonthNumber (dayNumber mjd) := by
  obtain ⟨low, high, days⟩ := numbers first
  have quotient : ((mjd : ℚ) - 14956.1 - ((1461 * yearNumber mjd / 4 : Int) : ℚ)) / 30 =
      ((10 * (mjd - 14956 - 1461 * yearNumber mjd / 4) - 1 : Int) : ℚ) / (300 : Nat) := by
    push_cast
    ring
  rw [trunc_eq_ediv (by omega) (by decide) quotient, shortMonthNumber]
  omega

theorem monthDays_formula (m : Nat) : trunc (((m : Int) : ℚ) * 30.6001) = 306001 * m / 10000 := by
  apply trunc_eq_ediv (d := 10000) (by omega) (by decide)
  push_cast
  ring

/-- What `fig_0_10` computes, by the two numbers of the day. -/
theorem fig010_numbers {fig : Nat → UInt8} (first : 15079 ≤ (fig010 fig).dt.mjd) :
    let y : Int := yearNumber (fig010 fig).dt.mjd
    let n := dayNumber (fig010 fig).dt.mjd
    let m : Int := shortMonthNumber n
    (fig010 fig).y = (if m = 14 ∨ m = 15 then y + 1 else y) + 1900 ∧
      (fig010 fig).m = (if m = 14 ∨ m = 15 then m - 13 else m - 1) ∧
      (fig010 fig).d = n - 306001 * m / 10000 := by
  have days := (numbers first).2.2
  unfold fig010 at first days ⊢
  dsimp only at first days ⊢
  rw [year_formula first, yearDays_formula, month_formula first, monthDays_formula]
  refine ⟨rfl, rfl, ?_⟩
  omega

theorem fig010_wd (fig : Nat → UInt8) : (fig010 fig).wd = weekday (fig010 fig).dt.mjd := by
  have computed : (fig010 fig).wd = (((fig010 fig).dt.mjd : Int) + 2).tmod 7 + 1 := rfl
  rw [computed, weekday, weekdayLater_eq (by decide), Int.tmod_eq_emod_of_nonneg (by omega)]
  omega

def DateAndTime.Shows (r : DateAndTime) (date : Date) : Prop :=
  r.y = date.year ∧ r.m = date.month ∧ r.d = date.day

structure DateConverted (fig : Nat → UInt8) : Prop where
  date : (fig010 fig).Shows (gregorian (fig010 fig).dt.mjd)
  weekday : (fig010 fig).wd = weekday (fig010 fig).dt.mjd
  month : 1 ≤ (fig010 fig).m ∧ (fig010 fig).m ≤ 12
  day : 1 ≤ (fig010 fig).d ∧ (fig010 fig).d ≤ 31

/-- The last day of each month, January first, on which a division by 30 finds the month. -/
def lastDays : List Nat := [22, 21, 28, 27, 27, 26, 26, 25, 24, 24, 23, 23]

def EarlyInMonth (date : Date) : Prop := date.day ≤ lastDays.getD (date.month - 1) 0

instance (date : Date) : Decidable (EarlyInMonth date) := inferInstanceAs (Decidable (_ ≤ _))

/-- The division by 30 finds the month, or the one after it. -/
theorem shortMonthNumber_cases : ∀ n < 489, 123 ≤ n →
    306001 * monthNumber n / 10000 < n ∧
      (shortMonthNumber n = monthNumber n ∧ EarlyInMonth (marchDate 0 n) ∨
        shortMonthNumber n = monthNumber n + 1 ∧ ¬EarlyInMonth (marchDate 0 n)) := by
  decide +kernel

theorem earlyInMonth_year (y n : Nat) : EarlyInMonth (marchDate y n) ↔ EarlyInMonth (marchDate 0 n) := by
  unfold marchDate
  split <;> rfl

theorem gregorian_valid (mjd : Nat) : (gregorian mjd).Valid :=
  Date.Valid.later ⟨by decide, by decide⟩ mjd

theorem DateConverted.of_shows {fig : Nat → UInt8}
    (date : (fig010 fig).Shows (gregorian (fig010 fig).dt.mjd)) : DateConverted fig := by
  obtain ⟨month, day⟩ := gregorian_valid (fig010 fig).dt.mjd
  have longest := (monthLength_bounds (gregorian (fig010 fig).dt.mjd).year
    (gregorian (fig010 fig).dt.mjd).month).2
  exact ⟨date, fig010_wd fig, by rw [date.2.1]; omega, by rw [date.2.2]; omega⟩

theorem shows_iff {fig : Nat → UInt8} (first : 15079 ≤ (fig010 fig).dt.mjd)
    (last : (fig010 fig).dt.mjd ≤ 88127) :
    (fig010 fig).Shows (gregorian (fig010 fig).dt.mjd) ↔
      EarlyInMonth (gregorian (fig010 fig).dt.mjd) := by
  obtain ⟨year, month, day⟩ := fig010_numbers first
  obtain ⟨low, high, days⟩ := numbers first
  generalize (fig010 fig).dt.mjd = mjd at *
  have bounds : 123 ≤ dayNumber mjd ∧ dayNumber mjd < 489 := by omega
  obtain ⟨from4, to15⟩ := monthNumber_bounds _ bounds.2 bounds.1
  rw [gregorian_eq first last, earlyInMonth_year, DateAndTime.Shows, year, month, day]
  obtain ⟨inside, ⟨same, early⟩ | ⟨late, early⟩⟩ := shortMonthNumber_cases _ bounds.2 bounds.1
  · refine iff_of_true ?_ early
    rw [same, marchDate]
    split
    · next january =>
      rw [if_neg (by omega)]
      dsimp only
      rw [monthDay]
      omega
    · next march =>
      rw [if_pos (by omega)]
      dsimp only
      rw [monthDay]
      omega
  · refine iff_of_false ?_ early
    rintro ⟨-, shown, -⟩
    rw [late, marchDate] at shown
    split_ifs at shown <;> dsimp only at shown <;> omega

/-- FIG 0/10 is converted exactly on the days that come early enough in their month. -/
theorem fig010_date_iff {fig : Nat → UInt8} (first : 15079 ≤ (fig010 fig).dt.mjd)
    (last : (fig010 fig).dt.mjd ≤ 88127) :
    (DateConverted fig ↔ EarlyInMonth (gregorian (fig010 fig).dt.mjd)) ∧
      ∀ following, (fig010 following).dt.mjd = (fig010 fig).dt.mjd + 1 → DateConverted fig →
        DateConverted following → ∃ date : Date, (fig010 fig).Shows date ∧
          (fig010 following).Shows date.next := by
  refine ⟨⟨fun converted => (shows_iff first last).mp converted.date,
    fun early => .of_shows ((shows_iff first last).mpr early)⟩, ?_⟩
  intro following succ today tomorrow
  refine ⟨_, today.date, ?_⟩
  have date := tomorrow.date
  rwa [succ] at date

def marchFig (i : Nat) : UInt8 := [0x33, 0xd2, 0x40, 0].getD i 0

def lateMarchFig (i : Nat) : UInt8 := [0x33, 0xd9, 0x40, 0].getD i 0

theorem fig010_date_iff_march : DateConverted marchFig := by
  have mjd : (fig010 marchFig).dt.mjd = 53065 := rfl
  have early : EarlyInMonth (gregorian (fig010 marchFig).dt.mjd) := by
    rw [mjd, gregorian_eq (by decide) (by decide)]
    decide
  exact (fig010_date_iff (by rw [mjd]; decide) (by rw [mjd]; decide)).1.mpr early

/-- 29 March 2004 is shown as day -2 of April. -/
theorem late_march_not_converted :
    ¬∀ fig, 15079 ≤ (fig010 fig).dt.mjd → (fig010 fig).dt.mjd ≤ 88127 → DateConverted fig := by
  intro all
  have mjd : (fig010 lateMarchFig).dt.mjd = 53093 := rfl
  have first : 15079 ≤ (fig010 lateMarchFig).dt.mjd := by rw [mjd]; decide
  have day : (fig010 lateMarchFig).d = -2 := by
    rw [(fig010_numbers first).2.2, mjd]
    decide
  have positive := (all lateMarchFig first (by rw [mjd]; decide)).day.1
  rw [day] at positive
  exact absurd positive (by decide)

end OpenDab
