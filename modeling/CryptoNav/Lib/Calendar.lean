import Mathlib.Data.Int.Init
import Mathlib.Data.List.Basic
import Mathlib.Data.Nat.Digits.Defs
import Mathlib.Data.String.Basic
import Mathlib.Tactic.Linarith
import Mathlib.Tactic.Set

/-!
# The calendar

The date of a day of the proleptic Gregorian calendar, days being counted from 1970-01-01, and the
date as it is written in the names of daily files. Years are taken from March on, so that a leap day
is the last of its year: four hundred of them are `146097` days, a hundred at most `36525`, four at
most `1461`. What is proved is how long the texts are; that different days have different dates is
needed nowhere.

Times of day, time zones and leap seconds are left out: a day is a number of milliseconds
divided by those of a day, and whoever needs a zone shifts the time first. Reading a date from
its text is left out as well, since names of files are written here and never parsed.
-/

set_option autoImplicit false

namespace CryptoNav.Lib

structure Date where
  year : ℤ
  month : ℕ
  day : ℕ
  deriving DecidableEq, Repr

/-- The days from the March 1st that four centuries begin with to 1970-01-01. -/
def epochDay : ℤ := 719468

/-- The year of a day among four centuries, and the day of that year. -/
def yearOfDay (day : ℤ) : ℤ × ℤ :=
  let century := min (day / 36524) 3
  let ofCentury := day - 36524 * century
  let leaps := ofCentury / 1461
  let ofLeap := ofCentury - 1461 * leaps
  let year := min (ofLeap / 365) 3
  (100 * century + 4 * leaps + year, ofLeap - 365 * year)

theorem yearOfDay_bounds {day : ℤ} (h0 : 0 ≤ day) (h : day < 146097) :
    0 ≤ (yearOfDay day).2 ∧ (yearOfDay day).2 < 366 := by
  dsimp only [yearOfDay]
  set century := min (day / 36524) 3 with hcentury
  have hc : 0 ≤ century ∧ century ≤ 3 ∧ 0 ≤ day - 36524 * century ∧
      day - 36524 * century ≤ 36524 := by omega
  clear_value century
  set ofCentury := day - 36524 * century
  set ofLeap := ofCentury - 1461 * (ofCentury / 1461) with hofLeap
  have hl : 0 ≤ ofLeap ∧ ofLeap < 1461 := by omega
  clear_value ofLeap
  omega

/-- The date of a day of a year from March on, the months of which have 31, 30, 31, 30, 31 days over
and over. -/
def dateOfYear (year ofYear : ℤ) : Date :=
  let month := (5 * ofYear + 2) / 153
  let january := if month < 10 then 0 else 1
  { year := year + january
    month := (month + 3 - 12 * january).toNat
    day := (ofYear - (153 * month + 2) / 5 + 1).toNat }

def date (day : ℤ) : Date :=
  let fromMarch := day + epochDay
  let ofCycle := yearOfDay (fromMarch % 146097)
  dateOfYear (400 * (fromMarch / 146097) + ofCycle.1) ofCycle.2

theorem dateOfYear_bounds (year : ℤ) {ofYear : ℤ} (h0 : 0 ≤ ofYear) (h : ofYear < 366) :
    (dateOfYear year ofYear).month ≤ 12 ∧ (dateOfYear year ofYear).day ≤ 31 := by
  simp only [dateOfYear]
  constructor
  · split <;> omega
  · omega

/-- Months and days have two digits. -/
theorem date_bounds (day : ℤ) : (date day).month ≤ 12 ∧ (date day).day ≤ 31 := by
  obtain ⟨hlow, hhigh⟩ := @yearOfDay_bounds ((day + epochDay) % 146097)
    (Int.emod_nonneg _ (by decide)) (Int.emod_lt_of_pos _ (by decide))
  exact dateOfYear_bounds _ hlow hhigh

/-! ## Texts -/

/-- A number with at least so many digits. -/
def padded (width n : ℕ) : List Char :=
  List.replicate (width - (Nat.toDigits 10 n).length) '0' ++ Nat.toDigits 10 n

/-- A year of four digits, and any other with its sign. -/
def yearText (year : ℤ) : List Char :=
  if 0 ≤ year ∧ year ≤ 9999 then padded 4 year.toNat
  else (if year < 0 then '-' else '+') :: padded 4 year.natAbs

/-- The date as `%Y-%m-%d`. -/
def dateText (d : Date) : List Char :=
  yearText d.year ++ '-' :: padded 2 d.month ++ '-' :: padded 2 d.day

theorem isDigit_of_mem_padded {width n : ℕ} {c : Char} (h : c ∈ padded width n) :
    c.isDigit = true := by
  rcases List.mem_append.mp h with hc | hc
  · rw [List.eq_of_mem_replicate hc]
    rfl
  · exact Nat.isDigit_of_mem_toDigits (by decide) (by decide) hc

theorem length_padded {width n : ℕ} (hwidth : 0 < width) (h : n < 10 ^ width) :
    (padded width n).length = width := by
  have := (Nat.length_toDigits_le_iff (by decide) hwidth).mpr h
  rw [padded, List.length_append, List.length_replicate]
  omega

example : dateText (date 19782) = "2024-02-29".toList := by decide +kernel

end CryptoNav.Lib
