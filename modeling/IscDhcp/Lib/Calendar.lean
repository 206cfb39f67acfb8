import Mathlib.Algebra.BigOperators.Intervals
import Mathlib.Algebra.Order.BigOperators.Group.Finset
import Mathlib.Tactic.IntervalCases

/-!
The Gregorian calendar, and the date and time of day of a number of seconds since the beginning
of 1970.

The date is found by taking off whole years and then whole months; that it is a date of the
calendar, and which day it is, follows from what is taken off.
-/

namespace IscDhcp.Lib.Calendar

open Finset

def isLeap (y : ℕ) : Bool := y % 4 == 0 && (y % 100 != 0 || y % 400 == 0)

def yearLength (y : ℕ) : ℕ := if isLeap y then 366 else 365

def monthLengths (y : ℕ) : List ℕ :=
  [31, if isLeap y then 29 else 28, 31, 30, 31, 30, 31, 31, 30, 31, 30, 31]

/-- The days of the years from `y` up to, and not including, `z`. -/
def daysOfYears (y z : ℕ) : ℕ := ∑ k ∈ Ico y z, yearLength k

/-- The days of a year before a month, which is counted from `0`. -/
def daysBefore (y mon : ℕ) : ℕ := ((monthLengths y).take mon).sum

/-- The year a day is in, counted from the beginning of `y`, and the day of that year. -/
def findYear : ℕ → ℕ → ℕ → ℕ × ℕ
  | 0, y, d => (y, d)
  | fuel + 1, y, d => if d < yearLength y then (y, d) else findYear fuel (y + 1) (d - yearLength y)

/-- The place in a list of lengths, and what is left. -/
def findMonth : List ℕ → ℕ → ℕ × ℕ
  | [], d => (0, d)
  | len :: lens, d =>
    if d < len then (0, d) else ((findMonth lens (d - len)).1 + 1, (findMonth lens (d - len)).2)

/-- A date and time of day; the month is counted from `0`, and the day of the week from Sunday. -/
structure Tm where
  year : ℕ
  mon : ℕ
  mday : ℕ
  hour : ℕ
  min : ℕ
  sec : ℕ
  wday : ℕ
  deriving DecidableEq, Repr

/-- The date and time of day, `t` seconds after the beginning of 1970, a Thursday. -/
def gmtime (t : ℕ) : Tm :=
  let days := t / 86400
  let (year, yday) := findYear (days + 1) 1970 days
  let (mon, mday) := findMonth (monthLengths year) yday
  { year := year, mon := mon, mday := mday + 1
    hour := t % 86400 / 3600, min := t % 3600 / 60, sec := t % 60, wday := (days + 4) % 7 }

lemma yearLength_pos (y : ℕ) : 0 < yearLength y := by
  unfold yearLength
  split_ifs <;> decide

lemma sum_monthLengths (y : ℕ) : (monthLengths y).sum = yearLength y := by
  unfold monthLengths yearLength
  cases isLeap y <;> rfl

lemma findYear_spec {fuel y d : ℕ} (h : d < fuel) : y ≤ (findYear fuel y d).1 ∧
      daysOfYears y (findYear fuel y d).1 + (findYear fuel y d).2 = d ∧
      (findYear fuel y d).2 < yearLength (findYear fuel y d).1 := by
  induction fuel generalizing y d with
  | zero => omega
  | succ fuel ih =>
    rw [findYear]
    split_ifs with hd
    · exact ⟨le_rfl, by simp [daysOfYears], hd⟩
    · have hpos := yearLength_pos y
      obtain ⟨h1, h2, h3⟩ := ih (d := d - yearLength y) (by omega)
      refine ⟨by omega, ?_, h3⟩
      have hsum : daysOfYears y (findYear fuel (y + 1) (d - yearLength y)).1 =
          yearLength y + daysOfYears (y + 1) (findYear fuel (y + 1) (d - yearLength y)).1 :=
        Finset.sum_eq_sum_Ico_succ_bot (by omega) _
      omega

lemma findMonth_spec {lens : List ℕ} {d : ℕ} (h : d < lens.sum) :
    (findMonth lens d).1 < lens.length ∧
      (lens.take (findMonth lens d).1).sum + (findMonth lens d).2 = d ∧
      (findMonth lens d).2 < lens.getD (findMonth lens d).1 0 := by
  induction lens generalizing d with
  | nil => simp at h
  | cons len lens ih =>
    rw [findMonth]
    split_ifs with hd
    · exact ⟨by simp, by simp, by simpa using hd⟩
    · rw [List.sum_cons] at h
      obtain ⟨h1, h2, h3⟩ := ih (d := d - len) (by omega)
      refine ⟨by simpa using h1, ?_, by simpa using h3⟩
      simp only [List.take_succ_cons, List.sum_cons]
      omega

/-- A date and time of the calendar, on or after the beginning of 1970. -/
structure Tm.Valid (tm : Tm) : Prop where
  year : 1970 ≤ tm.year
  mon : tm.mon < 12
  mday : 1 ≤ tm.mday ∧ tm.mday ≤ (monthLengths tm.year).getD tm.mon 0
  hour : tm.hour < 24
  min : tm.min < 60
  sec : tm.sec < 60
  wday : tm.wday < 7

lemma Tm.Valid.mday_le {tm : Tm} (h : tm.Valid) : tm.mday ≤ 31 := by
  refine h.mday.2.trans ?_
  have hm := h.mon
  unfold monthLengths
  generalize isLeap tm.year = leap
  interval_cases tm.mon <;> cases leap <;> decide

/-- The seconds from the beginning of 1970 to a date and time. -/
def Tm.seconds (tm : Tm) : ℕ :=
  (((daysOfYears 1970 tm.year + daysBefore tm.year tm.mon + (tm.mday - 1)) * 24 + tm.hour) * 60 +
    tm.min) * 60 + tm.sec

lemma gmtime_valid (t : ℕ) : (gmtime t).Valid := by
  obtain ⟨hy, -, hd⟩ := findYear_spec (show t / 86400 < t / 86400 + 1 by omega)
  rw [← sum_monthLengths] at hd
  obtain ⟨hm, -, hmd⟩ := findMonth_spec hd
  exact ⟨hy, hm, ⟨Nat.le_add_left .., hmd⟩, by dsimp only [gmtime]; omega,
    by dsimp only [gmtime]; omega, by dsimp only [gmtime]; omega, by dsimp only [gmtime]; omega⟩

lemma seconds_gmtime (t : ℕ) : (gmtime t).seconds = t := by
  obtain ⟨-, hs, hd⟩ := findYear_spec (y := 1970) (show t / 86400 < t / 86400 + 1 by omega)
  rw [← sum_monthLengths] at hd
  obtain ⟨-, hm, -⟩ := findMonth_spec hd
  unfold Tm.seconds daysBefore
  dsimp only [gmtime]
  omega

/-! ### The years in which every fourth is a leap year -/

/-- From 1901 to 2099 every fourth year is a leap year. -/
lemma isLeap_eq {y : ℕ} (h₁ : 1901 ≤ y) (h₂ : y < 2100) : isLeap y = (y % 4 == 0) := by
  unfold isLeap
  by_cases h : y % 100 = 0
  · obtain rfl : y = 2000 := by omega
    rfl
  · simp [h]

lemma daysOfYears_1970 {y : ℕ} (h₁ : 1970 ≤ y) (h₂ : y ≤ 2100) :
    daysOfYears 1970 y = 365 * (y - 1970) + (y - 1969) / 4 := by
  induction y, h₁ using Nat.le_induction with
  | base => rfl
  | succ y hy ih =>
    have hsum : daysOfYears 1970 (y + 1) = daysOfYears 1970 y + yearLength y :=
      Finset.sum_Ico_succ_top hy _
    rw [hsum, ih (by omega), yearLength, isLeap_eq (by omega) (by omega)]
    simp only [beq_iff_eq]
    split_ifs <;> omega

end IscDhcp.Lib.Calendar
