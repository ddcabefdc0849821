import Mathlib.Algebra.BigOperators.Intervals
import Mathlib.Tactic

/-!
# The Gregorian calendar from 1970 on

Days and seconds are counted from the beginning of 1970; months and the days of
a month are counted from zero.  A moment stands for a number of seconds, and the
day of the week depends on the number of the day alone.
-/

namespace Calendar

def Leap (y : ℕ) : Prop := y % 4 = 0 ∧ y % 100 ≠ 0 ∨ y % 400 = 0

instance (y : ℕ) : Decidable (Leap y) :=
  inferInstanceAs (Decidable (_ ∧ _ ∨ _))

def yearLength (y : ℕ) : ℕ := if Leap y then 366 else 365

def monthLength (y : ℕ) : ℕ → ℕ
  | 1 => if Leap y then 29 else 28
  | 3 | 5 | 8 | 10 => 30
  | _ => 31

/-- The number of the first day of a year. -/
def yearStart (y : ℕ) : ℕ := ∑ i ∈ Finset.Ico 1970 y, yearLength i

/-- The days of a year before a month. -/
def monthStart (y m : ℕ) : ℕ := ∑ i ∈ Finset.range m, monthLength y i

/-- Sunday is 0; the first day of 1970 was a Thursday. -/
def weekday (n : ℕ) : ℕ := (n + 4) % 7

structure Moment where
  year : ℕ
  month : ℕ
  day : ℕ
  hour : ℕ
  minute : ℕ
  second : ℕ
  deriving DecidableEq

namespace Moment

structure Valid (m : Moment) : Prop where
  year : 1970 ≤ m.year
  month : m.month < 12
  day : m.day < monthLength m.year m.month
  hour : m.hour < 24
  minute : m.minute < 60
  second : m.second < 60

def dayNumber (m : Moment) : ℕ :=
  yearStart m.year + monthStart m.year m.month + m.day

def seconds (m : Moment) : ℕ :=
  86400 * m.dayNumber + 3600 * m.hour + 60 * m.minute + m.second

end Moment

/-- Day `d` is Sunday number `n` of a month. -/
structure NthSunday (y m n d : ℕ) : Prop where
  sunday : weekday d = 0
  low : yearStart y + monthStart y m + 7 * n ≤ d + 7
  high : d < yearStart y + monthStart y m + 7 * n

section Lengths

variable {y y' m n d : ℕ}

theorem weekday_lt (n : ℕ) : weekday n < 7 := Nat.mod_lt _ (by decide)

theorem yearStart_succ (hy : 1970 ≤ y) :
    yearStart (y + 1) = yearStart y + yearLength y :=
  Finset.sum_Ico_succ_top hy yearLength

theorem yearStart_mono (h : y ≤ y') : yearStart y ≤ yearStart y' :=
  Finset.sum_le_sum_of_subset (Finset.Ico_subset_Ico_right h)

theorem monthStart_succ : monthStart y (m + 1) =
    monthStart y m + monthLength y m :=
  Finset.sum_range_succ _ _

theorem monthStart_mono {m' : ℕ} (h : m ≤ m') :
    monthStart y m ≤ monthStart y m' :=
  Finset.sum_le_sum_of_subset (Finset.range_subset_range.mpr h)

/-- A day of an earlier month comes before the later month. -/
theorem monthStart_add_le
    {m' : ℕ} (hm : m < m') (hd : d < monthLength y m) :
    monthStart y m + d < monthStart y m' := by
  have hnext := monthStart_mono (y := y) (Nat.succ_le_of_lt hm)
  rw [monthStart_succ] at hnext
  omega

theorem monthStart_year : monthStart y 12 = yearLength y := by
  unfold monthStart yearLength
  by_cases hleap : Leap y <;>
    simp [Finset.sum_range_succ, monthLength, hleap]

theorem monthStart_march :
    monthStart y 2 = if Leap y then 60 else 59 := by
  unfold monthStart
  by_cases hleap : Leap y <;>
    simp [Finset.sum_range_succ, monthLength, hleap]

theorem monthStart_november :
    monthStart y 10 = if Leap y then 305 else 304 := by
  unfold monthStart
  by_cases hleap : Leap y <;>
    simp [Finset.sum_range_succ, monthLength, hleap]

/-- A time of day leaves the number of the day alone. -/
theorem Moment.Valid.dayNumber_eq {t : Moment} (h : t.Valid) :
    t.seconds / 86400 = t.dayNumber := by
  have hhour := h.hour
  have hminute := h.minute
  have hsecond := h.second
  unfold Moment.seconds
  omega

theorem NthSunday.unique
    {d' : ℕ} (h : NthSunday y m n d) (h' : NthSunday y m n d') : d = d' := by
  obtain ⟨hs, hl, hh⟩ := h
  obtain ⟨hs', hl', hh'⟩ := h'
  unfold weekday at hs hs'
  omega

/-- Sunday number `n` by the weekday of the first of the month, as a day of the
month that is counted from one. -/
theorem NthSunday.of_first
    {s : ℕ} (hn : 1 ≤ n)
    (hs : s = if weekday (yearStart y + monthStart y m) = 0 then 7 * n - 6
      else 7 * n + 1 - weekday (yearStart y + monthStart y m)) :
    7 * n - 6 ≤ s ∧ s ≤ 7 * n ∧
      NthSunday y m n (yearStart y + monthStart y m + (s - 1)) := by
  have hweek := weekday_lt (yearStart y + monthStart y m)
  split_ifs at hs with hsunday
  · refine ⟨by omega, by omega, ?_, by omega, by omega⟩
    unfold weekday at hsunday ⊢
    omega
  · refine ⟨by omega, by omega, ?_, by omega, by omega⟩
    unfold weekday at hs hsunday hweek ⊢
    omega

end Lengths

end Calendar
