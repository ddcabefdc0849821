import Xinu.Calendar
import Xinu.FormattedInput

/-!
# Dates in text

`ascdate` takes the seconds apart by subtraction, finds the day of the week by
a formula and moves the clock ahead at the end if daylight time applies.  The
weekday and the year are not looked at again when the hour that is added begins
the next day.
-/

namespace Xinu.AscDate

open ByteMemory FormattedOutput FormattedInput Calendar

/-! ## date.h -/

/-- `DATE_DST_OFF`, `DATE_DST_ON` and `DATE_DST_AUTO`. -/
inductive Daylight
  | off
  | on
  | auto
  deriving DecidableEq

def isleap (x : ℕ) : Bool := x % 4 = 0

def SECPERDY : ℕ := 60 * 60 * 24
def SECPERHR : ℕ := 60 * 60
def SECPERMN : ℕ := 60

def text (s : String) : List Byte := s.toList.map ch

def dt_msize : List ℕ := [31, 28, 31, 30, 31, 30, 31, 31, 30, 31, 30, 31]

def dt_mnam : List (List Byte) :=
  ["Jan", "Feb", "Mar", "Apr", "May", "Jun", "Jul", "Aug", "Sep", "Oct", "Nov",
    "Dec"].map text

def dt_dnam : List (List Byte) :=
  ["Sun", "Mon", "Tue", "Wed", "Thu", "Fri", "Sat"].map text

/-! ## ascdate.c -/

/-- The search for the year and the seconds left in it, with `n` turns at most. -/
def yearLoop : ℕ → ℕ → ℕ → Option (ℕ × ℕ)
  | 0, _, _ => none
  | n + 1, year, now =>
      let days := if isleap year then 366 else 365
      let tmp := days * SECPERDY
      if tmp > now then some (year, now) else yearLoop n (year + 1) (now - tmp)

/-- The search for the month, which has `n` months left. -/
def monthLoop (year : ℕ) : ℕ → ℕ → ℕ → ℕ × ℕ
  | 0, month, now => (month, now)
  | n + 1, month, now =>
      let tmp := dt_msize.getD month 0 * SECPERDY
      let tmp := if month = 1 ∧ isleap year then tmp + SECPERDY else tmp
      if tmp > now then (month, now)
      else monthLoop year n (month + 1) (now - tmp)

/-- The day of the week of January 1. -/
def jan1 (year : ℕ) : ℕ := (4 + (year - 1970) + (year - 1969) / 4) % 7

/-- The day of the second Sunday of March. -/
def marss (year : ℕ) : ℕ :=
  let mar1 := (jan1 year + dt_msize.getD 0 0 + dt_msize.getD 1 0 +
    if isleap year then 1 else 0) % 7
  if mar1 = 0 then 8 else 15 - mar1

/-- The day of the first Sunday of November. -/
def novfs (year : ℕ) : ℕ :=
  let nov1 := jan1 year + (dt_msize.take 10).sum
  let nov1 := (if isleap year then nov1 + 1 else nov1) % 7
  if nov1 = 0 then 1 else 8 - nov1

/-- `dst`, from the standard time. -/
def isdst (daylight : Daylight) (year month day hour : ℕ) : Bool :=
  match daylight with
  | .off => false
  | .on => true
  | .auto =>
      if month = 11 ∨ month = 0 ∨ month = 1 then false
      else if month > 2 ∧ month < 10 then true
      else if month = 2 then
        day > marss year || (day = marss year && hour ≥ 2)
      else if month = 10 then
        !(day > novfs year || (day = novfs year && hour ≥ 1))
      else false

/-- Move ahead one hour: the month, the day and the hour. -/
def ahead (month day hour : ℕ) : Option (ℕ × ℕ × ℕ) :=
  let hour := hour + 1
  if hour > 23 then
    (dt_msize[month]?).map fun size =>
      if day + 1 > size then (month + 1, 1, 0) else (month, day + 1, 0)
  else some (month, day, hour)

def format : List Byte := text "%3s  %3s %2d  %2d:%02d:%02d %s %d"

def word (n : ℕ) : Arg := .word (BitVec.ofNat 32 n)

/-- The zones of `TIMEZONE`, which is `ZONE_EST`. -/
def zone (dst : Bool) : List Byte := if dst then text "EDT" else text "EST"

/-- The text that `ascdate` stores; `none` if an index is outside of its
table. -/
def ascdate (daylight : Daylight) (now : ℕ) : Option (List Byte) :=
  (yearLoop 137 1970 now).bind fun (year, now) =>
    let days := now / SECPERDY
    let (month, now) := monthLoop year 12 0 now
    let day := now / SECPERDY + 1
    let now := now % SECPERDY
    let hour := now / SECPERHR
    let now := now % SECPERHR
    let minute := now / SECPERMN
    let second := now % SECPERMN
    let dayofweek := (4 + (year - 1970) + (year - 1969) / 4 + days) % 7
    let dst := isdst daylight year month day hour
    let moved := if dst then ahead month day hour else some (month, day, hour)
    moved.bind fun (month, day, hour) =>
      (dt_dnam[dayofweek]?).bind fun dname =>
        (dt_mnam[month]?).bind fun mname =>
          sprintf format [.str dname, .str mname, word day, word hour,
            word minute, word second, .str (zone dst), word year]

example : ascdate .auto 1700000000 =
    some (text "Tue  Nov 14  22:13:20 EST 2023") := by
  decide

/-! ## Standard time -/

section Standard

variable {y m n now : ℕ}

theorem leap_iff (hlow : 1970 ≤ y) (hhigh : y < 2100) :
    Leap y ↔ isleap y = true := by
  unfold Leap isleap
  rw [decide_eq_true_iff]
  omega

theorem yearStart_eq (hlow : 1970 ≤ y) (hhigh : y ≤ 2100) :
    yearStart y = 365 * (y - 1970) + (y - 1969) / 4 := by
  induction y, hlow using Nat.le_induction with
  | base => rfl
  | succ y hy ih =>
      have hleap : Leap y ↔ y % 4 = 0 := by
        unfold Leap
        omega
      rw [yearStart_succ hy, ih (by omega), yearLength]
      split_ifs with h <;> rw [hleap] at h <;> omega

theorem yearLoop_spec
    (hlow : 1970 ≤ y) (hhigh : y < 2100) (hn : 2100 ≤ y + n)
    (hnow : 86400 * yearStart y + now < 86400 * yearStart 2100) :
    ∃ y' r, yearLoop n y now = some (y', r) ∧ 1970 ≤ y' ∧ y' < 2100 ∧
      86400 * yearStart y' + r = 86400 * yearStart y + now ∧
      r < 86400 * yearLength y' := by
  induction n generalizing y now with
  | zero => omega
  | succ n ih =>
      have hdays : (if isleap y = true then 366 else 365) * SECPERDY =
          86400 * yearLength y := by
        have hiff := leap_iff hlow hhigh
        by_cases hleap : Leap y <;>
          simp [hleap] at hiff <;> simp [yearLength, SECPERDY, hleap, hiff]
      rw [yearLoop, hdays]
      split_ifs with hlast
      · exact ⟨y, now, rfl, hlow, hhigh, rfl, hlast⟩
      · have hnext := yearStart_succ hlow
        have hmono : y + 1 ≠ 2100 := by
          intro heq
          rw [heq] at hnext
          omega
        have hleft : 86400 * yearStart (y + 1) + (now - 86400 * yearLength y) <
            86400 * yearStart 2100 := by omega
        obtain ⟨y', r, hloop, hlow', hhigh', hsum, hlt⟩ :=
          ih (by omega) (by omega) (by omega) hleft
        exact ⟨y', r, hloop, hlow', hhigh', by omega, hlt⟩

theorem msize_eq (hlow : 1970 ≤ y) (hhigh : y < 2100) (hm : m < 12) :
    (if m = 1 ∧ isleap y then dt_msize.getD m 0 * SECPERDY + SECPERDY
      else dt_msize.getD m 0 * SECPERDY) = 86400 * monthLength y m := by
  have hiff := leap_iff hlow hhigh
  by_cases hleap : Leap y <;> simp [hleap] at hiff <;> interval_cases m <;>
    simp [dt_msize, SECPERDY, monthLength, hleap, hiff]

theorem monthLoop_spec
    (hlow : 1970 ≤ y) (hhigh : y < 2100) (hn : m + n = 12)
    (hnow : 86400 * monthStart y m + now < 86400 * yearLength y) :
    ∃ m' r, monthLoop y n m now = (m', r) ∧ m' < 12 ∧
      86400 * monthStart y m' + r = 86400 * monthStart y m + now ∧
      r < 86400 * monthLength y m' := by
  induction n generalizing m now with
  | zero =>
      rw [show m = 12 by omega, monthStart_year] at hnow
      omega
  | succ n ih =>
      rw [monthLoop, msize_eq hlow hhigh (by omega)]
      split_ifs with hlast
      · exact ⟨m, now, rfl, by omega, rfl, hlast⟩
      · have hnext := @monthStart_succ y m
        have hleft : 86400 * monthStart y (m + 1) +
            (now - 86400 * monthLength y m) < 86400 * yearLength y := by omega
        obtain ⟨m', r, hloop, hm', hsum, hlt⟩ := ih (by omega) hleft
        exact ⟨m', r, hloop, hm', by omega, hlt⟩

/-- The part of `ascdate` behind the searches. -/
def finish (daylight : Daylight) (t : Moment) : Option (List Byte) :=
  let dst := isdst daylight t.year t.month (t.day + 1) t.hour
  let moved :=
    if dst then ahead t.month (t.day + 1) t.hour
    else some (t.month, t.day + 1, t.hour)
  moved.bind fun (month, day, hour) =>
    (dt_dnam[weekday t.dayNumber]?).bind fun dname =>
      (dt_mnam[month]?).bind fun mname =>
        sprintf format [.str dname, .str mname, word day, word hour,
          word t.minute, word t.second, .str (zone dst), word t.year]

theorem ascdate_eq (hnow : now < 4102444800) :
    ∃ t : Moment, t.Valid ∧ t.year < 2100 ∧ t.seconds = now ∧
      ∀ daylight, ascdate daylight now = finish daylight t := by
  have hfirst : yearStart 1970 = 0 := rfl
  have hend := yearStart_eq (y := 2100) (by omega) le_rfl
  have hinside : 86400 * yearStart 1970 + now < 86400 * yearStart 2100 := by
    omega
  obtain ⟨y, r, hyear, hlow, hhigh, hsum, hlt⟩ :=
    yearLoop_spec (n := 137) le_rfl (by omega) (by omega) hinside
  have hzero : monthStart y 0 = 0 := rfl
  have hwithin : 86400 * monthStart y 0 + r < 86400 * yearLength y := by omega
  obtain ⟨m, r', hmonth, hm, hsum', hlt'⟩ :=
    monthLoop_spec (n := 12) hlow hhigh rfl hwithin
  have hclosed := yearStart_eq hlow hhigh.le
  refine ⟨⟨y, m, r' / 86400, r' % 86400 / 3600, r' % 86400 % 3600 / 60,
    r' % 86400 % 3600 % 60⟩, ?_, hhigh, ?_, ?_⟩
  · exact ⟨hlow, hm, by simp only; omega, by simp only; omega,
      by simp only; omega, by simp only; omega⟩
  · simp only [Moment.seconds, Moment.dayNumber]
    omega
  · intro daylight
    have hday : (4 + (y - 1970) + (y - 1969) / 4 + r / SECPERDY) % 7 =
        weekday (yearStart y + monthStart y m + r' / 86400) := by
      unfold weekday SECPERDY
      omega
    simp only [ascdate, hyear, hmonth, Option.bind_some, hday]
    rfl

/-! ## Daylight time -/

theorem jan1_eq (hlow : 1970 ≤ y) (hhigh : y < 2100) :
    jan1 y = weekday (yearStart y) := by
  rw [yearStart_eq hlow hhigh.le]
  unfold jan1 weekday
  omega

theorem marss_spec (hlow : 1970 ≤ y) (hhigh : y < 2100) :
    8 ≤ marss y ∧ marss y ≤ 14 ∧
      NthSunday y 2 2 (yearStart y + monthStart y 2 + (marss y - 1)) := by
  have hiff := leap_iff hlow hhigh
  have hmar1 : (jan1 y + dt_msize.getD 0 0 + dt_msize.getD 1 0 +
      if isleap y then 1 else 0) % 7 =
      weekday (yearStart y + monthStart y 2) := by
    rw [jan1_eq hlow hhigh, monthStart_march]
    unfold weekday
    by_cases hleap : Leap y <;> simp only [hleap, true_iff, false_iff] at hiff
    · simp [hleap, hiff, dt_msize]
      omega
    · simp [hleap, hiff, dt_msize]
      omega
  refine NthSunday.of_first (n := 2) (by decide) ?_
  unfold marss
  rw [hmar1]

theorem novfs_spec (hlow : 1970 ≤ y) (hhigh : y < 2100) :
    1 ≤ novfs y ∧ novfs y ≤ 7 ∧
      NthSunday y 10 1 (yearStart y + monthStart y 10 + (novfs y - 1)) := by
  have hiff := leap_iff hlow hhigh
  have hnov1 : (if isleap y then jan1 y + (dt_msize.take 10).sum + 1
      else jan1 y + (dt_msize.take 10).sum) % 7 =
      weekday (yearStart y + monthStart y 10) := by
    rw [jan1_eq hlow hhigh, monthStart_november]
    unfold weekday
    by_cases hleap : Leap y <;> simp only [hleap, true_iff, false_iff] at hiff
    · simp [hleap, hiff, dt_msize]
      omega
    · simp [hleap, hiff, dt_msize]
  refine NthSunday.of_first (n := 1) le_rfl ?_
  unfold novfs
  dsimp only
  rw [hnov1]

end Standard

/-- From 2:00 on the second Sunday of March to 2:00 daylight time on the first
Sunday of November, in seconds of standard time. -/
def DaylightTime (now : ℕ) : Prop :=
  ∃ y d₁ d₂, 1970 ≤ y ∧ NthSunday y 2 2 d₁ ∧ NthSunday y 10 1 d₂ ∧
    86400 * d₁ + 2 * 3600 ≤ now ∧ now < 86400 * d₂ + 1 * 3600

def Applies : Daylight → ℕ → Prop
  | .off, _ => False
  | .on, _ => True
  | .auto, now => DaylightTime now

section Law

variable {t : Moment} {daylight : Daylight}

/-- The days of daylight time lie in one year. -/
theorem daylightTime_iff (ht : t.Valid) (hhigh : t.year < 2100) :
    DaylightTime t.seconds ↔
      86400 * (yearStart t.year + monthStart t.year 2 + (marss t.year - 1)) +
          2 * 3600 ≤ t.seconds ∧
        t.seconds < 86400 * (yearStart t.year + monthStart t.year 10 +
          (novfs t.year - 1)) + 1 * 3600 := by
  obtain ⟨-, -, hmarch⟩ := marss_spec ht.year hhigh
  obtain ⟨-, -, hnovember⟩ := novfs_spec ht.year hhigh
  constructor
  · rintro ⟨y, d₁, d₂, hlow, h₁, h₂, hfrom, huntil⟩
    have hday := monthStart_add_le ht.month ht.day
    rw [monthStart_year] at hday
    have hhour := ht.hour
    have hminute := ht.minute
    have hsecond := ht.second
    have hnext := yearStart_succ ht.year
    have hnext' := yearStart_succ hlow
    have hlow₁ := h₁.low
    have hhigh₂ := h₂.high
    have hnov : monthStart y 10 + 7 < yearLength y := by
      rw [monthStart_november]
      unfold yearLength
      split_ifs <;> omega
    have hsame : y = t.year := by
      unfold Moment.seconds Moment.dayNumber at hfrom huntil
      rcases lt_trichotomy y t.year with hlt | heq | hgt
      · have hmono := yearStart_mono (Nat.succ_le_of_lt hlt)
        rw [Nat.succ_eq_add_one] at hmono
        omega
      · exact heq
      · have hmono := yearStart_mono (Nat.succ_le_of_lt hgt)
        rw [Nat.succ_eq_add_one] at hmono
        omega
    subst hsame
    rw [← h₁.unique hmarch, ← h₂.unique hnovember]
    exact ⟨hfrom, huntil⟩
  · rintro ⟨hfrom, huntil⟩
    exact ⟨t.year, _, _, ht.year, hmarch, hnovember, hfrom, huntil⟩

theorem isdst_iff (ht : t.Valid) (hhigh : t.year < 2100) :
    isdst daylight t.year t.month (t.day + 1) t.hour = true ↔
      Applies daylight t.seconds := by
  cases daylight with
  | off => simp [isdst, Applies]
  | on => simp [isdst, Applies]
  | auto =>
      rw [Applies, daylightTime_iff ht hhigh]
      obtain ⟨hmlow, hmhigh, -⟩ := marss_spec ht.year hhigh
      obtain ⟨hnlow, hnhigh, -⟩ := novfs_spec ht.year hhigh
      have hhour := ht.hour
      have hminute := ht.minute
      have hsecond := ht.second
      have hmonth := ht.month
      have hday := ht.day
      have hapril : monthStart t.year 3 = monthStart t.year 2 + 31 := by
        rw [monthStart_succ]
        rfl
      have hdecember : monthStart t.year 11 = monthStart t.year 10 + 30 := by
        rw [monthStart_succ]
        rfl
      have hspan : monthStart t.year 3 ≤ monthStart t.year 10 :=
        monthStart_mono (by omega)
      unfold isdst Moment.seconds Moment.dayNumber
      dsimp only
      by_cases hwinter : t.month = 11 ∨ t.month = 0 ∨ t.month = 1
      · rw [if_pos hwinter]
        rcases hwinter with hm | hm
        · rw [hm, hdecember]
          simp only [Bool.false_eq_true, false_iff]
          omega
        · have hearly : monthStart t.year t.month + t.day <
              monthStart t.year 2 := monthStart_add_le (by omega) hday
          simp only [Bool.false_eq_true, false_iff]
          omega
      · rw [if_neg hwinter]
        by_cases hsummer : t.month > 2 ∧ t.month < 10
        · rw [if_pos hsummer]
          have hearly : monthStart t.year t.month + t.day <
              monthStart t.year 10 := monthStart_add_le hsummer.2 hday
          have hlate : monthStart t.year 3 ≤ monthStart t.year t.month :=
            monthStart_mono hsummer.1
          simp only [true_iff]
          omega
        · rw [if_neg hsummer]
          by_cases hmarch : t.month = 2
          · rw [if_pos hmarch]
            rw [hmarch] at hday ⊢
            have hlen : t.day < 31 := hday
            simp only [gt_iff_lt, ge_iff_le, Bool.or_eq_true,
              Bool.and_eq_true, decide_eq_true_eq]
            omega
          · rw [if_neg hmarch, if_pos (by omega),
              show t.month = 10 by omega]
            simp only [gt_iff_lt, ge_iff_le, Bool.not_eq_true',
              Bool.or_eq_false_iff, Bool.and_eq_false_iff,
              decide_eq_false_iff_not]
            omega

end Law

/-! ## The text -/

/-- A number of at most two digits in two columns. -/
def two (fill : Byte) (n : ℕ) : List Byte :=
  [if n < 10 then fill else digitChar (n / 10), digitChar (n % 10)]

def four (n : ℕ) : List Byte :=
  [digitChar (n / 1000), digitChar (n / 100 % 10), digitChar (n / 10 % 10),
    digitChar (n % 10)]

/-- The text of a moment. -/
def render (t : Moment) (dst : Bool) : List Byte :=
  dt_dnam.getD (weekday t.dayNumber) [] ++ text "  " ++
    dt_mnam.getD t.month [] ++ text " " ++ two (ch ' ') (t.day + 1) ++
    text "  " ++ two (ch ' ') t.hour ++ text ":" ++ two (ch '0') t.minute ++
    text ":" ++ two (ch '0') t.second ++ text " " ++ zone dst ++ text " " ++
    four t.year

section Text

variable {n : ℕ} {str : List Byte} (cells : Cells)

/-- `%d` of `_fdoprnt`. -/
def decimal (w : Word) : List Byte := fdPrtl10 (if w.toInt < 0 then -w else w)

theorem emit_two (zero : Bool) (h : -2 ^ 31 ≤ (2 : ℤ)) (hn : n < 60) :
    (emit decimal fdPrtl10
      ⟨false, zero, ⟨2, h⟩, none, .d (BitVec.ofNat 32 n)⟩ cells).chars =
      two (if zero then ch '0' else ch ' ') n := by
  have hall : ∀ zero : Bool, ∀ n < 60,
      pad false (if zero then ch '0' else ch ' ')
        ((BitVec.ofNat 32 n).toInt < 0) (wrap 2) (wrap 0)
        (decimal (BitVec.ofNat 32 n)) =
      two (if zero then ch '0' else ch ' ') n := by
    decide
  exact hall zero n hn

theorem emit_four
    (h : -2 ^ 31 ≤ (0 : ℤ)) (hlow : 1970 ≤ n) (hhigh : n < 2100) :
    (emit decimal fdPrtl10
      ⟨false, false, ⟨0, h⟩, none, .d (BitVec.ofNat 32 n)⟩ cells).chars =
      four n := by
  have hall : ∀ k < 130,
      pad false (ch ' ') ((BitVec.ofNat 32 (1970 + k)).toInt < 0) (wrap 0)
        (wrap 0) (decimal (BitVec.ofNat 32 (1970 + k))) = four (1970 + k) := by
    decide +kernel
  obtain ⟨k, rfl⟩ := Nat.exists_eq_add_of_le hlow
  exact hall k (by omega)

theorem emit_str
    {fmin : ℤ} (h : -2 ^ 31 ≤ fmin) (hwidth : fmin = 3 ∧ str.length = 3 ∨ fmin = 0) :
    (emit decimal fdPrtl10
      ⟨false, false, ⟨fmin, h⟩, none, .s str⟩ cells).chars = str := by
  have hthree : wrap 3 = 3 := by decide
  have hnull : wrap 0 = 0 := by decide
  rcases hwidth with ⟨rfl, hlen⟩ | rfl
  · simp [emit, pad, limit, hthree, hnull, hlen, MAXSTR]
  · simp [emit, pad, limit, hnull, MAXSTR]

theorem call_format
    (dname mname z : List Byte) (day hour minute second year : ℕ) :
    call format [.str dname, .str mname, word day, word hour, word minute,
      word second, .str z, word year] =
    some [.directive ⟨false, false, ⟨3, by omega⟩, none, .s dname⟩,
      .echo (ch ' '), .echo (ch ' '),
      .directive ⟨false, false, ⟨3, by omega⟩, none, .s mname⟩,
      .echo (ch ' '),
      .directive ⟨false, false, ⟨2, by omega⟩, none, .d (.ofNat 32 day)⟩,
      .echo (ch ' '), .echo (ch ' '),
      .directive ⟨false, false, ⟨2, by omega⟩, none, .d (.ofNat 32 hour)⟩,
      .echo (ch ':'),
      .directive ⟨false, true, ⟨2, by omega⟩, none, .d (.ofNat 32 minute)⟩,
      .echo (ch ':'),
      .directive ⟨false, true, ⟨2, by omega⟩, none, .d (.ofNat 32 second)⟩,
      .echo (ch ' '),
      .directive ⟨false, false, ⟨0, by omega⟩, none, .s z⟩,
      .echo (ch ' '),
      .directive ⟨false, false, ⟨0, by omega⟩, none, .d (.ofNat 32 year)⟩] :=
  rfl

/-- The text begins with the name of the day. -/
theorem sprintf_day
    {dname : List Byte} (hlen : dname.length = 3) (mname z : List Byte)
    (day hour minute second year : ℕ) :
    ∃ rest, sprintf format [.str dname, .str mname, word day, word hour,
      word minute, word second, .str z, word year] = some (dname ++ rest) := by
  unfold sprintf
  rw [call_format, Option.map_some]
  change ∃ rest, some (List.flatMap Prod.fst (run decimal fdPrtl10 _ _)) = _
  simp only [run, List.flatMap_cons, List.flatMap_nil]
  rw [emit_str _ _ (Or.inl ⟨rfl, hlen⟩)]
  exact ⟨_, rfl⟩

theorem dnam_getElem? {n : ℕ} (hn : n < 7) :
    dt_dnam[n]? = some (dt_dnam.getD n []) ∧ (dt_dnam.getD n []).length = 3 := by
  interval_cases n <;> exact ⟨rfl, rfl⟩

theorem mnam_getElem? {n : ℕ} (hn : n < 12) :
    dt_mnam[n]? = some (dt_mnam.getD n []) ∧ (dt_mnam.getD n []).length = 3 := by
  interval_cases n <;> exact ⟨rfl, rfl⟩

theorem sprintf_render {t : Moment} (ht : t.Valid) (hhigh : t.year < 2100)
    (dst : Bool) :
    sprintf format [.str (dt_dnam.getD (weekday t.dayNumber) []),
      .str (dt_mnam.getD t.month []), word (t.day + 1), word t.hour,
      word t.minute, word t.second, .str (zone dst), word t.year] =
      some (render t dst) := by
  have hdname := (dnam_getElem? (weekday_lt t.dayNumber)).2
  have hmname := (mnam_getElem? ht.month).2
  have hlen : monthLength t.year t.month ≤ 31 := by
    have hmonth := ht.month
    unfold monthLength
    split
    · split_ifs <;> decide
    all_goals decide
  have hday := ht.day
  have hhour := ht.hour
  unfold sprintf
  rw [call_format, Option.map_some]
  change some (List.flatMap Prod.fst (run decimal fdPrtl10 _ _)) = _
  simp only [run, List.flatMap_cons, List.flatMap_nil]
  rw [emit_str _ _ (Or.inl ⟨rfl, hdname⟩), emit_str _ _ (Or.inl ⟨rfl, hmname⟩),
    emit_two _ _ _ (show t.day + 1 < 60 by omega),
    emit_two _ _ _ (show t.hour < 60 by omega), emit_two _ _ _ ht.minute,
    emit_two _ _ _ ht.second, emit_str _ _ (Or.inr rfl),
    emit_four _ _ ht.year hhigh]
  simp [render, text]

end Text

/-! ## What ascdate prints -/

/-- The text is that of a moment of the calendar, which is the given time or, if
daylight time applies, one hour later. -/
def Meets (daylight : Daylight) (now : ℕ) : Prop :=
  ∃ (t : Moment) (dst : Bool), t.Valid ∧
    (dst = true ↔ Applies daylight now) ∧
    t.seconds = now + (if dst then 3600 else 0) ∧
    ascdate daylight now = some (render t dst)

section Main

variable {t : Moment} {daylight : Daylight} {now : ℕ}

theorem finish_same
    (ht : t.Valid) (hhigh : t.year < 2100)
    (hdst : isdst daylight t.year t.month (t.day + 1) t.hour = false) :
    finish daylight t = some (render t false) := by
  unfold finish
  simp only [hdst, Bool.false_eq_true, if_false, Option.bind_some]
  rw [(dnam_getElem? (weekday_lt t.dayNumber)).1, (mnam_getElem? ht.month).1]
  exact sprintf_render ht hhigh false

/-- Before 23:00 the day is still the same an hour later. -/
theorem finish_ahead
    (ht : t.Valid) (hhigh : t.year < 2100) (hhour : t.hour < 23)
    (hdst : isdst daylight t.year t.month (t.day + 1) t.hour = true) :
    finish daylight t = some (render { t with hour := t.hour + 1 } true) := by
  have ht' : Moment.Valid { t with hour := t.hour + 1 } :=
    ⟨ht.year, ht.month, ht.day, Nat.succ_lt_succ hhour, ht.minute, ht.second⟩
  have hmoved : ahead t.month (t.day + 1) t.hour =
      some (t.month, t.day + 1, t.hour + 1) := by
    unfold ahead
    dsimp only
    rw [if_neg (by omega)]
  unfold finish
  simp only [hdst, if_true, hmoved, Option.bind_some]
  rw [(dnam_getElem? (weekday_lt t.dayNumber)).1, (mnam_getElem? ht.month).1]
  exact sprintf_render ht' hhigh true

theorem dnam_inj {i j : ℕ} (hi : i < 7) (hj : j < 7)
    (heq : dt_dnam.getD i [] = dt_dnam.getD j []) : i = j := by
  have hall : ∀ i < 7, ∀ j < 7,
      dt_dnam.getD i [] = dt_dnam.getD j [] → i = j := by
    decide
  exact hall i hi j hj heq

/-- At 23:00 or later the weekday that is printed is that of the day before. -/
theorem finish_late
    {t' : Moment} {dst : Bool} (ht : t.Valid) (ht' : t'.Valid)
    (hhour : t.hour = 23) (hlater : t'.seconds = t.seconds + 3600)
    (hdst : isdst daylight t.year t.month (t.day + 1) t.hour = true) :
    finish daylight t ≠ some (render t' dst) := by
  have hnext : t'.dayNumber = t.dayNumber + 1 := by
    have hday := ht.dayNumber_eq
    have hday' := ht'.dayNumber_eq
    have hminute := ht.minute
    have hsecond := ht.second
    rw [hlater] at hday'
    unfold Moment.seconds at hday hday'
    omega
  have hweek := dnam_getElem? (weekday_lt t.dayNumber)
  have hweek' := dnam_getElem? (weekday_lt t'.dayNumber)
  intro htext
  unfold finish at htext
  simp only [hdst, if_true, Option.bind_eq_some_iff] at htext
  obtain ⟨⟨month, day, hour⟩, -, dname, hdname, mname, -, htext⟩ := htext
  rw [hweek.1, Option.some.injEq] at hdname
  subst hdname
  obtain ⟨rest, hrest⟩ := sprintf_day hweek.2 mname (zone true) day hour
    t.minute t.second t.year
  rw [hrest, Option.some.injEq] at htext
  have hfirst := congrArg (List.take 3) htext
  rw [List.take_left' hweek.2] at hfirst
  have hfirst' : (render t' dst).take 3 =
      dt_dnam.getD (weekday t'.dayNumber) [] := by
    unfold render
    simp only [List.append_assoc]
    exact List.take_left' hweek'.2
  rw [hfirst'] at hfirst
  have hsame := dnam_inj (weekday_lt _) (weekday_lt _) hfirst
  rw [hnext] at hsame
  unfold weekday at hsame
  omega

theorem late_not_meets
    (hnow : now < 4102444800) (happlies : Applies daylight now)
    (hhour : now % 86400 / 3600 = 23) : ¬ Meets daylight now := by
  rintro ⟨t', dst, ht', hdst, hlater, htext⟩
  obtain ⟨t, ht, hhigh, rfl, hfinish⟩ := ascdate_eq hnow
  rw [hdst.mpr happlies, if_pos rfl] at hlater
  rw [hfinish] at htext
  refine finish_late ht ht' ?_ hlater ((isdst_iff ht hhigh).mpr happlies) htext
  have hlast := ht.hour
  have hminute := ht.minute
  have hsecond := ht.second
  unfold Moment.seconds at hhour
  omega

/-- The text is right unless the hour that is added begins the next day. -/
theorem meets_iff (daylight : Daylight) (now : ℕ) (hnow : now < 4102444800) :
    Meets daylight now ↔
      ¬ (Applies daylight now ∧ now % 86400 / 3600 = 23) := by
  constructor
  · intro hmeets hlate
    exact late_not_meets hnow hlate.1 hlate.2 hmeets
  · intro hok
    obtain ⟨t, ht, hhigh, hseconds, hfinish⟩ := ascdate_eq hnow
    have hiff : isdst daylight t.year t.month (t.day + 1) t.hour = true ↔
        Applies daylight t.seconds := isdst_iff ht hhigh
    rw [hseconds] at hiff
    cases hdst : isdst daylight t.year t.month (t.day + 1) t.hour with
    | false =>
        rw [hdst] at hiff
        refine ⟨t, false, ht, hiff, hseconds, ?_⟩
        rw [hfinish]
        exact finish_same ht hhigh hdst
    | true =>
        have happlies := hiff.mp hdst
        have hhour : t.hour < 23 := by
          have hlast := ht.hour
          have hminute := ht.minute
          have hsecond := ht.second
          have hnot : now % 86400 / 3600 ≠ 23 := fun h => hok ⟨happlies, h⟩
          rw [← hseconds] at hnot
          unfold Moment.seconds at hnot
          omega
        refine ⟨{ t with hour := t.hour + 1 }, true,
          ⟨ht.year, ht.month, ht.day, Nat.succ_lt_succ hhour, ht.minute,
            ht.second⟩, iff_of_true rfl happlies, ?_, ?_⟩
        · rw [← hseconds]
          unfold Moment.seconds Moment.dayNumber
          simp only [if_true]
          omega
        · rw [hfinish]
          exact finish_ahead ht hhigh hhour hdst

end Main

/-- An evening in November, and the last hour of the first day with daylight
time forced on. -/
theorem meets_iff_evening :
    Meets .auto 1700000000 ∧ ¬ Meets .on 82800 := by
  constructor
  · rw [meets_iff .auto 1700000000 (by decide)]
    rintro ⟨-, hhour⟩
    exact absurd hhour (by decide)
  · rw [meets_iff .on 82800 (by decide), not_not]
    exact ⟨trivial, by decide⟩

theorem july_daylight : DaylightTime 1688513400 :=
  ⟨2023, 19428, 19666, by decide,
    ⟨by decide, by decide, by decide⟩,
    ⟨by decide, by decide, by decide⟩, by decide, by decide⟩

/-- On July 4, 2023 at 23:30 standard time the text is a Tuesday, July 5. -/
theorem weekday_not_moved :
    ¬ ∀ daylight now, now < 4102444800 → Meets daylight now := by
  intro hall
  exact late_not_meets (by decide)
    (show Applies .auto 1688513400 from july_daylight) (by decide)
    (hall .auto 1688513400 (by decide))

end Xinu.AscDate
