import Mathlib.Algebra.BigOperators.Group.Finset.Basic

/-!
The proleptic Gregorian calendar from year 0 on. A date has the number of its
day, and a moment the number of its second. Both numberings count segments of
uneven lengths, so that a number has one date, and one moment, at most.
-/

namespace AelfApp.Calendar

section Segments

/-- Where a segment begins, in a row of segments of those lengths. -/
def segmentStart (length : Nat → Nat) (index : Nat) : Nat := ∑ i ∈ Finset.range index, length i

theorem segmentStart_succ (length : Nat → Nat) (index : Nat) :
    segmentStart length (index + 1) = segmentStart length index + length index :=
  Finset.sum_range_succ length index

theorem segmentStart_mono (length : Nat → Nat) {m n : Nat} (h : m ≤ n) :
    segmentStart length m ≤ segmentStart length n := by
  induction h with
  | refl => exact Nat.le_refl _
  | step _ ih =>
      rw [segmentStart_succ]
      omega

/-- A place in a segment is before the beginning of every later one, and of no
other. -/
theorem segment_lt_iff {length : Nat → Nat} {m r : Nat} (n : Nat) (hr : r < length m) :
    segmentStart length m + r < segmentStart length n ↔ m < n := by
  constructor
  · intro h
    by_contra hle
    have hstart := segmentStart_mono length (Nat.le_of_not_lt hle)
    omega
  · intro h
    have hend : segmentStart length (m + 1) ≤ segmentStart length n := segmentStart_mono length h
    rw [segmentStart_succ] at hend
    omega

/-- A place in a row of segments is in one of them only. -/
theorem segment_unique {length : Nat → Nat} {m n r s : Nat} (hr : r < length m)
    (hs : s < length n) (h : segmentStart length m + r = segmentStart length n + s) :
    m = n ∧ r = s := by
  have hm := segment_lt_iff n hr
  have hn := segment_lt_iff m hs
  have hindex : m = n := by omega
  rw [hindex] at h
  exact ⟨hindex, by omega⟩

end Segments

section Dates

def IsLeapYear (year : Nat) : Prop := year % 4 = 0 ∧ (year % 100 ≠ 0 ∨ year % 400 = 0)

instance (year : Nat) : Decidable (IsLeapYear year) :=
  inferInstanceAs (Decidable (_ ∧ (_ ∨ _)))

def yearLength (year : Nat) : Nat := if IsLeapYear year then 366 else 365

/-- The days of a month. Months are numbered from one, and there are twelve. -/
def monthLength (year : Nat) : Nat → Nat
  | 2 => if IsLeapYear year then 29 else 28
  | 4 | 6 | 9 | 11 => 30
  | 1 | 3 | 5 | 7 | 8 | 10 | 12 => 31
  | _ => 0

@[ext]
structure Date where
  year : Nat
  month : Nat
  day : Nat
  day_pos : 1 ≤ day
  day_le : day ≤ monthLength year month

/-- The number of a day, where 0000-01-01 has number 0. -/
def Date.dayNumber (date : Date) : Nat :=
  segmentStart yearLength date.year +
    (segmentStart (monthLength date.year) date.month + (date.day - 1))

theorem months_length (year : Nat) : segmentStart (monthLength year) 13 = yearLength year := by
  simp only [segmentStart, Finset.sum_range_succ, Finset.sum_range_zero, monthLength, yearLength]
  split <;> rfl

theorem monthLength_le (year month : Nat) : monthLength year month ≤ 31 := by
  unfold monthLength
  split
  · split
    all_goals omega
  all_goals omega

theorem Date.day_le_31 (date : Date) : date.day ≤ 31 :=
  Nat.le_trans date.day_le (monthLength_le date.year date.month)

theorem Date.month_le (date : Date) : date.month ≤ 12 := by
  have hpos := Nat.le_trans date.day_pos date.day_le
  by_contra hmonth
  rw [monthLength] at hpos
  · omega
  all_goals omega

theorem Date.dayOfYear_lt (date : Date) :
    segmentStart (monthLength date.year) date.month + (date.day - 1) < yearLength date.year := by
  have hpos := date.day_pos
  have hle := date.day_le
  have hnext := segmentStart_succ (monthLength date.year) date.month
  have hyear : segmentStart (monthLength date.year) (date.month + 1) ≤ yearLength date.year := by
    rw [← months_length]
    exact segmentStart_mono _ (Nat.succ_le_succ date.month_le)
  omega

/-- A day has one date. -/
theorem Date.dayNumber_injective {a b : Date} (h : a.dayNumber = b.dayNumber) : a = b := by
  have ha := a.day_pos
  have hb := b.day_pos
  have hale := a.day_le
  have hble := b.day_le
  obtain ⟨hyear, hday⟩ := segment_unique a.dayOfYear_lt b.dayOfYear_lt h
  rw [← hyear] at hday hble
  obtain ⟨hmonth, hrest⟩ := segment_unique (by omega) (by omega) hday
  exact Date.ext hyear hmonth (by omega)

theorem Date.year_lt_iff (date : Date) (year : Nat) :
    date.year < year ↔ date.dayNumber < segmentStart yearLength year :=
  (segment_lt_iff year date.dayOfYear_lt).symm

/-- The days before a year that is not the first. -/
theorem daysBeforeYear_succ (year : Nat) :
    segmentStart yearLength (year + 1) = 365 * year + year / 4 - year / 100 + year / 400 + 366 := by
  induction year with
  | zero => rfl
  | succ year ih =>
      rw [segmentStart_succ, ih, yearLength]
      by_cases hleap : IsLeapYear (year + 1)
      · rw [if_pos hleap]
        obtain ⟨hfour, hcentury⟩ := hleap
        omega
      · rw [if_neg hleap]
        rw [IsLeapYear, not_and_or, not_or, not_not] at hleap
        omega

/-- The number of a day from the days of the years before and of the months
before. -/
theorem Date.dayNumber_eq (date : Date) {year months : Nat} (hyear : date.year = year + 1)
    (hmonths : segmentStart (monthLength date.year) date.month = months) :
    date.dayNumber = 365 * year + year / 4 - year / 100 + year / 400 + 366 +
      (months + (date.day - 1)) := by
  rw [Date.dayNumber, hmonths, hyear, daysBeforeYear_succ]

end Dates

/-!
Years that begin in March end with their leap day. The year of a day is found
by two divisions: one by the mean length of a century, and one by that of a year
in a calendar where every fourth year is a leap year.
-/

section MarchYears

/-- Where every fourth year is a leap year, the days of a year are numbered from
one to 366 at most. -/
theorem julianDay_bounds {u y : Nat} (hy : y = (100 * u - 25) / 36525) :
    (1 ≤ u → 1461 * y / 4 < u) ∧ u ≤ 1461 * y / 4 + 366 := by
  omega

theorem marchYear_century {z a y : Nat} (ha : a = (100 * z - 25) / 3652425)
    (hy : y = (100 * (a - a / 4) + (100 * z - 25)) / 36525) : y / 100 = a := by
  omega

/-- The day with that number, counted from the leap day of year 0 on, is in the
year that the divisions find. It is the 366th of that year only if the year
after it, to which the leap day belongs, is a leap year. -/
theorem marchYear_day {z a y d : Nat} (hz : 1 ≤ z) (ha : a = (100 * z - 25) / 3652425)
    (hy : y = (100 * (a - a / 4) + (100 * z - 25)) / 36525)
    (hd : d + 1461 * y / 4 = a - a / 4 + z) :
    1 ≤ d ∧ d ≤ 366 ∧ (d = 366 → IsLeapYear (y + 1)) ∧
      z + y / 100 = 365 * y + y / 4 + y / 400 + d := by
  have hcentury := marchYear_century ha hy
  have hquarter : 1461 * y / 4 = 365 * y + y / 4 := by omega
  have hfourth : y / 400 = a / 4 := by rw [← hcentury, Nat.div_div_eq_div_mul]
  obtain ⟨hlow, hhigh⟩ := julianDay_bounds (u := a - a / 4 + z) (y := y) (by omega)
  refine ⟨by omega, by omega, fun hlast => ?_, by omega⟩
  -- Both divisions leave the largest remainder on a 366th day.
  have hyear : y % 4 = 3 := by omega
  have hlastYear : y % 100 = 99 → a % 4 = 3 := by omega
  rw [IsLeapYear]
  omega

end MarchYears

section Moments

/-- A second of a day. -/
@[ext]
structure Moment where
  date : Date
  hour : Nat
  minute : Nat
  second : Nat
  hour_lt : hour < 24
  minute_lt : minute < 60
  second_lt : second < 60

/-- The seconds from the beginning of a day to a moment, before it or behind. -/
def Moment.secondsSince (epoch : Date) (moment : Moment) : Int :=
  ((moment.date.dayNumber : Int) - epoch.dayNumber) * 86400 + moment.hour * 3600 +
    moment.minute * 60 + moment.second

/-- A second has one moment. -/
theorem Moment.secondsSince_injective {epoch : Date} {a b : Moment}
    (h : a.secondsSince epoch = b.secondsSince epoch) : a = b := by
  have ha := a.hour_lt
  have hb := b.hour_lt
  have haminute := a.minute_lt
  have hbminute := b.minute_lt
  have hasecond := a.second_lt
  have hbsecond := b.second_lt
  rw [secondsSince, secondsSince] at h
  have hdate : a.date = b.date := Date.dayNumber_injective (by omega)
  rw [hdate] at h
  exact Moment.ext hdate (by omega) (by omega) (by omega)

/-- The moment of a date at a second of its day. -/
def Date.momentAt (date : Date) (second : Nat) (h : second < 86400) : Moment where
  date := date
  hour := second / 3600
  minute := second / 60 % 60
  second := second % 60
  hour_lt := by omega
  minute_lt := by omega
  second_lt := by omega

theorem Date.secondsSince_momentAt (epoch date : Date) {second : Nat} (h : second < 86400) :
    (date.momentAt second h).secondsSince epoch =
      ((date.dayNumber : Int) - epoch.dayNumber) * 86400 + second := by
  simp only [Moment.secondsSince, momentAt]
  omega

end Moments

end AelfApp.Calendar
