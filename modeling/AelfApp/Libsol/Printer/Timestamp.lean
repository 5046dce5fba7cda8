import AelfApp.Lib.Calendar
import AelfApp.Libsol.Printer.Capacity

/-!
Timestamps (`rfc3339.c`). The day number is narrowed to 32 bits, and year, month
and day come out of scaled multiplications, which are exact over the ten
millennia that have a text. Of the days outside, those whose number narrows to
one in that range, or to one close before it, are printed too.
-/

namespace AelfApp.Libsol

open Memory Numeral Calendar

section Texts

/-- A number with so many digits. -/
def fixedNumeral (count n : Nat) : List UInt8 := (lowDigits count n).reverse.map digitChar

/-- `YYYY-MM-DD hh:mm:ss` -/
def momentText (moment : Moment) : List UInt8 :=
  fixedNumeral 4 moment.date.year ++ charMinus :: fixedNumeral 2 moment.date.month ++
    charMinus :: fixedNumeral 2 moment.date.day ++ charSpace :: fixedNumeral 2 moment.hour ++
    charColon :: fixedNumeral 2 moment.minute ++ charColon :: fixedNumeral 2 moment.second

theorem fixedNumeral_two (n : Nat) :
    fixedNumeral 2 n = [digitChar (n / 10 % 10), digitChar (n % 10)] := rfl

theorem fixedNumeral_four (n : Nat) :
    fixedNumeral 4 n = [digitChar (n / 1000 % 10), digitChar (n / 100 % 10),
      digitChar (n / 10 % 10), digitChar (n % 10)] := by
  have hhundreds : n / 10 / 10 = n / 100 := Nat.div_div_eq_div_mul n 10 10
  have hthousands : n / 100 / 10 = n / 1000 := Nat.div_div_eq_div_mul n 100 10
  simp only [fixedNumeral, lowDigits, hhundreds, hthousands]
  rfl

theorem rfc3339Text_eq (date : Date) {y m d : UInt16} {v : UInt32} (hyear : y.toNat = date.year)
    (hmonth : m.toNat = date.month) (hday : d.toNat = date.day) (hv : v.toNat < 86400) :
    rfc3339Text y m d v = momentText (date.momentAt v.toNat hv) := by
  have hhour : v.toNat / 10 / 6 / 10 / 6 = v.toNat / 3600 := by omega
  have hminute : v.toNat / 10 / 6 % 10 = v.toNat / 60 % 60 % 10 := by omega
  have hminutes : v.toNat / 10 / 6 / 10 % 6 = v.toNat / 60 % 60 / 10 % 10 := by omega
  have hsecond : v.toNat / 10 % 6 = v.toNat % 60 / 10 % 10 := by omega
  have hseconds : v.toNat % 10 = v.toNat % 60 % 10 := by omega
  simp only [momentText, Date.momentAt, fixedNumeral_two, fixedNumeral_four, ← hyear, ← hmonth,
    ← hday, ← hhour, ← hminute, ← hminutes, ← hsecond, ← hseconds]
  rfl

theorem digitChar_mod_ne_nul (n : Nat) : digitChar (n % 10) ≠ 0 :=
  digitChar_ne_nul (Nat.mod_lt _ (by omega))

theorem momentText_noNul (moment : Moment) : ∀ c ∈ momentText moment, c ≠ 0 := by
  have hminus : charMinus ≠ 0 := by decide
  have hspace : charSpace ≠ 0 := by decide
  have hcolon : charColon ≠ 0 := by decide
  simp [momentText, fixedNumeral_two, fixedNumeral_four, digitChar_mod_ne_nul, hminus, hspace,
    hcolon]

theorem momentText_length (moment : Moment) : (momentText moment).length = 19 := by
  simp [momentText, fixedNumeral_two, fixedNumeral_four]

end Texts

section Outcome

/-- What the timestamp printer does with a buffer of that size. -/
def timestampOutcome (timestamp : UInt64) (len : Nat) : Checked (Nat × List UInt8) :=
  if 19 ≥ len then .ok (1, [])
  else do
    let sec ← addInt64 timestamp epoch
    match rdnToYmd (sec / 86400).toUInt32 with
    | none => .ok (1, [])
    | some (y, m, d) => .ok (0, cString (rfc3339Text y m d (sec % 86400).toUInt32))

theorem printTimestamp_prints (timestamp : UInt64) (len : Nat) :
    Prints len (fun out => printTimestamp timestamp out len) (timestampOutcome timestamp len) := by
  intro out hout
  simp only [printTimestamp, rfc3339Format, timestampOutcome]
  by_cases hshort : 19 ≥ len
  · simp only [hshort, ↓reduceIte, pure_eq_ok]
    exact ⟨out, rfl, by simp⟩
  simp only [hshort, ↓reduceIte]
  cases addInt64 timestamp epoch with
  | error e => exact rfl
  | ok sec =>
      rw [ok_bind, ok_bind]
      generalize rdnToYmd (sec / 86400).toUInt32 = ymd
      generalize (sec % 86400).toUInt32 = v
      cases ymd with
      | none => exact ⟨out, rfl, by simp⟩
      | some ymd =>
          obtain ⟨y, m, d⟩ := ymd
          have hlength : (rfc3339Text y m d v).length = 19 := rfl
          have hwrite := writeBytes_drop [] out (rfc3339Text y m d v) (k := 0) (by omega)
          have hnul := writeAt_drop (rfc3339Text y m d v) out 0 (k := 19) (by omega)
          simp only [List.drop_zero, List.nil_append, List.length_nil, Int.natCast_zero,
            Nat.zero_add, hlength] at hwrite hnul
          simp only [hwrite, hnul, ok_bind, pure_eq_ok]
          refine ⟨_, rfl, fun _ => ?_⟩
          rw [List.append_assoc, List.singleton_append, cString_append_self]

end Outcome

section Months

theorem dayOffset_lt {month : Nat} (h : month ≤ 12) : (dayOffset.getD month 0).toNat < 338 := by
  interval_cases month
  all_goals decide

/-- The offsets count the days of a year from its March on. -/
theorem dayOffset_eq (year : Nat) {month : Nat} (hlow : 1 ≤ month) (hhigh : month ≤ 12) :
    segmentStart (monthLength year) month + 306 =
      (if month ≤ 2 then 0 else yearLength year) + (dayOffset.getD month 0).toNat := by
  have hleap : monthLength year 2 + 337 = yearLength year := by
    simp only [monthLength, yearLength]
    split <;> rfl
  interval_cases month
  all_goals
    simp only [segmentStart, Finset.sum_range_succ, Finset.sum_range_zero, ← hleap]
    simp +arith [monthLength, dayOffset]

/-- January and February close the year that began in the March before. -/
def carryYear (y m : Nat) : Nat := if m > 12 then y + 1 else y

def carryMonth (m : Nat) : Nat := if m > 12 then m - 12 else m

/-- The month found by one multiplication is the one whose days the day is among. -/
theorem marchDay_month {y d m : Nat} (hlow : 1 ≤ d) (hhigh : d ≤ 366)
    (hleap : d = 366 → IsLeapYear (y + 1)) (hm : m = (535 * d + 48950) / 16384) :
    3 ≤ m ∧ m ≤ 14 ∧ (dayOffset.getD (carryMonth m) 0).toNat < d ∧
      d ≤ (dayOffset.getD (carryMonth m) 0).toNat + monthLength (carryYear y m) (carryMonth m) := by
  have hbegin : 16384 * m ≤ 535 * d + 48950 := by omega
  have hend : 535 * d + 48950 < 16384 * (m + 1) := by omega
  have hfebruary : d ≤ 337 + monthLength (y + 1) 2 := by
    rw [monthLength]
    split
    · omega
    · rename_i hcommon
      have hlast := mt hleap hcommon
      omega
  have hfirst : 3 ≤ m := by omega
  have hlast : m ≤ 14 := by omega
  refine ⟨hfirst, hlast, ?_⟩
  clear hm hleap
  interval_cases m
  case «14» =>
      have hoffset : (dayOffset.getD (carryMonth 14) 0).toNat = 337 := rfl
      rw [hoffset]
      exact ⟨by omega, hfebruary⟩
  all_goals
    simp [carryMonth, dayOffset, monthLength]
    omega

/-- The date of the day with that number in a year that begins in March. -/
theorem marchDay_date {y d m : Nat} (hlow : 1 ≤ d) (hhigh : d ≤ 366)
    (hleap : d = 366 → IsLeapYear (y + 1)) (hm : m = (535 * d + 48950) / 16384) :
    ∃ date : Date, date.year = carryYear y m ∧ date.month = carryMonth m ∧
      d = date.day + (dayOffset.getD date.month 0).toNat ∧
      date.dayNumber + y / 100 = 365 * y + y / 4 + y / 400 + d + 59 := by
  obtain ⟨hfirst, hlast, hbegin, hend⟩ := marchDay_month hlow hhigh hleap hm
  refine ⟨⟨carryYear y m, carryMonth m, d - (dayOffset.getD (carryMonth m) 0).toNat, by omega,
    by omega⟩, rfl, rfl, (Nat.sub_add_cancel (Nat.le_of_lt hbegin)).symm, ?_⟩
  have hdays := daysBeforeYear_succ y
  simp only [Date.dayNumber]
  by_cases hcarry : m > 12
  · simp only [carryYear, carryMonth, hcarry, ↓reduceIte] at hbegin ⊢
    have hoffset := dayOffset_eq (y + 1) (show 1 ≤ m - 12 by omega) (by omega)
    rw [if_pos (by omega)] at hoffset
    omega
  · simp only [carryYear, carryMonth, hcarry, ↓reduceIte] at hbegin ⊢
    have hoffset := dayOffset_eq y (show 1 ≤ m by omega) (by omega)
    rw [if_neg (by omega)] at hoffset
    rw [segmentStart_succ] at hdays
    omega

end Months

section Narrowing

/-- Year and day of `rdn_to_ymd`, where years begin in March. -/
def marchYearDay (z : UInt32) : UInt32 × UInt32 :=
  let h := 100 * z - 25
  let a := h / 3652425
  let b := a - a >>> 2
  let y := (100 * b + h) / 36525
  (y, b + z - (1461 * y) >>> 2)

def marchMonth (d : UInt32) : UInt32 := (535 * d + 48950) >>> 14

/-- The check of `rdn_to_ymd`, and what it hands over. -/
def checkedDate (y d m : UInt32) : Option (UInt16 × UInt16 × UInt16) :=
  if y > 9999 ∨ m > 12 ∨ d > 31 + dayOffset.getD m.toNat 0 then none
  else some (y.toUInt16, m.toUInt16, (d - dayOffset.getD m.toNat 0).toUInt16)

theorem rdnToYmd_eq (rdn : UInt32) : rdnToYmd rdn =
    if marchMonth (marchYearDay (rdn + 306)).2 > 12 then
      checkedDate ((marchYearDay (rdn + 306)).1 + 1) (marchYearDay (rdn + 306)).2
        (marchMonth (marchYearDay (rdn + 306)).2 - 12)
    else
      checkedDate (marchYearDay (rdn + 306)).1 (marchYearDay (rdn + 306)).2
        (marchMonth (marchYearDay (rdn + 306)).2) := by
  -- Unfolded in front of its argument: in a call, checking the unfolding
  -- would evaluate the condition of the carry.
  have hbody : rdnToYmd = rdnToYmd := rfl
  conv_rhs at hbody => delta rdnToYmd
  rw [hbody]
  beta_reduce
  by_cases hcarry : marchMonth (marchYearDay (rdn + 306)).2 > 12
  · rw [if_pos hcarry]
    simp only [marchMonth, marchYearDay] at hcarry
    conv_lhs => zeta
    rw [if_pos hcarry]
    rfl
  · rw [if_neg hcarry]
    simp only [marchMonth, marchYearDay] at hcarry
    conv_lhs => zeta
    rw [if_neg hcarry]
    rfl

/-- The steps of `rdn_to_ymd`, where each result is cut to 32 bits. -/
structure MarchSteps (z h a y d : Nat) : Prop where
  h_eq : h = (100 * z + (2 ^ 32 - 25)) % 2 ^ 32
  a_eq : a = h / 3652425
  y_eq : y = (100 * (a - a / 4) + h) % 2 ^ 32 / 36525
  d_eq : d = (a - a / 4 + z + (2 ^ 32 - 1461 * y / 4)) % 2 ^ 32

theorem marchYearDay_steps (z : UInt32) :
    ∃ h a, MarchSteps z.toNat h a (marchYearDay z).1.toNat (marchYearDay z).2.toNat := by
  let h := 100 * z - 25
  let a := h / 3652425
  let b := a - a >>> 2
  let y := (100 * b + h) / 36525
  have hlt := h.toNat_lt
  have hh : h.toNat = (100 * z.toNat + (2 ^ 32 - 25)) % 2 ^ 32 := by
    simp only [h, UInt32.toNat_sub, UInt32.toNat_mul, UInt32.reduceToNat]
    omega
  have ha : a.toNat = h.toNat / 3652425 := by
    simp only [a, UInt32.toNat_div, UInt32.reduceToNat]
  have hb : b.toNat = a.toNat - a.toNat / 4 := by
    simp only [b, UInt32.toNat_sub, UInt32.toNat_shiftRight, UInt32.reduceToNat, Nat.reduceMod,
      Nat.shiftRight_eq_div_pow]
    omega
  have hy : y.toNat = (100 * b.toNat + h.toNat) % 2 ^ 32 / 36525 := by
    simp only [y, UInt32.toNat_div, UInt32.toNat_add, UInt32.toNat_mul, UInt32.reduceToNat]
    omega
  have hquarter : ((1461 * y) >>> 2).toNat = 1461 * y.toNat / 4 := by
    have hsmall : y.toNat ≤ 117590 := by omega
    simp only [UInt32.toNat_mul, UInt32.toNat_shiftRight, UInt32.reduceToNat, Nat.reduceMod,
      Nat.shiftRight_eq_div_pow]
    omega
  have hd : (b + z - (1461 * y) >>> 2).toNat =
      (b.toNat + z.toNat + (2 ^ 32 - 1461 * y.toNat / 4)) % 2 ^ 32 := by
    rw [UInt32.toNat_sub, UInt32.toNat_add, hquarter, Nat.add_mod_mod, Nat.add_comm]
  rw [hb] at hy hd
  exact ⟨h.toNat, a.toNat, hh, ha, hy, hd⟩

section Steps

variable {z h a y d : Nat}

theorem MarchSteps.day (hsteps : MarchSteps z h a y d) (hz : z < 2 ^ 32) :
    d < 2 ^ 32 ∧ (d + 1461 * y / 4 = a - a / 4 + z ∨
      d + 1461 * y / 4 = a - a / 4 + z + 2 ^ 32 ∨ d + 1461 * y / 4 + 2 ^ 32 = a - a / 4 + z) := by
  obtain ⟨hh, ha, hy, hd⟩ := hsteps
  have hquarter : 1461 * y / 4 ≤ 2 ^ 32 := by omega
  generalize 1461 * y / 4 = q at hd hquarter ⊢
  clear hy
  omega

theorem MarchSteps.year (hsteps : MarchSteps z h a y d) :
    100 * (a - a / 4) + h < 2 ^ 32 ∧ y = (100 * (a - a / 4) + h) / 36525 ∨
      a = 1175 ∧ 2 ^ 32 ≤ 88200 + h ∧ y = (88200 + h - 2 ^ 32) / 36525 := by
  have hlt : h < 2 ^ 32 := by
    rw [hsteps.h_eq]
    exact Nat.mod_lt _ (by omega)
  have ha := hsteps.a_eq
  have hy := hsteps.y_eq
  by_cases hroom : 100 * (a - a / 4) + h < 2 ^ 32
  · rw [Nat.mod_eq_of_lt hroom] at hy
    exact .inl ⟨hroom, hy⟩
  · have hcentury : a = 1175 := by
      clear hy
      omega
    rw [hcentury] at hy hroom
    rw [Nat.mod_eq_sub_mod (by omega), Nat.mod_eq_of_lt (by omega)] at hy
    exact .inr ⟨hcentury, by omega, hy⟩

/-- Over the ten millennia, no result is cut. -/
theorem MarchSteps.exact (hsteps : MarchSteps z h a y d) (hlow : 1 ≤ z) (hhigh : z ≤ 3652502) :
    a = (100 * z - 25) / 3652425 ∧ y = (100 * (a - a / 4) + (100 * z - 25)) / 36525 ∧
      d + 1461 * y / 4 = a - a / 4 + z := by
  have hh : h = 100 * z - 25 := by
    have hh := hsteps.h_eq
    omega
  have ha := hsteps.a_eq
  rw [hh] at ha
  have hyear : y = (100 * (a - a / 4) + (100 * z - 25)) / 36525 := by
    have hyear := hsteps.year
    rw [hh] at hyear
    omega
  have hday := hsteps.day (by omega)
  have hbounds := julianDay_bounds (u := a - a / 4 + z) (y := y) (by omega)
  refine ⟨ha, hyear, ?_⟩
  clear hyear
  omega

/-- Just below zero, the results are cut to those of a day of the first years. -/
theorem MarchSteps.wrapped (hsteps : MarchSteps z h a y d) (hz : z < 2 ^ 32)
    (hwrap : z = 0 ∨ 2 ^ 32 - 881 ≤ z) : 1 ≤ d ∧ d ≤ 365 ∧ y ≤ 2 := by
  obtain ⟨u, hlow, hhigh, hu⟩ : ∃ u, 1 ≤ u ∧ u ≤ 882 ∧
      (z + 882 = u + 2 ^ 32 ∨ z = 0 ∧ u = 882) := ⟨(z + 882) % 2 ^ 32, by omega⟩
  have hh : h + 88225 = 100 * u + 2 ^ 32 := by
    have hh := hsteps.h_eq
    omega
  have hcentury : a = 1175 := by
    have ha := hsteps.a_eq
    omega
  have hday := hsteps.day hz
  have hyear := hsteps.year
  rw [hcentury] at hyear hday
  have hy : y = (100 * u - 25) / 36525 := by
    clear hday
    omega
  have hthree : y = 0 ∨ y = 1 ∨ y = 2 := by
    clear hday hyear
    omega
  clear hyear
  rcases hthree with rfl | rfl | rfl
  all_goals omega

/-- Everywhere else, the year or the day is out of range. -/
theorem MarchSteps.inside (hsteps : MarchSteps z h a y d) (hz : z < 2 ^ 32) (hy : y ≤ 9999)
    (hd : d ≤ 368) : z ≤ 3652502 ∨ 2 ^ 32 - 881 ≤ z := by
  have hday := hsteps.day hz
  rcases hsteps.year with ⟨hroom, hyear⟩ | ⟨hcentury, hroom, hyear⟩
  · have hlow : h < 365250000 := by omega
    have hcentury : a ≤ 100 := by
      have ha := hsteps.a_eq
      omega
    clear hyear
    omega
  · have hfirst : y ≤ 2 := by
      have hh := hsteps.h_eq
      clear hday
      omega
    rw [hcentury] at hday
    have hnot : z ≠ 2 ^ 32 - 882 := by
      have hh := hsteps.h_eq
      omega
    clear hyear hroom
    omega

end Steps

/-- The years of four digits are the ten millennia. -/
theorem year_le_iff (date : Date) : date.year ≤ 9999 ↔ date.dayNumber < 3652425 := by
  have hlt := date.year_lt_iff 10000
  rw [daysBeforeYear_succ 9999] at hlt
  omega

/-- A date as it is handed over, if it has a text. -/
def handedDate (date : Date) : Option (UInt16 × UInt16 × UInt16) :=
  if 9999 < date.year then none
  else some (UInt16.ofNat date.year, UInt16.ofNat date.month, UInt16.ofNat date.day)

theorem checkedDate_eq {y d m : UInt32} (date : Date) (hyear : y.toNat = date.year)
    (hmonth : m.toNat = date.month)
    (hday : d.toNat = date.day + (dayOffset.getD date.month 0).toNat) :
    checkedDate y d m = handedDate date := by
  have hmonths := date.month_le
  have hdays := date.day_le_31
  have hoffset := dayOffset_lt hmonths
  rw [← hmonth] at hday hoffset hmonths
  have hmax : (31 + dayOffset.getD m.toNat 0).toNat = 31 + (dayOffset.getD m.toNat 0).toNat := by
    simp only [UInt32.toNat_add, UInt32.reduceToNat]
    omega
  have hrest : (d - dayOffset.getD m.toNat 0).toNat = date.day := by
    rw [UInt32.toNat_sub_of_le _ _ (UInt32.le_iff_toNat_le.mpr (by omega))]
    omega
  simp only [checkedDate, handedDate, gt_iff_lt, UInt32.lt_iff_toNat_lt, hmax, UInt32.reduceToNat,
    hyear]
  by_cases hlong : 9999 < date.year
  · rw [if_pos (.inl hlong), if_pos hlong]
  · have hcheck : ¬ (9999 < date.year ∨ 12 < m.toNat ∨
        31 + (dayOffset.getD m.toNat 0).toNat < d.toNat) := by omega
    rw [if_neg hcheck, if_neg hlong, ← hyear, ← hmonth, ← hrest]
    simp only [UInt16.ofNat_uInt32ToNat]

theorem checkedDate_some {y d m : UInt32} (h : checkedDate y d m ≠ none) :
    y.toNat ≤ 9999 ∧ d.toNat ≤ 368 := by
  have hnot : ¬ (y > 9999 ∨ m > 12 ∨ d > 31 + dayOffset.getD m.toNat 0) := by
    intro hcheck
    rw [checkedDate, if_pos hcheck] at h
    exact h rfl
  simp only [gt_iff_lt, UInt32.lt_iff_toNat_lt, UInt32.toNat_add, UInt32.reduceToNat] at hnot
  have hoffset := dayOffset_lt (show m.toNat ≤ 12 by omega)
  omega

theorem marchMonth_toNat {d : UInt32} (h : d.toNat ≤ 366) :
    (marchMonth d).toNat = (535 * d.toNat + 48950) / 16384 := by
  simp only [marchMonth, UInt32.toNat_shiftRight, UInt32.toNat_add, UInt32.toNat_mul,
    UInt32.reduceToNat, Nat.reduceMod, Nat.shiftRight_eq_div_pow]
  omega

/-- The date of the day with that number in a year that begins in March. -/
theorem rdnToYmd_marchDay {rdn y d : UInt32} (hyd : marchYearDay (rdn + 306) = (y, d))
    (hlow : 1 ≤ d.toNat) (hhigh : d.toNat ≤ 366) (hyear : y.toNat < 2 ^ 32 - 1)
    (hleap : d.toNat = 366 → IsLeapYear (y.toNat + 1)) :
    ∃ date : Date, rdnToYmd rdn = handedDate date ∧ date.dayNumber + y.toNat / 100 =
      365 * y.toNat + y.toNat / 4 + y.toNat / 400 + d.toNat + 59 := by
  have hm := marchMonth_toNat hhigh
  obtain ⟨date, hdateYear, hdateMonth, hday, hnumber⟩ := marchDay_date hlow hhigh hleap hm
  refine ⟨date, ?_, hnumber⟩
  rw [rdnToYmd_eq, hyd]
  by_cases hcarry : marchMonth d > 12
  · have hcarryNat : (marchMonth d).toNat > 12 := UInt32.lt_iff_toNat_lt.mp hcarry
    rw [if_pos hcarry]
    rw [carryYear, if_pos hcarryNat] at hdateYear
    rw [carryMonth, if_pos hcarryNat] at hdateMonth
    apply checkedDate_eq date
    · rw [UInt32.toNat_add, hdateYear]
      exact Nat.mod_eq_of_lt (by simp only [UInt32.reduceToNat]; omega)
    · rw [UInt32.toNat_sub_of_le _ _ (UInt32.le_of_lt hcarry), hdateMonth]
      rfl
    · exact hday
  · have hcarryNat : ¬ (marchMonth d).toNat > 12 := fun h => hcarry (UInt32.lt_iff_toNat_lt.mpr h)
    rw [if_neg hcarry]
    rw [carryYear, if_neg hcarryNat] at hdateYear
    rw [carryMonth, if_neg hcarryNat] at hdateMonth
    exact checkedDate_eq date hdateYear.symm hdateMonth.symm hday

/-- Over the ten millennia, the date is the one of the day. -/
theorem rdnToYmd_exact {rdn : UInt32} (hlow : 1 ≤ (rdn + 306).toNat)
    (hhigh : (rdn + 306).toNat ≤ 3652502) :
    ∃ date : Date, rdnToYmd rdn = handedDate date ∧ date.dayNumber = (rdn + 306).toNat + 59 := by
  obtain ⟨h, a, hsteps⟩ := marchYearDay_steps (rdn + 306)
  obtain ⟨ha, hy, hd⟩ := hsteps.exact hlow hhigh
  obtain ⟨hfirst, hlast, hleap, hnumber⟩ := marchYear_day hlow ha hy hd
  obtain ⟨date, hdate, hday⟩ := rdnToYmd_marchDay Prod.mk.eta.symm hfirst hlast (by omega) hleap
  exact ⟨date, hdate, by omega⟩

theorem rdnToYmd_wrapped {rdn : UInt32}
    (h : (rdn + 306).toNat = 0 ∨ 2 ^ 32 - 881 ≤ (rdn + 306).toNat) : rdnToYmd rdn ≠ none := by
  obtain ⟨_, _, hsteps⟩ := marchYearDay_steps (rdn + 306)
  obtain ⟨hfirst, hlast, hyear⟩ := hsteps.wrapped (rdn + 306).toNat_lt h
  obtain ⟨date, hdate, hday⟩ := rdnToYmd_marchDay Prod.mk.eta.symm hfirst (by omega)
    (by omega) (by omega)
  have hyears := year_le_iff date
  rw [hdate, handedDate, if_neg (by omega)]
  exact Option.some_ne_none _

theorem rdnToYmd_inside {rdn : UInt32} (h : rdnToYmd rdn ≠ none) :
    (rdn + 306).toNat ≤ 3652502 ∨ 2 ^ 32 - 881 ≤ (rdn + 306).toNat := by
  obtain ⟨_, _, hsteps⟩ := marchYearDay_steps (rdn + 306)
  have hy : (marchYearDay (rdn + 306)).1.toNat ≤ 117590 := by
    rw [hsteps.y_eq]
    omega
  rw [rdnToYmd_eq] at h
  split at h
  · obtain ⟨hyear, hday⟩ := checkedDate_some h
    rw [UInt32.toNat_add, Nat.mod_eq_of_lt (by simp only [UInt32.reduceToNat]; omega)] at hyear
    exact hsteps.inside (rdn + 306).toNat_lt (Nat.le_of_succ_le hyear) hday
  · obtain ⟨hyear, hday⟩ := checkedDate_some h
    exact hsteps.inside (rdn + 306).toNat_lt hyear hday

/-- Of the 32-bit day numbers, the ten millennia from 0000-12-31 on are
accepted, and the numbers that are negative but above -1188. -/
theorem rdnToYmd_ne_none_iff (rdn : UInt32) :
    rdnToYmd rdn ≠ none ↔ rdn.toNat < 3652060 ∨ 2 ^ 32 - 1187 ≤ rdn.toNat := by
  have hlt := rdn.toNat_lt
  have hz : (rdn + 306).toNat = (rdn.toNat + 306) % 2 ^ 32 := UInt32.toNat_add rdn 306
  by_cases hexact : 1 ≤ (rdn + 306).toNat ∧ (rdn + 306).toNat ≤ 3652502
  · obtain ⟨date, hdate, hnumber⟩ := rdnToYmd_exact hexact.1 hexact.2
    have hyears := year_le_iff date
    rw [hdate, handedDate]
    split
    · exact iff_of_false (fun h => h rfl) (by omega)
    · exact iff_of_true (Option.some_ne_none _) (by omega)
  · constructor
    · intro h
      have hinside := rdnToYmd_inside h
      omega
    · intro h
      exact rdnToYmd_wrapped (by omega)

/-- In the ten millennia, the date is the one of the day. -/
theorem rdnToYmd_date {rdn : UInt32} (h : rdn.toNat < 3652060) :
    ∃ date : Date, rdnToYmd rdn = some (UInt16.ofNat date.year, UInt16.ofNat date.month,
        UInt16.ofNat date.day) ∧ date.year ≤ 9999 ∧ date.dayNumber = rdn.toNat + 365 := by
  have hz : (rdn + 306).toNat = (rdn.toNat + 306) % 2 ^ 32 := UInt32.toNat_add rdn 306
  obtain ⟨date, hdate, hnumber⟩ := rdnToYmd_exact (show 1 ≤ (rdn + 306).toNat by omega) (by omega)
  have hyears := year_le_iff date
  rw [handedDate, if_neg (by omega)] at hdate
  exact ⟨date, hdate, by omega, by omega⟩

end Narrowing

section Timestamps

def unixEpoch : Date where
  year := 1970
  month := 1
  day := 1
  day_pos := Nat.le_refl 1
  day_le := Nat.le_of_ble_eq_true rfl

/-- 0000-12-31 00:00:00 -/
def firstMoment : Moment where
  date := ⟨0, 12, 31, Nat.le_of_ble_eq_true rfl, Nat.le_refl 31⟩
  hour := 0
  minute := 0
  second := 0
  hour_lt := Nat.le_of_ble_eq_true rfl
  minute_lt := Nat.le_of_ble_eq_true rfl
  second_lt := Nat.le_of_ble_eq_true rfl

/-- 9999-12-31 23:59:59 -/
def lastMoment : Moment where
  date := ⟨9999, 12, 31, Nat.le_of_ble_eq_true rfl, Nat.le_refl 31⟩
  hour := 23
  minute := 59
  second := 59
  hour_lt := Nat.le_refl 24
  minute_lt := Nat.le_refl 60
  second_lt := Nat.le_refl 60

/-- The seconds of the ten millennia that have a text. -/
def InCalendar (seconds : Int) : Prop :=
  -62135683200 ≤ seconds ∧ seconds < 3652060 * 86400 - 62135683200

theorem unixEpoch_dayNumber : unixEpoch.dayNumber = 719528 := by
  have hyear : unixEpoch.year = 1969 + 1 := rfl
  have hmonths : segmentStart (monthLength unixEpoch.year) unixEpoch.month = 0 := rfl
  rw [unixEpoch.dayNumber_eq hyear hmonths]
  rfl

theorem firstMoment_dayNumber : firstMoment.date.dayNumber = 365 := rfl

theorem lastMoment_dayNumber : lastMoment.date.dayNumber = 3652424 := by
  have hyear : lastMoment.date.year = 9998 + 1 := rfl
  have hmonths : segmentStart (monthLength lastMoment.date.year) lastMoment.date.month = 334 := rfl
  rw [lastMoment.date.dayNumber_eq hyear hmonths]
  rfl

/-- They are those from the first of these moments to the last. -/
theorem inCalendar_iff (seconds : Int) : InCalendar seconds ↔
    firstMoment.secondsSince unixEpoch ≤ seconds ∧
      seconds ≤ lastMoment.secondsSince unixEpoch := by
  have hepoch := unixEpoch_dayNumber
  have hfirst := firstMoment_dayNumber
  have hlast := lastMoment_dayNumber
  rw [InCalendar, Moment.secondsSince, Moment.secondsSince, hepoch, hfirst, hlast]
  simp only [firstMoment, lastMoment]
  omega

/-- Return code zero comes for the seconds of the calendar, and for no others,
and with the date and the time of day of the second. -/
def TimestampShown (timestamp : Int64) (outLength : Nat) : Prop :=
  ∀ out : List UInt8, out.length = outLength →
    ((∃ filled, printTimestamp timestamp.toUInt64 out outLength = .ok (0, filled)) ↔
      InCalendar timestamp.toInt) ∧
    (InCalendar timestamp.toInt ↔ firstMoment.secondsSince unixEpoch ≤ timestamp.toInt ∧
      timestamp.toInt ≤ lastMoment.secondsSince unixEpoch) ∧
    ∀ filled, printTimestamp timestamp.toUInt64 out outLength = .ok (0, filled) →
      ∃ moment : Moment,
        (∀ other : Moment, other.secondsSince unixEpoch = timestamp.toInt ↔ other = moment) ∧
        moment.date.year ≤ 9999 ∧ HoldsText filled (momentText moment)

/-- The number of the day of these seconds, cut to 32 bits, is accepted. -/
def NarrowsToDate (seconds : Int) : Prop :=
  let day := (seconds + 62135683200) % 2 ^ 64 / 86400 % 2 ^ 32
  day < 3652060 ∨ 2 ^ 32 - 1187 ≤ day

theorem addInt64_epoch {timestamp : Int64} (h : timestamp.toInt + 62135683200 < 2 ^ 63) :
    addInt64 timestamp.toUInt64 epoch = .ok (timestamp.toUInt64 + epoch) ∧
      ((timestamp.toUInt64 + epoch).toNat : Int) = (timestamp.toInt + 62135683200) % 2 ^ 64 := by
  have hepoch : epoch.toInt64.toInt = 62135683200 := rfl
  have hepochNat : epoch.toNat = 62135683200 := rfl
  have hlow := timestamp.le_toInt
  have htoInt := toInt_eq timestamp
  have hlt := timestamp.toUInt64.toNat_lt
  constructor
  · simp only [addInt64, Int64.toInt64_toUInt64, hepoch]
    rw [if_pos ⟨by omega, h⟩]
  · rw [UInt64.toNat_add, hepochNat, htoInt]
    split
    all_goals omega

/-- The day number of these seconds as the code narrows it. -/
theorem narrowed_toNat {timestamp : Int64} (h : timestamp.toInt + 62135683200 < 2 ^ 63) :
    (((timestamp.toUInt64 + epoch) / 86400).toUInt32.toNat : Int) =
      (timestamp.toInt + 62135683200) % 2 ^ 64 / 86400 % 2 ^ 32 := by
  have hsec := (addInt64_epoch h).2
  simp only [UInt64.toNat_toUInt32, UInt64.toNat_div, UInt64.reduceToNat]
  omega

theorem timestampOutcome_zero_iff {timestamp : Int64} {outLength : Nat}
    (h : timestamp.toInt + 62135683200 < 2 ^ 63) (hroom : 20 ≤ outLength) :
    (∃ text, timestampOutcome timestamp.toUInt64 outLength = .ok (0, text)) ↔
      NarrowsToDate timestamp.toInt := by
  have hnarrow := narrowed_toNat h
  have hdate := rdnToYmd_ne_none_iff ((timestamp.toUInt64 + epoch) / 86400).toUInt32
  have hiff : NarrowsToDate timestamp.toInt ↔
      rdnToYmd ((timestamp.toUInt64 + epoch) / 86400).toUInt32 ≠ none := by
    rw [hdate, NarrowsToDate, ← hnarrow]
    omega
  rw [hiff, timestampOutcome, if_neg (by omega), (addInt64_epoch h).1, ok_bind]
  cases rdnToYmd ((timestamp.toUInt64 + epoch) / 86400).toUInt32 with
  | none =>
      refine iff_of_false ?_ fun hnone => hnone rfl
      rintro ⟨text, ⟨⟩⟩
  | some ymd =>
      obtain ⟨y, m, d⟩ := ymd
      exact iff_of_true ⟨_, rfl⟩ (Option.some_ne_none _)

theorem timestampOutcome_text {timestamp : Int64} {outLength : Nat}
    (h : timestamp.toInt + 62135683200 < 2 ^ 63) (hroom : 20 ≤ outLength)
    (hin : InCalendar timestamp.toInt) :
    ∃ moment : Moment, moment.secondsSince unixEpoch = timestamp.toInt ∧
      moment.date.year ≤ 9999 ∧
      timestampOutcome timestamp.toUInt64 outLength = .ok (0, momentText moment) := by
  obtain ⟨hlow, hhigh⟩ := hin
  obtain ⟨hsum, hsec⟩ := addInt64_epoch h
  have hnarrow := narrowed_toNat h
  have hshort : ((timestamp.toUInt64 + epoch) / 86400).toUInt32.toNat < 3652060 := by omega
  obtain ⟨date, hdate, hyear, hnumber⟩ := rdnToYmd_date hshort
  have hepoch := unixEpoch_dayNumber
  have hv : ((timestamp.toUInt64 + epoch) % 86400).toUInt32.toNat =
      (timestamp.toUInt64 + epoch).toNat % 86400 := by
    simp only [UInt64.toNat_toUInt32, UInt64.toNat_mod, UInt64.reduceToNat]
    omega
  have hsize : UInt16.size = 65536 := rfl
  have hmonth := date.month_le
  have hday := date.day_le_31
  have hsecond : ((timestamp.toUInt64 + epoch) % 86400).toUInt32.toNat < 86400 := by omega
  refine ⟨date.momentAt _ hsecond, ?_, hyear, ?_⟩
  · rw [Date.secondsSince_momentAt, hv]
    omega
  · rw [timestampOutcome, if_neg (by omega), hsum, ok_bind, hdate]
    have htext := rfc3339Text_eq date (UInt16.toNat_ofNat_of_lt' (by omega))
      (UInt16.toNat_ofNat_of_lt' (by omega)) (UInt16.toNat_ofNat_of_lt' (by omega)) hsecond
    simp only [htext, cString_of_noNul _ (momentText_noNul _)]

/-- The law holds in the calendar, and outside of it exactly where the narrowed
number of the day is rejected. -/
theorem timestampShown_iff (timestamp : Int64) (outLength : Nat)
    (hsum : timestamp.toInt + 62135683200 < 2 ^ 63) (hroom : 20 ≤ outLength) :
    TimestampShown timestamp outLength ↔
      InCalendar timestamp.toInt ∨ ¬ NarrowsToDate timestamp.toInt := by
  have hprints := printTimestamp_prints timestamp.toUInt64 outLength
  have hzero := timestampOutcome_zero_iff hsum hroom
  constructor
  · intro h
    obtain ⟨hcode, -, -⟩ := h (List.replicate outLength 0) List.length_replicate
    rw [hprints.zero_iff List.length_replicate, hzero] at hcode
    rw [← hcode]
    exact Classical.em _
  · intro h out hout
    refine ⟨?_, inCalendar_iff _, fun filled hcall => ?_⟩
    · rw [hprints.zero_iff hout, hzero]
      refine ⟨fun hnarrow => h.resolve_right fun hnot => hnot hnarrow, fun hin => ?_⟩
      obtain ⟨moment, -, -, htext⟩ := timestampOutcome_text hsum hroom hin
      exact hzero.mp ⟨_, htext⟩
    · have htext := hprints.of_zero hout hcall
      have hin := h.resolve_right fun hnot => hnot (hzero.mp ⟨_, htext⟩)
      obtain ⟨moment, hseconds, hyear, hmoment⟩ := timestampOutcome_text hsum hroom hin
      have hlength : filled.length = outLength := printTimestamp_size _ out _ hout _ hcall
      have hnineteen := momentText_length moment
      rw [hmoment] at htext
      simp only [Except.ok.injEq, Prod.mk.injEq, true_and] at htext
      refine ⟨moment, fun other => ⟨fun hother => ?_, fun hother => ?_⟩, hyear,
        holdsText_of_cString htext.symm (by omega)⟩
      · exact Moment.secondsSince_injective (hother.trans hseconds.symm)
      · rw [hother]
        exact hseconds

/-- The equivalence at the beginning of 1970, in the buffer of the screens. -/
theorem timestampShown_iff_epoch :
    TimestampShown 0 45 ↔ InCalendar (Int64.toInt 0) ∨ ¬ NarrowsToDate (Int64.toInt 0) :=
  timestampShown_iff 0 45 (by decide) (by decide)

/-- 2^32 days after the first day, the number of the day is narrowed to that of
the first day, and printed as its date. -/
theorem printTimestamp_shows_far_day : ¬ TimestampShown (4294967296 * 86400 - 62135683200) 20 := by
  intro h
  obtain ⟨hcode, -, -⟩ := h (List.replicate 20 0) rfl
  have hcall : printTimestamp (Int64.toUInt64 (4294967296 * 86400 - 62135683200))
      (List.replicate 20 0) 20 = .ok (0, ascii "0000-12-31 00:00:00" ++ [0]) := rfl
  have hin := hcode.mp ⟨_, hcall⟩
  exact absurd hin.2 (by decide)

end Timestamps

end AelfApp.Libsol
