import Mathlib.Data.Nat.Bitwise
import Mysql51.Time.DatetimeFields

/-!
# Day numbers

`calc_daynr` counts the days before a year and adds the days of the months before the date. `get_date_from_daynr` guesses a year
that is not too late, goes on to the right one, and from there takes off one month after the other.
-/

namespace Mysql51.Time

def calcDaynr (year month day : Nat) : Int :=
  if year = 0 ∧ month = 0 ∧ day = 0 then 0
  else
    let delsum : Int := 365 * year + 31 * ((month : Int) - 1) + day
    let y : Int := if month ≤ 2 then (year : Int) - 1 else year
    let delsum := if month ≤ 2 then delsum else delsum - (month * 4 + 23) / 10
    let temp := ((y.tdiv 100 + 1) * 3).tdiv 4
    delsum + y.tdiv 4 - temp

def yearLoop : Nat → Nat → Nat → Nat × Nat
  | 0, year, dayOfYear => (year, dayOfYear)
  | fuel + 1, year, dayOfYear =>
    if calcDaysInYear year < dayOfYear then yearLoop fuel (year + 1) (dayOfYear - calcDaysInYear year) else (year, dayOfYear)

def monthLoop : List Nat → Nat → Nat → Nat × Nat
  | [], dayOfYear, month => (month, dayOfYear)
  | days :: monthPos, dayOfYear, month =>
    if days < dayOfYear then monthLoop monthPos (dayOfYear - days) (month + 1) else (month, dayOfYear)

def monthDay (leap : Bool) (dayOfYear : Nat) : Nat × Nat :=
  let late := leap && decide (31 + 28 < dayOfYear)
  let dayOfYear := if late then dayOfYear - 1 else dayOfYear
  let leapDay := if late && decide (dayOfYear = 31 + 28) then 1 else 0
  let (month, day) := monthLoop daysInMonth dayOfYear 1
  (month, day + leapDay)

def getDateFromDaynr (daynr : Int) : Nat × Nat × Nat :=
  if daynr ≤ 365 ∨ daynr ≥ 3652500 then (0, 0, 0)
  else
    let year := (daynr * 100 / 36525).toNat
    let temp := ((year - 1) / 100 + 1) * 3 / 4
    let dayOfYear := ((daynr - (year * 365 : Nat) - ((year - 1) / 4 : Nat) + temp) % 2 ^ 32).toNat
    let (year, dayOfYear) := yearLoop dayOfYear year dayOfYear
    (year, monthDay (calcDaysInYear year = 366) dayOfYear)

def daysBefore (year : Nat) : Nat := 365 * year + (year - 1) / 4 - ((year - 1) / 100 + 1) * 3 / 4

theorem calcDaysInYear_eq (year : Nat) :
    calcDaysInYear year = if year % 4 = 0 ∧ (year % 100 ≠ 0 ∨ (year % 400 = 0 ∧ year ≠ 0)) then 366 else 365 := by
  rw [calcDaysInYear, show (3 : Nat) = 2 ^ 2 - 1 from rfl, Nat.and_two_pow_sub_one_eq_mod]

theorem daysBefore_succ (year : Nat) : daysBefore (year + 1) = daysBefore year + calcDaysInYear year := by
  -- whether the century has a leap day depends on its number modulo four
  have hcentury : year / 100 % 4 = 0 ∨ year / 100 % 4 = 1 ∨ year / 100 % 4 = 2 ∨ year / 100 % 4 = 3 := by omega
  rw [calcDaysInYear_eq]
  unfold daysBefore
  obtain h | h | h | h := hcentury <;> split <;> omega

theorem daysBefore_add (year k : Nat) : daysBefore year + k ≤ daysBefore (year + k) := by
  induction k with
  | zero => rfl
  | succ k ih =>
    have hdays : 1 ≤ calcDaysInYear (year + k) := by
      rw [calcDaysInYear]
      split <;> decide
    rw [← add_assoc, ← add_assoc, daysBefore_succ]
    omega

theorem yearLoop_eq {guess year n fuel : Nat} (hguess : 1 ≤ guess) (hle : guess ≤ year) (hlow : daysBefore year < n)
    (hhigh : n ≤ daysBefore (year + 1)) (hfuel : year ≤ guess + fuel) :
    yearLoop fuel guess (n - daysBefore guess) = (year, n - daysBefore year) := by
  rw [daysBefore_succ] at hhigh
  induction fuel generalizing guess with
  | zero =>
    obtain rfl : guess = year := by omega
    rfl
  | succ fuel ih =>
    have hnext := daysBefore_succ guess
    rw [yearLoop]
    by_cases heq : guess = year
    · subst heq
      rw [if_neg (by omega)]
    have hless := daysBefore_add (guess + 1) (year - (guess + 1))
    rw [Nat.add_sub_cancel' (by omega)] at hless
    rw [if_pos (by omega), Nat.sub_sub, ← hnext]
    exact ih (by omega) (by omega) (by omega)

theorem exists_year {n : Nat} (hn : 366 ≤ n) : ∃ year, 1 ≤ year ∧ daysBefore year < n ∧ n ≤ daysBefore (year + 1) := by
  induction n, hn using Nat.le_induction with
  | base => exact ⟨1, by decide⟩
  | succ n _ ih =>
    obtain ⟨year, hpos, hlow, hhigh⟩ := ih
    by_cases hmore : n + 1 ≤ daysBefore (year + 1)
    · exact ⟨year, hpos, by omega, hmore⟩
    have hstep := daysBefore_add (year + 1) 1
    exact ⟨year + 1, by omega, by omega, by omega⟩

theorem getDateFromDaynr_eq {year n : Nat} (hyear : 1 ≤ year) (hlow : daysBefore year < n) (hhigh : n ≤ daysBefore (year + 1))
    (hn : 366 ≤ n ∧ n < 3652500) : getDateFromDaynr n = (year, monthDay (calcDaysInYear year = 366) (n - daysBefore year)) := by
  obtain ⟨guess, hguess⟩ : ∃ guess : Nat, ((n : Int) * 100 / 36525).toNat = guess := ⟨_, rfl⟩
  have hpos : 1 ≤ guess := by omega
  have hle : guess ≤ year := by
    unfold daysBefore at hhigh
    omega
  have hday : (((n : Int) - (guess * 365 : Nat) - ((guess - 1) / 4 : Nat) + (((guess - 1) / 100 + 1) * 3 / 4 : Nat)) % 2 ^ 32).toNat =
      n - daysBefore guess := by
    unfold daysBefore
    omega
  have hfuel := daysBefore_add guess (year - guess)
  rw [Nat.add_sub_cancel' hle] at hfuel
  rw [getDateFromDaynr, if_neg (by omega), hguess]
  dsimp only
  rw [hday, yearLoop_eq hpos hle hlow hhigh (by omega)]

def lengthOfMonth (leap : Bool) (month : Nat) : Nat := if leap ∧ month = 2 then 29 else daysInMonth.getD (month - 1) 0

def dayOfYear (leap : Bool) (month day : Nat) : Nat :=
  (daysInMonth.take (month - 1)).sum + day + if leap ∧ 2 < month then 1 else 0

theorem monthDay_dayOfYear : ∀ leap, ∀ month < 13, ∀ day < 32, 1 ≤ month ∧ 1 ≤ day ∧ day ≤ lengthOfMonth leap month →
    monthDay leap (dayOfYear leap month day) = (month, day) ∧ dayOfYear leap month day ≤ if leap then 366 else 365 := by
  decide +kernel

theorem dayOfYear_monthDay : ∀ leap, ∀ n < 367, 1 ≤ n → (n ≤ if leap then 366 else 365) →
    (1 ≤ (monthDay leap n).1 ∧ (monthDay leap n).1 ≤ 12) ∧ dayOfYear leap (monthDay leap n).1 (monthDay leap n).2 = n := by
  decide +kernel

theorem dayOfYear_next_month : ∀ leap, ∀ month < 12, 1 ≤ month →
    dayOfYear leap (month + 1) 1 = dayOfYear leap month (lengthOfMonth leap month) + 1 := by
  decide +kernel

theorem lengthOfMonth_le : ∀ leap, ∀ month < 13, lengthOfMonth leap month ≤ 31 := by decide

theorem monthDays_eq {year month : Nat} (hyear : 1 ≤ year) (hmonth : 1 ≤ month ∧ month ≤ 12) :
    monthDays year month = lengthOfMonth (calcDaysInYear year = 366) month := by
  have hleap : calcDaysInYear year = 366 ↔ year % 4 = 0 ∧ (year % 100 ≠ 0 ∨ year % 400 = 0) := by
    rw [calcDaysInYear_eq]
    split <;> omega
  simp only [monthDays, lengthOfMonth, hleap, decide_eq_true_eq]
  obtain ⟨hlow, hhigh⟩ := hmonth
  interval_cases month <;> simp [daysInMonth]

theorem sum_daysInMonth : ∀ month < 13, 1 ≤ month →
    (daysInMonth.take (month - 1)).sum + (if month ≤ 2 then 0 else (month * 4 + 23) / 10) = 31 * (month - 1) := by decide

theorem calcDaynr_eq {year month : Nat} (day : Nat) (hyear : 1 ≤ year) (hmonth : 1 ≤ month ∧ month ≤ 12) :
    calcDaynr year month day = daysBefore year + dayOfYear (calcDaysInYear year = 366) month day := by
  have hsucc := daysBefore_succ year
  have hsum := sum_daysInMonth month (by omega) hmonth.1
  have hdays : calcDaysInYear year = 365 ∨ calcDaysInYear year = 366 := by
    rw [calcDaysInYear]
    split <;> simp
  unfold daysBefore at *
  rw [calcDaynr, if_neg (by omega), dayOfYear]
  dsimp only
  have hy : (0 : Int) ≤ if month ≤ 2 then (year : Int) - 1 else year := by split <;> omega
  have hcentury : 0 ≤ ((if month ≤ 2 then (year : Int) - 1 else year) / 100 + 1) * 3 := by omega
  rw [Int.tdiv_eq_ediv_of_nonneg hy, Int.tdiv_eq_ediv_of_nonneg hy, Int.tdiv_eq_ediv_of_nonneg hcentury]
  clear hy hcentury
  generalize (daysInMonth.take (month - 1)).sum = before at *
  by_cases hearly : month ≤ 2
  · rw [if_pos hearly] at hsum
    rw [if_pos hearly, if_pos hearly, if_neg (by omega)]
    omega
  rw [if_neg hearly] at hsum
  rw [if_neg hearly, if_neg hearly, show ((month : Int) * 4 + 23) / 10 = ((month * 4 + 23) / 10 : Nat) from rfl]
  generalize (month * 4 + 23) / 10 = shift at *
  obtain hdays | hdays := hdays <;> simp only [hdays, not_le.1 hearly] <;> simp <;> omega

structure ValidDate (y m d : Nat) : Prop where
  year : 1 ≤ y ∧ y ≤ 9999
  month : 1 ≤ m ∧ m ≤ 12
  day : 1 ≤ d ∧ d ≤ monthDays y m

def nextDate (year month day : Nat) : Nat × Nat × Nat :=
  if day < monthDays year month then (year, month, day + 1)
  else if month < 12 then (year, month + 1, 1) else (year + 1, 1, 1)

theorem calcDaysInYear_ite (year : Nat) :
    calcDaysInYear year = if decide (calcDaysInYear year = 366) = true then 366 else 365 := by
  rw [calcDaysInYear]
  split <;> simp

theorem daysBefore_last : daysBefore 10000 = 3652424 := by decide

section

variable {year month day : Nat} (h : ValidDate year month day)
include h

theorem ValidDate.bounds : 1 ≤ dayOfYear (calcDaysInYear year = 366) month day ∧
      dayOfYear (calcDaysInYear year = 366) month day ≤ calcDaysInYear year ∧
      monthDay (calcDaysInYear year = 366) (dayOfYear (calcDaysInYear year = 366) month day) = (month, day) := by
  have hday := h.day
  rw [monthDays_eq h.year.1 h.month] at hday
  have hlen := lengthOfMonth_le (calcDaysInYear year = 366) month (by have := h.month; omega)
  have hback := monthDay_dayOfYear (calcDaysInYear year = 366) month (by have := h.month; omega) day (by omega) ⟨h.month.1, hday⟩
  refine ⟨?_, ?_, hback.1⟩
  · rw [dayOfYear]
    omega
  exact hback.2.trans (calcDaysInYear_ite year).ge

theorem getDateFromDaynr_calcDaynr : getDateFromDaynr (calcDaynr year month day) = (year, month, day) := by
  obtain ⟨hlow, hhigh, hback⟩ := h.bounds
  have hfirst := daysBefore_add 1 (year - 1)
  have hlast := daysBefore_add (year + 1) (10000 - (year + 1))
  have hyear := h.year
  have hone : daysBefore 1 = 365 := by decide
  rw [Nat.add_sub_cancel' (by omega)] at hfirst hlast
  rw [daysBefore_last] at hlast
  have hsucc := daysBefore_succ year
  rw [calcDaynr_eq day hyear.1 h.month, ← Int.natCast_add,
    getDateFromDaynr_eq hyear.1 (by omega) (by omega) (by omega), Nat.add_sub_cancel_left, hback]

theorem calcDaynr_nextDate : calcDaynr (nextDate year month day).1 (nextDate year month day).2.1 (nextDate year month day).2.2 =
      calcDaynr year month day + 1 := by
  have hyear := h.year.1
  have hmonth := h.month
  rw [calcDaynr_eq day hyear hmonth, nextDate]
  split
  next =>
    rw [calcDaynr_eq _ hyear hmonth, dayOfYear, dayOfYear]
    push_cast
    omega
  next hlast =>
    obtain rfl := le_antisymm h.day.2 (not_lt.1 hlast)
    rw [monthDays_eq hyear hmonth]
    split
    next hmore =>
      rw [calcDaynr_eq 1 hyear ⟨by omega, hmore⟩, dayOfYear_next_month _ month hmore hmonth.1]
      rfl
    next =>
      obtain rfl : month = 12 := by omega
      have hdec : dayOfYear (calcDaysInYear year = 366) 12 (lengthOfMonth (calcDaysInYear year = 366) 12) = calcDaysInYear year := by
        rw [calcDaysInYear_ite year]
        generalize decide (calcDaysInYear year = 366) = leap
        cases leap <;> decide
      rw [calcDaynr_eq 1 (Nat.le_add_left 1 year) ⟨le_refl 1, by decide⟩, daysBefore_succ year, hdec]
      simp [dayOfYear]

end

theorem calcDaynr_getDateFromDaynr {n : Nat} (hn : 366 ≤ n ∧ n < 3652500) :
    calcDaynr (getDateFromDaynr n).1 (getDateFromDaynr n).2.1 (getDateFromDaynr n).2.2 = n := by
  obtain ⟨year, hyear, hlow, hhigh⟩ := exists_year hn.1
  rw [getDateFromDaynr_eq hyear hlow hhigh hn]
  rw [daysBefore_succ year, calcDaysInYear_ite] at hhigh
  obtain ⟨hmonth, hback⟩ := dayOfYear_monthDay (calcDaysInYear year = 366) (n - daysBefore year)
    (by split at hhigh <;> omega) (by omega) (by omega)
  rw [calcDaynr_eq _ hyear hmonth, hback]
  omega

/-- The number of a valid date leads back to the date, the number of the next date is the next one, and a number in the range
that is accepted is the number of its date. -/
theorem daynr_inverse (year month day : Nat) (hdate : ValidDate year month day) (n : Int) (hn : 365 < n ∧ n < 3652500) :
    getDateFromDaynr (calcDaynr year month day) = (year, month, day) ∧
      calcDaynr (nextDate year month day).1 (nextDate year month day).2.1 (nextDate year month day).2.2 =
        calcDaynr year month day + 1 ∧
      calcDaynr (getDateFromDaynr n).1 (getDateFromDaynr n).2.1 (getDateFromDaynr n).2.2 = n := by
  lift n to Nat using by omega
  exact ⟨getDateFromDaynr_calcDaynr hdate, calcDaynr_nextDate hdate, calcDaynr_getDateFromDaynr (by omega)⟩

theorem daynr_inverse_leap_day : ValidDate 2000 2 29 ∧ getDateFromDaynr (calcDaynr 2000 2 29) = (2000, 2, 29) :=
  have hdate : ValidDate 2000 2 29 := ⟨by decide, by decide, by decide⟩
  ⟨hdate, (daynr_inverse 2000 2 29 hdate 730543 (by decide)).1⟩

end Mysql51.Time
