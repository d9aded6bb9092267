import Mathlib.Data.Int.ConditionallyCompleteOrder
import Mysql51.Time.Daynr

/-!
# Weeks

`calc_week` with the weeks of a year numbered from one. Over it stands the first day of the first week of every year: the days
of a year's weeks are those from there to the first week of the next year.
-/

namespace Mysql51.Time

def weekMondayFirst : Nat := 1

def weekYear : Nat := 2

def weekFirstWeekday : Nat := 4

def calcWeekday (daynr : Int) (sundayFirst : Bool) : Nat := ((daynr + 5 + if sundayFirst then 1 else 0).tmod 7).toNat

/-- The year begins with days that belong to the last week of the year before. -/
def lateStart (firstWeekday : Bool) (weekday : Nat) : Bool :=
  (firstWeekday && weekday != 0) || (!firstWeekday && decide (4 ≤ weekday))

def weekInYear (daynr firstDaynr : Int) (weekday year : Nat) (weekYear firstWeekday : Bool) : Nat × Nat :=
  let days := ((if lateStart firstWeekday weekday then daynr - (firstDaynr + (7 - weekday : Nat))
    else daynr - (firstDaynr - weekday)) % 2 ^ 32).toNat
  let nextWeekday := (weekday + calcDaysInYear year) % 7
  if weekYear ∧ 52 * 7 ≤ days ∧ ((!firstWeekday && decide (nextWeekday < 4)) || (firstWeekday && nextWeekday == 0)) then
    (1, year + 1)
  else (days / 7 + 1, year)

def calcWeek (year month day weekBehaviour : Nat) : Nat × Nat :=
  let daynr := calcDaynr year month day
  let firstDaynr := calcDaynr year 1 1
  let mondayFirst := flagged weekBehaviour weekMondayFirst
  let weekYear := flagged weekBehaviour weekYear
  let firstWeekday := flagged weekBehaviour weekFirstWeekday
  let weekday := calcWeekday firstDaynr (!mondayFirst)
  if month = 1 ∧ day ≤ 7 - weekday then
    if !weekYear && lateStart firstWeekday weekday then (0, year)
    else
      let days := calcDaysInYear (year - 1)
      weekInYear daynr (firstDaynr - days) ((weekday + 53 * 7 - days) % 7) (year - 1) true firstWeekday
  else weekInYear daynr firstDaynr weekday year weekYear firstWeekday

/-! ### The first week of a year -/

/-- Whether Sunday is the first day of a week, and whether a week that begins in the year is needed for its first one. -/
structure WeekMode where
  sundayFirst : Bool
  firstWeekday : Bool

def weekMode (weekBehaviour : Nat) : WeekMode :=
  ⟨!flagged weekBehaviour weekMondayFirst, flagged weekBehaviour weekFirstWeekday⟩

section Weeks

variable {mode : WeekMode} {year : Nat} {daynr : Int}

def newYear (year : Nat) : Int := daysBefore year + 1

def sinceWeekStart (mode : WeekMode) (daynr : Int) : Int := (daynr + 5 + if mode.sundayFirst then 1 else 0) % 7

def weekOne (mode : WeekMode) (year : Nat) : Int :=
  newYear year - sinceWeekStart mode (newYear year) +
    if lateStart mode.firstWeekday (sinceWeekStart mode (newYear year)).toNat then 7 else 0

def weeksOf (mode : WeekMode) (year : Nat) : Set Int :=
  {start | sinceWeekStart mode start = 0 ∧
    if mode.firstWeekday then newYear year ≤ start ∧ start < newYear (year + 1)
    else 4 ≤ min (start + 7) (newYear (year + 1)) - max start (newYear year)}

theorem newYear_succ (year : Nat) : newYear (year + 1) = newYear year + calcDaysInYear year := by
  rw [newYear, newYear, daysBefore_succ]
  push_cast
  omega

theorem calcDaysInYear_cases (year : Nat) : calcDaysInYear year = 365 ∨ calcDaysInYear year = 366 := by
  rw [calcDaysInYear]
  split <;> simp

theorem calcDaynr_newYear (hyear : 1 ≤ year) : calcDaynr year 1 1 = newYear year := by
  rw [calcDaynr_eq 1 hyear (by decide), newYear]
  simp [dayOfYear]

theorem calcWeekday_eq (h : 0 ≤ daynr) : (calcWeekday daynr mode.sundayFirst : Int) = sinceWeekStart mode daynr := by
  rw [calcWeekday, sinceWeekStart, Int.tmod_eq_emod_of_nonneg (by split <;> omega)]
  omega

theorem weekOne_mem_weeksOf : weekOne mode year ∈ weeksOf mode year := by
  have hlen := calcDaysInYear_cases year
  simp only [weeksOf, weekOne, newYear_succ, sinceWeekStart, lateStart, Set.mem_ofPred_eq]
  generalize newYear year = first
  obtain ⟨sundayFirst, firstWeekday⟩ := mode
  cases firstWeekday <;> cases sundayFirst <;> simp <;> split <;> omega

theorem isLeast_weekOne : IsLeast (weeksOf mode year) (weekOne mode year) := by
  refine ⟨weekOne_mem_weeksOf, fun start hstart => ?_⟩
  simp only [weeksOf, newYear_succ, sinceWeekStart, Set.mem_ofPred_eq] at hstart
  simp only [weekOne, lateStart, sinceWeekStart]
  generalize newYear year = first at *
  obtain ⟨sundayFirst, firstWeekday⟩ := mode
  cases firstWeekday <;> cases sundayFirst <;> simp at hstart ⊢ <;> split <;> omega

theorem weekOne_succ : weekOne mode (year + 1) = weekOne mode year + 364 ∨ weekOne mode (year + 1) = weekOne mode year + 371 := by
  have hlen := calcDaysInYear_cases year
  simp only [weekOne, newYear_succ, sinceWeekStart, lateStart]
  generalize newYear year = first
  obtain ⟨sundayFirst, firstWeekday⟩ := mode
  cases firstWeekday <;> cases sundayFirst <;> simp <;> split <;> split <;> omega

/-! ### The week of a day -/

/-- The days of a year's weeks, and the number of the week. -/
structure IsWeek (mode : WeekMode) (daynr : Int) (week : Nat × Nat) : Prop where
  from_weekOne : weekOne mode week.2 ≤ daynr
  before_next : daynr < weekOne mode (week.2 + 1)
  week_eq : (week.1 : Int) = (daynr - weekOne mode week.2) / 7 + 1

theorem sinceWeekStart_bounds (mode : WeekMode) (daynr : Int) :
    0 ≤ sinceWeekStart mode daynr ∧ sinceWeekStart mode daynr < 7 := by
  rw [sinceWeekStart]
  omega

theorem sinceWeekStart_next (mode : WeekMode) (year : Nat) :
    (((sinceWeekStart mode (newYear year)).toNat + calcDaysInYear year) % 7 : Nat) =
      (sinceWeekStart mode (newYear (year + 1))).toNat := by
  rw [newYear_succ, sinceWeekStart, sinceWeekStart]
  omega

theorem weekInYear_eq (hstart : weekOne mode year ≤ daynr) (hend : daynr < weekOne mode year + 2 ^ 32) :
    weekInYear daynr (newYear year) (sinceWeekStart mode (newYear year)).toNat year true mode.firstWeekday =
      if 52 * 7 ≤ daynr - weekOne mode year ∧
          lateStart mode.firstWeekday (sinceWeekStart mode (newYear (year + 1))).toNat = false then (1, year + 1)
      else ((daynr - weekOne mode year).toNat / 7 + 1, year) := by
  have hbounds := sinceWeekStart_bounds mode (newYear year)
  have hdays : ((if lateStart mode.firstWeekday (sinceWeekStart mode (newYear year)).toNat
      then daynr - (newYear year + (7 - (sinceWeekStart mode (newYear year)).toNat : Nat))
      else daynr - (newYear year - (sinceWeekStart mode (newYear year)).toNat)) % 2 ^ 32).toNat =
        (daynr - weekOne mode year).toNat := by
    rw [weekOne] at hstart hend ⊢
    split at hstart <;> simp_all <;> omega
  rw [weekInYear, hdays, sinceWeekStart_next]
  have hearly : ∀ weekday : Nat, ((!mode.firstWeekday && decide (weekday < 4)) || (mode.firstWeekday && weekday == 0)) = true ↔
      lateStart mode.firstWeekday weekday = false := by
    intro weekday
    cases mode.firstWeekday <;> simp [lateStart]
  simp only [hearly, true_and]
  congr 1
  rw [eq_iff_iff, and_congr_left_iff]
  omega

theorem weekOne_succ_of_early (h : lateStart mode.firstWeekday (sinceWeekStart mode (newYear (year + 1))).toNat = false) :
    weekOne mode (year + 1) = weekOne mode year + 364 := by
  have hlen := calcDaysInYear_cases year
  rw [weekOne, if_neg (by simp [h]), weekOne]
  simp only [newYear_succ, sinceWeekStart, lateStart] at h ⊢
  generalize newYear year = first at *
  obtain ⟨sundayFirst, firstWeekday⟩ := mode
  cases firstWeekday <;> cases sundayFirst <;> simp at h ⊢ <;> split <;> omega

theorem weekInYear_isWeek (hstart : weekOne mode year ≤ daynr)
    (hend : daynr < newYear (year + 1) + 7 - sinceWeekStart mode (newYear (year + 1))) : IsWeek mode daynr
      (weekInYear daynr (newYear year) (sinceWeekStart mode (newYear year)).toNat year true mode.firstWeekday) := by
  have hone : weekOne mode (year + 1) = newYear (year + 1) - sinceWeekStart mode (newYear (year + 1)) +
    if lateStart mode.firstWeekday (sinceWeekStart mode (newYear (year + 1))).toNat then 7 else 0 := rfl
  have hsucc := @weekOne_succ mode year
  have hnew := @weekOne_succ mode (year + 1)
  rw [weekInYear_eq hstart (by split at hone <;> omega)]
  split
  next hnext =>
    have hearly := weekOne_succ_of_early hnext.2
    rw [hnext.2, if_neg (by decide)] at hone
    exact ⟨by dsimp only; omega, by dsimp only; omega, by dsimp only; omega⟩
  next hthis =>
    have hbefore : daynr < weekOne mode (year + 1) := by
      by_cases hlate : lateStart mode.firstWeekday (sinceWeekStart mode (newYear (year + 1))).toNat = true
      · rw [if_pos hlate] at hone
        omega
      rw [Bool.not_eq_true] at hlate
      have hfew : ¬ 52 * 7 ≤ daynr - weekOne mode year := fun hmany => hthis ⟨hmany, hlate⟩
      omega
    exact ⟨hstart, hbefore, by dsimp only; omega⟩

theorem dayOfYear_later (leap : Bool) {month : Nat} (day : Nat) (h : 1 < month) : 31 + day ≤ dayOfYear leap month day := by
  obtain ⟨k, rfl⟩ := Nat.exists_eq_add_of_le' h
  simp [dayOfYear, daysInMonth]
  omega

theorem calcWeek_isWeek {month day weekBehaviour : Nat} (hweekYear : flagged weekBehaviour weekYear = true)
    (hdate : ValidDate year month day) : IsWeek (weekMode weekBehaviour) (calcDaynr year month day)
      (calcWeek year month day weekBehaviour) := by
  generalize hmode : weekMode weekBehaviour = mode
  have hsunday : (!flagged weekBehaviour weekMondayFirst) = mode.sundayFirst := hmode ▸ rfl
  have hfirst : flagged weekBehaviour weekFirstWeekday = mode.firstWeekday := hmode ▸ rfl
  obtain ⟨hlow, hhigh, -⟩ := hdate.bounds
  obtain ⟨prev, rfl⟩ := Nat.exists_eq_add_of_le' hdate.year.1
  have hdaynr := calcDaynr_eq day hdate.year.1 hdate.month
  have hnew := newYear_succ prev
  have hnext := newYear_succ (prev + 1)
  have hweekday : (calcWeekday (newYear (prev + 1)) mode.sundayFirst : Int) = sinceWeekStart mode (newYear (prev + 1)) :=
    calcWeekday_eq (by rw [newYear]; omega)
  have hnat : calcWeekday (newYear (prev + 1)) mode.sundayFirst = (sinceWeekStart mode (newYear (prev + 1))).toNat := by omega
  have hlen := calcDaysInYear_cases prev
  have hprev := sinceWeekStart_next mode prev
  have hbounds := sinceWeekStart_bounds mode (newYear prev)
  have hbounds' := sinceWeekStart_bounds mode (newYear (prev + 1))
  have hbounds'' := sinceWeekStart_bounds mode (newYear (prev + 1 + 1))
  have hback : (calcWeekday (newYear (prev + 1)) mode.sundayFirst + 53 * 7 - calcDaysInYear prev) % 7 =
      (sinceWeekStart mode (newYear prev)).toNat := by omega
  have hfrom : newYear (prev + 1) = daysBefore (prev + 1) + 1 := rfl
  rw [calcWeek, calcDaynr_newYear hdate.year.1, hsunday, hfirst, hweekYear]
  dsimp only
  split
  next hjanuary =>
    rw [Nat.add_sub_cancel, hback, if_neg (by simp), show newYear (prev + 1) - calcDaysInYear prev = newYear prev by omega]
    have hday : dayOfYear (calcDaysInYear (prev + 1) = 366) month day = day := by
      rw [hjanuary.1]
      simp [dayOfYear]
    apply weekInYear_isWeek
    · rw [weekOne]
      split <;> omega
    omega
  next hlater =>
    rw [hnat]
    have hday : 7 - calcWeekday (newYear (prev + 1)) mode.sundayFirst < dayOfYear (calcDaysInYear (prev + 1) = 366) month day := by
      by_cases hmonth : month = 1
      · have hday : ¬ day ≤ 7 - calcWeekday (newYear (prev + 1)) mode.sundayFirst := fun hday => hlater ⟨hmonth, hday⟩
        rw [dayOfYear]
        omega
      have hlate := dayOfYear_later (calcDaysInYear (prev + 1) = 366) day (show 1 < month by have := hdate.month; omega)
      omega
    apply weekInYear_isWeek
    · rw [weekOne]
      split <;> omega
    omega

/-! ### Consistency -/

section Unique

variable {week week' : Nat × Nat}

theorem weekOne_strictMono (mode : WeekMode) : StrictMono (weekOne mode) := by
  refine strictMono_nat_of_lt_succ fun year => ?_
  have hsucc := @weekOne_succ mode year
  omega

theorem sinceWeekStart_weekOne : sinceWeekStart mode (weekOne mode year) = 0 :=
  weekOne_mem_weeksOf.1

section

variable (h : IsWeek mode daynr week)
include h

theorem IsWeek.unique (h' : IsWeek mode daynr week') : week = week' := by
  have hmono := weekOne_strictMono mode
  have hle := Nat.lt_succ_iff.1 (hmono.lt_iff_lt.1 (h.from_weekOne.trans_lt h'.before_next))
  have hge := Nat.lt_succ_iff.1 (hmono.lt_iff_lt.1 (h'.from_weekOne.trans_lt h.before_next))
  have hyear : week.2 = week'.2 := le_antisymm hle hge
  have hweek := h.week_eq
  rw [hyear, ← sub_eq_iff_eq_add] at hweek
  have hweek' := h'.week_eq
  exact Prod.ext (by omega) hyear

theorem IsWeek.bounds : 1 ≤ week.1 ∧ week.1 ≤ 53 := by
  obtain ⟨hfrom, hbefore, hweek⟩ := h
  have hsucc := @weekOne_succ mode week.2
  omega

theorem IsWeek.next (h' : IsWeek mode (daynr + 1) week') : (sinceWeekStart mode (daynr + 1) ≠ 0 → week' = week) ∧
      (sinceWeekStart mode (daynr + 1) = 0 → week' = (week.1 + 1, week.2) ∨ week' = (1, week.2 + 1)) := by
  have halign := @sinceWeekStart_weekOne mode week.2
  have halign' := @sinceWeekStart_weekOne mode (week.2 + 1)
  have hsucc := @weekOne_succ mode (week.2 + 1)
  obtain ⟨hfrom, hbefore, hweek⟩ := h
  by_cases hlast : daynr + 1 = weekOne mode (week.2 + 1)
  · have hnew : week' = (1, week.2 + 1) := h'.unique ⟨by dsimp only; omega, by dsimp only; omega, by dsimp only; omega⟩
    rw [← hlast] at halign'
    exact ⟨fun hne => absurd halign' hne, fun _ => .inr hnew⟩
  unfold sinceWeekStart at *
  constructor
  · intro hne
    exact h'.unique ⟨by omega, by omega, by omega⟩
  intro heq
  exact .inl (h'.unique ⟨by dsimp only; omega, by dsimp only; omega, by dsimp only; omega⟩)

theorem IsWeek.one_iff : week = (1, year) ↔ IsLeast (weeksOf mode year) (daynr - sinceWeekStart mode daynr) := by
  have halign := @sinceWeekStart_weekOne mode year
  have hsucc := @weekOne_succ mode year
  have hstart : IsLeast (weeksOf mode year) (daynr - sinceWeekStart mode daynr) ↔
      daynr - sinceWeekStart mode daynr = weekOne mode year :=
    ⟨fun hleast => hleast.unique isLeast_weekOne, fun heq => heq ▸ isLeast_weekOne⟩
  rw [hstart]
  unfold sinceWeekStart at *
  constructor
  · rintro rfl
    have hweek := h.week_eq
    dsimp only at hweek
    omega
  intro heq
  exact h.unique ⟨by dsimp only; omega, by dsimp only; omega, by dsimp only; omega⟩

end

end Unique

end Weeks

/-- With `WEEK_YEAR` the weeks are numbered from 1 to 53, a week lasts until the first day of the next one, and week 1 is the first
week that has four days of the year or that begins in it. -/
theorem calcWeek_consistent {year month day year' month' day' : Nat} (weekBehaviour : Nat)
    (hweekYear : flagged weekBehaviour weekYear = true) (hdate : ValidDate year month day)
    (hnext : nextDate year month day = (year', month', day')) (hdate' : ValidDate year' month' day') :
    let week := calcWeek year month day weekBehaviour
    let week' := calcWeek year' month' day' weekBehaviour
    let weekday (daynr : Int) := calcWeekday daynr (!flagged weekBehaviour weekMondayFirst)
    (1 ≤ week.1 ∧ week.1 ≤ 53) ∧
      (weekday (calcDaynr year' month' day') ≠ 0 → week' = week) ∧
      (weekday (calcDaynr year' month' day') = 0 → week' = (week.1 + 1, week.2) ∨ week' = (1, week.2 + 1)) ∧
      ∀ inYear, week = (1, inYear) ↔ IsLeast (weeksOf (weekMode weekBehaviour) inYear)
        (calcDaynr year month day - weekday (calcDaynr year month day)) := by
  have hweek := calcWeek_isWeek hweekYear hdate
  have hweek' := calcWeek_isWeek hweekYear hdate'
  have hsucc := calcDaynr_nextDate hdate
  have hpos : 0 ≤ calcDaynr year month day := by
    rw [calcDaynr_eq day hdate.year.1 hdate.month]
    omega
  rw [hnext] at hsucc
  dsimp only at hsucc
  rw [hsucc] at hweek' ⊢
  obtain ⟨hsame, hother⟩ := hweek.next hweek'
  rw [← calcWeekday_eq (by omega), Nat.cast_eq_zero] at hother
  rw [← calcWeekday_eq (by omega), Nat.cast_ne_zero] at hsame
  refine ⟨hweek.bounds, hsame, hother, fun inYear => ?_⟩
  rw [hweek.one_iff, ← calcWeekday_eq hpos]
  rfl

theorem calcWeek_consistent_1999 : flagged 2 weekYear = true ∧ ValidDate 1999 12 31 ∧ calcWeek 2000 1 1 2 = calcWeek 1999 12 31 2 :=
  have hdate : ValidDate 1999 12 31 := ⟨by decide, by decide, by decide⟩
  ⟨by decide, hdate, (calcWeek_consistent 2 (by decide) hdate rfl ⟨by decide, by decide, by decide⟩).2.1 (by decide)⟩

end Mysql51.Time
