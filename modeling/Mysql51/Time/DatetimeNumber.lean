import Mysql51.Time.DatetimeFields

/-!
# Dates written as numbers

`number_to_datetime` takes a number as `YYYYMMDDHHMMSS`, after it has completed the shorter forms: a day without a time, and a year
of two digits.
-/

namespace Mysql51.Time

def timeToUlonglongDatetime (t : MysqlTime) : Nat :=
  ((t.year * 10000 + t.month * 100 + t.day) * 1000000 + (t.hour * 10000 + t.minute * 100 + t.second)) % 2 ^ 64

def completeNumber (nr : Int) : TimestampType × Option Int :=
  if nr = 0 ∨ nr ≥ 10000101000000 then (.datetime, some nr)
  else if nr < 101 then (.date, none)
  else if nr ≤ (yyPartYear - 1 : Nat) * 10000 + 1231 then (.date, some ((nr + 20000000) * 1000000))
  else if nr < yyPartYear * 10000 + 101 then (.date, none)
  else if nr ≤ 991231 then (.date, some ((nr + 19000000) * 1000000))
  else if nr < 10000101 then (.date, none)
  else if nr ≤ 99991231 then (.date, some (nr * 1000000))
  else if nr < 101000000 then (.date, none)
  else if nr ≤ (yyPartYear - 1 : Nat) * 10000000000 + 1231235959 then (.datetime, some (nr + 20000000000000))
  else if nr < yyPartYear * 10000000000 + 101000000 then (.datetime, none)
  else if nr ≤ 991231235959 then (.datetime, some (nr + 19000000000000))
  else (.datetime, some nr)

def splitNumber (nr : Nat) (timeType : TimestampType) : MysqlTime :=
  let part1 := nr / 1000000
  let part2 := nr - part1 * 1000000
  { MysqlTime.zero with
    year := part1 / 10000, month := part1 % 10000 / 100, day := part1 % 10000 % 100
    hour := part2 / 10000, minute := part2 % 10000 / 100, second := part2 % 10000 % 100, timeType }

def numberToDatetime (nr : Int) (flags : Nat) : Int × MysqlTime × Nat :=
  match completeNumber nr with
  | (timeType, none) => (-1, { MysqlTime.zero with timeType }, 1)
  | (timeType, some nr) =>
    let t := splitNumber nr.toNat timeType
    if t.year ≤ 9999 ∧ t.month ≤ 12 ∧ t.day ≤ 31 ∧ t.hour ≤ 23 ∧ t.minute ≤ 59 ∧ t.second ≤ 59 ∧
        (checkDate t (nr != 0) flags 0).1 = false then (nr, t, (checkDate t (nr != 0) flags 0).2)
    else if nr = 0 ∧ flagged flags timeNoZeroDate then (-1, t, 0)
    else (-1, t, 1)

theorem completeNumber_bounds {nr n : Int} {timeType : TimestampType} (hnr : nr < 2 ^ 63)
    (h : completeNumber nr = (timeType, some n)) : 0 ≤ n ∧ n < 2 ^ 63 := by
  unfold completeNumber yyPartYear at h
  revert h
  repeat' refine iteInduction (motive := fun r => r = (timeType, some n) → 0 ≤ n ∧ n < 2 ^ 63) (fun _ => ?_) fun _ => ?_
  all_goals
    intro h
    cases h <;> omega

theorem completeNumber_of_ge {nr : Int} (h : nr ≥ 10000101000000) : completeNumber nr = (.datetime, some nr) := if_pos (.inr h)

theorem timeToUlonglongDatetime_splitNumber {n : Nat} (h : n < 2 ^ 64) (timeType : TimestampType) :
    timeToUlonglongDatetime (splitNumber n timeType) = n := by
  unfold timeToUlonglongDatetime splitNumber
  dsimp only
  omega

theorem numberToDatetime_accepted {nr res : Int} {flags cut : Nat} {t : MysqlTime}
    (hnr : nr < 2 ^ 63) (h : numberToDatetime nr flags = (res, t, cut)) (hres : res ≠ -1) :
    ∃ timeType, (0 ≤ res ∧ res < 2 ^ 63) ∧ t = splitNumber res.toNat timeType ∧ InRange flags t ∧
      checkDate t (res != 0) flags 0 = (false, cut) := by
  unfold numberToDatetime at h
  split at h
  next =>
    cases h
    exact absurd rfl hres
  next timeType n hcomplete =>
    dsimp only at h
    split at h
    next haccepted =>
      cases h
      obtain ⟨hyear, hmonth, hday, hhour, hminute, hsecond, hcheck⟩ := haccepted
      refine ⟨timeType, completeNumber_bounds hnr hcomplete, rfl,
        ⟨hyear, hmonth, hday, fun hinvalid hne => ?_, hhour, hminute, hsecond⟩, Prod.ext hcheck rfl⟩
      refine checkDate_monthDay hcheck (fun hzero => ?_) hmonth hinvalid hne
      obtain rfl : res = 0 := by simpa using hzero
      rfl
    next =>
      split at h <;> cases h <;> exact absurd rfl hres

/-- A number that is accepted is the one of the parts, the parts are in their ranges, and the number stands for itself. -/
theorem numberToDatetime_number (nr : Int) (hnr : -2 ^ 63 ≤ nr ∧ nr < 2 ^ 63) (flags : Nat) {res : Int} {t : MysqlTime} {cut : Nat}
    (h : numberToDatetime nr flags = (res, t, cut)) (hres : res ≠ -1) :
    res = timeToUlonglongDatetime t ∧ InRange flags t ∧ (checkDate t (res != 0) flags 0).1 = false ∧
      (res ≥ 10000101000000 → numberToDatetime res flags = (res, { t with timeType := .datetime }, cut)) := by
  obtain ⟨timeType, hbounds, ht, hrange, hcheck⟩ := numberToDatetime_accepted hnr.2 h hres
  refine ⟨?_, hrange, congrArg Prod.fst hcheck, fun hlong => ?_⟩
  · rw [ht, timeToUlonglongDatetime_splitNumber (by omega)]
    omega
  -- the checks do not look at the type of the time
  have hcheck' : checkDate (splitNumber res.toNat .datetime) (res != 0) flags 0 = (false, cut) := by
    rw [← hcheck, ht]
    rfl
  rw [numberToDatetime, completeNumber_of_ge hlong]
  dsimp only
  rw [hcheck', ht, if_pos]
  · rfl
  · rw [ht] at hrange
    exact ⟨hrange.year, hrange.month, hrange.day, hrange.hour, hrange.minute, hrange.second, rfl⟩

theorem numberToDatetime_number_2005 : numberToDatetime 51115 0 = (20051115000000, splitNumber 20051115000000 .date, 0) ∧
      numberToDatetime 20051115000000 0 = (20051115000000, splitNumber 20051115000000 .datetime, 0) :=
  have h : numberToDatetime 51115 0 = (20051115000000, splitNumber 20051115000000 .date, 0) := by decide
  ⟨h, (numberToDatetime_number 51115 (by decide) 0 h (by decide)).2.2.2 (by decide)⟩

end Mysql51.Time
