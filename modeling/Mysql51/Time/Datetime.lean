import Mathlib.Algebra.Group.Nat.Defs
import Mysql51.Strings.Latin1

/-!
# `str_to_datetime`

The scanner for dates of `sql-common/my_time.c`. A string is the list of its bytes, and a pointer into it is what is left from
there on. The position vector is the constant one, so that the branches for a year that does not come first and for AM and PM
are never taken. `ulong` has 64 bits.
-/

namespace Mysql51.Time

open Strings

inductive TimestampType
  | none
  | error
  | date
  | datetime
  | time
deriving DecidableEq, Repr

structure MysqlTime where
  year : Nat
  month : Nat
  day : Nat
  hour : Nat
  minute : Nat
  second : Nat
  secondPart : Nat
  neg : Bool
  timeType : TimestampType
deriving DecidableEq, Repr

def MysqlTime.zero : MysqlTime := ⟨0, 0, 0, 0, 0, 0, 0, false, .date⟩

def timeFuzzyDate : Nat := 1

def timeDatetimeOnly : Nat := 2

def timeNoZeroInDate : Nat := 65536 * 2 * 2 * 2 * 2 * 2 * 2 * 2

def timeNoZeroDate : Nat := timeNoZeroInDate * 2

def timeInvalidDates : Nat := timeNoZeroDate * 2

def flagged (flags bit : Nat) : Bool := flags &&& bit != 0

def yyPartYear : Nat := 70

def daysInMonth : List Nat := [31, 28, 31, 30, 31, 30, 31, 31, 30, 31, 30, 31, 0]

def calcDaysInYear (year : Nat) : Nat :=
  if year &&& 3 = 0 ∧ (year % 100 ≠ 0 ∨ (year % 400 = 0 ∧ year ≠ 0)) then 366 else 365

def checkDate (ltime : MysqlTime) (notZeroDate : Bool) (flags wasCut : Nat) : Bool × Nat :=
  if notZeroDate then
    if ((flagged flags timeNoZeroInDate ∨ ¬ flagged flags timeFuzzyDate) ∧ (ltime.month = 0 ∨ ltime.day = 0)) ∨
        (¬ flagged flags timeInvalidDates ∧ ltime.month ≠ 0 ∧ daysInMonth.getD (ltime.month - 1) 0 < ltime.day ∧
          (ltime.month ≠ 2 ∨ calcDaysInYear ltime.year ≠ 366 ∨ ltime.day ≠ 29)) then (true, 2)
    else (false, wasCut)
  else if flagged flags timeNoZeroDate then (true, wasCut)
  else (false, wasCut)

def scanDigits (scanUntilDelim : Bool) : Nat → Nat → List UInt8 → Nat × List UInt8
  | _, value, [] => (value, [])
  | fieldLength, value, c :: str =>
    if isDigit c then
      if scanUntilDelim then scanDigits scanUntilDelim fieldLength ((value * 10 + digitOf c) % 2 ^ 64) str
      else if fieldLength - 1 ≠ 0 then
        scanDigits scanUntilDelim (fieldLength - 1) ((value * 10 + digitOf c) % 2 ^ 64) str
      else (value, c :: str)
    else (value, c :: str)

def skipDelims (allowSpace : Bool) : List UInt8 → Option (List UInt8 × Bool × Bool)
  | [] => some ([], false, false)
  | c :: str =>
    if isPunct c || isSpace c then
      if isSpace c && !allowSpace then none
      else (skipDelims allowSpace str).map fun (rest, _, space) => (rest, true, isSpace c || space)
    else some (c :: str, false, false)

/-- The variables of the scan. The entries of `date` and `date_len` that have been filled are lists. -/
structure Scan where
  i : Nat
  str : List UInt8
  fieldLength : Nat
  date : List Nat
  dateLen : List Nat
  notZeroDate : Nat
  foundDelimitier : Bool
  foundSpace : Bool
  lastFieldPos : List UInt8
deriving DecidableEq, Repr

/-- How a turn of the scan ends: the string is no date, it is at its end, or the loop goes on. -/
inductive Turn
  | fail
  | stop (scan : Scan)
  | next (scan : Scan)

def afterField (scan : Scan) : Turn :=
  match scan.str with
  | [] => .stop { scan with i := scan.i + 1 }
  | c :: str =>
    if scan.i = 2 ∧ c = 84 then .next { scan with i := scan.i + 1, str := str }
    else if scan.i = 5 then
      if c = 46 then .next { scan with i := scan.i + 1, str := str, fieldLength := 6 }
      else .next { scan with i := scan.i + 1 }
    else
      -- a space is only allowed behind the day
      match skipDelims (scan.i == 2) (c :: str) with
      | none => .fail
      | some (rest, delim, space) =>
        .next { scan with
          -- the part for AM and PM is skipped
          i := (if scan.i = 6 then scan.i + 1 else scan.i) + 1
          str := rest
          foundDelimitier := scan.foundDelimitier || delim
          foundSpace := scan.foundSpace || space
          lastFieldPos := rest }

def scanField (isInternalFormat : Bool) (scan : Scan) (c : UInt8) (str : List UInt8) : Turn :=
  let (value, rest) := scanDigits (!isInternalFormat && scan.i != 6) scan.fieldLength (digitOf c) str
  if 999999 < value then .fail
  else
    afterField { scan with
      str := rest
      fieldLength := 2
      date := scan.date ++ [value]
      dateLen := scan.dateLen ++ [str.length + 1 - rest.length]
      notZeroDate := scan.notZeroDate ||| value
      lastFieldPos := rest }

def scanLoop (isInternalFormat : Bool) : Nat → Scan → Option Scan
  | 0, scan => some scan
  | left + 1, scan =>
    match scan.str with
    | [] => some scan
    | c :: str =>
      if scan.i < 7 ∧ isDigit c then
        match scanField isInternalFormat scan c str with
        | .fail => none
        | .stop scan => some scan
        | .next scan => scanLoop isInternalFormat left scan
      else some scan

variable (str : List UInt8)

/-- The text is only digits, perhaps with a `T`, up to its end or a point. -/
def isInternalFormat : Bool :=
  let pos := str.dropWhile fun c => isDigit c || c == 84
  pos.isEmpty || pos.head? == some 46

def internalYearLength : Nat :=
  let digits := (str.takeWhile fun c => isDigit c || c == 84).length
  if digits = 4 ∨ digits = 8 ∨ 14 ≤ digits then 4 else 2

def scanDate : Option Scan :=
  scanLoop (isInternalFormat str) 7
    { i := 0, str := str, fieldLength := if isInternalFormat str then internalYearLength str else 4, date := [], dateLen := [],
      notZeroDate := 0, foundDelimitier := false, foundSpace := false, lastFieldPos := str }

def storeParts (scan : Scan) (yearLength : Nat) : MysqlTime :=
  let date i := scan.date.getD i 0
  let fracLen := scan.dateLen.getD 6 0
  let year := date 0
  { year := if yearLength = 2 ∧ scan.notZeroDate ≠ 0 then year + (if year < yyPartYear then 2000 else 1900) else year
    month := date 1
    day := date 2
    hour := date 3
    minute := date 4
    second := date 5
    secondPart := if fracLen < 6 then date 6 * 10 ^ (6 - fracLen) % 2 ^ 32 else date 6
    neg := false
    timeType := .date }

def hasGarbage : Bool := str.any fun c => !isSpace c

/-- The checks at the end of `str_to_datetime`: its result, the time and `was_cut`. -/
def finishDate (flags : Nat) (scan : Scan) (yearLength : Nat) : TimestampType × MysqlTime × Nat :=
  let lTime := storeParts scan yearLength
  if scan.i < 3 ∨ 9999 < lTime.year ∨ 12 < lTime.month ∨ 31 < lTime.day ∨ 23 < lTime.hour ∨ 59 < lTime.minute ∨
      59 < lTime.second then
    (.error, .zero, if scan.notZeroDate ≠ 0 ∨ hasGarbage scan.lastFieldPos then 1 else 0)
  else
    match checkDate lTime (scan.notZeroDate != 0) flags 0 with
    | (true, wasCut) => (.error, .zero, wasCut)
    | (false, wasCut) =>
      let timeType := if scan.i ≤ 3 then TimestampType.date else .datetime
      (timeType, { lTime with timeType := timeType }, if hasGarbage scan.lastFieldPos then 1 else wasCut)

def strToDatetime (lTime : MysqlTime) (flags : Nat) : TimestampType × MysqlTime × Nat :=
  match str.dropWhile isSpace with
  | [] => (.none, lTime, 1)
  | c :: rest =>
    let str := c :: rest
    if !isDigit c then (.none, lTime, 1)
    else
      match scanDate str with
      | none => (.none, lTime, 1)
      | some scan =>
        if scan.foundDelimitier ∧ ¬ scan.foundSpace ∧ flagged flags timeDatetimeOnly then (.none, lTime, 1)
        else if isInternalFormat str then finishDate flags scan (internalYearLength str)
        else
          let yearLength := scan.dateLen.getD 0 0
          if yearLength = 0 then (.none, lTime, 1) else finishDate flags scan yearLength

end Mysql51.Time
