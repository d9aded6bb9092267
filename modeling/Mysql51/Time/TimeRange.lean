import Mysql51.Time.DatetimeFields

/-!
# `str_to_time` and `check_time_range`

A time is read as a full timestamp, as days and a time, or as one number. Its range is checked on the number of hours, which
is computed in an `unsigned int`.
-/

namespace Mysql51.Time

open Strings

def timeMaxHour : Nat := 838

def timeMaxMinute : Nat := 59

def timeMaxSecond : Nat := 59

def warnTruncated : Nat := 1

def warnOutOfRange : Nat := 2

def checkTimeRange (t : MysqlTime) (warning : Nat) : Bool × MysqlTime × Nat :=
  if 60 ≤ t.minute ∨ 60 ≤ t.second then (true, t, warning)
  else
    let hour := (t.hour + 24 * t.day) % 2 ^ 32
    if hour ≤ timeMaxHour ∧
        (hour ≠ timeMaxHour ∨ t.minute ≠ timeMaxMinute ∨ t.second ≠ timeMaxSecond ∨ t.secondPart = 0) then (false, t, warning)
    else
      (false, { t with day := 0, hour := timeMaxHour, minute := timeMaxMinute, second := timeMaxSecond, secondPart := 0 },
        warning ||| warnOutOfRange)

variable (str : List UInt8)

def readNumber : Nat × List UInt8 :=
  ((str.takeWhile isDigit).foldl (fun value c => (value * 10 + digitOf c) % 2 ^ 64) 0, str.dropWhile isDigit)

def atSeparator : List UInt8 → Bool
  | c :: d :: _ => c == 58 && isDigit d
  | _ => false

/-- The loop that reads hours, minutes and seconds: the first argument counts the entries of `date` that are left. -/
def readParts : Nat → List Nat → List UInt8 → List Nat × List UInt8
  | 0, date, str => (date, str)
  | left + 1, date, str =>
    let (value, str) := readNumber str
    if left ≠ 0 ∧ atSeparator str then readParts left (date ++ [value]) str.tail
    else (date ++ [value] ++ List.replicate left 0, str)

/-- The fraction: its value, whether digits were cut off, and what follows. -/
def readFraction : List UInt8 → Nat × Bool × List UInt8
  | c :: d :: str =>
    if c == 46 && isDigit d then
      let digits := str.takeWhile isDigit
      let value := (digits.take 5).foldl (fun value c => value * 10 + digitOf c) (digitOf d)
      (value * 10 ^ (5 - digits.length), decide (5 < digits.length), str.dropWhile isDigit)
    else (0, false, c :: d :: str)
  | str => (0, false, str)

def atExponent : List UInt8 → Bool
  | c :: d :: str =>
    (c == 101 || c == 69) && (isDigit d || ((d == 45 || d == 43) && (str.head?.elim false isDigit)))
  | _ => false

def readTime : List Nat × List UInt8 :=
  let (value, endOfDays) := readNumber str
  let str := endOfDays.dropWhile isSpace
  if 1 < str.length ∧ str ≠ endOfDays ∧ str.head?.elim false isDigit then readParts 3 [value] str
  else if atSeparator str then readParts 2 [0, value] str.tail
  else ([0, value / 10000, value / 100 % 100, value % 100], str)

/-- The time of a text that is no timestamp, before its range is checked, and what follows it; the warnings come with it or with
the failure. -/
def timeOf (neg : Bool) : Except Nat (MysqlTime × Nat × List UInt8) :=
  let (date, str) := readTime str
  let (fraction, cut, str) := readFraction str
  let date := date ++ [fraction]
  let warning := if cut then warnTruncated else 0
  if atExponent str then .error warning
  else if date.any fun value => 2 ^ 32 - 1 < value then .error warning
  else
    .ok ({ year := 0, month := 0, day := date.getD 0 0, hour := date.getD 1 0, minute := date.getD 2 0,
            second := date.getD 3 0, secondPart := date.getD 4 0, neg := neg, timeType := .time },
      warning, str)

/-- How `str_to_time` goes on behind the sign: with a full timestamp, or with a time that it reads itself. -/
def asTimestamp (lTime : MysqlTime) : Option (TimestampType × MysqlTime × Nat) :=
  if 12 ≤ str.length then
    match strToDatetime str lTime (timeFuzzyDate ||| timeDatetimeOnly) with
    | (.none, _, _) => none
    | res => some res
  else none

def skipSign : List UInt8 × Bool :=
  let str := str.dropWhile isSpace
  if str.head? = some 45 then (str.tail, true) else (str, false)

def strToTime (lTime : MysqlTime) : Bool × MysqlTime × Nat :=
  let (str, neg) := skipSign str
  let lTime := { lTime with neg := neg }
  if str = [] then (true, lTime, 0)
  else
    match asTimestamp str lTime with
    | some (res, lTime, wasCut) => (res == .error, lTime, if wasCut ≠ 0 then warnTruncated else 0)
    | none =>
      match timeOf str neg with
      | .error warning => (true, lTime, warning)
      | .ok (t, warning, rest) =>
        match checkTimeRange t warning with
        | (true, t, warning) => (true, t, warning)
        | (false, t, warning) => (false, t, if hasGarbage rest then warning ||| warnTruncated else warning)

def MysqlTime.hours (t : MysqlTime) : Nat := 24 * t.day + t.hour

def UpTo (hours : Nat) (t : MysqlTime) : Prop :=
  hours < timeMaxHour ∨ (hours = timeMaxHour ∧ (t.minute < timeMaxMinute ∨ (t.minute = timeMaxMinute ∧
    (t.second < timeMaxSecond ∨ (t.second = timeMaxSecond ∧ t.secondPart = 0)))))

def Within (t : MysqlTime) : Prop := UpTo t.hours t

/-- The number of hours passes the limit of `unsigned int` and comes out in the range again. -/
def Wraps (t : MysqlTime) : Prop :=
  t.minute < 60 ∧ t.second < 60 ∧ ¬ Within t ∧ UpTo (t.hours % 2 ^ 32) t

theorem checkTimeRange_cases (t : MysqlTime) (warning : Nat) :
    (checkTimeRange t warning = (true, t, warning) ∧ (60 ≤ t.minute ∨ 60 ≤ t.second)) ∨
      (t.minute < 60 ∧ t.second < 60 ∧ UpTo (t.hours % 2 ^ 32) t ∧ checkTimeRange t warning = (false, t, warning)) ∨
      (t.minute < 60 ∧ t.second < 60 ∧ ¬ UpTo (t.hours % 2 ^ 32) t ∧
        checkTimeRange t warning = (false, { t with day := 0, hour := 838, minute := 59, second := 59, secondPart := 0 },
          warning ||| warnOutOfRange)) := by
  rw [checkTimeRange, MysqlTime.hours, add_comm t.hour]
  simp only [UpTo, timeMaxHour, timeMaxMinute, timeMaxSecond]
  generalize (24 * t.day + t.hour) % 2 ^ 32 = hour
  by_cases hinvalid : 60 ≤ t.minute ∨ 60 ≤ t.second
  · exact .inl ⟨if_pos hinvalid, hinvalid⟩
  rw [if_neg hinvalid]
  by_cases hin : hour ≤ 838 ∧ (hour ≠ 838 ∨ t.minute ≠ 59 ∨ t.second ≠ 59 ∨ t.secondPart = 0)
  · exact .inr (.inl ⟨by omega, by omega, by omega, if_pos hin⟩)
  · exact .inr (.inr ⟨by omega, by omega, by omega, if_neg hin⟩)

theorem within_max (t : MysqlTime) : Within { t with day := 0, hour := 838, minute := 59, second := 59, secondPart := 0 } :=
  .inr ⟨rfl, .inr ⟨rfl, .inr ⟨rfl, rfl⟩⟩⟩

theorem UpTo.mod {hours : Nat} {t : MysqlTime} (h : UpTo hours t) : UpTo (hours % 2 ^ 32) t := by
  have hle : hours ≤ 838 := by
    rw [UpTo, timeMaxHour] at h
    omega
  rwa [Nat.mod_eq_of_lt (by omega)]

section

variable {t t' : MysqlTime} {warning warning' : Nat} (h : checkTimeRange t warning = (false, t', warning'))
include h

theorem checkTimeRange_within : Within t' ↔ ¬ Wraps t := by
  obtain ⟨hrun, -⟩ | ⟨hminute, hsecond, hin, hrun⟩ | ⟨hminute, hsecond, hout, hrun⟩ := checkTimeRange_cases t warning
  · rw [hrun] at h
    cases h
  · rw [hrun] at h
    cases h
    exact ⟨fun hwithin hwraps => hwraps.2.2.1 hwithin, fun hnot => of_not_not fun hout => hnot ⟨hminute, hsecond, hout, hin⟩⟩
  rw [hrun] at h
  cases h
  exact ⟨fun _ hwraps => hout hwraps.2.2.2, fun _ => within_max t⟩

theorem checkTimeRange_unchanged : t' = t ↔ Within t ∨ Wraps t := by
  obtain ⟨hrun, -⟩ | ⟨hminute, hsecond, hin, hrun⟩ | ⟨hminute, hsecond, hout, hrun⟩ := checkTimeRange_cases t warning
  · rw [hrun] at h
    cases h
  · rw [hrun] at h
    cases h
    refine ⟨fun _ => ?_, fun _ => rfl⟩
    by_cases hwithin : Within t
    · exact .inl hwithin
    · exact .inr ⟨hminute, hsecond, hwithin, hin⟩
  rw [hrun] at h
  cases h
  refine ⟨fun heq => absurd (UpTo.mod (heq ▸ within_max t : Within t)) hout, ?_⟩
  rintro (hwithin | hwraps)
  · exact absurd hwithin.mod hout
  · exact absurd hwraps.2.2.2 hout

end

def timeRead (str : List UInt8) (lTime : MysqlTime) : Option MysqlTime :=
  let (str, neg) := skipSign str
  if str = [] then none
  else
    match asTimestamp str { lTime with neg := neg } with
    | some _ => none
    | none => (timeOf str neg).toOption.map Prod.fst

theorem asTimestamp_within {str : List UInt8} {lTime t : MysqlTime} {res : TimestampType} {wasCut : Nat}
    (h : asTimestamp str lTime = some (res, t, wasCut)) (hres : res ≠ .error) : Within t := by
  rw [asTimestamp] at h
  split at h
  next =>
    have htype := strToDatetime_type str lTime (timeFuzzyDate ||| timeDatetimeOnly)
    cases hrun : strToDatetime str lTime (timeFuzzyDate ||| timeDatetimeOnly) with
    | mk res' result =>
      rw [hrun] at h htype
      have haccepted : res' = .date ∨ res' = .datetime := by
        cases res' with
        | none => cases h
        | error => cases h; exact absurd rfl hres
        | date => exact .inl rfl
        | datetime => exact .inr rfl
        | time => exact absurd rfl htype
      have hsome : (res', result) = (res, t, wasCut) := by
        obtain rfl | rfl := haccepted <;> exact Option.some.inj h
      have hrange := strToDatetime_inRange (hrun.trans hsome) (by rw [Prod.mk.injEq] at hsome; rwa [← hsome.1])
      have hday := hrange.day
      have hhour := hrange.hour
      refine .inl ?_
      rw [MysqlTime.hours, timeMaxHour]
      omega
  next => cases h

theorem strToTime_within {str : List UInt8} {lTime t : MysqlTime} {warning : Nat}
    (h : strToTime str lTime = (false, t, warning)) : Within t ↔ ∀ u, timeRead str lTime = some u → ¬ Wraps u := by
  rw [strToTime] at h
  rw [timeRead]
  generalize skipSign str = rest at *
  obtain ⟨rest, neg⟩ := rest
  dsimp only at h ⊢
  by_cases hempty : rest = []
  · rw [if_pos hempty] at h
    cases h
  rw [if_neg hempty] at h
  rw [if_neg hempty]
  cases hstamp : asTimestamp rest { lTime with neg := neg } with
  | some result =>
    rw [hstamp] at h
    obtain ⟨res, t', wasCut⟩ := result
    simp only [Prod.mk.injEq, beq_eq_false_iff_ne] at h
    obtain ⟨hres, rfl, -⟩ := h
    exact ⟨fun _ u hu => (nomatch hu), fun _ => asTimestamp_within hstamp hres⟩
  | none =>
    rw [hstamp] at h
    dsimp only at h ⊢
    cases htime : timeOf rest neg with
    | error cut =>
      rw [htime] at h
      cases h
    | ok result =>
      obtain ⟨u, warning', tail⟩ := result
      rw [htime] at h
      dsimp only at h
      have hread : (Except.ok (u, warning', tail) : Except Nat _).toOption.map Prod.fst = some u := rfl
      rw [hread]
      split at h
      next => cases h
      next v warning'' hcheck =>
        simp only [Prod.mk.injEq] at h
        obtain ⟨-, rfl, -⟩ := h
        rw [checkTimeRange_within hcheck]
        exact ⟨fun hnot u' hu' => (Option.some.inj hu') ▸ hnot, fun hall => hall u rfl⟩

/-- `check_time_range` brings a time into the range and leaves alone exactly those that are in it unless the hours wrap; and a text
that `str_to_time` accepts is a time in the range unless the hours that it reads wrap. -/
theorem timeRange_iff (t lTime : MysqlTime) (warning : Nat) (str : List UInt8) : (((checkTimeRange t warning).1 = false →
        Within (checkTimeRange t warning).2.1 ∧ ((checkTimeRange t warning).2.1 = t ↔ Within t)) ↔ ¬ Wraps t) ∧
      ∀ (read : MysqlTime) (warning : Nat), strToTime str lTime = (false, read, warning) →
        (Within read ↔ ∀ u, timeRead str lTime = some u → ¬ Wraps u) := by
  refine ⟨?_, fun read warning h => strToTime_within h⟩
  generalize hrun : checkTimeRange t warning = run
  obtain ⟨invalid, t', warning'⟩ := run
  cases invalid with
  | true =>
    refine ⟨fun _ hwraps => ?_, nofun⟩
    obtain ⟨-, hinvalid⟩ | ⟨-, -, -, hvalid⟩ | ⟨-, -, -, hvalid⟩ := checkTimeRange_cases t warning
    · have hminute := hwraps.1
      have hsecond := hwraps.2.1
      omega
    · rw [hrun] at hvalid
      cases hvalid
    · rw [hrun] at hvalid
      cases hvalid
  | false =>
    refine ⟨fun h => (checkTimeRange_within hrun).1 (h rfl).1, fun hnot _ => ⟨(checkTimeRange_within hrun).2 hnot, ?_⟩⟩
    rw [checkTimeRange_unchanged hrun]
    exact ⟨fun h => h.resolve_right hnot, .inl⟩

theorem timeRange_hour : ∃ t, strToTime (bytes "-34 22:59:59") .zero = (false, t, 0) ∧ t.hours = 838 ∧ Within t := by
  refine ⟨⟨0, 0, 34, 22, 59, 59, 0, true, .time⟩, by decide +kernel, rfl, ?_⟩
  have haccepted : strToTime (bytes "-34 22:59:59") .zero = (false, ⟨0, 0, 34, 22, 59, 59, 0, true, .time⟩, 0) := by
    decide +kernel
  refine ((timeRange_iff .zero .zero 0 (bytes "-34 22:59:59")).2 _ _ haccepted).2 fun u hread hwraps => hwraps.2.2.1 ?_
  have hu : timeRead (bytes "-34 22:59:59") .zero = some ⟨0, 0, 34, 22, 59, 59, 0, true, .time⟩ := by decide +kernel
  cases hu.symm.trans hread
  exact .inr ⟨rfl, .inr ⟨rfl, .inr ⟨rfl, rfl⟩⟩⟩

/-- More than four thousand million hours count as sixteen. -/
theorem strToTime_wraps : strToTime (bytes "178956971 08:00:00") .zero = (false, ⟨0, 0, 178956971, 8, 0, 0, 0, false, .time⟩, 0) ∧
      checkTimeRange ⟨0, 0, 178956971, 8, 0, 0, 0, false, .time⟩ 0 = (false, ⟨0, 0, 178956971, 8, 0, 0, 0, false, .time⟩, 0) ∧
      MysqlTime.hours ⟨0, 0, 178956971, 8, 0, 0, 0, false, .time⟩ = 4294967312 := by
  decide +kernel

end Mysql51.Time
