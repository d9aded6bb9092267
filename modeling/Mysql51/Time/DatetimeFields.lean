import Mathlib.Tactic.IntervalCases
import Mysql51.Lib.Runs
import Mysql51.Time.Datetime

/-!
# What an accepted date holds

A text with delimiters is read run of digits by run of digits. The part is the number that the run stands for as long as that
number fits in a machine word.
-/

namespace Mysql51.Time

open Strings Machine List

def runValue (run : List UInt8) : Nat := decimalOf (run.map digitOf)

def digitRuns (str : List UInt8) : List (List UInt8) := runs isDigit str

theorem digitRuns_dropWhile_isSpace (str : List UInt8) : digitRuns (str.dropWhile isSpace) = digitRuns str := by
  conv_rhs => rw [← takeWhile_append_dropWhile (p := isSpace) (l := str)]
  refine (runs_append_of_not (fun c hc => isDigit_of_isDelim ?_) _).symm
  rw [mem_takeWhile_imp hc, Bool.or_true]

/-! ### One part -/

theorem scanDigits_untilDelim (fieldLength value : Nat) (str : List UInt8) : scanDigits true fieldLength value str =
      ((str.takeWhile isDigit).foldl (fun v c => (v * 10 + digitOf c) % 2 ^ 64) value, str.dropWhile isDigit) := by
  induction str generalizing value with
  | nil => rfl
  | cons c str ih =>
    rw [scanDigits]
    by_cases hc : isDigit c = true
    · rw [if_pos hc, if_pos rfl, ih, takeWhile_cons_of_pos hc, dropWhile_cons_of_pos hc, foldl_cons]
    · rw [if_neg hc, takeWhile_cons_of_neg hc, dropWhile_cons_of_neg hc, foldl_nil]

variable {c : UInt8} {str rest : List UInt8} {scan scan' next : Scan} {internal : Bool} {left value len flags wasCut : Nat}
  {t : MysqlTime} {res : TimestampType}

theorem scanDigits_run (hc : isDigit c = true) (fieldLength : Nat) (str : List UInt8) :
    scanDigits true fieldLength (digitOf c) str = (runValue (c :: str.takeWhile isDigit) % 2 ^ 64, str.dropWhile isDigit) := by
  have hfirst : digitOf c = digitOf c % 2 ^ 64 := by
    have hlt := digitOf_lt hc
    omega
  rw [scanDigits_untilDelim, hfirst, runValue, decimalOf, map_cons, foldl_cons, ← foldl_mod, foldl_map, zero_mul, zero_add]

theorem skipDelims_runs {allowSpace : Bool} {delim space : Bool} (h : skipDelims allowSpace str = some (rest, delim, space)) :
    digitRuns rest = digitRuns str := by
  induction str generalizing rest delim space with
  | nil =>
    cases h
    rfl
  | cons c str ih =>
    rw [skipDelims] at h
    split at h
    next hdelim =>
      split at h
      next => cases h
      next =>
        obtain ⟨⟨rest', delim', space'⟩, hskip, heq⟩ := Option.map_eq_some_iff.1 h
        cases heq
        rw [ih hskip, digitRuns, digitRuns, runs_cons_of_not (isDigit_of_isDelim hdelim)]
    next =>
      cases h
      rfl

/-- What follows a part leaves the parts alone and skips no digit. -/
structure Follows (scan scan' : Scan) : Prop where
  date : scan'.date = scan.date
  dateLen : scan'.dateLen = scan.dateLen
  notZeroDate : scan'.notZeroDate = scan.notZeroDate
  runs : digitRuns scan'.str = digitRuns scan.str
  i : scan'.i = scan.i + 1 ∨ (scan.i = 6 ∧ scan'.i = 8)

theorem afterField_follows (h : afterField scan = .stop scan' ∨ afterField scan = .next scan') : Follows scan scan' := by
  rw [afterField] at h
  split at h
  next hstr =>
    obtain h | h := h <;> cases h
    exact ⟨rfl, rfl, rfl, rfl, .inl rfl⟩
  next c str hstr =>
    split at h
    next hT =>
      obtain h | h := h <;> cases h
      refine ⟨rfl, rfl, rfl, ?_, .inl rfl⟩
      rw [hstr, digitRuns, digitRuns, runs_cons_of_not (hT.2 ▸ (by decide : isDigit 84 = false))]
    next =>
      split at h
      next =>
        split at h
        next hpoint =>
          obtain h | h := h <;> cases h
          refine ⟨rfl, rfl, rfl, ?_, .inl rfl⟩
          rw [hstr, digitRuns, digitRuns, runs_cons_of_not (hpoint ▸ (by decide : isDigit 46 = false))]
        next =>
          obtain h | h := h <;> cases h
          exact ⟨rfl, rfl, rfl, rfl, .inl rfl⟩
      next =>
        split at h
        next => obtain h | h := h <;> cases h
        next rest delim space hskip =>
          obtain h | h := h <;> cases h
          refine ⟨rfl, rfl, rfl, ?_, ?_⟩
          · rw [hstr]
            exact skipDelims_runs hskip
          dsimp only
          split
          next hsix => exact .inr ⟨hsix, by omega⟩
          next => exact .inl rfl

def Scan.push (scan : Scan) (value len : Nat) (rest : List UInt8) : Scan :=
  { scan with
    str := rest
    fieldLength := 2
    date := scan.date ++ [value]
    dateLen := scan.dateLen ++ [len]
    notZeroDate := scan.notZeroDate ||| value
    lastFieldPos := rest }

theorem scanField_follows (h : scanField internal scan c str = .stop scan' ∨ scanField internal scan c str = .next scan') :
    ∃ value rest, scanDigits (!internal && scan.i != 6) scan.fieldLength (digitOf c) str = (value, rest) ∧
      Follows (scan.push value (str.length + 1 - rest.length) rest) scan' := by
  rw [scanField] at h
  generalize scanDigits (!internal && scan.i != 6) scan.fieldLength (digitOf c) str = read at *
  obtain ⟨value, rest⟩ := read
  refine ⟨value, rest, rfl, ?_⟩
  dsimp only at h
  split at h
  next => obtain h | h := h <;> cases h
  next => exact afterField_follows h

/-! ### All parts -/

theorem scanLoop_cases (h : scanLoop internal left scan = some scan') :
    scan' = scan ∨ ∃ c str, scan.str = c :: str ∧ scan.i < 7 ∧ isDigit c = true ∧ (scanField internal scan c str = .stop scan' ∨
        ∃ left' next, left = left' + 1 ∧ scanField internal scan c str = .next next ∧
          scanLoop internal left' next = some scan') := by
  cases left with
  | zero =>
    cases h
    exact .inl rfl
  | succ left =>
    rw [scanLoop] at h
    split at h
    next =>
      cases h
      exact .inl rfl
    next c str hstr =>
      split at h
      next hturn =>
        split at h
        next => cases h
        next stopped hfield =>
          cases h
          exact .inr ⟨c, str, hstr, hturn.1, hturn.2, .inl hfield⟩
        next next hfield => exact .inr ⟨c, str, hstr, hturn.1, hturn.2, .inr ⟨left, next, rfl, hfield, h⟩⟩
      next =>
        cases h
        exact .inl rfl

def partsOf (str : List UInt8) : List Nat := (digitRuns str).map fun run => runValue run % 2 ^ 64

/-- As many parts have been read as the position says, up to the fraction. -/
def Counted (scan : Scan) : Prop := scan.date.length = scan.i ∨ (7 ≤ scan.date.length ∧ 7 ≤ scan.i)

def ReadsParts (scan scan' : Scan) : Prop :=
  scan'.date.take 6 = (scan.date ++ partsOf scan.str).take (min scan'.i 6)

theorem ReadsParts.refl (h : Counted scan) : ReadsParts scan scan := by
  rw [ReadsParts]
  obtain h | ⟨hdate, hi⟩ := h
  · by_cases hsix : 6 ≤ scan.i
    · rw [min_eq_right hsix, take_append_of_le_length (by omega)]
    · rw [min_eq_left (by omega), take_of_length_le (by omega), take_left' h]
  rw [min_eq_right (by omega), take_append_of_le_length (by omega)]

theorem ReadsParts.step (hstr : scan.str = c :: str) (hc : isDigit c = true) (hcount : scan.date.length = scan.i)
    (hread : scanDigits (scan.i != 6) scan.fieldLength (digitOf c) str = (value, rest))
    (hfollows : Follows (scan.push value len rest) next) (h : ReadsParts next scan') : ReadsParts scan scan' := by
  rw [ReadsParts] at h ⊢
  have hparts : partsOf next.str = partsOf rest := congrArg (List.map _) hfollows.runs
  have hdate : next.date = scan.date ++ [value] := hfollows.date
  rw [h, hparts, hdate, append_assoc]
  by_cases hsix : scan.i = 6
  · rw [take_append_of_le_length (by omega), take_append_of_le_length (by omega)]
  have hne : (scan.i != 6) = true := by simpa using hsix
  rw [hne, scanDigits_run hc] at hread
  obtain ⟨rfl, rfl⟩ := Prod.mk.injEq .. ▸ hread
  rw [partsOf, partsOf, hstr, digitRuns, digitRuns, runs_cons hc]
  rfl

theorem Follows.counted (h : Follows (scan.push value len rest) next) (hcount : scan.date.length = scan.i) : Counted next := by
  have hlength : next.date.length = scan.i + 1 := by
    rw [h.date, Scan.push, length_append, hcount]
    rfl
  obtain hi | ⟨hsix, hi⟩ := h.i
  · exact .inl (hlength.trans hi.symm)
  have hsix' : scan.i = 6 := hsix
  exact .inr ⟨by omega, by omega⟩

theorem scanLoop_readsParts (hcount : Counted scan) (h : scanLoop false left scan = some scan') : ReadsParts scan scan' := by
  induction left generalizing scan with
  | zero =>
    cases h
    exact .refl hcount
  | succ left ih =>
    obtain rfl | ⟨c, str, hstr, hi, hc, hfield⟩ := scanLoop_cases h
    · exact .refl hcount
    have hcount' : scan.date.length = scan.i := hcount.resolve_right fun hbig => by omega
    obtain hstop | ⟨left', next, hleft, hnext, hloop⟩ := hfield
    · obtain ⟨value, rest, hread, hfollows⟩ := scanField_follows (.inl hstop)
      exact .step hstr hc hcount' hread hfollows (.refl (hfollows.counted hcount'))
    obtain ⟨value, rest, hread, hfollows⟩ := scanField_follows (.inr hnext)
    cases hleft
    exact .step hstr hc hcount' hread hfollows (ih (hfollows.counted hcount') hloop)

/-- What has been read stays, and nothing but zeroes has been read as long as the date counts as zero. -/
structure Kept (scan scan' : Scan) : Prop where
  dateLen : scan.dateLen <+: scan'.dateLen
  zero : (∀ v ∈ scan.date, scan.notZeroDate = 0 → v = 0) → ∀ v ∈ scan'.date, scan'.notZeroDate = 0 → v = 0

theorem Follows.kept (h : Follows (scan.push value len rest) next) : Kept scan next := by
  refine ⟨?_, fun hzero v hv hnone => ?_⟩
  · rw [h.dateLen]
    exact prefix_append _ _
  rw [h.notZeroDate, Scan.push, Nat.or_eq_zero_iff] at hnone
  rw [h.date, Scan.push, mem_append, mem_singleton] at hv
  obtain hv | rfl := hv
  · exact hzero v hv hnone.1
  · exact hnone.2

theorem scanLoop_kept (h : scanLoop internal left scan = some scan') : Kept scan scan' := by
  induction left generalizing scan with
  | zero =>
    cases h
    exact ⟨prefix_refl _, id⟩
  | succ left ih =>
    obtain rfl | ⟨c, str, -, -, -, hfield⟩ := scanLoop_cases h
    · exact ⟨prefix_refl _, id⟩
    obtain hstop | ⟨left', next, hleft, hnext, hloop⟩ := hfield
    · obtain ⟨value, rest, -, hfollows⟩ := scanField_follows (.inl hstop)
      exact hfollows.kept
    obtain ⟨value, rest, -, hfollows⟩ := scanField_follows (.inr hnext)
    cases hleft
    have hkept := ih hloop
    exact ⟨hfollows.kept.dateLen.trans hkept.dateLen, hkept.zero ∘ hfollows.kept.zero⟩

/-! ### The checks -/

def monthDays (year month : Nat) : Nat :=
  if month = 2 then (if year % 4 = 0 ∧ (year % 100 ≠ 0 ∨ year % 400 = 0) then 29 else 28)
  else if month ∈ [4, 6, 9, 11] then 30 else 31

/-- The parts of a time are in their ranges; in a month there is no day that it does not have unless that is allowed. -/
structure InRange (flags : Nat) (t : MysqlTime) : Prop where
  year : t.year ≤ 9999
  month : t.month ≤ 12
  day : t.day ≤ 31
  monthDay : flagged flags timeInvalidDates = false → t.month ≠ 0 → t.day ≤ monthDays t.year t.month
  hour : t.hour ≤ 23
  minute : t.minute ≤ 59
  second : t.second ≤ 59

theorem calcDaysInYear_leap {year : Nat} (h : calcDaysInYear year = 366) : monthDays year 2 = 29 := by
  rw [calcDaysInYear] at h
  split at h
  next hleap =>
    rw [Nat.and_two_pow_sub_one_eq_mod year 2] at hleap
    rw [monthDays, if_pos rfl, if_pos ⟨hleap.1, by omega⟩]
  next => omega

theorem daysInMonth_le {month : Nat} (hmonth : month ≠ 0) (htwelve : month ≤ 12) (year : Nat) :
    daysInMonth.getD (month - 1) 0 ≤ monthDays year month := by
  rw [monthDays]
  by_cases htwo : month = 2
  · rw [if_pos htwo, htwo]
    split <;> decide
  rw [if_neg htwo]
  interval_cases month <;> simp_all [daysInMonth]

theorem checkDate_monthDay {notZero : Bool} (h : (checkDate t notZero flags wasCut).1 = false)
    (hzero : notZero = false → t.day = 0) (htwelve : t.month ≤ 12) (hinvalid : flagged flags timeInvalidDates = false)
    (hmonth : t.month ≠ 0) : t.day ≤ monthDays t.year t.month := by
  cases notZero with
  | false => exact (hzero rfl).le.trans (Nat.zero_le _)
  | true =>
    rw [checkDate, if_pos rfl] at h
    split at h
    next => cases h
    next hvalid =>
      have hdays := daysInMonth_le hmonth htwelve t.year
      by_cases hfits : t.day ≤ daysInMonth.getD (t.month - 1) 0
      · exact hfits.trans hdays
      obtain ⟨htwo, hleap, hday⟩ : t.month = 2 ∧ calcDaysInYear t.year = 366 ∧ t.day = 29 := by
        by_contra hnot
        refine hvalid (.inr ⟨by rw [hinvalid]; decide, hmonth, Nat.lt_of_not_le hfits, ?_⟩)
        omega
      rw [htwo, calcDaysInYear_leap hleap, hday]

theorem finishDate_accepted {yearLength : Nat} (h : finishDate flags scan yearLength = (res, t, wasCut))
    (hres : res = .date ∨ res = .datetime) (hzero : ∀ v ∈ scan.date, scan.notZeroDate = 0 → v = 0) :
    t = { storeParts scan yearLength with timeType := res } ∧ 3 ≤ scan.i ∧ (res = .date ↔ scan.i = 3) ∧ InRange flags t := by
  rw [finishDate] at h
  dsimp only at h
  split at h
  next => cases h; obtain h | h := hres <;> cases h
  next hranges =>
    split at h
    next => cases h; obtain h | h := hres <;> cases h
    next cut hcheck =>
      simp only [Prod.mk.injEq] at h
      obtain ⟨rfl, rfl, -⟩ := h
      have hrange : InRange flags (storeParts scan yearLength) := by
        refine ⟨by omega, by omega, by omega, fun hinvalid hmonth => ?_, by omega, by omega, by omega⟩
        refine checkDate_monthDay (congrArg Prod.fst hcheck) (fun hnot => ?_) (by omega) hinvalid hmonth
        have hnone : scan.notZeroDate = 0 := by simpa using hnot
        show scan.date.getD 2 0 = 0
        rw [getD_eq_getElem?_getD]
        cases hget : scan.date[2]? with
        | none => rfl
        | some v => exact hzero v (mem_of_getElem? hget) hnone
      refine ⟨rfl, by omega, ?_, ⟨hrange.year, hrange.month, hrange.day, hrange.monthDay, hrange.hour, hrange.minute,
        hrange.second⟩⟩
      split
      next hle => exact ⟨fun _ => by omega, fun _ => rfl⟩
      next hgt => exact ⟨fun h => (by cases h), fun h => absurd h (by omega)⟩

/-! ### Accepted dates -/

theorem finishDate_type (flags : Nat) (scan : Scan) (yearLength : Nat) : (finishDate flags scan yearLength).1 ≠ .time := by
  rw [finishDate]
  split
  next => exact fun h => nomatch h
  next =>
    split
    next => exact fun h => nomatch h
    next => dsimp only; split <;> exact fun h => nomatch h

theorem strToDatetime_type (str : List UInt8) (lTime : MysqlTime) (flags : Nat) : (strToDatetime str lTime flags).1 ≠ .time := by
  rw [strToDatetime]
  split
  next => exact fun h => nomatch h
  next c rest _ =>
    dsimp only
    split
    next => exact fun h => nomatch h
    next =>
      split
      next => exact fun h => nomatch h
      next scan _ =>
        split
        next => exact fun h => nomatch h
        next =>
          split
          next => exact finishDate_type _ _ _
          next =>
            split
            next => exact fun h => nomatch h
            next => exact finishDate_type _ _ _

theorem strToDatetime_accepted {lTime : MysqlTime} (h : strToDatetime str lTime flags = (res, t, wasCut))
    (hres : res = .date ∨ res = .datetime) :
    ∃ c rest scan, str.dropWhile isSpace = c :: rest ∧ isDigit c = true ∧ scanDate (c :: rest) = some scan ∧
      finishDate flags scan (if isInternalFormat (c :: rest) then internalYearLength (c :: rest) else scan.dateLen.getD 0 0) =
        (res, t, wasCut) := by
  have hnone {a : MysqlTime} {n : Nat} (heq : (TimestampType.none, a, n) = (res, t, wasCut)) : False := by
    cases heq
    obtain h | h := hres <;> cases h
  rw [strToDatetime] at h
  split at h
  next => exact (hnone h).elim
  next c rest hstr =>
    dsimp only at h
    split at h
    next => exact (hnone h).elim
    next hc =>
      split at h
      next => exact (hnone h).elim
      next scan hscan =>
        split at h
        next => exact (hnone h).elim
        next =>
          refine ⟨c, rest, scan, hstr, by simpa using hc, hscan, ?_⟩
          split at h
          next hinternal => rwa [if_pos hinternal]
          next hdelimited =>
            split at h
            next => exact (hnone h).elim
            next => rwa [if_neg hdelimited]

theorem scanDate_zero (h : scanDate str = some scan) : ∀ v ∈ scan.date, scan.notZeroDate = 0 → v = 0 :=
  (scanLoop_kept h).zero fun _ hv => absurd hv not_mem_nil

theorem strToDatetime_inRange {lTime : MysqlTime} (h : strToDatetime str lTime flags = (res, t, wasCut))
    (hres : res = .date ∨ res = .datetime) : InRange flags t := by
  obtain ⟨c, rest, scan, -, -, hscan, hfinish⟩ := strToDatetime_accepted h hres
  exact (finishDate_accepted hfinish hres (scanDate_zero hscan)).2.2.2

def MysqlTime.parts (t : MysqlTime) : List Nat := [t.year, t.month, t.day, t.hour, t.minute, t.second]

def partsRead (str : List UInt8) : Nat := ((scanDate (str.dropWhile isSpace)).elim 0 fun scan => min scan.i 6)

theorem scanField_yearLength (hc : isDigit c = true) (hi : scan.i = 0) (hnone : scan.dateLen = [])
    (h : scanField false scan c str = .stop next ∨ scanField false scan c str = .next next)
    (hkept : next.dateLen <+: scan'.dateLen) : scan'.dateLen.getD 0 0 = (c :: str.takeWhile isDigit).length := by
  obtain ⟨value, rest, hread, hfollows⟩ := scanField_follows h
  rw [hi, show (!false && (0 : Nat) != 6) = true from rfl, scanDigits_run hc] at hread
  obtain ⟨rfl, rfl⟩ := Prod.mk.injEq .. ▸ hread
  rw [hfollows.dateLen, Scan.push, hnone] at hkept
  obtain ⟨more, hmore⟩ := hkept
  have hlen := congrArg List.length (takeWhile_append_dropWhile (p := isDigit) (l := str))
  rw [length_append] at hlen
  rw [← hmore, length_cons]
  show str.length + 1 - (str.dropWhile isDigit).length = _
  omega

theorem scanDate_yearLength (hdelim : isInternalFormat (c :: rest) = false) (hc : isDigit c = true)
    (h : scanDate (c :: rest) = some scan) (hi : scan.i ≠ 0) : scan.dateLen.getD 0 0 = (c :: rest.takeWhile isDigit).length := by
  rw [scanDate, hdelim] at h
  obtain rfl | ⟨c', str, hstr, -, -, hfield⟩ := scanLoop_cases h
  · exact absurd rfl hi
  obtain ⟨rfl, rfl⟩ : c = c' ∧ rest = str := by simpa using hstr
  obtain hstop | ⟨left', next, -, hnext, hloop⟩ := hfield
  · exact scanField_yearLength hc rfl rfl (.inl hstop) (prefix_refl _)
  · exact scanField_yearLength hc rfl rfl (.inr hnext) (scanLoop_kept hloop).dateLen

theorem scanDate_date (hdelim : isInternalFormat str = false) (h : scanDate str = some scan) {i : Nat} (hi : i < 6) :
    scan.date.getD i 0 = if i < min scan.i 6 then runValue ((digitRuns str).getD i []) % 2 ^ 64 else 0 := by
  rw [scanDate, hdelim] at h
  have hparts : scan.date.take 6 = ([] ++ partsOf str).take (min scan.i 6) := scanLoop_readsParts (.inl rfl) h
  rw [nil_append] at hparts
  have hget : scan.date.getD i 0 = ((partsOf str).take (min scan.i 6)).getD i 0 := by
    rw [← hparts, getD_eq_getElem?_getD, getD_eq_getElem?_getD, List.getElem?_take_of_lt hi]
  rw [hget, getD_eq_getElem?_getD, List.getElem?_take, partsOf, List.getElem?_map]
  split
  · rw [getD_eq_getElem?_getD]
    cases (digitRuns str)[i]? <;> rfl
  rfl

theorem storeParts_parts {yearLength i : Nat} (hyear : yearLength ≠ 2) (hi : i < 6) :
    (storeParts scan yearLength).parts.getD i 0 = scan.date.getD i 0 := by
  rw [MysqlTime.parts, storeParts, if_neg fun h => hyear h.1]
  interval_cases i <;> rfl

/-- An accepted date with delimiters and a year of more than two digits is in the ranges, and its parts are the numbers of the
text exactly if each of them fits in a machine word. -/
theorem strToDatetime_parts_iff {str : List UInt8} {lTime t : MysqlTime} {flags wasCut : Nat} {res : TimestampType}
    (h : strToDatetime str lTime flags = (res, t, wasCut)) (hres : res = .date ∨ res = .datetime)
    (hdelim : isInternalFormat (str.dropWhile isSpace) = false) (hyear : 3 ≤ ((digitRuns str).getD 0 []).length) :
    InRange flags t ∧ 3 ≤ partsRead str ∧ (res = .date ↔ partsRead str = 3) ∧
      ((∀ i < 6, t.parts.getD i 0 = if i < partsRead str then runValue ((digitRuns str).getD i []) else 0) ↔
        ∀ i < partsRead str, runValue ((digitRuns str).getD i []) < 2 ^ 64) := by
  obtain ⟨c, rest, scan, hstr, hc, hscan, hfinish⟩ := strToDatetime_accepted h hres
  have hruns : digitRuns (c :: rest) = digitRuns str := by rw [← hstr, digitRuns_dropWhile_isSpace]
  have hread : partsRead str = min scan.i 6 := by rw [partsRead, hstr, hscan]; rfl
  rw [hstr] at hdelim
  rw [if_neg (by rw [hdelim]; decide)] at hfinish
  obtain ⟨rfl, hthree, hdate, hrange⟩ := finishDate_accepted hfinish hres (scanDate_zero hscan)
  have hlong : scan.dateLen.getD 0 0 ≠ 2 := by
    rw [scanDate_yearLength hdelim hc hscan (by omega)]
    rw [← hruns, digitRuns, runs_cons hc, getD_cons_zero] at hyear
    omega
  have hpart : ∀ i < 6, (storeParts scan (scan.dateLen.getD 0 0)).parts.getD i 0 =
      if i < partsRead str then runValue ((digitRuns str).getD i []) % 2 ^ 64 else 0 := by
    intro i hi
    rw [storeParts_parts hlong hi, scanDate_date hdelim hscan hi, hread, hruns]
  refine ⟨hrange, by omega, ?_, fun hall i hi => ?_, fun hall i hi => ?_⟩
  · rw [hdate, hread]
    omega
  · have hvalue := (hpart i (by omega)).symm.trans (hall i (by omega))
    rw [if_pos hi, if_pos hi] at hvalue
    rw [← hvalue]
    exact Nat.mod_lt _ (by decide)
  · refine (hpart i hi).trans ?_
    split
    next hlt => exact Nat.mod_eq_of_lt (hall i hlt)
    next => rfl

theorem strToDatetime_parts_leapDay : ∃ t, strToDatetime (bytes "2004-02-29 10:11:12") .zero 0 = (.datetime, t, 0) ∧
    t.parts = [2004, 2, 29, 10, 11, 12] ∧ InRange 0 t := by
  have haccepted : strToDatetime (bytes "2004-02-29 10:11:12") .zero 0 =
      (.datetime, ⟨2004, 2, 29, 10, 11, 12, 0, false, .datetime⟩, 0) := by decide +kernel
  exact ⟨_, haccepted, rfl, (strToDatetime_parts_iff haccepted (.inr rfl) (by decide +kernel) (by decide +kernel)).1⟩

/-- A month of twenty digits is taken for January. -/
theorem strToDatetime_wraps :
    strToDatetime (bytes "2001-18446744073709551617-28") .zero 0 = (.date, ⟨2001, 1, 28, 0, 0, 0, 0, false, .date⟩, 0) ∧
      runValue ((digitRuns (bytes "2001-18446744073709551617-28")).getD 1 []) = 18446744073709551617 := by
  decide +kernel

end Mysql51.Time
