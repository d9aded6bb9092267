import Mathlib.Data.Rat.Floor
import Mysql51.Decimal.Words

/-!
# Decimals and integers

`decimal2longlong` builds up the negative of the integer part, for there is one negative integer more than there are positive
ones. A word more makes the number wrap around exactly when one of the two comparisons after it holds.
-/

namespace Mysql51.Decimal

open Machine List

def longlongMin : Int := -2 ^ 63

def longlongMax : Int := 2 ^ 63 - 1

def ullWords (n : Nat) : Nat := if digBase ≤ n then ullWords (n / digBase) + 1 else 1
termination_by n
decreasing_by exact Nat.div_lt_self (by unfold digBase at *; omega) (by decide)

/-- The second loop of `ull2dec`, which writes the words from the lowest one on. -/
def lowWords : Nat → Nat → List Nat
  | 0, _ => []
  | intg1 + 1, x => lowWords intg1 (x / digBase) ++ [x - x / digBase * digBase]

def ull2dec (n len : Nat) (sign : Bool) : Int × DecimalT :=
  let intg1 := min (ullWords n) len
  (if len < ullWords n then eDecOverflow else eDecOk, ⟨intg1 * digPerDec1, 0, sign, lowWords intg1 n⟩)

def ulonglong2decimal (n len : Nat) : Int × DecimalT := ull2dec n len false

def longlong2decimal (n : Int) (len : Nat) : Int × DecimalT :=
  if n < 0 then ull2dec ((-n) % 2 ^ 64).toNat len true else ull2dec (n % 2 ^ 64).toNat len false

def ullLoop : List Nat → Nat → Option Nat
  | [], x => some x
  | w :: ws, y =>
    let x := (y * digBase + w) % 2 ^ 64
    if (2 ^ 64 - 1) / digBase < y ∨ x < y then none else ullLoop ws x

def llLoop : List Nat → Int → Option Int
  | [], x => some x
  | w :: ws, y =>
    let x := (y * digBase - w).bmod (2 ^ 64)
    if y < longlongMin.tdiv digBase ∨ y < x then none else llLoop ws x

def fracError (d : DecimalT) : Int := if d.fracWords.any (· ≠ 0) then eDecTruncated else eDecOk

def decimal2ulonglong (d : DecimalT) : Int × Nat :=
  if d.sign then (eDecOverflow, 0)
  else
    match ullLoop d.intgWords 0 with
    | none => (eDecOverflow, 2 ^ 64 - 1)
    | some x => (fracError d, x)

def decimal2longlong (d : DecimalT) : Int × Int :=
  match llLoop d.intgWords 0 with
  | none => (eDecOverflow, if d.sign then longlongMin else longlongMax)
  | some x =>
    if d.sign = false ∧ x = longlongMin then (eDecOverflow, longlongMax)
    else (fracError d, if d.sign then x else (-x).bmod (2 ^ 64))

/-! ### The loops over the words before the point -/

theorem ofBase_behind (w y : Nat) (ws : List Nat) :
    y * digBase ^ (w :: ws).length + ofBase digBase (w :: ws) = (y * digBase + w) * digBase ^ ws.length + ofBase digBase ws := by
  rw [length_cons, ofBase_cons, pow_succ]
  ring

theorem le_behind (n : Nat) (ws : List Nat) : n ≤ n * digBase ^ ws.length + ofBase digBase ws :=
  (Nat.le_mul_of_pos_right n (pow_pos digBase_pos _)).trans (Nat.le_add_right _ _)

theorem ullLoop_eq {ws : List Nat} (hword : ∀ w ∈ ws, w < digBase) {y : Nat} (hy : y < 2 ^ 64) : ullLoop ws y =
      if y * digBase ^ ws.length + ofBase digBase ws < 2 ^ 64 then some (y * digBase ^ ws.length + ofBase digBase ws) else none := by
  induction ws generalizing y with
  | nil =>
    rw [ofBase_nil, length_nil, pow_zero, mul_one, add_zero, if_pos hy]
    rfl
  | cons w ws ih =>
    have hw : w < digBase := hword w mem_cons_self
    have hbehind := le_behind (y * digBase + w) ws
    rw [ofBase_behind, ullLoop]
    by_cases hfits : y * digBase + w < 2 ^ 64
    · rw [Nat.mod_eq_of_lt hfits, if_neg (by unfold digBase at *; omega)]
      exact ih (fun v hv => hword v (mem_cons_of_mem w hv)) hfits
    rw [if_pos (by unfold digBase at *; omega), if_neg (by omega)]

theorem llLoop_eq {ws : List Nat} (hword : ∀ w ∈ ws, w < digBase) {n : Nat} (hn : n ≤ 2 ^ 63) :
    llLoop ws (-(n : Int)) = if n * digBase ^ ws.length + ofBase digBase ws ≤ 2 ^ 63 then
      some (-((n * digBase ^ ws.length + ofBase digBase ws : Nat) : Int)) else none := by
  induction ws generalizing n with
  | nil =>
    rw [ofBase_nil, length_nil, pow_zero, mul_one, add_zero, if_pos hn]
    rfl
  | cons w ws ih =>
    have hw : w < digBase := hword w mem_cons_self
    have hbehind := le_behind (n * digBase + w) ws
    have hlimit : longlongMin.tdiv digBase = -9223372036 := by decide
    have hexact : -(n : Int) * digBase - w = -((n * digBase + w : Nat) : Int) := by
      push_cast
      ring
    rw [ofBase_behind, llLoop, hlimit, hexact]
    by_cases hfits : n * digBase + w ≤ 2 ^ 63
    · have hwrap : (-((n * digBase + w : Nat) : Int)).bmod (2 ^ 64) = -((n * digBase + w : Nat) : Int) := by
        rw [Int.bmod_def]
        split <;> omega
      rw [hwrap, if_neg (by unfold digBase at *; omega)]
      exact ih (fun v hv => hword v (mem_cons_of_mem w hv)) hfits
    have htest : -(n : Int) < -9223372036 ∨ -(n : Int) < (-((n * digBase + w : Nat) : Int)).bmod (2 ^ 64) := by
      rw [Int.bmod_def]
      unfold digBase at *
      split <;> omega
    rw [if_pos htest, if_neg (by omega)]

/-! ### The words of an integer -/

theorem length_lowWords (k x : Nat) : (lowWords k x).length = k := by
  induction k generalizing x with
  | zero => rfl
  | succ k ih => rw [lowWords, length_append, ih, length_singleton]

theorem lowWords_lt (k x : Nat) : ∀ w ∈ lowWords k x, w < digBase := by
  induction k generalizing x with
  | zero => exact fun w hw => nomatch hw
  | succ k ih =>
    intro w hw
    rcases mem_append.1 hw with hhigh | hlow
    · exact ih _ w hhigh
    rw [mem_singleton.1 hlow]
    unfold digBase
    omega

theorem ofBase_lowWords (k x : Nat) : ofBase digBase (lowWords k x) = x % digBase ^ k := by
  induction k generalizing x with
  | zero => rw [pow_zero, Nat.mod_one]; rfl
  | succ k ih =>
    rw [lowWords, ofBase_concat, ih, pow_succ', Nat.mod_mul, mul_comm]
    have hlow : x - x / digBase * digBase = x % digBase := by rw [Nat.mod_eq_sub_div_mul]
    omega

theorem lt_pow_ullWords (n : Nat) : n < digBase ^ ullWords n := by
  induction n using ullWords.induct with
  | case1 n hn ih =>
    rw [ullWords, if_pos hn, pow_succ]
    exact (Nat.div_lt_iff_lt_mul digBase_pos).1 ih
  | case2 n hn => rw [ullWords, if_neg hn, pow_one]; omega

theorem ullWords_le {n k : Nat} (hn : n < digBase ^ (k + 1)) : ullWords n ≤ k + 1 := by
  induction k generalizing n with
  | zero => rw [ullWords, if_neg (by rw [pow_one] at hn; omega)]
  | succ k ih =>
    rw [ullWords]
    split
    · exact Nat.succ_le_succ (ih ((Nat.div_lt_iff_lt_mul digBase_pos).2 (by rwa [← pow_succ])))
    · omega

theorem ull2dec_eq {n len : Nat} (hn : n < 2 ^ 64) (hlen : 3 ≤ len) (sign : Bool) : ∃ ws,
    ull2dec n len sign = (eDecOk, ⟨ws.length * digPerDec1, 0, sign, ws⟩) ∧ (∀ w ∈ ws, w < digBase) ∧ ofBase digBase ws = n := by
  have hle : ullWords n ≤ len := (@ullWords_le n 2 (hn.trans (by decide))).trans hlen
  refine ⟨lowWords (ullWords n) n, ?_, lowWords_lt _ _, ?_⟩
  · rw [ull2dec, if_neg (by omega), min_eq_left hle, length_lowWords]
  · rw [ofBase_lowWords, Nat.mod_eq_of_lt (lt_pow_ullWords n)]

/-! ### The integer part -/

def integerPart (d : DecimalT) : Int := if 0 ≤ d.value then ⌊d.value⌋ else ⌈d.value⌉

variable {d : DecimalT}

theorem floor_magnitude (h : d.LaidOut) : ⌊d.magnitude⌋ = (ofBase digBase d.intgWords : Int) := by
  have hfrac : d.fracWords.length = roundUp d.frac := by
    rw [DecimalT.fracWords, length_drop, h.length, Nat.add_sub_cancel_left]
  have hlow := ofBase_lt fun w (hw : w ∈ d.fracWords) => h.word w (mem_of_mem_drop hw)
  have hdigits := ofBase_append digBase d.intgWords d.fracWords
  rw [DecimalT.intgWords_append_fracWords, hfrac] at hdigits
  rw [hfrac] at hlow
  have hdiv : d.digits / digBase ^ roundUp d.frac = ofBase digBase d.intgWords := by
    rw [DecimalT.digits, hdigits, mul_comm, Nat.mul_add_div (pow_pos digBase_pos _), Nat.div_eq_of_lt hlow, add_zero]
  rw [DecimalT.magnitude, ← Int.cast_natCast d.digits, Rat.floor_intCast_div_natCast, ← hdiv]
  exact (Int.natCast_div _ _).symm

theorem magnitude_nonneg (d : DecimalT) : 0 ≤ d.magnitude := div_nonneg (Nat.cast_nonneg _) (Nat.cast_nonneg _)

theorem integerPart_eq (h : d.LaidOut) :
    integerPart d = if d.sign then -(ofBase digBase d.intgWords : Int) else ofBase digBase d.intgWords := by
  have hnonneg := magnitude_nonneg d
  rw [integerPart, DecimalT.value_eq_magnitude, ← floor_magnitude h]
  cases d.sign with
  | false => exact if_pos hnonneg
  | true =>
    rw [if_pos rfl, if_pos rfl, Int.ceil_neg]
    split
    · next hneg =>
      rw [le_antisymm (neg_nonneg.1 hneg) hnonneg, neg_zero, Int.floor_zero, neg_zero]
    rfl

theorem value_neg_iff (h : d.WellFormed) : d.value < 0 ↔ d.sign = true := by
  have hnonneg := magnitude_nonneg d
  rw [DecimalT.value_eq_magnitude]
  cases hsign : d.sign with
  | false => simpa using hnonneg
  | true =>
    have hdigits : d.digits ≠ 0 := fun hzero => Bool.false_ne_true ((h.zero hzero).symm.trans hsign)
    have hpos : 0 < d.magnitude :=
      div_pos (Nat.cast_pos.2 (Nat.pos_of_ne_zero hdigits)) (Nat.cast_pos.2 (pow_pos digBase_pos _))
    simpa using hpos

/-- The words before the point are added up as long as the number fits, and of two bounds the one on its side is taken. -/
theorem decimal2longlong_eq (h : d.LaidOut) : decimal2longlong d =
    if integerPart d < -2 ^ 63 then (eDecOverflow, -2 ^ 63) else if 2 ^ 63 ≤ integerPart d then (eDecOverflow, 2 ^ 63 - 1)
    else (fracError d, integerPart d) := by
  have hloop := @llLoop_eq d.intgWords (fun w hw => h.word w (mem_of_mem_take hw)) 0 (Nat.zero_le _)
  rw [zero_mul, zero_add, Nat.cast_zero, neg_zero] at hloop
  rw [decimal2longlong, hloop, integerPart_eq h]
  generalize ofBase digBase d.intgWords = n
  by_cases hn : n ≤ 2 ^ 63
  · rw [if_pos hn]
    cases d.sign with
    | true =>
      simp only [reduceCtorEq, false_and, if_false, if_true]
      rw [if_neg (by omega), if_neg (by omega)]
    | false =>
      simp only [true_and, Bool.false_eq_true, if_false, neg_neg, longlongMin, longlongMax]
      rw [if_neg (show ¬((n : Int) < -2 ^ 63) by omega)]
      by_cases hbound : n = 2 ^ 63
      · rw [if_pos (by omega), if_pos (by omega)]
      have hwrap : (n : Int).bmod (2 ^ 64) = n := by
        rw [Int.bmod_def]
        split <;> omega
      rw [if_neg (by omega), if_neg (by omega), hwrap]
  rw [if_neg hn]
  cases d.sign with
  | true => exact (if_pos (by simp only [if_true]; omega)).symm
  | false =>
    simp only [Bool.false_eq_true, if_false, longlongMax]
    rw [if_neg (by omega), if_pos (by omega)]

theorem decimal2ulonglong_eq (h : d.LaidOut) : decimal2ulonglong d =
    if d.sign then (eDecOverflow, 0) else if 2 ^ 64 ≤ integerPart d then (eDecOverflow, 2 ^ 64 - 1)
    else (fracError d, (integerPart d).toNat) := by
  have hloop := @ullLoop_eq d.intgWords (fun w hw => h.word w (mem_of_mem_take hw)) 0 (by decide)
  rw [zero_mul, zero_add] at hloop
  rw [decimal2ulonglong, hloop, integerPart_eq h]
  cases d.sign with
  | true => rfl
  | false =>
    simp only [Bool.false_eq_true, if_false]
    generalize ofBase digBase d.intgWords = n
    by_cases hn : n < 2 ^ 64
    · rw [if_pos hn, if_neg (by omega), Int.toNat_natCast]
    · rw [if_neg hn, if_pos (by omega)]

/-! ### There and back -/

theorem whole_spec {ws : List Nat} (hword : ∀ w ∈ ws, w < digBase) (sign : Bool) :
    DecimalT.LaidOut ⟨ws.length * digPerDec1, 0, sign, ws⟩ ∧
      integerPart ⟨ws.length * digPerDec1, 0, sign, ws⟩ = (if sign then -(ofBase digBase ws : Int) else ofBase digBase ws) ∧
      fracError ⟨ws.length * digPerDec1, 0, sign, ws⟩ = eDecOk := by
  have hlaid : DecimalT.LaidOut ⟨ws.length * digPerDec1, 0, sign, ws⟩ := DecimalT.LaidOut.of_digits rfl hword (one_dvd _)
  have hintg : DecimalT.intgWords ⟨ws.length * digPerDec1, 0, sign, ws⟩ = ws := by
    rw [DecimalT.intgWords, roundUp_mul, take_length]
  refine ⟨hlaid, by rw [integerPart_eq hlaid, hintg], ?_⟩
  rw [fracError, DecimalT.fracWords, roundUp_mul, drop_length]
  rfl

theorem decimal2longlong_ull2dec {n len : Nat} (hlen : 3 ≤ len) {sign : Bool} (hn : n < 2 ^ 63 + sign.toNat) :
    (ull2dec n len sign).1 = eDecOk ∧ decimal2longlong (ull2dec n len sign).2 = (eDecOk, if sign then -(n : Int) else n) := by
  have hbit := Bool.toNat_le sign
  obtain ⟨ws, hwords, hword, rfl⟩ := @ull2dec_eq n len (by omega) hlen sign
  obtain ⟨hlaid, hpart, hfrac⟩ := whole_spec hword sign
  rw [hwords]
  refine ⟨rfl, ?_⟩
  rw [decimal2longlong_eq hlaid, hpart, hfrac]
  cases sign with
  | true =>
    have hle : ofBase digBase ws < 2 ^ 63 + 1 := hn
    rw [if_pos rfl, if_neg (by omega), if_neg (by omega)]
  | false =>
    have hlt : ofBase digBase ws < 2 ^ 63 := hn
    rw [if_neg Bool.false_ne_true, if_neg (by omega), if_neg (by omega)]

/-- Integers of 64 bits are read back from three words, and a decimal is read as its integer part if that is in the range. -/
theorem integer_conversions {x : Int} (hx : -2 ^ 63 ≤ x ∧ x < 2 ^ 63) {u : Nat} (hu : u < 2 ^ 64) {len : Nat} (hlen : 3 ≤ len)
    (hd : d.WellFormed) : ((longlong2decimal x len).1 = eDecOk ∧ decimal2longlong (longlong2decimal x len).2 = (eDecOk, x)) ∧
      ((ulonglong2decimal u len).1 = eDecOk ∧ decimal2ulonglong (ulonglong2decimal u len).2 = (eDecOk, u)) ∧
      decimal2longlong d =
        (if integerPart d < -2 ^ 63 then (eDecOverflow, -2 ^ 63)
        else if 2 ^ 63 ≤ integerPart d then (eDecOverflow, 2 ^ 63 - 1)
        else (if ∃ w ∈ d.fracWords, w ≠ 0 then eDecTruncated else eDecOk, integerPart d)) ∧
      decimal2ulonglong d =
        (if d.value < 0 then (eDecOverflow, 0)
        else if 2 ^ 64 ≤ integerPart d then (eDecOverflow, 2 ^ 64 - 1)
        else (if ∃ w ∈ d.fracWords, w ≠ 0 then eDecTruncated else eDecOk, (integerPart d).toNat)) := by
  have hfrac : fracError d = if ∃ w ∈ d.fracWords, w ≠ 0 then eDecTruncated else eDecOk := by
    rw [fracError]
    simp only [any_eq_true, decide_eq_true_eq]
  refine ⟨?_, ?_, by rw [decimal2longlong_eq hd.laidOut, hfrac], ?_⟩
  · rw [longlong2decimal]
    by_cases hneg : x < 0
    · have hback := @decimal2longlong_ull2dec ((-x) % 2 ^ 64).toNat len hlen true
        (show ((-x) % 2 ^ 64).toNat < 2 ^ 63 + 1 by omega)
      have hsame : -(((-x) % 2 ^ 64).toNat : Int) = x := by omega
      rw [if_pos rfl, hsame] at hback
      rw [if_pos hneg]
      exact hback
    · have hback := @decimal2longlong_ull2dec (x % 2 ^ 64).toNat len hlen false (by omega)
      have hsame : ((x % 2 ^ 64).toNat : Int) = x := by omega
      rw [if_neg Bool.false_ne_true, hsame] at hback
      rw [if_neg hneg]
      exact hback
  · obtain ⟨ws, hwords, hword, rfl⟩ := ull2dec_eq hu hlen false
    obtain ⟨hlaid, hpart, hzero⟩ := whole_spec hword false
    rw [ulonglong2decimal, hwords]
    refine ⟨rfl, ?_⟩
    rw [decimal2ulonglong_eq hlaid, hpart, hzero, if_neg Bool.false_ne_true, if_neg Bool.false_ne_true, if_neg (by omega),
      Int.toNat_natCast]
  · rw [decimal2ulonglong_eq hd.laidOut, hfrac]
    simp only [value_neg_iff hd]

theorem integer_conversions_bounds :
    decimal2longlong (longlong2decimal (-9223372036854775808) 3).2 = (eDecOk, -9223372036854775808) ∧
      (∀ d : DecimalT, d = ⟨19, 1, false, [9, 223372036, 854775808, 500000000]⟩ → decimal2longlong d = (eDecOverflow, 2 ^ 63 - 1)) := by
  have hd : DecimalT.WellFormed ⟨19, 1, false, [9, 223372036, 854775808, 500000000]⟩ :=
    ⟨rfl, by decide, by decide, by decide, by decide⟩
  obtain ⟨⟨-, hback⟩, -, hread, -⟩ := @integer_conversions _ (-9223372036854775808) (by decide) 0 (by decide) 3 (le_refl 3) hd
  refine ⟨hback, fun d heq => ?_⟩
  rw [heq, hread, integerPart_eq hd.laidOut]
  decide

end Mysql51.Decimal
