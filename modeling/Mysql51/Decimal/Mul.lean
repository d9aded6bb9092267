import Mysql51.Decimal.Add

/-!
# Multiplication of decimals

`decimal_mul` adds the rows of the schoolbook method to a buffer of zeroes, row by row from the lowest word of the first factor.
The carry of a row is not bounded by one, and goes on through the words above the row; a carry that would leave the buffer makes
it stop with an overflow.
-/

namespace Mysql51.Decimal

open Machine List

def hi (p : Nat) : Nat := p / digBase

def lo (p : Nat) : Nat := p - hi p * digBase

def plusHi (a : Nat × Nat) (hi : Nat) : Nat × Nat := (a.1, a.2 + hi)

/-- One step of the inner loop of `decimal_mul`: the product of two words is added to the word of the buffer. -/
def mulStep (w1 carry : Nat) (w : Nat × Nat) : Nat × Nat := plusHi (add2 w.1 (lo (w1 * w.2)) carry) (hi (w1 * w.2))

/-- The last loop over a row, while there is a carry. `none` stands for a return with an overflow. -/
def carryUp : Nat → List Nat → Option (List Nat)
  | carry, ws =>
    if carry = 0 then some ws
    else
      match ws with
      | [] => none
      | w :: ws =>
        let (a, carry) := add w 0 carry
        (carryUp carry ws).map (a :: ·)

/-- A row of `decimal_mul`, on the words of the buffer from the one under the lowest word of the second factor up. -/
def mulRow (w1 : Nat) (buf2 buf0 : List Nat) : Option (List Nat) :=
  let (out, carry) := ripple (mulStep w1) 0 (buf0.zip buf2)
  let rest := buf0.drop buf2.length
  if carry = 0 then some (out ++ rest)
  else
    match rest with
    | [] => none
    | w :: rest =>
      let (a, carry) := add2 w 0 carry
      (carryUp carry rest).map fun rest => out ++ a :: rest

def mulRows : List Nat → List Nat → List Nat → Option (List Nat)
  | [], _, buf0 => some buf0
  | w1 :: buf1, buf2, buf0 =>
    match mulRow w1 buf2 buf0 with
    | none => none
    | some [] => some []
    | some (w :: buf0) => (mulRows buf1 buf2 buf0).map (w :: ·)

/-- How `decimal_mul` shortens its factors when the buffer does not hold the product: the words of each before and after the
point. -/
def cutFactors (intg1 frac1 intg2 frac2 : Int) (ideal idealFrac intg0 frac0 : Nat) : Int × Int × Int × Int :=
  if intg0 < ideal then
    let i := ideal - intg0
    let j := i / 2
    (intg1 - j, 0, intg2 - (i - j : Nat), 0)
  else
    let j := idealFrac - frac0
    let i := j / 2
    if frac1 ≤ frac2 then (intg1, frac1 - i, intg2, frac2 - (j - i : Nat))
    else (intg1, frac1 - (j - i : Nat), intg2, frac2 - i)

def stripZeroes : Nat → List Nat → Nat × List Nat
  | intg, w :: buf => if w = 0 ∧ digPerDec1 < intg then stripZeroes (intg - digPerDec1) buf else (intg, w :: buf)
  | intg, [] => (intg, [])

/-- The end of `decimal_mul`: no zero is negative, and no more than one leading word is zero. -/
def mulResult (sign : Bool) (intg0 frac : Nat) (buf : List Nat) : DecimalT :=
  if sign ∧ ∀ w ∈ buf, w = 0 then DecimalT.makeZero
  else
    let (intg, buf) := stripZeroes (intg0 * digPerDec1) buf
    ⟨intg, frac, sign, buf.take (roundUp intg + roundUp frac)⟩

/-- What `decimal_mul` multiplies: the words of the factors from the lowest one up, and the size of the product. -/
structure MulRun where
  buf1 : List Nat
  buf2 : List Nat
  intg0 : Nat
  frac0 : Nat
  frac : Nat
  error : Int

def mulRun (from1 from2 : DecimalT) (len : Nat) : MulRun :=
  let intg1 := roundUp from1.intg
  let intg2 := roundUp from2.intg
  let frac1 := roundUp from1.frac
  let frac2 := roundUp from2.frac
  let ideal := roundUp (from1.intg + from2.intg)
  let (intg0, frac0, error) := fixIntgFracError len ideal (frac1 + frac2)
  let (i1, f1, i2, f2) :=
    if error ≠ eDecOk then cutFactors intg1 frac1 intg2 frac2 ideal (frac1 + frac2) intg0 frac0
    else (↑intg1, ↑frac1, ↑intg2, ↑frac2)
  { buf1 := down from1.buf (intg1 - i1).toNat (intg1 + f1).toNat
    buf2 := down from2.buf (intg2 - i2).toNat (intg2 + f2).toNat
    intg0 := intg0
    frac0 := frac0
    frac := if error ≠ eDecOk then min (from1.frac + from2.frac) (frac0 * digPerDec1) else from1.frac + from2.frac
    error := error }

def decimalMul (from1 from2 : DecimalT) (len : Nat) : Int × Option DecimalT :=
  let r := mulRun from1 from2 len
  match mulRows r.buf1 r.buf2 (List.replicate (r.intg0 + r.frac0) 0) with
  | none => (eDecOverflow, none)
  | some words => (r.error, some (mulResult (from1.sign != from2.sign) r.intg0 r.frac words.reverse))

/-! ### The words that the loops store -/

def carryTrace : Nat → List Nat → List (Nat × Nat)
  | carry, ws =>
    if carry = 0 then []
    else
      match ws with
      | [] => []
      | w :: ws => add w 0 carry :: carryTrace (add w 0 carry).2 ws

def rowTrace (w1 : Nat) (buf2 buf0 : List Nat) : List (Nat × Nat) :=
  let carry := (ripple (mulStep w1) 0 (buf0.zip buf2)).2
  rippleTrace (mulStep w1) 0 (buf0.zip buf2) ++
    if carry = 0 then []
    else
      match buf0.drop buf2.length with
      | [] => []
      | w :: rest => add2 w 0 carry :: carryTrace (add2 w 0 carry).2 rest

def mulTrace : List Nat → List Nat → List Nat → List (Nat × Nat)
  | [], _, _ => []
  | w1 :: buf1, buf2, buf0 =>
    rowTrace w1 buf2 buf0 ++
      match mulRow w1 buf2 buf0 with
      | some (_ :: buf0) => mulTrace buf1 buf2 buf0
      | _ => []

def decimalMulTrace (from1 from2 : DecimalT) (len : Nat) : List (Nat × Nat) :=
  let r := mulRun from1 from2 len
  mulTrace r.buf1 r.buf2 (List.replicate (r.intg0 + r.frac0) 0)

/-! ### One word -/

theorem digMax_succ : digMax + 1 = digBase := rfl

theorem add2_eq (from1 from2 carry : Nat) : add2 from1 from2 carry =
      if 2 * digBase ≤ from1 + from2 + carry then (from1 + from2 + carry - 2 * digBase, 2)
      else if digBase ≤ from1 + from2 + carry then (from1 + from2 + carry - digBase, 1)
      else (from1 + from2 + carry, 0) := by
  unfold add2
  generalize from1 + from2 + carry = a
  dsimp only
  by_cases hone : digBase ≤ a
  · rw [if_pos hone]
    dsimp only
    by_cases htwo : 2 * digBase ≤ a
    · rw [if_pos (by omega), if_pos htwo, Nat.two_mul, Nat.sub_add_eq]
    rw [if_neg (by omega), if_neg htwo]
  rw [if_neg hone]
  dsimp only
  rw [if_neg hone, if_neg (by omega)]

variable {carry : Nat} {w : Nat × Nat} {ws buf : List Nat}

theorem add2_lt {from1 from2 : Nat} (h1 : from1 < digBase) (h2 : from2 < digBase) (hc : carry ≤ digMax) :
    (add2 from1 from2 carry).1 < digBase := by
  have hmax := digMax_succ
  rw [add2_eq]
  split
  · omega
  split <;> dsimp only <;> omega

theorem add2_value (from1 from2 carry : Nat) :
    (add2 from1 from2 carry).1 + digBase * (add2 from1 from2 carry).2 = from1 + from2 + carry := by
  rw [add2_eq]
  split
  · omega
  split <;> dsimp only <;> omega

theorem add2_zero_carry {from1 : Nat} (h1 : from1 < digBase) (hc : carry ≤ digMax) : (add2 from1 0 carry).2 ≤ 1 := by
  have hmax := digMax_succ
  rw [add2_eq, if_neg (by omega)]
  split <;> simp

theorem lo_eq (p : Nat) : lo p = p % digBase := by
  rw [lo, hi, mul_comm _ digBase, Nat.mod_eq_sub]

theorem lo_lt (p : Nat) : lo p < digBase := by
  rw [lo_eq]
  exact Nat.mod_lt p digBase_pos

theorem lo_add_hi (p : Nat) : lo p + digBase * hi p = p := by
  rw [lo_eq, hi, Nat.mod_add_div]

theorem plusHi_fst (a : Nat × Nat) (hi : Nat) : (plusHi a hi).1 = a.1 := rfl

theorem plusHi_snd (a : Nat × Nat) (hi : Nat) : (plusHi a hi).2 = a.2 + hi := rfl

theorem mulStep_value (w1 carry : Nat) (w : Nat × Nat) :
    (mulStep w1 carry w).1 + digBase * (mulStep w1 carry w).2 = w.1 + w1 * w.2 + carry := by
  have hadd := add2_value w.1 (lo (w1 * w.2)) carry
  have hdiv := lo_add_hi (w1 * w.2)
  rw [mulStep, plusHi_fst, plusHi_snd, mul_add]
  omega

/-- A carry that is less than the base stays so: two words, their product and the carry make less than its square. -/
theorem mulStep_spec {w1 : Nat} (h1 : w1 < digBase) (hw : w.1 < digBase) (hw2 : w.2 < digBase)
    (hc : carry ≤ digMax) : (mulStep w1 carry w).1 < digBase ∧ (mulStep w1 carry w).2 ≤ digMax := by
  have hmax := digMax_succ
  constructor
  · rw [mulStep, plusHi_fst]
    exact add2_lt hw (lo_lt _) hc
  have hvalue := mulStep_value w1 carry w
  have hprod : w1 * w.2 ≤ digMax * digMax := Nat.mul_le_mul (by omega) (by omega)
  have hsquare : digBase * digBase = digMax * digMax + 2 * digMax + 1 := by
    rw [← hmax]
    ring
  have hlt : digBase * (mulStep w1 carry w).2 < digBase * digBase := by omega
  have hcarry := Nat.lt_of_mul_lt_mul_left hlt
  omega

/-! ### The loops -/

theorem carryUp_spec (hws : ∀ w ∈ ws, w < digBase) (hc : carry ≤ 1)
    (hroom : ofBase digBase ws.reverse + carry < digBase ^ ws.length) :
    ∃ out, carryUp carry ws = some out ∧ out.length = ws.length ∧ (∀ w ∈ out, w < digBase) ∧
      ofBase digBase out.reverse = ofBase digBase ws.reverse + carry := by
  induction ws generalizing carry with
  | nil =>
    have hzero : carry = 0 := by
      rw [length_nil, pow_zero] at hroom
      omega
    refine ⟨[], ?_, rfl, by simp, ?_⟩
    · rw [carryUp, if_pos hzero]
    rw [hzero, add_zero]
  | cons w ws ih =>
    by_cases hzero : carry = 0
    · refine ⟨w :: ws, ?_, rfl, hws, ?_⟩
      · rw [carryUp, if_pos hzero]
      rw [hzero, add_zero]
    have hvalue : (add w 0 carry).1 + digBase * (add w 0 carry).2 = w + carry := by
      have hvalue := add_value w 0 carry
      push_cast at hvalue
      zify
      linarith
    rw [ofBase_reverse_cons, length_cons, pow_succ] at hroom
    obtain ⟨out, hout, hlen, hword, hsum⟩ := ih (fun v hv => hws v (mem_cons_of_mem w hv)) (add_carry w 0 carry) (by nlinarith)
    refine ⟨(add w 0 carry).1 :: out, ?_, ?_, fun v hv => ?_, ?_⟩
    · rw [carryUp, if_neg hzero]
      dsimp only
      rw [hout]
      rfl
    · rw [length_cons, hlen, length_cons]
    · rcases mem_cons.1 hv with rfl | hv
      · exact add_lt (hws w mem_cons_self) digBase_pos hc
      exact hword v hv
    rw [ofBase_reverse_cons, ofBase_reverse_cons, hsum, mul_add]
    omega

section

variable {w1 : Nat} {buf2 buf0 : List Nat} (hw1 : w1 < digBase) (hbuf2 : ∀ w ∈ buf2, w < digBase)
  (hbuf0 : ∀ w ∈ buf0, w < digBase)
include hw1 hbuf2 hbuf0

omit hw1 in
theorem mulStep_of_mem (hw : w ∈ buf0.zip buf2) : w.1 < digBase ∧ w.2 < digBase :=
  ⟨hbuf0 w.1 (of_mem_zip hw).1, hbuf2 w.2 (of_mem_zip hw).2⟩

theorem mulWords_stretch (hlen : buf2.length ≤ buf0.length) :
    Stretch digBase digMax 1 (ripple (mulStep w1) 0 (buf0.zip buf2)).1 (ripple (mulStep w1) 0 (buf0.zip buf2)).2 buf2.length
      (ofBase digBase (buf0.take buf2.length).reverse + w1 * ofBase digBase buf2.reverse) := by
  have hcount : (buf0.take buf2.length).length = buf2.length := by rw [length_take, min_eq_left hlen]
  have hrun := Stretch.ripple (b := digBase) (k := digMax) (s := 1) (mulStep w1) (fun w => 1 * (w.1 : ℤ) + w1 * w.2)
    (buf0.zip buf2) (fun w hw c hc => ?_) (Nat.zero_le digMax)
  · have hweigh := weigh_zip digBase 1 w1 hcount
    rw [← zip_take hlen] at hweigh
    rw [hweigh, length_zip, min_eq_right hlen, one_mul, Nat.cast_zero, mul_zero, add_zero] at hrun
    exact hrun
  obtain ⟨hfst, hsnd⟩ := mulStep_of_mem hbuf2 hbuf0 hw
  obtain ⟨hword, hcarry⟩ := mulStep_spec hw1 hfst hsnd hc
  have hvalue := mulStep_value w1 c w
  refine ⟨hword, hcarry, ?_⟩
  zify at hvalue
  linear_combination hvalue

/-- A row adds a multiple of the second factor to the buffer, as long as the buffer has room for the sum. -/
theorem mulRow_spec (hlen : buf2.length ≤ buf0.length)
    (hroom : ofBase digBase buf0.reverse + w1 * ofBase digBase buf2.reverse < digBase ^ buf0.length) :
    ∃ out, mulRow w1 buf2 buf0 = some out ∧ out.length = buf0.length ∧ (∀ w ∈ out, w < digBase) ∧
      ofBase digBase out.reverse = ofBase digBase buf0.reverse + w1 * ofBase digBase buf2.reverse := by
  have hstretch := mulWords_stretch hw1 hbuf2 hbuf0 hlen
  have hsplit := ofBase_reverse_append digBase (buf0.take buf2.length) (buf0.drop buf2.length)
  rw [take_append_drop, length_take, min_eq_left hlen] at hsplit
  have hlenrest : (buf0.drop buf2.length).length = buf0.length - buf2.length := length_drop
  have hrest : ∀ w ∈ buf0.drop buf2.length, w < digBase := fun w hw => hbuf0 w (mem_of_mem_drop hw)
  rcases hrun : ripple (mulStep w1) 0 (buf0.zip buf2) with ⟨out, carry⟩
  rw [hrun] at hstretch
  have hvalue : ofBase digBase out.reverse + digBase ^ buf2.length * carry =
      ofBase digBase (buf0.take buf2.length).reverse + w1 * ofBase digBase buf2.reverse := by
    have hvalue := hstretch.value
    rw [one_mul] at hvalue
    exact_mod_cast hvalue
  -- the buffer, with the carry of the row still to be added above it
  have hsum : ofBase digBase buf0.reverse + w1 * ofBase digBase buf2.reverse = ofBase digBase out.reverse +
      digBase ^ buf2.length * (ofBase digBase (buf0.drop buf2.length).reverse + carry) := by
    rw [hsplit, mul_add]
    omega
  have hpow : digBase ^ buf0.length = digBase ^ buf2.length * digBase ^ (buf0.drop buf2.length).length := by
    rw [← pow_add, hlenrest, Nat.add_sub_cancel' hlen]
  have hroom' : ofBase digBase (buf0.drop buf2.length).reverse + carry < digBase ^ (buf0.drop buf2.length).length := by
    rw [hsum, hpow] at hroom
    exact Nat.lt_of_mul_lt_mul_left (lt_of_le_of_lt (Nat.le_add_left _ _) hroom)
  have hlenout : out.length = buf2.length := hstretch.length
  have hlenall : buf0.length = out.length + (buf0.drop buf2.length).length := by omega
  unfold mulRow
  simp only [hrun]
  rw [hsum, hlenall, ← hlenout]
  rw [← hlenout] at hrest hroom'
  generalize buf0.drop out.length = rest at *
  by_cases hzero : carry = 0
  · refine ⟨out ++ rest, by rw [if_pos hzero], length_append, fun w hw => ?_, ?_⟩
    · exact (mem_append.1 hw).elim (hstretch.word w) (hrest w)
    rw [ofBase_reverse_append, hzero, add_zero]
  cases rest with
  | nil =>
    rw [reverse_nil, ofBase_nil, length_nil, pow_zero] at hroom'
    omega
  | cons w rest =>
    have hw := hrest w mem_cons_self
    have hadd := add2_value w 0 carry
    rw [ofBase_reverse_cons, length_cons, pow_succ] at hroom'
    have hup : digBase * (ofBase digBase rest.reverse + (add2 w 0 carry).2) < digBase * digBase ^ rest.length := by
      rw [mul_comm digBase (digBase ^ _), mul_add]
      omega
    obtain ⟨high, hhigh, hhighlen, hhighword, hhighsum⟩ := carryUp_spec
      (fun v hv => hrest v (mem_cons_of_mem w hv)) (add2_zero_carry hw hstretch.carry_le)
      (Nat.lt_of_mul_lt_mul_left hup)
    refine ⟨out ++ (add2 w 0 carry).1 :: high, ?_, ?_, fun v hv => ?_, ?_⟩
    · rw [if_neg hzero]
      dsimp only
      rw [hhigh]
      rfl
    · rw [length_append, length_cons, length_cons, hhighlen]
    · rcases mem_append.1 hv with hv | hv
      · exact hstretch.word v hv
      rcases mem_cons.1 hv with rfl | hv
      · exact add2_lt hw digBase_pos hstretch.carry_le
      exact hhighword v hv
    have hstep : (add2 w 0 carry).1 + digBase * (ofBase digBase rest.reverse + (add2 w 0 carry).2) =
        w + digBase * ofBase digBase rest.reverse + carry := by
      rw [mul_add]
      omega
    rw [ofBase_reverse_append, ofBase_reverse_cons, ofBase_reverse_cons, hhighsum, hstep]

end

theorem carryTrace_lt (hws : ∀ w ∈ ws, w < digBase) (hc : carry ≤ 1) : ∀ t ∈ carryTrace carry ws, t.1 < digBase ∧ t.2 ≤ 1 := by
  induction ws generalizing carry with
  | nil =>
    intro t ht
    rw [carryTrace, ite_self] at ht
    cases ht
  | cons w ws ih =>
    intro t ht
    rw [carryTrace] at ht
    split at ht
    · cases ht
    rcases mem_cons.1 ht with rfl | ht
    · exact ⟨add_lt (hws w mem_cons_self) digBase_pos hc, add_carry w 0 carry⟩
    exact ih (fun v hv => hws v (mem_cons_of_mem w hv)) (add_carry w 0 carry) t ht

theorem rowTrace_lt {w1 : Nat} {buf2 buf0 : List Nat} (hw1 : w1 < digBase) (hbuf2 : ∀ w ∈ buf2, w < digBase)
    (hbuf0 : ∀ w ∈ buf0, w < digBase) (hlen : buf2.length ≤ buf0.length) :
    ∀ t ∈ rowTrace w1 buf2 buf0, t.1 < digBase ∧ t.2 ≤ digMax := by
  have hstretch := mulWords_stretch hw1 hbuf2 hbuf0 hlen
  have hrest : ∀ w ∈ buf0.drop buf2.length, w < digBase := fun w hw => hbuf0 w (mem_of_mem_drop hw)
  have hone : 1 ≤ digMax := by decide
  intro t ht
  rw [rowTrace] at ht
  rcases mem_append.1 ht with ht | ht
  · refine forall_rippleTrace (fun w hw c hc => ?_) (Nat.zero_le digMax) t ht
    obtain ⟨hfst, hsnd⟩ := mulStep_of_mem hbuf2 hbuf0 hw
    exact mulStep_spec hw1 hfst hsnd hc
  split at ht
  · cases ht
  generalize buf0.drop buf2.length = rest at *
  cases rest with
  | nil => cases ht
  | cons w rest =>
    have hw := hrest w mem_cons_self
    have hcarry := add2_zero_carry hw hstretch.carry_le
    rcases mem_cons.1 ht with rfl | ht
    · exact ⟨add2_lt hw digBase_pos hstretch.carry_le, le_trans hcarry hone⟩
    obtain ⟨hword, hle⟩ := carryTrace_lt (fun v hv => hrest v (mem_cons_of_mem w hv)) hcarry t ht
    exact ⟨hword, le_trans hle hone⟩

/-- The rows add the product of the factors to the buffer, as long as the buffer has room for the sum. -/
theorem mulRows_spec (buf1 buf2 buf0 : List Nat) (hbuf1 : ∀ w ∈ buf1, w < digBase) (hbuf2 : ∀ w ∈ buf2, w < digBase)
    (hbuf0 : ∀ w ∈ buf0, w < digBase) (hlen : buf1 ≠ [] → buf1.length + buf2.length ≤ buf0.length + 1)
    (hroom : ofBase digBase buf0.reverse + ofBase digBase buf1.reverse * ofBase digBase buf2.reverse < digBase ^ buf0.length) :
    ∃ out, mulRows buf1 buf2 buf0 = some out ∧ out.length = buf0.length ∧ (∀ w ∈ out, w < digBase) ∧
      ofBase digBase out.reverse = ofBase digBase buf0.reverse + ofBase digBase buf1.reverse * ofBase digBase buf2.reverse ∧
      ∀ t ∈ mulTrace buf1 buf2 buf0, t.1 < digBase ∧ t.2 ≤ digMax := by
  induction buf1 generalizing buf0 with
  | nil =>
    refine ⟨buf0, rfl, rfl, hbuf0, ?_, fun t ht => nomatch ht⟩
    rw [reverse_nil, ofBase_nil, zero_mul, add_zero]
  | cons w1 buf1 ih =>
    have hcount := hlen (cons_ne_nil w1 buf1)
    rw [length_cons] at hcount
    have hw1 := hbuf1 w1 mem_cons_self
    rw [ofBase_reverse_cons, add_mul, ← add_assoc, mul_assoc] at hroom ⊢
    obtain ⟨row, hrow, hrowlen, hrowword, hrowsum⟩ := mulRow_spec hw1 hbuf2 hbuf0 (by omega)
      (lt_of_le_of_lt (Nat.le_add_right _ _) hroom)
    have htrace := rowTrace_lt hw1 hbuf2 hbuf0 (by omega)
    rw [← hrowsum] at hroom ⊢
    rw [← hrowlen] at hroom ⊢ hcount
    rw [mulRows, mulTrace, hrow]
    cases row with
    | nil =>
      -- the buffer has no words, so that both factors are zero
      rw [reverse_nil, ofBase_nil, zero_add, length_nil, pow_zero] at hroom
      refine ⟨[], rfl, rfl, by simp, ?_, fun t ht => ?_⟩
      · rw [reverse_nil, ofBase_nil]
        omega
      rw [append_nil] at ht
      exact htrace t ht
    | cons w row =>
      rw [ofBase_reverse_cons, add_assoc, ← mul_add, length_cons, pow_succ] at hroom
      have hroom' : digBase * (ofBase digBase row.reverse + ofBase digBase buf1.reverse * ofBase digBase buf2.reverse) <
          digBase * digBase ^ row.length := by
        rw [mul_comm digBase (digBase ^ _)]
        omega
      obtain ⟨out, hout, houtlen, houtword, houtsum, houttrace⟩ := ih row (fun v hv => hbuf1 v (mem_cons_of_mem w1 hv))
        (fun v hv => hrowword v (mem_cons_of_mem w hv))
        (fun _ => by rw [length_cons] at hcount; omega) (Nat.lt_of_mul_lt_mul_left hroom')
      refine ⟨w :: out, ?_, ?_, fun v hv => ?_, ?_, fun t ht => ?_⟩
      · dsimp only
        rw [hout]
        rfl
      · rw [length_cons, houtlen, length_cons]
      · rcases mem_cons.1 hv with rfl | hv
        · exact hrowword v mem_cons_self
        exact houtword v hv
      · rw [ofBase_reverse_cons, ofBase_reverse_cons, houtsum, mul_add, add_assoc]
      exact (mem_append.1 ht).elim (htrace t) (houttrace t)

/-! ### The product -/

theorem stripZeroes_spec (n : Nat) (buf : List Nat) (hlen : n ≤ buf.length) :
    ∃ k m, n = k + m ∧ buf = List.replicate k 0 ++ buf.drop k ∧
      stripZeroes (n * digPerDec1) buf = (m * digPerDec1, buf.drop k) := by
  induction buf generalizing n with
  | nil => exact ⟨0, n, (zero_add n).symm, rfl, rfl⟩
  | cons w buf ih =>
    by_cases hstrip : w = 0 ∧ digPerDec1 < n * digPerDec1
    · obtain ⟨n, rfl⟩ : ∃ m, n = m + 1 := ⟨n - 1, by unfold digPerDec1 at hstrip; omega⟩
      obtain ⟨k, m, hn, hbuf, hresult⟩ := ih n (Nat.le_of_succ_le_succ hlen)
      refine ⟨k + 1, m, by omega, ?_, ?_⟩
      · rw [replicate_succ, cons_append, drop_succ_cons, ← hbuf, hstrip.1]
      rw [stripZeroes, if_pos hstrip, add_mul, one_mul, Nat.add_sub_cancel, hresult, drop_succ_cons]
    exact ⟨0, n, (zero_add n).symm, rfl, by rw [stripZeroes, if_neg hstrip, drop_zero]⟩

theorem ofBase_take_of_dvd (hbuf : ∀ w ∈ buf, w < digBase) {n t : Nat} (hlen : buf.length = n + t)
    (hdvd : digBase ^ t ∣ ofBase digBase buf) : ofBase digBase (buf.take n) * digBase ^ t = ofBase digBase buf := by
  have hdrop : (buf.drop n).length = t := by rw [length_drop, hlen, Nat.add_sub_cancel_left]
  have hlt := ofBase_lt (fun w hw => hbuf w (mem_of_mem_drop (i := n) hw))
  have hsplit := ofBase_append digBase (buf.take n) (buf.drop n)
  rw [take_append_drop, hdrop] at hsplit
  rw [hdrop] at hlt
  have hzero : ofBase digBase (buf.drop n) = 0 := by
    apply Nat.eq_zero_of_dvd_of_lt _ hlt
    rw [hsplit] at hdvd
    exact (Nat.dvd_add_right (Dvd.intro_left _ rfl)).1 hdvd
  rw [hsplit, hzero, add_zero]

theorem eq_zero_of_ofBase (h : ofBase digBase ws = 0) : ∀ w ∈ ws, w = 0 := by
  induction ws with
  | nil => simp
  | cons v ws ih =>
    rw [ofBase_cons, Nat.add_eq_zero_iff, Nat.mul_eq_zero] at h
    intro w hw
    rcases mem_cons.1 hw with rfl | hw
    · exact h.1.resolve_right (pow_pos digBase_pos _).ne'
    exact ih h.2 w hw

theorem mulResult_spec (sign : Bool) {intg0 frac0 : Nat} (frac : Nat) (hlen : buf.length = intg0 + frac0)
    (hbuf : ∀ w ∈ buf, w < digBase) (hfrac : roundUp frac ≤ frac0)
    (hdvd : 10 ^ (digPerDec1 * frac0 - frac) ∣ ofBase digBase buf) : (mulResult sign intg0 frac buf).WellFormed ∧
      (mulResult sign intg0 frac buf).value =
        (if sign then -1 else 1) * ((ofBase digBase buf : Rat) / (digBase ^ frac0 : Nat)) := by
  unfold mulResult
  by_cases hzero : sign ∧ ∀ w ∈ buf, w = 0
  · rw [if_pos hzero]
    refine ⟨DecimalT.makeZero_wellFormed, ?_⟩
    rw [DecimalT.makeZero_value, eq_replicate_of_mem hzero.2, ofBase_replicate_zero]
    simp
  rw [if_neg hzero]
  obtain ⟨k, m, hn, hstrip, hresult⟩ := stripZeroes_spec intg0 buf (by omega)
  have hrest : ofBase digBase (buf.drop k) = ofBase digBase buf := by
    conv_rhs => rw [hstrip]
    rw [ofBase_append, ofBase_replicate_zero, zero_mul, zero_add]
  have hrestlen : (buf.drop k).length = m + roundUp frac + (frac0 - roundUp frac) := by
    rw [length_drop]
    omega
  have hword : ∀ w ∈ buf.drop k, w < digBase := fun w hw => hbuf w (mem_of_mem_drop hw)
  have hexp : digPerDec1 * frac0 - frac = fill frac + digPerDec1 * (frac0 - roundUp frac) := by
    unfold fill
    have hle : frac ≤ digPerDec1 * roundUp frac := by unfold roundUp digPerDec1; omega
    rw [Nat.mul_sub]
    have hmono := Nat.mul_le_mul_left digPerDec1 hfrac
    omega
  rw [hexp, pow_add, ← digBase_pow, ← hrest] at hdvd
  have htake := ofBase_take_of_dvd hword hrestlen (dvd_trans (Dvd.intro_left _ rfl) hdvd)
  rw [← htake] at hdvd
  rw [hresult, ← hrest]
  dsimp only
  rw [roundUp_mul]
  have hlaid : (⟨m * digPerDec1, frac, sign, (buf.drop k).take (m + roundUp frac)⟩ : DecimalT).LaidOut := by
    refine DecimalT.LaidOut.of_digits ?_ (fun w hw => hword w (mem_of_mem_take hw)) ?_
    · rw [length_take, hrestlen]
      omega
    exact Nat.dvd_of_mul_dvd_mul_right (pow_pos digBase_pos _) hdvd
  refine ⟨hlaid.wellFormed fun hdigits => ?_, ?_⟩
  · cases sign with
    | false => rfl
    | true =>
      have hnone : ofBase digBase ((buf.drop k).take (m + roundUp frac)) = 0 := hdigits
      rw [hnone, zero_mul] at htake
      exact absurd ⟨rfl, eq_zero_of_ofBase (hrest ▸ htake.symm)⟩ hzero
  have hmag := DecimalT.magnitude_eq_aligned ⟨m * digPerDec1, frac, sign, (buf.drop k).take (m + roundUp frac)⟩ hfrac
  rw [DecimalT.value_eq_magnitude, hmag, DecimalT.digits]
  rw [htake]
  split
  · rw [neg_one_mul]
  rw [one_mul]

theorem DecimalT.LaidOut.digits_lt {d : DecimalT} (h : d.LaidOut) : d.digits < 10 ^ d.intg * digBase ^ roundUp d.frac := by
  rcases Nat.eq_zero_or_pos d.intg with hzero | hpos
  · have hlt := ofBase_lt h.word
    rw [h.length, hzero, roundUp_zero, zero_add] at hlt
    rwa [hzero, pow_zero, one_mul]
  have hintg := roundUp_eq hpos
  have hwords : 0 < roundUp d.intg := by
    unfold roundUp digPerDec1
    omega
  obtain ⟨n, hn⟩ : ∃ n, roundUp d.intg = n + 1 := ⟨roundUp d.intg - 1, by omega⟩
  have hlt := h.aligned_lt_head le_rfl (n := n + roundUp d.frac) (by omega)
  rw [Nat.sub_self, pow_zero, Nat.mul_one] at hlt
  have hhead := head_lt_of_intg h hwords
  rw [hintg, hn, Nat.add_sub_cancel, pow_add, ← digBase_pow]
  calc d.digits < (d.buf.headD 0 + 1) * digBase ^ (n + roundUp d.frac) := hlt
    _ ≤ 10 ^ topDigits d.intg * digBase ^ (n + roundUp d.frac) := Nat.mul_le_mul_right _ hhead
    _ = digBase ^ n * 10 ^ topDigits d.intg * digBase ^ roundUp d.frac := by
      rw [pow_add]
      ring

theorem roundUp_add_le (m n : Nat) : roundUp m + roundUp n ≤ roundUp (m + n) + 1 := by
  unfold roundUp digPerDec1
  omega

theorem ten_pow_le (n : Nat) : 10 ^ n ≤ digBase ^ roundUp n := by
  rw [digBase_pow]
  apply Nat.pow_le_pow_right (by decide)
  unfold roundUp digPerDec1
  omega

theorem mulRun_eq {from1 from2 : DecimalT} (h1 : from1.LaidOut) (h2 : from2.LaidOut) {len : Nat}
    (hlen : decimalResultSize from1 from2 .times 0 ≤ len) : mulRun from1 from2 len =
      ⟨from1.buf.reverse, from2.buf.reverse, roundUp (from1.intg + from2.intg), roundUp from1.frac + roundUp from2.frac,
        from1.frac + from2.frac, eDecOk⟩ := by
  have hfits : roundUp (from1.intg + from2.intg) + (roundUp from1.frac + roundUp from2.frac) ≤ len := by
    rw [← add_assoc]
    exact hlen
  have hall : ∀ d : DecimalT, d.LaidOut →
      down d.buf ((roundUp d.intg : Int) - roundUp d.intg).toNat ((roundUp d.intg : Int) + roundUp d.frac).toNat =
        d.buf.reverse := by
    intro d hd
    rw [Int.sub_self, Int.toNat_zero, ← Nat.cast_add, Int.toNat_natCast, ← hd.length, down, take_length, drop_zero]
  unfold mulRun
  simp only [fixIntgFracError_fits hfits, ne_eq, not_true_eq_false, if_false]
  rw [hall from1 h1, hall from2 h2]

example : decimalMul ⟨1, 1, true, [0, 500000000]⟩ ⟨1, 0, false, [0]⟩ 3 = (eDecOk, some DecimalT.makeZero) := by decide

end Mysql51.Decimal
