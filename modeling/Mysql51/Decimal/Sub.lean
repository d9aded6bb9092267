import Mathlib.Data.List.DropRight
import Mysql51.Decimal.Add

/-!
# Subtraction and comparison of decimals

`do_sub` first finds out which of two decimals has the larger digits: leading words that are zero do not count, nor do
trailing ones where both have as many words before the point. It then takes the words of the smaller one from those of the
larger one, from the lowest word up. `decimal_cmp` is its first half.
-/

namespace Mysql51.Decimal

open Machine List

def skipZeroes : Nat → List Nat → Nat × List Nat
  | intg + 1, w :: buf => if w = 0 then skipZeroes intg buf else (intg + 1, w :: buf)
  | intg, buf => (intg, buf)

/-- The loop of `do_sub` over words that are equal: the carry, or `none` at the end of both numbers. -/
def compareWords : List Nat → List Nat → Option Nat
  | w1 :: buf1, w2 :: buf2 => if w1 = w2 then compareWords buf1 buf2 else some (if w1 < w2 then 1 else 0)
  | _ :: _, [] => some 0
  | [], _ :: _ => some 1
  | [], [] => none

/-- How `do_sub` sets the carry to one when the second operand is larger, and the words after the point that it leaves
them, fewer than none when words before the point are trailing zeroes. `none` when the operands are equal. -/
def compareOperands (intg1 : Nat) (frac1 : Int) (start1 : List Nat) (intg2 : Nat) (frac2 : Int) (start2 : List Nat) :
    Option (Nat × Int × Int) :=
  if intg1 < intg2 then some (1, frac1, frac2)
  else if intg2 = intg1 then
    let words1 := start1.rdropWhile (· == 0)
    let words2 := start2.rdropWhile (· == 0)
    (compareWords words1 words2).map fun carry => (carry, (words1.length : Int) - intg1, (words2.length : Int) - intg2)
  else some (0, frac1, frac2)

/-- Part 1 of `do_sub`: the words below those that both operands have, what is left of the operands, and the carry. -/
def subLow (frac1 : Int) (buf1 : List Nat) (frac2 : Int) (buf2 : List Nat) (frac0 : Nat) :
    List Nat × List Nat × List Nat × Nat :=
  if frac2 < frac1 then
    (List.replicate (frac0 - frac1).toNat 0 ++ buf1.take (frac1 - frac2).toNat, buf1.drop (frac1 - frac2).toNat, buf2, 0)
  else
    let (out, carry) := ripple (fun carry w => sub 0 w carry) 0 (buf2.take (frac2 - frac1).toNat)
    (List.replicate (frac0 - frac2).toNat 0 ++ out, buf1, buf2.drop (frac2 - frac1).toNat, carry)

/-- The words that the loops of `do_sub` write, from the lowest one up. In part 3 words are copied once the carry is gone. -/
def subLoops (intg1 : Nat) (frac1 : Int) (start1 : List Nat) (intg2 : Nat) (frac2 : Int) (start2 : List Nat) (frac0 : Nat) :
    List Nat :=
  let buf1 := (start1.take (intg1 + frac1).toNat).reverse
  let buf2 := (start2.take (intg2 + frac2).toNat).reverse
  let (low, buf1, buf2, carry) := subLow frac1 buf1 frac2 buf2 frac0
  let (mid, carry) := ripple (fun carry w => sub w.1 w.2 carry) carry (buf1.zip buf2)
  let (high, _) := ripple (fun carry w => if carry = 0 then (w, 0) else sub w 0 carry) carry (buf1.drop buf2.length)
  low ++ mid ++ high

/-- The second half of `do_sub`, with the larger operand first. There is no result when part 1 writes in front of the
buffer. -/
def subtract (sign : Bool) (frac : Nat) (intg1 : Nat) (frac1 : Int) (start1 : List Nat) (intg2 : Nat) (frac2 : Int)
    (start2 : List Nat) (frac0 : Nat) (dest : List Nat) : Option (Int × DecimalT) :=
  let (intg1, frac0, error) := fixIntgFracError dest.length intg1 frac0
  let frac := if error ≠ eDecOk then min frac (frac0 * digPerDec1) else frac
  let frac1 := if error ≠ eDecOk then min frac1 frac0 else frac1
  let frac2 := if error ≠ eDecOk then min frac2 frac0 else frac2
  let intg2 := if error ≠ eDecOk then min intg2 intg1 else intg2
  if (intg1 : Int) + min frac1 frac2 < 0 then none
  else
    let out := subLoops intg1 frac1 start1 intg2 frac2 start2 frac0
    some (error, ⟨intg1 * digPerDec1, frac, sign, List.replicate (intg1 + frac0 - out.length) 0 ++ out.reverse⟩)

def doSub (from1 from2 : DecimalT) (dest : List Nat) : Option (Int × DecimalT) :=
  let (intg1, start1) := skipZeroes (roundUp from1.intg) from1.buf
  let (intg2, start2) := skipZeroes (roundUp from2.intg) from2.buf
  let frac1 := roundUp from1.frac
  let frac2 := roundUp from2.frac
  let frac := max from1.frac from2.frac
  match compareOperands intg1 frac1 start1 intg2 frac2 start2 with
  | none => some (eDecOk, DecimalT.makeZero)
  | some (carry, frac1', frac2') =>
    if carry = 0 then subtract from1.sign frac intg1 frac1' start1 intg2 frac2' start2 (max frac1 frac2) dest
    else subtract (!from1.sign) frac intg2 frac2' start2 intg1 frac1' start1 (max frac1 frac2) dest

def doCmp (from1 from2 : DecimalT) : Int :=
  let (intg1, start1) := skipZeroes (roundUp from1.intg) from1.buf
  let (intg2, start2) := skipZeroes (roundUp from2.intg) from2.buf
  match compareOperands intg1 (roundUp from1.frac) start1 intg2 (roundUp from2.frac) start2 with
  | none => 0
  | some (carry, _, _) => if carry = from1.sign.toNat then 1 else -1

def decimalAdd (from1 from2 : DecimalT) (dest : List Nat) : Option (Int × DecimalT) :=
  if from1.sign = from2.sign then some (doAdd from1 from2 dest) else doSub from1 from2 dest

def decimalSub (from1 from2 : DecimalT) (dest : List Nat) : Option (Int × DecimalT) :=
  if from1.sign = from2.sign then doSub from1 from2 dest else some (doAdd from1 from2 dest)

def decimalCmp (from1 from2 : DecimalT) : Int :=
  if from1.sign = from2.sign then doCmp from1 from2 else if from2.sign.toNat < from1.sign.toNat then -1 else 1

/-! ### The loops -/

theorem ofBase_reverse_split {p : Nat} {ws : List Nat} (h : p ≤ ws.length) :
    ofBase digBase ws.reverse = ofBase digBase (ws.take p).reverse + digBase ^ p * ofBase digBase (ws.drop p).reverse := by
  have hsplit := ofBase_reverse_append digBase (ws.take p) (ws.drop p)
  rwa [take_append_drop, length_take, min_eq_left h] at hsplit

section

variable (us vs : List Nat) {carry : Nat}

section

variable (hus : ∀ w ∈ us, w < digBase)
include hus

theorem subWords_stretch (hvs : ∀ w ∈ vs, w < digBase) (hlen : us.length = vs.length) (hc : carry ≤ 1) :
    Stretch digBase 1 (-1) (ripple (fun carry w => sub w.1 w.2 carry) carry (us.zip vs)).1
      (ripple (fun carry w => sub w.1 w.2 carry) carry (us.zip vs)).2 us.length
      (ofBase digBase us.reverse - ofBase digBase vs.reverse + -1 * carry) := by
  have hrun := Stretch.ripple (b := digBase) (k := 1) (s := -1) (fun carry (w : Nat × Nat) => sub w.1 w.2 carry)
    (fun w => 1 * (w.1 : ℤ) + -1 * w.2) (us.zip vs) (fun w hw c hcarry => ?_) hc
  · rw [weigh_zip digBase 1 (-1) hlen, length_zip, ← hlen, min_self, one_mul, neg_one_mul, ← sub_eq_add_neg] at hrun
    exact hrun
  have hmem := of_mem_zip hw
  exact ⟨sub_lt (hus w.1 hmem.1) (hvs w.2 hmem.2) hcarry, sub_carry w.1 w.2 c, sub_value w.1 (hvs w.2 hmem.2) hcarry⟩

theorem subZero_stretch :
    Stretch digBase 1 (-1) (ripple (fun carry w => sub 0 w carry) 0 us).1 (ripple (fun carry w => sub 0 w carry) 0 us).2
      us.length (-(ofBase digBase us.reverse : ℤ)) := by
  have hrun := Stretch.ripple (b := digBase) (k := 1) (s := -1) (fun carry (w : Nat) => sub 0 w carry)
    (fun w => -1 * (w : ℤ)) us (fun w hw c hcarry => ?_) (Nat.zero_le 1)
  · rw [weigh_mul, Nat.cast_zero, mul_zero, add_zero, neg_one_mul] at hrun
    exact hrun
  have hvalue := sub_value 0 (hus w hw) hcarry
  rw [Nat.cast_zero, mul_zero, zero_add] at hvalue
  exact ⟨sub_lt digBase_pos (hus w hw) hcarry, sub_carry 0 w c, hvalue⟩

theorem subCarry_stretch (hc : carry ≤ 1) :
    Stretch digBase 1 (-1) (ripple (fun carry w => if carry = 0 then (w, 0) else sub w 0 carry) carry us).1
      (ripple (fun carry w => if carry = 0 then (w, 0) else sub w 0 carry) carry us).2 us.length
      (ofBase digBase us.reverse + -1 * carry) := by
  have hrun := Stretch.ripple (b := digBase) (k := 1) (s := -1)
    (fun carry (w : Nat) => if carry = 0 then (w, 0) else sub w 0 carry)
    (fun w => 1 * (w : ℤ)) us (fun w hw c hcarry => ?_) hc
  · rw [weigh_mul, one_mul] at hrun
    exact hrun
  by_cases hzero : c = 0
  · simp only [if_pos hzero]
    refine ⟨hus w hw, Nat.zero_le 1, ?_⟩
    rw [hzero]
    simp
  have hvalue := sub_value w digBase_pos hcarry
  rw [Nat.cast_zero, mul_zero, add_zero] at hvalue
  simp only [if_neg hzero]
  exact ⟨sub_lt (hus w hw) digBase_pos hcarry, sub_carry w 0 c, hvalue⟩

theorem subHigh_stretch (hvs : ∀ w ∈ vs, w < digBase) (hlen : vs.length ≤ us.length) (hc : carry ≤ 1) :
    ∃ carry', Stretch digBase 1 (-1) ((ripple (fun carry w => sub w.1 w.2 carry) carry (us.zip vs)).1 ++
        (ripple (fun carry w => if carry = 0 then (w, 0) else sub w 0 carry)
          (ripple (fun carry w => sub w.1 w.2 carry) carry (us.zip vs)).2 (us.drop vs.length)).1)
      carry' us.length (ofBase digBase us.reverse - ofBase digBase vs.reverse + -1 * carry) := by
  have hmid := subWords_stretch (us.take vs.length) vs (fun w hw => hus w (mem_of_mem_take hw)) hvs
    (by rw [length_take, min_eq_left hlen]) hc
  rw [← zip_take hlen] at hmid
  have hboth := hmid.append (subCarry_stretch (us.drop vs.length) (fun w hw => hus w (mem_of_mem_drop hw)) hmid.carry_le)
  rw [length_take, min_eq_left hlen, length_drop, Nat.add_sub_cancel' hlen] at hboth
  refine ⟨_, hboth.length, hboth.word, hboth.carry_le, hboth.value.trans ?_⟩
  rw [ofBase_reverse_split hlen]
  push_cast
  ring

end

end

section

variable {intg1 intg2 frac0 : Nat} {frac1 frac2 : Int} {start1 start2 : List Nat}

/-- What the loops of `do_sub` write is worth the difference of the numbers, with their points aligned. -/
theorem subLoops_stretch (hlen1 : (intg1 + frac1).toNat ≤ start1.length) (hlen2 : (intg2 + frac2).toNat ≤ start2.length)
    (hword1 : ∀ w ∈ start1, w < digBase) (hword2 : ∀ w ∈ start2, w < digBase) (hintg : intg2 ≤ intg1)
    (hmin : 0 ≤ intg2 + min frac1 frac2) (hfrac1 : frac1 ≤ frac0) (hfrac2 : frac2 ≤ frac0) :
    ∃ carry, Stretch digBase 1 (-1) (subLoops intg1 frac1 start1 intg2 frac2 start2 frac0) carry (intg1 + frac0)
      (ofBase digBase (start1.take (intg1 + frac1).toNat) * (digBase : ℤ) ^ (frac0 - frac1).toNat -
        ofBase digBase (start2.take (intg2 + frac2).toNat) * (digBase : ℤ) ^ (frac0 - frac2).toNat) := by
  have hwords1 : ∀ w ∈ (start1.take (intg1 + frac1).toNat).reverse, w < digBase :=
    fun w hw => hword1 w (mem_of_mem_take (mem_reverse.1 hw))
  have hwords2 : ∀ w ∈ (start2.take (intg2 + frac2).toNat).reverse, w < digBase :=
    fun w hw => hword2 w (mem_of_mem_take (mem_reverse.1 hw))
  have hcount1 : (start1.take (intg1 + frac1).toNat).reverse.length = (intg1 + frac1).toNat := by
    rw [length_reverse, length_take, min_eq_left hlen1]
  have hcount2 : (start2.take (intg2 + frac2).toNat).reverse.length = (intg2 + frac2).toNat := by
    rw [length_reverse, length_take, min_eq_left hlen2]
  have hvalue1 := reverse_reverse (start1.take (intg1 + frac1).toNat)
  have hvalue2 := reverse_reverse (start2.take (intg2 + frac2).toNat)
  unfold subLoops subLow
  generalize (start1.take (intg1 + frac1).toNat).reverse = buf1 at *
  generalize (start2.take (intg2 + frac2).toNat).reverse = buf2 at *
  by_cases hlt : frac2 < frac1
  · -- the first operand has words below the second one, which are copied
    have hp : (frac1 - frac2).toNat ≤ buf1.length := by omega
    have hcopy := (Stretch.copy (b := digBase) (k := 1) (s := -1) (buf1.take (frac1 - frac2).toNat)
      (fun w hw => hwords1 w (mem_of_mem_take hw))).zeroes digBase_pos (frac0 - frac1).toNat
    rw [length_take, min_eq_left hp] at hcopy
    obtain ⟨carry, hhigh⟩ := subHigh_stretch (buf1.drop (frac1 - frac2).toNat) buf2
      (fun w hw => hwords1 w (mem_of_mem_drop hw)) hwords2 (by rw [length_drop]; omega)
      (show 0 ≤ 1 from Nat.zero_le 1)
    have hboth := hcopy.append hhigh
    simp only [if_pos hlt]
    rw [append_assoc]
    refine ⟨carry, hboth.length.trans ?_, hboth.word, hboth.carry_le, ?_⟩
    · rw [length_drop]
      omega
    have hpow : (frac0 - frac2).toNat = (frac0 - frac1).toNat + (frac1 - frac2).toNat := by omega
    have hn : intg1 + frac0 = (frac0 - frac1).toNat + (frac1 - frac2).toNat + (buf1.drop (frac1 - frac2).toNat).length := by
      rw [length_drop]
      omega
    rw [hn, hboth.value, ← hvalue1, ← hvalue2, ofBase_reverse_split hp, hpow, pow_add]
    push_cast
    ring
  -- the second operand has words below the first one, which are taken from zeroes
  have hp : (frac2 - frac1).toNat ≤ buf2.length := by omega
  have hlow := subZero_stretch (buf2.take (frac2 - frac1).toNat) (fun w hw => hwords2 w (mem_of_mem_take hw))
  rw [length_take, min_eq_left hp] at hlow
  obtain ⟨carry, hhigh⟩ := subHigh_stretch buf1 (buf2.drop (frac2 - frac1).toNat) hwords1
    (fun w hw => hwords2 w (mem_of_mem_drop hw)) (by rw [length_drop]; omega) hlow.carry_le
  have hboth := (hlow.zeroes digBase_pos (frac0 - frac2).toNat).append hhigh
  simp only [if_neg hlt]
  rw [append_assoc]
  refine ⟨carry, hboth.length.trans (by omega), hboth.word, hboth.carry_le, ?_⟩
  have hpow : (frac0 - frac1).toNat = (frac0 - frac2).toNat + (frac2 - frac1).toNat := by omega
  have hn : intg1 + frac0 = (frac0 - frac2).toNat + (frac2 - frac1).toNat + buf1.length := by omega
  rw [hn, hboth.value, ← hvalue1, ← hvalue2, ofBase_reverse_split hp, hpow, pow_add]
  push_cast
  ring

end

/-! ### Words that count -/

/-- The words of an operand that `do_sub` goes through: those from the first of `intg` words before the point to the last
of `frac` words after it make up its number. -/
structure Operand (d : DecimalT) (intg : Nat) (frac : Int) (start : List Nat) : Prop where
  nonneg : 0 ≤ intg + frac
  length : (intg + frac).toNat ≤ start.length
  frac_le : frac ≤ roundUp d.frac
  intg_le : intg ≤ roundUp d.intg
  word : ∀ w ∈ start, w < digBase
  value : d.digits = ofBase digBase (start.take (intg + frac).toNat) * digBase ^ (roundUp d.frac - frac).toNat

variable {d : DecimalT} {intg frac0 : Nat} {start dest : List Nat}

theorem Operand.aligned {frac : Int} (h : Operand d intg frac start) (hfrac : roundUp d.frac ≤ frac0) :
    d.digits * digBase ^ (frac0 - roundUp d.frac) =
      ofBase digBase (start.take (intg + frac).toNat) * digBase ^ (frac0 - frac).toNat := by
  have hle := h.frac_le
  have hpow : (frac0 - frac).toNat = (roundUp d.frac - frac).toNat + (frac0 - roundUp d.frac) := by omega
  rw [h.value, hpow, pow_add, mul_assoc]

theorem skipZeroes_spec {intg' : Nat} {buf : List Nat} (h : skipZeroes intg buf = (intg', start)) :
    ∃ k, intg = k + intg' ∧ buf = List.replicate k 0 ++ start ∧ (0 < intg' → start ≠ [] → start.headD 0 ≠ 0) := by
  induction intg generalizing buf with
  | zero =>
    rw [skipZeroes] at h
    · obtain ⟨rfl, rfl⟩ := Prod.mk.inj h
      exact ⟨0, rfl, rfl, fun h => absurd h (lt_irrefl 0)⟩
    intro _ _ _ h
    cases h
  | succ intg ih =>
    cases buf with
    | nil =>
      obtain ⟨rfl, rfl⟩ := Prod.mk.inj h
      exact ⟨0, (zero_add _).symm, rfl, fun _ h => absurd rfl h⟩
    | cons w buf =>
      rw [skipZeroes] at h
      by_cases hw : w = 0
      · rw [if_pos hw] at h
        obtain ⟨k, hk, hbuf, hhead⟩ := ih h
        exact ⟨k + 1, by omega, by rw [hw, hbuf]; rfl, hhead⟩
      rw [if_neg hw] at h
      obtain ⟨rfl, rfl⟩ := Prod.mk.inj h
      exact ⟨0, (zero_add _).symm, rfl, fun _ _ => hw⟩

theorem skipZeroes_operand (h : d.LaidOut) (hskip : skipZeroes (roundUp d.intg) d.buf = (intg, start)) :
    Operand d intg (roundUp d.frac) start ∧ start.length = intg + roundUp d.frac ∧ (0 < intg → start.headD 0 ≠ 0) := by
  obtain ⟨k, hk, hbuf, hhead⟩ := skipZeroes_spec hskip
  have hlen : start.length = intg + roundUp d.frac := by
    have hlen := h.length
    rw [hbuf, length_append, length_replicate] at hlen
    omega
  refine ⟨⟨by omega, by omega, le_refl _, by omega, fun w hw => ?_, ?_⟩, hlen, fun hpos => hhead hpos ?_⟩
  · exact h.word w (hbuf ▸ mem_append_right _ hw)
  · rw [take_of_length_le (by omega), DecimalT.digits, hbuf, ofBase_append, ofBase_replicate_zero, zero_mul,
      zero_add, Int.sub_self]
    simp
  intro hnil
  rw [hnil, length_nil] at hlen
  omega

theorem rdropWhile_spec (ws : List Nat) :
    ∃ m, ws = ws.rdropWhile (· == 0) ++ List.replicate m 0 ∧ ∀ w ∈ (ws.rdropWhile (· == 0)).getLast?, w ≠ 0 := by
  refine ⟨(ws.rtakeWhile (· == 0)).length, ?_, fun w hw => ?_⟩
  · have hzeroes : ws.rtakeWhile (· == 0) = List.replicate (ws.rtakeWhile (· == 0)).length 0 := by
      apply eq_replicate_of_mem
      intro w hw
      simpa using mem_rtakeWhile_imp hw
    rw [← hzeroes, rdropWhile_append_rtakeWhile]
  obtain ⟨hne, rfl⟩ := mem_getLast?_eq_getLast hw
  simpa using rdropWhile_last_not (· == 0) ws hne

theorem Operand.trim (h : Operand d intg (roundUp d.frac) start)
    (hlen : start.length = intg + roundUp d.frac) : Operand d intg ((start.rdropWhile (· == 0)).length - intg) start ∧
      start.take (intg + (((start.rdropWhile (· == 0)).length : Int) - intg)).toNat = start.rdropWhile (· == 0) := by
  obtain ⟨m, hsplit, -⟩ := rdropWhile_spec start
  have hvalue := h.value
  rw [take_of_length_le (by omega), Int.sub_self, Int.toNat_zero, pow_zero, mul_one] at hvalue
  have hword := h.word
  generalize start.rdropWhile (· == 0) = ws at *
  subst hsplit
  rw [length_append, length_replicate] at hlen
  have hcount : (intg + ((ws.length : Int) - intg)).toNat = ws.length := by omega
  have hrest : (roundUp d.frac - ((ws.length : Int) - intg)).toNat = m := by omega
  have htake : (ws ++ List.replicate m 0).take (intg + ((ws.length : Int) - intg)).toNat = ws := by
    rw [hcount, take_left]
  refine ⟨⟨by omega, ?_, by omega, h.intg_le, hword, ?_⟩, htake⟩
  · rw [hcount, length_append]
    exact Nat.le_add_right _ _
  rw [hvalue, htake, ofBase_append, ofBase_replicate_zero, length_replicate, add_zero, hrest]

/-! ### Comparison -/

variable {ws : List Nat} {m n : Nat}

theorem ofBase_pos_of_last (hne : ws ≠ []) (hlast : ∀ w ∈ ws.getLast?, w ≠ 0) : 0 < ofBase digBase ws := by
  obtain ⟨init, w, rfl⟩ := (eq_nil_or_concat ws).resolve_left hne
  have hw : w ≠ 0 := hlast w (by simp)
  rw [concat_eq_append, ofBase_concat]
  omega

inductive Ordered (m n : Nat) : Option Nat → Prop
  | equal (h : m = n) : Ordered m n none
  | larger (h : n < m) : Ordered m n (some 0)
  | smaller (h : m < n) : Ordered m n (some 1)

theorem Ordered.add_left {r : Option Nat} (h : Ordered m n r) (k : Nat) : Ordered (k + m) (k + n) r := by
  cases h with
  | equal h => exact .equal (by omega)
  | larger h => exact .larger (by omega)
  | smaller h => exact .smaller (by omega)

theorem ofBase_cons_aligned (w : Nat) (h : ws.length ≤ m) : ofBase digBase (w :: ws) * digBase ^ (m + 1 - (w :: ws).length) =
      w * digBase ^ m + ofBase digBase ws * digBase ^ (m - ws.length) := by
  have hpow : digBase ^ m = digBase ^ ws.length * digBase ^ (m - ws.length) := by rw [← pow_add, Nat.add_sub_cancel' h]
  rw [ofBase_cons, length_cons, Nat.add_sub_add_right, hpow, add_mul, mul_assoc]

theorem ofBase_aligned_lt (hws : ∀ w ∈ ws, w < digBase) (h : ws.length ≤ m) :
    ofBase digBase ws * digBase ^ (m - ws.length) < digBase ^ m := by
  have hpow : digBase ^ m = digBase ^ ws.length * digBase ^ (m - ws.length) := by rw [← pow_add, Nat.add_sub_cancel' h]
  rw [hpow]
  exact Nat.mul_lt_mul_of_pos_right (ofBase_lt hws) (pow_pos digBase_pos _)

theorem last_of_cons {w : Nat} (h : ∀ v ∈ (w :: ws).getLast?, v ≠ 0) : ∀ v ∈ ws.getLast?, v ≠ 0 := by
  intro v hv
  apply h
  rw [List.getLast?_cons, Option.mem_def.1 hv]
  rfl

theorem head_decides {w1 w2 : Nat} (hw : w1 < w2) {r v1 v2 : Nat} (hv1 : v1 < r) : w1 * r + v1 < w2 * r + v2 := by
  have hle : (w1 + 1) * r ≤ w2 * r := Nat.mul_le_mul_right r hw
  rw [add_mul] at hle
  omega

/-- The loop over equal words stops at the first difference of two numbers that start at the same word. -/
theorem compareWords_spec {ws1 ws2 : List Nat} (h1 : ∀ w ∈ ws1, w < digBase) (h2 : ∀ w ∈ ws2, w < digBase)
    (hlast1 : ∀ w ∈ ws1.getLast?, w ≠ 0) (hlast2 : ∀ w ∈ ws2.getLast?, w ≠ 0) (hn1 : ws1.length ≤ n) (hn2 : ws2.length ≤ n) :
    Ordered (ofBase digBase ws1 * digBase ^ (n - ws1.length)) (ofBase digBase ws2 * digBase ^ (n - ws2.length))
      (compareWords ws1 ws2) := by
  induction ws1 generalizing ws2 n with
  | nil =>
    cases ws2 with
    | nil => exact .equal rfl
    | cons w2 ws2 =>
      apply Ordered.smaller
      rw [ofBase_nil, zero_mul]
      exact Nat.mul_pos (ofBase_pos_of_last (cons_ne_nil _ _) hlast2) (pow_pos digBase_pos _)
  | cons w1 ws1 ih =>
    cases ws2 with
    | nil =>
      apply Ordered.larger
      rw [ofBase_nil, zero_mul]
      exact Nat.mul_pos (ofBase_pos_of_last (cons_ne_nil _ _) hlast1) (pow_pos digBase_pos _)
    | cons w2 ws2 =>
      obtain ⟨m, rfl⟩ : ∃ m, n = m + 1 := ⟨n - 1, by rw [length_cons] at hn1; omega⟩
      have hm1 := Nat.le_of_succ_le_succ hn1
      have hm2 := Nat.le_of_succ_le_succ hn2
      have hrest1 : ∀ w ∈ ws1, w < digBase := fun w hw => h1 w (mem_cons_of_mem w1 hw)
      have hrest2 : ∀ w ∈ ws2, w < digBase := fun w hw => h2 w (mem_cons_of_mem w2 hw)
      rw [ofBase_cons_aligned w1 hm1, ofBase_cons_aligned w2 hm2, compareWords]
      by_cases heq : w1 = w2
      · rw [if_pos heq, heq]
        exact (ih hrest1 hrest2 (last_of_cons hlast1) (last_of_cons hlast2) hm1 hm2).add_left _
      rw [if_neg heq]
      rcases Nat.lt_or_gt_of_ne heq with hlt | hgt
      · rw [if_pos hlt]
        exact .smaller (head_decides hlt (ofBase_aligned_lt hrest1 hm1))
      rw [if_neg (Nat.lt_asymm hgt)]
      exact .larger (head_decides hgt (ofBase_aligned_lt hrest2 hm2))

section

variable {d : DecimalT} {intg : Nat} {start : List Nat} (h : Operand d intg (roundUp d.frac) start)
  (hlen : start.length = intg + roundUp d.frac) {frac0 : Nat} (hfrac : roundUp d.frac ≤ frac0)
include h hlen hfrac

theorem Operand.aligned_start :
    d.digits * digBase ^ (frac0 - roundUp d.frac) = ofBase digBase start * digBase ^ (intg + frac0 - start.length) := by
  have haligned := h.aligned hfrac
  rwa [take_of_length_le (by omega), show ((frac0 : Int) - roundUp d.frac).toNat = intg + frac0 - start.length by omega]
    at haligned

theorem Operand.aligned_lt : d.digits * digBase ^ (frac0 - roundUp d.frac) < digBase ^ (intg + frac0) := by
  rw [h.aligned_start hlen hfrac]
  exact ofBase_aligned_lt h.word (by omega)

theorem Operand.le_aligned (hpos : 0 < intg) (hhead : start.headD 0 ≠ 0) :
    digBase ^ (intg - 1 + frac0) ≤ d.digits * digBase ^ (frac0 - roundUp d.frac) := by
  rw [h.aligned_start hlen hfrac]
  cases start with
  | nil => exact absurd rfl hhead
  | cons w ws =>
    rw [length_cons] at hlen
    obtain ⟨m, hm⟩ : ∃ m, intg + frac0 = m + 1 := ⟨intg + frac0 - 1, by omega⟩
    rw [hm, ofBase_cons_aligned w (by omega), show intg - 1 + frac0 = m by omega]
    have hle : 1 * digBase ^ m ≤ w * digBase ^ m := Nat.mul_le_mul_right _ (Nat.one_le_iff_ne_zero.2 hhead)
    omega

end

section

variable {from1 from2 : DecimalT} {intg1 intg2 : Nat} {start1 start2 : List Nat}

/-- What `do_sub` knows of its operands once it has found out which one is larger. -/
structure Compared (from1 from2 : DecimalT) (intg1 intg2 : Nat) (start1 start2 : List Nat) (carry : Nat) (frac1 frac2 : Int) :
    Prop where
  operand1 : Operand from1 intg1 frac1 start1
  operand2 : Operand from2 intg2 frac2 start2
  le_of_zero : carry = 0 → intg2 ≤ intg1
  le_of_one : carry ≠ 0 → intg1 ≤ intg2
  nonneg : 0 ≤ (min intg1 intg2 : Nat) + min frac1 frac2

theorem compareOperands_spec (h1 : from1.LaidOut) (h2 : from2.LaidOut)
    (hskip1 : skipZeroes (roundUp from1.intg) from1.buf = (intg1, start1))
    (hskip2 : skipZeroes (roundUp from2.intg) from2.buf = (intg2, start2))
    (hfrac1 : roundUp from1.frac ≤ frac0) (hfrac2 : roundUp from2.frac ≤ frac0) :
    Ordered (from1.digits * digBase ^ (frac0 - roundUp from1.frac)) (from2.digits * digBase ^ (frac0 - roundUp from2.frac))
        ((compareOperands intg1 (roundUp from1.frac) start1 intg2 (roundUp from2.frac) start2).map (·.1)) ∧
      ∀ carry frac1 frac2,
        compareOperands intg1 (roundUp from1.frac) start1 intg2 (roundUp from2.frac) start2 = some (carry, frac1, frac2) →
          Compared from1 from2 intg1 intg2 start1 start2 carry frac1 frac2 := by
  obtain ⟨hop1, hlen1, hhead1⟩ := skipZeroes_operand h1 hskip1
  obtain ⟨hop2, hlen2, hhead2⟩ := skipZeroes_operand h2 hskip2
  unfold compareOperands
  rcases lt_trichotomy intg1 intg2 with hlt | rfl | hgt
  · rw [if_pos hlt]
    refine ⟨.smaller ?_, fun carry frac1 frac2 h => ?_⟩
    · calc _ < digBase ^ (intg1 + frac0) := hop1.aligned_lt hlen1 hfrac1
        _ ≤ digBase ^ (intg2 - 1 + frac0) := Nat.pow_le_pow_right digBase_pos (by omega)
        _ ≤ _ := hop2.le_aligned hlen2 hfrac2 (by omega) (hhead2 (by omega))
    cases h
    exact ⟨hop1, hop2, fun h => (nomatch h), fun _ => hlt.le, by omega⟩
  · rw [if_neg (lt_irrefl _), if_pos rfl]
    obtain ⟨htrim1, htake1⟩ := hop1.trim hlen1
    obtain ⟨htrim2, htake2⟩ := hop2.trim hlen2
    obtain ⟨m1, hsplit1, hlast1⟩ := rdropWhile_spec start1
    obtain ⟨m2, hsplit2, hlast2⟩ := rdropWhile_spec start2
    have hcount1 := congrArg List.length hsplit1
    have hcount2 := congrArg List.length hsplit2
    rw [length_append, length_replicate] at hcount1 hcount2
    have hwords := compareWords_spec (n := intg1 + frac0) (fun w hw => hop1.word w (hsplit1 ▸ mem_append_left _ hw))
      (fun w hw => hop2.word w (hsplit2 ▸ mem_append_left _ hw)) hlast1 hlast2 (by omega) (by omega)
    have hvalue1 := htrim1.aligned hfrac1
    have hvalue2 := htrim2.aligned hfrac2
    rw [htake1, show (frac0 - (((start1.rdropWhile (· == 0)).length : Int) - intg1)).toNat =
      intg1 + frac0 - (start1.rdropWhile (· == 0)).length by omega] at hvalue1
    rw [htake2, show (frac0 - (((start2.rdropWhile (· == 0)).length : Int) - intg1)).toNat =
      intg1 + frac0 - (start2.rdropWhile (· == 0)).length by omega] at hvalue2
    rw [hvalue1, hvalue2]
    refine ⟨?_, fun carry frac1 frac2 h => ?_⟩
    · rw [Option.map_map]
      change Ordered _ _ (Option.map id _)
      rwa [Option.map_id]
    obtain ⟨c, -, hc⟩ := Option.map_eq_some_iff.1 h
    cases hc
    exact ⟨htrim1, htrim2, fun _ => le_refl _, fun _ => le_refl _, by omega⟩
  rw [if_neg (Nat.lt_asymm hgt), if_neg hgt.ne]
  refine ⟨.larger ?_, fun carry frac1 frac2 h => ?_⟩
  · calc _ < digBase ^ (intg2 + frac0) := hop2.aligned_lt hlen2 hfrac2
      _ ≤ digBase ^ (intg1 - 1 + frac0) := Nat.pow_le_pow_right digBase_pos (by omega)
      _ ≤ _ := hop1.le_aligned hlen1 hfrac1 (by omega) (hhead1 (by omega))
  cases h
  exact ⟨hop1, hop2, fun _ => hgt.le, fun h => absurd rfl h, by omega⟩

end

/-! ### The difference -/

/-- The second half of `do_sub` is exact in a buffer that holds the words of the larger operand. -/
theorem subtract_spec {from1 from2 : DecimalT} {intg1 intg2 frac : Nat} {frac1 frac2 : Int} {start1 start2 : List Nat}
    (h1 : from1.LaidOut) (h2 : from2.LaidOut) (hop1 : Operand from1 intg1 frac1 start1)
    (hop2 : Operand from2 intg2 frac2 start2) (hintg : intg2 ≤ intg1) (hmin : 0 ≤ intg2 + min frac1 frac2)
    (hfrac : frac = max from1.frac from2.frac) (hfrac0 : frac0 = roundUp frac)
    (hlt : from2.digits * digBase ^ (frac0 - roundUp from2.frac) < from1.digits * digBase ^ (frac0 - roundUp from1.frac))
    (sign : Bool) (hdest : intg1 + frac0 ≤ dest.length) :
    ∃ d, subtract sign frac intg1 frac1 start1 intg2 frac2 start2 frac0 dest = some (eDecOk, d) ∧ d.WellFormed ∧
      d.sign = sign ∧ d.frac = frac ∧ d.magnitude = from1.magnitude - from2.magnitude := by
  have hle1 : roundUp from1.frac ≤ frac0 := hfrac0 ▸ roundUp_mono (hfrac ▸ le_max_left _ _)
  have hle2 : roundUp from2.frac ≤ frac0 := hfrac0 ▸ roundUp_mono (hfrac ▸ le_max_right _ _)
  have hf1 := hop1.frac_le
  have hf2 := hop2.frac_le
  obtain ⟨carry, hstretch⟩ := subLoops_stretch hop1.length hop2.length hop1.word hop2.word hintg hmin
    (by omega : frac1 ≤ frac0) (by omega : frac2 ≤ frac0)
  have htotal : (ofBase digBase (start1.take (intg1 + frac1).toNat) * (digBase : ℤ) ^ (frac0 - frac1).toNat -
      ofBase digBase (start2.take (intg2 + frac2).toNat) * (digBase : ℤ) ^ (frac0 - frac2).toNat) =
      ((from1.digits * digBase ^ (frac0 - roundUp from1.frac) - from2.digits * digBase ^ (frac0 - roundUp from2.frac) : Nat) :
        ℤ) := by
    rw [Nat.cast_sub hlt.le, hop1.aligned hle1, hop2.aligned hle2]
    push_cast
    rfl
  rw [htotal] at hstretch
  obtain ⟨-, hvalue⟩ := hstretch.of_nonneg (Int.natCast_nonneg _)
  rw [Nat.cast_inj] at hvalue
  have hbuf : List.replicate (intg1 + frac0 - (subLoops intg1 frac1 start1 intg2 frac2 start2 frac0).length) 0 ++
      (subLoops intg1 frac1 start1 intg2 frac2 start2 frac0).reverse =
      (subLoops intg1 frac1 start1 intg2 frac2 start2 frac0).reverse := by
    rw [hstretch.length, Nat.sub_self, replicate_zero, nil_append]
  unfold subtract
  simp only [fixIntgFracError_fits hdest, ne_eq, not_true_eq_false, if_false]
  rw [if_neg (by omega), hbuf]
  refine ⟨_, rfl, DecimalT.LaidOut.wellFormed (DecimalT.LaidOut.of_digits ?_
    (fun w hw => hstretch.word w (mem_reverse.1 hw)) ?_) fun hzero => ?_, rfl, rfl, ?_⟩
  · rw [length_reverse, hstretch.length, hfrac0]
  · rw [hvalue, hfrac0]
    exact Nat.dvd_sub (h1.dvd_aligned (hfrac ▸ le_max_left _ _)) (h2.dvd_aligned (hfrac ▸ le_max_right _ _))
  · have hempty : ofBase digBase (subLoops intg1 frac1 start1 intg2 frac2 start2 frac0).reverse = 0 := hzero
    omega
  rw [DecimalT.magnitude_eq_aligned from1 hle1, DecimalT.magnitude_eq_aligned from2 hle2, ← sub_div, ← Nat.cast_sub hlt.le,
    ← hvalue]
  rw [DecimalT.magnitude, DecimalT.digits, hfrac0]

/-- `do_sub` is exact: the difference has the sign of the first operand when that is the larger one. -/
theorem doSub_spec {from1 from2 : DecimalT} (h1 : from1.LaidOut) (h2 : from2.LaidOut)
    (hdest : decimalResultSize from1 from2 .minus 0 ≤ dest.length) :
    ∃ d, doSub from1 from2 dest = some (eDecOk, d) ∧ d.WellFormed ∧
      d.value = (if from1.sign then -(from1.magnitude - from2.magnitude) else from1.magnitude - from2.magnitude) ∧
      (from1.magnitude ≠ from2.magnitude → d.frac = max from1.frac from2.frac) := by
  have hle1 := le_max_left (roundUp from1.frac) (roundUp from2.frac)
  have hle2 := le_max_right (roundUp from1.frac) (roundUp from2.frac)
  rcases hskip1 : skipZeroes (roundUp from1.intg) from1.buf with ⟨intg1, start1⟩
  rcases hskip2 : skipZeroes (roundUp from2.intg) from2.buf with ⟨intg2, start2⟩
  obtain ⟨hordered, hcompared⟩ := compareOperands_spec h1 h2 hskip1 hskip2 hle1 hle2
  rw [decimalResultSize, roundUp_max, roundUp_max] at hdest
  unfold doSub
  simp only [hskip1, hskip2]
  rcases hcompare : compareOperands intg1 (roundUp from1.frac) start1 intg2 (roundUp from2.frac) start2 with
    _ | ⟨carry, frac1, frac2⟩
  · rw [hcompare] at hordered
    cases hordered with
    | equal heq =>
      have hsame : from1.magnitude = from2.magnitude := by
        rw [from1.magnitude_eq_aligned hle1, from2.magnitude_eq_aligned hle2, heq]
      refine ⟨_, rfl, DecimalT.makeZero_wellFormed, ?_, fun hne => absurd hsame hne⟩
      rw [DecimalT.makeZero_value, hsame, sub_self, neg_zero, ite_self]
  rw [hcompare] at hordered
  have hc := hcompared carry frac1 frac2 hcompare
  have hnonneg := hc.nonneg
  have hintg1 := hc.operand1.intg_le
  have hintg2 := hc.operand2.intg_le
  have hroom : ∀ n, n ≤ max (roundUp from1.intg) (roundUp from2.intg) →
      n + max (roundUp from1.frac) (roundUp from2.frac) ≤ dest.length := fun n hn => by omega
  cases hordered with
  | larger hlt =>
    have hintg := hc.le_of_zero rfl
    obtain ⟨d, hd, hwell, hsign, hfrac, hmag⟩ := subtract_spec h1 h2 hc.operand1 hc.operand2 hintg (by omega) rfl
      (roundUp_max _ _).symm hlt from1.sign (hroom intg1 (by omega))
    refine ⟨d, hd, hwell, ?_, fun _ => hfrac⟩
    rw [d.value_eq_magnitude, hsign, hmag]
  | smaller hlt =>
    have hintg := hc.le_of_one Nat.one_ne_zero
    obtain ⟨d, hd, hwell, hsign, hfrac, hmag⟩ := subtract_spec h2 h1 hc.operand2 hc.operand1 hintg (by omega)
      (max_comm _ _) (roundUp_max _ _).symm hlt (!from1.sign) (hroom intg2 (by omega))
    refine ⟨d, hd, hwell, ?_, fun _ => hfrac⟩
    rw [d.value_eq_magnitude, hsign, hmag]
    cases from1.sign <;> simp

theorem minus_le_plus (from1 from2 : DecimalT) : decimalResultSize from1 from2 .minus 0 ≤ decimalResultSize from1 from2 .plus 0 :=
  Nat.add_le_add_right (roundUp_mono (Nat.le_succ _)) _

example : decimalAdd ⟨9, 1, false, [999999999, 900000000]⟩ ⟨1, 2, false, [0, 250000000]⟩ [7, 7, 7, 7] =
    some (eDecOk, ⟨18, 2, false, [1, 0, 150000000]⟩) := by decide

/-! ### The comparison -/

/-- The sign of the result is that of a difference. -/
def Compares (res : Int) (x y : Rat) : Prop := (res < 0 ↔ x < y) ∧ (0 < res ↔ y < x)

theorem compares_of_lt {x y : Rat} (h : x < y) : Compares (-1) x y ∧ Compares 1 y x :=
  ⟨⟨iff_of_true (by decide) h, iff_of_false (by decide) h.not_gt⟩, iff_of_false (by decide) h.not_gt, iff_of_true (by decide) h⟩

theorem compares_self (x : Rat) : Compares 0 x x :=
  ⟨iff_of_false (by decide) (lt_irrefl _), iff_of_false (by decide) (lt_irrefl _)⟩

section

variable {from1 from2 : DecimalT}

theorem doCmp_compares (h1 : from1.LaidOut) (h2 : from2.LaidOut) (hsign : from1.sign = from2.sign) :
    Compares (doCmp from1 from2) from1.value from2.value := by
  have hle1 := le_max_left (roundUp from1.frac) (roundUp from2.frac)
  have hle2 := le_max_right (roundUp from1.frac) (roundUp from2.frac)
  have hbase : (0 : Rat) < (digBase ^ max (roundUp from1.frac) (roundUp from2.frac) : Nat) :=
    Nat.cast_pos.2 (pow_pos digBase_pos _)
  rcases hskip1 : skipZeroes (roundUp from1.intg) from1.buf with ⟨intg1, start1⟩
  rcases hskip2 : skipZeroes (roundUp from2.intg) from2.buf with ⟨intg2, start2⟩
  obtain ⟨hordered, -⟩ := compareOperands_spec h1 h2 hskip1 hskip2 hle1 hle2
  rw [from1.value_eq_magnitude, from2.value_eq_magnitude, ← hsign, from1.magnitude_eq_aligned hle1,
    from2.magnitude_eq_aligned hle2]
  unfold doCmp
  simp only [hskip1, hskip2]
  rcases hcompare : compareOperands intg1 (roundUp from1.frac) start1 intg2 (roundUp from2.frac) start2 with
    _ | ⟨carry, frac1, frac2⟩ <;> rw [hcompare] at hordered
  · cases hordered with
    | equal heq =>
      rw [heq]
      exact compares_self _
  cases hordered with
  | larger hlt =>
    have hdiv := (div_lt_div_iff_of_pos_right hbase).2 (Nat.cast_lt.2 hlt)
    cases from1.sign with
    | false => exact (compares_of_lt hdiv).2
    | true => exact (compares_of_lt (neg_lt_neg hdiv)).1
  | smaller hlt =>
    have hdiv := (div_lt_div_iff_of_pos_right hbase).2 (Nat.cast_lt.2 hlt)
    cases from1.sign with
    | false => exact (compares_of_lt hdiv).1
    | true => exact (compares_of_lt (neg_lt_neg hdiv)).2

theorem value_lt {d d' : DecimalT} (hneg : d.sign = true) (hpos : d'.sign = false) (h : d.value ≠ 0 ∨ d'.value ≠ 0) :
    d.value < d'.value := by
  have hnonneg (d : DecimalT) : 0 ≤ d.magnitude := div_nonneg (Nat.cast_nonneg _) (Nat.cast_nonneg _)
  rw [d.value_eq_magnitude, d'.value_eq_magnitude, hneg, hpos, if_pos rfl, if_neg Bool.false_ne_true] at h ⊢
  rcases h with h | h
  · exact (lt_of_le_of_ne (neg_nonpos.2 (hnonneg d)) h).trans_le (hnonneg d')
  · exact (neg_nonpos.2 (hnonneg d)).trans_lt (lt_of_le_of_ne (hnonneg d') h.symm)

theorem decimalCmp_compares (h1 : from1.LaidOut) (h2 : from2.LaidOut)
    (h : from1.sign = from2.sign ∨ from1.value ≠ 0 ∨ from2.value ≠ 0) :
    Compares (decimalCmp from1 from2) from1.value from2.value := by
  unfold decimalCmp
  by_cases hsign : from1.sign = from2.sign
  · rw [if_pos hsign]
    exact doCmp_compares h1 h2 hsign
  have hzero := h.resolve_left hsign
  rw [if_neg hsign]
  cases hsign1 : from1.sign with
  | false =>
    cases hsign2 : from2.sign with
    | false => exact absurd (hsign1.trans hsign2.symm) hsign
    | true => exact (compares_of_lt (value_lt hsign2 hsign1 hzero.symm)).2
  | true =>
    cases hsign2 : from2.sign with
    | false => exact (compares_of_lt (value_lt hsign1 hsign2 hzero)).1
    | true => exact absurd (hsign1.trans hsign2.symm) hsign

end

end Mysql51.Decimal
