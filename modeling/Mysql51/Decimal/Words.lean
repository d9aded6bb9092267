import Mathlib.Tactic.FieldSimp
import Mysql51.Decimal.Binary
import Mysql51.Lib.Ripple

/-!
# Arithmetic on the words of decimals

The macros that add and subtract words, and how the words of a decimal make up its number. The loops of the operations run
over words from the lowest one up, the value of a buffer is that of its words in the other order.
-/

namespace Mysql51.Decimal

open Machine List

def digMax : Nat := digBase - 1

def add (from1 from2 carry : Nat) : Nat × Nat :=
  let a := from1 + from2 + carry
  if digBase ≤ a then (a - digBase, 1) else (a, 0)

def add2 (from1 from2 carry : Nat) : Nat × Nat :=
  let a := from1 + from2 + carry
  let (a, carry) := if digBase ≤ a then (a - digBase, 1) else (a, 0)
  if digBase ≤ a then (a - digBase, carry + 1) else (a, carry)

def sub (from1 from2 carry : Nat) : Nat × Nat :=
  let a : Int := from1 - from2 - carry
  if a < 0 then ((a + digBase).toNat, 1) else (a.toNat, 0)

def fracMax (i : Nat) : Nat :=
  [900000000, 990000000, 999000000, 999900000, 999990000, 999999000, 999999900, 999999990].getD i 0

def maxDecimal (precision frac : Nat) : DecimalT :=
  let intpart := precision - frac
  let firstdigits := intpart % digPerDec1
  let lastdigits := frac % digPerDec1
  ⟨intpart, frac, false,
    (if firstdigits ≠ 0 then [powers10 firstdigits - 1] else []) ++ List.replicate (intpart / digPerDec1) digMax ++
      (List.replicate (frac / digPerDec1) digMax ++ if lastdigits ≠ 0 then [fracMax (lastdigits - 1)] else [])⟩

/-- The operations that `decimal_result_size` knows, `+`, `-`, `*` and `/`. -/
inductive Op where
  | plus | minus | times | over
  deriving DecidableEq

def decimalResultSize (from1 from2 : DecimalT) (op : Op) (param : Nat) : Nat :=
  match op with
  | .minus => roundUp (max from1.intg from2.intg) + roundUp (max from1.frac from2.frac)
  | .plus => roundUp (max from1.intg from2.intg + 1) + roundUp (max from1.frac from2.frac)
  | .times => roundUp (from1.intg + from2.intg) + roundUp from1.frac + roundUp from2.frac
  | .over => roundUp (from1.intg + from2.intg + 1 + from1.frac + from2.frac + param)

theorem digBase_pos : 0 < digBase := by decide

theorem add_lt {from1 from2 carry : Nat} (h1 : from1 < digBase) (h2 : from2 < digBase) (hc : carry ≤ 1) :
    (add from1 from2 carry).1 < digBase := by
  unfold add
  dsimp only
  split <;> dsimp only <;> omega

theorem add_carry (from1 from2 carry : Nat) : (add from1 from2 carry).2 ≤ 1 := by
  unfold add
  dsimp only
  split <;> simp

theorem add_value (from1 from2 carry : Nat) :
    ((add from1 from2 carry).1 : ℤ) + 1 * (digBase * (add from1 from2 carry).2) = (1 * from1 + 1 * from2) + 1 * carry := by
  unfold add
  dsimp only
  split <;> dsimp only <;> omega

theorem sub_lt {from1 from2 carry : Nat} (h1 : from1 < digBase) (h2 : from2 < digBase) (hc : carry ≤ 1) :
    (sub from1 from2 carry).1 < digBase := by
  have hbase := digBase_pos
  unfold sub
  dsimp only
  split <;> dsimp only <;> omega

theorem sub_carry (from1 from2 carry : Nat) : (sub from1 from2 carry).2 ≤ 1 := by
  unfold sub
  dsimp only
  split <;> simp

theorem sub_value (from1 : Nat) {from2 carry : Nat} (h2 : from2 < digBase) (hc : carry ≤ 1) :
    ((sub from1 from2 carry).1 : ℤ) + -1 * (digBase * (sub from1 from2 carry).2) = (1 * from1 + -1 * from2) + -1 * carry := by
  unfold sub
  dsimp only
  split <;> dsimp only <;> omega

theorem roundUp_mul (n : Nat) : roundUp (n * digPerDec1) = n := by
  unfold roundUp digPerDec1
  omega

theorem roundUp_mono {m n : Nat} (h : m ≤ n) : roundUp m ≤ roundUp n := by
  unfold roundUp digPerDec1
  omega

theorem roundUp_max (m n : Nat) : roundUp (max m n) = max (roundUp m) (roundUp n) := by
  rcases Nat.le_total m n with h | h
  · rw [max_eq_right h, max_eq_right (roundUp_mono h)]
  · rw [max_eq_left h, max_eq_left (roundUp_mono h)]

def fill (frac : Nat) : Nat := digPerDec1 * roundUp frac - frac

theorem fill_lt (frac : Nat) : fill frac < digPerDec1 := by
  unfold fill roundUp digPerDec1
  omega

theorem fill_dvd_digBase (frac : Nat) : 10 ^ fill frac ∣ digBase := Nat.pow_dvd_pow 10 (fill_lt frac).le

variable {frac : Nat} {d : DecimalT}

theorem fill_eq_zero (h : frac % digPerDec1 = 0) : fill frac = 0 := by
  unfold fill roundUp digPerDec1 at *
  omega

theorem fill_eq (h : frac % digPerDec1 ≠ 0) : fill frac = digPerDec1 - frac % digPerDec1 := by
  unfold fill roundUp digPerDec1 at *
  omega

theorem ofBase_concat (b : Nat) (ws : List Nat) (w : Nat) : ofBase b (ws ++ [w]) = ofBase b ws * b + w := by
  rw [ofBase_append, length_singleton, pow_one, ofBase_cons, length_nil, pow_zero, mul_one, ofBase_nil, add_zero]

namespace DecimalT

def magnitude (d : DecimalT) : Rat := d.digits / (digBase ^ roundUp d.frac : Nat)

theorem value_eq_magnitude (d : DecimalT) : d.value = if d.sign then -d.magnitude else d.magnitude := by
  rw [value, magnitude]
  split
  · rw [neg_one_mul, neg_div]
  · rw [one_mul]

/-- A decimal whose words are laid out as its numbers of digits say, of any sign: a zero may be negative. -/
structure LaidOut (d : DecimalT) : Prop where
  length : d.buf.length = roundUp d.intg + roundUp d.frac
  word : ∀ w ∈ d.buf, w < digBase
  first : ∀ w ∈ d.intgWords.head?, w < powers10 ((d.intg - 1) % digPerDec1 + 1)
  last : d.frac % digPerDec1 ≠ 0 → ∀ w ∈ d.fracWords.getLast?, powers10 (digPerDec1 - d.frac % digPerDec1) ∣ w

theorem WellFormed.laidOut (h : d.WellFormed) : d.LaidOut := ⟨h.length, h.word, h.first, h.last⟩

theorem LaidOut.wellFormed (h : d.LaidOut) (hzero : d.digits = 0 → d.sign = false) : d.WellFormed :=
  ⟨h.length, h.word, h.first, h.last, hzero⟩

/-- The last of the words in use has no digits behind the last one: so has the number. -/
theorem LaidOut.dvd_digits (h : d.LaidOut) : 10 ^ fill d.frac ∣ d.digits := by
  by_cases hfrac : d.frac % digPerDec1 = 0
  · rw [fill_eq_zero hfrac]
    exact one_dvd _
  have hpos : 0 < roundUp d.frac := by
    unfold roundUp digPerDec1 at *
    omega
  have hlen : roundUp d.intg < d.buf.length := by rw [h.length]; omega
  obtain ⟨ws, w, hbuf⟩ := eq_nil_or_concat d.buf |>.resolve_left (by intro hnil; simp [hnil] at hlen)
  have hlast : d.fracWords.getLast? = some w := by
    rw [DecimalT.fracWords, List.getLast?_drop, if_neg (by omega), hbuf]
    simp
  rw [digits, hbuf, concat_eq_append, ofBase_concat]
  refine (Nat.dvd_add_right (Dvd.dvd.mul_left (fill_dvd_digBase _) _)).2 ?_
  rw [fill_eq hfrac]
  exact h.last hfrac w hlast

theorem LaidOut.of_digits {intg : Nat} {sign : Bool} {buf : List Nat} (hlen : buf.length = intg + roundUp frac)
    (hword : ∀ w ∈ buf, w < digBase) (hdvd : 10 ^ fill frac ∣ ofBase digBase buf) :
    LaidOut ⟨intg * digPerDec1, frac, sign, buf⟩ := by
  refine ⟨?_, hword, fun w hw => ?_, fun hfrac w hw => ?_⟩
  · rw [roundUp_mul]
    exact hlen
  · rcases Nat.eq_zero_or_pos intg with rfl | hintg
    · rw [DecimalT.intgWords, zero_mul, roundUp_zero, take_zero] at hw
      cases hw
    have htop : (intg * digPerDec1 - 1) % digPerDec1 + 1 = digPerDec1 := by
      unfold digPerDec1
      omega
    rw [htop]
    exact hword w (mem_of_mem_take (mem_of_mem_head? hw))
  have hmem : w ∈ buf.getLast? := by
    rw [DecimalT.fracWords, List.getLast?_drop] at hw
    split at hw
    · cases hw
    · exact hw
  obtain ⟨ws, rfl⟩ := List.getLast?_eq_some_iff.1 hmem
  rw [ofBase_concat, fill_eq hfrac] at hdvd
  exact (Nat.dvd_add_right (Dvd.dvd.mul_left (Nat.pow_dvd_pow 10 (Nat.sub_le _ _)) _)).1 hdvd

theorem magnitude_eq_aligned (d : DecimalT) {frac0 : Nat} (hfrac : roundUp d.frac ≤ frac0) :
    d.magnitude = (d.digits * digBase ^ (frac0 - roundUp d.frac) : Nat) / (digBase ^ frac0 : Nat) := by
  have hbase : ((digBase ^ roundUp d.frac : Nat) : Rat) ≠ 0 := Nat.cast_ne_zero.2 (pow_ne_zero _ (by decide))
  have hbase0 : ((digBase ^ frac0 : Nat) : Rat) ≠ 0 := Nat.cast_ne_zero.2 (pow_ne_zero _ (by decide))
  have hpow : digBase ^ frac0 = digBase ^ (frac0 - roundUp d.frac) * digBase ^ roundUp d.frac := by
    rw [← pow_add, Nat.sub_add_cancel hfrac]
  rw [magnitude, div_eq_div_iff hbase hbase0, ← Nat.cast_mul, ← Nat.cast_mul, mul_assoc, hpow]

theorem LaidOut.dvd_aligned (h : d.LaidOut) (hfrac : d.frac ≤ frac) :
    10 ^ fill frac ∣ d.digits * digBase ^ (roundUp frac - roundUp d.frac) := by
  rcases (roundUp_mono hfrac).eq_or_lt with heq | hlt
  · rw [heq, Nat.sub_self, pow_zero, Nat.mul_one]
    refine dvd_trans (Nat.pow_dvd_pow 10 ?_) h.dvd_digits
    rw [fill, fill, heq]
    omega
  refine Dvd.dvd.mul_left (dvd_trans (fill_dvd_digBase frac) (dvd_pow_self _ ?_)) _
  omega

theorem makeZero_wellFormed : makeZero.WellFormed := by
  refine ⟨rfl, by decide, by decide, ?_, fun _ => rfl⟩
  exact fun hfrac => absurd rfl hfrac

theorem makeZero_value : makeZero.value = 0 := by
  rw [value_eq_magnitude, magnitude]
  simp [makeZero, digits, ofBase_cons]

end DecimalT

end Mysql51.Decimal
