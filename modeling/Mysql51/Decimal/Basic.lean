import Mysql51.Lib.BigEndian

/-!
# Decimal numbers

`decimal_t` keeps the digits of a number in words of nine, those before the point and those after it in words of their
own. The highest word before the point and the lowest after it may have fewer digits, the latter filled up with zeroes.
-/

namespace Mysql51.Decimal

open Machine List

def digBase : Nat := 1000000000

def digPerDec1 : Nat := 9

def powers10 (i : Nat) : Nat := 10 ^ i

def dig2bytes (i : Nat) : Nat := [0, 1, 1, 2, 2, 3, 3, 4, 4, 4].getD i 0

def roundUp (x : Nat) : Nat := (x + digPerDec1 - 1) / digPerDec1

def eDecOk : Int := 0

def eDecTruncated : Int := 1

def eDecOverflow : Int := 2

def eDecBadNum : Int := 8

structure DecimalT where
  intg : Nat
  frac : Nat
  sign : Bool
  buf : List Nat
  deriving DecidableEq

namespace DecimalT

variable (d : DecimalT)

def intgWords : List Nat := d.buf.take (roundUp d.intg)

def fracWords : List Nat := d.buf.drop (roundUp d.intg)

def digits : Nat := ofBase digBase d.buf

def value : Rat := (if d.sign then -1 else 1) * d.digits / (digBase ^ roundUp d.frac : Nat)

/-- What every `decimal_t` has to satisfy: as many words as digits, no digits in front of the first or behind the last
one that it has, and no negative zero. -/
structure WellFormed (d : DecimalT) : Prop where
  length : d.buf.length = roundUp d.intg + roundUp d.frac
  word : ∀ w ∈ d.buf, w < digBase
  first : ∀ w ∈ d.intgWords.head?, w < powers10 ((d.intg - 1) % digPerDec1 + 1)
  last : d.frac % digPerDec1 ≠ 0 → ∀ w ∈ d.fracWords.getLast?, powers10 (digPerDec1 - d.frac % digPerDec1) ∣ w
  zero : d.digits = 0 → d.sign = false

def makeZero : DecimalT := ⟨1, 0, false, [0]⟩

/-- The first loop of `remove_leading_zeroes`, over whole words. -/
def skipWords : Nat → Nat → List Nat → List Nat × Nat
  | intg, i, w :: buf => if 0 < intg ∧ w = 0 then skipWords (intg - i) digPerDec1 buf else (w :: buf, intg)
  | intg, _, [] => ([], intg)

/-- The second loop of `remove_leading_zeroes`, over the digits of a word that is not zero. -/
def skipDigits (w : Nat) : Nat → Nat → Nat
  | i + 1, intg => if w < powers10 (i + 1) then skipDigits w i (intg - 1) else intg
  | 0, intg => intg

def removeLeadingZeroes : List Nat × Nat :=
  let (buf, intg) := skipWords d.intg ((d.intg - 1) % digPerDec1 + 1) d.buf
  if 0 < intg then (buf, skipDigits (buf.headD 0) ((intg - 1) % digPerDec1) intg) else (buf, 0)

end DecimalT

theorem roundUp_zero : roundUp 0 = 0 := rfl

theorem roundUp_eq_zero {n : Nat} : roundUp n = 0 ↔ n = 0 := by
  unfold roundUp digPerDec1
  omega

def topDigits (n : Nat) : Nat := (n - 1) % digPerDec1 + 1

theorem roundUp_eq {n : Nat} (h : 0 < n) : n = digPerDec1 * (roundUp n - 1) + topDigits n := by
  unfold roundUp topDigits digPerDec1
  omega

theorem roundUp_sub_top {n : Nat} (h : 0 < n) : roundUp (n - topDigits n) = roundUp n - 1 := by
  unfold roundUp topDigits digPerDec1
  omega

theorem topDigits_sub_top {n : Nat} (h : 0 < n - topDigits n) : topDigits (n - topDigits n) = digPerDec1 := by
  unfold topDigits digPerDec1 at *
  omega

theorem digBase_eq : digBase = 10 ^ digPerDec1 := rfl

theorem digBase_pow (n : Nat) : digBase ^ n = 10 ^ (digPerDec1 * n) := by
  rw [digBase_eq, pow_mul]

namespace DecimalT

/-- Words that hold a number of digits, with no digit in front of them. -/
structure Words (n : Nat) (ws : List Nat) : Prop where
  length : ws.length = roundUp n
  word : ∀ w ∈ ws, w < digBase
  first : ∀ w ∈ ws.head?, w < powers10 (topDigits n)

theorem skipWords_zero (i : Nat) (ws : List Nat) : skipWords 0 i ws = (ws, 0) := by
  cases ws with
  | nil => rfl
  | cons w ws => simp [skipWords]

/-- What the loop over words leaves: the same number, and no leading word that is zero. -/
theorem skipWords_spec {n : Nat} {ws : List Nat} (h : Words n ws) (tail : List Nat) :
    ∃ m vs, skipWords n (topDigits n) (ws ++ tail) = (vs ++ tail, m) ∧ Words m vs ∧ ofBase digBase vs = ofBase digBase ws ∧
      ∀ w ∈ vs.head?, w ≠ 0 := by
  induction ws generalizing n with
  | nil =>
    obtain rfl : n = 0 := roundUp_eq_zero.1 h.length.symm
    refine ⟨0, [], ?_, h, rfl, by simp⟩
    cases tail with
    | nil => rfl
    | cons w tail => simp [skipWords]
  | cons w ws ih =>
    have hn : 0 < n := by
      rcases Nat.eq_zero_or_pos n with rfl | hn
      · cases h.length
      · exact hn
    by_cases hw : w = 0
    · have hrest : Words (n - topDigits n) ws := by
        refine ⟨?_, fun v hv => h.word v (mem_cons_of_mem w hv), fun v hv => ?_⟩
        · have hlen := h.length
          rw [length_cons] at hlen
          rw [roundUp_sub_top hn]
          omega
        have hpos : 0 < n - topDigits n := by
          rw [Nat.pos_iff_ne_zero]
          intro hzero
          have hempty := roundUp_sub_top hn
          rw [hzero, roundUp_zero, ← h.length, length_cons, Nat.add_sub_cancel] at hempty
          rw [length_eq_zero_iff.1 hempty.symm] at hv
          cases hv
        rw [topDigits_sub_top hpos]
        exact h.word v (mem_cons_of_mem w (mem_of_mem_head? hv))
      obtain ⟨m, vs, hskip, hvs, hsame, hne⟩ := ih hrest
      refine ⟨m, vs, ?_, hvs, ?_, hne⟩
      · rw [cons_append, skipWords, if_pos ⟨hn, hw⟩]
        rcases Nat.eq_zero_or_pos (n - topDigits n) with hzero | hpos
        · rw [hzero, skipWords_zero] at hskip ⊢
          exact hskip
        rwa [topDigits_sub_top hpos] at hskip
      rw [hsame, hw, ofBase_cons, zero_mul, zero_add]
    refine ⟨n, w :: ws, ?_, h, rfl, by simpa using hw⟩
    rw [cons_append, skipWords, if_neg (fun hc => hw hc.2)]

theorem skipDigits_spec {w i : Nat} (hw : 0 < w) (hlt : w < 10 ^ (i + 1)) (intg : Nat) :
    ∃ j ≤ i, 10 ^ j ≤ w ∧ w < 10 ^ (j + 1) ∧ skipDigits w i intg = intg - (i - j) := by
  induction i generalizing intg with
  | zero => exact ⟨0, le_refl 0, hw, hlt, rfl⟩
  | succ i ih =>
    by_cases hless : w < powers10 (i + 1)
    · obtain ⟨j, hj, hlow, hhigh, hskip⟩ := ih hless (intg - 1)
      refine ⟨j, by omega, hlow, hhigh, ?_⟩
      rw [skipDigits, if_pos hless, hskip]
      omega
    refine ⟨i + 1, le_refl _, not_lt.1 hless, hlt, ?_⟩
    rw [skipDigits, if_neg hless]
    omega

theorem WellFormed.intgWords {d : DecimalT} (h : d.WellFormed) : Words d.intg d.intgWords := by
  refine ⟨?_, fun w hw => h.word w (mem_of_mem_take hw), h.first⟩
  rw [DecimalT.intgWords, length_take, h.length]
  omega

theorem intgWords_append_fracWords (d : DecimalT) : d.intgWords ++ d.fracWords = d.buf := take_append_drop _ _

/-- `remove_leading_zeroes` returns the words of the number of digits that the part before the point has. -/
theorem WellFormed.removeLeadingZeroes {d : DecimalT} (h : d.WellFormed) :
    ∃ n ws, d.removeLeadingZeroes = (ws ++ d.fracWords, n) ∧ Words n ws ∧
      ofBase digBase ws = ofBase digBase d.intgWords ∧ (0 < n → 10 ^ (n - 1) ≤ ofBase digBase ws) := by
  obtain ⟨m, ws, hskip, hws, hsame, hne⟩ := skipWords_spec h.intgWords d.fracWords
  rw [intgWords_append_fracWords] at hskip
  rcases Nat.eq_zero_or_pos m with rfl | hm
  · refine ⟨0, ws, ?_, hws, hsame, fun h => absurd h (lt_irrefl 0)⟩
    rw [DecimalT.removeLeadingZeroes, ← topDigits, hskip]
    rfl
  obtain ⟨w, rest, rfl⟩ : ∃ w rest, ws = w :: rest := by
    apply exists_cons_of_ne_nil
    intro hnil
    have hlen := hws.length
    rw [hnil, length_nil, eq_comm, roundUp_eq_zero] at hlen
    omega
  have hw : 0 < w := Nat.pos_of_ne_zero (hne w rfl)
  obtain ⟨j, hj, hlow, hhigh, hdigits⟩ := skipDigits_spec (i := (m - 1) % digPerDec1) hw (hws.first w rfl) m
  have hround : roundUp (m - ((m - 1) % digPerDec1 - j)) = roundUp m := by
    unfold roundUp digPerDec1 at *
    omega
  have htop : topDigits (m - ((m - 1) % digPerDec1 - j)) = j + 1 := by
    unfold topDigits digPerDec1 at *
    omega
  refine ⟨m - ((m - 1) % digPerDec1 - j), w :: rest, ?_, ?_, hsame, fun _ => ?_⟩
  · rw [DecimalT.removeLeadingZeroes, ← topDigits, hskip]
    dsimp only
    rw [if_pos hm, cons_append, headD_cons, hdigits]
  · refine ⟨hround.symm ▸ hws.length, hws.word, fun v hv => ?_⟩
    obtain rfl : w = v := Option.some.inj hv
    rw [htop]
    exact hhigh
  have hlen : m - ((m - 1) % digPerDec1 - j) - 1 = j + digPerDec1 * rest.length := by
    have hcons := hws.length
    rw [length_cons] at hcons
    unfold roundUp digPerDec1 at *
    omega
  rw [hlen, pow_add, ← digBase_pow, ofBase_cons]
  calc 10 ^ j * digBase ^ rest.length ≤ w * digBase ^ rest.length := Nat.mul_le_mul_right _ hlow
    _ ≤ w * digBase ^ rest.length + ofBase digBase rest := Nat.le_add_right _ _

end DecimalT

end Mysql51.Decimal
