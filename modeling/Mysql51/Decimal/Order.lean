import Mysql51.Decimal.Encode

/-!
# The order of encoded decimals

The bytes of the format, read as one number, are in the order of the numbers they hold. The highest bit is free, so that
inverting it, and all bits of a negative number before, makes the order that of the signed numbers.
-/

namespace Mysql51.Decimal

open Machine List

theorem xor_top : ∀ n < 256, n ^^^ 0x80 = if n < 128 then n + 128 else n - 128 := by decide +kernel

theorem toNat_xor_top (b : UInt8) : (b ^^^ 0x80).toNat = if b.toNat < 128 then b.toNat + 128 else b.toNat - 128 := by
  rw [UInt8.toNat_xor]
  exact xor_top b.toNat b.toNat_lt

theorem ten_pow_le_top {k : Nat} (hk : k < 10) (hpos : 0 < k) : 10 ^ k ≤ 128 * 256 ^ (dig2bytes k - 1) := by
  revert k
  decide

namespace Packed

variable {precision scale : Nat} (q : Packed precision scale)

theorem word_lt_bytes {w : Nat} (hw : w ∈ q.words) : w < 256 ^ 4 := Decimal.word_lt_bytes (q.word_lt w hw)

theorem first_fits : q.first < 256 ^ dig2bytes ((precision - scale) % digPerDec1) :=
  lt_of_lt_of_le q.first_lt (ten_pow_le_dig2bytes (mod_lt_ten _))

theorem last_fits : q.last < 256 ^ dig2bytes (scale % digPerDec1) :=
  lt_of_lt_of_le q.last_lt (ten_pow_le_dig2bytes (mod_lt_ten _))

theorem ofBeBytes_bytes : ofBeBytes q.bytes = (q.first * (256 ^ 4) ^ q.words.length + ofBase (256 ^ 4) q.words) *
      256 ^ dig2bytes (scale % digPerDec1) + q.last := by
  rw [bytes, ofBeBytes_append, ofBeBytes_append, ofBeBytes_beBytes_of_lt q.first_fits, ofBeBytes_beBytes_of_lt q.last_fits,
    ofBeBytes_flatMap fun w hw => q.word_lt_bytes hw, length_flatMap_words, length_beBytes, pow_mul]

theorem compare_bytes (r : Packed precision scale) :
    compare (ofBeBytes q.bytes) (ofBeBytes r.bytes) = compare q.digits r.digits := by
  have hlen := q.length.trans r.length.symm
  rw [ofBeBytes_bytes, ofBeBytes_bytes, digits, digits, compare_mul_add q.last_fits r.last_fits,
    compare_mul_add q.last_lt r.last_lt, hlen,
    compare_mul_add (hlen ▸ ofBase_lt fun w hw => q.word_lt_bytes hw) (ofBase_lt fun w hw => r.word_lt_bytes hw),
    compare_mul_add (hlen ▸ ofBase_lt q.word_lt) (ofBase_lt r.word_lt),
    compare_ofBase hlen (fun w hw => q.word_lt_bytes hw) fun w hw => r.word_lt_bytes hw,
    compare_ofBase hlen q.word_lt r.word_lt]

theorem head_lt {b : UInt8} {bs : List UInt8} (h : q.bytes = b :: bs) : b.toNat < 128 := by
  have hhead : ∀ {n x : Nat} {tail : List UInt8}, 0 < n → x < 128 * 256 ^ (n - 1) → beBytes n x ++ tail = b :: bs →
      b.toNat < 128 := by
    intro n x tail hn hx heq
    obtain ⟨n, rfl⟩ := Nat.exists_eq_succ_of_ne_zero (ne_of_gt hn)
    rw [beBytes, cons_append] at heq
    obtain ⟨rfl, -⟩ := List.cons.inj heq
    have hx' := Nat.div_lt_of_lt_mul (by rwa [Nat.succ_sub_one, mul_comm] at hx)
    rw [UInt8.toNat_ofNat']
    exact lt_of_le_of_lt (Nat.mod_le _ _) hx'
  rw [bytes, append_assoc] at h
  rcases Nat.eq_zero_or_pos ((precision - scale) % digPerDec1) with hzero | hpos
  · rw [hzero] at h
    cases hwords : q.words with
    | cons w words =>
      have hw : w < digBase := q.word_lt w (hwords ▸ mem_cons_self)
      rw [hwords, flatMap_cons, append_assoc] at h
      exact hhead (by decide : 0 < 4) (lt_trans hw (by decide)) h
    | nil =>
      rw [hwords] at h
      have hpos : 0 < scale % digPerDec1 := by
        by_contra hnot
        rw [Nat.eq_zero_of_not_pos hnot] at h
        cases h
      apply hhead (dig2bytes_pos (mod_lt_ten _) hpos) (lt_of_lt_of_le q.last_lt (ten_pow_le_top (mod_lt_ten _) hpos))
      rw [append_nil]
      exact h
  exact hhead (dig2bytes_pos (mod_lt_ten _) hpos) (lt_of_lt_of_le q.first_lt (ten_pow_le_top (mod_lt_ten _) hpos)) h

theorem exists_bytes (h : 0 < precision) : ∃ b bs, q.bytes = b :: bs := by
  apply exists_cons_of_ne_nil
  intro hnil
  have hlen := q.length_bytes
  rw [hnil, length_nil, decimalBinSize, eq_comm, Nat.add_eq_zero_iff] at hlen
  have hintg := binSize_eq_zero hlen.1
  have hfrac := binSize_eq_zero hlen.2
  omega

@[simp] theorem length_encode (sign : Bool) : (q.encode sign).length = decimalBinSize precision scale := by
  have hlen : ∀ bs, (flipTop bs).length = bs.length := by
    intro bs
    cases bs <;> rfl
  rw [encode, hlen, length_map, length_bytes]

/-- The encoding as a number: the highest bit is added for a positive number, and the rest taken from it for a negative one. -/
theorem ofBeBytes_encode {b : UInt8} {bs : List UInt8} (h : q.bytes = b :: bs) :
    ofBeBytes (q.encode false) = 128 * 256 ^ bs.length + ofBeBytes q.bytes ∧
    ofBeBytes (q.encode true) + ofBeBytes q.bytes + 1 = 128 * 256 ^ bs.length := by
  have hb := q.head_lt h
  have hnot := toNat_xor_not b
  have hrest := ofBeBytes_map_not bs
  constructor
  · rw [encode, h, ofBeBytes_cons]
    have hmap : (b :: bs).map (· ^^^ if false = true then (0xff : UInt8) else 0) = b :: bs := by simp
    rw [hmap, flipTop, ofBeBytes_cons, toNat_xor_top, if_pos hb]
    ring
  have hflip : (b ^^^ 0xff ^^^ 0x80).toNat + b.toNat = 127 := by
    rw [toNat_xor_top, if_neg (by omega)]
    omega
  have hbyte : (b ^^^ 0xff ^^^ 0x80).toNat * 256 ^ bs.length + b.toNat * 256 ^ bs.length = 127 * 256 ^ bs.length := by
    rw [← add_mul, hflip]
  rw [encode, h, if_pos rfl, map_cons, flipTop, ofBeBytes_cons, ofBeBytes_cons, length_map]
  omega

def signed (sign : Bool) : Int := if sign then -q.digits else q.digits

theorem memcmp_encode (h : 0 < precision) (r : Packed precision scale) {sign sign' : Bool}
    (hq : sign = true → 0 < q.digits) (hr : sign' = true → 0 < r.digits) :
    (memcmp (q.encode sign) (r.encode sign') < 0 ↔ q.signed sign < r.signed sign') ∧
    (0 < memcmp (q.encode sign) (r.encode sign') ↔ r.signed sign' < q.signed sign) := by
  obtain ⟨b, bs, hqb⟩ := q.exists_bytes h
  obtain ⟨c, cs, hrb⟩ := r.exists_bytes h
  have hlen : bs.length = cs.length := by
    have hqlen := q.length_bytes
    have hrlen := r.length_bytes
    rw [hqb, length_cons] at hqlen
    rw [hrb, length_cons] at hrlen
    omega
  obtain ⟨hqpos, hqneg⟩ := q.ofBeBytes_encode hqb
  obtain ⟨hrpos, hrneg⟩ := r.ofBeBytes_encode hrb
  rw [hlen] at hqpos hqneg
  have hlt : ofBeBytes q.bytes < ofBeBytes r.bytes ↔ q.digits < r.digits := by
    rw [← compare_lt_iff_lt, compare_bytes, compare_lt_iff_lt]
  have hgt : ofBeBytes r.bytes < ofBeBytes q.bytes ↔ r.digits < q.digits := by
    rw [← compare_lt_iff_lt, compare_bytes, compare_lt_iff_lt]
  have hmem := memcmp_iff ((q.length_encode sign).trans (r.length_encode sign').symm)
  rw [hmem.1, hmem.2]
  unfold signed
  cases sign with
  | false =>
    cases sign' with
    | false =>
      simp only [Bool.false_eq_true, if_false]
      omega
    | true =>
      have := hr rfl
      simp only [Bool.false_eq_true, if_false, if_true]
      omega
  | true =>
    have := hq rfl
    cases sign' with
    | false =>
      simp only [Bool.false_eq_true, if_false, if_true]
      omega
    | true =>
      simp only [if_true]
      omega

end Packed

theorem DecimalT.value_eq {d : DecimalT} {precision scale : Nat} {q : Packed precision scale}
    (h : q.digits * digBase ^ roundUp d.frac = d.digits * 10 ^ scale) : d.value = (q.signed d.sign : Rat) / (10 ^ scale : Nat) := by
  have hbase : ((digBase ^ roundUp d.frac : Nat) : Rat) ≠ 0 := Nat.cast_ne_zero.2 (pow_ne_zero _ (by decide))
  have hten : ((10 ^ scale : Nat) : Rat) ≠ 0 := Nat.cast_ne_zero.2 (pow_ne_zero _ (by decide))
  have hcast : (q.digits : Rat) * (digBase ^ roundUp d.frac : Nat) = d.digits * (10 ^ scale : Nat) := by exact_mod_cast h
  rw [DecimalT.value, Packed.signed, div_eq_div_iff hbase hten]
  split
  · push_cast at hcast ⊢
    linarith
  push_cast at hcast ⊢
  linarith

theorem DecimalT.WellFormed.digits_pos {d : DecimalT} (h : d.WellFormed) {precision scale : Nat} {q : Packed precision scale}
    (hq : q.digits * digBase ^ roundUp d.frac = d.digits * 10 ^ scale) (hsign : d.sign = true) : 0 < q.digits := by
  apply Nat.pos_of_ne_zero
  intro hzero
  rw [hzero, zero_mul, eq_comm, Nat.mul_eq_zero] at hq
  rcases hq with hdigits | hten
  · rw [h.zero hdigits] at hsign
    cases hsign
  exact pow_ne_zero _ (by decide) hten

end Mysql51.Decimal
