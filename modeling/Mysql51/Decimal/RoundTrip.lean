import Mysql51.Decimal.Order

/-!
# Reading the binary format back

`bin2decimal` reads from the bytes of a number, with or without its mask, the words that were written, and keeps all but the
leading zeroes of the part before the point.
-/

namespace Mysql51.Decimal

open Machine List Option

variable (sign : Bool)

def signMask : Nat := if sign then 0xffffffff else 0

def signByte : UInt8 := if sign then 0xff else 0

theorem miSintKorr_mask {n x : Nat} (hn : 0 < n) (hn4 : n ≤ 4) (hx : x < 128 * 256 ^ (n - 1)) :
    miSintKorr ((beBytes n x).map (· ^^^ signByte sign)) ^^^ signMask sign = x := by
  have hpow : 256 ^ n = 256 * 256 ^ (n - 1) := by
    rw [← pow_succ', Nat.sub_add_cancel hn]
  have hvalue : ofBeBytes (beBytes n x) = x := ofBeBytes_beBytes_of_lt (by omega)
  cases sign with
  | false =>
    have hmap : (beBytes n x).map (· ^^^ signByte false) = beBytes n x := by simp [signByte]
    rw [hmap, miSintKorr, length_beBytes, hvalue, if_neg (by omega)]
    exact Nat.xor_zero x
  | true =>
    have hnot := ofBeBytes_map_not (beBytes n x)
    have hle : 256 ^ n ≤ 2 ^ 32 := by
      calc 256 ^ n ≤ 256 ^ 4 := Nat.pow_le_pow_right (by decide) hn4
        _ = 2 ^ 32 := by decide
    rw [hvalue, length_beBytes] at hnot
    rw [show signByte true = 0xff from rfl, miSintKorr, length_map, length_beBytes, if_pos (by omega)]
    have hword : ofBeBytes ((beBytes n x).map (· ^^^ 0xff)) + 2 ^ 32 - 256 ^ n = 2 ^ 32 - (x + 1) := by omega
    rw [hword, ← xor_two_pow_sub_one (by omega), show signMask true = 2 ^ 32 - 1 from rfl, Nat.xor_assoc, Nat.xor_self,
      Nat.xor_zero]

theorem miSintKorr_word {w : Nat} (hw : w < digBase) (rest : List UInt8) :
    miSintKorr (((beBytes 4 w).map (· ^^^ signByte sign) ++ rest).take 4) ^^^ signMask sign = w := by
  have hlen : ((beBytes 4 w).map (· ^^^ signByte sign)).length = 4 := by simp
  rw [take_left' hlen]
  exact miSintKorr_mask sign (by decide) (le_refl 4) (lt_trans hw (by decide))

theorem not_digBase_lt {w : Nat} (hw : w < digBase) : ¬digBase - 1 < w := by omega

variable {ws buf : List Nat}

theorem readFrac_spec (hws : ∀ w ∈ ws, w < digBase) (rest : List UInt8) (buf : List Nat) :
    readFrac (signMask sign) ws.length ((ws.flatMap (beBytes 4)).map (· ^^^ signByte sign) ++ rest) buf =
      some (rest, buf ++ ws) := by
  induction ws generalizing buf with
  | nil =>
    rw [append_nil]
    rfl
  | cons w ws ih =>
    have hw := hws w mem_cons_self
    have hlen : ((beBytes 4 w).map (· ^^^ signByte sign)).length = 4 := by simp
    rw [length_cons, readFrac, flatMap_cons, map_append, append_assoc, miSintKorr_word sign hw,
      if_neg (not_digBase_lt hw), drop_left' hlen, ih fun v hv => hws v (mem_cons_of_mem w hv), append_assoc,
      singleton_append]

/-- A word that is stored is appended to the number, a leading zero does not change it. -/
theorem keepWord_spec {n x : Nat} (hbuf : DecimalT.Words n buf) (hx : x < digBase) (m : Nat) :
    ∃ n' buf', keepWord buf (n + digPerDec1 * (m + 1)) x digPerDec1 = (buf', n' + digPerDec1 * m) ∧ DecimalT.Words n' buf' ∧
      ofBase digBase buf' = ofBase digBase buf * digBase + x := by
  have hlen := hbuf.length
  unfold keepWord
  by_cases hkeep : buf ≠ [] ∨ x ≠ 0
  · refine ⟨n + digPerDec1, buf ++ [x], ?_, ⟨?_, ?_, ?_⟩, ?_⟩
    · rw [if_pos hkeep]
      congr 1
      ring
    · rw [length_append, hlen, length_singleton]
      unfold roundUp digPerDec1
      omega
    · intro w hw
      rcases mem_append.1 hw with hold | hnew
      · exact hbuf.word w hold
      rw [mem_singleton.1 hnew]
      exact hx
    · intro w hw
      cases buf with
      | nil =>
        obtain rfl : n = 0 := roundUp_eq_zero.1 hlen.symm
        obtain rfl : x = w := Option.some.inj hw
        exact hx
      | cons v buf =>
        have htop : topDigits (n + digPerDec1) = topDigits n := by
          rw [length_cons] at hlen
          unfold roundUp topDigits digPerDec1 at *
          omega
        rw [htop]
        exact hbuf.first w hw
    rw [ofBase_append, length_singleton, pow_one]
    simp [ofBase]
  push Not at hkeep
  obtain ⟨rfl, rfl⟩ := hkeep
  obtain rfl : n = 0 := roundUp_eq_zero.1 hlen.symm
  refine ⟨0, [], ?_, hbuf, rfl⟩
  rw [if_neg (by simp)]
  congr 1

theorem readIntg_spec (hws : ∀ w ∈ ws, w < digBase) (rest : List UInt8) {n : Nat} (hbuf : DecimalT.Words n buf) :
    ∃ n' buf', readIntg (signMask sign) ws.length ((ws.flatMap (beBytes 4)).map (· ^^^ signByte sign) ++ rest) buf
        (n + digPerDec1 * ws.length) = some (rest, buf', n') ∧ DecimalT.Words n' buf' ∧
      ofBase digBase buf' = ofBase digBase buf * digBase ^ ws.length + ofBase digBase ws := by
  induction ws generalizing n buf with
  | nil => exact ⟨n, buf, rfl, hbuf, by simp⟩
  | cons w ws ih =>
    have hw := hws w mem_cons_self
    have hlen : ((beBytes 4 w).map (· ^^^ signByte sign)).length = 4 := by simp
    obtain ⟨m, buf₁, hkeep, hbuf₁, hvalue₁⟩ := keepWord_spec hbuf hw ws.length
    obtain ⟨n', buf', hread, hbuf', hvalue⟩ := ih (fun v hv => hws v (mem_cons_of_mem w hv)) hbuf₁
    refine ⟨n', buf', ?_, hbuf', ?_⟩
    · rw [length_cons, readIntg, flatMap_cons, map_append, append_assoc, miSintKorr_word sign hw]
      rw [if_neg (not_digBase_lt hw), hkeep, drop_left' hlen]
      exact hread
    rw [hvalue, hvalue₁, length_cons, ofBase_cons]
    ring

theorem readFirst_spec {k x : Nat} (hk : k < digPerDec1) (hx : x < 10 ^ k) (rest : List UInt8) (m : Nat) :
    ∃ n buf, readFirst (signMask sign) k ((beBytes (dig2bytes k) x).map (· ^^^ signByte sign) ++ rest) (m + k) =
        some (rest, buf, n + m) ∧ DecimalT.Words n buf ∧ ofBase digBase buf = x := by
  have hempty : DecimalT.Words 0 [] := ⟨rfl, by simp, by simp⟩
  unfold readFirst
  rcases Nat.eq_zero_or_pos k with rfl | hpos
  · obtain rfl : x = 0 := Nat.lt_one_iff.1 hx
    exact ⟨0, [], by rw [if_neg (lt_irrefl 0), zero_add]; rfl, hempty, rfl⟩
  have hten : k < 10 := lt_trans hk (by decide)
  have hlen : ((beBytes (dig2bytes k) x).map (· ^^^ signByte sign)).length = dig2bytes k := by simp
  have hpow : ¬powers10 (k + 1) ≤ x :=
    not_le.2 (lt_of_lt_of_le hx (Nat.pow_le_pow_right (by decide) (Nat.le_succ k)))
  rw [if_pos hpos]
  dsimp only
  rw [take_left' hlen, drop_left' hlen,
    miSintKorr_mask sign (dig2bytes_pos hten hpos) (dig2bytes_le k) (lt_of_lt_of_le hx (ten_pow_le_top hten hpos)),
    if_neg hpow]
  unfold keepWord
  by_cases hzero : x = 0
  · refine ⟨0, [], ?_, hempty, hzero.symm⟩
    rw [if_neg (by simp [hzero]), Nat.add_sub_cancel, zero_add]
  refine ⟨k, [x], ?_, ⟨?_, ?_, ?_⟩, by simp [ofBase]⟩
  · rw [if_pos (.inr hzero), add_comm]
    rfl
  · rw [length_singleton]
    unfold roundUp digPerDec1 at *
    omega
  · intro w hw
    rw [mem_singleton.1 hw]
    exact lt_of_lt_of_le hx (Nat.pow_le_pow_right (by decide) hk.le)
  intro w hw
  obtain rfl : x = w := Option.some.inj hw
  have htop : topDigits k = k := by
    unfold topDigits digPerDec1 at *
    omega
  rw [htop]
  exact hx

theorem readLast_spec {k x : Nat} (hk : k < digPerDec1) (hx : x < 10 ^ k) (buf : List Nat) :
    readLast (signMask sign) k ((beBytes (dig2bytes k) x).map (· ^^^ signByte sign)) buf =
      some (buf ++ if 0 < k then [x * 10 ^ (digPerDec1 - k)] else []) := by
  unfold readLast
  rcases Nat.eq_zero_or_pos k with rfl | hpos
  · rw [if_neg (lt_irrefl 0), if_neg (lt_irrefl 0), append_nil]
  have hten : k < 10 := lt_trans hk (by decide)
  have hlen : ((beBytes (dig2bytes k) x).map (· ^^^ signByte sign)).length = dig2bytes k := by simp
  have hlt : x * 10 ^ (digPerDec1 - k) < digBase := by
    rw [digBase_eq, ← Nat.add_sub_cancel' hk.le, pow_add, Nat.add_sub_cancel_left]
    exact Nat.mul_lt_mul_of_pos_right hx (Nat.pow_pos (by decide))
  rw [if_pos hpos, if_pos hpos]
  rw [take_of_length_le (le_of_eq hlen),
    miSintKorr_mask sign (dig2bytes_pos hten hpos) (dig2bytes_le k) (lt_of_lt_of_le hx (ten_pow_le_top hten hpos)), powers10,
    Nat.mod_eq_of_lt (lt_trans hlt (by decide)), if_neg (not_digBase_lt hlt)]

theorem DecimalT.WellFormed.of_words {n f : Nat} {fs : List Nat} {sign : Bool} (hws : DecimalT.Words n ws)
    (hfs : FracWords f fs) (hsign : ofBase digBase (ws ++ fs) = 0 → sign = false) :
    DecimalT.WellFormed ⟨n, f, sign, ws ++ fs⟩ := by
  have hintg : DecimalT.intgWords ⟨n, f, sign, ws ++ fs⟩ = ws := take_left' hws.length
  have hfrac : DecimalT.fracWords ⟨n, f, sign, ws ++ fs⟩ = fs := drop_left' hws.length
  refine ⟨?_, ?_, ?_, ?_, hsign⟩
  · rw [length_append, hws.length, hfs.length]
  · intro w hw
    rcases mem_append.1 hw with hint | hfrac
    · exact hws.word w hint
    · exact hfs.word w hfrac
  · rw [hintg]
    exact hws.first
  rw [hfrac]
  exact hfs.last

namespace Packed

variable {precision scale : Nat} (q : Packed precision scale)

theorem words_split : (q.words.take ((precision - scale) / digPerDec1)).length = (precision - scale) / digPerDec1 ∧
    (q.words.drop ((precision - scale) / digPerDec1)).length = scale / digPerDec1 := by
  rw [length_take, length_drop, q.length]
  exact ⟨Nat.min_eq_left (Nat.le_add_right _ _), Nat.add_sub_cancel_left _ _⟩

/-- The fraction that is read: the words of nine digits and the digits behind them, filled up with zeroes. -/
def fracRead : List Nat :=
  q.words.drop ((precision - scale) / digPerDec1) ++
    if 0 < scale % digPerDec1 then [q.last * 10 ^ (digPerDec1 - scale % digPerDec1)] else []

theorem fracRead_words : FracWords scale q.fracRead := by
  have hlast : q.last * 10 ^ (digPerDec1 - scale % digPerDec1) < digBase := by
    rw [← ten_pow_mul_mod scale]
    exact Nat.mul_lt_mul_of_pos_right q.last_lt (Nat.pow_pos (by decide))
  have hlen := q.words_split.2
  unfold fracRead
  refine ⟨?_, ?_, ?_⟩
  · rw [length_append, hlen]
    split
    · rw [length_singleton]
      unfold roundUp digPerDec1 at *
      omega
    rw [length_nil]
    unfold roundUp digPerDec1 at *
    omega
  · intro w hw
    rcases mem_append.1 hw with hword | htail
    · exact q.word_lt w (mem_of_mem_drop hword)
    split at htail
    · rw [mem_singleton.1 htail]
      exact hlast
    cases htail
  intro hpart w hw
  rw [if_pos (Nat.pos_of_ne_zero hpart), List.getLast?_append, List.getLast?_singleton, some_or] at hw
  cases hw
  exact Dvd.intro_left _ rfl

/-- The words before the point as they are read, and the fraction, are the number that the format holds. -/
theorem digits_read (hws : ofBase digBase ws = q.first * digBase ^ ((precision - scale) / digPerDec1) +
      ofBase digBase (q.words.take ((precision - scale) / digPerDec1))) :
    q.digits * digBase ^ roundUp scale = ofBase digBase (ws ++ q.fracRead) * 10 ^ scale := by
  obtain ⟨hintg, hfrac⟩ := q.words_split
  have hwords : ofBase digBase (q.first :: q.words) = ofBase digBase (ws ++ q.words.drop ((precision - scale) / digPerDec1)) := by
    conv_lhs => rw [← take_append_drop ((precision - scale) / digPerDec1) q.words]
    rw [← cons_append, ofBase_append, ofBase_append, ofBase_cons, hintg, hws]
  unfold fracRead
  by_cases hpart : 0 < scale % digPerDec1
  · have hround : roundUp scale = scale / digPerDec1 + 1 := by
      unfold roundUp digPerDec1 at *
      omega
    have hdigits := q.digits_eq hfrac hwords (mul_comm _ _)
    rw [if_pos hpart, hround, digBase_pow_div, ofBase_append, length_append, hfrac, length_singleton, ← hdigits]
    ring
  have hzero := Nat.eq_zero_of_not_pos hpart
  have hlast : q.last = 0 := by
    have := q.last_lt
    rw [hzero, pow_zero] at this
    omega
  have hround : digBase ^ roundUp scale = 10 ^ scale := by
    rw [digBase_pow]
    congr 1
    unfold roundUp digPerDec1 at *
    omega
  rw [ofBase_cons] at hwords
  rw [if_neg hpart, append_nil, hround, Packed.digits, hlast, hwords, hzero, pow_zero, mul_one, add_zero]

theorem readBin_spec {sign : Bool} (hsign : sign = true → 0 < q.digits) :
    ∃ d, readBin (signMask sign) ((precision - scale) / digPerDec1) ((precision - scale) % digPerDec1) (scale / digPerDec1)
        (scale % digPerDec1) (q.bytes.map (· ^^^ signByte sign)) = some d ∧ d.WellFormed ∧ d.sign = sign ∧
      q.digits * digBase ^ roundUp d.frac = d.digits * 10 ^ scale := by
  obtain ⟨hintg, hfrac⟩ := q.words_split
  have hlt : ∀ n, n % digPerDec1 < digPerDec1 := fun n => Nat.mod_lt n (by decide)
  have hbytes : q.bytes = beBytes (dig2bytes ((precision - scale) % digPerDec1)) q.first ++
      ((q.words.take ((precision - scale) / digPerDec1)).flatMap (beBytes 4) ++
        ((q.words.drop ((precision - scale) / digPerDec1)).flatMap (beBytes 4) ++
          beBytes (dig2bytes (scale % digPerDec1)) q.last)) := by
    rw [bytes, ← append_assoc (List.flatMap _ _) (List.flatMap _ _), ← flatMap_append, take_append_drop, append_assoc]
  have hws : ∀ w ∈ q.words.take ((precision - scale) / digPerDec1), w < digBase :=
    fun w hw => q.word_lt w (mem_of_mem_take hw)
  have hfs : ∀ w ∈ q.words.drop ((precision - scale) / digPerDec1), w < digBase :=
    fun w hw => q.word_lt w (mem_of_mem_drop hw)
  obtain ⟨n₁, buf₁, hread₁, hbuf₁, hvalue₁⟩ := readFirst_spec sign (hlt _) q.first_lt
    (((q.words.take ((precision - scale) / digPerDec1)).flatMap (beBytes 4) ++
        ((q.words.drop ((precision - scale) / digPerDec1)).flatMap (beBytes 4) ++
          beBytes (dig2bytes (scale % digPerDec1)) q.last)).map (· ^^^ signByte sign))
    ((precision - scale) / digPerDec1 * digPerDec1)
  obtain ⟨n₂, buf₂, hread₂, hbuf₂, hvalue₂⟩ := readIntg_spec sign hws
    (((q.words.drop ((precision - scale) / digPerDec1)).flatMap (beBytes 4) ++
          beBytes (dig2bytes (scale % digPerDec1)) q.last).map (· ^^^ signByte sign)) hbuf₁
  have hread₃ := readFrac_spec sign hfs ((beBytes (dig2bytes (scale % digPerDec1)) q.last).map (· ^^^ signByte sign)) buf₂
  have hread₄ := readLast_spec sign (hlt scale) q.last_lt (buf₂ ++ q.words.drop ((precision - scale) / digPerDec1))
  rw [← map_append] at hread₁ hread₂ hread₃
  rw [hintg, mul_comm digPerDec1] at hread₂
  rw [hfrac] at hread₃
  rw [append_assoc] at hread₄
  rw [hvalue₁, hintg] at hvalue₂
  have hdigits := q.digits_read hvalue₂
  refine ⟨⟨n₂, scale, sign, buf₂ ++ q.fracRead⟩, ?_, DecimalT.WellFormed.of_words hbuf₂ q.fracRead_words ?_, rfl, hdigits⟩
  · have hmask : decide (signMask sign ≠ 0) = sign := by
      cases sign <;> rfl
    have hscale := Nat.div_add_mod' scale digPerDec1
    rw [hbytes, readBin, hread₁]
    dsimp only [some_bind_eq]
    rw [hread₂]
    dsimp only [some_bind_eq]
    rw [hread₃]
    dsimp only [some_bind_eq]
    rw [hread₄, hmask, hscale]
    rfl
  intro hzero
  by_contra hne
  have hpos := hsign (Bool.eq_true_of_not_eq_false hne)
  rw [hzero, zero_mul, Nat.mul_eq_zero] at hdigits
  rcases hdigits with hq | hbase
  · omega
  · exact pow_ne_zero _ (by decide) hbase

theorem mask_encode (h : 0 < precision) (sign : Bool) :
    (if 128 ≤ ((q.encode sign).headD 0).toNat then 0 else 0xffffffff) = signMask sign ∧
    flipTop (q.encode sign) = q.bytes.map (· ^^^ signByte sign) := by
  obtain ⟨b, bs, hb⟩ := q.exists_bytes h
  have hhead := q.head_lt hb
  have hnot := toNat_xor_not b
  have htwice : ∀ c : UInt8, c ^^^ 0x80 ^^^ 0x80 = c := by
    intro c
    rw [UInt8.xor_assoc, UInt8.xor_self, UInt8.xor_zero]
  rw [encode, hb, map_cons, flipTop, headD_cons, flipTop, htwice]
  refine ⟨?_, rfl⟩
  cases sign with
  | false =>
    rw [if_neg Bool.false_ne_true, UInt8.xor_zero, toNat_xor_top, if_pos hhead, if_pos (by omega)]
    rfl
  | true =>
    have hflip : (b ^^^ 0xff ^^^ 0x80).toNat < 128 := by
      rw [toNat_xor_top, if_neg (by omega)]
      omega
    rw [if_pos rfl, if_neg (by omega)]
    rfl

theorem roundUp_div_add (n : Nat) : n / digPerDec1 + (if 0 < n % digPerDec1 then 1 else 0) = roundUp n := by
  unfold roundUp digPerDec1
  split <;> omega

theorem bin2decimal_spec (h : 0 < precision) {sign : Bool} (hsign : sign = true → 0 < q.digits) {len : Nat}
    (hlen : roundUp (precision - scale) + roundUp scale ≤ len) :
    ∃ d, bin2decimal (q.encode sign) len precision scale = (eDecOk, d) ∧ d.WellFormed ∧ d.sign = sign ∧
      q.digits * digBase ^ roundUp d.frac = d.digits * 10 ^ scale := by
  obtain ⟨d, hread, hd⟩ := q.readBin_spec hsign
  obtain ⟨hmask, hflip⟩ := q.mask_encode h sign
  refine ⟨d, ?_, hd⟩
  rw [bin2decimal, take_of_length_le (le_of_eq (q.length_encode sign)), hmask, hflip]
  simp only [sub_div_mul, roundUp_div_add, fixIntgFracError_fits hlen, if_true]
  rw [hread]

end Packed

/-- Decimals that fit a precision and a scale are encoded without an error in bytes of one length, are read back with the
same value, and are ordered by `memcmp` as by their values. -/
theorem decimal2bin_correct (precision scale : Nat) (hprecision : 0 < precision) (_ : scale ≤ precision) (a b : DecimalT)
    (ha : a.WellFormed) (hb : b.WellFormed) (hfa : a.Fits precision scale) (hfb : b.Fits precision scale) :
    (decimal2bin a precision scale).1 = eDecOk ∧ (decimal2bin a precision scale).2.length = decimalBinSize precision scale ∧
    (∀ len, roundUp (precision - scale) + roundUp scale ≤ len →
      ∃ d, bin2decimal (decimal2bin a precision scale).2 len precision scale = (eDecOk, d) ∧ d.WellFormed ∧
        d.value = a.value) ∧
    (memcmp (decimal2bin a precision scale).2 (decimal2bin b precision scale).2 < 0 ↔ a.value < b.value) ∧
    (0 < memcmp (decimal2bin a precision scale).2 (decimal2bin b precision scale).2 ↔ b.value < a.value) := by
  obtain ⟨q, hwrite, hq⟩ := decimal2bin_spec ha hfa
  obtain ⟨r, hwrite', hr⟩ := decimal2bin_spec hb hfb
  obtain ⟨hless, hgreater⟩ := q.memcmp_encode hprecision r (ha.digits_pos hq) (hb.digits_pos hr)
  have hten : (0 : Rat) < (10 ^ scale : Nat) := Nat.cast_pos.2 (Nat.pow_pos (by decide))
  rw [hwrite, hwrite', DecimalT.value_eq hq, DecimalT.value_eq hr]
  refine ⟨rfl, q.length_encode a.sign, ?_, ?_, ?_⟩
  · intro len hlen
    obtain ⟨d, hread, hd, hsign, hdigits⟩ := q.bin2decimal_spec hprecision (ha.digits_pos hq) hlen
    refine ⟨d, hread, hd, ?_⟩
    rw [DecimalT.value_eq hdigits, hsign]
  · rw [hless, div_lt_div_iff_of_pos_right hten, Int.cast_lt]
  · rw [hgreater, div_lt_div_iff_of_pos_right hten, Int.cast_lt]

/-- The decimal `1234567890.1234` and its negative, in a column of fourteen digits. -/
theorem decimal2bin_correct_sample :
    ∃ a b : DecimalT, a = ⟨10, 4, false, [1, 234567890, 123400000]⟩ ∧ b = ⟨10, 4, true, [1, 234567890, 123400000]⟩ ∧
      (decimal2bin a 14 4).2.length = decimalBinSize 14 4 ∧
      (0 < memcmp (decimal2bin a 14 4).2 (decimal2bin b 14 4).2 ↔ b.value < a.value) := by
  have hformed : ∀ sign, DecimalT.WellFormed ⟨10, 4, sign, [1, 234567890, 123400000]⟩ := by
    intro sign
    refine ⟨?_, ?_, ?_, ?_, fun hzero => absurd hzero ?_⟩
    all_goals decide +revert
  have hfits : ∀ sign, DecimalT.Fits ⟨10, 4, sign, [1, 234567890, 123400000]⟩ 14 4 := fun sign =>
    ⟨by decide +revert, by decide +revert⟩
  obtain ⟨-, hlen, -, -, hcmp⟩ :=
    decimal2bin_correct 14 4 (by decide) (by decide) _ _ (hformed false) (hformed true) (hfits false) (hfits true)
  exact ⟨_, _, rfl, rfl, hlen, hcmp⟩

end Mysql51.Decimal
