import Mysql51.Decimal.Words

/-!
# Addition of decimals

`do_add` adds the words of two decimals of one sign from the lowest word up: the words that only one of them has are
copied, those that both have are added, and the carry goes on through the words that only one has in front. Whether the sum
needs one word more is decided before the loops, from the first words alone.
-/

namespace Mysql51.Decimal

open Machine List

variable (buf : List Nat)

def down (high low : Nat) : List Nat := ((buf.take low).drop high).reverse

/-- Parts 1 and 2 of `do_add`, where the first operand is the one with more words after the point. -/
def addFrac (buf1 : List Nat) (intg1 frac1 : Nat) (buf2 : List Nat) (intg2 frac2 : Nat) : List Nat × Nat :=
  let copied := down buf1 (intg1 + frac2) (intg1 + frac1)
  let (out, carry) := ripple (fun carry w => add w.1 w.2 carry) 0
    ((down buf1 (intg1 - intg2) (intg1 + frac2)).zip (down buf2 0 (intg2 + frac2)))
  (copied ++ out, carry)

def addIntg (buf1 : List Nat) (intg1 : Nat) (buf2 : List Nat) (intg2 carry : Nat) : List Nat × Nat :=
  let buf := if intg2 < intg1 then down buf1 0 (intg1 - intg2) else down buf2 0 (intg2 - intg1)
  ripple (fun carry w => add w 0 carry) carry buf

def addLoops (buf1 : List Nat) (intg1 frac1 : Nat) (buf2 : List Nat) (intg2 frac2 : Nat) : List Nat :=
  let (low, carry) :=
    if frac2 < frac1 then addFrac buf1 intg1 frac1 buf2 intg2 frac2 else addFrac buf2 intg2 frac2 buf1 intg1 frac1
  let (high, carry) := addIntg buf1 intg1 buf2 intg2 carry
  low ++ high ++ if carry ≠ 0 then [1] else []

/-- The word whose size decides whether `do_add` makes room for a carry. -/
def carryWord (from1 from2 : DecimalT) : Nat :=
  if roundUp from2.intg < roundUp from1.intg then from1.buf.headD 0
  else if roundUp from1.intg < roundUp from2.intg then from2.buf.headD 0
  else from1.buf.headD 0 + from2.buf.headD 0

/-- `do_add`, into a buffer with the words `dest`. The words in front of the lowest one written stay what they were. -/
def doAdd (from1 from2 : DecimalT) (dest : List Nat) : Int × DecimalT :=
  let intg1 := roundUp from1.intg
  let intg2 := roundUp from2.intg
  let frac1 := roundUp from1.frac
  let frac2 := roundUp from2.frac
  let carries := digMax - 1 < carryWord from1 from2
  let intg0 := if carries then max intg1 intg2 + 1 else max intg1 intg2
  let dest := if carries then dest.set 0 0 else dest
  let (intg0, frac0, error) := fixIntgFracError dest.length intg0 (max frac1 frac2)
  if error = eDecOverflow then (error, maxDecimal (dest.length * digPerDec1) 0)
  else
    let frac := max from1.frac from2.frac
    let frac := if error ≠ eDecOk then min frac (frac0 * digPerDec1) else frac
    let out :=
      if error ≠ eDecOk then
        addLoops from1.buf (min intg1 intg0) (min frac1 frac0) from2.buf (min intg2 intg0) (min frac2 frac0)
      else addLoops from1.buf intg1 frac1 from2.buf intg2 frac2
    (error, ⟨intg0 * digPerDec1, frac, from1.sign, dest.take (intg0 + frac0 - out.length) ++ out.reverse⟩)

/-! ### Stretches of words -/

theorem length_down (high low : Nat) (h : low ≤ buf.length) : (down buf high low).length = low - high := by
  rw [down, length_reverse, length_drop, length_take, min_eq_left h]

theorem down_append {high mid low : Nat} (hmid : high ≤ mid) (hlow : mid ≤ low) :
    down buf mid low ++ down buf high mid = down buf high low := by
  have htake : (buf.take low).take mid = buf.take mid := by rw [take_take, min_eq_left hlow]
  rw [down, down, down, ← reverse_append, ← htake, drop_take]
  congr 1
  have hsplit := take_append_drop (mid - high) ((buf.take low).drop high)
  rwa [drop_drop, Nat.add_sub_cancel' hmid] at hsplit

theorem mem_of_mem_down {buf : List Nat} {high low w : Nat} (h : w ∈ down buf high low) : w ∈ buf :=
  mem_of_mem_take (mem_of_mem_drop (mem_reverse.1 h))

def stretch (high low : Nat) : Nat := ofBase digBase (down buf high low).reverse

theorem stretch_self (n : Nat) : stretch buf n n = 0 := by
  simp [stretch, down]

theorem stretch_all {buf : List Nat} {n : Nat} (h : buf.length = n) : stretch buf 0 n = ofBase digBase buf := by
  rw [stretch, down, ← h, take_length, drop_zero, reverse_reverse]

theorem stretch_split {high mid low : Nat} (hmid : high ≤ mid) (hlow : mid ≤ low) (h : low ≤ buf.length) :
    stretch buf high low = stretch buf mid low + digBase ^ (low - mid) * stretch buf high mid := by
  rw [stretch, ← down_append buf hmid hlow, ofBase_reverse_append, length_down _ _ _ h]
  rfl

/-! ### The loops -/

section

variable (us vs : List Nat) {carry : Nat}

theorem addWords_stretch (hus : ∀ w ∈ us, w < digBase) (hvs : ∀ w ∈ vs, w < digBase) (hlen : us.length = vs.length)
    (hc : carry ≤ 1) : Stretch digBase 1 1 (ripple (fun carry w => add w.1 w.2 carry) carry (us.zip vs)).1
      (ripple (fun carry w => add w.1 w.2 carry) carry (us.zip vs)).2 us.length
      (ofBase digBase us.reverse + ofBase digBase vs.reverse + 1 * carry) := by
  have hrun := Stretch.ripple (b := digBase) (k := 1) (s := 1) (fun carry (w : Nat × Nat) => add w.1 w.2 carry)
    (fun w => 1 * (w.1 : ℤ) + 1 * w.2) (us.zip vs) (fun w hw c hcarry => ?_) hc
  · rw [weigh_zip digBase 1 1 hlen, length_zip, ← hlen, min_self, one_mul, one_mul] at hrun
    exact hrun
  have hmem := of_mem_zip hw
  exact ⟨add_lt (hus w.1 hmem.1) (hvs w.2 hmem.2) hcarry, add_carry w.1 w.2 c, add_value w.1 w.2 c⟩

theorem addCarry_stretch (hus : ∀ w ∈ us, w < digBase) (hc : carry ≤ 1) :
    Stretch digBase 1 1 (ripple (fun carry w => add w 0 carry) carry us).1 (ripple (fun carry w => add w 0 carry) carry us).2
      us.length (ofBase digBase us.reverse + 1 * carry) := by
  have hrun := Stretch.ripple (b := digBase) (k := 1) (s := 1) (fun carry (w : Nat) => add w 0 carry)
    (fun w => 1 * (w : ℤ)) us (fun w hw c hcarry => ?_) hc
  · rw [weigh_mul, one_mul] at hrun
    exact hrun
  have hvalue := add_value w 0 c
  rw [Nat.cast_zero, mul_zero, add_zero] at hvalue
  exact ⟨add_lt (hus w hw) digBase_pos hcarry, add_carry w 0 c, hvalue⟩

end

section

variable {buf1 buf2 : List Nat} {intg1 frac1 intg2 frac2 : Nat}

theorem addIntg_comm (carry : Nat) : addIntg buf1 intg1 buf2 intg2 carry = addIntg buf2 intg2 buf1 intg1 carry := by
  unfold addIntg
  rcases lt_trichotomy intg1 intg2 with h | rfl | h
  · rw [if_neg (by omega), if_pos h]
  · simp [down]
  rw [if_pos h, if_neg (by omega)]

variable (hlen1 : buf1.length = intg1 + frac1) (hlen2 : buf2.length = intg2 + frac2) (hbuf1 : ∀ w ∈ buf1, w < digBase)
  (hbuf2 : ∀ w ∈ buf2, w < digBase)
include hlen1 hlen2 hbuf1 hbuf2

theorem addFrac_stretch (hfrac : frac2 ≤ frac1) :
    Stretch digBase 1 1 (addFrac buf1 intg1 frac1 buf2 intg2 frac2).1 (addFrac buf1 intg1 frac1 buf2 intg2 frac2).2
      (frac1 - frac2 + (min intg1 intg2 + frac2))
      (stretch buf1 (intg1 + frac2) (intg1 + frac1) + (digBase : ℤ) ^ (frac1 - frac2) *
        (stretch buf1 (intg1 - intg2) (intg1 + frac2) + stretch buf2 (intg2 - intg1) (intg2 + frac2))) := by
  have hboth1 := length_down buf1 (intg1 - intg2) (intg1 + frac2) (by omega)
  have hboth2 := length_down buf2 (intg2 - intg1) (intg2 + frac2) (by omega)
  have hcopied := length_down buf1 (intg1 + frac2) (intg1 + frac1) (by omega)
  have hzip : (down buf1 (intg1 - intg2) (intg1 + frac2)).zip (down buf2 0 (intg2 + frac2)) =
      (down buf1 (intg1 - intg2) (intg1 + frac2)).zip (down buf2 (intg2 - intg1) (intg2 + frac2)) := by
    rw [← down_append buf2 (Nat.zero_le (intg2 - intg1)) (by omega : intg2 - intg1 ≤ intg2 + frac2),
      ← append_nil (down buf1 (intg1 - intg2) (intg1 + frac2)), zip_append (by omega)]
    simp
  have hcopy := Stretch.copy (b := digBase) (k := 1) (s := 1) (down buf1 (intg1 + frac2) (intg1 + frac1))
    (fun w hw => hbuf1 w (mem_of_mem_down hw))
  have hwords := addWords_stretch (down buf1 (intg1 - intg2) (intg1 + frac2))
    (down buf2 (intg2 - intg1) (intg2 + frac2)) (fun w hw => hbuf1 w (mem_of_mem_down hw))
    (fun w hw => hbuf2 w (mem_of_mem_down hw)) (by omega) (Nat.zero_le 1)
  have hboth := hcopy.append hwords
  rw [hcopied, hboth1, show intg1 + frac1 - (intg1 + frac2) = frac1 - frac2 by omega,
    show intg1 + frac2 - (intg1 - intg2) = min intg1 intg2 + frac2 by omega] at hboth
  unfold addFrac
  rw [hzip]
  exact hboth

theorem addIntg_stretch {carry : Nat} (hc : carry ≤ 1) :
    Stretch digBase 1 1 (addIntg buf1 intg1 buf2 intg2 carry).1 (addIntg buf1 intg1 buf2 intg2 carry).2
      (intg1 - intg2 + (intg2 - intg1))
      ((stretch buf1 0 (intg1 - intg2) + stretch buf2 0 (intg2 - intg1) : ℤ) + 1 * carry) := by
  unfold addIntg
  by_cases h : intg2 < intg1
  · have hrun := addCarry_stretch (down buf1 0 (intg1 - intg2)) (fun w hw => hbuf1 w (mem_of_mem_down hw)) hc
    rw [length_down _ _ _ (by omega)] at hrun
    rw [if_pos h, Nat.sub_eq_zero_of_le h.le, stretch_self, Nat.cast_zero, add_zero, add_zero]
    exact hrun
  have hrun := addCarry_stretch (down buf2 0 (intg2 - intg1)) (fun w hw => hbuf2 w (mem_of_mem_down hw)) hc
  rw [length_down _ _ _ (by omega)] at hrun
  rw [if_neg h, Nat.sub_eq_zero_of_le (Nat.le_of_not_lt h), stretch_self, Nat.cast_zero, zero_add, zero_add]
  exact hrun

/-- The words of the three parts and the last carry are worth the sum of the numbers, with their points aligned. -/
theorem addParts_stretch (hfrac : frac2 ≤ frac1) : Stretch digBase 1 1 ((addFrac buf1 intg1 frac1 buf2 intg2 frac2).1 ++
        (addIntg buf1 intg1 buf2 intg2 (addFrac buf1 intg1 frac1 buf2 intg2 frac2).2).1)
      (addIntg buf1 intg1 buf2 intg2 (addFrac buf1 intg1 frac1 buf2 intg2 frac2).2).2 (max intg1 intg2 + frac1)
      (ofBase digBase buf1 + ofBase digBase buf2 * (digBase : ℤ) ^ (frac1 - frac2)) := by
  have hlow := addFrac_stretch hlen1 hlen2 hbuf1 hbuf2 hfrac
  have hboth := hlow.append (addIntg_stretch hlen1 hlen2 hbuf1 hbuf2 hlow.carry_le)
  have hlen : frac1 - frac2 + (min intg1 intg2 + frac2) + (intg1 - intg2 + (intg2 - intg1)) = max intg1 intg2 + frac1 := by
    omega
  have hall1 := stretch_split buf1 (Nat.zero_le (intg1 + frac2)) (by omega : intg1 + frac2 ≤ intg1 + frac1) hlen1.ge
  have hmid1 := stretch_split buf1 (Nat.zero_le (intg1 - intg2)) (by omega : intg1 - intg2 ≤ intg1 + frac2) (by omega)
  have hall2 := stretch_split buf2 (Nat.zero_le (intg2 - intg1)) (by omega : intg2 - intg1 ≤ intg2 + frac2) hlen2.ge
  rw [show intg1 + frac1 - (intg1 + frac2) = frac1 - frac2 by omega, hmid1,
    show intg1 + frac2 - (intg1 - intg2) = min intg1 intg2 + frac2 by omega, stretch_all hlen1] at hall1
  rw [show intg2 + frac2 - (intg2 - intg1) = min intg1 intg2 + frac2 by omega, stretch_all hlen2] at hall2
  rw [hlen] at hboth
  refine ⟨hboth.length, hboth.word, hboth.carry_le, hboth.value.trans ?_⟩
  rw [hall1, hall2, pow_add]
  push_cast
  ring

theorem addLoops_spec :
    ∃ carry ≤ 1, (addLoops buf1 intg1 frac1 buf2 intg2 frac2).length = max intg1 intg2 + max frac1 frac2 + carry ∧
      (∀ w ∈ addLoops buf1 intg1 frac1 buf2 intg2 frac2, w < digBase) ∧
      digBase ^ (max intg1 intg2 + max frac1 frac2) * carry ≤
        ofBase digBase (addLoops buf1 intg1 frac1 buf2 intg2 frac2).reverse ∧
      ofBase digBase (addLoops buf1 intg1 frac1 buf2 intg2 frac2).reverse =
        ofBase digBase buf1 * digBase ^ (max frac1 frac2 - frac1) +
          ofBase digBase buf2 * digBase ^ (max frac1 frac2 - frac2) := by
  obtain ⟨low, high, carry, hloops, hstretch⟩ : ∃ low high carry,
      addLoops buf1 intg1 frac1 buf2 intg2 frac2 = low ++ high ++ (if carry ≠ 0 then [1] else []) ∧
      Stretch digBase 1 1 (low ++ high) carry (max intg1 intg2 + max frac1 frac2)
        (ofBase digBase buf1 * (digBase : ℤ) ^ (max frac1 frac2 - frac1) +
          ofBase digBase buf2 * (digBase : ℤ) ^ (max frac1 frac2 - frac2)) := by
    by_cases hfrac : frac2 < frac1
    · have hparts := addParts_stretch hlen1 hlen2 hbuf1 hbuf2 hfrac.le
      rw [max_eq_left hfrac.le, Nat.sub_self, pow_zero, mul_one]
      refine ⟨_, _, _, ?_, hparts⟩
      rw [addLoops, if_pos hfrac]
    have hparts := addParts_stretch hlen2 hlen1 hbuf2 hbuf1 (Nat.le_of_not_lt hfrac)
    rw [addIntg_comm, max_comm intg2, add_comm (ofBase digBase buf2 : ℤ)] at hparts
    rw [max_eq_right (Nat.le_of_not_lt hfrac), Nat.sub_self, pow_zero, mul_one]
    refine ⟨_, _, _, ?_, hparts⟩
    rw [addLoops, if_neg hfrac]
  rw [hloops]
  have hvalue := hstretch.value
  rcases Nat.le_one_iff_eq_zero_or_eq_one.1 hstretch.carry_le with rfl | rfl
  · refine ⟨0, Nat.zero_le 1, ?_, ?_, Nat.zero_le _, ?_⟩
    · rw [if_neg (fun h => h rfl), append_nil, hstretch.length, add_zero]
    · rw [if_neg (fun h => h rfl), append_nil]
      exact hstretch.word
    rw [if_neg (fun h => h rfl), append_nil]
    rw [Nat.cast_zero, mul_zero, mul_zero, add_zero] at hvalue
    exact_mod_cast hvalue
  have hone : (if (1 : Nat) ≠ 0 then [1] else []) = [1] := rfl
  have htop : ofBase digBase (low ++ high ++ [1]).reverse =
      ofBase digBase (low ++ high).reverse + digBase ^ (max intg1 intg2 + max frac1 frac2) := by
    rw [ofBase_reverse_append, hstretch.length, reverse_singleton, ofBase_cons]
    simp
  rw [hone]
  refine ⟨1, le_refl 1, ?_, ?_, ?_, ?_⟩
  · rw [length_append, hstretch.length, length_singleton]
  · intro w hw
    rcases mem_append.1 hw with hw | hw
    · exact hstretch.word w hw
    rw [mem_singleton.1 hw]
    decide
  · rw [htop]
    omega
  rw [htop]
  rw [Nat.cast_one, mul_one, one_mul] at hvalue
  exact_mod_cast hvalue

end

/-! ### The word for the carry -/

theorem ofBase_lt_head {ws : List Nat} (h : ∀ w ∈ ws, w < digBase) {n : Nat} (hn : ws.length ≤ n + 1) :
    ofBase digBase ws * digBase ^ (n + 1 - ws.length) < (ws.headD 0 + 1) * digBase ^ n := by
  cases ws with
  | nil =>
    rw [ofBase_nil, zero_mul]
    exact Nat.mul_pos (Nat.succ_pos _) (pow_pos digBase_pos n)
  | cons w ws =>
    have hrest := ofBase_lt (fun v hv => h v (mem_cons_of_mem w hv))
    have hlen : n + 1 - (w :: ws).length + ws.length = n := by
      rw [length_cons] at hn ⊢
      omega
    rw [ofBase_cons, headD_cons]
    calc (w * digBase ^ ws.length + ofBase digBase ws) * digBase ^ (n + 1 - (w :: ws).length)
        < ((w + 1) * digBase ^ ws.length) * digBase ^ (n + 1 - (w :: ws).length) := by
          apply Nat.mul_lt_mul_of_pos_right _ (pow_pos digBase_pos _)
          rw [add_mul, one_mul]
          omega
      _ = (w + 1) * digBase ^ n := by rw [mul_assoc, ← pow_add, add_comm ws.length, hlen]

namespace DecimalT

variable {d : DecimalT} (h : d.LaidOut) {frac0 : Nat} (hfrac : roundUp d.frac ≤ frac0)
include h hfrac

theorem LaidOut.aligned_lt : d.digits * digBase ^ (frac0 - roundUp d.frac) < digBase ^ (roundUp d.intg + frac0) := by
  have hlt := ofBase_lt h.word
  have hlen : roundUp d.intg + frac0 = d.buf.length + (frac0 - roundUp d.frac) := by
    rw [h.length]
    omega
  rw [hlen, pow_add]
  exact Nat.mul_lt_mul_of_pos_right hlt (pow_pos digBase_pos _)

theorem LaidOut.aligned_lt_head {n : Nat} (hn : roundUp d.intg + frac0 = n + 1) :
    d.digits * digBase ^ (frac0 - roundUp d.frac) < (d.buf.headD 0 + 1) * digBase ^ n := by
  have hlen := h.length
  have hlt := ofBase_lt_head h.word (n := n) (by omega)
  rwa [show n + 1 - d.buf.length = frac0 - roundUp d.frac by omega] at hlt

end DecimalT

section

variable {from1 from2 : DecimalT} (h1 : from1.LaidOut) (h2 : from2.LaidOut)
include h1 h2

theorem sum_lt_of_longer {frac0 : Nat} (hfrac1 : roundUp from1.frac ≤ frac0) (hfrac2 : roundUp from2.frac ≤ frac0)
    (hlonger : roundUp from2.intg < roundUp from1.intg) (hword : from1.buf.headD 0 ≤ digMax - 1) :
    from1.digits * digBase ^ (frac0 - roundUp from1.frac) + from2.digits * digBase ^ (frac0 - roundUp from2.frac) <
      digBase ^ (roundUp from1.intg + frac0) := by
  obtain ⟨n, hn⟩ : ∃ n, roundUp from1.intg + frac0 = n + 1 := ⟨roundUp from1.intg + frac0 - 1, by omega⟩
  have hlt1 := h1.aligned_lt_head hfrac1 hn
  have hlt2 := h2.aligned_lt hfrac2
  have hle2 : digBase ^ (roundUp from2.intg + frac0) ≤ digBase ^ n := Nat.pow_le_pow_right digBase_pos (by omega)
  have hle1 : (from1.buf.headD 0 + 1) * digBase ^ n + digBase ^ n ≤ digBase * digBase ^ n := by
    rw [← Nat.succ_mul]
    apply Nat.mul_le_mul_right
    unfold digMax digBase at *
    omega
  rw [hn, pow_succ, mul_comm _ digBase]
  omega

theorem sum_lt_of_carryWord (hword : ¬ digMax - 1 < carryWord from1 from2) :
    from1.digits * digBase ^ (max (roundUp from1.frac) (roundUp from2.frac) - roundUp from1.frac) +
        from2.digits * digBase ^ (max (roundUp from1.frac) (roundUp from2.frac) - roundUp from2.frac) <
      digBase ^ (max (roundUp from1.intg) (roundUp from2.intg) + max (roundUp from1.frac) (roundUp from2.frac)) := by
  have hfrac1 := le_max_left (roundUp from1.frac) (roundUp from2.frac)
  have hfrac2 := le_max_right (roundUp from1.frac) (roundUp from2.frac)
  unfold carryWord at hword
  rcases lt_trichotomy (roundUp from2.intg) (roundUp from1.intg) with hlt | heq | hgt
  · rw [if_pos hlt] at hword
    rw [max_eq_left hlt.le]
    exact sum_lt_of_longer h1 h2 hfrac1 hfrac2 hlt (Nat.le_of_not_lt hword)
  · rw [if_neg (by omega), if_neg (by omega)] at hword
    rw [heq, max_self]
    rcases Nat.eq_zero_or_pos (roundUp from1.intg + max (roundUp from1.frac) (roundUp from2.frac)) with hzero | hpos
    · have hlt1 := h1.aligned_lt hfrac1
      have hlt2 := h2.aligned_lt hfrac2
      rw [heq] at hlt2
      rw [hzero, pow_zero] at hlt1 hlt2 ⊢
      omega
    obtain ⟨n, hn⟩ : ∃ n, roundUp from1.intg + max (roundUp from1.frac) (roundUp from2.frac) = n + 1 :=
      ⟨_, (Nat.succ_pred_eq_of_pos hpos).symm⟩
    have hlt1 := h1.aligned_lt_head hfrac1 hn
    have hlt2 := h2.aligned_lt_head hfrac2 (heq ▸ hn)
    have hle : (from1.buf.headD 0 + 1) * digBase ^ n + (from2.buf.headD 0 + 1) * digBase ^ n ≤ digBase * digBase ^ n := by
      rw [← add_mul]
      apply Nat.mul_le_mul_right
      unfold digMax digBase at *
      omega
    rw [hn, pow_succ, mul_comm _ digBase]
    omega
  rw [if_neg (by omega), if_pos hgt] at hword
  rw [max_eq_right hgt.le, add_comm (from1.digits * _)]
  exact sum_lt_of_longer h2 h1 hfrac2 hfrac1 hgt (Nat.le_of_not_lt hword)

omit h2 in
/-- The first of the words before the point has no more digits than the number leaves it. -/
theorem head_lt_of_intg (hintg : 0 < roundUp from1.intg) : from1.buf.headD 0 < 10 ^ topDigits from1.intg := by
  have hlen := h1.length
  cases hbuf : from1.buf with
  | nil =>
    rw [hbuf, length_nil] at hlen
    omega
  | cons w ws =>
    refine h1.first w ?_
    rw [DecimalT.intgWords, hbuf, List.head?_take, if_neg (by omega)]
    rfl

omit h2 in
theorem intg_of_head (hintg : 0 < roundUp from1.intg) (hword : 10 ^ 8 ≤ from1.buf.headD 0) :
    from1.intg = digPerDec1 * roundUp from1.intg := by
  have hlt := head_lt_of_intg h1 hintg
  have hdigits : 8 < topDigits from1.intg := (Nat.pow_lt_pow_iff_right (by decide)).1 (lt_of_le_of_lt hword hlt)
  unfold topDigits roundUp digPerDec1 at *
  omega

/-- A first word that leaves no room has all its digits, so that the digit in front of it is one of the next word. -/
theorem room_of_carryWord (hword : digMax - 1 < carryWord from1 from2) :
    max (roundUp from1.intg) (roundUp from2.intg) + 1 ≤ roundUp (max from1.intg from2.intg + 1) := by
  have hroom : ∀ n, digPerDec1 * max (roundUp from1.intg) (roundUp from2.intg) ≤ n →
      max (roundUp from1.intg) (roundUp from2.intg) + 1 ≤ roundUp (n + 1) := by
    intro n hn
    generalize max (roundUp from1.intg) (roundUp from2.intg) = k at *
    unfold roundUp digPerDec1 at *
    omega
  have hbig : 2 * 10 ^ 8 ≤ digMax - 1 := by decide
  apply hroom
  unfold carryWord at hword
  rcases lt_trichotomy (roundUp from2.intg) (roundUp from1.intg) with hlt | heq | hgt
  · rw [if_pos hlt] at hword
    rw [max_eq_left hlt.le, ← intg_of_head h1 (by omega) (by omega)]
    exact le_max_left _ _
  · rw [if_neg (by omega), if_neg (by omega)] at hword
    rcases Nat.eq_zero_or_pos (roundUp from1.intg) with hzero | hpos
    · rw [heq, hzero]
      exact Nat.zero_le _
    rcases Nat.lt_or_ge (from1.buf.headD 0) (10 ^ 8) with hsmall | hlarge
    · rw [← heq, max_self, ← intg_of_head h2 (by omega) (by omega)]
      exact le_max_right _ _
    rw [heq, max_self, ← intg_of_head h1 hpos hlarge]
    exact le_max_left _ _
  rw [if_neg (by omega), if_pos hgt] at hword
  rw [max_eq_right hgt.le, ← intg_of_head h2 (by omega) (by omega)]
  exact le_max_right _ _

end

/-- Words of a buffer that were zero before are zeroes in front of those that are written. -/
theorem filled_spec {dest out : List Nat} {n : Nat} (hout : out.length ≤ n) (hdest : n ≤ dest.length)
    (hword : ∀ w ∈ out, w < digBase) (hfree : ∀ w ∈ dest.take (n - out.length), w = 0) :
    (dest.take (n - out.length) ++ out.reverse).length = n ∧ (∀ w ∈ dest.take (n - out.length) ++ out.reverse, w < digBase) ∧
      ofBase digBase (dest.take (n - out.length) ++ out.reverse) = ofBase digBase out.reverse := by
  refine ⟨?_, fun w hw => ?_, ?_⟩
  · rw [length_append, length_take, length_reverse]
    omega
  · rcases mem_append.1 hw with hw | hw
    · rw [hfree w hw]
      exact digBase_pos
    exact hword w (mem_reverse.1 hw)
  rw [eq_replicate_of_mem hfree, ofBase_append, ofBase_replicate_zero, zero_mul, zero_add]

theorem doAdd_spec {from1 from2 : DecimalT} (h1 : from1.LaidOut) (h2 : from2.LaidOut) {dest : List Nat}
    (hdest : decimalResultSize from1 from2 .plus 0 ≤ dest.length) :
    ∃ d, doAdd from1 from2 dest = (eDecOk, d) ∧ d.LaidOut ∧ (from1.WellFormed → d.WellFormed) ∧ d.sign = from1.sign ∧
      d.frac = max from1.frac from2.frac ∧ d.magnitude = from1.magnitude + from2.magnitude := by
  obtain ⟨carry, hcarry, hlen, hwords, hcarries, hsum⟩ := addLoops_spec h1.length h2.length h1.word h2.word
  rw [decimalResultSize, roundUp_max from1.frac] at hdest
  -- the result, once its buffer is known to have nothing but zeroes in front of the words written
  have hresult : ∀ intg0 buf, buf.length = intg0 + max (roundUp from1.frac) (roundUp from2.frac) ∧ (∀ w ∈ buf, w < digBase) ∧
      ofBase digBase buf = ofBase digBase (addLoops from1.buf (roundUp from1.intg) (roundUp from1.frac) from2.buf
        (roundUp from2.intg) (roundUp from2.frac)).reverse →
      (⟨intg0 * digPerDec1, max from1.frac from2.frac, from1.sign, buf⟩ : DecimalT).LaidOut ∧
        (from1.WellFormed → (⟨intg0 * digPerDec1, max from1.frac from2.frac, from1.sign, buf⟩ : DecimalT).WellFormed) ∧
        (⟨intg0 * digPerDec1, max from1.frac from2.frac, from1.sign, buf⟩ : DecimalT).magnitude =
          from1.magnitude + from2.magnitude := by
    intro intg0 buf ⟨hbuf, hword, hvalue⟩
    rw [hsum] at hvalue
    have hlaid : (⟨intg0 * digPerDec1, max from1.frac from2.frac, from1.sign, buf⟩ : DecimalT).LaidOut := by
      refine DecimalT.LaidOut.of_digits ?_ hword ?_
      · rw [roundUp_max, hbuf]
      rw [hvalue, ← roundUp_max]
      exact Nat.dvd_add (h1.dvd_aligned (le_max_left _ _)) (h2.dvd_aligned (le_max_right _ _))
    refine ⟨hlaid, fun hwell => hlaid.wellFormed fun hzero => ?_, ?_⟩
    · apply hwell.zero
      rw [DecimalT.digits] at hzero
      rw [hvalue, Nat.add_eq_zero_iff, Nat.mul_eq_zero] at hzero
      exact hzero.1.resolve_right (pow_ne_zero _ (by decide))
    rw [DecimalT.magnitude_eq_aligned from1 (le_max_left _ (roundUp from2.frac)),
      DecimalT.magnitude_eq_aligned from2 (le_max_right (roundUp from1.frac) _), ← add_div, ← Nat.cast_add]
    rw [DecimalT.magnitude, DecimalT.digits, roundUp_max, hvalue]
    rfl
  by_cases hword : digMax - 1 < carryWord from1 from2
  · have hroom := room_of_carryWord h1 h2 hword
    have hle : max (roundUp from1.intg) (roundUp from2.intg) + 1 + max (roundUp from1.frac) (roundUp from2.frac) ≤
        (dest.set 0 0).length := by
      rw [length_set]
      omega
    have hfits := fixIntgFracError_fits hle
    have hfilled := filled_spec (by omega) hle hwords (fun w hw => ?_)
    · obtain ⟨hlaid, hwell, hvalue⟩ := hresult _ _ hfilled
      unfold doAdd
      simp only [if_pos hword, hfits]
      exact ⟨_, rfl, hlaid, hwell, rfl, rfl, hvalue⟩
    have hmem : w ∈ (dest.set 0 0).take 1 := take_subset_take_left (dest.set 0 0) (by omega) hw
    cases dest with
    | nil => cases hmem
    | cons v dest => simpa using hmem
  have hlt := sum_lt_of_carryWord h1 h2 hword
  have hintg : max (roundUp from1.intg) (roundUp from2.intg) ≤ roundUp (max from1.intg from2.intg + 1) := by
    rw [← roundUp_max]
    exact roundUp_mono (Nat.le_succ _)
  obtain rfl : carry = 0 := by
    rcases Nat.le_one_iff_eq_zero_or_eq_one.1 hcarry with h | rfl
    · exact h
    rw [hsum, mul_one] at hcarries
    exact absurd hlt (Nat.not_lt.2 hcarries)
  have hle : max (roundUp from1.intg) (roundUp from2.intg) + max (roundUp from1.frac) (roundUp from2.frac) ≤
      dest.length := by omega
  have hfits := fixIntgFracError_fits hle
  have hfilled := filled_spec (by omega) hle hwords (by rw [hlen, Nat.add_zero, Nat.sub_self]; simp)
  obtain ⟨hlaid, hwell, hvalue⟩ := hresult _ _ hfilled
  unfold doAdd
  simp only [if_neg hword, hfits]
  exact ⟨_, rfl, hlaid, hwell, rfl, rfl, hvalue⟩

end Mysql51.Decimal
