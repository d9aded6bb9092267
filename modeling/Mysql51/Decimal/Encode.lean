import Mysql51.Decimal.Packed

/-!
# What `decimal2bin` writes

A decimal that fits a precision and a scale is written without an error, and the bytes are those of the format that holds
the same number.
-/

namespace Mysql51.Decimal

open Machine List

/-- A decimal fits a precision and a scale: it has no more digits on either side of the point. -/
structure DecimalT.Fits (d : DecimalT) (precision scale : Nat) : Prop where
  frac : d.frac ≤ scale
  intg : ofBase digBase d.intgWords < 10 ^ (precision - scale)

variable {n precision : Nat} {ws : List Nat} {d : DecimalT}

theorem writeFirst_append (hws : DecimalT.Words n ws) (tail : List Nat) : writeFirst 0 (n % digPerDec1) (ws ++ tail) =
      ((writeFirst 0 (n % digPerDec1) ws).1, (writeFirst 0 (n % digPerDec1) ws).2 ++ tail) := by
  have hlen := hws.length
  unfold writeFirst
  split
  · rename_i hpart
    cases ws with
    | nil =>
      rw [length_nil, eq_comm, roundUp_eq_zero] at hlen
      rw [hlen] at hpart
      exact absurd hpart (lt_irrefl 0)
    | cons w ws => rfl
  rfl

theorem length_writeFirst (hws : DecimalT.Words n ws) : (writeFirst 0 (n % digPerDec1) ws).2.length = n / digPerDec1 := by
  have hlen := hws.length
  unfold writeFirst
  split
  · rw [length_drop]
    unfold roundUp digPerDec1 at *
    omega
  dsimp only
  unfold roundUp digPerDec1 at *
  omega

theorem fitFrac_error {frac fromFrac : Nat} (h : fromFrac ≤ frac) (error : Int) : fitFrac frac fromFrac error =
      ((fitFrac frac fromFrac eDecOk).1, (fitFrac frac fromFrac eDecOk).2.1, (fitFrac frac fromFrac eDecOk).2.2.1, error) := by
  have hsize := binSize_mono h
  simp only [fitFrac, if_neg (Nat.not_lt.2 hsize)]
  split
  · split <;> rfl
  · rfl

/-- Without an overflow `decimal2bin` writes leading zeroes, the words before the point and the fraction. -/
theorem writeBin_eq {frac fromFrac : Nat} {tail : List Nat} (hws : DecimalT.Words n ws)
    (hn : n ≤ precision - frac) (h : fromFrac ≤ frac) : writeBin 0 (precision - frac) (ws ++ tail) n fromFrac precision frac =
      (eDecOk, List.replicate (binSize (precision - frac) - binSize n) 0 ++ ((writeFirst 0 (n % digPerDec1) ws).1 ++
        (writeFirst 0 (n % digPerDec1) ws).2.flatMap (beBytes 4)) ++ writtenFrac frac fromFrac tail) := by
  obtain ⟨hbytes, -⟩ := written_spec hws
  have hrest := length_writeFirst hws
  have hsize := binSize_mono hn
  simp only [writeBin, sub_div_mul, if_neg (Nat.not_lt.2 hn), writeFirst_append hws, Nat.xor_zero]
  rw [fitFrac_error h, writtenFrac]
  obtain ⟨frac1, frac1x, fsize0, _⟩ := fitFrac frac fromFrac eDecOk
  dsimp only
  rw [← hrest, take_length_add_append, drop_length_add_append, flatMap_append, Prod.mk.injEq]
  refine ⟨rfl, ?_⟩
  have hlead : (List.replicate (binSize (precision - frac) - binSize n) (0 : UInt8) ++
      ((writeFirst 0 (n % digPerDec1) ws).1 ++ (writeFirst 0 (n % digPerDec1) ws).2.flatMap (beBytes 4))).length =
        binSize (precision - frac) := by
    rw [length_append, hbytes, length_replicate]
    omega
  generalize List.replicate (binSize (precision - frac) - binSize n) (0 : UInt8) = pad at hlead ⊢
  generalize (writeFirst 0 (n % digPerDec1) ws).1 = first at hlead ⊢
  generalize (writeFirst 0 (n % digPerDec1) ws).2.flatMap (beBytes 4) = words at hlead ⊢
  simp only [length_append] at hlead
  have hroom : ∀ out : List UInt8, binSize frac + binSize (precision - frac) - (pad ++ first ++ (words ++ out)).length =
      binSize frac - out.length := by
    intro out
    simp only [length_append]
    omega
  split
  · rw [append_assoc (pad ++ first), append_assoc words, hroom]
    simp only [append_assoc]
    rfl
  simp only [append_assoc]

/-- Words that hold the digits of a fraction, with zeroes behind them. -/
structure FracWords (n : Nat) (ws : List Nat) : Prop where
  length : ws.length = roundUp n
  word : ∀ w ∈ ws, w < digBase
  last : n % digPerDec1 ≠ 0 → ∀ w ∈ ws.getLast?, powers10 (digPerDec1 - n % digPerDec1) ∣ w

theorem DecimalT.WellFormed.fracWords (h : d.WellFormed) : FracWords d.frac d.fracWords := by
  refine ⟨?_, fun w hw => h.word w (mem_of_mem_drop hw), h.last⟩
  rw [DecimalT.fracWords, length_drop, h.length]
  omega

theorem length_alignLeft (h : ws.length ≤ n) : (alignLeft n ws).length = n := by
  rw [alignLeft, length_append, length_replicate]
  omega

theorem mem_alignLeft {w : Nat} (hw : w ∈ alignLeft n ws) : w = 0 ∨ w ∈ ws := by
  rcases mem_append.1 hw with hold | hzero
  · exact .inr hold
  · exact .inl (mem_replicate.1 hzero).2

theorem mem_alignRight {w : Nat} (hw : w ∈ alignRight n ws) : w = 0 ∨ w ∈ ws := by
  rcases mem_append.1 hw with hzero | hold
  · exact .inl (mem_replicate.1 hzero).2
  · exact .inr hold

section

variable {n scale : Nat} {ws : List Nat} (hws : FracWords n ws)
include hws

theorem FracWords.alignLeft_lt {k w : Nat} (hw : w ∈ alignLeft k ws) : w < digBase := by
  rcases mem_alignLeft hw with rfl | hold
  · decide
  · exact hws.word w hold

variable (hn : n ≤ scale)
include hn

theorem FracWords.length_le : ws.length ≤ scale / digPerDec1 + 1 := by
  rw [hws.length]
  unfold roundUp digPerDec1
  omega

/-- The word behind the whole ones of the scale, in the digits that the scale has there. -/
theorem FracWords.last_dvd :
    10 ^ (digPerDec1 - scale % digPerDec1) ∣ (alignLeft (scale / digPerDec1 + 1) ws).getD (scale / digPerDec1) 0 := by
  have hlen := hws.length
  rw [alignLeft, getD_eq_getElem?_getD]
  by_cases hfull : scale / digPerDec1 < ws.length
  · have hlast : ws.getLast? = some ws[scale / digPerDec1] := by
      have hindex :=
        le_antisymm (Nat.sub_le_of_le_add (hws.length_le hn)) (Nat.le_sub_one_of_lt hfull)
      rw [List.getLast?_eq_getElem?, hindex, List.getElem?_eq_getElem hfull]
    have hpart : n % digPerDec1 ≠ 0 ∧ n % digPerDec1 ≤ scale % digPerDec1 := by
      clear hlast
      rw [hlen] at hfull
      unfold roundUp digPerDec1 at *
      omega
    rw [List.getElem?_append_left hfull, List.getElem?_eq_getElem hfull, Option.getD_some]
    apply dvd_trans _ (hws.last hpart.1 _ hlast)
    apply Nat.pow_dvd_pow
    omega
  rw [List.getElem?_append_right (not_lt.1 hfull), List.getElem?_replicate]
  split <;> exact dvd_zero _

theorem FracWords.alignLeft_eq :
    alignLeft (scale / digPerDec1 + 1) ws = (alignLeft (scale / digPerDec1 + 1) ws).take (scale / digPerDec1) ++
      [(alignLeft (scale / digPerDec1 + 1) ws).getD (scale / digPerDec1) 0] := by
  have hlen := length_alignLeft (hws.length_le hn)
  have hlt : scale / digPerDec1 < (alignLeft (scale / digPerDec1 + 1) ws).length := by omega
  rw [getD_eq_getElem?_getD, List.getElem?_eq_getElem hlt, Option.getD_some, take_append_getElem hlt,
    take_of_length_le (by omega)]

theorem FracWords.last_lt : (alignLeft (scale / digPerDec1 + 1) ws).getD (scale / digPerDec1) 0 < digBase := by
  have hlen := length_alignLeft (hws.length_le hn)
  have hlt : scale / digPerDec1 < (alignLeft (scale / digPerDec1 + 1) ws).length := by omega
  rw [getD_eq_getElem?_getD, List.getElem?_eq_getElem hlt, Option.getD_some]
  exact hws.alignLeft_lt (getElem_mem hlt)

theorem FracWords.ofBase_alignLeft : ofBase digBase (alignLeft (scale / digPerDec1 + 1) ws) * digBase ^ roundUp n =
      ofBase digBase ws * digBase ^ (scale / digPerDec1 + 1) := by
  have hle := hws.length_le hn
  rw [alignLeft, ofBase_append, ofBase_replicate_zero, add_zero, length_replicate, mul_assoc, ← pow_add, hws.length,
    Nat.sub_add_cancel (hws.length ▸ hle)]

end

theorem ten_pow_mul_mod (scale : Nat) : 10 ^ (scale % digPerDec1) * 10 ^ (digPerDec1 - scale % digPerDec1) = digBase := by
  rw [← pow_add, digBase_eq, Nat.add_sub_cancel']
  unfold digPerDec1
  omega

theorem digBase_pow_div (scale : Nat) :
    digBase ^ (scale / digPerDec1 + 1) = 10 ^ scale * 10 ^ (digPerDec1 - scale % digPerDec1) := by
  rw [digBase_pow, ← pow_add]
  congr 1
  unfold digPerDec1
  omega

theorem Packed.digits_eq {scale : Nat} (q : Packed precision scale) {gs : List Nat} {g : Nat}
    (hlen : gs.length = scale / digPerDec1) (hwords : ofBase digBase (q.first :: q.words) = ofBase digBase (ws ++ gs))
    (hlast : g = 10 ^ (digPerDec1 - scale % digPerDec1) * q.last) : q.digits * 10 ^ (digPerDec1 - scale % digPerDec1) =
      ofBase digBase ws * digBase ^ (scale / digPerDec1 + 1) + ofBase digBase (gs ++ [g]) := by
  have hg : ofBase digBase [g] = g := by simp [ofBase]
  rw [ofBase_cons] at hwords
  rw [Packed.digits, hwords, ofBase_append, ofBase_append, hlen, hg, length_singleton, pow_one, hlast]
  calc ((ofBase digBase ws * digBase ^ (scale / digPerDec1) + ofBase digBase gs) * 10 ^ (scale % digPerDec1) + q.last) *
        10 ^ (digPerDec1 - scale % digPerDec1)
      = (ofBase digBase ws * digBase ^ (scale / digPerDec1) + ofBase digBase gs) *
          (10 ^ (scale % digPerDec1) * 10 ^ (digPerDec1 - scale % digPerDec1)) +
            10 ^ (digPerDec1 - scale % digPerDec1) * q.last := by ring
    _ = _ := by rw [ten_pow_mul_mod]; ring

theorem writeBin_spec {scale f : Nat} {fs : List Nat} (hws : DecimalT.Words n ws) (hn : n ≤ precision - scale)
    (hfs : FracWords f fs) (hf : f ≤ scale) : ∃ q : Packed precision scale,
      writeBin 0 (precision - scale) (ws ++ fs) n f precision scale = (eDecOk, q.bytes) ∧
      q.digits * digBase ^ roundUp f = ofBase digBase (ws ++ fs) * 10 ^ scale := by
  have hplaces : ws.length ≤ (precision - scale) / digPerDec1 + 1 := by
    rw [hws.length]
    unfold roundUp digPerDec1
    omega
  have halen := length_alignRight hplaces
  obtain ⟨first, words, halign⟩ : ∃ first words, alignRight ((precision - scale) / digPerDec1 + 1) ws = first :: words := by
    apply exists_cons_of_ne_nil
    intro hnil
    rw [hnil] at halen
    cases halen
  rw [halign, length_cons, Nat.add_right_cancel_iff] at halen
  have hgsLen : ((alignLeft (scale / digPerDec1 + 1) fs).take (scale / digPerDec1)).length = scale / digPerDec1 := by
    rw [length_take, length_alignLeft (hfs.length_le hf), min_eq_left (Nat.le_succ _)]
  obtain ⟨last, hlast⟩ := hfs.last_dvd hf
  have hten : 0 < 10 ^ (digPerDec1 - scale % digPerDec1) := Nat.pow_pos (by decide)
  have hlastLt : last < 10 ^ (scale % digPerDec1) := by
    have hg := hfs.last_lt hf
    rw [hlast, ← ten_pow_mul_mod scale, mul_comm] at hg
    exact Nat.lt_of_mul_lt_mul_right hg
  have hword : ∀ w ∈ words ++ (alignLeft (scale / digPerDec1 + 1) fs).take (scale / digPerDec1), w < digBase := by
    intro w hw
    rcases mem_append.1 hw with hint | hfrac
    · have hmem := halign ▸ mem_cons_of_mem first hint
      rcases mem_alignRight hmem with rfl | hold
      · decide
      · exact hws.word w hold
    exact hfs.alignLeft_lt (mem_of_mem_take hfrac)
  refine ⟨⟨first, _, last, alignRight_first_lt hws hn halign, ?_, hword, hlastLt⟩, ?_, ?_⟩
  · rw [length_append, hgsLen, halen]
  · rw [writeBin_eq hws hn hf, intg_bytes hws hn halign, writtenFrac_eq hf hfs.length, hlast, Nat.mul_div_cancel_left _ hten]
    simp only [Packed.bytes, flatMap_append, append_assoc]
  apply Nat.eq_of_mul_eq_mul_right hten
  have hfirst : ofBase digBase (first :: (words ++ (alignLeft (scale / digPerDec1 + 1) fs).take (scale / digPerDec1))) =
      ofBase digBase (ws ++ (alignLeft (scale / digPerDec1 + 1) fs).take (scale / digPerDec1)) := by
    rw [← cons_append, ← halign, ofBase_append, ofBase_alignRight, ofBase_append]
  have hdigits := Packed.digits_eq
    (⟨first, _, last, alignRight_first_lt hws hn halign, by rw [length_append, hgsLen, halen], hword, hlastLt⟩ :
      Packed precision scale) hgsLen hfirst hlast
  rw [← hfs.alignLeft_eq hf] at hdigits
  rw [Nat.mul_right_comm, hdigits, add_mul, hfs.ofBase_alignLeft hf, ofBase_append, hfs.length, mul_assoc _ (10 ^ scale),
    ← digBase_pow_div]
  ring

theorem writeBin_zero (precision frac : Nat) :
    writeBin 0 1 [0] 0 0 precision frac = writeBin 0 (precision - frac) [] 0 0 precision frac := by
  rcases fitFrac_cases (Nat.zero_le frac) eDecOk with ⟨-, hfit⟩ | ⟨hpart, -⟩ | ⟨hpart, -⟩ | ⟨hpart, -⟩
  · simp only [writeBin, writeFirst, Nat.zero_div, Nat.zero_mul, Nat.sub_zero, Nat.not_lt_zero, lt_irrefl, if_false, hfit,
      add_zero, take_zero, writeLast_zero]
  all_goals exact absurd hpart (lt_irrefl 0)

theorem binSize_eq_zero (h : binSize n = 0) : n = 0 := by
  rw [binSize_eq] at h
  have hmod : n % digPerDec1 = 0 := by
    by_contra hne
    have := dig2bytes_pos (mod_lt_ten n) (Nat.pos_of_ne_zero hne)
    omega
  unfold digPerDec1 at *
  omega

/-- A well-formed decimal that fits is written without an error, as the number that it stands for. -/
theorem decimal2bin_spec {scale : Nat} (h : d.WellFormed) (hfits : d.Fits precision scale) :
    ∃ q : Packed precision scale, decimal2bin d precision scale = (eDecOk, q.encode d.sign) ∧
      q.digits * digBase ^ roundUp d.frac = d.digits * 10 ^ scale := by
  obtain ⟨n, ws, hremove, hws, hsame, hlow⟩ := h.removeLeadingZeroes
  have hn : n ≤ precision - scale := by
    rcases Nat.eq_zero_or_pos n with rfl | hpos
    · exact Nat.zero_le _
    have hlt := lt_of_le_of_lt (hlow hpos) (hsame ▸ hfits.intg)
    have := (Nat.pow_lt_pow_iff_right (by decide : 1 < 10)).1 hlt
    omega
  obtain ⟨q, hwrite, hdigits⟩ := writeBin_spec hws hn h.fracWords hfits.frac
  have hvalue : ofBase digBase (ws ++ d.fracWords) = d.digits := by
    rw [ofBase_append, hsame, ← ofBase_append, DecimalT.intgWords_append_fracWords]
    rfl
  rw [hvalue] at hdigits
  refine ⟨q, ?_, hdigits⟩
  rw [decimal2bin, hremove]
  dsimp only
  by_cases hzero : n + binSize d.frac = 0
  · obtain ⟨rfl, hfrac⟩ := Nat.add_eq_zero_iff.1 hzero
    have hfrac := binSize_eq_zero hfrac
    have hws' : ws = [] := length_eq_zero_iff.1 hws.length
    have hfs' := length_eq_zero_iff.1 (by rw [h.fracWords.length, hfrac]; rfl)
    have hsign : d.sign = false := by
      apply h.zero
      rw [← hvalue, hws', hfs']
      rfl
    rw [if_pos hzero, hfrac, writeBin_zero]
    rw [hws', hfs', hfrac, append_nil] at hwrite
    rw [hwrite, Packed.encode, hsign]
    simp
  rw [if_neg hzero]
  rcases Bool.eq_false_or_eq_true d.sign with hsign | hsign
  · rw [hsign, if_pos rfl, writeBin_mask (.inr rfl), hwrite]
    rfl
  rw [hsign, if_neg Bool.false_ne_true, hwrite, Packed.encode]
  simp

end Mysql51.Decimal
