import Mysql51.Decimal.Binary

/-!
# What the binary format holds

The format of a precision and a scale has three parts: the digits before the words of nine, the words of nine on both
sides of the point, and the digits behind them. `decimal2bin` writes the parts of the number that the decimal stands for.
-/

namespace Mysql51.Decimal

open Machine List

structure Packed (precision scale : Nat) where
  first : Nat
  words : List Nat
  last : Nat
  first_lt : first < 10 ^ ((precision - scale) % digPerDec1)
  length : words.length = (precision - scale) / digPerDec1 + scale / digPerDec1
  word_lt : ∀ w ∈ words, w < digBase
  last_lt : last < 10 ^ (scale % digPerDec1)

namespace Packed

variable {precision scale : Nat} (q : Packed precision scale)

def bytes : List UInt8 :=
  beBytes (dig2bytes ((precision - scale) % digPerDec1)) q.first ++ q.words.flatMap (beBytes 4) ++
    beBytes (dig2bytes (scale % digPerDec1)) q.last

def digits : Nat := (q.first * digBase ^ q.words.length + ofBase digBase q.words) * 10 ^ (scale % digPerDec1) + q.last

def encode (sign : Bool) : List UInt8 := flipTop (q.bytes.map (· ^^^ if sign then 0xff else 0))

end Packed

/-! ### Sizes -/

theorem sub_div_mul (n : Nat) : n - n / digPerDec1 * digPerDec1 = n % digPerDec1 := by
  unfold digPerDec1
  omega

theorem binSize_eq (n : Nat) : binSize n = n / digPerDec1 * 4 + dig2bytes (n % digPerDec1) := by
  rw [binSize, sub_div_mul]

theorem ten_pow_le_dig2bytes {k : Nat} (hk : k < 10) : 10 ^ k ≤ 256 ^ dig2bytes k := by
  revert k
  decide

theorem dig2bytes_le (k : Nat) : dig2bytes k ≤ 4 := by
  rcases Nat.lt_or_ge k 10 with hk | hk
  · revert k
    decide
  rw [dig2bytes, List.getD, List.getElem?_eq_none hk]
  decide

theorem dig2bytes_mono {j k : Nat} (hk : k < 10) (hjk : j ≤ k) : dig2bytes j ≤ dig2bytes k := by
  have hall : ∀ k < 10, ∀ j < k + 1, dig2bytes j ≤ dig2bytes k := by decide
  exact hall k hk j (Nat.lt_succ_of_le hjk)

theorem mod_lt_ten (n : Nat) : n % digPerDec1 < 10 := by
  unfold digPerDec1
  omega

theorem binSize_mono {n m : Nat} (h : n ≤ m) : binSize n ≤ binSize m := by
  rw [binSize_eq, binSize_eq]
  rcases (Nat.div_le_div_right h : n / digPerDec1 ≤ m / digPerDec1).eq_or_lt with heq | hlt
  · have hmod : n % digPerDec1 ≤ m % digPerDec1 := by
      unfold digPerDec1 at *
      omega
    have := dig2bytes_mono (mod_lt_ten m) hmod
    omega
  have := dig2bytes_le (n % digPerDec1)
  omega

theorem Packed.length_bytes {precision scale : Nat} (q : Packed precision scale) :
    q.bytes.length = decimalBinSize precision scale := by
  have hwords : (q.words.flatMap (beBytes 4)).length = q.words.length * 4 := by
    rw [length_flatMap]
    simp
  rw [Packed.bytes, length_append, length_append, hwords, length_beBytes, length_beBytes, q.length, decimalBinSize,
    binSize_eq, binSize_eq]
  ring

/-! ### The mask -/

theorem beBytes_mask {mask : Nat} (hmask : mask = 0 ∨ mask = 0xffffffff) {n : Nat} (hn : n ≤ 4) (x : Nat) :
    beBytes n (x ^^^ mask) = (beBytes n x).map (· ^^^ UInt8.ofNat mask) := by
  have hbytes : beBytes n mask = List.replicate n (UInt8.ofNat mask) := by
    rcases hmask with rfl | rfl
    · rw [beBytes_zero]
      rfl
    revert n
    decide
  have hzip : ∀ (l : List UInt8) (b : UInt8), List.zipWith (· ^^^ ·) l (List.replicate l.length b) = l.map (· ^^^ b) := by
    intro l b
    induction l with
    | nil => rfl
    | cons a l ih => rw [length_cons, replicate_succ, zipWith_cons_cons, ih, map_cons]
  have hlen := hzip (beBytes n x) (UInt8.ofNat mask)
  rw [length_beBytes] at hlen
  rw [beBytes_xor, hbytes, hlen]

section

variable {mask : Nat} (hmask : mask = 0 ∨ mask = 0xffffffff)
include hmask

theorem writeFirst_mask (intg1x : Nat) (buf1 : List Nat) : writeFirst mask intg1x buf1 =
      ((writeFirst 0 intg1x buf1).1.map (· ^^^ UInt8.ofNat mask), (writeFirst 0 intg1x buf1).2) := by
  unfold writeFirst
  split
  · rw [beBytes_mask hmask (dig2bytes_le _), Nat.xor_zero]
  · rfl

theorem writeLast_mask (frac frac1 frac1x : Nat) (buf1 : List Nat) :
    writeLast mask frac frac1 frac1x buf1 = (writeLast 0 frac frac1 frac1x buf1).map (· ^^^ UInt8.ofNat mask) := by
  unfold writeLast
  dsimp only
  split
  · rw [beBytes_mask hmask (dig2bytes_le _), Nat.xor_zero]
  · rfl

theorem writeWords_mask (ws : List Nat) : (ws.flatMap fun w => beBytes 4 (w ^^^ mask)) =
      (ws.flatMap fun w => beBytes 4 (w ^^^ 0)).map (· ^^^ UInt8.ofNat mask) := by
  rw [map_flatMap]
  simp only [beBytes_mask hmask (le_refl 4), Nat.xor_zero]

omit hmask in
theorem replicate_mask (mask n : Nat) :
    List.replicate n (UInt8.ofNat mask) = (List.replicate n (UInt8.ofNat 0)).map (· ^^^ UInt8.ofNat mask) := by
  rw [map_replicate]
  congr 1
  exact (UInt8.zero_xor).symm

theorem writeBin_mask (intg : Nat) (buf1 : List Nat) (fromIntg fromFrac precision frac : Nat) :
    writeBin mask intg buf1 fromIntg fromFrac precision frac = ((writeBin 0 intg buf1 fromIntg fromFrac precision frac).1,
        (writeBin 0 intg buf1 fromIntg fromFrac precision frac).2.map (· ^^^ UInt8.ofNat mask)) := by
  simp only [writeBin, writeFirst_mask hmask, writeLast_mask hmask, writeWords_mask hmask, replicate_mask mask]
  by_cases hover : intg < fromIntg
  · simp only [if_pos hover, nil_append]
    split <;> simp only [map_append, length_append, length_map]
  simp only [if_neg hover]
  split <;> simp only [map_append, length_append, length_map]

end

/-! ### Before the point -/

def alignRight (n : Nat) (ws : List Nat) : List Nat := List.replicate (n - ws.length) 0 ++ ws

variable {n frac fromFrac : Nat} {ws : List Nat}

theorem length_alignRight (h : ws.length ≤ n) : (alignRight n ws).length = n := by
  rw [alignRight, length_append, length_replicate]
  omega

theorem ofBase_alignRight (b n : Nat) (ws : List Nat) : ofBase b (alignRight n ws) = ofBase b ws := by
  rw [alignRight, ofBase_append, ofBase_replicate_zero, zero_mul, zero_add]

theorem word_lt_bytes {w : Nat} (h : w < digBase) : w < 256 ^ 4 := lt_trans h (by decide)

theorem length_flatMap_words (ws : List Nat) : (ws.flatMap (beBytes 4)).length = 4 * ws.length := by
  rw [length_flatMap]
  simp [mul_comm]

theorem topDigits_eq_mod (h : 0 < n % digPerDec1) : topDigits n = n % digPerDec1 := by
  unfold topDigits digPerDec1 at *
  omega

theorem written_spec (hws : DecimalT.Words n ws) :
    ((writeFirst 0 (n % digPerDec1) ws).1 ++ (writeFirst 0 (n % digPerDec1) ws).2.flatMap (beBytes 4)).length = binSize n ∧
    ofBeBytes ((writeFirst 0 (n % digPerDec1) ws).1 ++ (writeFirst 0 (n % digPerDec1) ws).2.flatMap (beBytes 4)) =
      ofBase (256 ^ 4) ws := by
  have hlen := hws.length
  have hbytes : ∀ w ∈ ws, w < 256 ^ 4 := fun w hw => word_lt_bytes (hws.word w hw)
  unfold writeFirst
  by_cases hpart : 0 < n % digPerDec1
  · rw [if_pos hpart]
    cases ws with
    | nil =>
      rw [length_nil, eq_comm, roundUp_eq_zero] at hlen
      rw [hlen] at hpart
      exact absurd hpart (lt_irrefl 0)
    | cons w ws =>
      have hw : w < 10 ^ (n % digPerDec1) := topDigits_eq_mod hpart ▸ hws.first w rfl
      have hfit : w < 256 ^ dig2bytes (n % digPerDec1) := lt_of_lt_of_le hw (ten_pow_le_dig2bytes (mod_lt_ten n))
      rw [headD_cons, drop_one, tail_cons, Nat.xor_zero, powers10, Nat.mod_eq_of_lt hw]
      dsimp only
      constructor
      · rw [length_append, length_beBytes, length_flatMap_words, binSize_eq]
        rw [length_cons] at hlen
        unfold roundUp digPerDec1 at *
        omega
      rw [ofBeBytes_append, ofBeBytes_beBytes_of_lt hfit, length_flatMap_words, pow_mul,
        ofBeBytes_flatMap fun v hv => hbytes v (mem_cons_of_mem w hv), ofBase_cons]
  rw [if_neg hpart, nil_append]
  constructor
  · rw [length_flatMap_words, binSize_eq, hlen]
    have hzero : n % digPerDec1 = 0 := by omega
    rw [hzero]
    unfold roundUp digPerDec1 dig2bytes at *
    simp only [getD_cons_zero]
    omega
  exact ofBeBytes_flatMap hbytes

theorem alignRight_first_lt {m : Nat} (hws : DecimalT.Words n ws) (hn : n ≤ m) {first : Nat} {words : List Nat}
    (halign : alignRight (m / digPerDec1 + 1) ws = first :: words) : first < 10 ^ (m % digPerDec1) := by
  have hlen := hws.length
  by_cases hfull : ws.length = m / digPerDec1 + 1
  · rw [alignRight, hfull, Nat.sub_self, replicate_zero, nil_append] at halign
    have hfirst := hws.first first (by rw [halign]; rfl)
    refine lt_of_lt_of_le hfirst (Nat.pow_le_pow_right (by decide) ?_)
    unfold topDigits roundUp digPerDec1 at *
    omega
  have hless : ws.length < m / digPerDec1 + 1 := by
    unfold roundUp digPerDec1 at *
    omega
  obtain ⟨k, hk⟩ := Nat.exists_eq_succ_of_ne_zero (Nat.sub_ne_zero_of_lt hless)
  rw [alignRight, hk, Nat.succ_eq_add_one, replicate_succ, cons_append] at halign
  obtain ⟨rfl, -⟩ := List.cons.inj halign
  exact Nat.pow_pos (by decide)

/-- The bytes of the digits before the point: the leading zeroes that are padded are those of the higher words. -/
theorem intg_bytes {m : Nat} (hws : DecimalT.Words n ws) (hn : n ≤ m) {first : Nat} {words : List Nat}
    (halign : alignRight (m / digPerDec1 + 1) ws = first :: words) :
    List.replicate (binSize m - binSize n) 0 ++ ((writeFirst 0 (n % digPerDec1) ws).1 ++
        (writeFirst 0 (n % digPerDec1) ws).2.flatMap (beBytes 4)) =
      beBytes (dig2bytes (m % digPerDec1)) first ++ words.flatMap (beBytes 4) := by
  obtain ⟨hlen, hvalue⟩ := written_spec hws
  have hplaces : ws.length ≤ m / digPerDec1 + 1 := by
    rw [hws.length]
    unfold roundUp digPerDec1
    omega
  have hwords : words.length = m / digPerDec1 := by
    have halen := length_alignRight hplaces
    rw [halign, length_cons] at halen
    omega
  have hsize := binSize_mono hn
  have hfit := lt_of_lt_of_le (alignRight_first_lt hws hn halign) (ten_pow_le_dig2bytes (mod_lt_ten m))
  have hbytes : ∀ w ∈ words, w < 256 ^ 4 := by
    intro w hw
    have hmem := halign ▸ mem_cons_of_mem first hw
    rcases mem_append.1 hmem with hzero | hold
    · rw [(mem_replicate.1 hzero).2]
      decide
    exact word_lt_bytes (hws.word w hold)
  apply ofBeBytes_inj
  · rw [length_append, hlen, length_replicate, length_append, length_beBytes, length_flatMap_words, hwords,
      Nat.sub_add_cancel hsize, binSize_eq]
    omega
  rw [ofBeBytes_append, hvalue, ofBeBytes_replicate_zero, zero_mul, zero_add, ofBeBytes_append,
    ofBeBytes_beBytes_of_lt hfit, length_flatMap_words, pow_mul, ofBeBytes_flatMap hbytes, ← ofBase_cons, ← halign,
    ofBase_alignRight]

/-! ### After the point -/

def alignLeft (n : Nat) (ws : List Nat) : List Nat := ws ++ List.replicate (n - ws.length) 0

/-- What `decimal2bin` writes after the point, without a mask. -/
def writtenFrac (frac fromFrac : Nat) (ws : List Nat) : List UInt8 :=
  let (frac1, frac1x, fsize0, _) := fitFrac frac fromFrac eDecOk
  let out := (ws.take frac1).flatMap (beBytes 4) ++ writeLast 0 frac frac1 frac1x (ws.drop frac1)
  if binSize fromFrac < fsize0 then
    out ++ List.replicate (min (fsize0 - binSize fromFrac) (binSize frac - out.length)) 0
  else out

theorem widen_eq {i lim : Nat} {fuel frac1x : Nat} (hle : frac1x ≤ lim) (hfuel : lim - frac1x ≤ fuel)
    (hsize : ∀ k, frac1x ≤ k → k < lim → dig2bytes k = i) : widen i lim fuel frac1x = lim := by
  induction fuel generalizing frac1x with
  | zero =>
    rw [widen]
    omega
  | succ fuel ih =>
    rw [widen]
    split
    · apply ih (by omega) (by omega)
      intro k hk hlim
      exact hsize k (by omega) hlim
    rename_i hstop
    by_contra hne
    exact hstop ⟨by omega, hsize _ le_rfl (by omega)⟩

/-- The words of a fraction with fewer words than the scale are written whole, and then zeroes are. -/
theorem alignLeft_bytes {scale : Nat} (hws : ws.length ≤ scale / digPerDec1) (r : Nat) :
    ((alignLeft (scale / digPerDec1 + 1) ws).take (scale / digPerDec1)).flatMap (beBytes 4) ++
        beBytes (dig2bytes (scale % digPerDec1)) ((alignLeft (scale / digPerDec1 + 1) ws).getD (scale / digPerDec1) 0 / r) =
      ws.flatMap (beBytes 4) ++ List.replicate (binSize scale - 4 * ws.length) 0 := by
  have htake : (alignLeft (scale / digPerDec1 + 1) ws).take (scale / digPerDec1) =
      ws ++ List.replicate (scale / digPerDec1 - ws.length) 0 := by
    rw [alignLeft, take_append, take_of_length_le hws, take_replicate]
    congr 2
    omega
  have hlast : (alignLeft (scale / digPerDec1 + 1) ws).getD (scale / digPerDec1) 0 = 0 := by
    rw [alignLeft, getD_eq_getElem?_getD, List.getElem?_append_right hws, List.getElem?_replicate]
    split <;> rfl
  have hzeroes : ∀ n, (List.replicate n 0).flatMap (beBytes 4) = List.replicate (4 * n) 0 := by
    intro n
    induction n with
    | zero => rfl
    | succ n ih =>
      rw [replicate_succ, flatMap_cons, ih, beBytes_zero, replicate_append_replicate]
      congr 1
      omega
  rw [htake, hlast, Nat.zero_div, beBytes_zero, flatMap_append, hzeroes, append_assoc, replicate_append_replicate, binSize_eq]
  congr 2
  omega

theorem fitFrac_cases (h : fromFrac ≤ frac) (error : Int) :
    (fromFrac % digPerDec1 = 0 ∧ fitFrac frac fromFrac error = (fromFrac / digPerDec1, 0, binSize frac, error)) ∨
    (0 < fromFrac % digPerDec1 ∧ binSize fromFrac < binSize frac ∧ frac / digPerDec1 = fromFrac / digPerDec1 ∧
      fitFrac frac fromFrac error = (fromFrac / digPerDec1, frac % digPerDec1, binSize fromFrac, error)) ∨
    (0 < fromFrac % digPerDec1 ∧ binSize fromFrac < binSize frac ∧ fromFrac / digPerDec1 < frac / digPerDec1 ∧
      fitFrac frac fromFrac error = (fromFrac / digPerDec1 + 1, 0, binSize frac, error)) ∨
    (0 < fromFrac % digPerDec1 ∧ binSize fromFrac = binSize frac ∧
      fitFrac frac fromFrac error = (fromFrac / digPerDec1, fromFrac % digPerDec1, binSize frac, error)) := by
  have hsize := binSize_mono h
  have hwords : fromFrac / digPerDec1 ≤ frac / digPerDec1 := Nat.div_le_div_right h
  simp only [fitFrac, sub_div_mul, if_neg (Nat.not_lt.2 hsize)]
  rcases Nat.eq_zero_or_pos (fromFrac % digPerDec1) with hzero | hpart
  · left
    rw [hzero, if_neg fun hc => absurd hc.2 (lt_irrefl 0)]
    exact ⟨rfl, rfl⟩
  right
  rcases hsize.eq_or_lt with hsame | hless
  · right; right
    rw [if_neg fun hc => absurd hc.1 (hsame ▸ lt_irrefl _)]
    exact ⟨hpart, hsame, rfl⟩
  rw [if_pos ⟨hless, hpart⟩]
  rcases hwords.eq_or_lt with heq | hlt
  · left
    rw [if_pos heq.symm]
    exact ⟨hpart, hless, heq.symm, rfl⟩
  right; left
  rw [if_neg (ne_of_gt hlt)]
  exact ⟨hpart, hless, hlt, rfl⟩

theorem writeLast_eq {frac1 frac1x lim : Nat} (hlim : (if frac1 < frac / digPerDec1 then digPerDec1 else frac % digPerDec1) = lim)
    (hpart : 0 < frac1x) (hle : frac1x ≤ lim) (hsize : ∀ k, frac1x ≤ k → k < lim → dig2bytes k = dig2bytes frac1x) (ws : List Nat) :
    writeLast 0 frac frac1 frac1x ws = beBytes (dig2bytes frac1x) (ws.headD 0 / 10 ^ (digPerDec1 - lim)) := by
  have hfuel : lim - frac1x ≤ digPerDec1 := by
    rw [← hlim]
    unfold digPerDec1
    split <;> omega
  simp only [writeLast, if_pos hpart, sub_div_mul, Nat.xor_zero, powers10]
  rw [hlim, widen_eq hle hfuel hsize]

theorem dig2bytes_const {j k l : Nat} (hl : l < 10) (hjk : j ≤ k) (hkl : k ≤ l) (h : dig2bytes j = dig2bytes l) :
    dig2bytes k = dig2bytes j :=
  le_antisymm (h ▸ dig2bytes_mono hl hkl) (dig2bytes_mono (lt_of_le_of_lt hkl hl) hjk)

theorem dig2bytes_pos {k : Nat} (hk : k < 10) (h : 0 < k) : 0 < dig2bytes k := by
  revert k
  decide

theorem writeLast_zero (mask frac frac1 : Nat) (ws : List Nat) : writeLast mask frac frac1 0 ws = [] := rfl

theorem writtenFrac_whole {frac1 : Nat} (hlen : ws.length = frac1) (hws : ws.length ≤ frac / digPerDec1)
    (hle : binSize fromFrac ≤ 4 * ws.length) (hsize : binSize fromFrac ≤ binSize frac)
    (hfit : fitFrac frac fromFrac eDecOk = (frac1, 0, binSize frac, eDecOk)) (r : Nat) : writtenFrac frac fromFrac ws =
      ((alignLeft (frac / digPerDec1 + 1) ws).take (frac / digPerDec1)).flatMap (beBytes 4) ++
        beBytes (dig2bytes (frac % digPerDec1)) ((alignLeft (frac / digPerDec1 + 1) ws).getD (frac / digPerDec1) 0 / r) := by
  rw [alignLeft_bytes hws, writtenFrac, hfit]
  dsimp only
  rw [writeLast_zero, append_nil, take_of_length_le (le_of_eq hlen), length_flatMap_words]
  split
  · rw [min_eq_right (by omega)]
  · rw [Nat.sub_eq_zero_of_le (by omega), replicate_zero, append_nil]

theorem writtenFrac_eq (h : fromFrac ≤ frac) (hlen : ws.length = roundUp fromFrac) : writtenFrac frac fromFrac ws =
      ((alignLeft (frac / digPerDec1 + 1) ws).take (frac / digPerDec1)).flatMap (beBytes 4) ++
        beBytes (dig2bytes (frac % digPerDec1)) ((alignLeft (frac / digPerDec1 + 1) ws).getD (frac / digPerDec1) 0 /
          10 ^ (digPerDec1 - frac % digPerDec1)) := by
  have hdiv : fromFrac / digPerDec1 ≤ frac / digPerDec1 := Nat.div_le_div_right h
  have hsize := binSize_mono h
  have hmod := mod_lt_ten frac
  have hhead : (ws.drop (fromFrac / digPerDec1)).headD 0 = ws.getD (fromFrac / digPerDec1) 0 := by
    rw [headD_eq_head?_getD, List.head?_drop, getD_eq_getElem?_getD]
  -- the last word of the fraction is the last one of the scale
  have hlast : 0 < fromFrac % digPerDec1 → frac / digPerDec1 = fromFrac / digPerDec1 →
      alignLeft (frac / digPerDec1 + 1) ws = ws := by
    intro hpart hwords
    have hfull : ws.length = frac / digPerDec1 + 1 := by
      unfold roundUp digPerDec1 at *
      omega
    rw [alignLeft, hfull, Nat.sub_self, replicate_zero, append_nil]
  rcases fitFrac_cases h eDecOk with ⟨hzero, hfit⟩ | ⟨hpart, hless, hwords, hfit⟩ | ⟨hpart, hless, hwords, hfit⟩ |
    ⟨hpart, hsame, hfit⟩
  · have hbin : binSize fromFrac = 4 * ws.length := by
      rw [binSize_eq, hzero, hlen]
      unfold roundUp digPerDec1 dig2bytes at *
      simp only [getD_cons_zero]
      omega
    have hfull : ws.length = fromFrac / digPerDec1 := by
      unfold roundUp digPerDec1 at *
      omega
    exact writtenFrac_whole hfull (by omega) (by omega) hsize hfit _
  · have hmore : fromFrac % digPerDec1 ≤ frac % digPerDec1 := by
      unfold digPerDec1 at *
      omega
    rw [writtenFrac, hfit]
    dsimp only
    rw [if_neg (lt_irrefl _), hlast hpart hwords, ← hwords,
      writeLast_eq (if_neg (lt_irrefl _)) (lt_of_lt_of_le hpart hmore) le_rfl (fun k hk hlt => by omega), hwords, hhead]
  · have hfull : ws.length = fromFrac / digPerDec1 + 1 := by
      unfold roundUp digPerDec1 at *
      omega
    have hbin : binSize fromFrac ≤ 4 * ws.length := by
      have := dig2bytes_le (fromFrac % digPerDec1)
      rw [binSize_eq]
      omega
    exact writtenFrac_whole hfull (by omega) hbin hsize hfit _
  rw [writtenFrac, hfit]
  dsimp only
  rw [if_neg (hsame ▸ lt_irrefl _)]
  have hbytes := hsame
  rw [binSize_eq, binSize_eq] at hbytes
  rcases hdiv.eq_or_lt with hwords | hwords
  · have hmore : fromFrac % digPerDec1 ≤ frac % digPerDec1 := by
      unfold digPerDec1 at *
      omega
    have hequal : dig2bytes (fromFrac % digPerDec1) = dig2bytes (frac % digPerDec1) := by
      rw [hwords] at hbytes
      omega
    rw [writeLast_eq (if_neg (hwords ▸ lt_irrefl _)) hpart hmore
        (fun k hk hlt => dig2bytes_const hmod hk hlt.le hequal), hlast hpart hwords.symm, hequal, hhead, hwords]
  -- the last word has seven digits or more and so takes the four bytes of a whole one
  have hfour := dig2bytes_le (fromFrac % digPerDec1)
  have hnext : frac / digPerDec1 = fromFrac / digPerDec1 + 1 := by omega
  have hlen' : ws.length = frac / digPerDec1 := by
    unfold roundUp digPerDec1 at *
    omega
  have hword : dig2bytes (fromFrac % digPerDec1) = 4 := by omega
  have hwhole : (ws.take (fromFrac / digPerDec1)).flatMap (beBytes 4) ++
      beBytes 4 (ws.getD (fromFrac / digPerDec1) 0) = ws.flatMap (beBytes 4) := by
    have hlt : fromFrac / digPerDec1 < ws.length := by omega
    have hsplit : ws.take (fromFrac / digPerDec1) ++ [ws.getD (fromFrac / digPerDec1) 0] = ws := by
      rw [getD_eq_getElem?_getD, List.getElem?_eq_getElem hlt, Option.getD_some, take_append_getElem hlt, take_of_length_le (by omega)]
    conv_rhs => rw [← hsplit]
    rw [flatMap_append, flatMap_singleton]
  rw [writeLast_eq (if_pos hwords) hpart (by unfold digPerDec1; omega)
      (fun k hk hlt => dig2bytes_const (by decide : 9 < 10) hk hlt.le (by rw [hword]; rfl)), hword, hhead, Nat.sub_self,
    pow_zero, Nat.div_one, hwhole, alignLeft_bytes (le_of_eq hlen'), ← hsame, binSize_eq, hword, hlen', hnext,
    Nat.sub_eq_zero_of_le (by omega), replicate_zero, append_nil]

end Mysql51.Decimal
