import Mathlib.Data.Nat.Bitwise
import Mysql51.Lib.Machine
import Mysql51.Strings.Latin1

/-!
# Base64

`base64_encode` writes four characters for three bytes and breaks the lines; `base64_decode` reads them back and passes over spaces.
-/

namespace Mysql51.Mysys

open Machine Strings List

def base64Table : List UInt8 :=
  (List.range' 65 26 ++ List.range' 97 26 ++ List.range' 48 10 ++ [43, 47]).map UInt8.ofNat

def base64NeededEncodedLength (lengthOfData : Int) : Int :=
  let nbBase64Chars := int32 ((int32 (lengthOfData + 2)).tdiv 3 * 4)
  int32 (nbBase64Chars + (nbBase64Chars - 1).tdiv 76 + 1)

def base64NeededDecodedLength (lengthOfEncodedData : Int) : Int := (int32 (lengthOfEncodedData * 3)).tdiv 4

def tableAt (c : Nat) : UInt8 := base64Table.getD (c &&& 0x3f) 0

def encodeGroup (s₀ s₁ s₂ : UInt8) (n : Nat) : List UInt8 :=
  let c := (((s₀.toNat <<< 8) + s₁.toNat) <<< 8) + s₂.toNat
  [tableAt (c >>> 18), tableAt (c >>> 12), if n < 2 then 61 else tableAt (c >>> 6), if n < 3 then 61 else tableAt (c >>> 0)]

def lineBreak (len : Nat) : List UInt8 := if len = 76 then [10] else []

def encodeLoop : List UInt8 → Nat → List UInt8
  | [], _ => []
  | [s₀], len => lineBreak len ++ encodeGroup s₀ 0 0 1
  | [s₀, s₁], len => lineBreak len ++ encodeGroup s₀ s₁ 0 2
  | s₀ :: s₁ :: s₂ :: src, len =>
    lineBreak len ++ encodeGroup s₀ s₁ s₂ 3 ++ encodeLoop src ((if len = 76 then 0 else len) + 4)

def base64Encode (src : List UInt8) : List UInt8 := encodeLoop src 0 ++ [0]

variable (foreign : UInt8 → Nat)

/-- `pos`, where `foreign` stands for what the difference of a null pointer and the table is. `strchr` finds the zero at the end. -/
def pos (c : UInt8) : Nat :=
  if c = 0 then 64 else if c ∈ base64Table then base64Table.idxOf c else foreign c

def decodeGroup (c mark : Nat) : List UInt8 :=
  [UInt8.ofNat (c >>> 16), UInt8.ofNat (c >>> 8), UInt8.ofNat (c >>> 0)].take (3 - mark)

def skipSpace (src : List UInt8) : List UInt8 := src.dropWhile isSpace

def shiftIn (c p : Nat) : Nat := ((c + p) <<< 6) % 2 ^ 32

/-- The loop of `base64_decode`: what is written, and how far `src` is from the end of the text. Every way out has `i = len`. -/
def decodeLoop (foreign : UInt8 → Nat) : Nat → List UInt8 → List UInt8 → List UInt8 × Int
  | 0, src, d => (d, src.length)
  | fuel + 1, src, d =>
    match skipSpace src with
    | [] => (d, 0)
    | c₀ :: src =>
      match skipSpace src with
      | [] => (d, 0)
      | c₁ :: src =>
        let c := shiftIn (shiftIn 0 (pos foreign c₀)) (pos foreign c₁)
        match skipSpace src with
        | [] => (d, 0)
        | c₂ :: src =>
          if c₂ = 61 then (d ++ decodeGroup (shiftIn c 0) 2, src.length - 1)
          else
            let c := shiftIn c (pos foreign c₂)
            match skipSpace src with
            | [] => (d, 0)
            | c₃ :: src =>
              if c₃ = 61 then (d ++ decodeGroup c 1, src.length)
              else decodeLoop foreign fuel src (d ++ decodeGroup ((c + pos foreign c₃) % 2 ^ 32) 0)

/-- The number of bytes, the bytes, and the place of `end_ptr` in the text. -/
def base64Decode (src : List UInt8) : Int × List UInt8 × Int :=
  let (d, left) := decodeLoop foreign src.length src []
  (d.length, d, src.length - left)

/-! ### The characters -/

theorem tableAt_spec : ∀ k < 64, isSpace (tableAt k) = false ∧ tableAt k ≠ 61 ∧ tableAt k ≠ 10 ∧ tableAt k ≠ 0 ∧
    tableAt k ∈ base64Table ∧ base64Table.idxOf (tableAt k) = k := by
  decide +kernel

theorem tableAt_mod (c : Nat) : tableAt (c % 64) = tableAt c := by
  rw [tableAt, tableAt, show 0x3f = 2 ^ 6 - 1 from rfl, Nat.and_two_pow_sub_one_eq_mod, Nat.and_two_pow_sub_one_eq_mod, Nat.mod_mod]

theorem pos_tableAt (c : Nat) : pos foreign (tableAt c) = c % 64 := by
  obtain ⟨-, -, -, hzero, hmem, hidx⟩ := tableAt_spec (c % 64) (Nat.mod_lt _ (by decide))
  rw [← tableAt_mod, pos, if_neg hzero, if_pos hmem, hidx]

theorem tableAt_ne (c : Nat) : isSpace (tableAt c) = false ∧ tableAt c ≠ 61 ∧ tableAt c ≠ 10 := by
  obtain ⟨hspace, hpad, hline, -⟩ := tableAt_spec (c % 64) (Nat.mod_lt _ (by decide))
  rw [tableAt_mod] at hspace hpad hline
  exact ⟨hspace, hpad, hline⟩

/-! ### Lines -/

def Lined (len : Nat) (text : List UInt8) : Prop := ∀ i c, text[i]? = some c → (c = 10 ↔ (len + i) % 77 = 76)

theorem lined_cons {len : Nat} {c : UInt8} {text : List UInt8} (hc : c = 10 ↔ len % 77 = 76) (h : Lined (len + 1) text) :
    Lined len (c :: text) := by
  intro i c' hget
  cases i with
  | zero =>
    cases hget
    exact hc
  | succ i =>
    rw [← add_assoc, add_right_comm]
    exact h i c' hget

theorem Lined.group {len : Nat} {text : List UInt8} (s₀ s₁ s₂ : UInt8) (n : Nat) (hlen : len % 4 = 0 ∧ len ≤ 76)
    (h : Lined ((if len = 76 then 0 else len) + 4) text) : Lined len (lineBreak len ++ encodeGroup s₀ s₁ s₂ n ++ text) := by
  have hgroup : ∀ col, col % 4 = 0 ∧ col < 76 → Lined (col + 4) text → Lined col (encodeGroup s₀ s₁ s₂ n ++ text) := by
    intro col hcol htext
    have hother : ∀ (c : UInt8) k, c ≠ 10 → k < 4 → (c = 10 ↔ (col + k) % 77 = 76) := fun c k hc hk =>
      ⟨fun h => absurd h hc, fun h => absurd (Nat.mod_eq_of_lt (show col + k < 77 by omega) ▸ h) (by omega)⟩
    have hpad : ∀ (b : Prop) [Decidable b] c, (if b then (61 : UInt8) else tableAt c) ≠ 10 := fun b _ c => by
      split
      · decide
      · exact (tableAt_ne c).2.2
    exact lined_cons (hother _ 0 (tableAt_ne _).2.2 (by decide)) (lined_cons (hother _ 1 (tableAt_ne _).2.2 (by decide))
      (lined_cons (hother _ 2 (hpad _ _) (by decide)) (lined_cons (hother _ 3 (hpad _ _) (by decide)) htext)))
  rw [lineBreak]
  split
  next hfull =>
    subst hfull
    refine lined_cons (by decide) fun i c hget => ?_
    have hline := hgroup 0 (by decide) h i c hget
    rwa [zero_add, ← Nat.add_mod_left 77 i] at hline
  next hmore =>
    rw [if_neg hmore] at h
    exact hgroup len (by omega) h

theorem length_group (len : Nat) (s₀ s₁ s₂ : UInt8) (n : Nat) (text : List UInt8) :
    (lineBreak len ++ encodeGroup s₀ s₁ s₂ n ++ text).length = (if len = 76 then 5 else 4) + text.length := by
  rw [length_append, length_append, lineBreak]
  split <;> rfl

theorem lined_nil (len : Nat) : Lined len [] := fun _ _ hget => nomatch hget

theorem lastGroup_lined {len : Nat} (hlen : len % 4 = 0 ∧ len ≤ 76) (s₀ s₁ : UInt8) {n : Nat} (hn : (n + 2) / 3 = 1) :
    Lined len (lineBreak len ++ encodeGroup s₀ s₁ 0 n) ∧
      (lineBreak len ++ encodeGroup s₀ s₁ 0 n).length = (n + 2) / 3 * 4 + (len + (n + 2) / 3 * 4 - 1) / 76 := by
  rw [← append_nil (lineBreak len ++ encodeGroup s₀ s₁ 0 n), length_group, hn]
  exact ⟨(lined_nil _).group s₀ s₁ 0 n hlen, by rw [length_nil]; split <;> omega⟩

theorem encodeLoop_lined (src : List UInt8) {len : Nat} (hlen : len % 4 = 0 ∧ len ≤ 76) : Lined len (encodeLoop src len) ∧
      (encodeLoop src len).length = (src.length + 2) / 3 * 4 + (len + (src.length + 2) / 3 * 4 - 1) / 76 := by
  induction src, len using encodeLoop.induct with
  | case1 len => exact ⟨lined_nil _, by rw [encodeLoop, length_nil]; omega⟩
  | case2 s₀ len =>
    rw [encodeLoop]
    exact lastGroup_lined hlen s₀ 0 rfl
  | case3 s₀ s₁ len =>
    rw [encodeLoop]
    exact lastGroup_lined hlen s₀ s₁ rfl
  | case4 s₀ s₁ s₂ src len ih =>
    obtain ⟨hlined, hlength⟩ := ih (by split <;> omega)
    rw [encodeLoop, length_group, hlength]
    refine ⟨hlined.group s₀ s₁ s₂ 3 hlen, ?_⟩
    rw [show (s₀ :: s₁ :: s₂ :: src).length + 2 = src.length + 2 + 3 from rfl, Nat.add_div_right _ (by decide)]
    split <;> omega

/-! ### Decoding -/

theorem skipSpace_of_not {c : UInt8} (h : isSpace c = false) (src : List UInt8) : skipSpace (c :: src) = c :: src := by
  rw [skipSpace, dropWhile_cons, h]
  rfl

theorem skipSpace_lineBreak (len : Nat) (src : List UInt8) : skipSpace (lineBreak len ++ src) = skipSpace src := by
  rw [lineBreak]
  split
  · rw [singleton_append, skipSpace, dropWhile_cons, if_pos (by decide)]
    rfl
  rfl

theorem length_skipSpace_le {c : UInt8} {src rest : List UInt8} (h : skipSpace src = c :: rest) : rest.length + 1 ≤ src.length := by
  have hle := (dropWhile_suffix isSpace (l := src)).length_le
  rw [← skipSpace, h] at hle
  exact hle

/-- No more than three bytes are written for four characters. -/
theorem decodeLoop_length (fuel : Nat) (src d : List UInt8) :
    (decodeLoop foreign fuel src d).1.length * 4 ≤ d.length * 4 + src.length * 3 := by
  induction fuel generalizing src d with
  | zero => exact Nat.le_add_right _ _
  | succ fuel ih =>
    have hgroup : ∀ c, (decodeGroup c 0).length = 3 ∧ (decodeGroup c 1).length = 2 ∧ (decodeGroup c 2).length = 1 := fun _ =>
      ⟨rfl, rfl, rfl⟩
    unfold decodeLoop
    split
    next => exact Nat.le_add_right _ _
    next c₀ src₀ h₀ =>
      have hle₀ := length_skipSpace_le h₀
      split
      next => exact Nat.le_add_right _ _
      next c₁ src₁ h₁ =>
        have hle₁ := length_skipSpace_le h₁
        split
        next => exact Nat.le_add_right _ _
        next c₂ src₂ h₂ =>
          have hle₂ := length_skipSpace_le h₂
          split
          next =>
            rw [length_append, (hgroup _).2.2]
            omega
          next =>
            split
            next => exact Nat.le_add_right _ _
            next c₃ src₃ h₃ =>
              have hle₃ := length_skipSpace_le h₃
              split
              next =>
                rw [length_append, (hgroup _).2.1]
                omega
              next =>
                refine (ih _ _).trans ?_
                rw [length_append, (hgroup _).1]
                omega

theorem decodeGroup_eq (s₀ s₁ s₂ : UInt8) {c : Nat} (hc : c = s₀.toNat * 65536 + s₁.toNat * 256 + s₂.toNat) (mark : Nat) :
    decodeGroup c mark = [s₀, s₁, s₂].take (3 - mark) := by
  have hbyte : ∀ (s : UInt8) n, n % 256 = s.toNat → UInt8.ofNat n = s := fun s n h => UInt8.toNat_inj.1 (UInt8.toNat_ofNat'.trans h)
  have h₀ := s₀.toNat_lt
  have h₁ := s₁.toNat_lt
  have h₂ := s₂.toNat_lt
  simp only [Nat.shiftRight_eq_div_pow, decodeGroup]
  rw [hbyte s₀ _ (by omega), hbyte s₁ _ (by omega), hbyte s₂ _ (by omega)]

section RoundTrip

variable (foreign : UInt8 → Nat) (fuel len : Nat) (s₀ s₁ s₂ : UInt8) (text d : List UInt8)

theorem decodeLoop_full : decodeLoop foreign (fuel + 1) (lineBreak len ++ encodeGroup s₀ s₁ s₂ 3 ++ text) d =
    decodeLoop foreign fuel text (d ++ [s₀, s₁, s₂]) := by
  have h₀ := s₀.toNat_lt
  have h₁ := s₁.toNat_lt
  have h₂ := s₂.toNat_lt
  rw [append_assoc, decodeLoop, skipSpace_lineBreak, encodeGroup]
  simp only [lt_irrefl, if_false, cons_append, nil_append, skipSpace_of_not (tableAt_ne _).1, (tableAt_ne _).2.1,
    pos_tableAt, show ¬ 3 < 2 by decide]
  rw [decodeGroup_eq s₀ s₁ s₂]
  · rfl
  simp only [shiftIn, Nat.shiftRight_eq_div_pow, Nat.shiftLeft_eq]
  omega

theorem decodeLoop_two : (decodeLoop foreign (fuel + 1) (lineBreak len ++ encodeGroup s₀ s₁ 0 2) d).1 = d ++ [s₀, s₁] := by
  have h₀ := s₀.toNat_lt
  have h₁ := s₁.toNat_lt
  rw [decodeLoop, skipSpace_lineBreak, encodeGroup]
  simp only [lt_irrefl, if_false, skipSpace_of_not (tableAt_ne _).1, (tableAt_ne _).2.1, pos_tableAt, show 2 < 3 by decide,
    if_true, skipSpace_of_not (show isSpace 61 = false by decide)]
  rw [decodeGroup_eq s₀ s₁ 0]
  · rfl
  simp only [shiftIn, Nat.shiftRight_eq_div_pow, Nat.shiftLeft_eq, UInt8.toNat_zero]
  omega

theorem decodeLoop_one : (decodeLoop foreign (fuel + 1) (lineBreak len ++ encodeGroup s₀ 0 0 1) d).1 = d ++ [s₀] := by
  have h₀ := s₀.toNat_lt
  rw [decodeLoop, skipSpace_lineBreak, encodeGroup]
  simp only [skipSpace_of_not (tableAt_ne _).1, pos_tableAt, show 1 < 2 by decide, if_true,
    skipSpace_of_not (show isSpace 61 = false by decide)]
  rw [decodeGroup_eq s₀ 0 0]
  · rfl
  simp only [shiftIn, Nat.shiftRight_eq_div_pow, Nat.shiftLeft_eq, UInt8.toNat_zero]
  omega

end RoundTrip

variable (foreign : UInt8 → Nat)

theorem decodeLoop_encodeLoop (src : List UInt8) (len : Nat) {fuel : Nat} (hfuel : src.length ≤ fuel)
    (d : List UInt8) : (decodeLoop foreign fuel (encodeLoop src len) d).1 = d ++ src := by
  induction src, len using encodeLoop.induct generalizing fuel d with
  | case1 len =>
    rw [encodeLoop, append_nil]
    cases fuel <;> rfl
  | case2 s₀ len =>
    obtain ⟨fuel, rfl⟩ := Nat.exists_eq_add_of_le' hfuel
    rw [encodeLoop]
    exact decodeLoop_one foreign fuel len s₀ d
  | case3 s₀ s₁ len =>
    obtain ⟨fuel, rfl⟩ := Nat.exists_eq_add_of_le' hfuel
    rw [encodeLoop]
    exact decodeLoop_two foreign (fuel + 1) len s₀ s₁ d
  | case4 s₀ s₁ s₂ src len ih =>
    obtain ⟨fuel, rfl⟩ := Nat.exists_eq_add_of_le' hfuel
    rw [encodeLoop, length_cons, ← add_assoc, decodeLoop_full, ih (by simp; omega), append_assoc]
    rfl

theorem base64NeededEncodedLength_eq {n : Nat} (hn : n < 2 ^ 30) :
    base64NeededEncodedLength n = ((n + 2) / 3 * 4 + ((n + 2) / 3 * 4 - 1) / 76 + 1 : Nat) := by
  have hchars : ((n : Int) + 2).tdiv 3 * 4 = ((n + 2) / 3 * 4 : Nat) := by
    rw [Int.tdiv_eq_ediv_of_nonneg (by omega)]
    omega
  have hlines : (((n + 2) / 3 * 4 : Nat) - 1 : Int).tdiv 76 = (((n + 2) / 3 * 4 - 1) / 76 : Nat) := by
    by_cases hzero : (n + 2) / 3 * 4 = 0
    · rw [hzero]
      rfl
    rw [Int.tdiv_eq_ediv_of_nonneg (by omega)]
    omega
  have hdata : int32 ((n : Int) + 2) = n + 2 := int32_of_range (by omega) (by omega)
  have hcount : int32 ((n + 2) / 3 * 4 : Nat) = ((n + 2) / 3 * 4 : Nat) := int32_of_range (by omega) (by omega)
  rw [base64NeededEncodedLength, hdata, hchars, hcount, hlines, int32_of_range (by omega) (by omega)]
  rfl

/-- The text has the length that is computed for it and its lines are full, it is decoded to the same bytes, and of no text more
is decoded than the length that is computed for it. -/
theorem base64_roundTrip (foreign : UInt8 → Nat) (src text : List UInt8) (hsrc : src.length < 2 ^ 30) (htext : text.length < 2 ^ 29) :
    (base64Encode src).length = base64NeededEncodedLength src.length ∧
      (∃ chars, base64Encode src = chars ++ [0] ∧ Lined 0 chars ∧
        (base64Decode foreign chars).1 = src.length ∧ (base64Decode foreign chars).2.1 = src) ∧
      ((base64Decode foreign text).2.1.length : Int) ≤ base64NeededDecodedLength text.length := by
  obtain ⟨hlined, hlength⟩ := @encodeLoop_lined src 0 (by decide)
  have hdecode := decodeLoop_encodeLoop foreign src 0 (show src.length ≤ (encodeLoop src 0).length by omega) []
  rw [nil_append] at hdecode
  refine ⟨?_, ⟨encodeLoop src 0, rfl, hlined, congrArg (fun d => (List.length d : Int)) hdecode, hdecode⟩, ?_⟩
  · rw [base64Encode, length_append, hlength, base64NeededEncodedLength_eq hsrc, zero_add]
    rfl
  · have hle : (base64Decode foreign text).2.1.length * 4 ≤ 0 * 4 + text.length * 3 := decodeLoop_length foreign text.length text []
    rw [base64NeededDecodedLength, int32_of_range (by omega) (by omega), Int.tdiv_eq_ediv_of_nonneg (by omega)]
    omega

/-- A text of two lines, and a text with a character that is not of the alphabet. -/
theorem base64_roundTrip_twoLines : (base64Encode (List.replicate 58 255)).length = base64NeededEncodedLength 58 ∧
    (∃ chars, base64Encode (List.replicate 58 255) = chars ++ [0] ∧ Lined 0 chars ∧
      (base64Decode (fun _ => 7) chars).1 = 58 ∧ (base64Decode (fun _ => 7) chars).2.1 = List.replicate 58 255) ∧
    ((base64Decode (fun _ => 7) [81, 85, 42, 74]).2.1.length : Int) ≤ base64NeededDecodedLength 4 :=
  base64_roundTrip (fun _ => 7) (List.replicate 58 255) [81, 85, 42, 74] (by decide) (by decide)

/-! ### The result for a malformed text -/

/-- `SKIP_SPACE` up to its `break`, with the counter. -/
def skipCounted (len : Nat) : List UInt8 → Nat → List UInt8 × Nat
  | [], i => ([], i)
  | c :: src, i => if i < len ∧ isSpace c then skipCounted len src (i + 1) else (c :: src, i)

/-- The loop of `base64_decode` with its counter: `i` and the number of bytes written. -/
def countLoop (len : Nat) : Nat → List UInt8 → Nat → Nat → Nat × Nat
  | 0, _, i, d => (i, d)
  | fuel + 1, src, i, d =>
    if i < len then
      let (src, i) := skipCounted len src i
      if i = len then (i, d)
      else
        let (src, i) := skipCounted len (src.drop 1) (i + 1)
        if i = len then (i, d)
        else
          let (src, i) := skipCounted len (src.drop 1) (i + 1)
          if i = len then (i, d)
          else if src.headD 0 = 61 then countLoop len fuel (src.drop 2) len (d + 1)
          else
            let (src, i) := skipCounted len (src.drop 1) (i + 1)
            if i = len then (i, d)
            else if src.headD 0 = 61 then countLoop len fuel (src.drop 1) len (d + 2)
            else countLoop len fuel (src.drop 1) (i + 1) (d + 3)
    else (i, d)

def base64DecodeResult (text : List UInt8) : Int :=
  let (i, d) := countLoop text.length text.length text 0 0
  if i ≠ text.length then -1 else d

theorem skipCounted_eq {len i : Nat} {src : List UInt8} (h : i + src.length = len) :
    skipCounted len src i = (skipSpace src, len - (skipSpace src).length) := by
  induction src generalizing i with
  | nil => exact Prod.ext rfl h
  | cons c src ih =>
    rw [length_cons] at h
    rw [skipCounted, skipSpace, dropWhile_cons]
    by_cases hspace : isSpace c
    · rw [if_pos ⟨by omega, hspace⟩, if_pos hspace]
      exact ih (by omega)
    rw [if_neg fun hboth => hspace hboth.2, if_neg hspace, length_cons]
    exact Prod.ext rfl (by dsimp only; omega)

theorem countLoop_end (len fuel : Nat) (src : List UInt8) (d : Nat) : countLoop len fuel src len d = (len, d) := by
  cases fuel with
  | zero => rfl
  | succ fuel => exact if_neg (lt_irrefl len)

/-- A character behind the spaces is in front of the end, and the spaces behind it are passed over next. -/
theorem skipCounted_next {len : Nat} {c : UInt8} {src : List UInt8} (h : src.length < len) : len - (c :: src).length ≠ len ∧
    skipCounted len ((c :: src).drop 1) (len - (c :: src).length + 1) = (skipSpace src, len - (skipSpace src).length) := by
  rw [length_cons]
  exact ⟨by omega, skipCounted_eq (show len - (src.length + 1) + 1 + src.length = len by omega)⟩

/-- The loop is left with the counter at the end of the text, whatever the text is. -/
theorem countLoop_eq {len fuel i : Nat} {src : List UInt8} (h : i + src.length = len) (hfuel : src.length ≤ fuel)
    (d : List UInt8) : countLoop len fuel src i d.length = (len, (decodeLoop foreign fuel src d).1.length) := by
  induction fuel generalizing src i d with
  | zero =>
    obtain rfl := eq_nil_of_length_eq_zero (Nat.le_zero.1 hfuel)
    exact Prod.ext h rfl
  | succ fuel ih =>
    by_cases hi : i < len
    · unfold countLoop decodeLoop
      rw [if_pos hi, skipCounted_eq h]
      cases h₀ : skipSpace src with
      | nil => exact if_pos rfl
      | cons c₀ src₀ =>
        have hle₀ := length_skipSpace_le h₀
        obtain ⟨hne₀, hskip₀⟩ := @skipCounted_next len c₀ src₀ (by omega)
        dsimp only
        rw [if_neg hne₀, hskip₀]
        cases h₁ : skipSpace src₀ with
        | nil => exact if_pos rfl
        | cons c₁ src₁ =>
          have hle₁ := length_skipSpace_le h₁
          obtain ⟨hne₁, hskip₁⟩ := @skipCounted_next len c₁ src₁ (by omega)
          dsimp only
          rw [if_neg hne₁, hskip₁]
          cases h₂ : skipSpace src₁ with
          | nil => exact if_pos rfl
          | cons c₂ src₂ =>
            have hle₂ := length_skipSpace_le h₂
            obtain ⟨hne₂, hskip₂⟩ := @skipCounted_next len c₂ src₂ (by omega)
            dsimp only
            rw [if_neg hne₂, headD_cons]
            by_cases hpad : c₂ = 61
            · rw [if_pos hpad, if_pos hpad, countLoop_end, length_append]
              rfl
            rw [if_neg hpad, if_neg hpad, hskip₂]
            cases h₃ : skipSpace src₂ with
            | nil => exact if_pos rfl
            | cons c₃ src₃ =>
              have hle₃ := length_skipSpace_le h₃
              obtain ⟨hne₃, -⟩ := @skipCounted_next len c₃ src₃ (by omega)
              dsimp only
              rw [if_neg hne₃, headD_cons]
              by_cases hpad' : c₃ = 61
              · rw [if_pos hpad', if_pos hpad', countLoop_end, length_append]
                rfl
              rw [if_neg hpad', if_neg hpad',
                ← ih (i := len - (c₃ :: src₃).length + 1) (by rw [length_cons]; omega) (by omega), length_append]
              rfl
    obtain rfl : src = [] := eq_nil_of_length_eq_zero (by omega)
    rw [countLoop, if_neg hi]
    exact Prod.ext h rfl

theorem base64DecodeResult_eq (text : List UInt8) : base64DecodeResult text = (base64Decode foreign text).1 := by
  have hloop := countLoop_eq foreign (zero_add text.length) le_rfl []
  rw [length_nil] at hloop
  rw [base64DecodeResult, hloop]
  exact if_neg (not_not.2 rfl)

/-- The characters are groups of four, and only the last one has padding. -/
def inGroups : List UInt8 → Bool
  | [] => true
  | c₀ :: c₁ :: c₂ :: c₃ :: rest => base64Table.contains c₀ && base64Table.contains c₁ &&
      (base64Table.contains c₂ && base64Table.contains c₃ && inGroups rest ||
        rest.isEmpty && c₃ == 61 && (base64Table.contains c₂ || c₂ == 61))
  | _ => false

end Mysql51.Mysys
