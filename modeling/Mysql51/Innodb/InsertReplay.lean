import Mysql51.Innodb.RecordCopy
import Mysql51.Lib.Reads

/-!
# The replay of an insert

The record that `page_cur_parse_insert_rec` builds from the log and the page before an insert is the one that was inserted, but
for the fields of the header that belong to its place on the page. No part of the log record is taken for the whole.
-/

namespace Mysql51.Innodb

open Machine Memory List

/-! ### Compressed numbers -/

theorem parseBytes_append {code rest : List UInt8} {skip size mask : Nat} (hlen : code.length = size) :
    parseBytes (code ++ rest) skip size mask = some (ofBeBytes (code.drop skip) &&& mask, rest) := by
  rw [parseBytes, if_neg (by rw [length_append]; omega), take_left' hlen, drop_left' hlen]

theorem parseBytes_short {log : List UInt8} {skip size mask : Nat} (hlen : log.length < size) : parseBytes log skip size mask = none :=
  if_pos hlen

theorem beBytes_marked {k i a n : Nat} (hn : n < 2 ^ i) (hbytes : 2 ^ i * a + n < 256 ^ (k + 1)) :
    beBytes (k + 1) (n ||| 2 ^ i * a) = UInt8.ofNat ((2 ^ i * a + n) / 256 ^ k) :: beBytes k (2 ^ i * a + n) ∧
      ofBeBytes (UInt8.ofNat ((2 ^ i * a + n) / 256 ^ k) :: beBytes k (2 ^ i * a + n)) &&& (2 ^ i - 1) = n := by
  have hmark : n ||| 2 ^ i * a = 2 ^ i * a + n := by rw [Nat.or_comm, Nat.two_pow_add_eq_or_of_lt hn]
  refine ⟨by rw [hmark, beBytes], ?_⟩
  have hvalue := ofBeBytes_beBytes (k + 1) (2 ^ i * a + n)
  rw [Nat.mod_eq_of_lt hbytes, beBytes] at hvalue
  rw [hvalue, Nat.and_two_pow_sub_one_eq_mod, Nat.mul_add_mod, Nat.mod_eq_of_lt hn]

/-- The first byte of a compressed number tells how many bytes follow, and all together the number. -/
theorem machWriteCompressed_cases {n : Nat} (hn : n < 2 ^ 32) :
    ∃ flag tail skip size mask, machWriteCompressed n = flag :: tail ∧ tail.length + 1 = size ∧
      ofBeBytes ((flag :: tail).drop skip) &&& mask = n ∧
      ∀ more, machParseCompressed (flag :: more) = parseBytes (flag :: more) skip size mask := by
  -- the tests of the parser as tests of the number that the first byte holds
  have hflag : ∀ b : Nat, b < 256 → ∀ more, machParseCompressed (UInt8.ofNat b :: more) =
      if b < 0x80 then parseBytes (UInt8.ofNat b :: more) 0 1 0xFF
      else if b < 0xC0 then parseBytes (UInt8.ofNat b :: more) 0 2 0x7FFF
      else if b < 0xE0 then parseBytes (UInt8.ofNat b :: more) 0 3 0x3FFFFF
      else if b < 0xF0 then parseBytes (UInt8.ofNat b :: more) 0 4 0x1FFFFFFF
      else parseBytes (UInt8.ofNat b :: more) 1 5 0xFFFFFFFF := by
    intro b hb more
    have hlt : ∀ c : UInt8, UInt8.ofNat b < c ↔ b < c.toNat := fun c => by
      rw [UInt8.lt_iff_toNat_lt, UInt8.toNat_ofNat', Nat.mod_eq_of_lt hb]
    simp only [machParseCompressed, hlt]
    rfl
  unfold machWriteCompressed
  split_ifs
  · obtain ⟨hcode, hvalue⟩ := @beBytes_marked 0 8 0 n (by omega) (by omega)
    rw [mul_zero, Nat.or_zero, zero_add n] at hcode
    rw [mul_zero, zero_add n] at hvalue
    refine ⟨_, _, 0, 1, 0xFF, hcode, by rw [length_beBytes], hvalue, fun more => ?_⟩
    rw [hflag _ (by omega), if_pos (by omega)]
  · obtain ⟨hcode, hvalue⟩ := @beBytes_marked 1 15 1 n (by omega) (by omega)
    refine ⟨_, _, 0, 2, 0x7FFF, hcode, by rw [length_beBytes], hvalue, fun more => ?_⟩
    rw [hflag _ (by omega), if_neg (by omega), if_pos (by omega)]
  · obtain ⟨hcode, hvalue⟩ := @beBytes_marked 2 22 3 n (by omega) (by omega)
    refine ⟨_, _, 0, 3, 0x3FFFFF, hcode, by rw [length_beBytes], hvalue, fun more => ?_⟩
    rw [hflag _ (by omega), if_neg (by omega), if_neg (by omega), if_pos (by omega)]
  · obtain ⟨hcode, hvalue⟩ := @beBytes_marked 3 29 7 n (by omega) (by omega)
    refine ⟨_, _, 0, 4, 0x1FFFFFFF, hcode, by rw [length_beBytes], hvalue, fun more => ?_⟩
    rw [hflag _ (by omega), if_neg (by omega), if_neg (by omega), if_neg (by omega), if_pos (by omega)]
  have hvalue : ofBeBytes (beBytes 4 n) &&& 0xFFFFFFFF = n := by
    rw [ofBeBytes_beBytes, Nat.mod_eq_of_lt (show n < 256 ^ 4 from hn)]
    exact (Nat.and_two_pow_sub_one_eq_mod n 32).trans (Nat.mod_eq_of_lt hn)
  exact ⟨0xF0, beBytes 4 n, 1, 5, 0xFFFFFFFF, rfl, by rw [length_beBytes], hvalue, fun more => rfl⟩

theorem reads_compressed {n : Nat} (hn : n < 2 ^ 32) :
    Reads (.null false) (fun log => orNull (machParseCompressed log)) (machWriteCompressed n) n := by
  obtain ⟨flag, tail, skip, size, mask, hcode, hsize, hvalue, hparse⟩ := machWriteCompressed_cases hn
  rw [hcode]
  refine ⟨fun rest => ?_, fun pre more hpre hmore => ?_⟩
  · rw [cons_append, hparse, ← cons_append, @parseBytes_append (flag :: tail) rest skip size mask hsize, hvalue]
    rfl
  cases pre with
  | nil => rfl
  | cons b pre =>
    cases (List.cons.inj hpre).1
    have hlen := congrArg List.length hpre
    have hpos := length_pos_iff.2 hmore
    rw [length_append, length_cons] at hlen
    rw [hparse, parseBytes_short (by omega)]
    rfl

/-! ### The log body -/

theorem reads_offset (isShort : Bool) {offset : Nat} (hoffset : offset < univPageSize) :
    Reads (.null false) (parseOffset isShort) (if isShort then [] else beBytes 2 offset) (if isShort then 0 else offset) := by
  cases isShort with
  | true => exact Reads.pure _ _
  | false =>
    have hvalue : ofBeBytes (beBytes 2 offset) = offset := by
      rw [ofBeBytes_beBytes]
      exact Nat.mod_eq_of_lt (hoffset.trans (by decide))
    have hlen := length_beBytes 2 offset
    refine ⟨fun rest => ?_, fun pre more hpre hmore => ?_⟩
    · show parseOffset false (beBytes 2 offset ++ rest) = .ok (offset, rest)
      rw [parseOffset, if_neg Bool.false_ne_true, if_neg (by rw [length_append, hlen]; omega), take_left' hlen, hvalue,
        if_neg (Nat.not_le.2 hoffset), drop_left' hlen]
    have hsum := congrArg List.length (show beBytes 2 offset = pre ++ more from hpre)
    have hpos := length_pos_iff.2 hmore
    rw [hlen, length_append] at hsum
    rw [parseOffset, if_neg Bool.false_ne_true, if_pos (by omega)]

theorem reads_mismatchIndex (bits : UInt8) (originOffset : Nat) {mismatchIndex : Nat} (h : mismatchIndex < univPageSize) :
    Reads (.null false) (parseMismatchIndex bits originOffset) (machWriteCompressed mismatchIndex)
      ⟨bits.toNat, originOffset, mismatchIndex⟩ := by
  have hcheck : Reads (.null false) (fun log : List UInt8 => if mismatchIndex ≥ univPageSize then (.error .assertion : Parse _)
      else .ok ((⟨bits.toNat, originOffset, mismatchIndex⟩ : ExtraInfo), log)) [] ⟨bits.toNat, originOffset, mismatchIndex⟩ :=
    (Reads.pure _ _).congr fun log => if_neg (Nat.not_le.2 h)
  rw [← append_nil (machWriteCompressed mismatchIndex)]
  exact (reads_compressed (h.trans (by decide))).bind (q := fun mismatchIndex log =>
    if mismatchIndex ≥ univPageSize then .error .assertion
    else .ok ((⟨bits.toNat, originOffset, mismatchIndex⟩ : ExtraInfo), log)) hcheck

theorem reads_originOffset (bits : UInt8) {originOffset mismatchIndex : Nat} (horigin : originOffset < univPageSize)
    (hmismatch : mismatchIndex < univPageSize) :
    Reads (.null false) (parseOriginOffset bits) (machWriteCompressed originOffset ++ machWriteCompressed mismatchIndex)
      ⟨bits.toNat, originOffset, mismatchIndex⟩ := by
  have hrest := (reads_mismatchIndex bits originOffset hmismatch).congr fun log => (if_neg (Nat.not_le.2 horigin) :
      (if originOffset ≥ univPageSize then .error .assertion else parseMismatchIndex bits originOffset log) = _)
  exact (reads_compressed (horigin.trans (by decide))).bind (q := fun originOffset log =>
    if originOffset ≥ univPageSize then .error .assertion else parseMismatchIndex bits originOffset log) hrest

theorem reads_extraInfo {bits originOffset mismatchIndex : Nat} (hbits : bits < 256) (horigin : originOffset < univPageSize)
    (hmismatch : mismatchIndex < univPageSize) :
    Reads (.null false) parseExtraInfo (beBytes 1 bits ++ machWriteCompressed originOffset ++ machWriteCompressed mismatchIndex)
      ⟨bits, originOffset, mismatchIndex⟩ := by
  have hbyte : beBytes 1 bits = [UInt8.ofNat bits] := by
    rw [beBytes, pow_zero, Nat.div_one]
    rfl
  have hvalue : (UInt8.ofNat bits).toNat = bits := by rw [UInt8.toNat_ofNat', Nat.mod_eq_of_lt hbits]
  have hrest := reads_originOffset (UInt8.ofNat bits) horigin hmismatch
  rw [hvalue] at hrest
  rw [hbyte, append_assoc, singleton_append]
  refine ⟨fun rest => hrest.whole rest, fun pre more hpre hmore => ?_⟩
  cases pre with
  | nil => rfl
  | cons b pre =>
    obtain ⟨rfl, htail⟩ := List.cons.inj hpre
    exact hrest.short pre more htail hmore

theorem reads_endSeg (endSeg : List UInt8) : Reads (.null false) (parseEndSeg endSeg.length) endSeg endSeg where
  whole rest := by rw [parseEndSeg, if_neg (by rw [length_append]; omega), take_left, drop_left]
  short pre more hpre hmore := by
    have hsum := congrArg List.length hpre
    have hpos := length_pos_iff.2 hmore
    rw [length_append] at hsum
    exact if_pos (by omega)

def ExtraInfo.code (info : ExtraInfo) : List UInt8 :=
  beBytes 1 info.infoAndStatusBits ++ machWriteCompressed info.originOffset ++ machWriteCompressed info.mismatchIndex

def LogBody.code (body : LogBody) (isShort : Bool) : List UInt8 :=
  (if isShort then [] else beBytes 2 body.offset) ++
    (machWriteCompressed (2 * body.endSeg.length + body.extraInfo.isSome.toNat) ++
      ((body.extraInfo.map ExtraInfo.code).getD [] ++ body.endSeg))

/-- The parser reads a log body, and asks for more as long as a part of it is missing. -/
theorem reads_log {body : LogBody} {isShort : Bool} (hoffset : body.offset < univPageSize) (hshort : isShort = true → body.offset = 0)
    (hsegLen : body.endSeg.length < univPageSize) (hinfo : ∀ info, body.extraInfo = some info →
      info.infoAndStatusBits < 256 ∧ info.originOffset < univPageSize ∧ info.mismatchIndex < univPageSize) :
    Reads (.null false) (parseLog isShort) (body.code isShort) body := by
  obtain ⟨offset, extraInfo, endSeg⟩ := body
  have hflag : ((2 * endSeg.length + extraInfo.isSome.toNat) &&& 1 ≠ 0 ↔ extraInfo.isSome = true) ∧
      (2 * endSeg.length + extraInfo.isSome.toNat) >>> 1 = endSeg.length := by
    rw [Nat.and_one_is_mod, Nat.shiftRight_eq_div_pow, pow_one]
    cases extraInfo.isSome with
    | true => exact ⟨by simp [Nat.add_mod], by show (2 * endSeg.length + 1) / 2 = _; omega⟩
    | false => exact ⟨by simp, by show (2 * endSeg.length + 0) / 2 = _; omega⟩
  have hoptional : Reads (.null false) (parseOptionalInfo extraInfo.isSome) ((extraInfo.map ExtraInfo.code).getD []) extraInfo := by
    cases extraInfo with
    | none => exact Reads.pure _ _
    | some info =>
      obtain ⟨hbits, horigin, hmismatch⟩ := hinfo info rfl
      rw [← append_nil ((Option.map ExtraInfo.code (some info)).getD [])]
      exact (reads_extraInfo hbits horigin hmismatch).bind (q := fun info log => .ok (some info, log)) (Reads.pure _ _)
  have hseg : Reads (.null false) (parseSegment offset (2 * endSeg.length + extraInfo.isSome.toNat))
      ((extraInfo.map ExtraInfo.code).getD [] ++ endSeg) ⟨offset, extraInfo, endSeg⟩ := by
    have hdecide : decide ((2 * endSeg.length + extraInfo.isSome.toNat) &&& 1 ≠ 0) = extraInfo.isSome := by
      rw [Bool.eq_iff_iff, decide_eq_true_iff]
      exact hflag.1
    have hend := (reads_endSeg endSeg).bind (q := fun endSeg log => (.ok (⟨offset, extraInfo, endSeg⟩, log) : Parse (LogBody × _)))
      (Reads.pure _ _)
    rw [append_nil] at hend
    refine (hoptional.bind (q := fun extraInfo log => parseEndSeg endSeg.length log >>= fun r =>
      .ok (⟨offset, extraInfo, r.1⟩, r.2)) hend).congr fun log => ?_
    rw [parseSegment, hdecide, hflag.2]
  have hbound : 2 * endSeg.length + extraInfo.isSome.toNat < 2 ^ 32 := by
    have hlen : endSeg.length < 2 ^ 12 := hsegLen
    omega
  have hlength : Reads (.null false) (parseEndSegLen offset) (machWriteCompressed (2 * endSeg.length + extraInfo.isSome.toNat) ++
      ((extraInfo.map ExtraInfo.code).getD [] ++ endSeg)) ⟨offset, extraInfo, endSeg⟩ := by
    refine (reads_compressed hbound).bind (q := fun n log =>
      if n >>> 1 ≥ univPageSize then .error (.null true) else parseSegment offset n log) (hseg.congr fun log => ?_)
    rw [hflag.2, if_neg (Nat.not_le.2 hsegLen)]
  have hstart := reads_offset isShort hoffset
  have hzero : (if isShort then 0 else offset) = offset := by
    cases isShort with
    | true => exact (hshort rfl).symm
    | false => rfl
  rw [hzero] at hstart
  exact hstart.bind (q := parseEndSegLen) hlength

/-! ### The mismatch index -/

structure Matches (m : Nat → UInt8) (header insertRec cursorRec extraSize minRecSize i : Nat) : Prop where
  le : i ≤ minRecSize
  same : ∀ j, j < i → (extraSize - header ≤ j ∧ j < extraSize) ∨ m (insertRec - extraSize + j) = m (cursorRec - extraSize + j)

theorem mismatchLoop_spec {m : Nat → UInt8} {comp : Bool} {insertRec cursorRec extraSize minRecSize fuel i : Nat}
    (hmin : extraSize ≤ minRecSize) (hins : extraSize ≤ insertRec) (hcur : extraSize ≤ cursorRec)
    (hmatch : Matches m (headerSize comp) insertRec cursorRec extraSize minRecSize i) (hfuel : minRecSize ≤ i + fuel) :
    ∃ i', mismatchLoop m comp insertRec cursorRec extraSize minRecSize fuel i (insertRec - extraSize + i) (cursorRec - extraSize + i) =
        (i', insertRec - extraSize + i') ∧
      Matches m (headerSize comp) insertRec cursorRec extraSize minRecSize i' ∧ ¬ (extraSize - headerSize comp ≤ i' ∧ i' < extraSize) := by
  have hle := hmatch.le
  induction fuel generalizing i with
  | zero => exact ⟨i, rfl, hmatch, by omega⟩
  | succ fuel ih =>
    rw [mismatchLoop]
    by_cases hend : i ≥ minRecSize
    · rw [if_pos hend]
      exact ⟨i, rfl, hmatch, by omega⟩
    rw [if_neg hend]
    by_cases hbyte : m (insertRec - extraSize + i) = m (cursorRec - extraSize + i)
    · rw [if_pos hbyte, add_assoc, add_assoc]
      refine ih ⟨by omega, fun j hj => ?_⟩ (by omega) (by omega)
      rcases Nat.lt_succ_iff_lt_or_eq.1 hj with hlt | rfl
      · exact hmatch.same j hlt
      · exact .inr hbyte
    rw [if_neg hbyte]
    by_cases hheader : i < extraSize ∧ i ≥ extraSize - headerSize comp
    · -- the rest of the header is passed
      rw [if_pos hheader]
      have hskip := @ih extraSize ⟨hmin, fun j hj => ?_⟩ (by omega) hmin
      · rwa [Nat.sub_add_cancel hins, Nat.sub_add_cancel hcur] at hskip
      by_cases hj' : j < i
      · exact hmatch.same j hj'
      · exact .inl ⟨by omega, hj⟩
    rw [if_neg hheader]
    exact ⟨i, rfl, hmatch, by omega⟩

/-! ### Header bits -/

section

variable {m m' : Nat → UInt8} {rec rec' : Nat}

theorem and_shift_zero {b : UInt8} {mask : Nat} (hmask : mask < 256) : (b.toNat &&& mask) >>> 0 = (b &&& UInt8.ofNat mask).toNat := by
  rw [Nat.shiftRight_zero, UInt8.toNat_and, UInt8.toNat_ofNat', Nat.mod_eq_of_lt hmask]

theorem recGetInfoBits_eq (m : Nat → UInt8) (rec : Nat) (comp : Bool) :
    recGetInfoBits m rec comp = (m (rec - headerSize comp) &&& 0xF0).toNat := by
  cases comp <;> exact and_shift_zero (by decide)

theorem recGetStatus_eq (m : Nat → UInt8) (rec : Nat) : recGetStatus m rec = (m (rec - 3) &&& 0x07).toNat := and_shift_zero (by decide)

theorem recGetInfoAndStatusBits_congr {comp : Bool} {extra : Nat} (h : SameExtra comp m rec m' rec' extra)
    (hextra : headerSize comp ≤ extra) : recGetInfoAndStatusBits m' rec' comp = recGetInfoAndStatusBits m rec comp := by
  have hinfo : recGetInfoBits m' rec' comp = recGetInfoBits m rec comp := by
    rw [recGetInfoBits_eq, recGetInfoBits_eq]
    cases comp with
    | true => exact congrArg UInt8.toNat (h 5 (by decide) hextra).symm
    | false => exact congrArg UInt8.toNat (h 6 (by decide) hextra).symm
  rw [recGetInfoAndStatusBits, recGetInfoAndStatusBits]
  cases comp with
  | true => rw [if_pos rfl, if_pos rfl, hinfo, h.status hextra]
  | false => rw [if_neg Bool.false_ne_true, if_neg Bool.false_ne_true, hinfo]

theorem info_or_status (x y : Nat) :
    ((x &&& recInfoBitsMask) ||| (y &&& recNewStatusMask)) &&& recNewStatusMask = y &&& recNewStatusMask ∧
      ((x &&& recInfoBitsMask) ||| (y &&& recNewStatusMask)) &&& (2 ^ 64 - 1 - recNewStatusMask) = x &&& recInfoBitsMask := by
  have hinfo : recInfoBitsMask &&& recNewStatusMask = 0 := by decide
  have hstatus : recNewStatusMask &&& (2 ^ 64 - 1 - recNewStatusMask) = 0 := by decide
  have hkeep : recInfoBitsMask &&& (2 ^ 64 - 1 - recNewStatusMask) = recInfoBitsMask := by decide
  refine ⟨?_, ?_⟩
  · rw [Nat.and_or_distrib_right, Nat.and_assoc, hinfo, Nat.and_zero, Nat.zero_or, Nat.and_assoc, Nat.and_self]
  · rw [Nat.and_or_distrib_right, Nat.and_assoc, Nat.and_assoc, hstatus, Nat.and_zero, Nat.or_zero, hkeep]

/-- The bits that were set are read, and the bytes of other fields of the header stay. -/
theorem recSetInfoAndStatusBits_spec {comp : Bool} {bits : Nat} (hbits : bits = recGetInfoAndStatusBits m rec comp) (hrec' : 6 ≤ rec') :
    (∀ p, p ≠ rec' - headerSize comp → (comp = true → p ≠ rec' - 3) → recSetInfoAndStatusBits m' rec' comp bits p = m' p) ∧
      recSetInfoAndStatusBits m' rec' comp bits (rec' - headerSize comp) &&& 0xF0 = m (rec - headerSize comp) &&& 0xF0 ∧
      (comp = true → recSetInfoAndStatusBits m' rec' comp bits (rec' - 3) &&& 0x07 = m (rec - 3) &&& 0x07) := by
  have hself : ∀ x : Nat, (x &&& recInfoBitsMask) &&& recInfoBitsMask = x &&& recInfoBitsMask := fun x => by rw [Nat.and_assoc, Nat.and_self]
  cases comp with
  | false =>
    have hinfo : bits &&& (2 ^ 64 - 1 - recNewStatusMask) = recGetInfoBits m rec false := by
      have hsplit := (info_or_status (m (rec - 6)).toNat 0).2
      rw [Nat.zero_and, Nat.or_zero] at hsplit
      rw [hbits]
      exact hsplit
    have hset : recSetInfoAndStatusBits m' rec' false bits = recSetInfoBits m' rec' false (recGetInfoBits m rec false) := by
      rw [recSetInfoAndStatusBits, hinfo]
      rfl
    rw [hset]
    refine ⟨fun p hp _ => recSetBitField1_of_ne hp, ?_, fun h => absurd h Bool.false_ne_true⟩
    apply UInt8.toNat_inj.1
    rw [← recGetInfoBits_eq, ← recGetInfoBits_eq]
    exact recGetBitField1_set 6 (by decide) (hself _)
  | true =>
    obtain ⟨hstatus, hinfo⟩ := info_or_status (m (rec - 5)).toNat (m (rec - 3)).toNat
    have hset : recSetInfoAndStatusBits m' rec' true bits =
        recSetInfoBits (recSetStatus m' rec' (recGetStatus m rec)) rec' true (recGetInfoBits m rec true) := by
      rw [recSetInfoAndStatusBits, if_pos rfl, hbits]
      exact congrArg₂ (fun status info => recSetInfoBits (recSetStatus m' rec' status) rec' true info) hstatus hinfo
    rw [hset]
    refine ⟨fun p hp hp' => ?_, ?_, fun _ => ?_⟩
    · exact (recSetBitField1_of_ne hp).trans (recSetBitField1_of_ne (hp' rfl))
    · apply UInt8.toNat_inj.1
      rw [← recGetInfoBits_eq, ← recGetInfoBits_eq]
      exact recGetBitField1_set 5 (by decide) (hself _)
    have hbyte : recSetInfoBits (recSetStatus m' rec' (recGetStatus m rec)) rec' true (recGetInfoBits m rec true) (rec' - 3) =
        recSetStatus m' rec' (recGetStatus m rec) (rec' - 3) :=
      recSetBitField1_of_ne (by show rec' - 3 ≠ rec' - 5; omega)
    apply UInt8.toNat_inj.1
    rw [hbyte, ← recGetStatus_eq, ← recGetStatus_eq]
    exact recGetBitField1_set 3 (by decide) (by show ((_ : Nat) &&& 7) &&& 7 = _ &&& 7; rw [Nat.and_assoc, Nat.and_self])

end

/-! ### The record that is built -/

section

variable {mem m₀ m₁ : Nat → UInt8} {comp : Bool} {buf insertRec cursorRec extra curExtra insData curData i : Nat}

/-- What the record is built from: the first `i` bytes are copied from the cursor record of the page before the insert, where they
are the same but for the header. -/
structure Copied (m₀ m₁ : Nat → UInt8) (comp : Bool) (insertRec cursorRec extra curExtra insData curData i : Nat) : Prop where
  le : i ≤ extra + insData
  same : ∀ j, j < i → curExtra = extra ∧ j < curExtra + curData ∧
    ((extra - headerSize comp ≤ j ∧ j < extra) ∨ m₁ (insertRec - extra + j) = m₁ (cursorRec - extra + j))
  before : SameExtra comp m₁ cursorRec m₀ cursorRec curExtra
  data : ∀ p, p < curData → m₀ (cursorRec + p) = m₁ (cursorRec + p)
  old : comp = false → curExtra = extra →
    m₁ (insertRec - 4) &&& 0x07 = m₁ (cursorRec - 4) &&& 0x07 ∧ m₁ (insertRec - 3) = m₁ (cursorRec - 3)
  header : headerSize comp ≤ extra
  ins : extra ≤ insertRec
  cur : curExtra ≤ cursorRec

theorem Copied.byte (h : Copied m₀ m₁ comp insertRec cursorRec extra curExtra insData curData i) {j : Nat} (hj : j < extra + insData) :
    store (store mem buf (fetch m₀ (cursorRec - curExtra) i)) (buf + i) (fetch m₁ (insertRec - extra + i) (extra + insData - i)) (buf + j) =
      if j < i then m₀ (cursorRec - curExtra + j) else m₁ (insertRec - extra + j) := by
  have hle := h.le
  by_cases hlt : j < i
  · rw [if_pos hlt, store_before _ (by omega), store_fetch hlt]
  obtain ⟨t, rfl⟩ : ∃ t, j = i + t := ⟨j - i, by omega⟩
  rw [if_neg hlt, ← add_assoc, store_fetch (by omega), add_assoc]

/-- The bits of the header that are not set again, and not those of a place on a page: the number of fields and the size of
their ends in the old format. -/
theorem recMask_header {d : Nat} (hlt : d < headerSize comp) (hstatus : ¬ (comp = true ∧ d = 3)) :
    recMask comp d = 0 ∨ comp = false ∧ (d = 4 ∨ d = 3) := by
  cases comp with
  | true =>
    have hmask : ∀ d, d < 5 → d ≠ 3 → recMask true d = 0 := by decide
    exact .inl (hmask d hlt fun h => hstatus ⟨rfl, h⟩)
  | false =>
    have hmask : ∀ d, d < 6 → recMask false d = 0 ∨ d = 4 ∨ d = 3 := by decide
    exact (hmask d hlt).imp_right fun h => ⟨rfl, h⟩

theorem Copied.built (h : Copied m₀ m₁ comp insertRec cursorRec extra curExtra insData curData i)
    {bits : Nat} (hbits : bits = recGetInfoAndStatusBits m₁ insertRec comp) (hbuf : 0 < buf) {built : Nat → UInt8}
    (hbuilt : built = recSetInfoAndStatusBits (store (store mem buf (fetch m₀ (cursorRec - curExtra) i)) (buf + i)
      (fetch m₁ (insertRec - extra + i) (extra + insData - i))) (buf + extra) comp bits) :
    SameExtra comp m₁ insertRec built (buf + extra) extra ∧ ∀ p, p < insData → built (buf + extra + p) = m₁ (insertRec + p) := by
  have hheader := h.header
  have hins := h.ins
  have hcur := h.cur
  have hfive : 5 ≤ headerSize comp := by cases comp <;> decide
  obtain ⟨hkeep, hinfo, hstatus⟩ := @recSetInfoAndStatusBits_spec m₁
    (store (store mem buf (fetch m₀ (cursorRec - curExtra) i)) (buf + i) (fetch m₁ (insertRec - extra + i) (extra + insData - i)))
    insertRec (buf + extra) comp bits hbits (by omega)
  rw [← hbuilt] at hkeep hinfo hstatus
  refine ⟨fun d hd hle => ?_, fun p hp => ?_⟩
  · by_cases hdinfo : d = headerSize comp
    · have hmask : recMask comp d = 0xF0 := by
        rw [hdinfo]
        cases comp <;> rfl
      rw [hmask, hdinfo]
      exact hinfo.symm
    by_cases hdstatus : comp = true ∧ d = 3
    · obtain ⟨rfl, rfl⟩ := hdstatus
      exact (hstatus rfl).symm
    have hbyte := @Copied.byte mem m₀ m₁ comp buf insertRec cursorRec extra curExtra insData curData i h (extra - d) (by omega)
    rw [show buf + (extra - d) = buf + extra - d by omega] at hbyte
    rw [hkeep (buf + extra - d) (by omega) (fun hc heq => hdstatus ⟨hc, by omega⟩), hbyte]
    by_cases hlt : extra - d < i
    · -- the byte comes from the cursor record
      obtain ⟨rfl, -, hsame⟩ := h.same (extra - d) hlt
      rw [if_pos hlt, show cursorRec - curExtra + (curExtra - d) = cursorRec - d by omega, ← h.before d hd hle]
      by_cases hd' : d < headerSize comp
      · rcases recMask_header hd' hdstatus with hmask | ⟨rfl, rfl | rfl⟩
        · rw [hmask, UInt8.and_zero, UInt8.and_zero]
        · exact (h.old rfl rfl).1
        rw [(h.old rfl rfl).2]
      have hmatch := hsame.resolve_left (by omega)
      rw [show insertRec - curExtra + (curExtra - d) = insertRec - d by omega,
        show cursorRec - curExtra + (curExtra - d) = cursorRec - d by omega] at hmatch
      rw [hmatch]
    rw [if_neg hlt, show insertRec - extra + (extra - d) = insertRec - d by omega]
  have hbyte := @Copied.byte mem m₀ m₁ comp buf insertRec cursorRec extra curExtra insData curData i h (extra + p) (by omega)
  rw [← add_assoc] at hbyte
  rw [hkeep (buf + extra + p) (by omega) (fun _ => by omega), hbyte]
  by_cases hlt : extra + p < i
  · obtain ⟨hextra, hin, hsame⟩ := h.same (extra + p) hlt
    have hdata := h.data p (by omega)
    rw [if_pos hlt]
    have hmatch := hsame.resolve_left (by omega)
    rw [show cursorRec - curExtra + (extra + p) = cursorRec + p by omega, hdata,
      show insertRec + p = insertRec - extra + (extra + p) by omega, hmatch, show cursorRec - extra + (extra + p) = cursorRec + p by omega]
  rw [if_neg hlt, show insertRec - extra + (extra + p) = insertRec + p by omega]

end

/-! ### Writing and parsing -/

def SameFormat (m : Nat → UInt8) (index : DictIndex) (insertRec cursorRec : Nat) : Prop :=
  index.comp = false → 0 < recGetNFieldsOld m insertRec ∧ (recGetNFieldsOld m cursorRec = recGetNFieldsOld m insertRec ∨
    recGetNFieldsOld m cursorRec = 1 ∧ recGet1byteOffsFlag m cursorRec = true)

section

variable {m₀ m : Nat → UInt8} {index : DictIndex} {page insertRec cursorRec : Nat} {insOffs curOffs : List Nat}

theorem recGet1byteOffsFlag_eq (m : Nat → UInt8) (rec : Nat) : recGet1byteOffsFlag m rec = decide ((m (rec - 3)).toNat % 2 ≠ 0) := by
  rw [recGet1byteOffsFlag, recGetBitField1, machReadFrom1, Nat.shiftRight_zero, Nat.and_one_is_mod]

/-- Old records with equal extra sizes have the same number of fields in their headers, and the same size of their ends. -/
theorem SameFormat.header (h : SameFormat m index insertRec cursorRec) (hcomp : index.comp = false) (hinsRec : 4096 ≤ insertRec)
    (hcurRec : 4096 ≤ cursorRec) (hins : recGetOffsets m insertRec index = some insOffs)
    (hcur : recGetOffsets m cursorRec index = some curOffs) (hextra : recOffsExtraSize curOffs = recOffsExtraSize insOffs) :
    m (insertRec - 4) &&& 0x07 = m (cursorRec - 4) &&& 0x07 ∧ m (insertRec - 3) = m (cursorRec - 3) := by
  rw [recGetOffsets_old hcomp] at hins hcur
  cases hins
  cases hcur
  obtain ⟨hfieldsIns, hleIns⟩ := @oldExtraSize_le m insertRec (by omega)
  obtain ⟨hfieldsCur, hleCur⟩ := @oldExtraSize_le m cursorRec (by omega)
  rw [recOffsExtraSize_old (by omega), recOffsExtraSize_old (by omega), oldExtraSize, oldExtraSize] at hextra
  obtain ⟨hpos, hfields⟩ := h hcomp
  have hflag : recGet1byteOffsFlag m cursorRec = recGet1byteOffsFlag m insertRec ∧
      recGetNFieldsOld m cursorRec = recGetNFieldsOld m insertRec := by
    rcases hfields with heq | ⟨hone, hshort⟩
    · rw [heq] at hextra
      refine ⟨?_, heq⟩
      cases hcurFlag : recGet1byteOffsFlag m cursorRec <;> cases hinsFlag : recGet1byteOffsFlag m insertRec <;>
        simp only [hcurFlag, hinsFlag] at hextra ⊢ <;> simp at hextra <;> omega
    rw [hone, hshort, if_pos rfl] at hextra
    cases hinsFlag : recGet1byteOffsFlag m insertRec with
    | true =>
      rw [hinsFlag, if_pos rfl] at hextra
      exact ⟨hshort, by omega⟩
    | false =>
      rw [hinsFlag, if_neg Bool.false_ne_true] at hextra
      omega
  obtain ⟨hparity, hcount⟩ := hflag
  rw [recGet1byteOffsFlag_eq, recGet1byteOffsFlag_eq, decide_eq_decide] at hparity
  rw [recGetNFieldsOld_eq (by omega), recGetNFieldsOld_eq (by omega)] at hcount
  have hseven : ∀ rec, (m (rec - 4) &&& 0x07).toNat ≤ 7 := fun rec => by
    rw [UInt8.toNat_and]
    exact Nat.and_le_right
  have hinsByte := UInt8.toNat_lt (m (insertRec - 3))
  have hcurByte := UInt8.toNat_lt (m (cursorRec - 3))
  exact ⟨UInt8.toNat_inj.1 (by omega), UInt8.toNat_inj.1 (by omega)⟩

/-- A record was inserted behind the cursor record: `m₀` is the page before and `m` the page after it, where the cursor record has
changed in the fields of its place only. -/
structure Insertion (index : DictIndex) (m₀ m : Nat → UInt8) (page insertRec cursorRec : Nat) (insOffs curOffs : List Nat) : Prop where
  frame : univPageSize ≤ page
  cursor : page ≤ cursorRec ∧ cursorRec < page + univPageSize
  inserted : page ≤ insertRec
  insOffsets : recGetOffsets m insertRec index = some insOffs
  curOffsets : recGetOffsets m cursorRec index = some curOffs
  size : recOffsSize insOffs < univPageSize
  format : SameFormat m index insertRec cursorRec
  before : SameExtra index.comp m cursorRec m₀ cursorRec (recOffsExtraSize curOffs)
  data : ∀ p, p < recOffsDataSize curOffs → m₀ (cursorRec + p) = m (cursorRec + p)

/-- The parts of the log body of an inserted record, of which `i` bytes come from the cursor record. -/
structure Logged (index : DictIndex) (m : Nat → UInt8) (page insertRec cursorRec : Nat) (insOffs curOffs : List Nat) (isShort : Bool)
    (i : Nat) (body : LogBody) : Prop where
  offset : body.offset = if isShort then 0 else cursorRec - page
  endSeg : body.endSeg = fetch m (insertRec - recOffsExtraSize insOffs + i) (recOffsSize insOffs - i)
  le : i ≤ recOffsSize insOffs
  same : ∀ j, j < i → recOffsExtraSize curOffs = recOffsExtraSize insOffs ∧ j < recOffsSize curOffs ∧
    ((recOffsExtraSize insOffs - headerSize index.comp ≤ j ∧ j < recOffsExtraSize insOffs) ∨
      m (insertRec - recOffsExtraSize insOffs + j) = m (cursorRec - recOffsExtraSize insOffs + j))
  info : body.extraInfo = some ⟨recGetInfoAndStatusBits m insertRec index.comp, recOffsExtraSize insOffs, i⟩ ∨
    body.extraInfo = none ∧ recGetInfoAndStatusBits m insertRec index.comp = recGetInfoAndStatusBits m cursorRec index.comp ∧
      recOffsExtraSize insOffs = recOffsExtraSize curOffs ∧ recOffsSize insOffs = recOffsSize curOffs

section

variable (h : Insertion index m₀ m page insertRec cursorRec insOffs curOffs)
include h

theorem pageCurInsertRecWriteLog_spec (isShort : Bool) :
    ∃ i body, pageCurInsertRecWriteLog m page insertRec (recOffsSize insOffs) cursorRec index isShort = some (LogBody.code body isShort) ∧
      Logged index m page insertRec cursorRec insOffs curOffs isShort i body := by
  have hframe : 4096 ≤ page := h.frame
  have hinsRec := hframe.trans h.inserted
  have hcurRec := hframe.trans h.cursor.1
  have hins := h.insOffsets
  have hcur := h.curOffsets
  have hsize := h.size
  have hcurExtra := recGetOffsets_extraSize hcur hcurRec
  have hinsSize : recOffsSize insOffs = recOffsDataSize insOffs + recOffsExtraSize insOffs := rfl
  have hcurSize : recOffsSize curOffs = recOffsDataSize curOffs + recOffsExtraSize curOffs := rfl
  obtain ⟨i, hmismatch, hle, hsame⟩ : ∃ i, (if recOffsExtraSize curOffs = recOffsExtraSize insOffs then
        mismatchLoop m index.comp insertRec cursorRec (recOffsExtraSize insOffs) (min (recOffsSize curOffs) (recOffsSize insOffs))
          (min (recOffsSize curOffs) (recOffsSize insOffs)) 0 (insertRec - recOffsExtraSize insOffs) (cursorRec - recOffsExtraSize curOffs)
      else (0, insertRec - recOffsExtraSize insOffs)) = (i, insertRec - recOffsExtraSize insOffs + i) ∧ i ≤ recOffsSize insOffs ∧
      ∀ j, j < i → recOffsExtraSize curOffs = recOffsExtraSize insOffs ∧ j < recOffsSize curOffs ∧
        ((recOffsExtraSize insOffs - headerSize index.comp ≤ j ∧ j < recOffsExtraSize insOffs) ∨
          m (insertRec - recOffsExtraSize insOffs + j) = m (cursorRec - recOffsExtraSize insOffs + j)) := by
    by_cases hextra : recOffsExtraSize curOffs = recOffsExtraSize insOffs
    · obtain ⟨i, hloop, hmatch, -⟩ := @mismatchLoop_spec m index.comp insertRec cursorRec (recOffsExtraSize insOffs)
        (min (recOffsSize curOffs) (recOffsSize insOffs)) (min (recOffsSize curOffs) (recOffsSize insOffs)) 0 (by omega)
          (by omega) (by omega)
        ⟨Nat.zero_le _, fun j hj => absurd hj (Nat.not_lt_zero j)⟩ (by omega)
      have hmin := hmatch.le
      rw [add_zero, add_zero] at hloop
      rw [if_pos hextra]
      refine ⟨i, ?_, by omega, fun j hj => ⟨hextra, by omega, hmatch.same j hj⟩⟩
      rw [hextra]
      exact hloop
    exact ⟨0, if_neg hextra, Nat.zero_le _, fun j hj => absurd hj (Nat.not_lt_zero j)⟩
  have hlength : (fetch m (insertRec - recOffsExtraSize insOffs + i) (recOffsSize insOffs - i)).length = recOffsSize insOffs - i :=
    length_fetch _ _ _
  by_cases hinfo : recGetInfoAndStatusBits m insertRec index.comp ≠ recGetInfoAndStatusBits m cursorRec index.comp ∨
      recOffsExtraSize insOffs ≠ recOffsExtraSize curOffs ∨ recOffsSize insOffs ≠ recOffsSize curOffs
  · refine ⟨i, ⟨if isShort then 0 else cursorRec - page, some ⟨recGetInfoAndStatusBits m insertRec index.comp, recOffsExtraSize insOffs, i⟩,
      fetch m (insertRec - recOffsExtraSize insOffs + i) (recOffsSize insOffs - i)⟩, ?_, ⟨rfl, rfl, hle, hsame, .inl rfl⟩⟩
    rw [pageCurInsertRecWriteLog, hcur, hins]
    simp only [guard, if_pos hsize, hmismatch, Option.bind_eq_bind, Option.bind_some, Option.pure_def, if_pos hinfo, LogBody.code, hlength]
    rw [if_pos fun _ => ⟨by omega, by omega⟩, Option.bind_some, append_assoc, append_assoc]
    cases isShort <;> rfl
  have hequal : recGetInfoAndStatusBits m insertRec index.comp = recGetInfoAndStatusBits m cursorRec index.comp ∧
      recOffsExtraSize insOffs = recOffsExtraSize curOffs ∧ recOffsSize insOffs = recOffsSize curOffs := by
    rw [not_or, not_or, not_not, not_not, not_not] at hinfo
    exact hinfo
  refine ⟨i, ⟨if isShort then 0 else cursorRec - page, none,
    fetch m (insertRec - recOffsExtraSize insOffs + i) (recOffsSize insOffs - i)⟩, ?_, ⟨rfl, rfl, hle, hsame, .inr ⟨rfl, hequal⟩⟩⟩
  rw [pageCurInsertRecWriteLog, hcur, hins]
  simp only [guard, if_pos hsize, hmismatch, Option.bind_eq_bind, Option.bind_some, Option.pure_def, if_neg hinfo, LogBody.code, hlength]
  rw [if_pos fun h => absurd h hinfo, Option.bind_some, append_assoc, append_assoc]
  cases isShort <;> rfl

theorem Insertion.curOffsets_before : recGetOffsets m₀ cursorRec index = some curOffs := by
  have hframe : 4096 ≤ page := h.frame
  have hcurRec := hframe.trans h.cursor.1
  have hextra := recGetOffsets_extraSize h.curOffsets hcurRec
  refine recGetOffsets_congr h.curOffsets hcurRec (fun hcomp => ?_) (by omega) h.before
  obtain ⟨hpos, heq | ⟨hone, -⟩⟩ := h.format hcomp
  · rwa [heq]
  rw [hone]
  exact Nat.one_pos

end

variable {isShort : Bool} {body : LogBody}

section

variable (h : Insertion index m₀ m page insertRec cursorRec insOffs curOffs)
include h

theorem Logged.copied {i : Nat} (hlog : Logged index m page insertRec cursorRec insOffs curOffs isShort i body) :
    Copied m₀ m index.comp insertRec cursorRec (recOffsExtraSize insOffs) (recOffsExtraSize curOffs) (recOffsDataSize insOffs)
      (recOffsDataSize curOffs) i := by
  have hframe : 4096 ≤ page := h.frame
  have hinsRec := hframe.trans h.inserted
  have hcurRec := hframe.trans h.cursor.1
  have hinsExtra := recGetOffsets_extraSize h.insOffsets hinsRec
  have hcurExtra := recGetOffsets_extraSize h.curOffsets hcurRec
  have hle := hlog.le
  have hinsSize : recOffsSize insOffs = recOffsDataSize insOffs + recOffsExtraSize insOffs := rfl
  have hcurSize : recOffsSize curOffs = recOffsDataSize curOffs + recOffsExtraSize curOffs := rfl
  refine ⟨by omega, fun j hj => ?_, h.before, h.data, fun hcomp hextra => ?_, hinsExtra.1, by omega, by omega⟩
  · obtain ⟨hextra, hlt, hsame⟩ := hlog.same j hj
    exact ⟨hextra, by omega, hsame⟩
  exact h.format.header hcomp hinsRec hcurRec h.insOffsets h.curOffsets hextra

/-- The record that is built from what was written, and from the page before the insert. -/
theorem buildRec_spec {lastRec i buf : Nat}
    (hlog : Logged index m page insertRec cursorRec insOffs curOffs isShort i body) (hlast : isShort = true → lastRec = cursorRec)
    (mem : Nat → UInt8) (hbuf : 0 < buf) :
    ∃ built, buildRec ⟨m₀, page, lastRec⟩ index isShort body mem buf = .ok built ∧ built.cursorRec = cursorRec ∧
      built.origin = buf + recOffsExtraSize insOffs ∧ built.offsets = insOffs ∧
      SameExtra index.comp m insertRec built.mem built.origin (recOffsExtraSize insOffs) ∧
      ∀ p, p < recOffsDataSize insOffs → built.mem (built.origin + p) = m (insertRec + p) := by
  have hframe : 4096 ≤ page := h.frame
  have hinsRec := hframe.trans h.inserted
  have hsize : recOffsSize insOffs < 4096 := h.size
  have hle := hlog.le
  have hinsSize : recOffsSize insOffs = recOffsDataSize insOffs + recOffsExtraSize insOffs := rfl
  have hcursor : (if isShort then lastRec else page + body.offset) = cursorRec := by
    rw [hlog.offset]
    cases isShort with
    | true => exact hlast rfl
    | false => exact Nat.add_sub_cancel' h.cursor.1
  have hinfo : body.extraInfo.getD ⟨recGetInfoAndStatusBits m₀ cursorRec index.comp, recOffsExtraSize curOffs,
      (recOffsSize curOffs + 2 ^ 64 - body.endSeg.length) % 2 ^ 64⟩ =
      ⟨recGetInfoAndStatusBits m insertRec index.comp, recOffsExtraSize insOffs, i⟩ := by
    rcases hlog.info with hsome | ⟨hnone, hbits, hextra, hsizes⟩
    · rw [hsome, Option.getD_some]
    have hbefore := recGetInfoAndStatusBits_congr h.before (recGetOffsets_extraSize h.curOffsets (hframe.trans h.cursor.1)).1
    have hindex : (recOffsSize curOffs + 2 ^ 64 - (recOffsSize insOffs - i)) % 2 ^ 64 = i := by omega
    rw [hnone, Option.getD_none, hlog.endSeg, length_fetch, hindex, hbefore, ← hbits, ← hextra]
  obtain ⟨built, hbuilt⟩ : ∃ built, built = recSetInfoAndStatusBits
      (store (store mem buf (fetch m₀ (cursorRec - recOffsExtraSize curOffs) i)) (buf + i) body.endSeg)
      (buf + recOffsExtraSize insOffs) index.comp (recGetInfoAndStatusBits m insertRec index.comp) := ⟨_, rfl⟩
  have hsegment := hlog.endSeg
  rw [hinsSize, add_comm (recOffsDataSize insOffs)] at hsegment
  have hbuilt' := hbuilt
  rw [hsegment] at hbuilt'
  have hcopied := (hlog.copied h).built rfl hbuf hbuilt'
  have hoffsets : recGetOffsets built (buf + recOffsExtraSize insOffs) index = some insOffs :=
    recGetOffsets_congr h.insOffsets hinsRec (fun hcomp => (h.format hcomp).1) (by omega) hcopied.1
  refine ⟨⟨cursorRec, built, buf + recOffsExtraSize insOffs, insOffs⟩, ?_, rfl, rfl, rfl, hcopied.1, hcopied.2⟩
  rw [buildRec]
  rw [hcursor, h.curOffsets_before]
  dsimp only
  rw [hinfo]
  rw [if_neg (Nat.not_le.2 (hle.trans_lt h.size)), ← hbuilt, hoffsets]

end

theorem recGetInfoAndStatusBits_lt (m : Nat → UInt8) (rec : Nat) (comp : Bool) : recGetInfoAndStatusBits m rec comp < 256 := by
  have hinfo : ∀ comp, recGetInfoBits m rec comp < 2 ^ 8 := fun comp => by
    rw [recGetInfoBits_eq]
    exact UInt8.toNat_lt _
  have hstatus : recGetStatus m rec < 2 ^ 8 := by
    rw [recGetStatus_eq]
    exact UInt8.toNat_lt _
  rw [recGetInfoAndStatusBits]
  split_ifs
  · exact Nat.or_lt_two_pow (hinfo true) hstatus
  · exact hinfo false

theorem Logged.reads {i : Nat} (h : Insertion index m₀ m page insertRec cursorRec insOffs curOffs)
    (hlog : Logged index m page insertRec cursorRec insOffs curOffs isShort i body) :
    Reads (.null false) (parseLog isShort) (body.code isShort) body := by
  have hcursor := h.cursor
  have hsize := h.size
  have hle := hlog.le
  have hinsSize : recOffsSize insOffs = recOffsDataSize insOffs + recOffsExtraSize insOffs := rfl
  apply reads_log
  · rw [hlog.offset]
    split_ifs
    · decide
    · omega
  · intro hshort
    rw [hlog.offset, if_pos hshort]
  · rw [hlog.endSeg, length_fetch]
    omega
  intro info hinfo
  rcases hlog.info with hsome | ⟨hnone, -⟩
  · cases hsome.symm.trans hinfo
    have hextra : recOffsExtraSize insOffs < univPageSize := by omega
    exact ⟨recGetInfoAndStatusBits_lt _ _ _, hextra, hle.trans_lt hsize⟩
  cases hnone.symm.trans hinfo

/-- The replay of an insert builds the inserted record, but for the fields of its place, reads exactly what was written, and
returns `NULL` on every part of it. -/
theorem pageCurParseInsertRec_writeLog (h : Insertion index m₀ m page insertRec cursorRec insOffs curOffs) (isShort : Bool) {lastRec : Nat}
    (hlast : isShort = true → lastRec = cursorRec) :
    ∃ body, pageCurInsertRecWriteLog m page insertRec (recOffsSize insOffs) cursorRec index isShort = some body ∧
      (∀ rest mem buf, 0 < buf → ∃ built,
        pageCurParseInsertRec isShort (body ++ rest) index (some ⟨m₀, page, lastRec⟩) mem buf = .ok (rest, some built) ∧
          built.cursorRec = cursorRec ∧ built.origin = buf + recOffsExtraSize insOffs ∧ built.offsets = insOffs ∧
          SameExtra index.comp m insertRec built.mem built.origin (recOffsExtraSize insOffs) ∧
          ∀ p, p < recOffsDataSize insOffs → built.mem (built.origin + p) = m (insertRec + p)) ∧
      ∀ part more frame mem buf, body = part ++ more → more ≠ [] →
        pageCurParseInsertRec isShort part index frame mem buf = .error (.null false) := by
  obtain ⟨i, body, hwrite, hlog⟩ := pageCurInsertRecWriteLog_spec h isShort
  have hreads := hlog.reads h
  refine ⟨body.code isShort, hwrite, fun rest mem buf hbuf => ?_, fun part more frame mem buf hpart hmore => ?_⟩
  · obtain ⟨built, hbuild, hbuilt⟩ := buildRec_spec h hlog hlast mem hbuf
    refine ⟨built, ?_, hbuilt⟩
    rw [pageCurParseInsertRec, hreads.whole]
    show (buildRec ⟨m₀, page, lastRec⟩ index isShort body mem buf >>= fun built => Except.ok (rest, some built)) = _
    rw [hbuild]
    rfl
  · rw [pageCurParseInsertRec, hreads.short part more hpart hmore]
    rfl

end

def oneKey : DictIndex where
  comp := true
  clustered := true
  nUniq := 1
  nNullable := 0
  fields := [⟨⟨6, 256, 4⟩, 4⟩]
  nullable_eq := rfl
  uniq_le := by decide
  length_lt := by decide

theorem pageCurParseInsertRec_writeLog_oneKey :
    ∃ body, pageCurInsertRecWriteLog (fun p => if p = 5103 then 7 else 0) 4096 5100 9 5000 oneKey false = some body ∧
      ∃ built, pageCurParseInsertRec false (body ++ [1]) oneKey (some ⟨fun _ => 0, 4096, 0⟩) (fun _ => 255) 1 =
        .ok ([1], some built) ∧ built.mem (built.origin + 3) = 7 := by
  have hinsertion : Insertion oneKey (fun _ => 0) (fun p => if p = 5103 then 7 else 0) 4096 5100 5000
      [5 ||| recOffsCompact, 4] [5 ||| recOffsCompact, 4] := by
    refine ⟨by decide, by decide, by decide, by decide, by decide, by decide, fun h => absurd h (by decide), fun d hd hle => ?_,
      fun p hp => ?_⟩
    · have hle' : d ≤ 5 := hle
      rw [if_neg (by omega)]
    · have hp' : p < 4 := hp
      exact (if_neg (by omega)).symm
  obtain ⟨body, hwrite, hparse, -⟩ := @pageCurParseInsertRec_writeLog _ _ _ _ _ _ _ _ hinsertion false 0 fun h => absurd h (by decide)
  obtain ⟨built, hbuilt, -, -, -, -, hdata⟩ := hparse [1] (fun _ => 255) 1 (by decide)
  exact ⟨body, hwrite, built, hbuilt, hdata 3 (by decide)⟩

end Mysql51.Innodb
