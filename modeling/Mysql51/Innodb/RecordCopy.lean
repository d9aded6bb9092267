import Mysql51.Innodb.InsertLog
import Mysql51.Innodb.RecordFields

/-!
# Copies of records

Two records that agree before their origins have the same offsets, wherever they are. The fields of the header that belong to
the place of a record on its page may differ: the number of records it owns, its number in the heap and the pointer to the next
record.
-/

namespace Mysql51.Innodb

open Machine Memory Option List

variable {m m' : Nat → UInt8} {rec rec' : Nat}

/-- The bits of the byte `d` before the origin that do not depend on the place of the record on its page. -/
def recMask (comp : Bool) (d : Nat) : UInt8 :=
  if comp then if d = 5 then 0xF0 else if d = 3 then 0x07 else if d ≤ 4 then 0 else 0xFF
  else if d = 6 then 0xF0 else if d = 4 then 0x07 else if d = 3 then 0xFF else if d ≤ 5 then 0 else 0xFF

/-- The `extra` bytes before the origins agree, but for the place of the records. -/
def SameExtra (comp : Bool) (m : Nat → UInt8) (rec : Nat) (m' : Nat → UInt8) (rec' extra : Nat) : Prop :=
  ∀ d, 0 < d → d ≤ extra → m (rec - d) &&& recMask comp d = m' (rec' - d) &&& recMask comp d

theorem and_full (b : UInt8) : b &&& 0xFF = b := by
  apply UInt8.toNat_inj.1
  rw [UInt8.toNat_and]
  exact (Nat.and_two_pow_sub_one_eq_mod _ 8).trans (Nat.mod_eq_of_lt (UInt8.toNat_lt b))

variable {extra len i n : Nat} {c c₁ : OffsCursor} {nNodePtrField : Option Nat} {ends : List Nat}

theorem SameExtra.byte {comp : Bool} {extra d : Nat} (h : SameExtra comp m rec m' rec' extra) (hd : headerSize comp < d)
    (hle : d ≤ extra) : m (rec - d) = m' (rec' - d) := by
  have hmask : recMask comp d = 0xFF := by
    cases comp with
    | true =>
      have hd' : 5 < d := hd
      rw [recMask, if_pos rfl, if_neg (by omega), if_neg (by omega), if_neg (by omega)]
    | false =>
      have hd' : 6 < d := hd
      rw [recMask, if_neg Bool.false_ne_true, if_neg (by omega), if_neg (by omega), if_neg (by omega), if_neg (by omega)]
  have hbyte := h d (by omega) hle
  rwa [hmask, and_full, and_full] at hbyte

/-! ### The compact format -/

structure SameCursor (rec rec' : Nat) (c c' : OffsCursor) : Prop where
  nulls : c'.nulls + rec = c.nulls + rec'
  lens : c'.lens + rec = c.lens + rec'
  offs : c'.offs = c.offs
  nullMask : c'.nullMask = c.nullMask

theorem initFieldLength_lens (field : DictField) (c : OffsCursor) :
    (initFieldLength m field c).2.lens ≤ c.lens ∧ c.lens ≤ (initFieldLength m field c).2.lens + 2 := by
  rw [initFieldLength]
  by_cases hfixed : field.fixedLen = 0
  · rw [if_pos hfixed]
    dsimp only
    split
    · show c.lens - 2 ≤ c.lens ∧ c.lens ≤ c.lens - 2 + 2
      omega
    show c.lens - 1 ≤ c.lens ∧ c.lens ≤ c.lens - 1 + 2
    omega
  rw [if_neg hfixed]
  exact ⟨le_rfl, Nat.le_add_right _ _⟩

theorem initFieldLength_congr {field : DictField} {c' : OffsCursor} (hstep : initFieldLength m field c = (len, c₁))
    (hsame : SameCursor rec rec' c c') (hroom : 2 ≤ c.lens) (hroom' : rec ≤ c₁.lens + rec')
    (hmem : ∀ p p', p + rec' = p' + rec → c₁.lens < p → p ≤ c.lens → m p = m' p') :
    ∃ c₁', initFieldLength m' field c' = (len, c₁') ∧ SameCursor rec rec' c₁ c₁' := by
  obtain rfl : (initFieldLength m field c).1 = len := by rw [hstep]
  obtain rfl : (initFieldLength m field c).2 = c₁ := by rw [hstep]
  suffices hboth : (initFieldLength m' field c').1 = (initFieldLength m field c).1 ∧
      SameCursor rec rec' (initFieldLength m field c).2 (initFieldLength m' field c').2 from
    ⟨(initFieldLength m' field c').2, Prod.ext hboth.1 rfl, hboth.2⟩
  clear hstep
  have hlens := hsame.lens
  have hoffs := hsame.offs
  rw [initFieldLength] at hroom' hmem ⊢
  rw [initFieldLength]
  by_cases hfixed : field.fixedLen = 0
  · rw [if_pos hfixed] at hroom' hmem ⊢
    rw [if_pos hfixed]
    dsimp only at hroom' hmem ⊢
    by_cases hlong : (field.col.len > 255 ∨ field.col.mtype = dataBlob) ∧ machReadFrom1 m c.lens &&& 0x80 ≠ 0
    · rw [if_pos hlong] at hroom' hmem ⊢
      dsimp only at hroom' hmem
      have hfirst : machReadFrom1 m' c'.lens = machReadFrom1 m c.lens :=
        congrArg UInt8.toNat (hmem c.lens c'.lens (by omega) (by omega) le_rfl).symm
      have hsecond : machReadFrom1 m' (c'.lens - 1) = machReadFrom1 m (c.lens - 1) :=
        congrArg UInt8.toNat (hmem (c.lens - 1) (c'.lens - 1) (by omega) (by omega) (by omega)).symm
      rw [hfirst, if_pos hlong, hsecond, hoffs]
      refine ⟨rfl, hsame.nulls, ?_, rfl, hsame.nullMask⟩
      show c'.lens - 2 + rec = c.lens - 2 + rec'
      omega
    rw [if_neg hlong] at hroom' hmem ⊢
    dsimp only at hroom' hmem
    have hfirst : machReadFrom1 m' c'.lens = machReadFrom1 m c.lens :=
      congrArg UInt8.toNat (hmem c.lens c'.lens (by omega) (by omega) le_rfl).symm
    rw [hfirst, if_neg hlong, hoffs]
    refine ⟨rfl, hsame.nulls, ?_, rfl, hsame.nullMask⟩
    show c'.lens - 1 + rec = c.lens - 1 + rec'
    omega
  rw [if_neg hfixed, if_neg hfixed, hoffs]
  exact ⟨rfl, hsame.nulls, hlens, rfl, hsame.nullMask⟩

variable {index : DictIndex} {offsets : List Nat}

theorem initField_lens (h : initField m index nNodePtrField i c = some (len, c₁)) : c₁.lens ≤ c.lens ∧ c.lens ≤ c₁.lens + 2 := by
  rw [initField] at h
  by_cases hnode : nNodePtrField = some i
  · rw [if_pos hnode] at h
    cases h
    exact ⟨le_rfl, Nat.le_add_right _ _⟩
  rw [if_neg hnode] at h
  obtain ⟨field, -, h⟩ := bind_eq_some_iff.1 h
  dsimp only at h
  split_ifs at h
  · cases h
    exact ⟨le_rfl, Nat.le_add_right _ _⟩
  all_goals
    have hc₁ := congrArg (fun r : Nat × OffsCursor => r.2.lens) (Option.some.inj h)
    rw [← hc₁]
    exact initFieldLength_lens field _

theorem initFields_lens {low : Nat} (h : initFields m index nNodePtrField n i c = some (ends, low)) :
    low ≤ c.lens ∧ c.lens ≤ low + 2 * n := by
  induction n generalizing i c ends with
  | zero =>
    cases h
    exact ⟨le_rfl, le_rfl⟩
  | succ n ih =>
    obtain ⟨⟨len, c₁⟩, hfield, h⟩ := bind_eq_some_iff.1 h
    obtain ⟨⟨ends₁, low₁⟩, hrest, h⟩ := bind_eq_some_iff.1 h
    cases h
    have hstep := initField_lens hfield
    have hloop := ih hrest
    omega

theorem nextNull_congr {nulls nulls' nullMask base k : Nat} (hnull : NullAt base k nulls nullMask) (hpos : 0 < base - k / 8)
    (hpos' : rec < base - k / 8 + rec') (hsame : nulls' + rec = nulls + rec') :
    ∃ p', nextNull nulls' nullMask = (p', 2 ^ (k % 8)) ∧ p' + rec = base - k / 8 + rec' := by
  rw [NullAt, nextNull] at hnull
  rw [nextNull]
  split_ifs at hnull ⊢ with hmask
  · have hp := congrArg Prod.fst hnull
    exact ⟨nulls' - 1, congrArg (Prod.mk _) (congrArg Prod.snd hnull), by omega⟩
  have hp := congrArg Prod.fst hnull
  exact ⟨nulls', congrArg (Prod.mk _) (congrArg Prod.snd hnull), by omega⟩

theorem initField_congr {index : DictIndex} {nNodePtrField : Option Nat} {i len base k : Nat} {c c' c₁ : OffsCursor}
    (h : initField m index nNodePtrField i c = some (len, c₁)) (hsame : SameCursor rec rec' c c')
    (hnull : NullAt base k c.nulls c.nullMask) (hk : ∀ field, index.fields[i]? = some field → field.col.nullable = true →
      c.lens < base - k / 8) (hroom : 2 ≤ c.lens) (hroom' : rec ≤ c₁.lens + rec') (hbase : c.lens ≤ base)
    (hmem : ∀ p p', p + rec' = p' + rec → c₁.lens < p → p ≤ base → m p = m' p') :
    ∃ c₁', initField m' index nNodePtrField i c' = some (len, c₁') ∧ SameCursor rec rec' c₁ c₁' := by
  have hlens := initField_lens h
  rw [initField] at h ⊢
  by_cases hnode : nNodePtrField = some i
  · rw [if_pos hnode] at h ⊢
    cases h
    rw [hsame.offs]
    exact ⟨_, rfl, hsame.nulls, hsame.lens, rfl, hsame.nullMask⟩
  rw [if_neg hnode] at h ⊢
  obtain ⟨field, hget, h⟩ := bind_eq_some_iff.1 h
  rw [hget, some_bind_eq]
  by_cases hcol : field.col.nullable = true
  · have hat := hk field hget hcol
    rw [if_pos hcol] at h ⊢
    obtain ⟨p', hnext, hp'⟩ := nextNull_congr hnull (by omega) (by omega) hsame.nulls
    rw [hsame.nullMask, hnext]
    rw [hnull] at h
    dsimp only at h ⊢
    have hbyte : machReadFrom1 m' p' = machReadFrom1 m (base - k / 8) :=
      congrArg UInt8.toNat (hmem (base - k / 8) p' (by omega) (by omega) (by omega)).symm
    rw [hbyte]
    have hnext : SameCursor rec rec' ⟨base - k / 8, c.lens, c.offs, 2 ^ (k % 8) <<< 1⟩
        ⟨p', c'.lens, c'.offs, 2 ^ (k % 8) <<< 1⟩ := ⟨hp', hsame.lens, hsame.offs, rfl⟩
    split_ifs at h ⊢
    · cases h
      rw [hsame.offs]
      exact ⟨_, rfl, hp', hsame.lens, rfl, rfl⟩
    obtain ⟨c₁', hread, hsame₁⟩ := initFieldLength_congr (Option.some.inj h) hnext hroom hroom'
      fun q q' hq hlow hle => hmem q q' hq hlow (le_trans hle hbase)
    exact ⟨c₁', congrArg some hread, hsame₁⟩
  rw [if_neg hcol] at h ⊢
  obtain ⟨c₁', hread, hsame₁⟩ := initFieldLength_congr (Option.some.inj h) hsame hroom hroom'
    fun q q' hq hlow hle => hmem q q' hq hlow (le_trans hle hbase)
  exact ⟨c₁', congrArg some hread, hsame₁⟩

theorem initField_null {base k : Nat} (h : initField m index nNodePtrField i c = some (len, c₁))
    (hnull : NullAt base k c.nulls c.nullMask) : ∃ k₁, NullAt base k₁ c₁.nulls c₁.nullMask ∧
      k₁ + (index.fields.drop (i + 1)).countP (·.col.nullable) ≤ k + (index.fields.drop i).countP (·.col.nullable) := by
  rw [initField] at h
  by_cases hnode : nNodePtrField = some i
  · rw [if_pos hnode] at h
    cases h
    refine ⟨k, hnull, Nat.add_le_add_left ?_ k⟩
    exact List.Sublist.countP_le (drop_sublist_drop_left _ (Nat.le_succ i))
  rw [if_neg hnode] at h
  obtain ⟨field, hget, h⟩ := bind_eq_some_iff.1 h
  obtain ⟨hi, hfield⟩ := List.getElem?_eq_some_iff.1 hget
  rw [drop_eq_getElem_cons hi, countP_cons, hfield]
  have hkeep : ∀ cc : OffsCursor, (initFieldLength m field cc).2.nulls = cc.nulls ∧
      (initFieldLength m field cc).2.nullMask = cc.nullMask := by
    intro cc
    rw [initFieldLength]
    by_cases hfixed : field.fixedLen = 0
    · rw [if_pos hfixed]
      dsimp only
      split <;> exact ⟨rfl, rfl⟩
    rw [if_neg hfixed]
    exact ⟨rfl, rfl⟩
  by_cases hcol : field.col.nullable = true
  · rw [if_pos hcol, hnull] at h
    rw [if_pos hcol]
    dsimp only at h
    refine ⟨k + 1, ?_, by omega⟩
    split_ifs at h
    · cases h
      exact nullAt_succ base k
    have hc₁ := congrArg Prod.snd (Option.some.inj h)
    dsimp only at hc₁
    rw [← hc₁, (hkeep _).1, (hkeep _).2]
    exact nullAt_succ base k
  rw [if_neg hcol] at h
  rw [if_neg hcol]
  have hc₁ := congrArg Prod.snd (Option.some.inj h)
  dsimp only at hc₁
  refine ⟨k, ?_, by omega⟩
  rw [← hc₁, (hkeep _).1, (hkeep _).2]
  exact hnull

/-- All fields are read alike, if the memory below `base` agrees down to where the lengths end. -/
theorem initFields_congr {index : DictIndex} {nNodePtrField : Option Nat} {n i low base nb k : Nat} {c c' : OffsCursor} {ends : List Nat}
    (h : initFields m index nNodePtrField n i c = some (ends, low)) (hsame : SameCursor rec rec' c c')
    (hnull : NullAt base k c.nulls c.nullMask) (hk : k + (index.fields.drop i).countP (·.col.nullable) ≤ 8 * nb)
    (hbase : c.lens + nb ≤ base) (hroom : 2 * n ≤ c.lens) (hroom' : rec ≤ low + rec')
    (hmem : ∀ p p', p + rec' = p' + rec → low < p → p ≤ base → m p = m' p') :
    ∃ low', initFields m' index nNodePtrField n i c' = some (ends, low') ∧ low' + rec = low + rec' := by
  induction n generalizing i c c' ends k with
  | zero =>
    cases h
    exact ⟨c'.lens, rfl, hsame.lens⟩
  | succ n ih =>
    obtain ⟨⟨len, c₁⟩, hfield, h⟩ := bind_eq_some_iff.1 h
    obtain ⟨⟨ends₁, low₁⟩, hrest, h⟩ := bind_eq_some_iff.1 h
    cases h
    have hstep := initField_lens hfield
    have hloop := initFields_lens hrest
    obtain ⟨k₁, hnull₁, hk₁⟩ := initField_null hfield hnull
    have hbit : ∀ field, index.fields[i]? = some field → field.col.nullable = true → c.lens < base - k / 8 := by
      intro field hget hcol
      obtain ⟨hi, hfield⟩ := List.getElem?_eq_some_iff.1 hget
      rw [drop_eq_getElem_cons hi, countP_cons, hfield, if_pos hcol] at hk
      omega
    obtain ⟨c₁', hread, hsame₁⟩ := @initField_congr m m' rec rec' index nNodePtrField i len base k c c' c₁ hfield hsame hnull hbit
      (by omega) (by omega) (by omega) fun p p' hp hlow hle => hmem p p' hp (by omega) hle
    obtain ⟨low', hreads, hlow'⟩ := ih hrest hsame₁ hnull₁ (by omega) (by omega) (by omega)
    refine ⟨low', ?_, hlow'⟩
    rw [initFields, hread, some_bind_eq]
    dsimp only
    rw [hreads]
    rfl

/-! ### Both formats -/

theorem utBitsInBytes_le (index : DictIndex) : utBitsInBytes index.nNullable ≤ 128 ∧ index.nNullable ≤ 8 * utBitsInBytes index.nNullable := by
  have hcount := index.nullable_eq
  have hle := @List.countP_le_length _ (fun field : DictField => field.col.nullable) index.fields
  have hlt := index.length_lt
  rw [utBitsInBytes]
  omega

theorem dictIndexGetNUniqueInTree_le (index : DictIndex) : dictIndexGetNUniqueInTree index ≤ index.fields.length := by
  rw [dictIndexGetNUniqueInTree]
  split_ifs
  · exact index.uniq_le
  · exact le_rfl

theorem recOffsExtraSize_compact (h : extra < 2 ^ 31) : recOffsExtraSize ((extra ||| recOffsCompact) :: ends) = extra :=
  or_and_mask (i := 31) h (by decide) (by decide)

theorem SameExtra.status (h : SameExtra true m rec m' rec' extra) (hextra : 5 ≤ extra) :
    recGetStatus m' rec' = recGetStatus m rec :=
  congrArg (fun b : UInt8 => b.toNat >>> 0) (h 3 (by decide) (by omega)).symm

theorem recInitOffsets_congr {low : Nat} (hn : n ≤ 1024) (hrec : 4096 ≤ rec) (h : initFields m index nNodePtrField n 0
      ⟨rec - 6, rec - 6 - utBitsInBytes index.nNullable, 0, 1⟩ = some (ends, low)) (hrec' : rec - (low + 1) < rec')
    (hsame : SameExtra true m rec m' rec' (rec - (low + 1))) :
    ∃ low', initFields m' index nNodePtrField n 0 ⟨rec' - 6, rec' - 6 - utBitsInBytes index.nNullable, 0, 1⟩ = some (ends, low') ∧
      rec' - (low' + 1) = rec - (low + 1) := by
  obtain ⟨hnulls, hbits⟩ := utBitsInBytes_le index
  have hlens : low ≤ rec - 6 - utBitsInBytes index.nNullable ∧ rec - 6 - utBitsInBytes index.nNullable ≤ low + 2 * n := initFields_lens h
  have hcount := index.nullable_eq
  obtain ⟨low', hread, hlow'⟩ := @initFields_congr m m' rec rec' index nNodePtrField n 0 low (rec - 6) (utBitsInBytes index.nNullable) 0 _
    ⟨rec' - 6, rec' - 6 - utBitsInBytes index.nNullable, 0, 1⟩ ends h ⟨by dsimp only; omega, by dsimp only; omega, rfl, rfl⟩
    (nullAt_zero _) (by rw [drop_zero]; omega) (by dsimp only; omega) (by dsimp only; omega) (by omega) (by
      intro p p' hp hlow hle
      have hbyte := @SameExtra.byte m m' rec rec' true _ (rec - p) hsame (by show 5 < rec - p; omega) (by omega)
      rwa [show rec - (rec - p) = p by omega, show rec' - (rec - p) = p' by omega] at hbyte)
  exact ⟨low', hread, by omega⟩

def compactOffsets (m : Nat → UInt8) (rec : Nat) (index : DictIndex) (nNodePtrField : Option Nat) (n : Nat) : Option (List Nat) :=
  (initFields m index nNodePtrField n 0 ⟨rec - 6, rec - 6 - utBitsInBytes index.nNullable, 0, 1⟩).bind fun (ends, low) =>
    some (((rec - (low + 1)) ||| recOffsCompact) :: ends)

theorem recGetOffsets_compact (hcomp : index.comp = true) (m : Nat → UInt8) (rec : Nat) : recGetOffsets m rec index =
      if recGetStatus m rec = recStatusOrdinary then compactOffsets m rec index none (max index.fields.length 1)
      else if recGetStatus m rec = recStatusNodePtr then
        compactOffsets m rec index (some (dictIndexGetNUniqueInTree index)) (max (dictIndexGetNUniqueInTree index + 1) 1)
      else if recGetStatus m rec = recStatusInfimum ∨ recGetStatus m rec = recStatusSupremum then
        some [recNNewExtraBytes ||| recOffsCompact, 8]
      else none := by
  rw [recGetOffsets, recGetNFields, if_pos hcomp]
  by_cases hordinary : recGetStatus m rec = recStatusOrdinary
  · rw [if_pos hordinary, if_pos hordinary, some_bind_eq, recInitOffsets, if_pos hcomp, hordinary]
    rfl
  rw [if_neg hordinary, if_neg hordinary]
  by_cases hnode : recGetStatus m rec = recStatusNodePtr
  · rw [if_pos hnode, if_pos hnode, some_bind_eq, recInitOffsets, if_pos hcomp, hnode]
    rfl
  rw [if_neg hnode, if_neg hnode]
  by_cases hends : recGetStatus m rec = recStatusInfimum ∨ recGetStatus m rec = recStatusSupremum
  · rw [if_pos hends, if_pos hends, some_bind_eq, recInitOffsets, if_pos hcomp]
    rw [if_pos hends]
  rw [if_neg hends, if_neg hends]
  rfl

theorem compactOffsets_extraSize (hn : n ≤ 1024) (hrec : 4096 ≤ rec)
    (h : compactOffsets m rec index nNodePtrField n = some offsets) :
    5 ≤ recOffsExtraSize offsets ∧ recOffsExtraSize offsets < 4096 := by
  obtain ⟨⟨ends, low⟩, hread, hoffsets⟩ := bind_eq_some_iff.1 h
  have hlens := initFields_lens hread
  dsimp only at hlens
  have hnulls := (utBitsInBytes_le index).1
  cases hoffsets
  rw [recOffsExtraSize_compact (by omega)]
  omega

theorem compactOffsets_congr (hn : n ≤ 1024) (hrec : 4096 ≤ rec)
    (h : compactOffsets m rec index nNodePtrField n = some offsets) (hrec' : recOffsExtraSize offsets < rec')
    (hsame : SameExtra true m rec m' rec' (recOffsExtraSize offsets)) :
    compactOffsets m' rec' index nNodePtrField n = some offsets := by
  obtain ⟨⟨ends, low⟩, hread, hoffsets⟩ := bind_eq_some_iff.1 h
  have hlens := initFields_lens hread
  dsimp only at hlens
  have hnulls := (utBitsInBytes_le index).1
  cases hoffsets
  rw [recOffsExtraSize_compact (by omega)] at hrec' hsame
  obtain ⟨low', hread', hlow'⟩ := recInitOffsets_congr hn hrec hread hrec' hsame
  rw [compactOffsets, hread', bind_some]
  dsimp only
  rw [hlow']

/-! ### The old format -/

theorem SameExtra.fetch_two {d : Nat} (h : SameExtra false m rec m' rec' extra) (hd : 7 < d) (hle : d ≤ extra)
    (hrec : extra ≤ rec) (hrec' : extra ≤ rec') : fetch m (rec - d) 2 = fetch m' (rec' - d) 2 := by
  have hfirst := @SameExtra.byte m m' rec rec' false extra d h (by show 6 < d; omega) hle
  have hsecond := @SameExtra.byte m m' rec rec' false extra (d - 1) h (by show 6 < d - 1; omega) (by omega)
  show [m (rec - d), m (rec - d + 1)] = [m' (rec' - d), m' (rec' - d + 1)]
  rw [show rec - d + 1 = rec - (d - 1) by omega, show rec' - d + 1 = rec' - (d - 1) by omega, hfirst, hsecond]

theorem recGetNFieldsOld_eq (hrec : 4 ≤ rec) :
    recGetNFieldsOld m rec = ((m (rec - 4) &&& 0x07).toNat * 256 + (m (rec - 3)).toNat) / 2 := by
  have hlt := UInt8.toNat_lt (m (rec - 3))
  have hlow : (m (rec - 4) &&& 0x07).toNat = (m (rec - 4)).toNat % 8 := by
    rw [UInt8.toNat_and]
    exact Nat.and_two_pow_sub_one_eq_mod _ 3
  have hread : machReadFrom2 m (rec - 4) = (m (rec - 4)).toNat * 256 + (m (rec - 3)).toNat := by
    have hnext : rec - 4 + 1 = rec - 3 := by omega
    show ofBeBytes [m (rec - 4), m (rec - 4 + 1)] = _
    rw [ofBeBytes_cons, ofBeBytes_cons, hnext]
    simp [ofBeBytes]
  have hmask : (machReadFrom2 m (rec - 4) &&& 0x7FE) >>> 1 = machReadFrom2 m (rec - 4) / 2 % 1024 := by
    rw [Nat.shiftRight_and_distrib, Nat.shiftRight_eq_div_pow, pow_one]
    exact Nat.and_two_pow_sub_one_eq_mod _ 10
  rw [recGetNFieldsOld, recGetBitField2, hmask, hread, hlow]
  omega

theorem SameExtra.old_header (h : SameExtra false m rec m' rec' extra) (hextra : 6 ≤ extra) (hrec : extra ≤ rec)
    (hrec' : extra ≤ rec') :
    recGetNFieldsOld m' rec' = recGetNFieldsOld m rec ∧ recGet1byteOffsFlag m' rec' = recGet1byteOffsFlag m rec := by
  have hfour : m (rec - 4) &&& 0x07 = m' (rec' - 4) &&& 0x07 := h 4 (by decide) (by omega)
  have hthree : m (rec - 3) = m' (rec' - 3) := by
    have hmasked : m (rec - 3) &&& 0xFF = m' (rec' - 3) &&& 0xFF := h 3 (by decide) (by omega)
    rwa [and_full, and_full] at hmasked
  refine ⟨?_, ?_⟩
  · rw [recGetNFieldsOld_eq (by omega), recGetNFieldsOld_eq (by omega), hfour, hthree]
  · rw [recGet1byteOffsFlag, recGet1byteOffsFlag, recGetBitField1, recGetBitField1, machReadFrom1, machReadFrom1, hthree]

def oldExtraSize (m : Nat → UInt8) (rec : Nat) : Nat :=
  recNOldExtraBytes + if recGet1byteOffsFlag m rec then recGetNFieldsOld m rec else 2 * recGetNFieldsOld m rec

theorem oldExtraSize_le (hrec : 4 ≤ rec) : recGetNFieldsOld m rec < 1024 ∧ oldExtraSize m rec ≤ 6 + 2 * recGetNFieldsOld m rec := by
  have hlt := UInt8.toNat_lt (m (rec - 3))
  have hlow : (m (rec - 4) &&& 0x07).toNat ≤ 7 := by
    rw [UInt8.toNat_and]
    exact Nat.and_le_right
  refine ⟨?_, ?_⟩
  · rw [recGetNFieldsOld_eq hrec]
    omega
  rw [oldExtraSize, recNOldExtraBytes]
  split_ifs <;> omega

theorem recGetOffsets_old (hcomp : index.comp = false) (m : Nat → UInt8) (rec : Nat) :
    recGetOffsets m rec index = some (oldExtraSize m rec :: (List.range (max (recGetNFieldsOld m rec) 1)).map fun i =>
      oldFieldEnd m rec i (recGet1byteOffsFlag m rec)) := by
  rw [recGetOffsets, recGetNFields, if_neg (by rw [hcomp]; exact Bool.false_ne_true), some_bind_eq,
    recInitOffsets, if_neg (by rw [hcomp]; exact Bool.false_ne_true)]
  rfl

theorem recOffsExtraSize_old (h : extra < 2 ^ 31) : recOffsExtraSize (extra :: ends) = extra := by
  have hmask := @or_and_mask extra 0 (2 ^ 64 - 1 - recOffsCompact) 31 h (by decide) (by decide)
  rwa [Nat.or_zero] at hmask

theorem oldFieldEnd_congr (h : SameExtra false m rec m' rec' extra) (hi : i < recGetNFieldsOld m rec)
    (hextra : extra = oldExtraSize m rec) (hrec : extra ≤ rec) (hrec' : extra ≤ rec') :
    oldFieldEnd m' rec' i (recGet1byteOffsFlag m rec) = oldFieldEnd m rec i (recGet1byteOffsFlag m rec) := by
  rw [oldExtraSize, recNOldExtraBytes] at hextra
  cases hshort : recGet1byteOffsFlag m rec with
  | true =>
    rw [if_pos hshort] at hextra
    have hend : rec1GetFieldEndInfo m' rec' i = rec1GetFieldEndInfo m rec i :=
      congrArg UInt8.toNat (h.byte (by show 6 < 6 + i + 1; omega) (by show 6 + i + 1 ≤ extra; omega)).symm
    rw [oldFieldEnd, oldFieldEnd, if_pos rfl, if_pos rfl, hend]
  | false =>
    rw [if_neg (by rw [hshort]; exact Bool.false_ne_true)] at hextra
    have hend : rec2GetFieldEndInfo m' rec' i = rec2GetFieldEndInfo m rec i :=
      congrArg ofBeBytes (h.fetch_two (by show 7 < 6 + 2 * i + 2; omega) (by show 6 + 2 * i + 2 ≤ extra; omega) hrec hrec').symm
    rw [oldFieldEnd, oldFieldEnd, if_neg Bool.false_ne_true, if_neg Bool.false_ne_true, hend]

/-! ### Copies -/

section

variable {index : DictIndex} {offsets : List Nat}

theorem recGetOffsets_extraSize (h : recGetOffsets m rec index = some offsets) (hrec : 4096 ≤ rec) :
    headerSize index.comp ≤ recOffsExtraSize offsets ∧ recOffsExtraSize offsets < 4096 := by
  have hlength := index.length_lt
  cases hcomp : index.comp with
  | true =>
    have hunique := dictIndexGetNUniqueInTree_le index
    rw [recGetOffsets_compact hcomp] at h
    split_ifs at h
    · exact compactOffsets_extraSize (by omega) hrec h
    · exact compactOffsets_extraSize (by omega) hrec h
    cases h
    decide
  | false =>
    rw [recGetOffsets_old hcomp] at h
    cases h
    obtain ⟨hfields, hle⟩ := @oldExtraSize_le m rec (by omega)
    rw [recOffsExtraSize_old (by omega)]
    exact ⟨Nat.le_add_right _ _, by omega⟩

theorem recGetOffsets_congr (h : recGetOffsets m rec index = some offsets) (hrec : 4096 ≤ rec)
    (hold : index.comp = false → 0 < recGetNFieldsOld m rec) (hrec' : recOffsExtraSize offsets < rec')
    (hsame : SameExtra index.comp m rec m' rec' (recOffsExtraSize offsets)) : recGetOffsets m' rec' index = some offsets := by
  have hlength := index.length_lt
  have hextra := recGetOffsets_extraSize h hrec
  cases hcomp : index.comp with
  | true =>
    rw [hcomp] at hsame hextra
    have hunique := dictIndexGetNUniqueInTree_le index
    rw [recGetOffsets_compact hcomp] at h
    rw [recGetOffsets_compact hcomp, hsame.status hextra.1]
    split_ifs at h ⊢
    · exact compactOffsets_congr (by omega) hrec h hrec' hsame
    · exact compactOffsets_congr (by omega) hrec h hrec' hsame
    exact h
  | false =>
    rw [hcomp] at hsame hextra
    have hpos := hold hcomp
    rw [recGetOffsets_old hcomp] at h
    cases h
    obtain ⟨hfields, hle⟩ := @oldExtraSize_le m rec (by omega)
    rw [recOffsExtraSize_old (by omega)] at hrec' hsame hextra
    obtain ⟨hcount, hflag⟩ := hsame.old_header hextra.1 (by omega) hrec'.le
    have hsize : oldExtraSize m' rec' = oldExtraSize m rec := by rw [oldExtraSize, oldExtraSize, hcount, hflag]
    rw [recGetOffsets_old hcomp, hcount, hflag, hsize]
    refine congrArg (fun ends => some (oldExtraSize m rec :: ends)) (map_congr_left fun i hi => ?_)
    rw [mem_range] at hi
    exact oldFieldEnd_congr hsame (by omega) rfl (by omega) hrec'.le

end

end Mysql51.Innodb
