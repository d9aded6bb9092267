import Mysql51.Rpl.RowImage

/-!
# Row images are restored

The null bits that `pack_row` writes are the null flags of the selected columns, eight to a byte, and `unpack_row` reads them in
the same order, both for the columns that its table has and for those that it throws away.
-/

namespace Mysql51.Rpl

open List

/-! ### Bits -/

theorem twoPow_shiftLeft (k : Nat) : BitVec.twoPow 32 k <<< 1 = BitVec.twoPow 32 (k + 1) := by
  rw [BitVec.twoPow_eq, BitVec.twoPow_eq, BitVec.shiftLeft_add]

variable {k j i : Nat} {x : BitVec 32} {cols flags : List Bool}

theorem twoPow_and_ff (hk : k < 9) : BitVec.twoPow 32 k &&& 0xff#32 = 0#32 ↔ k = 8 := by
  revert k
  decide

theorem one_lt_twoPow_and_ff (hk : k < 8) : 1#32 < BitVec.twoPow 32 k &&& 0xff#32 ↔ 0 < k := by
  revert k
  decide

theorem and_twoPow_ne_zero (hk : k < 8) : x &&& BitVec.twoPow 32 k ≠ 0#32 ↔ x.getLsbD k = true := by
  have hne : BitVec.twoPow 32 k ≠ 0#32 := by
    revert k
    decide
  rw [BitVec.and_twoPow]
  cases hbit : x.getLsbD k with
  | false => simp
  | true => simpa using hne

def bitOf (b : UInt8) (j : Nat) : Bool := b.toBitVec.getLsbD j

theorem bitOf_byteOf (x : BitVec 32) (hj : j < 8) : bitOf (byteOf x) j = x.getLsbD j := by
  simp [bitOf, byteOf, hj]

theorem getLsbD_ofByte (b : UInt8) (hj : j < 8) : (ofByte b).getLsbD j = bitOf b j := by
  have hj' : j < 32 := by omega
  simp [bitOf, ofByte, hj']

theorem getLsbD_ff (hj : j < 8) : (0xff#32).getLsbD j = true := by
  revert j
  decide

variable {V : Type}

/-! ### What a row image holds -/

def nullFlags : List (Field V) → List Bool → List (Cell V) → List Bool
  | f :: fields, col :: cols, c :: record => if col then f.isNull c :: nullFlags fields cols record else nullFlags fields cols record
  | _, _, _ => []

def packedCell (f : Field V) (c : Cell V) : List UInt8 := if f.isNull c then [] else f.pack c.value

def packedData : List (Field V) → List Bool → List (Cell V) → List UInt8
  | f :: fields, col :: cols, c :: record =>
    if col then packedCell f c ++ packedData fields cols record else packedData fields cols record
  | _, _, _ => []

variable {fields : List (Field V)} {record : List (Cell V)}

theorem length_nullFlags (hcols : cols.length = fields.length) (hrecord : record.length = fields.length) :
    (nullFlags fields cols record).length = bitmapBitsSet cols := by
  induction fields generalizing cols record with
  | nil =>
    rw [length_eq_zero_iff.1 hcols]
    rfl
  | cons f fields ih =>
    cases cols with
    | nil => cases hcols
    | cons col cols =>
      cases record with
      | nil => cases hrecord
      | cons c record =>
        have hrest := ih (Nat.succ.inj hcols) (Nat.succ.inj hrecord)
        unfold bitmapBitsSet at *
        cases col with
        | false => simpa [nullFlags] using hrest
        | true => simpa [nullFlags] using hrest

/-- Null bits in bytes: eight flags to a byte, and ones behind the last flag. -/
def HoldsFlags (row : List UInt8) (n : Nat) (flags : List Bool) : Prop :=
  ∀ t < n, ∀ j < 8, bitOf (row.getD t 0) j = flags.getD (8 * t + j) true

/-! ### Packing -/

/-- The variables of `pack_row` after columns with given flags and bytes, for `n` null bytes. -/
structure PackInv (n : Nat) (flags : List Bool) (data : List UInt8) (s : PackState) : Prop where
  nullPtr : s.nullPtr = flags.length / 8
  nullMask : s.nullMask = BitVec.twoPow 32 (flags.length % 8)
  nullBits : ∀ j < 8, s.nullBits.getLsbD j = flags.getD (8 * (flags.length / 8) + j) true
  length : n ≤ s.row.length
  data : s.row.drop n = data
  bytes : HoldsFlags s.row (flags.length / 8) flags

theorem getD_append_flag {flag : Bool} :
    (flags ++ [flag]).getD i true = if i = flags.length then flag else flags.getD i true := by
  simp only [getD_eq_getElem?_getD, List.getElem?_append]
  split
  · rw [if_neg (by omega)]
  rename_i hge
  rcases eq_or_lt_of_le (not_lt.1 hge) with heq | hlt
  · rw [if_pos heq.symm, ← heq]
    simp
  rw [if_neg (by omega), List.getElem?_eq_none (by simpa using by omega), List.getElem?_eq_none (by omega)]

theorem getLsbD_setFlag (hj : j < 8) (flag : Bool) :
    (if flag then x ||| BitVec.twoPow 32 k else x &&& ~~~BitVec.twoPow 32 k).getLsbD j = if j = k then flag else x.getLsbD j := by
  have hj' : j < 32 := by omega
  cases flag with
  | false =>
    rcases eq_or_ne j k with rfl | hne
    · simp [hj']
    · simp [hj', hne]
  | true =>
    rcases eq_or_ne j k with rfl | hne
    · simp [hj']
    · simp [BitVec.getLsbD_twoPow, hne, hne.symm]

theorem packField_eq (f : Field V) (c : Cell V) (s : PackState) : packField f c s =
      if s.nullMask <<< 1 &&& 0xff#32 = 0#32 then
        { row := (s.row ++ packedCell f c).set s.nullPtr
            (byteOf (if f.isNull c then s.nullBits ||| s.nullMask else s.nullBits &&& ~~~s.nullMask))
          nullPtr := s.nullPtr + 1
          nullBits := 0xff#32
          nullMask := 1#32 }
      else
        { row := s.row ++ packedCell f c
          nullPtr := s.nullPtr
          nullBits := if f.isNull c then s.nullBits ||| s.nullMask else s.nullBits &&& ~~~s.nullMask
          nullMask := s.nullMask <<< 1 } := by
  unfold packField packedCell
  cases f.isNull c with
  | false => rfl
  | true => simp only [if_true, append_nil]

section

variable {n : Nat} {flags : List Bool} {data : List UInt8} {s : PackState} (h : PackInv n flags data s)
include h

theorem PackInv.packField (hroom : flags.length / 8 < n) (f : Field V) (c : Cell V) :
    PackInv n (flags ++ [f.isNull c]) (data ++ packedCell f c) (packField f c s) := by
  have hlen : (flags ++ [f.isNull c]).length = flags.length + 1 := by simp
  have hrow : n ≤ (s.row ++ packedCell f c).length := by
    rw [length_append]
    exact Nat.le_add_right_of_le h.length
  have hdrop : (s.row ++ packedCell f c).drop n = data ++ packedCell f c := by
    rw [drop_append_of_le_length h.length, h.data]
  -- the null bits with the new one among them
  have hbits : ∀ j < 8, (if f.isNull c then s.nullBits ||| s.nullMask else s.nullBits &&& ~~~s.nullMask).getLsbD j =
      (flags ++ [f.isNull c]).getD (8 * (flags.length / 8) + j) true := by
    intro j hj
    rw [h.nullMask, getLsbD_setFlag hj, getD_append_flag, h.nullBits j hj]
    have hindex : 8 * (flags.length / 8) + j = flags.length ↔ j = flags.length % 8 := by omega
    simp only [hindex]
  have hbytes : ∀ t < flags.length / 8, ∀ j < 8, bitOf ((s.row ++ packedCell f c).getD t 0) j =
      (flags ++ [f.isNull c]).getD (8 * t + j) true := by
    intro t ht j hj
    have hrowt := lt_of_lt_of_le (ht.trans hroom) h.length
    rw [getD_append_flag, if_neg (by omega), ← h.bytes t ht j hj, getD_eq_getElem?_getD, List.getElem?_append_left hrowt,
      getD_eq_getElem?_getD]
  rw [packField_eq]
  by_cases hlast : flags.length % 8 = 7
  · have hfull : s.nullMask <<< 1 &&& 0xff#32 = 0#32 := by
      rw [h.nullMask, twoPow_shiftLeft, hlast]
      rfl
    rw [if_pos hfull]
    refine ⟨?_, ?_, ?_, ?_, ?_, ?_⟩
    · dsimp only
      rw [h.nullPtr, hlen]
      omega
    · rw [hlen, show (flags.length + 1) % 8 = 0 by omega]
      rfl
    · intro j hj
      rw [hlen, getLsbD_ff hj, getD_eq_getElem?_getD, List.getElem?_eq_none (by rw [hlen]; omega)]
      rfl
    · rw [length_set]
      exact hrow
    · rw [drop_set, if_pos (h.nullPtr ▸ hroom)]
      exact hdrop
    intro t ht j hj
    rw [hlen] at ht
    rcases eq_or_ne t s.nullPtr with rfl | hne
    · rw [getD_eq_getElem?_getD, List.getElem?_set_self (by rw [h.nullPtr]; omega), Option.getD_some, bitOf_byteOf _ hj,
        hbits j hj, h.nullPtr]
    rw [getD_eq_getElem?_getD, List.getElem?_set_ne hne.symm, ← getD_eq_getElem?_getD]
    rw [h.nullPtr] at hne
    exact hbytes t (by omega) j hj
  have hmore : ¬s.nullMask <<< 1 &&& 0xff#32 = 0#32 := by
    rw [h.nullMask, twoPow_shiftLeft, twoPow_and_ff (by omega)]
    omega
  have hdiv : (flags.length + 1) / 8 = flags.length / 8 := by omega
  rw [if_neg hmore]
  refine ⟨?_, ?_, ?_, hrow, hdrop, ?_⟩
  · rw [hlen, hdiv, h.nullPtr]
  · rw [hlen, h.nullMask, twoPow_shiftLeft, show (flags.length + 1) % 8 = flags.length % 8 + 1 by omega]
  · rw [hlen, hdiv]
    exact hbits
  rw [hlen, hdiv]
  exact hbytes

theorem PackInv.packFields (fields : List (Field V)) (cols : List Bool) (record : List (Cell V))
    (hroom : (flags ++ nullFlags fields cols record).length ≤ 8 * n) :
    PackInv n (flags ++ nullFlags fields cols record) (data ++ packedData fields cols record)
      (packFields fields cols record s) := by
  induction fields generalizing cols record flags data s with
  | nil => simpa [Rpl.packFields, nullFlags, packedData] using h
  | cons f fields ih =>
    cases cols with
    | nil => simpa [Rpl.packFields, nullFlags, packedData] using h
    | cons col cols =>
      cases record with
      | nil => simpa [Rpl.packFields, nullFlags, packedData] using h
      | cons c record =>
        cases col with
        | false => exact ih h cols record hroom
        | true =>
          rw [nullFlags, if_pos rfl, append_cons] at hroom
          have hfirst : flags.length / 8 < n := by
            simp only [length_append, length_singleton] at hroom
            omega
          have hrest := ih (h.packField hfirst f c) cols record hroom
          rw [nullFlags, if_pos rfl, append_cons, packedData, if_pos rfl, ← append_assoc]
          exact hrest

end

/-- A row image: the null flags of the selected columns, and the bytes of those that are not NULL. -/
theorem packRow_spec (hcols : cols.length = fields.length)
    (hrecord : record.length = fields.length) : nullByteCount cols ≤ (packRow fields cols record).length ∧
    (packRow fields cols record).drop (nullByteCount cols) = packedData fields cols record ∧
    HoldsFlags (packRow fields cols record) (nullByteCount cols) (nullFlags fields cols record) := by
  have hflags := length_nullFlags hcols hrecord
  have hinit : PackInv (nullByteCount cols) [] []
      { row := List.replicate (nullByteCount cols) 0, nullPtr := 0, nullBits := 0xff#32, nullMask := 1#32 } :=
    ⟨rfl, rfl, fun j hj => getLsbD_ff hj, by simp, by simp, fun t ht => absurd ht (Nat.not_lt_zero t)⟩
  have hrun := hinit.packFields fields cols record (by
    rw [nil_append, hflags, nullByteCount]
    omega)
  rw [nil_append, nil_append] at hrun
  have hmod : (nullFlags fields cols record).length % 8 < 8 := Nat.mod_lt _ (by decide)
  unfold packRow
  dsimp only
  rw [hrun.nullMask, hrun.nullPtr]
  by_cases hpart : 0 < (nullFlags fields cols record).length % 8
  · have hcount : nullByteCount cols = (nullFlags fields cols record).length / 8 + 1 := by
      rw [nullByteCount, ← hflags]
      omega
    rw [if_pos ((one_lt_twoPow_and_ff hmod).2 hpart)]
    refine ⟨?_, ?_, ?_⟩
    · rw [length_set]
      exact hrun.length
    · rw [drop_set, if_pos (by omega)]
      exact hrun.data
    intro t ht j hj
    rcases eq_or_ne t ((nullFlags fields cols record).length / 8) with rfl | hne
    · rw [getD_eq_getElem?_getD, List.getElem?_set_self (lt_of_lt_of_le ht hrun.length), Option.getD_some,
        bitOf_byteOf _ hj, hrun.nullBits j hj]
    rw [getD_eq_getElem?_getD, List.getElem?_set_ne hne.symm, ← getD_eq_getElem?_getD]
    exact hrun.bytes t (by omega) j hj
  have hcount : nullByteCount cols = (nullFlags fields cols record).length / 8 := by
    rw [nullByteCount, ← hflags]
    omega
  rw [if_neg fun hmask => hpart ((one_lt_twoPow_and_ff hmod).1 hmask)]
  exact ⟨hrun.length, hrun.data, fun t ht => hrun.bytes t (hcount ▸ ht)⟩

/-! ### Unpacking -/

/-- The variables of `unpack_row` before a column, when `m` columns of the bitmap have been read. The next null byte is not read
before it is needed. -/
structure UnpackInv (rowData : List UInt8) (m packPtr : Nat) (s : UnpackState) : Prop where
  packPtr : s.packPtr = packPtr
  nullPtr : s.nullPtr = (m - 1) / 8 + 1
  nullBits : s.nullBits = ofByte (rowData.getD ((m - 1) / 8) 0)
  nullMask : s.nullMask = BitVec.twoPow 32 (if m = 0 then 0 else (m - 1) % 8 + 1)
  error : s.error = 0
  warnings : s.warnings = []

/-- The same inside the body of a loop, after the null byte of the column has been read. -/
structure AtColumn (rowData : List UInt8) (m packPtr : Nat) (s : UnpackState) : Prop where
  packPtr : s.packPtr = packPtr
  nullPtr : s.nullPtr = m / 8 + 1
  nullBits : s.nullBits = ofByte (rowData.getD (m / 8) 0)
  nullMask : s.nullMask = BitVec.twoPow 32 (m % 8)
  error : s.error = 0
  warnings : s.warnings = []

theorem UnpackInv.nextNullByte {rowData : List UInt8} {m packPtr : Nat} {s : UnpackState} (h : UnpackInv rowData m packPtr s) :
    AtColumn rowData m packPtr (nextNullByte rowData s) := by
  unfold Rpl.nextNullByte
  rcases Nat.eq_zero_or_pos m with rfl | hpos
  · rw [if_neg (by rw [h.nullMask]; decide)]
    exact ⟨h.packPtr, h.nullPtr, h.nullBits, h.nullMask, h.error, h.warnings⟩
  have hmask := h.nullMask
  rw [if_neg (by omega)] at hmask
  by_cases hfull : m % 8 = 0
  · rw [if_pos (by rw [hmask, twoPow_and_ff (by omega)]; omega)]
    refine ⟨h.packPtr, ?_, ?_, ?_, h.error, h.warnings⟩
    · dsimp only
      rw [h.nullPtr]
      omega
    · rw [h.nullPtr, show (m - 1) / 8 + 1 = m / 8 by omega]
    rw [hfull]
    rfl
  rw [if_neg (by rw [hmask, twoPow_and_ff (by omega)]; omega)]
  have hdiv : (m - 1) / 8 = m / 8 := by omega
  refine ⟨h.packPtr, ?_, ?_, ?_, h.error, h.warnings⟩
  · rw [h.nullPtr, hdiv]
  · rw [h.nullBits, hdiv]
  rw [hmask, show (m - 1) % 8 + 1 = m % 8 by omega]

section

variable {rowData : List UInt8} {m packPtr : Nat} {s : UnpackState} (h : AtColumn rowData m packPtr s)
include h

theorem AtColumn.shift (size : Nat) :
    UnpackInv rowData (m + 1) (packPtr + size) { s with packPtr := s.packPtr + size, nullMask := s.nullMask <<< 1 } := by
  refine ⟨?_, ?_, ?_, ?_, h.error, h.warnings⟩
  · rw [h.packPtr]
  · exact h.nullPtr
  · exact h.nullBits
  rw [h.nullMask, twoPow_shiftLeft, if_neg (Nat.succ_ne_zero m), Nat.add_sub_cancel]

theorem AtColumn.flag {n : Nat} (hflags : HoldsFlags rowData n flags) (hm : m / 8 < n) :
    s.nullBits &&& s.nullMask ≠ 0#32 ↔ flags.getD m true = true := by
  have hmod : m % 8 < 8 := Nat.mod_lt m (by decide)
  rw [h.nullMask, and_twoPow_ne_zero hmod, h.nullBits, getLsbD_ofByte _ hmod, hflags _ hm _ hmod, Nat.div_add_mod]

end

/-- `unpack` of a packed value returns the value and the pointer behind it. -/
def Field.RoundTrips (f : Field V) (metadata : UInt16) : Prop :=
  ∀ v rest, f.unpack metadata (f.pack v ++ rest) = (v, (f.pack v).length)

def restored (f : Field V) (c old : Cell V) : Cell V :=
  if f.isNull c then f.setNull (f.reset old) else { f.setNotnull old with value := c.value }

theorem maybeNull_of_isNull {f : Field V} {c : Cell V} (h : f.isNull c = true) : f.maybeNull = true := by
  unfold Field.isNull at h
  exact (Bool.and_eq_true _ _ ▸ h).1

theorem restored_spec (f : Field V) (c old : Cell V) :
    f.isNull (restored f c old) = f.isNull c ∧ (f.isNull c = false → (restored f c old).value = c.value) := by
  unfold restored
  cases hnull : f.isNull c with
  | false =>
    refine ⟨?_, fun _ => rfl⟩
    unfold Field.isNull Field.setNotnull
    cases f.maybeNull <;> rfl
  | true =>
    refine ⟨?_, fun hc => by cases hc⟩
    rw [if_pos rfl, Field.isNull, Field.setNull, maybeNull_of_isNull hnull, if_pos rfl]
    rfl

theorem flag_of_drop {more : List Bool} {m n : Nat} {flag : Bool} (hdrop : flags.drop m = flag :: more)
    (hroom : flags.length ≤ 8 * n) : flags.getD m true = flag ∧ m / 8 < n ∧ flags.drop (m + 1) = more := by
  have hlt : m < flags.length := by
    by_contra hge
    rw [drop_eq_nil_of_le (not_lt.1 hge)] at hdrop
    cases hdrop
  rw [drop_eq_getElem_cons hlt] at hdrop
  obtain ⟨hget, hrest⟩ := List.cons.inj hdrop
  refine ⟨?_, by omega, hrest⟩
  rw [getD_eq_getElem?_getD, List.getElem?_eq_getElem hlt, hget]
  rfl

/-- The variables before columns of which `fl` are the null flags that are left and `data` the bytes. -/
def Ahead (rowData : List UInt8) (flags fl : List Bool) (data : List UInt8) (s : UnpackState) : Prop :=
  ∃ m, UnpackInv rowData m s.packPtr s ∧ flags.drop m = fl ∧ rowData.drop s.packPtr = data ∧ s.packPtr ≤ rowData.length

def restoredRecord : List (Field V) → List Bool → List (Cell V) → List (Cell V) → List (Cell V)
  | f :: fields, col :: cols, c :: record, o :: old =>
    (if col then restored f c o else o) :: restoredRecord fields cols record old
  | _, _, _, old => old

section

variable {rowData : List UInt8} {n : Nat} {flags : List Bool} (hflags : HoldsFlags rowData n flags)
  (hroom : flags.length ≤ 8 * n) {fl : List Bool} {data : List UInt8} {s : UnpackState}
include hflags hroom

theorem Ahead.field {flag : Bool} {cell : List UInt8} (h : Ahead rowData flags (flag :: fl) (cell ++ data) s) :
    ((nextNullByte rowData s).nullBits &&& (nextNullByte rowData s).nullMask ≠ 0#32 ↔ flag = true) ∧
      rowData.drop (nextNullByte rowData s).packPtr = cell ++ data ∧
      Ahead rowData flags fl data { nextNullByte rowData s with
        packPtr := (nextNullByte rowData s).packPtr + cell.length, nullMask := (nextNullByte rowData s).nullMask <<< 1 } := by
  obtain ⟨m, hinv, hnext, hdata, hle⟩ := h
  obtain ⟨hflag, hm, hmore⟩ := flag_of_drop hnext hroom
  have hcol := hinv.nextNullByte
  have hbit := hcol.flag hflags hm
  have hlen := congrArg List.length hdata
  rw [length_drop, length_append] at hlen
  have hptr := hcol.packPtr
  rw [← hptr] at hcol hdata hle hlen
  generalize nextNullByte rowData s = t at *
  refine ⟨hflag ▸ hbit, hdata, m + 1, hcol.shift cell.length, hmore, ?_, ?_⟩
  · rw [← drop_drop, hdata, drop_left]
  show t.packPtr + cell.length ≤ rowData.length
  omega

section

variable {f : Field V} {c : Cell V} (h : Ahead rowData flags (f.isNull c :: fl) (packedCell f c ++ data) s)
include h

theorem unpackField_spec {metadata : UInt16} (hf : f.RoundTrips metadata) (strict : Bool) (old : Cell V) :
    ∃ s', unpackField strict rowData metadata f old s = (restored f c old, s') ∧ Ahead rowData flags fl data s' := by
  obtain ⟨hbit, hdata, hnext⟩ := h.field hflags hroom
  unfold unpackField
  generalize nextNullByte rowData s = t at *
  cases hnull : f.isNull c with
  | false =>
    rw [packedCell, hnull, if_neg Bool.false_ne_true] at hdata hnext
    simp only [if_neg fun hc => Bool.false_ne_true (hnull ▸ hbit.1 hc), hdata, hf c.value data, restored, hnull]
    exact ⟨_, rfl, hnext⟩
  | true =>
    rw [packedCell, hnull, if_pos rfl] at hnext
    simp only [if_pos (hbit.2 hnull), maybeNull_of_isNull hnull, restored, hnull, if_true]
    exact ⟨_, rfl, hnext⟩

theorem skipField_spec {tabledef : TableDef} (hmaybe : tabledef.maybeNull i = f.maybeNull)
    (hsize : f.isNull c = false → ∀ rest, tabledef.calcFieldSize i (f.pack c.value ++ rest) = (f.pack c.value).length) :
    Ahead rowData flags fl data (skipField rowData tabledef i s) := by
  obtain ⟨hbit, hdata, hnext⟩ := h.field hflags hroom
  unfold skipField
  generalize nextNullByte rowData s = t at *
  dsimp only
  cases hnull : f.isNull c with
  | false =>
    rw [packedCell, hnull, if_neg Bool.false_ne_true] at hdata hnext
    rw [if_neg fun hc => Bool.false_ne_true (hnull ▸ hbit.1 hc.1), hdata, hsize hnull]
    exact hnext
  | true =>
    rw [packedCell, hnull, if_pos rfl] at hnext
    rw [if_pos ⟨hbit.2 hnull, hmaybe.trans (maybeNull_of_isNull hnull)⟩]
    exact hnext

end

variable (tabledef : TableDef)

theorem unpackFields_spec (strict : Bool) (moreCols : List Bool) {old : List (Cell V)} {colcnt : Nat}
    (h : Ahead rowData flags (nullFlags fields cols record ++ fl) (packedData fields cols record ++ data) s)
    (hcols : cols.length = fields.length) (hrecord : record.length = fields.length) (hold : old.length = fields.length)
    (hcolcnt : fields.length ≤ colcnt)
    (hunpack : ∀ j (f : Field V), fields[j]? = some f → f.RoundTrips (tabledef.fieldMetadata (i + j))) :
    ∃ s', unpackFields strict rowData tabledef colcnt fields (cols ++ moreCols) old i s =
        (restoredRecord fields cols record old, s', i + fields.length) ∧ Ahead rowData flags fl data s' := by
  induction fields generalizing cols record old i colcnt s with
  | nil =>
    refine ⟨s, ?_, h⟩
    cases colcnt <;> rfl
  | cons f fields ih =>
    obtain ⟨col, cols, rfl⟩ := exists_cons_of_length_eq_add_one hcols
    obtain ⟨c, record, rfl⟩ := exists_cons_of_length_eq_add_one hrecord
    obtain ⟨o, old, rfl⟩ := exists_cons_of_length_eq_add_one hold
    obtain ⟨colcnt, rfl⟩ : ∃ n, colcnt = n + 1 := Nat.exists_eq_add_one.2 (lt_of_lt_of_le (Nat.succ_pos _) hcolcnt)
    have hfield : ∃ s₁, (if col then unpackField strict rowData (tabledef.fieldMetadata i) f o s else (o, s)) =
        (if col then restored f c o else o, s₁) ∧
        Ahead rowData flags (nullFlags fields cols record ++ fl) (packedData fields cols record ++ data) s₁ := by
      cases col with
      | false => exact ⟨s, rfl, h⟩
      | true =>
        rw [packedData, if_pos rfl, append_assoc] at h
        exact unpackField_spec hflags hroom h (hunpack 0 f rfl) strict o
    obtain ⟨s₁, hfield, h₁⟩ := hfield
    obtain ⟨s', hrun, h'⟩ := ih h₁ (Nat.succ.inj hcols) (Nat.succ.inj hrecord) (Nat.succ.inj hold)
      (Nat.le_of_succ_le_succ hcolcnt) (i := i + 1) (by
        intro j f hf
        rw [add_assoc, add_comm 1 j]
        exact hunpack (j + 1) f hf)
    refine ⟨s', ?_, h'⟩
    rw [cons_append, unpackFields, hfield]
    dsimp only
    rw [hrun, restoredRecord, length_cons, add_assoc, add_comm 1]

theorem skipFields_spec (fields : List (Field V)) (cols : List Bool) (record : List (Cell V)) (i : Nat)
    (h : Ahead rowData flags (nullFlags fields cols record ++ fl) (packedData fields cols record ++ data) s)
    (hcols : cols.length = fields.length) (hrecord : record.length = fields.length)
    (hmaybe : ∀ j (f : Field V), fields[j]? = some f → tabledef.maybeNull (i + j) = f.maybeNull)
    (hsize : ∀ j (f : Field V) c, fields[j]? = some f → record[j]? = some c → f.isNull c = false →
      ∀ rest, tabledef.calcFieldSize (i + j) (f.pack c.value ++ rest) = (f.pack c.value).length) :
    Ahead rowData flags fl data (skipFields rowData tabledef cols i s) := by
  induction fields generalizing cols record i s with
  | nil =>
    rw [length_eq_zero_iff.1 hcols]
    exact h
  | cons f fields ih =>
    obtain ⟨col, cols, rfl⟩ := exists_cons_of_length_eq_add_one hcols
    obtain ⟨c, record, rfl⟩ := exists_cons_of_length_eq_add_one hrecord
    have hshift : ∀ j, i + 1 + j = i + (j + 1) := by omega
    refine ih cols record (i + 1) ?_ (Nat.succ.inj hcols) (Nat.succ.inj hrecord) (fun j f hf => ?_) (fun j f c hf hc => ?_)
    · cases col with
      | false => exact h
      | true =>
        rw [packedData, if_pos rfl, append_assoc] at h
        exact skipField_spec hflags hroom h (hmaybe 0 f rfl) (hsize 0 f c rfl rfl)
    · rw [hshift]
      exact hmaybe (j + 1) f hf
    rw [hshift]
    exact hsize (j + 1) f c hf hc

end

theorem nullFlags_append {fields₁ fields₂ : List (Field V)} {cols₁ cols₂ : List Bool} {record₁ record₂ : List (Cell V)}
    (hcols : cols₁.length = fields₁.length) (hrecord : record₁.length = fields₁.length) :
    nullFlags (fields₁ ++ fields₂) (cols₁ ++ cols₂) (record₁ ++ record₂) =
        nullFlags fields₁ cols₁ record₁ ++ nullFlags fields₂ cols₂ record₂ ∧
      packedData (fields₁ ++ fields₂) (cols₁ ++ cols₂) (record₁ ++ record₂) =
        packedData fields₁ cols₁ record₁ ++ packedData fields₂ cols₂ record₂ := by
  induction fields₁ generalizing cols₁ record₁ with
  | nil =>
    rw [length_eq_zero_iff.1 hcols, length_eq_zero_iff.1 hrecord]
    exact ⟨rfl, rfl⟩
  | cons f fields ih =>
    obtain ⟨col, cols, rfl⟩ := exists_cons_of_length_eq_add_one hcols
    obtain ⟨c, record, rfl⟩ := exists_cons_of_length_eq_add_one hrecord
    obtain ⟨hflags, hdata⟩ := ih (Nat.succ.inj hcols) (Nat.succ.inj hrecord)
    cases col with
    | false => exact ⟨hflags, hdata⟩
    | true =>
      simp only [cons_append, nullFlags, packedData, if_true, hflags, hdata, append_assoc]
      exact ⟨trivial, trivial⟩

theorem getElem?_restoredRecord {old : List (Cell V)} {f : Field V}
    {col : Bool} {c o : Cell V} (hf : fields[i]? = some f) (hcol : cols[i]? = some col) (hc : record[i]? = some c)
    (ho : old[i]? = some o) : (restoredRecord fields cols record old)[i]? = some (if col then restored f c o else o) := by
  induction i generalizing fields cols record old with
  | zero =>
    obtain ⟨fields, rfl⟩ := List.head?_eq_some_iff.1 (List.head?_eq_getElem? ▸ hf)
    obtain ⟨cols, rfl⟩ := List.head?_eq_some_iff.1 (List.head?_eq_getElem? ▸ hcol)
    obtain ⟨record, rfl⟩ := List.head?_eq_some_iff.1 (List.head?_eq_getElem? ▸ hc)
    obtain ⟨old, rfl⟩ := List.head?_eq_some_iff.1 (List.head?_eq_getElem? ▸ ho)
    rfl
  | succ i ih =>
    cases fields with
    | nil => cases hf
    | cons f' fields =>
      cases cols with
      | nil => cases hcol
      | cons col' cols =>
        cases record with
        | nil => cases hc
        | cons c' record =>
          cases old with
          | nil => cases ho
          | cons o' old => exact ih hf hcol hc ho

structure TableDef.Describes (tabledef : TableDef) (fields : List (Field V)) : Prop where
  size : tabledef.size = fields.length
  maybeNull : ∀ i (f : Field V), fields[i]? = some f → tabledef.maybeNull i = f.maybeNull

/-- A row image is restored by a table with the first `k` columns of the one that it was written from: every selected column
gets its null flag and value back, the others keep theirs, and the row ends where the image does. -/
theorem unpackRow_packRow (fields : List (Field V)) (cols : List Bool) (record old : List (Cell V)) (tabledef : TableDef)
    (k reclength : Nat) (hasTransactions abortOnWarning firstRow : Bool) (rest : List UInt8)
    (hcols : cols.length = fields.length) (hrecord : record.length = fields.length) (hk : k ≤ fields.length)
    (hold : old.length = k) (htabledef : tabledef.Describes fields)
    (hunpack : ∀ i (f : Field V), i < k → fields[i]? = some f → f.RoundTrips (tabledef.fieldMetadata i))
    (hsize : ∀ i (f : Field V) c, k ≤ i → fields[i]? = some f → record[i]? = some c → f.isNull c = false →
      ∀ rest, tabledef.calcFieldSize i (f.pack c.value ++ rest) = (f.pack c.value).length) :
    let unpacked := unpackRow (fields.take k) reclength hasTransactions tabledef fields.length
      (packRow fields cols record ++ rest) cols abortOnWarning firstRow old
    unpacked.error = 0 ∧ unpacked.warnings = [] ∧ unpacked.rowEnd = (packRow fields cols record).length ∧
    ∀ i (f : Field V) c o, i < k → fields[i]? = some f → record[i]? = some c → old[i]? = some o →
      (cols[i]? = some true → ∃ c', unpacked.record[i]? = some c' ∧ f.isNull c' = f.isNull c ∧
        (f.isNull c = false → c'.value = c.value)) ∧
      (cols[i]? = some false → unpacked.record[i]? = some o) := by
  obtain ⟨hlen, hdata, hflags⟩ := packRow_spec hcols hrecord
  have hcount := length_nullFlags hcols hrecord
  -- the columns on both sides of the last one that the table has
  have hfieldsK := length_take_of_le hk
  have hcolsK : (cols.take k).length = (fields.take k).length := by simp [hcols]
  have hrecordK : (record.take k).length = (fields.take k).length := by simp [hrecord]
  obtain ⟨hflagsSplit, hdataSplit⟩ := @nullFlags_append V (fields.take k) (fields.drop k) (cols.take k) (cols.drop k)
    (record.take k) (record.drop k) hcolsK hrecordK
  simp only [take_append_drop] at hflagsSplit hdataSplit
  have hflags' : HoldsFlags (packRow fields cols record ++ rest) (nullByteCount cols) (nullFlags fields cols record) := by
    intro t ht j hj
    rw [getD_eq_getElem?_getD, List.getElem?_append_left (lt_of_lt_of_le ht hlen), ← getD_eq_getElem?_getD]
    exact hflags t ht j hj
  have hroom : (nullFlags fields cols record).length ≤ 8 * nullByteCount cols := by
    rw [hcount, nullByteCount]
    omega
  have hdata' : (packRow fields cols record ++ rest).drop (nullByteCount cols) =
      packedData (fields.take k) (cols.take k) (record.take k) ++
        (packedData (fields.drop k) (cols.drop k) (record.drop k) ++ rest) := by
    rw [drop_append_of_le_length hlen, hdata, hdataSplit, append_assoc]
  have hinit : Ahead (packRow fields cols record ++ rest) (nullFlags fields cols record) (nullFlags fields cols record) _
      { nullPtr := 1, packPtr := nullByteCount cols, nullBits := ofByte ((packRow fields cols record ++ rest).getD 0 0),
        nullMask := 1#32, error := 0, warnings := [] } :=
    ⟨0, ⟨rfl, rfl, rfl, rfl, rfl, rfl⟩, rfl, hdata', hlen.trans (length_append ▸ Nat.le_add_right _ _)⟩
  nth_rewrite 2 [hflagsSplit] at hinit
  obtain ⟨s, hrun, hahead⟩ := unpackFields_spec hflags' hroom tabledef (abortOnWarning && (hasTransactions || firstRow))
    (cols.drop k) hinit hcolsK hrecordK (hold.trans hfieldsK.symm) (hfieldsK.le.trans hk) (i := 0) (by
      intro j f hf
      rw [zero_add]
      rw [List.getElem?_take] at hf
      split at hf
      · exact hunpack j f ‹_› hf
      · cases hf)
  rw [take_append_drop, hfieldsK, zero_add] at hrun
  rw [← append_nil (nullFlags (fields.drop k) _ _)] at hahead
  obtain ⟨m, hskip, -, hrest, hend⟩ := skipFields_spec hflags' hroom tabledef (fields.drop k) (cols.drop k) (record.drop k) k
    hahead (by simp [hcols]) (by simp [hrecord])
    (by
      intro j f hf
      rw [List.getElem?_drop] at hf
      exact htabledef.maybeNull (k + j) f hf)
    (by
      intro j f c hf hc
      rw [List.getElem?_drop] at hf hc
      exact hsize (k + j) f c (Nat.le_add_right k j) hf hc)
  have hmax : cols.take (min tabledef.size cols.length) = cols := by
    rw [htabledef.size, hcols, Nat.min_self, ← hcols, take_length]
  unfold unpackRow
  dsimp only
  rw [hrun]
  rw [hmax]
  refine ⟨hskip.error, hskip.warnings, ?_, ?_⟩
  · have htotal := congrArg List.length hrest
    rw [length_drop] at htotal
    rw [length_append] at htotal hend
    dsimp only
    omega
  · intro i f c o hi hf hc ho
    have hget : ∀ {α : Type} {l : List α} {a : α}, l[i]? = some a → (l.take k)[i]? = some a := by
      intro α l a hl
      rw [List.getElem?_take, if_pos hi, hl]
    constructor
    · intro hcol
      exact ⟨_, getElem?_restoredRecord (hget hf) (hget hcol) (hget hc) ho, restored_spec f c o⟩
    · intro hcol
      exact getElem?_restoredRecord (hget hf) (hget hcol) (hget hc) ho

def byteField (fieldName : String) (maybeNull : Bool) (ptr : Nat) : Field UInt8 where
  fieldName := fieldName
  maybeNull := maybeNull
  ptr := ptr
  resetValue := 0
  defaultValue := 0
  pack := fun v => [v]
  unpack := fun _ bytes => (bytes.headD 0, 1)

/-- A table of three columns, of which the first is NULL in the row and the last is missing on the other side. -/
theorem unpackRow_packRow_bytes : (unpackRow [byteField "a" true 1, byteField "b" false 2] 3 false
      ⟨3, fun i => i != 1, fun _ => 0, fun _ _ => 1⟩ 3
      (packRow [byteField "a" true 1, byteField "b" false 2, byteField "c" true 3] [true, true, true]
        [⟨true, 5⟩, ⟨false, 7⟩, ⟨false, 9⟩] ++ [1, 2]) [true, true, true] false false [⟨false, 0⟩, ⟨false, 0⟩]).rowEnd =
      (packRow [byteField "a" true 1, byteField "b" false 2, byteField "c" true 3] [true, true, true]
        [⟨true, 5⟩, ⟨false, 7⟩, ⟨false, 9⟩]).length := by
  have hfields : ∀ i (f : Field UInt8),
      [byteField "a" true 1, byteField "b" false 2, byteField "c" true 3][i]? = some f →
        f ∈ [byteField "a" true 1, byteField "b" false 2, byteField "c" true 3] :=
    fun i f hf => mem_of_getElem? hf
  exact (unpackRow_packRow [byteField "a" true 1, byteField "b" false 2, byteField "c" true 3] [true, true, true]
    [⟨true, 5⟩, ⟨false, 7⟩, ⟨false, 9⟩] [⟨false, 0⟩, ⟨false, 0⟩] ⟨3, fun i => i != 1, fun _ => 0, fun _ _ => 1⟩ 2 3 false false
    false [1, 2] rfl rfl (by decide) rfl
    ⟨rfl, by
      intro i f hf
      match i with
      | 0 => cases hf; rfl
      | 1 => cases hf; rfl
      | 2 => cases hf; rfl
      | i + 3 => cases hf⟩
    (by
      intro i f _ hf v rest
      have hmem := hfields i f hf
      simp only [mem_cons, not_mem_nil, or_false] at hmem
      rcases hmem with rfl | rfl | rfl <;> rfl)
    (by
      intro i f c _ hf _ _ rest
      have hmem := hfields i f hf
      simp only [mem_cons, not_mem_nil, or_false] at hmem
      rcases hmem with rfl | rfl | rfl <;> rfl)).2.2.1

end Mysql51.Rpl
