import Mysql51.Partitioning.Mapping

/-!
# Endpoints against the placement of rows

The partition of a value lies between the endpoints of every interval the value is in, for both kinds of partitioning. The
values are compared after the sign bias, which keeps the order of the column.
-/

namespace Mysql51.Partitioning

open Machine BinarySearch Option List

/-! ### The column and its bias -/

/-- The order of the column's values in an index: NULL comes first. -/
def nullFirstLe : Option Int → Option Int → Prop
  | none, _ => True
  | some _, none => False
  | some v, some w => v ≤ w

instance : ∀ v w, Decidable (nullFirstLe v w)
  | none, _ => isTrue trivial
  | some _, none => isFalse id
  | some v, some w => inferInstanceAs (Decidable (v ≤ w))

def nullFirstLt (v w : Option Int) : Prop := ¬ nullFirstLe w v
deriving Decidable

variable (field : Field)

theorem Field.pow_packLength : (256 : Int) ^ field.packLength = 256 * 256 ^ (field.packLength - 1) := by
  obtain ⟨n, hn⟩ := Nat.exists_eq_add_of_le' field.one_le
  rw [hn, Nat.add_sub_cancel, pow_succ']

theorem Field.pow_packLength_le : (256 : Int) ^ (field.packLength - 1) ≤ 72057594037927936 := by
  have hle : field.packLength - 1 ≤ 7 := by
    have := field.le_eight
    omega
  calc (256 : Int) ^ (field.packLength - 1) ≤ 256 ^ 7 := pow_le_pow_right₀ (by norm_num) hle
    _ = 72057594037927936 := by norm_num

/-- Whatever the bytes of a key image are, the column holds a value of its type afterwards. -/
theorem Field.holds_decode (bytes : List UInt8) : field.Holds (some (field.decode bytes)) := by
  have hlt : ((ofLeBytes (bytes.take field.packLength) : Nat) : Int) < 256 ^ field.packLength := by
    calc ((ofLeBytes (bytes.take field.packLength) : Nat) : Int) < (256 ^ (bytes.take field.packLength).length : Nat) := by
          exact_mod_cast ofLeBytes_lt _
      _ ≤ (256 ^ field.packLength : Nat) := by
          exact_mod_cast Nat.pow_le_pow_right (by norm_num) (length_take_le _ _)
      _ = 256 ^ field.packLength := by norm_num
  have hpow := field.pow_packLength
  simp only [Field.Holds, Field.decode]
  split_ifs with hunsigned hsmall
  · exact ⟨Int.natCast_nonneg _, hlt⟩
  · have : ((ofLeBytes (bytes.take field.packLength) : Nat) : Int) < 128 * 256 ^ (field.packLength - 1) := by
      exact_mod_cast hsmall
    omega
  have : (128 * 256 ^ (field.packLength - 1) : Int) ≤ (ofLeBytes (bytes.take field.packLength) : Nat) := by
    exact_mod_cast not_lt.1 hsmall
  omega

theorem holds_storeKeyImageToRec (image : List UInt8) : field.Holds (storeKeyImageToRec field image) := by
  rw [storeKeyImageToRec]
  split_ifs with hnull hbyte
  · exact hnull
  · exact field.holds_decode _
  exact field.holds_decode _

theorem storeKeyImageToRec_eq_none {field : Field} {image : List UInt8} :
    storeKeyImageToRec field image = none ↔ field.maybeNull = true ∧ image.headD 0 ≠ 0 := by
  rw [storeKeyImageToRec]
  split_ifs with hnull hbyte <;> simp_all

def Field.offset : Int := if field.unsignedFlag then 9223372036854775808 else 0

theorem Field.bias_valInt {field : Field} {v : Int} (hv : field.Holds (some v)) :
    bias field (valInt (some v)) = v - field.offset ∧ -9223372036854775808 ≤ v - field.offset ∧
      v - field.offset < 9223372036854775808 := by
  have hpow := field.pow_packLength
  have hle := field.pow_packLength_le
  simp only [Field.Holds] at hv
  simp only [bias, valInt, Field.offset]
  split_ifs at hv ⊢ with hunsigned
  · refine ⟨?_, by omega, by omega⟩
    unfold int64
    omega
  refine ⟨?_, by omega, by omega⟩
  rw [int64_of_range (by omega) (by omega), sub_zero]

/-! ### Ranges -/

namespace PartitionInfo

variable {info : PartitionInfo}

variable {i j part : Nat} {v m : Int}

section

variable (hrange : info.partType = .range)
include hrange

theorem rangeValue_lt (hij : i < j) (hj : j < info.noParts) : info.rangeValue i < info.rangeValue j := by
  have hlen := info.range_length hrange
  have hlt := pairwise_iff_getElem.1 (info.range_increasing hrange) i j (by omega) (by omega) hij
  simpa [rangeValue, getD_eq_getElem?_getD, hlen, hj, hij.trans hj] using hlt

theorem rangeValue_le (hij : i ≤ j) (hj : j < info.noParts) : info.rangeValue i ≤ info.rangeValue j := by
  rcases hij.lt_or_eq with hlt | rfl
  · exact (rangeValue_lt hrange hlt hj).le
  · exact le_rfl

/-- A row's partition: the ranges before it end at or below the value, its own above unless it is the one of `MAXVALUE`. -/
theorem getPartitionIdRange_some (hv : info.field.Holds (some v)) (hpart : info.getPartitionIdRange (some v) = some part) :
    part < info.noParts ∧ (∀ i < part, info.rangeValue i ≤ v - info.field.offset) ∧
      (v - info.field.offset < info.rangeValue part ∨ part = info.noParts - 1 ∧ info.definedMaxValue = true) := by
  have hpos := info.noParts_pos
  simp only [getPartitionIdRange, isNone_some, Bool.false_eq_true, if_false, (Field.bias_valInt hv).1] at hpart
  generalize v - info.field.offset = w at hpart ⊢
  split_ifs at hpart with hnone
  cases hpart
  have hmem := @lowerBound_mem (fun i => decide (info.rangeValue i ≤ w)) info.noParts 0 (info.noParts - 1) (by omega)
  refine ⟨by omega, ?_, ?_⟩
  · intro i hi
    refine of_decide_eq_true (below_of_lt_lowerBound ?_ i.zero_le hi (by omega))
    intro i j hij hj hbelow
    exact decide_eq_true ((rangeValue_le hrange hij (by omega)).trans (of_decide_eq_true hbelow))
  by_cases hlast : lowerBound (fun i => decide (info.rangeValue i ≤ w)) info.noParts 0 (info.noParts - 1) < info.noParts - 1
  · exact .inl (not_le.1 (of_decide_eq_false (not_below_lowerBound (by omega) hlast)))
  by_contra hneither
  push Not at hneither
  have hmax := hneither.2 (by omega)
  exact hnone ⟨by omega, hneither.1, Bool.eq_false_iff.2 hmax⟩

/-- The search of an endpoint: the ranges before the result end below it, the result itself does not unless it is last. -/
theorem lowerBound_endpoint (t : Int) :
    ∃ loc, lowerBound (fun i => decide (info.rangeValue i < t)) info.noParts 0 (info.noParts - 1) = loc ∧
      loc < info.noParts ∧ (∀ i < loc, info.rangeValue i < t) ∧ (loc < info.noParts - 1 → t ≤ info.rangeValue loc) := by
  have hpos := info.noParts_pos
  have hmem := @lowerBound_mem (fun i => decide (info.rangeValue i < t)) info.noParts 0 (info.noParts - 1) (by omega)
  refine ⟨_, rfl, by omega, ?_, ?_⟩
  · intro i hi
    refine of_decide_eq_true (below_of_lt_lowerBound ?_ i.zero_le hi (by omega))
    intro i j hij hj hbelow
    exact decide_eq_true ((rangeValue_le hrange hij (by omega)).trans_lt (of_decide_eq_true hbelow))
  intro hlast
  exact not_lt.1 (of_decide_eq_false (not_below_lowerBound (by omega) hlast))

end

theorem getPartitionIdRangeForEndpoint_none (left incl : Bool) :
    info.getPartitionIdRangeForEndpoint none left incl = if left = false ∧ incl = true then 1 else 0 := by
  simp [getPartitionIdRangeForEndpoint, getMonotonicityInfo, MonotonicityInfo.isNotNull]

/-- A left endpoint at or below a value starts at or before the partition of the value. -/
theorem getPartitionIdRangeForEndpoint_le (hrange : info.partType = .range) (hm : info.field.Holds (some m))
    (hv : info.field.Holds (some v)) {incl : Bool} (hle : if incl then m ≤ v else m < v)
    (hpart : info.getPartitionIdRange (some v) = some part) : info.getPartitionIdRangeForEndpoint (some m) true incl ≤ part := by
  obtain ⟨hlt, -, hend⟩ := getPartitionIdRange_some hrange hv hpart
  obtain ⟨hbias, hlow, -⟩ := Field.bias_valInt hm
  obtain ⟨-, -, hhigh⟩ := Field.bias_valInt hv
  -- an open endpoint is moved up to the next integer, which does not leave the type as the value is above it
  have ht : (if incl = false then int64 (m - info.field.offset + 1) else m - info.field.offset) ≤ v - info.field.offset := by
    cases incl with
    | false =>
      rw [if_pos rfl, int64_of_range (by omega) (by simp at hle; omega)]
      simp at hle
      omega
    | true =>
      simp at hle
      simpa using hle
  simp only [getPartitionIdRangeForEndpoint, isNone_some, Bool.false_eq_true, false_and, if_false, hbias, true_and, if_true]
  generalize (if incl = false then int64 (m - info.field.offset + 1) else m - info.field.offset) = t at ht ⊢
  obtain ⟨loc, hloc, hlocLt, hbefore, -⟩ := lowerBound_endpoint hrange t
  rw [hloc]
  have hlocLe : loc ≤ part := by
    by_contra hgt
    have := hbefore part (by omega)
    omega
  split_ifs with hnext
  · by_contra hgt
    obtain rfl : loc = part := by omega
    rcases hend with hend | ⟨hlast, hmax⟩
    · omega
    rcases hnext.2 with hlt | hnomax
    · omega
    rw [hmax] at hnomax
    cases hnomax
  exact hlocLe

theorem lt_getPartitionIdRangeForEndpoint (hrange : info.partType = .range) (hm : info.field.Holds (some m))
    (hv : info.field.Holds (some v)) {incl : Bool} (hle : if incl then v ≤ m else v < m)
    (hpart : info.getPartitionIdRange (some v) = some part) : part < info.getPartitionIdRangeForEndpoint (some m) false incl := by
  obtain ⟨hlt, hbefore, -⟩ := getPartitionIdRange_some hrange hv hpart
  simp only [getPartitionIdRangeForEndpoint, isNone_some, Bool.false_eq_true, false_and, if_false, (Field.bias_valInt hm).1]
  obtain ⟨loc, hloc, hlocLt, -, hfrom⟩ := lowerBound_endpoint hrange (m - info.field.offset)
  rw [hloc]
  by_contra hge
  have hlocPart : loc < part := by split_ifs at hge <;> omega
  have hvalue := hbefore loc hlocPart
  have hend := hfrom (by omega)
  cases incl with
  | false =>
    simp at hle
    omega
  | true =>
    simp at hle
    rw [if_pos ⟨rfl, by omega, by omega⟩] at hge
    -- the value is the end of `loc`, and the next range ends above it
    have hnext := rangeValue_lt hrange (Nat.lt_add_one loc) (by omega)
    have hnextValue := hbefore (loc + 1) (by omega)
    omega

theorem getPartitionIdRangeForEndpoint_right_le (hrange : info.partType = .range) (endpoint : Option Int) (incl : Bool) :
    info.getPartitionIdRangeForEndpoint endpoint false incl ≤ info.noParts := by
  have hpos := info.noParts_pos
  cases endpoint with
  | none =>
    rw [getPartitionIdRangeForEndpoint_none]
    split_ifs <;> omega
  | some m =>
    simp only [getPartitionIdRangeForEndpoint, isNone_some, Bool.false_eq_true, false_and, if_false]
    obtain ⟨loc, hloc, hlocLt, -⟩ := lowerBound_endpoint hrange (bias info.field (valInt (some m)))
    rw [hloc]
    split_ifs <;> omega

theorem getPartitionIdRangeForEndpoint_right_pos (m : Int) (incl : Bool) :
    0 < info.getPartitionIdRangeForEndpoint (some m) false incl := by
  simp only [getPartitionIdRangeForEndpoint, isNone_some, Bool.false_eq_true, false_and, if_false]
  split_ifs <;> omega

/-! ### Lists -/

theorem listValue_lt (hlist : info.partType = .list) (hij : i < j) (hj : j < info.noListValues) :
    (info.listEntry i).listValue < (info.listEntry j).listValue := by
  rw [noListValues] at hj
  have hlt := pairwise_iff_getElem.1 (info.list_increasing hlist) i j (hij.trans hj) hj hij
  simpa [listEntry, getD_eq_getElem?_getD, hj, hij.trans hj] using hlt

theorem getPartitionIdList_some (hv : info.field.Holds (some v)) (hpart : info.getPartitionIdList (some v) = some part) :
    ∃ i < info.noListValues, (info.listEntry i).listValue = v - info.field.offset ∧ (info.listEntry i).partitionId = part := by
  simp only [getPartitionIdList, isNone_some, Bool.false_eq_true, if_false, (Field.bias_valInt hv).1] at hpart
  split_ifs at hpart with hempty
  split at hpart
  case h_1 i hprobe =>
      obtain ⟨hvalue, hmem⟩ := probe_found hprobe (Nat.zero_le _)
      exact ⟨i, by omega, hvalue, Option.some.inj hpart⟩
  case h_2 => cases hpart

theorem getListArrayIdxForEndpoint_none (left incl : Bool) : info.getListArrayIdxForEndpoint none left incl = 0 := by
  simp [getListArrayIdxForEndpoint, getMonotonicityInfo, MonotonicityInfo.isNotNull]

/-- The index of an endpoint: what is before it is below the endpoint, what is from it on above; an entry that holds the
endpoint is before the index of an open left or closed right one, and not before the other two. -/
theorem getListArrayIdxForEndpoint_spec (hlist : info.partType = .list) (hm : info.field.Holds (some m)) (left incl : Bool)
    (hi : i < info.noListValues) : i < info.getListArrayIdxForEndpoint (some m) left incl ↔
      if left ^^ incl then (info.listEntry i).listValue ≤ m - info.field.offset
      else (info.listEntry i).listValue < m - info.field.offset := by
  simp only [getListArrayIdxForEndpoint, isNone_some, Bool.false_eq_true, false_and, if_false, (Field.bias_valInt hm).1]
  generalize m - info.field.offset = t
  have hmono : ∀ i j, 0 ≤ i → i < j → j ≤ info.noListValues - 1 → (info.listEntry i).listValue < (info.listEntry j).listValue :=
    fun i j _ hij hj => listValue_lt hlist hij (by omega)
  split
  case h_1 j hprobe =>
      obtain ⟨hvalue, hmem⟩ := probe_found hprobe (Nat.zero_le _)
      rcases lt_trichotomy i j with hlt | rfl | hgt
      · have := hmono i j i.zero_le hlt (by omega)
        split_ifs <;> omega
      · split_ifs <;> omega
      have := hmono j i j.zero_le hgt (by omega)
      split_ifs <;> omega
  case h_2 j hprobe =>
      obtain ⟨-, hj, hbelow, habove, hne⟩ := probe_missed hprobe hmono (Nat.zero_le _) (by omega)
      rcases lt_trichotomy i j with hlt | rfl | hgt
      · have := hbelow i i.zero_le hlt
        split_ifs <;> omega
      · split_ifs <;> omega
      have := habove i hgt (by omega)
      split_ifs <;> omega

theorem getListArrayIdxForEndpoint_le (hlist : info.partType = .list) (hvalues : 0 < info.noListValues) (endpoint : Option Int)
    (left incl : Bool) : info.getListArrayIdxForEndpoint endpoint left incl ≤ info.noListValues := by
  cases endpoint with
  | none =>
    rw [getListArrayIdxForEndpoint_none]
    omega
  | some m =>
    simp only [getListArrayIdxForEndpoint, isNone_some, Bool.false_eq_true, false_and, if_false]
    split
    case h_1 j hprobe =>
        have hmem := (probe_found hprobe (Nat.zero_le _)).2
        split_ifs <;> omega
    case h_2 j hprobe =>
        have hmem := probe_missed hprobe (fun i j _ hij hj => listValue_lt hlist hij (by omega)) (Nat.zero_le _) (by omega)
        split_ifs <;> omega

/-! ### Both kinds -/

def partAt (info : PartitionInfo) : Nat → Nat :=
  match info.partType with
  | .range => id
  | .list => fun i => (info.listEntry i).partitionId

def nullPart (info : PartitionInfo) : Nat :=
  match info.partType with
  | .range => 0
  | .list => info.hasNullPartId

theorem getNext_eq : info.getNext = getNextOf info.nullPart info.partAt := by
  unfold getNext nullPart partAt
  cases info.partType <;> rfl

theorem partAt_lt {n : Nat} (hn : n < info.maxEndpointVal) : info.partAt n < info.noParts := by
  cases htype : info.partType with
  | range => simpa [partAt, maxEndpointVal, htype] using hn
  | list =>
    simp only [partAt, maxEndpointVal, htype, noListValues] at hn ⊢
    refine info.list_ids htype _ ?_
    rw [listEntry, getD_eq_getElem?_getD, List.getElem?_eq_getElem hn, getD_some]
    exact getElem_mem hn

theorem getEndpoint_left_none (incl : Bool) : info.getEndpoint none true incl = 0 := by
  unfold getEndpoint
  cases info.partType with
  | range => simp [getPartitionIdRangeForEndpoint_none]
  | list => exact getListArrayIdxForEndpoint_none true incl

theorem getEndpoint_right_le (hpos : 0 < info.maxEndpointVal) (endpoint : Option Int) (incl : Bool) :
    info.getEndpoint endpoint false incl ≤ info.maxEndpointVal := by
  cases htype : info.partType with
  | range => simpa [getEndpoint, maxEndpointVal, htype] using getPartitionIdRangeForEndpoint_right_le htype endpoint incl
  | list =>
    simp only [getEndpoint, maxEndpointVal, htype] at hpos ⊢
    exact getListArrayIdxForEndpoint_le htype hpos endpoint false incl

/-- A value that has a partition has a number, whose partition it is and which every endpoint is on the right side of. -/
theorem exists_number (hv : info.field.Holds (some v)) (hpart : info.getPartitionId (some v) = some part) :
    ∃ n < info.maxEndpointVal, info.partAt n = part ∧
      (∀ (m : Int) (incl : Bool), info.field.Holds (some m) → (if incl then m ≤ v else m < v) →
        info.getEndpoint (some m) true incl ≤ n) ∧
      ∀ (m : Int) (incl : Bool), info.field.Holds (some m) → (if incl then v ≤ m else v < m) →
        n < info.getEndpoint (some m) false incl := by
  cases htype : info.partType with
  | range =>
    simp only [getPartitionId, htype] at hpart
    simp only [maxEndpointVal, partAt, getEndpoint, htype]
    refine ⟨part, (getPartitionIdRange_some htype hv hpart).1, rfl, ?_, ?_⟩
    · intro m incl hm hle
      exact getPartitionIdRangeForEndpoint_le htype hm hv hle hpart
    intro m incl hm hle
    exact lt_getPartitionIdRangeForEndpoint htype hm hv hle hpart
  | list =>
    simp only [getPartitionId, htype] at hpart
    simp only [maxEndpointVal, partAt, getEndpoint, htype]
    obtain ⟨i, hi, hvalue, hid⟩ := getPartitionIdList_some hv hpart
    refine ⟨i, hi, hid, ?_, ?_⟩
    · intro m incl hm hle
      refine not_lt.1 ((getListArrayIdxForEndpoint_spec htype hm true incl hi).not.2 ?_)
      cases incl <;> simp at hle ⊢ <;> omega
    intro m incl hm hle
    refine (getListArrayIdxForEndpoint_spec htype hm false incl hi).2 ?_
    cases incl <;> simp at hle ⊢ <;> omega

end PartitionInfo

end Mysql51.Partitioning
