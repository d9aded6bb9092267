import Mysql51.Partitioning.Endpoints

/-!
# Soundness of pruning

No row of an interval is lost by pruning: the partition a value of the interval is placed in is among those the iterator
gives, and an iterator over ranges gives each partition once.
-/

namespace Mysql51.Partitioning

open Machine List

/-- The values of an interval `min <= X <= max`, open at a `NEAR` end and without the bound at a `NO_RANGE` end. A comparison
with a bound is false of NULL, which is in the interval only as its minimum. -/
def InInterval (min max : Option Int) (flags : Flags) (value : Option Int) : Prop :=
  (if flags.noMinRange then value ≠ none
    else if flags.nearMin then nullFirstLt min value else nullFirstLe min value) ∧
  (if flags.noMaxRange then True
    else if flags.nearMax then nullFirstLt value max else nullFirstLe value max)
deriving Decidable

namespace PartitionInfo

variable {info : PartitionInfo}

/-! ### What the iterator gives -/

variable {part : Nat} {it : PartIter} {maxValue minValue : List UInt8} {flags : Flags} {v : Int}

theorem notAPartitionId_ne (hpart : part < info.noParts) : part ≠ notAPartitionId := by
  have hle := info.noParts_le
  unfold maxPartitions at hle
  unfold notAPartitionId
  omega

/-- The iterator gives the partitions of its numbers in order, then the one of NULL when it is to return it. -/
theorem partitions_eq (hstop : it.stop ≤ info.maxEndpointVal) (hnull : it.retNullPart = true → info.nullPart < info.noParts)
    {fuel : Nat} (hfuel : it.stop - it.cur + 2 ≤ fuel) : info.partitions fuel it =
      some ((List.range' it.cur (it.stop - it.cur)).map info.partAt ++ if it.retNullPart then [info.nullPart] else []) := by
  generalize hn : it.stop - it.cur = n at hfuel ⊢
  induction n generalizing it fuel with
  | zero =>
    obtain ⟨fuel, rfl⟩ := Nat.exists_eq_add_of_le' hfuel
    have hge : it.cur ≥ it.stop := by omega
    cases hret : it.retNullPart with
    | false => simp [partitions, getNext_eq, getNextOf, hge, hret]
    | true =>
      have hne := notAPartitionId_ne (hnull hret)
      simp [partitions, getNext_eq, getNextOf, hge, hret, hne]
  | succ n ih =>
    obtain ⟨fuel, rfl⟩ := Nat.exists_eq_add_of_le' ((Nat.le_add_left 1 _).trans hfuel)
    have hlt : ¬ it.cur ≥ it.stop := by omega
    have hne := notAPartitionId_ne (partAt_lt (show it.cur < info.maxEndpointVal by omega))
    have hrest := @ih { it with cur := it.cur + 1 } hstop hnull fuel (by simp only; omega) (by omega)
    rw [partitions, getNext_eq, getNextOf, if_neg hlt, if_neg hne, hrest, List.range'_succ]
    rfl

/-! ### The iterator set up for an interval -/

def stopOf (info : PartitionInfo) (maxValue : List UInt8) (flags : Flags) : Nat :=
  if flags.noMaxRange then info.maxEndpointVal
  else info.rightEndpoint maxValue flags

theorem stopOf_le (hpos : 0 < info.maxEndpointVal) (maxValue : List UInt8) (flags : Flags) :
    info.stopOf maxValue flags ≤ info.maxEndpointVal := by
  unfold stopOf
  split_ifs
  · exact le_rfl
  · exact getEndpoint_right_le hpos _ _

theorem findMaximum_eq (hsome : it.start < info.stopOf maxValue flags ∨ it.retNullPart = true) :
    info.findMaximum maxValue flags it = (1, it.setStop (info.stopOf maxValue flags)) := by
  unfold stopOf at hsome ⊢
  unfold findMaximum
  split_ifs at hsome ⊢ with hmax hempty
  · rfl
  · rcases hsome with hlt | hret
    · exact absurd hlt (not_lt.2 hempty.1)
    · exact absurd (hret.symm.trans hempty.2) (by decide)
  rfl

theorem findMaximum_snd : (info.findMaximum maxValue flags it).2 = it.setStop (info.stopOf maxValue flags) := by
  unfold findMaximum stopOf
  split_ifs <;> rfl

/-- When nothing is special about the partitions, the search for the minimum decides everything. -/
theorem getPartIter_eq (hne : ¬ (info.partType = .list ∧ info.noListValues = 0)) (minValue maxValue : List UInt8)
    (flags : Flags) (it : PartIter) : info.getPartIterForIntervalViaMapping minValue maxValue flags it =
      info.findMinimum minValue maxValue flags
        (flags.isSet || minValue.take info.field.packLength != maxValue.take info.field.packLength)
        it.clearNullPart := by
  simp [getPartIterForIntervalViaMapping, hne, getMonotonicityInfo, MonotonicityInfo.isNotNull]

/-- Key images that agree on the bytes compared agree on their null byte, although not on the last byte of the value. -/
theorem storeKeyImageToRec_eq_none_of_take_eq {field : Field}
    (htake : minValue.take field.packLength = maxValue.take field.packLength) (hmin : storeKeyImageToRec field minValue = none) :
    storeKeyImageToRec field maxValue = none := by
  rw [storeKeyImageToRec_eq_none] at hmin ⊢
  refine ⟨hmin.1, ?_⟩
  obtain ⟨n, hn⟩ := Nat.exists_eq_add_of_le' field.one_le
  rw [hn] at htake
  cases minValue with
  | nil => exact absurd rfl hmin.2
  | cons b minValue =>
    cases maxValue with
    | nil => simp at htake
    | cons c maxValue =>
      rw [take_succ_cons, take_succ_cons, List.cons.injEq] at htake
      simpa [← htake.1] using hmin.2

def Gives (info : PartitionInfo) (result : Int × PartIter) (part : Nat) : Prop :=
  result.1 ≠ 0 ∧ ∃ parts, info.partitions (result.2.stop + 2) result.2 = some parts ∧ part ∈ parts

theorem gives_of_number {it : PartIter} {n : Nat} (hcur : it.cur ≤ n) (hn : n < it.stop) (hstop : it.stop ≤ info.maxEndpointVal)
    (hnull : it.retNullPart = true → info.nullPart < info.noParts) : info.Gives (1, it) (info.partAt n) := by
  refine ⟨one_ne_zero, _, partitions_eq hstop hnull (by simp only; omega), ?_⟩
  refine mem_append_left _ (mem_map_of_mem ?_)
  rw [mem_range'_1]
  omega

theorem gives_nullPart {code : Int} {it : PartIter} (hcode : code ≠ 0) (hstop : it.stop ≤ info.maxEndpointVal)
    (hret : it.retNullPart = true) (hnull : info.nullPart < info.noParts) : info.Gives (code, it) info.nullPart := by
  refine ⟨hcode, _, partitions_eq hstop (fun _ => hnull) (by simp only; omega), ?_⟩
  rw [if_pos hret]
  exact mem_append_right _ (mem_singleton_self _)

theorem nullPart_lt (hnull : info.hasNullValue = true) : info.nullPart < info.noParts := by
  unfold nullPart
  cases info.partType with
  | range => exact info.noParts_pos
  | list => exact info.null_id hnull

/-- A number below every right endpoint above `v` is below the end of an interval that has `v`. -/
theorem lt_stopOf {n : Nat} (hn : n < info.maxEndpointVal)
    (hright : ∀ (m : Int) (incl : Bool), info.field.Holds (some m) → (if incl then v ≤ m else v < m) →
      n < info.getEndpoint (some m) false incl) (hhigh : if flags.noMaxRange then True
      else if flags.nearMax then nullFirstLt (some v) (storeKeyImageToRec info.field maxValue)
      else nullFirstLe (some v) (storeKeyImageToRec info.field maxValue)) : n < info.stopOf maxValue flags := by
  have hholds := holds_storeKeyImageToRec info.field maxValue
  unfold stopOf rightEndpoint
  cases hmax : flags.noMaxRange with
  | true => simpa using hn
  | false =>
    generalize storeKeyImageToRec info.field maxValue = max at hhigh hholds ⊢
    cases max with
    | none => cases hnear : flags.nearMax <;> simp [hmax, hnear, nullFirstLt, nullFirstLe] at hhigh
    | some m =>
      rw [if_neg (by decide)]
      refine hright m _ hholds ?_
      cases hnear : flags.nearMax <;> simpa [hmax, hnear, nullFirstLt, nullFirstLe] using hhigh

/-- A number not below any left endpoint below `v` is not below the start of an interval that has `v`. -/
theorem leftEndpoint_le {n : Nat}
    (hleft : ∀ (m : Int) (incl : Bool), info.field.Holds (some m) → (if incl then m ≤ v else m < v) →
      info.getEndpoint (some m) true incl ≤ n)
    (hlow : if flags.nearMin then nullFirstLt (storeKeyImageToRec info.field minValue) (some v)
      else nullFirstLe (storeKeyImageToRec info.field minValue) (some v)) : info.leftEndpoint minValue flags ≤ n := by
  have hholds := holds_storeKeyImageToRec info.field minValue
  unfold leftEndpoint
  generalize storeKeyImageToRec info.field minValue = min at hlow hholds ⊢
  cases min with
  | none => exact (getEndpoint_left_none _).trans_le n.zero_le
  | some m =>
    refine hleft m _ hholds ?_
    cases hnear : flags.nearMin <;> simpa [hnear, nullFirstLt, nullFirstLe] using hlow

theorem gives_some (hv : info.field.Holds (some v))
    (hmem : InInterval (storeKeyImageToRec info.field minValue) (storeKeyImageToRec info.field maxValue) flags (some v))
    (hpart : info.getPartitionId (some v) = some part) (it : PartIter) :
    info.Gives (info.getPartIterForIntervalViaMapping minValue maxValue flags it) part := by
  obtain ⟨n, hn, rfl, hleft, hright⟩ := exists_number hv hpart
  obtain ⟨hlow, hhigh⟩ := hmem
  have hvalues : ¬ (info.partType = .list ∧ info.noListValues = 0) := by
    rintro ⟨htype, hzero⟩
    simp [maxEndpointVal, htype, hzero] at hn
  have hstop := stopOf_le (by omega : 0 < info.maxEndpointVal) maxValue flags
  have hnStop := lt_stopOf hn hright hhigh
  -- a maximum that is NULL has no value of the column below it
  have hmaxNull : flags.noMaxRange = false → storeKeyImageToRec info.field maxValue ≠ none := by
    intro hmax hnone
    cases hnear : flags.nearMax <;> simp [hmax, hnear, hnone, nullFirstLt, nullFirstLe] at hhigh
  rw [getPartIter_eq hvalues, findMinimum]
  split_ifs with hclosed hisNull hnomin hsingle hend
  · exact absurd (storeKeyImageToRec_eq_none.2 ⟨hclosed.1, hisNull.1⟩) (hmaxNull hisNull.2)
  · rw [findMaximum_eq (.inr rfl)]
    exact gives_of_number n.zero_le hnStop hstop fun _ => nullPart_lt hclosed.2.1
  · rw [findMaximum_eq (.inl (n.zero_le.trans_lt hnStop))]
    exact gives_of_number n.zero_le hnStop hstop (fun h => by cases h)
  · rw [Bool.or_eq_false_iff, bne_eq_false_iff_eq] at hsingle
    refine absurd (storeKeyImageToRec_eq_none_of_take_eq hsingle.1.2 hsingle.2) (hmaxNull ?_)
    have := hsingle.1.1
    simp only [Flags.isSet, Bool.or_eq_false_iff] at this
    exact this.1.1.2
  · rw [if_neg hnomin] at hlow
    have := leftEndpoint_le hleft hlow
    omega
  rw [if_neg hnomin] at hlow
  have hstart := leftEndpoint_le hleft hlow
  rw [findMaximum_eq (.inl (hstart.trans_lt hnStop))]
  exact gives_of_number hstart hnStop hstop (fun h => by cases h)

theorem inInterval_none {min max : Option Int} (hmem : InInterval min max flags none) :
    flags.noMinRange = false ∧ flags.nearMin = false ∧ min = none := by
  obtain ⟨hlow, -⟩ := hmem
  cases hnomin : flags.noMinRange with
  | true => simp [hnomin] at hlow
  | false =>
    cases hnear : flags.nearMin with
    | true => simp [hnomin, hnear, nullFirstLt, nullFirstLe] at hlow
    | false =>
      cases min with
      | none => exact ⟨rfl, rfl, rfl⟩
      | some m => simp [hnomin, hnear, nullFirstLe] at hlow

theorem stopOf_pos (hrange : info.partType = .range) {min : Option Int}
    (hmem : InInterval min (storeKeyImageToRec info.field maxValue) flags none) : 0 < info.stopOf maxValue flags := by
  obtain ⟨-, hhigh⟩ := hmem
  unfold stopOf
  cases hmax : flags.noMaxRange with
  | true => simpa [maxEndpointVal, hrange] using info.noParts_pos
  | false =>
    simp only [rightEndpoint, getEndpoint, hrange, Bool.false_eq_true, if_false]
    generalize storeKeyImageToRec info.field maxValue = max at hhigh
    cases max with
    | none =>
      rw [getPartitionIdRangeForEndpoint_none]
      cases hnear : flags.nearMax with
      | true => simp [hmax, hnear, nullFirstLt, nullFirstLe] at hhigh
      | false => decide
    | some m => exact getPartitionIdRangeForEndpoint_right_pos m _

theorem gives_none
    (hmem : InInterval (storeKeyImageToRec info.field minValue) (storeKeyImageToRec info.field maxValue) flags none)
    (hpart : info.getPartitionId none = some part) (it : PartIter) :
    info.Gives (info.getPartIterForIntervalViaMapping minValue maxValue flags it) part := by
  obtain ⟨hnomin, hnear, hmin⟩ := inInterval_none hmem
  obtain ⟨hnullable, hbyte⟩ := storeKeyImageToRec_eq_none.1 hmin
  cases htype : info.partType with
  | range =>
    have hpos : 0 < info.maxEndpointVal := by simpa [maxEndpointVal, htype] using info.noParts_pos
    have hnull : info.nullPart < info.noParts := by simpa [nullPart, htype] using info.noParts_pos
    obtain rfl : 0 = part := by simpa [getPartitionId, getPartitionIdRange, htype] using hpart
    have hstart : info.leftEndpoint minValue flags = 0 := by rw [leftEndpoint, hmin, getEndpoint_left_none]
    have hstop := stopOf_pos htype hmem
    rw [getPartIter_eq (by simp [htype]), findMinimum, if_neg (by simp [info.range_null htype]), if_neg (by simp [hnomin]),
      hstart, if_neg hpos.ne]
    split_ifs with hsingle
    · have h := @gives_nullPart info 1 ((it.clearNullPart.addNullPart.setStart 0).setStop 0) one_ne_zero (Nat.zero_le _) rfl hnull
      simpa [nullPart, htype] using h
    rw [findMaximum_eq (.inl hstop)]
    have h := @gives_of_number info ((it.clearNullPart.setStart 0).setStop (info.stopOf maxValue flags)) 0 le_rfl hstop
      (stopOf_le hpos _ _) (fun h => by cases h)
    simpa [partAt, htype, PartIter.setStop, PartIter.setStart] using h
  | list =>
    obtain ⟨hnull, hid⟩ : info.hasNullValue = true ∧ info.hasNullPartId = part := by
      simpa [getPartitionId, getPartitionIdList, htype] using hpart
    obtain rfl : info.nullPart = part := by simpa [nullPart, htype] using hid
    have hlt := nullPart_lt hnull
    by_cases hvalues : info.noListValues = 0
    · rw [getPartIterForIntervalViaMapping, if_pos ⟨htype, hvalues⟩]
      exact gives_nullPart (by decide) (Nat.zero_le _) rfl hlt
    have hpos : 0 < info.maxEndpointVal := by
      simp only [maxEndpointVal, htype]
      omega
    rw [getPartIter_eq (fun h => hvalues h.2), findMinimum, if_pos ⟨hnullable, hnull, hnomin, hnear, hbyte⟩]
    split_ifs with hisNull
    · exact gives_nullPart one_ne_zero (Nat.zero_le _) rfl hlt
    rw [findMaximum_eq (.inr rfl)]
    exact gives_nullPart one_ne_zero (stopOf_le hpos _ _) rfl hlt

/-- Over ranges the iterator gives the partitions of an interval of numbers, or only the one of NULL. -/
theorem getPartIter_range (hrange : info.partType = .range) (minValue maxValue : List UInt8) (flags : Flags) (it : PartIter)
    (hcode : (info.getPartIterForIntervalViaMapping minValue maxValue flags it).1 ≠ 0) :
    ∃ start, (info.getPartIterForIntervalViaMapping minValue maxValue flags it).2 =
        (it.clearNullPart.setStart start).setStop (info.stopOf maxValue flags) ∨
      (info.getPartIterForIntervalViaMapping minValue maxValue flags it).2 =
        (it.clearNullPart.addNullPart.setStart 0).setStop 0 := by
  rw [getPartIter_eq (by simp [hrange]), findMinimum, if_neg (by simp [info.range_null hrange])] at hcode ⊢
  split_ifs at hcode ⊢ with hnomin hsingle hend
  · exact ⟨0, .inl findMaximum_snd⟩
  · exact ⟨0, .inr rfl⟩
  · exact absurd rfl hcode
  exact ⟨_, .inl findMaximum_snd⟩

theorem nodup_partitions (hrange : info.partType = .range) (minValue maxValue : List UInt8) (flags : Flags) (it : PartIter)
    (hcode : (info.getPartIterForIntervalViaMapping minValue maxValue flags it).1 ≠ 0) :
    ∃ parts, info.partitions ((info.getPartIterForIntervalViaMapping minValue maxValue flags it).2.stop + 2)
      (info.getPartIterForIntervalViaMapping minValue maxValue flags it).2 = some parts ∧ parts.Nodup := by
  have hpos : 0 < info.maxEndpointVal := by simpa [maxEndpointVal, hrange] using info.noParts_pos
  obtain ⟨start, hit | hit⟩ := getPartIter_range hrange minValue maxValue flags it hcode
  · rw [hit]
    refine ⟨_, partitions_eq (stopOf_le hpos maxValue flags) (fun h => absurd h Bool.false_ne_true) (by simp only [PartIter.setStop]; omega), ?_⟩
    simpa [partAt, hrange, PartIter.setStop, PartIter.setStart, PartIter.clearNullPart] using nodup_range'
  rw [hit]
  refine ⟨_, partitions_eq (Nat.zero_le _) (fun _ => ?_) (by simp only [PartIter.setStop]; omega), ?_⟩
  · simpa [nullPart, hrange] using info.noParts_pos
  · simp [PartIter.setStop, PartIter.setStart, PartIter.addNullPart]

end PartitionInfo

/-- Pruning is sound: every value of the interval that has a partition has it among those of the iterator, and an iterator
over ranges gives no partition twice. -/
theorem pruning_sound (info : PartitionInfo) (minValue maxValue : List UInt8) (flags : Flags) (it : PartIter) :
    (∀ value part, info.field.Holds value →
      InInterval (storeKeyImageToRec info.field minValue) (storeKeyImageToRec info.field maxValue) flags value →
      info.getPartitionId value = some part →
      info.Gives (info.getPartIterForIntervalViaMapping minValue maxValue flags it) part) ∧
    (info.partType = .range → (info.getPartIterForIntervalViaMapping minValue maxValue flags it).1 ≠ 0 →
      ∃ parts, info.partitions ((info.getPartIterForIntervalViaMapping minValue maxValue flags it).2.stop + 2)
        (info.getPartIterForIntervalViaMapping minValue maxValue flags it).2 = some parts ∧ parts.Nodup) := by
  refine ⟨?_, fun hrange => PartitionInfo.nodup_partitions hrange minValue maxValue flags it⟩
  intro value part hvalue hmem hpart
  cases value with
  | none => exact PartitionInfo.gives_none hmem hpart it
  | some v => exact PartitionInfo.gives_some hvalue hmem hpart it

def sampleField : Field := ⟨1, true, true, by decide, by decide⟩

def sampleRange : PartitionInfo where
  field := sampleField
  partType := .range
  noParts := 3
  rangeIntArray := [-9223372036854775798, -9223372036854775788, 9223372036854775807]
  definedMaxValue := true
  listArray := []
  hasNullValue := false
  hasNullPartId := 0
  noParts_pos := by decide
  noParts_le := by decide
  range_length := fun _ => rfl
  range_increasing := fun _ => by decide
  range_null := fun _ => rfl
  list_increasing := nofun
  list_ids := nofun
  null_id := nofun

theorem pruning_sound_sample : sampleRange.Gives
        (sampleRange.getPartIterForIntervalViaMapping [0, 5] [0, 20] ⟨false, false, false, true⟩ ⟨7, 7, 7, true, true⟩) 1 ∧
      ∃ parts, sampleRange.partitions 4 ⟨0, 0, 2, false, false⟩ = some parts ∧ parts.Nodup :=
  have h := pruning_sound sampleRange [0, 5] [0, 20] ⟨false, false, false, true⟩ ⟨7, 7, 7, true, true⟩
  ⟨h.1 (some 12) 1 (by decide) (by decide) (by decide +kernel), h.2 rfl (by decide +kernel)⟩

end Mysql51.Partitioning
