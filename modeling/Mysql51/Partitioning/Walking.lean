import Mysql51.Partitioning.Pruning

/-!
# Partition pruning by walking over an interval

Partitions and subpartitions by any function of an integer column: for a short interval `get_part_iter_for_interval_via_walking`
sets up an iterator over the values of the column, each of which is stored in the column to find its partition. The function may
fail on a value. The walk over partitions goes on then, that over subpartitions ends.
-/

namespace Mysql51.Partitioning

open Machine

def maxRangeToWalk : Nat := 10

/-- The functions of `partition_info` that find the place of a row, by the value of the one column they depend on here. They fail
with `none`. -/
structure WalkInfo where
  partField : Field
  subpartField : Field
  noParts : Nat
  noSubparts : Nat
  isSubPartitioned : Bool
  getPartitionId : Option Int → Option Nat
  getPartPartitionId : Option Int → Option Nat
  getSubpartitionId : Option Int → Option Nat
  getPartitionId_ne : ∀ value, getPartitionId value ≠ some notAPartitionId
  getPartPartitionId_ne : ∀ value, getPartPartitionId value ≠ some notAPartitionId
  getSubpartitionId_ne : ∀ value, getSubpartitionId value ≠ some notAPartitionId

def getPartIdHash (noParts : Nat) (partExpr : Option Int) : Option Nat :=
  partExpr.map fun funcValue =>
    let intHashId := funcValue.tmod noParts
    if intHashId < 0 then (-intHashId).toNat else intHashId.toNat

def Field.minValue (field : Field) : Int := if field.unsignedFlag then 0 else -(128 * 256 ^ (field.packLength - 1))

def Field.maxValue (field : Field) : Int :=
  (if field.unsignedFlag then 256 ^ field.packLength else 128 * 256 ^ (field.packLength - 1)) - 1

def Field.store (field : Field) (nr : Int) (unsignedVal : Bool) : Int :=
  max field.minValue (min (if unsignedVal then nr % 2 ^ 64 else nr) field.maxValue)

/-- `PARTITION_ITERATOR` over partition numbers, or with `field_vals`. -/
inductive WalkIter where
  | single (it : PartIter)
  | walking (start cur stop : Int)
deriving DecidableEq

def initSinglePartitionIterator (partId : Nat) : PartIter := ⟨partId, partId, partId + 1, false, false⟩

namespace WalkInfo

variable (p : WalkInfo) (isSubpart : Bool)

def field : Field := if isSubpart then p.subpartField else p.partField

def totalParts : Nat := if isSubpart then p.noSubparts else p.noParts

/-- The partition or subpartition of a row with the value in the column. -/
def idOf (value : Option Int) : Option Nat :=
  if isSubpart then p.getSubpartitionId value
  else if p.isSubPartitioned then p.getPartPartitionId value else p.getPartitionId value

/-- The code (`1` the iterator is set up, `0` nothing matches, `-1` nothing can be pruned) and the iterator. -/
def getPartIterForIntervalViaWalking (minValue maxValue : List UInt8) (flags : Flags) : Int × Option WalkIter :=
  let field := p.field isSubpart
  let noRange := flags.noMinRange || flags.noMaxRange
  let minNull := field.maybeNull && minValue.headD 0 != 0
  let maxNull := field.maybeNull && maxValue.headD 0 != 0
  if !noRange && minNull && maxNull then
    match p.idOf isSubpart none with
    | some partId => (1, some (.single (initSinglePartitionIterator partId)))
    | none => (0, none)
  else if noRange || minNull || maxNull then (-1, none)
  else
    let a := valInt (storeKeyImageToRec field minValue)
    let b := valInt (storeKeyImageToRec field maxValue)
    if (b - a) % 2 ^ 64 = 2 ^ 64 - 1 then (-1, none)
    else
      let a := int64 (a + if flags.nearMin then 1 else 0)
      let b := int64 (b + if flags.nearMax then 0 else 1)
      let nValues : Int := (b - a) % 2 ^ 64
      if nValues > p.totalParts isSubpart ∨ nValues > maxRangeToWalk then (-1, none) else (1, some (.walking a a b))

/-- The test of `get_next_partition_via_walking`: the second function is asked if there are no subpartitions or the first fails. -/
def walkedPartId (value : Option Int) : Option Nat :=
  (if p.isSubPartitioned then p.getPartPartitionId value else none).or (p.getPartitionId value)

/-- The loop of `get_next_partition_via_walking`, with the number of values up to `end`. -/
def walkLoop (start stop : Int) : Nat → Int → Nat × WalkIter
  | 0, _ => (notAPartitionId, .walking start start stop)
  | n + 1, cur =>
    match p.walkedPartId (some (p.partField.store cur p.partField.unsignedFlag)) with
    | some partId => (partId, .walking start (int64 (cur + 1)) stop)
    | none => walkLoop start stop n (int64 (cur + 1))

def getNextPartitionViaWalking : WalkIter → Nat × WalkIter
  | .single it => ((PartitionInfo.getNextPartitionIdRange it).1, .single (PartitionInfo.getNextPartitionIdRange it).2)
  | .walking start cur stop => p.walkLoop start stop ((stop - cur) % 2 ^ 64).toNat cur

def getNextSubpartitionViaWalking : WalkIter → Nat × WalkIter
  | .single it => ((PartitionInfo.getNextPartitionIdRange it).1, .single (PartitionInfo.getNextPartitionIdRange it).2)
  | .walking start cur stop =>
    if cur = stop then (notAPartitionId, .walking start start stop)
    else ((p.getSubpartitionId (some (p.subpartField.store cur false))).getD notAPartitionId, .walking start (int64 (cur + 1)) stop)

def getNextViaWalking : WalkIter → Nat × WalkIter :=
  if isSubpart then p.getNextSubpartitionViaWalking else p.getNextPartitionViaWalking

end WalkInfo

def walkedIds (getNext : WalkIter → Nat × WalkIter) : Nat → WalkIter → Option (List Nat)
  | 0, _ => none
  | fuel + 1, it =>
    if (getNext it).1 = notAPartitionId then some [] else (walkedIds getNext fuel (getNext it).2).map ((getNext it).1 :: ·)

section Walk

variable {p : WalkInfo} {unsignedVal : Bool} {v start cur stop : Int} {n fuel : Nat}

theorem WalkInfo.walkedPartId_ne (value : Option Int) : p.walkedPartId value ≠ some notAPartitionId := by
  unfold walkedPartId
  intro h
  rcases Option.or_eq_some_iff.1 h with h | ⟨-, h⟩
  · split at h
    · exact p.getPartPartitionId_ne value h
    · cases h
  · exact p.getPartitionId_ne value h

theorem int64_add_one (cur : Int) (k : Nat) : int64 (int64 (cur + 1) + k) = int64 (cur + (k + 1 : Nat)) := by
  unfold int64
  omega

/-- The values from a place of the counter on, as they are stored. -/
def Field.stored (field : Field) (unsignedVal : Bool) (cur : Int) (n : Nat) : List Int :=
  (List.range n).map fun k : Nat => field.store (int64 (cur + k)) unsignedVal

theorem Field.stored_succ (field : Field) (hcur : int64 cur = cur) : field.stored unsignedVal cur (n + 1) =
    field.store cur unsignedVal :: field.stored unsignedVal (int64 (cur + 1)) n := by
  simp only [Field.stored, int64_add_one, List.range_succ_eq_map, List.map_cons, List.map_map, Function.comp_def, Int.natCast_zero,
    Int.add_zero, hcur, Nat.succ_eq_add_one]

/-- The walk over partitions passes over the values on which the function fails. -/
theorem walkedIds_partition (hcur : int64 cur = cur) (hstop : stop = int64 (cur + n)) (hn : n < 2 ^ 64) (hfuel : n < fuel) :
    walkedIds p.getNextPartitionViaWalking fuel (.walking start cur stop) =
      some ((p.partField.stored p.partField.unsignedFlag cur n).filterMap fun v => p.walkedPartId (some v)) := by
  induction n generalizing cur fuel with
  | zero =>
    obtain ⟨fuel, rfl⟩ := Nat.exists_eq_add_of_lt hfuel
    rw [Int.natCast_zero, Int.add_zero, hcur] at hstop
    rw [walkedIds, WalkInfo.getNextPartitionViaWalking, hstop, Int.sub_self, if_pos (by rfl)]
    rfl
  | succ n ih =>
    obtain ⟨fuel, rfl⟩ := Nat.exists_eq_add_of_lt hfuel
    have hnext : int64 (int64 (cur + 1)) = int64 (cur + 1) := by
      unfold int64
      omega
    have hcount : ((stop - cur) % 2 ^ 64).toNat = n + 1 := by
      rw [hstop]
      unfold int64
      omega
    have hcount' : ((stop - int64 (cur + 1)) % 2 ^ 64).toNat = n := by
      rw [hstop]
      unfold int64
      omega
    have hstop' : stop = int64 (int64 (cur + 1) + n) := by rw [hstop, int64_add_one]
    rw [Field.stored_succ _ hcur, List.filterMap_cons]
    cases hid : p.walkedPartId (some (p.partField.store cur p.partField.unsignedFlag)) with
    | none =>
      have hskip : p.getNextPartitionViaWalking (.walking start cur stop) =
          p.getNextPartitionViaWalking (.walking start (int64 (cur + 1)) stop) := by
        rw [WalkInfo.getNextPartitionViaWalking, WalkInfo.getNextPartitionViaWalking, hcount, hcount', WalkInfo.walkLoop, hid]
      have hrest := @ih (int64 (cur + 1)) (n + 1 + fuel + 1) hnext hstop' (by omega) (by omega)
      rw [walkedIds] at hrest ⊢
      rw [hskip]
      exact hrest
    | some id =>
      have hne : id ≠ notAPartitionId := fun h => p.walkedPartId_ne _ (h ▸ hid)
      have hgive : p.getNextPartitionViaWalking (.walking start cur stop) = (id, .walking start (int64 (cur + 1)) stop) := by
        rw [WalkInfo.getNextPartitionViaWalking, hcount, WalkInfo.walkLoop, hid]
      rw [walkedIds, hgive, if_neg hne, ih hnext hstop' (by omega) (by omega)]
      rfl

/-- The walk over subpartitions ends with the first value on which the function fails. -/
theorem walkedIds_subpartition (hcur : int64 cur = cur) (hstop : stop = int64 (cur + n)) (hn : n < 2 ^ 64) (hfuel : n < fuel) :
    walkedIds p.getNextSubpartitionViaWalking fuel (.walking start cur stop) =
      some ((((p.subpartField.stored false cur n).map fun v => p.getSubpartitionId (some v)).takeWhile Option.isSome).filterMap id) := by
  induction n generalizing cur fuel with
  | zero =>
    obtain ⟨fuel, rfl⟩ := Nat.exists_eq_add_of_lt hfuel
    rw [Int.natCast_zero, Int.add_zero, hcur] at hstop
    rw [walkedIds, WalkInfo.getNextSubpartitionViaWalking, if_pos hstop.symm, if_pos rfl]
    rfl
  | succ n ih =>
    obtain ⟨fuel, rfl⟩ := Nat.exists_eq_add_of_lt hfuel
    have hne : cur ≠ stop := by
      unfold int64 at *
      omega
    have hnext : int64 (int64 (cur + 1)) = int64 (cur + 1) := by
      unfold int64
      omega
    have hrest := @ih (int64 (cur + 1)) (n + 1 + fuel) hnext (by rw [hstop, int64_add_one]) (by omega) (by omega)
    rw [Field.stored_succ _ hcur, List.map_cons, walkedIds, WalkInfo.getNextSubpartitionViaWalking, if_neg hne]
    cases hid : p.getSubpartitionId (some (p.subpartField.store cur false)) with
    | none =>
      rw [Option.getD_none, if_pos rfl]
      rfl
    | some id =>
      have hgiven : id ≠ notAPartitionId := fun h => p.getSubpartitionId_ne _ (h ▸ hid)
      rw [Option.getD_some, if_neg hgiven, hrest]
      rfl

theorem mem_takeWhile_isSome {ids : List (Option Nat)} {partId : Nat} : partId ∈ (ids.takeWhile Option.isSome).filterMap id ↔
    ∃ k : Nat, ids[k]? = some (some partId) ∧ ∀ j ≤ k, ids[j]? ≠ some none := by
  induction ids with
  | nil => simp
  | cons x ids ih =>
    cases x with
    | none =>
      refine iff_of_false (by simp) ?_
      rintro ⟨k, -, hbefore⟩
      exact hbefore 0 (Nat.zero_le k) rfl
    | some x =>
      rw [List.takeWhile_cons_of_pos rfl, List.filterMap_cons_some (f := id) rfl, List.mem_cons, ih]
      constructor
      · rintro (rfl | ⟨k, hk, hbefore⟩)
        · exact ⟨0, rfl, fun j hj => by cases Nat.le_zero.1 hj; simp⟩
        refine ⟨k + 1, hk, fun j hj => ?_⟩
        cases j with
        | zero => simp
        | succ j => exact hbefore j (Nat.le_of_succ_le_succ hj)
      · rintro ⟨k, hk, hbefore⟩
        cases k with
        | zero => exact .inl (by simpa using hk.symm)
        | succ k => exact .inr ⟨k, hk, fun j hj => hbefore (j + 1) (Nat.succ_le_succ hj)⟩

theorem Field.holds_some {field : Field} : field.Holds (some v) ↔ field.minValue ≤ v ∧ v ≤ field.maxValue := by
  rw [Field.Holds, Field.minValue, Field.maxValue]
  split <;> omega

theorem Field.bounds (field : Field) : -9223372036854775808 ≤ field.minValue ∧ field.maxValue < 18446744073709551616 ∧
    (field.unsignedFlag = false → field.maxValue < 9223372036854775808) ∧ (field.unsignedFlag = true → field.minValue = 0) := by
  have hpow := field.pow_packLength
  have hle := field.pow_packLength_le
  rw [Field.minValue, Field.maxValue]
  split <;> simp_all <;> omega

theorem Field.width_lt (field : Field) : field.maxValue - field.minValue < 18446744073709551616 := by
  obtain ⟨hlow, hhigh, hsigned, hunsigned⟩ := field.bounds
  cases hflag : field.unsignedFlag with
  | false => have := hsigned hflag; omega
  | true => have := hunsigned hflag; omega

theorem Field.store_self {field : Field} (hv : field.Holds (some v)) : field.store (int64 v) field.unsignedFlag = v := by
  obtain ⟨hmin, hmax, hsigned, hunsigned⟩ := field.bounds
  rw [Field.holds_some] at hv
  unfold Field.store int64
  cases hflag : field.unsignedFlag <;> simp_all <;> omega

/-- What the walk over subpartitions stores: a value from `2 ^ 63` on is taken for a negative number. -/
def readBack (v : Int) : Int := if v < 2 ^ 63 then v else 0

theorem Field.store_false {field : Field} (hv : field.Holds (some v)) : field.store (int64 v) false = readBack v := by
  obtain ⟨hmin, hmax, hsigned, hunsigned⟩ := field.bounds
  rw [Field.holds_some] at hv
  unfold Field.store int64 readBack
  cases hflag : field.unsignedFlag <;> simp_all <;> omega

end Walk

variable (p : WalkInfo) (isSubpart : Bool) (minValue maxValue : List UInt8) (flags : Flags)

def WalkInfo.Asked (value : Option Int) : Prop :=
  (p.field isSubpart).Holds value ∧
    InInterval (storeKeyImageToRec (p.field isSubpart) minValue) (storeKeyImageToRec (p.field isSubpart) maxValue) flags value

/-- The ids that the iterator gives include those of the column's values in the interval. -/
def Covers (it : WalkIter) : Prop :=
  ∃ ids, walkedIds (p.getNextViaWalking isSubpart) (maxRangeToWalk + 2) it = some ids ∧
    ∀ value, p.Asked isSubpart minValue maxValue flags value → ∀ partId, p.idOf isSubpart value = some partId → partId ∈ ids

/-- With the values from `2 ^ 63` on replaced by zero, each subpartition is that of a value up to which the function does not fail. -/
def Reached : Prop :=
  ∀ v partId, p.Asked true minValue maxValue flags (some v) → p.getSubpartitionId (some v) = some partId →
    ∃ w, p.Asked true minValue maxValue flags (some w) ∧ p.getSubpartitionId (some (readBack w)) = some partId ∧
      ∀ u ≤ w, p.Asked true minValue maxValue flags (some u) → p.getSubpartitionId (some (readBack u)) ≠ none

section Sound

variable {p : WalkInfo} {isSubpart : Bool} {minValue maxValue : List UInt8} {flags : Flags} {it : WalkIter}

theorem inInterval_some {m M : Int} (hnomin : flags.noMinRange = false) (hnomax : flags.noMaxRange = false) (value : Option Int) :
    InInterval (some m) (some M) flags value ↔ ∃ v, value = some v ∧
      m + (if flags.nearMin = true then 1 else 0) ≤ v ∧ v < M + if flags.nearMax = true then 0 else 1 := by
  rw [InInterval, hnomin, hnomax]
  cases value with
  | none => cases flags.nearMin <;> simp [nullFirstLe, nullFirstLt]
  | some v => cases flags.nearMin <;> cases flags.nearMax <;> simp [nullFirstLe, nullFirstLt, Int.add_one_le_iff, Int.lt_add_one_iff]

/-- The iterator is that of NULL, or it walks over the `n` integers from the first one of the interval on. -/
theorem walking_cases (h : p.getPartIterForIntervalViaWalking isSubpart minValue maxValue flags = (1, some it)) :
    (∃ partId, storeKeyImageToRec (p.field isSubpart) maxValue = none ∧ flags.noMaxRange = false ∧
      p.idOf isSubpart none = some partId ∧ it = .single (initSinglePartitionIterator partId)) ∨
    ∃ (lo hi : Int) (n : Nat), n ≤ maxRangeToWalk ∧ it = .walking (int64 lo) (int64 lo) (int64 (lo + n)) ∧
      (∀ value, p.Asked isSubpart minValue maxValue flags value ↔ ∃ v, value = some v ∧ lo ≤ v ∧ v < hi) ∧
      (lo < hi → hi = lo + n ∧ (p.field isSubpart).minValue ≤ lo ∧ hi ≤ (p.field isSubpart).maxValue + 1) := by
  have hnone (image : List UInt8) : ((p.field isSubpart).maybeNull && image.headD 0 != 0) = true ↔
      storeKeyImageToRec (p.field isSubpart) image = none := by
    rw [storeKeyImageToRec_eq_none, Bool.and_eq_true, bne_iff_ne]
  have hholds := holds_storeKeyImageToRec (p.field isSubpart)
  unfold WalkInfo.getPartIterForIntervalViaWalking at h
  dsimp only at h
  split at h
  next hnull =>
    simp only [Bool.and_eq_true, Bool.not_eq_true', Bool.or_eq_false_iff] at hnull
    cases hid : p.idOf isSubpart none with
    | none =>
      rw [hid] at h
      cases h
    | some partId =>
      rw [hid] at h
      cases h
      exact .inl ⟨partId, (hnone maxValue).1 (Bool.and_eq_true_iff.2 hnull.2), hnull.1.1.2, rfl, rfl⟩
  next =>
    split at h
    next => cases h
    next hfinite =>
      simp only [Bool.or_eq_true, hnone, not_or, Bool.not_eq_true] at hfinite
      obtain ⟨⟨⟨hnomin, hnomax⟩, hmin⟩, hmax⟩ := hfinite
      obtain ⟨m, hm⟩ := Option.ne_none_iff_exists'.1 hmin
      obtain ⟨M, hM⟩ := Option.ne_none_iff_exists'.1 hmax
      have hmHolds := Field.holds_some.1 (hm ▸ hholds minValue)
      have hMHolds := Field.holds_some.1 (hM ▸ hholds maxValue)
      have hwidth := (p.field isSubpart).width_lt
      have hnear : 0 ≤ (if flags.nearMin = true then (1 : Int) else 0) := by split <;> decide
      have hfar : (if flags.nearMax = true then (0 : Int) else 1) ≤ 1 := by split <;> decide
      have hvalues := inInterval_some (m := m) (M := M) hnomin hnomax
      rw [hm, hM, valInt, valInt] at h
      unfold WalkInfo.Asked
      rw [hm, hM]
      generalize (if flags.nearMin = true then (1 : Int) else 0) = near at *
      generalize (if flags.nearMax = true then (0 : Int) else 1) = far at *
      split at h
      next => cases h
      next hall =>
        split at h
        next => cases h
        next hfew =>
          cases h
          refine .inr ⟨m + near, M + far, ((int64 (int64 M + far) - int64 (int64 m + near)) % 2 ^ 64).toNat, by omega, ?_,
            fun value => ⟨fun hin => (hvalues value).1 hin.2, fun hin => ⟨?_, (hvalues value).2 hin⟩⟩,
            fun hlt => ⟨?_, by omega, by omega⟩⟩
          · have hstop : int64 (int64 M + far) = int64 (m + near + ((int64 (int64 M + far) - int64 (int64 m + near)) % 2 ^ 64).toNat) := by
              unfold int64
              omega
            have hstart : int64 (int64 m + near) = int64 (m + near) := by
              unfold int64
              omega
            rw [← hstop, hstart]
          · obtain ⟨v, rfl, hlow, hhigh⟩ := hin
            exact Field.holds_some.2 (by omega)
          have hsame : (int64 M - int64 m) % 2 ^ 64 = (M - m) % 2 ^ 64 := by
            unfold int64
            omega
          have hcount : (int64 (int64 M + far) - int64 (int64 m + near)) % 2 ^ 64 = (M + far - (m + near)) % 2 ^ 64 := by
            unfold int64
            omega
          rw [hsame] at hall
          rw [hcount]
          omega

theorem WalkInfo.idOf_ne (value : Option Int) : p.idOf isSubpart value ≠ some notAPartitionId := by
  unfold idOf
  split
  · exact p.getSubpartitionId_ne value
  split
  · exact p.getPartPartitionId_ne value
  · exact p.getPartitionId_ne value

theorem walkedIds_single (partId : Nat) (hid : partId ≠ notAPartitionId) : walkedIds (p.getNextViaWalking isSubpart)
    (maxRangeToWalk + 2) (.single (initSinglePartitionIterator partId)) = some [partId] := by
  cases isSubpart <;> simp [walkedIds, WalkInfo.getNextViaWalking, WalkInfo.getNextPartitionViaWalking,
    WalkInfo.getNextSubpartitionViaWalking, PartitionInfo.getNextPartitionIdRange, getNextOf, initSinglePartitionIterator, hid]

theorem walkedPartId_of_idOf {value : Option Int} {partId : Nat} (h : p.idOf false value = some partId) :
    p.walkedPartId value = some partId := by
  rw [WalkInfo.idOf, if_neg Bool.false_ne_true] at h
  unfold WalkInfo.walkedPartId
  split at h
  next hsub => rw [if_pos hsub, h, Option.some_or]
  next hsub => rw [if_neg hsub, h, Option.none_or]

theorem exists_walked {lo : Int} {n : Nat} (hn : n ≤ maxRangeToWalk) : ∃ ids, walkedIds (p.getNextViaWalking isSubpart)
    (maxRangeToWalk + 2) (.walking (int64 lo) (int64 lo) (int64 (lo + n))) = some ids := by
  have hlo : int64 (int64 lo) = int64 lo := by
    unfold int64
    omega
  have hstop : int64 (lo + n) = int64 (int64 lo + n) := by
    unfold int64
    omega
  have hfew : n < 2 ^ 64 := by
    unfold maxRangeToWalk at hn
    omega
  cases isSubpart with
  | false => exact ⟨_, walkedIds_partition hlo hstop hfew (by omega)⟩
  | true => exact ⟨_, walkedIds_subpartition hlo hstop hfew (by omega)⟩

section

variable {lo hi : Int} {n : Nat} (hn : n ≤ maxRangeToWalk) (hhi : hi = lo + n)
  (hbounds : ∀ v, lo ≤ v → v < hi → (p.field isSubpart).Holds (some v))
include hn hhi hbounds

theorem mem_walked_partition (hpart : isSubpart = false) : ∃ ids,
    walkedIds (p.getNextViaWalking isSubpart) (maxRangeToWalk + 2) (.walking (int64 lo) (int64 lo) (int64 (lo + n))) = some ids ∧
    ∀ v, lo ≤ v → v < hi → ∀ partId, p.idOf isSubpart (some v) = some partId → partId ∈ ids := by
  subst hpart
  refine ⟨_, walkedIds_partition (n := n) (by unfold int64; omega) (by unfold int64; omega) (by unfold maxRangeToWalk at hn; omega) (by omega),
    fun v hlow hhigh partId hid => List.mem_filterMap.2 ⟨v, List.mem_map.2 ⟨(v - lo).toNat, List.mem_range.2 (by omega), ?_⟩,
      walkedPartId_of_idOf hid⟩⟩
  have hplace : int64 (int64 lo + (v - lo).toNat) = int64 v := by
    unfold int64
    omega
  rw [hplace]
  exact Field.store_self (hbounds v hlow hhigh)

theorem mem_walked_subpartition (hsub : isSubpart = true) : ∃ ids,
    walkedIds (p.getNextViaWalking isSubpart) (maxRangeToWalk + 2) (.walking (int64 lo) (int64 lo) (int64 (lo + n))) = some ids ∧
    ∀ partId, partId ∈ ids ↔ ∃ w, lo ≤ w ∧ w < hi ∧ p.getSubpartitionId (some (readBack w)) = some partId ∧
      ∀ u, lo ≤ u → u ≤ w → p.getSubpartitionId (some (readBack u)) ≠ none := by
  subst hsub
  refine ⟨_, walkedIds_subpartition (n := n) (by unfold int64; omega) (by unfold int64; omega) (by unfold maxRangeToWalk at hn; omega)
    (by omega), fun partId => ?_⟩
  have hget (k : Nat) (x : Option Nat) : (((p.subpartField.stored false (int64 lo) n).map fun v => p.getSubpartitionId (some v))[k]? =
      some x) ↔ k < n ∧ p.getSubpartitionId (some (readBack (lo + k))) = x := by
    rw [Field.stored, List.map_map, List.getElem?_map, Option.map_eq_some_iff]
    have hread (hk : k < n) : p.subpartField.store (int64 (int64 lo + k)) false = readBack (lo + k) := by
      have hplace : int64 (int64 lo + k) = int64 (lo + k) := by
        unfold int64
        omega
      rw [hplace]
      exact Field.store_false (hbounds _ (by omega) (by omega))
    constructor
    · rintro ⟨j, hj, hx⟩
      obtain ⟨hk, rfl⟩ := List.getElem?_eq_some_iff.1 hj
      rw [List.length_range] at hk
      rw [List.getElem_range, Function.comp_apply, hread hk] at hx
      exact ⟨hk, hx⟩
    · rintro ⟨hk, hx⟩
      refine ⟨k, List.getElem?_range hk, ?_⟩
      rw [Function.comp_apply, hread hk, hx]
  rw [mem_takeWhile_isSome]
  constructor
  · rintro ⟨k, hk, hbefore⟩
    obtain ⟨hlt, hid⟩ := (hget _ _).1 hk
    refine ⟨lo + k, by omega, by omega, hid, fun u hlow hle hnone => hbefore (u - lo).toNat (by omega) ((hget _ _).2 ⟨by omega, ?_⟩)⟩
    rw [show lo + ((u - lo).toNat : Int) = u by omega, hnone]
  · rintro ⟨w, hlow, hhigh, hid, hbefore⟩
    refine ⟨(w - lo).toNat, (hget _ _).2 ⟨by omega, ?_⟩, fun j hj hnone => ?_⟩
    · rw [show lo + ((w - lo).toNat : Int) = w by omega, hid]
    · exact hbefore (lo + j) (by omega) (by omega) ((hget _ _).1 hnone).2

end

end Sound

/-- For partitions the ids always include those of the values in the interval, for subpartitions exactly when they are reached. -/
theorem walking_covers (p : WalkInfo) (isSubpart : Bool) (minValue maxValue : List UInt8) (flags : Flags) (it : WalkIter)
    (h : p.getPartIterForIntervalViaWalking isSubpart minValue maxValue flags = (1, some it)) :
    Covers p isSubpart minValue maxValue flags it ↔ (isSubpart = true → Reached p minValue maxValue flags) := by
  obtain ⟨partId, hmax, hnomax, hid, rfl⟩ | ⟨lo, hi, n, hn, rfl, hasked, hbounds⟩ := walking_cases h
  · -- NULL is the only value that can be there
    have hnull : ∀ value, p.Asked isSubpart minValue maxValue flags value → value = none := by
      rintro value ⟨-, -, hhigh⟩
      rw [hmax, hnomax] at hhigh
      cases value with
      | none => rfl
      | some v => cases hnear : flags.nearMax <;> simp [hnear, nullFirstLt, nullFirstLe] at hhigh
    refine iff_of_true ⟨_, walkedIds_single partId fun hne => p.idOf_ne none (hne ▸ hid), fun value hmem partId' hid' => ?_⟩ ?_
    · rw [hnull value hmem, hid, Option.some.injEq] at hid'
      rw [hid']
      exact List.mem_singleton_self _
    · rintro rfl v partId hmem
      cases hnull _ hmem
  by_cases hempty : lo < hi
  swap
  · have hnone (value : Option Int) (hmem : p.Asked isSubpart minValue maxValue flags value) : False := by
      obtain ⟨v, -, hlow, hhigh⟩ := (hasked value).1 hmem
      omega
    obtain ⟨ids, hwalk⟩ := @exists_walked p isSubpart lo n hn
    refine iff_of_true ⟨ids, hwalk, fun value hmem => (hnone value hmem).elim⟩ ?_
    rintro rfl v partId hmem
    exact (hnone _ hmem).elim
  obtain ⟨hhi, hfirst, hlast⟩ := hbounds hempty
  have hholds (v : Int) (hlow : lo ≤ v) (hhigh : v < hi) : (p.field isSubpart).Holds (some v) := Field.holds_some.2 (by omega)
  have hin (v : Int) : p.Asked isSubpart minValue maxValue flags (some v) ↔ lo ≤ v ∧ v < hi := by
    rw [hasked]
    simp
  cases isSubpart with
  | false =>
    obtain ⟨ids, hwalk, hmem⟩ := mem_walked_partition hn hhi hholds rfl
    refine iff_of_true ⟨ids, hwalk, fun value hvalue partId hid => ?_⟩ fun hfalse => by cases hfalse
    obtain ⟨v, rfl, hlow, hhigh⟩ := (hasked value).1 hvalue
    exact hmem v hlow hhigh partId hid
  | true =>
    obtain ⟨ids, hwalk, hmem⟩ := mem_walked_subpartition hn hhi hholds rfl
    constructor
    · rintro ⟨ids', hwalk', hcovers⟩ - v partId hv hid
      cases hwalk.symm.trans hwalk'
      obtain ⟨w, hlow, hhigh, hw, hbefore⟩ := (hmem partId).1 (hcovers _ hv partId hid)
      exact ⟨w, (hin w).2 ⟨hlow, hhigh⟩, hw, fun u hle hu => hbefore u ((hin u).1 hu).1 hle⟩
    · intro hreached
      refine ⟨ids, hwalk, fun value hvalue partId hid => (hmem partId).2 ?_⟩
      obtain ⟨v, rfl, -, -⟩ := (hasked value).1 hvalue
      obtain ⟨w, hw, hid', hbefore⟩ := hreached rfl v partId hvalue hid
      obtain ⟨hlow, hhigh⟩ := (hin w).1 hw
      exact ⟨w, hlow, hhigh, hid', fun u hu hle => hbefore u hle ((hin u).2 ⟨hu, by omega⟩)⟩

def bigintUnsigned : Field := ⟨8, true, false, Nat.le_add_left 1 7, by decide⟩

theorem getPartIdHash_ne {noParts : Nat} (hpos : 0 < noParts) (hle : noParts ≤ maxPartitions) (partExpr : Option Int) :
    getPartIdHash noParts partExpr ≠ some notAPartitionId := by
  intro h
  obtain ⟨funcValue, -, h⟩ := Option.map_eq_some_iff.1 h
  have hmod := Int.tmod_lt_of_pos funcValue (show (0 : Int) < noParts by omega)
  have hmod' := Int.lt_tmod_of_pos funcValue (show (0 : Int) < noParts by omega)
  unfold maxPartitions at hle
  unfold notAPartitionId at h
  dsimp only at h
  split at h <;> omega

/-- One partition with two subpartitions by the hash of the column. -/
def twoHash : WalkInfo where
  partField := bigintUnsigned
  subpartField := bigintUnsigned
  noParts := 1
  noSubparts := 2
  isSubPartitioned := true
  getPartitionId value := getPartIdHash 2 (some (valInt value))
  getPartPartitionId _ := some 0
  getSubpartitionId value := getPartIdHash 2 (some (valInt value))
  getPartitionId_ne _ := getPartIdHash_ne Nat.zero_lt_two (by decide) _
  getPartPartitionId_ne _ := by decide
  getSubpartitionId_ne _ := getPartIdHash_ne Nat.zero_lt_two (by decide) _

def allOnes : List UInt8 := List.replicate 8 255

def closed : Flags := ⟨false, false, false, false⟩

theorem walking_covers_twoHash : (∃ it, twoHash.getPartIterForIntervalViaWalking false allOnes allOnes closed = (1, some it) ∧
      Covers twoHash false allOnes allOnes closed it) ∧
    ∃ it, twoHash.getPartIterForIntervalViaWalking true [1] [2] closed = (1, some it) ∧ Covers twoHash true [1] [2] closed it := by
  have hpart : twoHash.getPartIterForIntervalViaWalking false allOnes allOnes closed = (1, some (.walking (-1) (-1) 0)) := by
    decide +kernel
  have hsub : twoHash.getPartIterForIntervalViaWalking true [1] [2] closed = (1, some (.walking 1 1 3)) := by decide +kernel
  refine ⟨⟨_, hpart, (walking_covers _ _ _ _ _ _ hpart).2 fun hfalse => by cases hfalse⟩, _, hsub, (walking_covers _ _ _ _ _ _ hsub).2
    fun _ v partId hv hid => ⟨v, hv, ?_, fun u _ _ => Option.some_ne_none _⟩⟩
  have hsmall : v < 2 ^ 63 := lt_of_le_of_lt (show v ≤ 2 from hv.2.2) (by decide)
  rw [readBack, if_pos hsmall]
  exact hid

/-- The largest value is in the second subpartition, but only the first one is given for it. -/
theorem walking_misses : ∃ it, twoHash.getPartIterForIntervalViaWalking true allOnes allOnes closed = (1, some it) ∧
    walkedIds (twoHash.getNextViaWalking true) 12 it = some [0] ∧ twoHash.Asked true allOnes allOnes closed (some (2 ^ 64 - 1)) ∧
    twoHash.idOf true (some (2 ^ 64 - 1)) = some 1 :=
  ⟨.walking (-1) (-1) 0, by decide +kernel, by decide +kernel, ⟨by decide +kernel, by decide +kernel⟩, by decide +kernel⟩

end Mysql51.Partitioning
