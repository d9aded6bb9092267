import Mysql51.Lib.Machine
import Mysql51.Lib.BinarySearch

/-!
# Partition pruning through an ordered mapping

`RANGE` and `LIST` partitioning by an integer column of `sql_partition.cc`: where a row is placed
(`get_partition_id_range`, `get_partition_id_list`), and which partitions an interval of the column can reach
(`get_part_iter_for_interval_via_mapping` with the iterators it sets up). The partition function is the column itself, so
that `part_expr` is an `Item_field`. A value of the column is an `Option Int`, with `none` for NULL; a `longlong` is an `Int`
reduced by `int64` where the source's arithmetic may leave the type.
-/

namespace Mysql51.Partitioning

open Machine

/-- An integer column: `pack_length_in_rec()`, `unsigned_flag` and `real_maybe_null()`. -/
structure Field where
  packLength : Nat
  unsignedFlag : Bool
  maybeNull : Bool
  one_le : 1 ≤ packLength
  le_eight : packLength ≤ 8

variable (field : Field)

/-- The values of the column's type, NULL among them when it is nullable. -/
def Field.Holds : Option Int → Prop
  | none => field.maybeNull = true
  | some v =>
    if field.unsignedFlag then 0 ≤ v ∧ v < 256 ^ field.packLength
    else -(128 * 256 ^ (field.packLength - 1)) ≤ v ∧ v < 128 * 256 ^ (field.packLength - 1)

instance (field : Field) : ∀ value, Decidable (field.Holds value)
  | none => inferInstanceAs (Decidable (field.maybeNull = true))
  | some _ => inferInstanceAs (Decidable (if field.unsignedFlag then _ else _))

/-- The number that the record's bytes stand for, lowest byte first, in two's complement when the column is signed. -/
def Field.decode (bytes : List UInt8) : Int :=
  let n : Nat := ofLeBytes (bytes.take field.packLength)
  if field.unsignedFlag then n
  else if n < 128 * 256 ^ (field.packLength - 1) then n
  else n - 256 ^ field.packLength

/-- `store_key_image_to_rec`: the value of the column once the key image is stored, whose first byte is the null byte when
the column is nullable. -/
def storeKeyImageToRec (image : List UInt8) : Option Int :=
  if field.maybeNull then
    if image.headD 0 ≠ 0 then none else some (field.decode (image.drop 1))
  else some (field.decode image)

def longlongMin : Int := -9223372036854775808

inductive MonotonicityInfo where
  | nonMonotonic
  | monotonicIncreasing
  | monotonicIncreasingNotNull
  | monotonicStrictIncreasing
  | monotonicStrictIncreasingNotNull
deriving Repr, DecidableEq

def getMonotonicityInfo : MonotonicityInfo := .monotonicStrictIncreasing

def MonotonicityInfo.isNotNull (monotonic : MonotonicityInfo) : Bool :=
  monotonic = .monotonicIncreasingNotNull ∨ monotonic = .monotonicStrictIncreasingNotNull

/-- `val_int()` of the column as a `longlong`, which `Item_field::val_int_endpoint` and `part_val_int` replace by the lowest
one when it is NULL. -/
def valInt : Option Int → Int
  | none => longlongMin
  | some v => int64 v

def bias (partFuncValue : Int) : Int :=
  if field.unsignedFlag then int64 (partFuncValue - 9223372036854775808) else partFuncValue

inductive PartType where
  | range
  | list
deriving Repr, DecidableEq

structure ListPartEntry where
  listValue : Int
  partitionId : Nat
deriving Repr, DecidableEq

def maxPartitions : Nat := 1024

def notAPartitionId : Nat := 4294967295

/-- `partition_info` of a table partitioned by the column, as `check_range_constants` and `check_list_constants` leave it. -/
structure PartitionInfo where
  field : Field
  partType : PartType
  noParts : Nat
  rangeIntArray : List Int
  definedMaxValue : Bool
  listArray : List ListPartEntry
  hasNullValue : Bool
  hasNullPartId : Nat
  noParts_pos : 0 < noParts
  noParts_le : noParts ≤ maxPartitions
  range_length : partType = .range → rangeIntArray.length = noParts
  range_increasing : partType = .range → rangeIntArray.Pairwise (· < ·)
  range_null : partType = .range → hasNullValue = false
  list_increasing : partType = .list → listArray.Pairwise (fun e e' => e.listValue < e'.listValue)
  list_ids : partType = .list → ∀ e ∈ listArray, e.partitionId < noParts
  null_id : hasNullValue = true → hasNullPartId < noParts

namespace PartitionInfo

variable (info : PartitionInfo)

def rangeValue (i : Nat) : Int := info.rangeIntArray.getD i 0

def noListValues : Nat := info.listArray.length

def listEntry (i : Nat) : ListPartEntry := info.listArray.getD i ⟨0, 0⟩

def getPartitionIdRange (value : Option Int) : Option Nat :=
  if value.isNone then some 0
  else
    let maxPartition := info.noParts - 1
    let partFuncValue := bias info.field (valInt value)
    let locPartId := BinarySearch.lowerBound (fun i => info.rangeValue i ≤ partFuncValue) info.noParts 0 maxPartition
    if locPartId = maxPartition ∧ partFuncValue ≥ info.rangeValue locPartId ∧ info.definedMaxValue = false then none
    else some locPartId

def getPartitionIdList (value : Option Int) : Option Nat :=
  if value.isNone then
    if info.hasNullValue then some info.hasNullPartId else none
  -- `max_list_index` starts at `-1` and the loop is not entered
  else if info.noListValues = 0 then none
  else
    match BinarySearch.probe (fun i => (info.listEntry i).listValue) (bias info.field (valInt value)) info.noListValues 0
        (info.noListValues - 1) with
    | .found listIndex => some (info.listEntry listIndex).partitionId
    | .missed _ => none

def getPartitionId (value : Option Int) : Option Nat :=
  match info.partType with
  | .range => info.getPartitionIdRange value
  | .list => info.getPartitionIdList value

variable (endpoint : Option Int)

def getPartitionIdRangeForEndpoint (leftEndpoint includeEndpoint : Bool) : Nat :=
  if endpoint.isNone ∧ getMonotonicityInfo.isNotNull = false then
    if leftEndpoint = false ∧ includeEndpoint = true then 1 else 0
  else
    let maxPartition := info.noParts - 1
    let biased := bias info.field (valInt endpoint)
    let partFuncValue := if leftEndpoint = true ∧ includeEndpoint = false then int64 (biased + 1) else biased
    let locPartId := BinarySearch.lowerBound (fun i => info.rangeValue i < partFuncValue) info.noParts 0 maxPartition
    let partEndVal := info.rangeValue locPartId
    if leftEndpoint then
      if partFuncValue ≥ partEndVal ∧ (locPartId < maxPartition ∨ info.definedMaxValue = false) then locPartId + 1
      else locPartId
    else
      -- the end of a right endpoint is after its partition
      if includeEndpoint = true ∧ locPartId < maxPartition ∧ partFuncValue = partEndVal then locPartId + 1 + 1
      else locPartId + 1

def getListArrayIdxForEndpoint (leftEndpoint includeEndpoint : Bool) : Nat :=
  if endpoint.isNone ∧ getMonotonicityInfo.isNotNull = false then 0
  else
    let partFuncValue := bias info.field (valInt endpoint)
    let listValue (i : Nat) : Int := (info.listEntry i).listValue
    match BinarySearch.probe listValue partFuncValue info.noListValues 0 (info.noListValues - 1) with
    | .found listIndex => if leftEndpoint ^^ includeEndpoint then listIndex + 1 else listIndex
    | .missed listIndex => if listValue listIndex < partFuncValue then listIndex + 1 else listIndex

def getEndpoint (leftEndpoint includeEndpoint : Bool) : Nat :=
  match info.partType with
  | .range => info.getPartitionIdRangeForEndpoint endpoint leftEndpoint includeEndpoint
  | .list => info.getListArrayIdxForEndpoint endpoint leftEndpoint includeEndpoint

def maxEndpointVal : Nat :=
  match info.partType with
  | .range => info.noParts
  | .list => info.noListValues

end PartitionInfo

/-- The flags `NO_MIN_RANGE`, `NO_MAX_RANGE`, `NEAR_MIN` and `NEAR_MAX` of an interval. -/
structure Flags where
  noMinRange : Bool
  noMaxRange : Bool
  nearMin : Bool
  nearMax : Bool
deriving Repr, DecidableEq

def Flags.isSet (flags : Flags) : Bool := flags.noMinRange || flags.noMaxRange || flags.nearMin || flags.nearMax

/-- `PARTITION_ITERATOR`, with `part_nums.end` as `stop`. -/
structure PartIter where
  start : Nat
  cur : Nat
  stop : Nat
  retNullPart : Bool
  retNullPartOrig : Bool
deriving Repr, DecidableEq

variable (it : PartIter)

def PartIter.setStart (start : Nat) : PartIter := { it with start := start, cur := start }

def PartIter.setStop (stop : Nat) : PartIter := { it with stop := stop }

def PartIter.addNullPart : PartIter := { it with retNullPart := true, retNullPartOrig := true }

def PartIter.clearNullPart : PartIter := { it with retNullPart := false, retNullPartOrig := false }

def getNextOf (nullPart : Nat) (part : Nat → Nat) (it : PartIter) : Nat × PartIter :=
  if it.cur ≥ it.stop then
    if it.retNullPart then (nullPart, { it with retNullPart := false })
    else (notAPartitionId, { it with cur := it.start, retNullPart := it.retNullPartOrig })
  else (part it.cur, { it with cur := it.cur + 1 })

namespace PartitionInfo

variable (info : PartitionInfo)

def getNextPartitionIdRange : PartIter → Nat × PartIter := getNextOf 0 id

def getNextPartitionIdList : PartIter → Nat × PartIter :=
  getNextOf info.hasNullPartId fun i => (info.listEntry i).partitionId

def getNext : PartIter → Nat × PartIter :=
  match info.partType with
  | .range => getNextPartitionIdRange
  | .list => info.getNextPartitionIdList

/-- The partitions the iterator gives up to `NOT_A_PARTITION_ID`; `none` when the fuel does not reach it. -/
def partitions : Nat → PartIter → Option (List Nat)
  | 0, _ => none
  | fuel + 1, it =>
    if (info.getNext it).1 = notAPartitionId then some []
    else (partitions fuel (info.getNext it).2).map ((info.getNext it).1 :: ·)

def leftEndpoint (minValue : List UInt8) (flags : Flags) : Nat :=
  info.getEndpoint (storeKeyImageToRec info.field minValue) true (!flags.nearMin)

def rightEndpoint (maxValue : List UInt8) (flags : Flags) : Nat :=
  info.getEndpoint (storeKeyImageToRec info.field maxValue) false (!flags.nearMax)

def findMaximum (maxValue : List UInt8) (flags : Flags) (it : PartIter) : Int × PartIter :=
  if flags.noMaxRange then (1, it.setStop info.maxEndpointVal)
  else if it.start ≥ info.rightEndpoint maxValue flags ∧ it.retNullPart = false then
    (0, it.setStop (info.rightEndpoint maxValue flags))
  else (1, it.setStop (info.rightEndpoint maxValue flags))

def findMinimum (minValue maxValue : List UInt8) (flags : Flags) (canMatchMultipleValues : Bool) (it : PartIter) :
    Int × PartIter :=
  -- the left bound is `NULL <= X`
  if info.field.maybeNull = true ∧ info.hasNullValue = true ∧ flags.noMinRange = false ∧ flags.nearMin = false ∧
      minValue.headD 0 ≠ 0 then
    if maxValue.headD 0 ≠ 0 ∧ flags.noMaxRange = false then (1, (it.addNullPart.setStart 0).setStop 0)
    else info.findMaximum maxValue flags (it.addNullPart.setStart 0)
  else if flags.noMinRange then info.findMaximum maxValue flags (it.setStart 0)
  else if canMatchMultipleValues = false ∧ storeKeyImageToRec info.field minValue = none then
    (1, (it.addNullPart.setStart 0).setStop 0)
  else if info.leftEndpoint minValue flags = info.maxEndpointVal then (0, it.setStart (info.leftEndpoint minValue flags))
  else info.findMaximum maxValue flags (it.setStart (info.leftEndpoint minValue flags))

/-- `get_part_iter_for_interval_via_mapping`: the code it returns (`0` no partitions, `1` the iterator is set up, `-1` nothing
can be pruned) and the iterator, which has any content before. The images have the null byte of a nullable column first,
so that `memcmp` over `field_len` bytes does not reach the last byte of such a column. -/
def getPartIterForIntervalViaMapping (minValue maxValue : List UInt8) (flags : Flags) (it : PartIter) : Int × PartIter :=
  if info.partType = .list ∧ info.noListValues = 0 then (-1, (it.addNullPart.setStart 0).setStop 0)
  else
    let fieldLen := info.field.packLength
    let canMatchMultipleValues := flags.isSet || minValue.take fieldLen != maxValue.take fieldLen
    if canMatchMultipleValues ∧ (info.partType = .range ∨ info.hasNullValue) ∧ getMonotonicityInfo.isNotNull then
      info.findMinimum minValue maxValue flags canMatchMultipleValues it.addNullPart
    else info.findMinimum minValue maxValue flags canMatchMultipleValues it.clearNullPart

end PartitionInfo

end Mysql51.Partitioning
