import Mathlib.Data.List.DropRight
import Mysql51.Lib.BigEndian

/-!
# Packed rows of MyISAM

A row of a table with `HA_OPTION_PACK_RECORD` is stored packed: a bit for each column that may be left out or shortened, then
the columns, then a byte of the checksum. `mi_create` computes from the columns how many bytes the bits take and how long a
packed row is at least, `_mi_rec_pack` writes a row, and `_mi_rec_unpack` reads it and counts on the way what the columns that
are still to come need at least.
-/

namespace Mysql51.Myisam

open Machine

/-- The column types of `enum en_fieldtype`. -/
inductive FieldType
  | normal | skipEndspace | skipPrespace | skipZero | blob | constant | intervall | zero | varchar | check
  deriving DecidableEq

structure ColumnDef where
  type : FieldType
  length : Nat
  deriving DecidableEq

/-- The options of a table that decide on the format of its rows: `HA_OPTION_PACK_RECORD` and `HA_OPTION_CHECKSUM`. -/
structure Options where
  packRecord : Bool
  checksum : Bool

/-- What the two functions use of a `MYISAM_SHARE`, and whether the table is one with packed rows. -/
structure Share where
  columns : List ColumnDef
  reclength : Nat
  minPackLength : Nat
  packBits : Nat
  packRecord : Bool
  calcChecksum : Bool

structure ColumnSums where
  reclength : Nat
  packed : Nat
  minPackLength : Nat
  varcharLength : Nat

def ColumnSums.add (s : ColumnSums) (c : ColumnDef) : ColumnSums :=
  match c.type with
  | .blob | .skipZero => { s with reclength := s.reclength + c.length, packed := s.packed + 1 }
  | .skipPrespace | .skipEndspace =>
    { s with reclength := s.reclength + c.length, packed := s.packed + 1, minPackLength := s.minPackLength + 1 }
  | .varchar =>
    { s with
      reclength := s.reclength + c.length
      minPackLength := s.minPackLength + 1
      varcharLength := uint32 (s.varcharLength + ((c.length : Int) - 1)) }
  | _ => { s with reclength := s.reclength + c.length, minPackLength := s.minPackLength + c.length }

def columnSums (recinfo : List ColumnDef) : ColumnSums := recinfo.foldl ColumnSums.add ⟨0, 0, 0, 0⟩

/-- The last one-byte column of type `FIELD_SKIP_ZERO` becomes one of type `FIELD_NORMAL`. -/
def removeZeroField : List ColumnDef → Option (List ColumnDef)
  | [] => none
  | c :: cs =>
    match removeZeroField cs with
    | some cs' => some (c :: cs')
    | none => if c.type = .skipZero ∧ c.length = 1 then some ({ c with type := .normal } :: cs) else none

/-- The columns and sums after a lone bit in the last byte of the bits has been saved, if that is possible. -/
def avoidBadPacking (recinfo : List ColumnDef) (s : ColumnSums) : List ColumnDef × ColumnSums :=
  if s.packed &&& 7 = 1 then
    match removeZeroField recinfo with
    | some recinfo' => (recinfo', { s with packed := s.packed - 1, minPackLength := s.minPackLength + 1 })
    | none => (recinfo, s)
  else (recinfo, s)

def miColumndefSize : Nat := 7

/-- The part of `mi_create` that decides on the format of the rows. `oldOptions` are the options taken over from a table that is
created anew, and `headerLength` is the part of `info_length` that is not for columns. -/
def miCreate (oldOptions flags : Options) (headerLength : Nat) (recinfo : List ColumnDef) : Option Share :=
  if recinfo.length = 0 then none
  else
    let (columns, s) := avoidBadPacking recinfo (columnSums recinfo)
    let packRecord := s.packed != 0 || flags.packRecord || oldOptions.packRecord
    let checksum := flags.checksum || packRecord && oldOptions.checksum
    let packBits := (s.packed + 7) / 8
    if headerLength + recinfo.length * miColumndefSize > 65535 then none
    else
      some
        { columns := columns
          reclength := s.reclength
          minPackLength :=
            s.minPackLength + (if packRecord then 0 else s.varcharLength) + (if checksum then 1 else 0) + packBits
          packBits := packBits
          packRecord := packRecord
          calcChecksum := checksum }

/-- A column in the record buffer. For a BLOB, `bytes` are the bytes of its length, and `data` is the memory from where its
pointer leads to on. -/
structure Field where
  bytes : List UInt8
  data : List UInt8
  deriving DecidableEq

variable (c : ColumnDef)

/-- A pointer in the record buffer takes `portable_sizeof_char_ptr` bytes, the rest of a BLOB column is its length. -/
def sizeLength : Nat := uint32 ((c.length : Int) - 8)

def miCalcBlobLength (length : Nat) (pos : List UInt8) : Nat :=
  if 1 ≤ length ∧ length ≤ 4 then ofLeBytes (pos.take length) else 0

def blobLength (f : Field) : Nat := miCalcBlobLength (sizeLength c) f.bytes

def haVarcharPacklength (fieldLength : Int) : Nat := if fieldLength < 256 then 1 else 2

def varcharLength (f : Field) : Nat := ofLeBytes (f.bytes.take (haVarcharPacklength ((c.length : Int) - 1)))

def storeKeyLengthInc (length : Nat) : List UInt8 :=
  if length < 255 then [UInt8.ofNat length] else 255 :: beBytes 2 length

def getKeyLength (key : List UInt8) : Nat × Nat :=
  if key.headD 0 ≠ 255 then ((key.headD 0).toNat, 1) else (ofBeBytes ((key.drop 1).take 2), 3)

/-- The bits that are written: the bytes at `startpos` up to `packpos`, and the byte that is being filled. -/
structure BitWriter where
  written : List UInt8
  flag : Nat
  bit : Nat

def BitWriter.start : BitWriter := ⟨[], 0, 1⟩

def BitWriter.push (w : BitWriter) (b : Bool) : BitWriter :=
  let flag := if b then w.flag ||| w.bit else w.flag
  if w.bit <<< 1 ≥ 256 then ⟨w.written ++ [UInt8.ofNat flag], 0, 1⟩ else ⟨w.written, flag, w.bit <<< 1⟩

def BitWriter.finish (w : BitWriter) : List UInt8 := if w.bit ≠ 1 then w.written ++ [UInt8.ofNat w.flag] else w.written

def zeroString (behind : Nat → UInt8) (n : Nat) : List UInt8 :=
  (List.range n).map fun i => if i < 16 then 0 else behind (i - 16)

def spaceLength (newLength : Nat) : List UInt8 :=
  if c.length > 255 ∧ newLength > 127 then [UInt8.ofNat ((newLength &&& 127) + 128), UInt8.ofNat (newLength >>> 7)]
  else [UInt8.ofNat newLength]

/-- `stripped` are the bytes of the column without the spaces. The second component is the bit of the column. -/
def packSpace (f : Field) (stripped : List UInt8) : List UInt8 × Option Bool :=
  if stripped.length + 1 + (if c.length > 255 ∧ stripped.length > 127 then 1 else 0) < c.length then
    (spaceLength c stripped.length ++ stripped, some true)
  else (f.bytes, some false)

def packVarchar (f : Field) : List UInt8 :=
  let packLength := haVarcharPacklength ((c.length : Int) - 1)
  if packLength = 1 then f.bytes.take 1 ++ (f.bytes.drop 1).take (varcharLength c f)
  else storeKeyLengthInc (varcharLength c f) ++ (f.bytes.drop 2).take (varcharLength c f)

def packColumn (behind : Nat → UInt8) (c : ColumnDef) (f : Field) : List UInt8 × Option Bool :=
  match c.type with
  | .blob =>
    if blobLength c f = 0 then ([], some true)
    else (f.bytes.take (sizeLength c) ++ f.data.take (blobLength c f), some false)
  | .skipZero => if f.bytes = zeroString behind c.length then ([], some true) else (f.bytes, some false)
  | .skipEndspace => packSpace c f (f.bytes.rdropWhile (· == 32))
  | .skipPrespace => packSpace c f (f.bytes.dropWhile (· == 32))
  | .varchar => (packVarchar c f, none)
  | _ => (f.bytes, none)

structure PackState where
  bits : BitWriter
  out : List UInt8

def PackState.add (st : PackState) (p : List UInt8 × Option Bool) : PackState where
  bits :=
    match p.2 with
    | some b => st.bits.push b
    | none => st.bits
  out := st.out ++ p.1

def packColumns (behind : Nat → UInt8) : List ColumnDef → List Field → PackState → PackState
  | c :: cs, f :: fs, st => packColumns behind cs fs (st.add (packColumn behind c f))
  | _, _, st => st

def miRecPack (behind : Nat → UInt8) (share : Share) (checksum : UInt8) (record : List Field) : List UInt8 × Nat :=
  let st := packColumns behind share.columns record ⟨.start, []⟩
  let bytes := st.bits.finish ++ st.out ++ (if share.calcChecksum then [checksum] else [])
  (bytes, uint32 bytes.length)

/-- The variable `from` as the memory behind it and as its distance from the start of the row, and `min_pack_length`. -/
structure Cursor where
  rest : List UInt8
  pos : Nat
  minPackLength : Nat

namespace Cursor

variable (cur : Cursor)

def skip (n : Nat) : Cursor := { cur with rest := cur.rest.drop n, pos := cur.pos + n }

def count (n : Nat) : Cursor := { cur with minPackLength := uint32 (cur.minPackLength - n) }

def left (fromEnd : Nat) : Nat := uint32 ((fromEnd : Int) - cur.pos)

def fromLeft (fromEnd : Nat) : Nat := (((fromEnd : Int) - cur.pos) % 18446744073709551616).toNat

end Cursor

/-- What a VARCHAR column gets from the bytes at `from` once its length is known. The rest of the column is left as it is. -/
def takeVarchar (fromEnd length : Nat) (head : List UInt8) (cur : Cursor) : Option (Field × Cursor) :=
  if cur.pos + length > fromEnd then none
  else some (⟨head ++ cur.rest.take length, []⟩, (cur.skip length).count 1)

variable (c : ColumnDef)

def unpackVarchar (fromEnd : Nat) (cur : Cursor) : Option (Field × Cursor) :=
  if haVarcharPacklength (uint32 ((c.length : Int) - 1)) = 1 then
    let length := (cur.rest.headD 0).toNat
    if length > uint32 ((c.length : Int) - 1) then none
    else takeVarchar fromEnd length [cur.rest.headD 0] (cur.skip 1)
  else
    let (length, n) := getKeyLength cur.rest
    if length > uint32 ((c.length : Int) - 2) then none
    else takeVarchar fromEnd length (leBytes 2 length) (cur.skip n)

def getSpaceLength (fromEnd : Nat) (cur : Cursor) : Option (Nat × Nat) :=
  if c.length > 255 ∧ (cur.rest.headD 0).toNat &&& 128 ≠ 0 then
    if cur.pos + 1 ≥ fromEnd then none
    else some (((cur.rest.headD 0).toNat &&& 127) + ((cur.rest.drop 1).headD 0).toNat <<< 7, 2)
  else if cur.pos = fromEnd then none
  else some ((cur.rest.headD 0).toNat, 1)

def takeSpace (fromEnd length : Nat) (cur : Cursor) : Option (Field × Cursor) :=
  if length ≥ c.length ∨ uint32 (cur.minPackLength + length) > cur.left fromEnd then none
  else
    let spaces := List.replicate (c.length - length) 32
    let bytes := if c.type = .skipEndspace then cur.rest.take length ++ spaces else spaces ++ cur.rest.take length
    some (⟨bytes, []⟩, cur.skip length)

def unpackSpace (fromEnd : Nat) (cur : Cursor) : Option (Field × Cursor) :=
  match getSpaceLength c fromEnd cur with
  | none => none
  | some (length, n) => takeSpace c fromEnd length ((cur.skip n).count 1)

def unpackBlob (fromEnd : Nat) (cur : Cursor) : Option (Field × Cursor) :=
  let length := miCalcBlobLength (sizeLength c) cur.rest
  let fromLeft := cur.fromLeft fromEnd
  if fromLeft < sizeLength c ∨ fromLeft - sizeLength c < length ∨ fromLeft - sizeLength c - length < cur.minPackLength then none
  else some (⟨cur.rest.take (sizeLength c), cur.rest.drop (sizeLength c)⟩, cur.skip (sizeLength c + length))

def unpackWhole (fromEnd : Nat) (cur : Cursor) : Option (Field × Cursor) :=
  if uint32 (cur.minPackLength + c.length) > cur.left fromEnd then none
  else some (⟨cur.rest.take c.length, []⟩, cur.skip c.length)

def unpackBitColumn (fromEnd : Nat) (flagged : Bool) (cur : Cursor) : Option (Field × Cursor) :=
  if flagged then
    match c.type with
    | .blob => some (⟨List.replicate (c.length - 8) 0, []⟩, cur)
    | .skipZero => some (⟨List.replicate c.length 0, []⟩, cur)
    | .skipEndspace | .skipPrespace => unpackSpace c fromEnd cur
    | _ => some (⟨[], []⟩, cur)
  else
    match c.type with
    | .blob => unpackBlob c fromEnd cur
    | .skipEndspace | .skipPrespace => unpackWhole c fromEnd (cur.count 1)
    | _ => unpackWhole c fromEnd cur

def unpackNormal (fromEnd : Nat) (cur : Cursor) : Option (Field × Cursor) :=
  if cur.minPackLength > cur.left fromEnd then none
  else some (⟨cur.rest.take c.length, []⟩, (cur.count c.length).skip c.length)

/-- The bits that are read: the memory from `packpos` on, the byte taken from it and the bit of the next column. -/
structure BitReader where
  packpos : List UInt8
  flag : Nat
  bit : Nat

namespace BitReader

def start (packpos : List UInt8) : BitReader := ⟨packpos, (packpos.headD 0).toNat, 1⟩

variable (r : BitReader)

def flagged : Bool := r.flag &&& r.bit != 0

def next : BitReader := if r.bit <<< 1 ≥ 256 then start r.packpos.tail else { r with bit := r.bit <<< 1 }

def done : Bool := r.bit == 1 || r.flag &&& (4294967295 - (r.bit - 1)) == 0

end BitReader

structure UnpackState where
  cur : Cursor
  bits : BitReader
  toPos : Nat

def unpackColumn (c : ColumnDef) (fromEnd : Nat) (st : UnpackState) : Option (Field × UnpackState) :=
  match c.type with
  | .normal | .check => (unpackNormal c fromEnd st.cur).map fun r => (r.1, { st with cur := r.2, toPos := st.toPos + c.length })
  | .varchar => (unpackVarchar c fromEnd st.cur).map fun r => (r.1, { st with cur := r.2, toPos := st.toPos + c.length })
  | _ => (unpackBitColumn c fromEnd st.bits.flagged st.cur).map fun r => (r.1, ⟨r.2, st.bits.next, st.toPos + c.length⟩)

def unpackColumns (fromEnd : Nat) : List ColumnDef → UnpackState → Option (List Field × UnpackState)
  | [], st => some ([], st)
  | c :: cs, st =>
    match unpackColumn c fromEnd st with
    | none => none
    | some (f, st') => (unpackColumns fromEnd cs st').map fun r => (f :: r.1, r.2)

def miRecUnpack (share : Share) (mem : List UInt8) (foundLength : Nat) : Option (List Field) :=
  if foundLength < share.minPackLength then none
  else
    let cur : Cursor := ⟨mem.drop share.packBits, share.packBits, uint32 ((share.minPackLength : Int) - share.packBits)⟩
    match unpackColumns foundLength share.columns ⟨cur, .start mem, 0⟩ with
    | none => none
    | some (fields, st) =>
      let pos := st.cur.pos + if share.calcChecksum then 1 else 0
      if st.toPos = share.reclength ∧ pos = foundLength ∧ st.bits.done then some fields else none

end Mysql51.Myisam
