import Mysql51.Lib.Machine

/-!
# The row image of row-based replication

`pack_row` writes the columns of a row that are in a bitmap: first a null bit for each, then the packed values of those that
are not NULL. `unpack_row` reads such an image into a table that may have fewer columns than the one it was written from. Both
go over the columns once, with a running mask into the null bits.
-/

namespace Mysql51.Rpl

structure Cell (V : Type) where
  null : Bool
  value : V
  deriving DecidableEq

/-- What the two functions use of a `Field`. `unpack` gets the metadata of the master's column and the bytes at the pointer,
and returns the value and the number of bytes up to the pointer that it returns. -/
structure Field (V : Type) where
  fieldName : String
  maybeNull : Bool
  ptr : Nat
  resetValue : V
  defaultValue : V
  pack : V → List UInt8
  unpack : UInt16 → List UInt8 → V × Nat

namespace Field

variable {V : Type} (f : Field V)

variable (c : Cell V)

def isNull : Bool := f.maybeNull && c.null

def setNull : Cell V := if f.maybeNull then { c with null := true } else c

def setNotnull : Cell V := if f.maybeNull then { c with null := false } else c

def reset : Cell V := { c with value := f.resetValue }

def setDefault : Cell V := { c with value := f.defaultValue }

end Field

def bitmapBitsSet (cols : List Bool) : Nat := cols.count true

def nullByteCount (cols : List Bool) : Nat := (bitmapBitsSet cols + 7) / 8

def byteOf (x : BitVec 32) : UInt8 := ⟨x.setWidth 8⟩

def ofByte (b : UInt8) : BitVec 32 := b.toBitVec.setWidth 32

/-- The variables of `pack_row`: the bytes at `row_data` up to `pack_ptr`, and the rest. -/
structure PackState where
  row : List UInt8
  nullPtr : Nat
  nullBits : BitVec 32
  nullMask : BitVec 32

variable {V : Type}

def packField (f : Field V) (c : Cell V) (s : PackState) : PackState :=
  let s : PackState :=
    if f.isNull c then { s with nullBits := s.nullBits ||| s.nullMask }
    else { s with nullBits := s.nullBits &&& ~~~s.nullMask, row := s.row ++ f.pack c.value }
  let nullMask := s.nullMask <<< 1
  if nullMask &&& 0xff#32 = 0#32 then
    { row := s.row.set s.nullPtr (byteOf s.nullBits), nullPtr := s.nullPtr + 1, nullBits := 0xff#32, nullMask := 1#32 }
  else { s with nullMask := nullMask }

def packFields : List (Field V) → List Bool → List (Cell V) → PackState → PackState
  | f :: fields, col :: cols, c :: record, s => packFields fields cols record (if col then packField f c s else s)
  | _, _, _, s => s

def packRow (fields : List (Field V)) (cols : List Bool) (record : List (Cell V)) : List UInt8 :=
  let s := packFields fields cols record
    { row := List.replicate (nullByteCount cols) 0, nullPtr := 0, nullBits := 0xff#32, nullMask := 1#32 }
  if 1#32 < s.nullMask &&& 0xff#32 then s.row.set s.nullPtr (byteOf s.nullBits) else s.row

/-- What `unpack_row` uses of the `table_def` that describes the master's table. -/
structure TableDef where
  size : Nat
  maybeNull : Nat → Bool
  fieldMetadata : Nat → UInt16
  calcFieldSize : Nat → List UInt8 → Nat

inductive WarnLevel where
  | note
  | warn
  | error
  deriving DecidableEq

def haErrRowsEventApply : Int := 173

/-- The pointers into the row, and what is reported. A warning is an `ER_BAD_NULL_ERROR` with the name of the field. -/
structure UnpackState where
  nullPtr : Nat
  packPtr : Nat
  nullBits : BitVec 32
  nullMask : BitVec 32
  error : Int
  warnings : List (WarnLevel × String)

def nextNullByte (rowData : List UInt8) (s : UnpackState) : UnpackState :=
  if s.nullMask &&& 0xff#32 = 0#32 then
    { s with nullMask := 1#32, nullBits := ofByte (rowData.getD s.nullPtr 0), nullPtr := s.nullPtr + 1 }
  else s

/-- A null bit for a column that cannot be NULL. `strict` is `abort_on_warning` for the first row or a table with
transactions. -/
def unpackBadNull (strict : Bool) (f : Field V) (c : Cell V) (s : UnpackState) : Cell V × UnpackState :=
  if strict then
    (c, { s with error := haErrRowsEventApply, warnings := s.warnings ++ [(.error, f.fieldName)] })
  else (f.setDefault c, { s with warnings := s.warnings ++ [(.warn, f.fieldName)] })

def unpackField (strict : Bool) (rowData : List UInt8) (metadata : UInt16) (f : Field V) (c : Cell V) (s : UnpackState) :
    Cell V × UnpackState :=
  let s := nextNullByte rowData s
  let (c, s) :=
    if s.nullBits &&& s.nullMask ≠ 0#32 then
      if f.maybeNull then (f.setNull (f.reset c), s) else unpackBadNull strict f c s
    else
      let c := f.setNotnull c
      let (value, size) := f.unpack metadata (rowData.drop s.packPtr)
      ({ c with value := value }, { s with packPtr := s.packPtr + size })
  (c, { s with nullMask := s.nullMask <<< 1 })

/-- The loop over the columns that the table has, the first `colcnt` at most. It returns the record, the variables and `i`. -/
def unpackFields (strict : Bool) (rowData : List UInt8) (tabledef : TableDef) :
    Nat → List (Field V) → List Bool → List (Cell V) → Nat → UnpackState → List (Cell V) × UnpackState × Nat
  | colcnt + 1, f :: fields, col :: cols, c :: record, i, s =>
    let (c, s) := if col then unpackField strict rowData (tabledef.fieldMetadata i) f c s else (c, s)
    let (record, s, i) := unpackFields strict rowData tabledef colcnt fields cols record (i + 1) s
    (c :: record, s, i)
  | _, _, _, record, i, s => (record, s, i)

/-- The body of the loop over the master's extra columns, for one that is in the bitmap. -/
def skipField (rowData : List UInt8) (tabledef : TableDef) (i : Nat) (s : UnpackState) : UnpackState :=
  let s := nextNullByte rowData s
  let s :=
    if s.nullBits &&& s.nullMask ≠ 0#32 ∧ tabledef.maybeNull i then s
    else { s with packPtr := s.packPtr + tabledef.calcFieldSize i (rowData.drop s.packPtr) }
  { s with nullMask := s.nullMask <<< 1 }

/-- The loop that throws away the master's extra fields, over the rest of the bitmap. -/
def skipFields (rowData : List UInt8) (tabledef : TableDef) : List Bool → Nat → UnpackState → UnpackState
  | col :: cols, i, s => skipFields rowData tabledef cols (i + 1) (if col then skipField rowData tabledef i s else s)
  | [], _, s => s

/-- What `unpack_row` returns: its value, the record, `row_end`, `master_reclength` and the warnings. -/
structure Unpacked (V : Type) where
  error : Int
  record : List (Cell V)
  rowEnd : Nat
  masterReclength : Nat
  warnings : List (WarnLevel × String)

def unpackRow (fields : List (Field V)) (reclength : Nat) (hasTransactions : Bool) (tabledef : TableDef) (colcnt : Nat)
    (rowData : List UInt8) (cols : List Bool) (abortOnWarning firstRow : Bool) (record : List (Cell V)) : Unpacked V :=
  let strict := abortOnWarning && (hasTransactions || firstRow)
  let (record, s, i) := unpackFields strict rowData tabledef colcnt fields cols record 0
    { nullPtr := 1, packPtr := nullByteCount cols, nullBits := ofByte (rowData.getD 0 0), nullMask := 1#32, error := 0,
      warnings := [] }
  let maxCols := min tabledef.size cols.length
  let s := skipFields rowData tabledef ((cols.take maxCols).drop i) i s
  { error := s.error
    record := record
    rowEnd := s.packPtr
    masterReclength := match (fields.drop colcnt).head? with
      | some f => f.ptr
      | none => reclength
    warnings := s.warnings }

end Mysql51.Rpl
