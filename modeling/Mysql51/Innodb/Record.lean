import Mysql51.Lib.BigEndian
import Mysql51.Lib.Memory

/-!
# Physical records

A record is its origin, an address: the data of its fields is behind the origin, and what is needed to find them, with a header
of fixed size, before it. In the old format that are the ends of all fields; in the compact one it is a bit for each nullable
field and the lengths of the fields of variable length, both written downwards from the header.
-/

namespace Mysql51.Innodb

open Machine Memory

/-- What the record functions use of a `dtype_t`, or of a `dict_col_t`, which has the same. -/
structure DType where
  mtype : Nat
  prtype : Nat
  len : Nat
  deriving DecidableEq

def dataBlob : Nat := 5

def dataNotNull : Nat := 256

def DType.nullable (t : DType) : Bool := t.prtype &&& dataNotNull = 0

structure DictField where
  col : DType
  fixedLen : Nat
  deriving DecidableEq

/-- A `dict_index_t`: `dict_index_add_col` counts the nullable fields, and the number of fields has ten bits. -/
structure DictIndex where
  comp : Bool
  clustered : Bool
  nUniq : Nat
  nNullable : Nat
  fields : List DictField
  nullable_eq : nNullable = fields.countP (·.col.nullable)
  uniq_le : nUniq ≤ fields.length
  length_lt : fields.length < 1024

def dictIndexGetNUniqueInTree (index : DictIndex) : Nat := if index.clustered then index.nUniq else index.fields.length

/-- A `dfield_t`: `none` is the SQL NULL. -/
structure DField where
  type : DType
  data : Option (List UInt8)
  deriving DecidableEq

structure DTuple where
  infoBits : Nat
  fields : List DField
  deriving DecidableEq

def univSqlNull : Nat := 0xFFFFFFFF

def DField.len (field : DField) : Nat :=
  match field.data with
  | none => univSqlNull
  | some data => data.length

def utBitsInBytes (b : Nat) : Nat := (b + 7) / 8

def recNOldExtraBytes : Nat := 6

def recNNewExtraBytes : Nat := 5

def recStatusOrdinary : Nat := 0

def recStatusNodePtr : Nat := 1

def recStatusInfimum : Nat := 2

def recStatusSupremum : Nat := 3

def recNewStatus : Nat := 3

def recNewStatusMask : Nat := 0x7

def recOldInfoBits : Nat := 6

def recNewInfoBits : Nat := 5

def recInfoBitsMask : Nat := 0xF0

variable (m : Nat → UInt8)

def machReadFrom1 (p : Nat) : Nat := (m p).toNat

def machReadFrom2 (p : Nat) : Nat := ofBeBytes (fetch m p 2)

def recGetBitField1 (rec offs mask shift : Nat) : Nat := (machReadFrom1 m (rec - offs) &&& mask) >>> shift

def recSetBitField1 (rec val offs mask shift : Nat) : Nat → UInt8 :=
  store m (rec - offs) [(m (rec - offs) &&& ~~~ UInt8.ofNat mask) ||| UInt8.ofNat (val <<< shift)]

def recGetBitField2 (rec offs mask shift : Nat) : Nat := (machReadFrom2 m (rec - offs) &&& mask) >>> shift

def recGetStatus (rec : Nat) : Nat := recGetBitField1 m rec recNewStatus recNewStatusMask 0

def recSetStatus (rec bits : Nat) : Nat → UInt8 := recSetBitField1 m rec bits recNewStatus recNewStatusMask 0

def recGetInfoBits (rec : Nat) (comp : Bool) : Nat :=
  recGetBitField1 m rec (if comp then recNewInfoBits else recOldInfoBits) recInfoBitsMask 0

def recSetInfoBits (rec : Nat) (comp : Bool) (bits : Nat) : Nat → UInt8 :=
  recSetBitField1 m rec bits (if comp then recNewInfoBits else recOldInfoBits) recInfoBitsMask 0

def recOffsCompact : Nat := 2 ^ 31

def recOffsSqlNull : Nat := 2 ^ 31

def recOffsExternal : Nat := 2 ^ 30

def recOffsMask : Nat := recOffsExternal - 1

def nextNull (nulls nullMask : Nat) : Nat × Nat := if nullMask % 256 = 0 then (nulls - 1, 1) else (nulls, nullMask)

/-- The variables of the loop in `rec_init_offsets` for the compact format. -/
structure OffsCursor where
  nulls : Nat
  lens : Nat
  offs : Nat
  nullMask : Nat

def initFieldLength (field : DictField) (c : OffsCursor) : Nat × OffsCursor :=
  if field.fixedLen = 0 then
    let len := machReadFrom1 m c.lens
    if (field.col.len > 255 ∨ field.col.mtype = dataBlob) ∧ len &&& 0x80 ≠ 0 then
      -- 1exxxxxxx xxxxxxxx
      let len := len <<< 8 ||| machReadFrom1 m (c.lens - 1)
      let offs := c.offs + (len &&& 0x3fff)
      (if len &&& 0x4000 ≠ 0 then offs ||| recOffsExternal else offs, { c with lens := c.lens - 2, offs := offs })
    else (c.offs + len, { c with lens := c.lens - 1, offs := c.offs + len })
  else (c.offs + field.fixedLen, { c with offs := c.offs + field.fixedLen })

def initField (index : DictIndex) (nNodePtrField : Option Nat) (i : Nat) (c : OffsCursor) :
    Option (Nat × OffsCursor) :=
  if nNodePtrField = some i then some (c.offs + 4, { c with offs := c.offs + 4 })
  else do
    let field ← index.fields[i]?
    if field.col.nullable then
      let (nulls, nullMask) := nextNull c.nulls c.nullMask
      let c := { c with nulls := nulls, nullMask := nullMask <<< 1 }
      if machReadFrom1 m nulls &&& nullMask ≠ 0 then some (c.offs ||| recOffsSqlNull, c) else some (initFieldLength m field c)
    else some (initFieldLength m field c)

/-- The loop of `rec_init_offsets` over the `n` fields from number `i` on, for the compact format. -/
def initFields (m : Nat → UInt8) (index : DictIndex) (nNodePtrField : Option Nat) : Nat → Nat → OffsCursor → Option (List Nat × Nat)
  | 0, _, c => some ([], c.lens)
  | n + 1, i, c => do
    let (len, c) ← initField m index nNodePtrField i c
    let (lens, last) ← initFields m index nNodePtrField n (i + 1) c
    some (len :: lens, last)

def rec1GetFieldEndInfo (rec n : Nat) : Nat := machReadFrom1 m (rec - (recNOldExtraBytes + n + 1))

def rec2GetFieldEndInfo (rec n : Nat) : Nat := machReadFrom2 m (rec - (recNOldExtraBytes + 2 * n + 2))

def oldFieldEnd (rec i : Nat) (short : Bool) : Nat :=
  if short then
    let offs := rec1GetFieldEndInfo m rec i
    if offs &&& 0x80 ≠ 0 then (offs &&& 0x7f) ||| recOffsSqlNull else offs
  else
    let offs := rec2GetFieldEndInfo m rec i
    let null := if offs &&& 0x8000 ≠ 0 then recOffsSqlNull else 0
    let external := if offs &&& 0x4000 ≠ 0 then recOffsExternal else 0
    (offs &&& 0x3fff) ||| null ||| external

def recGet1byteOffsFlag (rec : Nat) : Bool := recGetBitField1 m rec 3 0x1 0 ≠ 0

def recGetNFieldsOld (rec : Nat) : Nat := recGetBitField2 m rec 4 0x7FE 1

def recInitOffsets (rec : Nat) (index : DictIndex) (n : Nat) : Option (List Nat) :=
  if index.comp then
    let status := recGetStatus m rec
    if status = recStatusInfimum ∨ status = recStatusSupremum then some [recNNewExtraBytes ||| recOffsCompact, 8]
    else do
      let nNodePtrField := if status = recStatusNodePtr then some (dictIndexGetNUniqueInTree index) else none
      let nulls := rec - (recNNewExtraBytes + 1)
      let lens := nulls - utBitsInBytes index.nNullable
      -- the loop goes over one field at least
      let (ends, lens) ← initFields m index nNodePtrField (max n 1) 0 ⟨nulls, lens, 0, 1⟩
      some (((rec - (lens + 1)) ||| recOffsCompact) :: ends)
  else
    let short := recGet1byteOffsFlag m rec
    let extraSize := recNOldExtraBytes + if short then n else 2 * n
    some (extraSize :: (List.range (max n 1)).map fun i => oldFieldEnd m rec i short)

def recGetNFields (rec : Nat) (index : DictIndex) : Option Nat :=
  if index.comp then
    let status := recGetStatus m rec
    if status = recStatusOrdinary then some index.fields.length
    else if status = recStatusNodePtr then some (dictIndexGetNUniqueInTree index + 1)
    else if status = recStatusInfimum ∨ status = recStatusSupremum then some 1
    else none
  else some (recGetNFieldsOld m rec)

def recGetOffsets (rec : Nat) (index : DictIndex) : Option (List Nat) := do
  let n ← recGetNFields m rec index
  recInitOffsets m rec index n

def recOffsExtraSize (offsets : List Nat) : Nat := offsets.headD 0 &&& (2 ^ 64 - 1 - recOffsCompact)

def recOffsNFields (offsets : List Nat) : Nat := offsets.length - 1

def recOffsDataSize (offsets : List Nat) : Nat := offsets.getD (recOffsNFields offsets) 0 &&& recOffsMask

def recOffsSize (offsets : List Nat) : Nat := recOffsDataSize offsets + recOffsExtraSize offsets

def recOffsNthSqlNull (offsets : List Nat) (n : Nat) : Bool := offsets.getD (n + 1) 0 &&& recOffsSqlNull ≠ 0

def recGetNthField (rec : Nat) (offsets : List Nat) (n : Nat) : Nat × Nat :=
  let field := if n = 0 then rec else rec + (offsets.getD n 0 &&& recOffsMask)
  let length := offsets.getD (n + 1) 0
  (field, if length &&& recOffsSqlNull ≠ 0 then univSqlNull else (length &&& recOffsMask) - (field - rec))

def OneByte (type : DType) (len : Nat) : Prop := len < 128 ∨ type.len < 256 ∧ type.mtype ≠ dataBlob
deriving Decidable

/-- The loop of `rec_get_converted_size_new` over the `n` fields from number `i` on. -/
def sizeLoop (index : DictIndex) (dtuple : DTuple) : Nat → Nat → Nat → Option Nat
  | 0, _, size => some size
  | n + 1, i, size => do
    let field ← index.fields[i]?
    let dfield ← dtuple.fields[i]?
    let len := dfield.len
    if len = univSqlNull then sizeLoop index dtuple n (i + 1) size
    else
      let lengthSize := if field.fixedLen ≠ 0 then 0 else if OneByte field.col len then 1 else 2
      sizeLoop index dtuple n (i + 1) (size + lengthSize + len)

def recGetConvertedSizeNew (index : DictIndex) (dtuple : DTuple) : Option Nat :=
  let size := recNNewExtraBytes + utBitsInBytes index.nNullable
  let status := dtuple.infoBits &&& recNewStatusMask
  if status = recStatusOrdinary then sizeLoop index dtuple index.fields.length 0 size
  else if status = recStatusNodePtr then sizeLoop index dtuple (dictIndexGetNUniqueInTree index) 0 (size + 4)
  else if status = recStatusInfimum ∨ status = recStatusSupremum then some (recNNewExtraBytes + 8)
  else none

/-- The first loop of `rec_convert_dtuple_to_rec_new`: the origin is moved behind the lengths. -/
def originLoop (index : DictIndex) (nNodePtrField : Option Nat) : List DField → Nat → Nat → Option Nat
  | [], _, rec => some rec
  | dfield :: dfields, i, rec =>
    if nNodePtrField = some i then some rec
    else do
      let field ← index.fields[i]?
      let len := dfield.len
      if dfield.type.nullable ∧ len = univSqlNull then originLoop index nNodePtrField dfields (i + 1) rec
      else
        let lengthSize := if field.fixedLen ≠ 0 then 0 else if OneByte dfield.type len then 1 else 2
        originLoop index nNodePtrField dfields (i + 1) (rec + lengthSize)

/-- The variables of the second loop of `rec_convert_dtuple_to_rec_new`: the memory, and `end`, `nulls`, `lens`, `null_mask`. -/
structure Writer where
  mem : Nat → UInt8
  pos : Nat
  nulls : Nat
  lens : Nat
  nullMask : Nat

def storeLength (field : DictField) (dfield : DField) (w : Writer) : Writer :=
  let len := dfield.len
  if field.fixedLen ≠ 0 then w
  else if OneByte dfield.type len then { w with mem := store w.mem w.lens [UInt8.ofNat len], lens := w.lens - 1 }
  else
    { w with
      mem := store (store w.mem w.lens [UInt8.ofNat (len >>> 8) ||| 0x80]) (w.lens - 1) [UInt8.ofNat len]
      lens := w.lens - 2 }

def storeData (dfield : DField) (w : Writer) : Option Writer := do
  let data ← dfield.data
  some { w with mem := store w.mem w.pos data, pos := w.pos + data.length }

def storeField (field : DictField) (dfield : DField) (w : Writer) : Option Writer :=
  if dfield.type.nullable then
    let (nulls, nullMask) := nextNull w.nulls w.nullMask
    let w := { w with nulls := nulls, nullMask := nullMask <<< 1 }
    if dfield.len = univSqlNull then
      some { w with mem := store w.mem nulls [UInt8.ofNat (machReadFrom1 w.mem nulls ||| nullMask)] }
    else storeData dfield (storeLength field dfield w)
  else storeData dfield (storeLength field dfield w)

def storeLoop (index : DictIndex) (nNodePtrField : Option Nat) : List DField → Nat → Writer → Option Writer
  | [], _, w => some w
  | dfield :: dfields, i, w =>
    if nNodePtrField = some i then storeData dfield w
    else do
      let field ← index.fields[i]?
      let w ← storeField field dfield w
      storeLoop index nNodePtrField dfields (i + 1) w

def initRec (index : DictIndex) (dtuple : DTuple) (nNodePtrField : Option Nat) (rec : Nat) :
    Option ((Nat → UInt8) × Nat) := do
  let nulls := rec - (recNNewExtraBytes + 1)
  let lens := nulls - utBitsInBytes index.nNullable
  let m := store m (lens + 1) (List.replicate (nulls - lens) 0)
  let m := recSetStatus m rec (dtuple.infoBits &&& recNewStatusMask)
  let m := recSetInfoBits m rec true (dtuple.infoBits &&& recInfoBitsMask)
  let w ← storeLoop index nNodePtrField dtuple.fields 0 ⟨m, rec, nulls, lens, 1⟩
  some (w.mem, rec)

def recConvertDtupleToRecNew (buf : Nat) (index : DictIndex) (dtuple : DTuple) : Option ((Nat → UInt8) × Nat) :=
  let origin := buf + recNNewExtraBytes
  let status := dtuple.infoBits &&& recNewStatusMask
  if status = recStatusInfimum ∨ status = recStatusSupremum then initRec m index dtuple none origin
  else if status = recStatusOrdinary ∨ status = recStatusNodePtr then do
    let nNodePtrField := if status = recStatusNodePtr then some (dtuple.fields.length - 1) else none
    let origin ← originLoop index nNodePtrField dtuple.fields 0 (origin + utBitsInBytes index.nNullable)
    initRec m index dtuple nNodePtrField origin
  else none

end Mysql51.Innodb
