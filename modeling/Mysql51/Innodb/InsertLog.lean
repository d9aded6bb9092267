import Mysql51.Innodb.Record

/-!
# The log of an insert

`page_cur_insert_rec_write_log` logs a record that was inserted behind a cursor record: only the bytes from the first one on that
differs from the cursor record, where the bytes of the header do not count, and the sizes and the info bits only if they
differ. `page_cur_parse_insert_rec` builds the record again from the cursor record and the log.
-/

namespace Mysql51.Innodb

open Machine Memory

def univPageSize : Nat := 2 ^ 12

def machWriteCompressed (n : Nat) : List UInt8 :=
  if n < 0x80 then beBytes 1 n
  else if n < 0x4000 then beBytes 2 (n ||| 0x8000)
  else if n < 0x200000 then beBytes 3 (n ||| 0xC00000)
  else if n < 0x10000000 then beBytes 4 (n ||| 0xE0000000)
  else beBytes 1 0xF0 ++ beBytes 4 n

def parseBytes (log : List UInt8) (skip size mask : Nat) : Option (Nat × List UInt8) :=
  if log.length < size then none else some (ofBeBytes ((log.take size).drop skip) &&& mask, log.drop size)

def machParseCompressed (log : List UInt8) : Option (Nat × List UInt8) :=
  match log with
  | [] => none
  | flag :: _ =>
    if flag < 0x80 then parseBytes log 0 1 0xFF
    else if flag < 0xC0 then parseBytes log 0 2 0x7FFF
    else if flag < 0xE0 then parseBytes log 0 3 0x3FFFFF
    else if flag < 0xF0 then parseBytes log 0 4 0x1FFFFFFF
    else parseBytes log 1 5 0xFFFFFFFF

def recGetInfoAndStatusBits (m : Nat → UInt8) (rec : Nat) (comp : Bool) : Nat :=
  if comp then recGetInfoBits m rec true ||| recGetStatus m rec else recGetInfoBits m rec false

def recSetInfoAndStatusBits (m : Nat → UInt8) (rec : Nat) (comp : Bool) (bits : Nat) : Nat → UInt8 :=
  let m := if comp then recSetStatus m rec (bits &&& recNewStatusMask) else m
  recSetInfoBits m rec comp (bits &&& (2 ^ 64 - 1 - recNewStatusMask))

def headerSize (comp : Bool) : Nat := if comp then recNNewExtraBytes else recNOldExtraBytes

/-- The loop that finds the first byte of the inserted record that differs: `i` and `ins_ptr` at its end. -/
def mismatchLoop (m : Nat → UInt8) (comp : Bool) (insertRec cursorRec extraSize minRecSize : Nat) :
    Nat → Nat → Nat → Nat → Nat × Nat
  | 0, i, insPtr, _ => (i, insPtr)
  | fuel + 1, i, insPtr, curPtr =>
    if i ≥ minRecSize then (i, insPtr)
    else if m insPtr = m curPtr then
      mismatchLoop m comp insertRec cursorRec extraSize minRecSize fuel (i + 1) (insPtr + 1) (curPtr + 1)
    else if i < extraSize ∧ i ≥ extraSize - headerSize comp then
      mismatchLoop m comp insertRec cursorRec extraSize minRecSize fuel extraSize insertRec cursorRec
    else (i, insPtr)

def pageCurInsertRecWriteLog (m : Nat → UInt8) (page insertRec recSize cursorRec : Nat) (index : DictIndex) (shortInserts : Bool) :
    Option (List UInt8) := do
  guard (recSize < univPageSize)
  let curOffs ← recGetOffsets m cursorRec index
  let insOffs ← recGetOffsets m insertRec index
  let extraSize := recOffsExtraSize insOffs
  let curExtraSize := recOffsExtraSize curOffs
  let curRecSize := recOffsSize curOffs
  let (i, insPtr) :=
    if curExtraSize = extraSize then
      let minRecSize := min curRecSize recSize
      mismatchLoop m index.comp insertRec cursorRec extraSize minRecSize minRecSize 0 (insertRec - extraSize) (cursorRec - curExtraSize)
    else (0, insertRec - extraSize)
  let bits := recGetInfoAndStatusBits m insertRec index.comp
  let extraInfoYes := bits ≠ recGetInfoAndStatusBits m cursorRec index.comp ∨ extraSize ≠ curExtraSize ∨ recSize ≠ curRecSize
  guard (extraInfoYes → i < univPageSize ∧ extraSize < univPageSize)
  let offset := if shortInserts then [] else beBytes 2 (cursorRec - page)
  let extraInfo :=
    if extraInfoYes then beBytes 1 bits ++ machWriteCompressed extraSize ++ machWriteCompressed i else []
  some (offset ++ machWriteCompressed (2 * (recSize - i) + if extraInfoYes then 1 else 0) ++ extraInfo ++
    fetch m insPtr (recSize - i))

/-- How the parser fails: it returns `NULL`, or an assertion stops the server. -/
inductive ParseError where
  | null (foundCorruptLog : Bool)
  | assertion
  deriving DecidableEq

abbrev Parse := Except ParseError

def orNull {α : Type} : Option α → Parse α
  | none => .error (.null false)
  | some a => .ok a

def parseOffset (isShort : Bool) (log : List UInt8) : Parse (Nat × List UInt8) :=
  if isShort then .ok (0, log)
  else if log.length < 2 then .error (.null false)
  else if ofBeBytes (log.take 2) ≥ univPageSize then .error (.null true)
  else .ok (ofBeBytes (log.take 2), log.drop 2)

/-- The sizes and the info bits of the inserted record, if they are in the log. -/
structure ExtraInfo where
  infoAndStatusBits : Nat
  originOffset : Nat
  mismatchIndex : Nat

def parseMismatchIndex (bits : UInt8) (originOffset : Nat) (log : List UInt8) : Parse (ExtraInfo × List UInt8) := do
  let (mismatchIndex, log) ← orNull (machParseCompressed log)
  if mismatchIndex ≥ univPageSize then .error .assertion else .ok (⟨bits.toNat, originOffset, mismatchIndex⟩, log)

def parseOriginOffset (bits : UInt8) (log : List UInt8) : Parse (ExtraInfo × List UInt8) := do
  let (originOffset, log) ← orNull (machParseCompressed log)
  if originOffset ≥ univPageSize then .error .assertion else parseMismatchIndex bits originOffset log

def parseExtraInfo : List UInt8 → Parse (ExtraInfo × List UInt8)
  | [] => .error (.null false)
  | bits :: log => parseOriginOffset bits log

def parseOptionalInfo (extraInfoYes : Bool) (log : List UInt8) : Parse (Option ExtraInfo × List UInt8) :=
  if extraInfoYes then do
    let (info, log) ← parseExtraInfo log
    .ok (some info, log)
  else .ok (none, log)

def parseEndSeg (endSegLen : Nat) (log : List UInt8) : Parse (List UInt8 × List UInt8) :=
  if log.length < endSegLen then .error (.null false) else .ok (log.take endSegLen, log.drop endSegLen)

structure LogBody where
  offset : Nat
  extraInfo : Option ExtraInfo
  endSeg : List UInt8

def parseSegment (offset n : Nat) (log : List UInt8) : Parse (LogBody × List UInt8) := do
  let (extraInfo, log) ← parseOptionalInfo (n &&& 1 ≠ 0) log
  let (endSeg, log) ← parseEndSeg (n >>> 1) log
  .ok (⟨offset, extraInfo, endSeg⟩, log)

def parseEndSegLen (offset : Nat) (log : List UInt8) : Parse (LogBody × List UInt8) := do
  let (n, log) ← orNull (machParseCompressed log)
  if n >>> 1 ≥ univPageSize then .error (.null true) else parseSegment offset n log

def parseLog (isShort : Bool) (log : List UInt8) : Parse (LogBody × List UInt8) := do
  let (offset, log) ← parseOffset isShort log
  parseEndSegLen offset log

/-- The page the log is applied to: its bytes, its address, and the record before the supremum. -/
structure PageFrame where
  mem : Nat → UInt8
  page : Nat
  lastRec : Nat

/-- The record that is handed to `page_cur_rec_insert` with the cursor. -/
structure BuiltRec where
  cursorRec : Nat
  mem : Nat → UInt8
  origin : Nat
  offsets : List Nat

/-- The record is built from the cursor record and the end segment, in a buffer at `buf`. -/
def buildRec (frame : PageFrame) (index : DictIndex) (isShort : Bool) (body : LogBody) (mem : Nat → UInt8) (buf : Nat) :
    Parse BuiltRec :=
  let cursorRec := if isShort then frame.lastRec else frame.page + body.offset
  match recGetOffsets frame.mem cursorRec index with
  | none => .error .assertion
  | some offsets =>
    let info := body.extraInfo.getD ⟨recGetInfoAndStatusBits frame.mem cursorRec index.comp, recOffsExtraSize offsets,
      (recOffsSize offsets + 2 ^ 64 - body.endSeg.length) % 2 ^ 64⟩
    if info.mismatchIndex ≥ univPageSize then .error .assertion
    else
      let mem := store mem buf (fetch frame.mem (cursorRec - recOffsExtraSize offsets) info.mismatchIndex)
      let mem := store mem (buf + info.mismatchIndex) body.endSeg
      let mem := recSetInfoAndStatusBits mem (buf + info.originOffset) index.comp info.infoAndStatusBits
      match recGetOffsets mem (buf + info.originOffset) index with
      | none => .error .assertion
      | some offsets => .ok ⟨cursorRec, mem, buf + info.originOffset, offsets⟩

def pageCurParseInsertRec (isShort : Bool) (log : List UInt8) (index : DictIndex) (frame : Option PageFrame) (mem : Nat → UInt8)
    (buf : Nat) : Parse (List UInt8 × Option BuiltRec) := do
  let (body, rest) ← parseLog isShort log
  match frame with
  | none => .ok (rest, none)
  | some frame => do
    let built ← buildRec frame index isShort body mem buf
    .ok (rest, some built)

end Mysql51.Innodb
