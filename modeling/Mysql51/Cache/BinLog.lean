import Mysql51.Lib.Machine

/-!
# The binary log

`CBinLog` appends records to `<base>.log` and, when that file has grown to its limit, shifts it to `<base>1.log`, that
one to `<base>2.log` and so on; the oldest file is removed. Reading goes from the oldest file to the newest. Files are
byte strings, and every operation of the file system is taken to succeed.
-/

namespace Mysql51.Cache

open Machine Function

def maxBinlogItemLen : Nat := 32 * 1024 * 1024 + 512

inductive LogName
  | base
  | numbered (i : Int)
  deriving DecidableEq

/-- The name of the `i`-th file. Number zero carries no digit. -/
def logName (i : Nat) : LogName := if i = 0 then .base else .numbered i

/-- An open `FILE`: the bytes not read yet, and the end-of-file indicator, which only a read that falls short sets. -/
structure ReadFile where
  rest : List UInt8
  eof : Bool
  deriving DecidableEq

def ReadFile.read (fp : ReadFile) (n : Nat) : List UInt8 × ReadFile :=
  (fp.rest.take n, ⟨fp.rest.drop n, fp.eof || decide (fp.rest.length < n)⟩)

structure CBinLog where
  maxlogSize : Int
  maxlogNum : Int
  files : LogName → Option (List UInt8)
  readFp : Option ReadFile
  readidx : Nat

namespace CBinLog

variable (log : CBinLog)

def init (maxlogSize maxlogNum : Int) : CBinLog :=
  { maxlogSize, maxlogNum, files := fun _ => none, readFp := none, readidx := 8 }

/-- `SetReadRecordStartTime(-1)`. An index below zero is as good as zero: both mean that no file is left. -/
def setReadRecordStartTime : CBinLog := { log with readFp := none, readidx := log.maxlogNum.toNat }

def nextFile : Nat → Option (Nat × List UInt8)
  | 0 => none
  | n + 1 =>
    match log.files (logName n) with
    | some bytes => some (n, bytes)
    | none => nextFile n

/-- The file `ReadRecordFromBinLog` reads from: the open one, or the next one if that is used up. -/
def locate : Option (ReadFile × Nat) :=
  match log.readFp with
  | some fp => if fp.eof then (log.nextFile log.readidx).map fun (n, bytes) => (⟨bytes, false⟩, n)
      else some (fp, log.readidx)
  | none => (log.nextFile log.readidx).map fun (n, bytes) => (⟨bytes, false⟩, n)

/-- `ReadRecordFromBinLog`, bounded by `fuel`: the return value, the bytes read and the reader's new state. A record
with a negative length would overrun the buffer. -/
def readRecordLoop (maxsize : Nat) : Nat → CBinLog → Option (Int × List UInt8 × CBinLog)
  | 0, _ => none
  | fuel + 1, log =>
    match log.locate with
    | none => some (-1, [], { log with readFp := none, readidx := 0 })
    | some (fp, idx) =>
      let (_, fp) := fp.read 4
      let (lenBytes, fp) := fp.read 4
      let len := int32 (ofLeBytes lenBytes)
      if maxsize < len then some (-3, [], { log with readFp := none, readidx := idx })
      else if fp.eof then readRecordLoop maxsize fuel { log with readFp := some fp, readidx := idx }
      else if len < 0 then none
      else
        let (buff, fp) := fp.read len.toNat
        some (if 0 < len ∧ buff.length = len then 1 else 0, buff, { log with readFp := some fp, readidx := idx })

def readRecordFromBinLog (maxsize : Nat) : Option (Int × List UInt8 × CBinLog) :=
  readRecordLoop maxsize (log.readidx + 2) log

def shiftLoop : Nat → (LogName → Option (List UInt8)) → LogName → Option (List UInt8)
  | 0, files => files
  | n + 1, files =>
    match files (logName n) with
    | none => shiftLoop n files
    | some bytes => shiftLoop n (update (update files (logName n) none) (logName (n + 1)) (some bytes))

/-- The file that `ShiftFiles` removes. With one file allowed this is `<base>0.log`, which is never written. -/
def lastFile : LogName := .numbered (log.maxlogNum - 1)

/-- The test of `ShiftFiles` that the current file has reached its limit. -/
def full (bytes : List UInt8) : Prop := log.maxlogSize ≤ bytes.length
deriving Decidable

def shiftFiles : Int × CBinLog :=
  match log.files .base with
  | none => (-1, log)
  | some bytes =>
    if log.full bytes then
      let files := update log.files log.lastFile none
      (0, { log with files := shiftLoop (log.maxlogNum - 1).toNat files })
    else (0, log)

/-- What `WriteToBinLog` appends for one record: the time, the length and the record. -/
def item (buff : List UInt8) (now : Int) : List UInt8 :=
  leBytes 4 (uint32 now) ++ leBytes 4 buff.length ++ buff

def append (buff : List UInt8) (now : Int) : CBinLog :=
  { log with files := update log.files .base (some ((log.files .base).getD [] ++ item buff now)) }

/-- `WriteToBinLog`. The buffer it builds the item in has `MAX_BINLOG_ITEM_LEN` bytes. -/
def writeToBinLog (buff : List UInt8) (now : Int) : Option (Int × CBinLog) :=
  if buff.length = 0 ∨ maxBinlogItemLen < buff.length then some (-1, log)
  else if maxBinlogItemLen < buff.length + 8 then none
  else some (log.append buff now).shiftFiles

end CBinLog

end Mysql51.Cache
