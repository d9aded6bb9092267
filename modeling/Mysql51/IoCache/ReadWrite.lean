import Mysql51.Lib.Machine
import Mysql51.Lib.ByteFile

/-!
# The cache of a file that is written, then read

A `WRITE_CACHE` of `mf_iocache.c` collects bytes and writes them to its file when the buffer is full, a `READ_CACHE` holds
a window of the file. `reinit_io_cache` turns one into the other: where the new position is inside the buffer, the buffer
is used on without a write to the file, so that the file may not even exist. File operations succeed, writes transfer all bytes,
and one `read` gives as many bytes as it can.
-/

namespace Mysql51.IoCache

open Machine ByteFile

def ioSize : Nat := 4096

theorem length_take_blocks (bytes : List UInt8) :
    (bytes.take (bytes.length / ioSize * ioSize)).length = bytes.length / ioSize * ioSize :=
  List.length_take_of_le (Nat.div_mul_le_self bytes.length ioSize)

/-- The sizes that `init_io_cache` asks memory for, one after the other, the first `failures` of them in vain. -/
def allocSize (minCache : Nat) : Nat → Nat → Option Nat
  | cachesize, 0 => some (max cachesize minCache)
  | cachesize, failures + 1 =>
    if max cachesize minCache = minCache then none
    else allocSize minCache (max cachesize minCache * 3 / 4 / minCache * minCache) failures

theorem le_of_allocSize {minCache size n failures : Nat} (h : allocSize minCache n failures = some size) : minCache ≤ size := by
  induction failures generalizing n with
  | zero =>
    cases h
    exact Nat.le_max_right n minCache
  | succ failures ih =>
    rw [allocSize] at h
    split at h
    · cases h
    · exact ih h

def roundUp (minCache cachesize : Nat) : Nat := (cachesize + minCache - 1) / minCache * minCache

inductive CacheType where
  | readCache
  | writeCache
  deriving DecidableEq

/-- An unshared `IO_CACHE` of type `READ_CACHE` or `WRITE_CACHE`, with its file. -/
structure RwCache where
  type : CacheType
  /-- The contents of the file, `none` while it is not open. -/
  file : Option (List UInt8)
  /-- Where the file stands. -/
  filePos : Nat
  seekNotDone : Bool
  posInFile : Nat
  /-- The bytes of the buffer up to `read_end` when reading and up to `write_pos` when writing. -/
  buffer : List UInt8
  /-- The offset of `read_pos` in the buffer. -/
  readPos : Nat
  /-- The offset of `write_end` in the buffer. -/
  writeEnd : Nat
  /-- `none` stands for the largest offset there is. -/
  endOfFile : Option Nat
  /-- `buffer_length`, that is also `read_length`. -/
  bufferLength : Nat
  error : Int
  deriving DecidableEq

def initRwCache (opened : Bool) (cachesize failures : Nat) : Option RwCache :=
  (allocSize (ioSize * 2) (roundUp (ioSize * 2) cachesize) failures).map fun size =>
    { type := .writeCache, file := if opened then some [] else none, filePos := 0, seekNotDone := false, posInFile := 0,
      buffer := [], readPos := 0, writeEnd := size, endOfFile := none, bufferLength := size, error := 0 }

namespace RwCache

variable (info : RwCache)

def tell : Nat :=
  match info.type with
  | .readCache => info.posInFile + info.readPos
  | .writeCache => info.posInFile + info.buffer.length

def contents : List UInt8 := info.file.getD []

def offset (pos : Nat) : Nat := if info.seekNotDone then pos else info.filePos

def openFile : RwCache :=
  match info.file with
  | none => { info with file := some [], filePos := 0 }
  | some _ => info

/-- The part of `my_b_flush_io_cache` that writes the buffer. -/
def writeBuffer : RwCache :=
  { info with
    file := some (writeAt info.contents (info.offset info.posInFile) info.buffer)
    filePos := info.offset info.posInFile + info.buffer.length
    seekNotDone := false
    posInFile := info.posInFile + info.buffer.length
    writeEnd := info.bufferLength - (info.posInFile + info.buffer.length) % ioSize
    error := 0
    endOfFile := info.endOfFile.map (max · (info.posInFile + info.buffer.length))
    buffer := [] }

def flush : RwCache :=
  match info.type with
  | .readCache => info
  | .writeCache => if info.buffer.length ≠ 0 then info.openFile.writeBuffer else info.openFile

/-- What a call leaves: the cache, the bytes it has put into `Buffer`, and whether it returns an error. -/
structure Outcome where
  info : RwCache
  bytes : List UInt8
  failed : Bool
  deriving DecidableEq

def keep (bytes : List UInt8) : RwCache := { info with buffer := info.buffer ++ bytes }

def writeBlocks (bytes : List UInt8) : RwCache :=
  let length := bytes.length / ioSize * ioSize
  { info with
    file := some (writeAt info.contents info.filePos (bytes.take length))
    filePos := info.filePos + length
    posInFile := info.posInFile + length }

/-- `_my_b_write` behind the flush. The result of the seek is tested for being a position other than zero, which
`my_seek` returns when it succeeds. -/
def writeRest (bytes : List UInt8) : Outcome :=
  if ioSize ≤ bytes.length then
    if info.seekNotDone && decide (info.posInFile ≠ 0) then
      ⟨{ info with filePos := info.posInFile, error := -1 }, [], true⟩
    else
      let sought := { info with filePos := info.offset info.posInFile, seekNotDone := false }
      ⟨(sought.writeBlocks bytes).keep (bytes.drop (bytes.length / ioSize * ioSize)), [], false⟩
  else ⟨info.keep bytes, [], false⟩

/-- Whether a buffer more is behind `end_of_file`. -/
def tooBig : Bool :=
  match info.endOfFile with
  | none => false
  | some endOfFile => endOfFile < info.posInFile + info.bufferLength

def myBWriteSlow (bytes : List UInt8) : Outcome :=
  if info.tooBig then ⟨{ info with error := -1 }, [], true⟩
  else
    let restLength := info.writeEnd - info.buffer.length
    (info.keep (bytes.take restLength)).flush.writeRest (bytes.drop restLength)

def myBWrite (bytes : List UInt8) : Outcome :=
  if info.buffer.length + bytes.length ≤ info.writeEnd then ⟨info.keep bytes, [], false⟩
  else info.myBWriteSlow bytes

/-- How many bytes the buffer is filled with at `pos`. The difference is unsigned: behind the end it is no limit. -/
def maxLength (pos diffLength : Nat) : Nat :=
  match info.endOfFile with
  | none => info.bufferLength - diffLength
  | some endOfFile =>
    if pos ≤ endOfFile then min (info.bufferLength - diffLength) (endOfFile - pos) else info.bufferLength - diffLength

/-- The most bytes that one `read` of the system gives. -/
def maxRead : Nat := 2147479552

/-- `my_read` without `MY_FULL_IO`: one `read` of a length that is cut to an `uint`. -/
def myRead (length : Nat) : Option (List UInt8) := info.file.map (slice · info.filePos (min (length % 2 ^ 32) maxRead))

/-- The last stage of `_my_b_read`: fill the buffer from the file and take `count` bytes of it. -/
def fillBuffer (got : List UInt8) (count pos diffLength : Nat) : Outcome :=
  if info.maxLength pos diffLength = 0 then
    if count ≠ 0 then ⟨{ info with error := int32 got.length }, got, true⟩
    else ⟨{ info with buffer := [], readPos := 0, posInFile := pos }, got, false⟩
  else
    match info.myRead (info.maxLength pos diffLength) with
    | none => ⟨{ info with posInFile := pos, buffer := [], readPos := 0, error := -1 }, got, true⟩
    | some filled =>
      let read := { info with filePos := info.filePos + filled.length, posInFile := pos }
      if filled.length < count then
        ⟨{ read with buffer := [], readPos := 0, error := int32 (filled.length + got.length : Nat) }, got ++ filled, true⟩
      else ⟨{ read with buffer := filled, readPos := count }, got ++ filled.take count, false⟩

def atEnd (pos : Nat) : Bool :=
  match info.endOfFile with
  | none => false
  | some endOfFile => endOfFile ≤ pos

/-- The first stage of `_my_b_read`: whole blocks are read from the file into `Buffer`. -/
def readBlocks (got : List UInt8) (count pos diffLength : Nat) : Outcome :=
  if info.atEnd pos then ⟨{ info with error := int32 got.length }, got, true⟩
  else
    let length := count / ioSize * ioSize - diffLength
    match info.myRead length with
    | none => ⟨{ info with error := -1 }, got, true⟩
    | some read =>
      let moved := { info with filePos := info.filePos + read.length }
      if read.length ≠ length then ⟨{ moved with error := int32 (read.length + got.length : Nat) }, got ++ read, true⟩
      else moved.fillBuffer (got ++ read) (count - length) (pos + length) 0

def readFile (got : List UInt8) (count pos : Nat) : Outcome :=
  if ioSize + (ioSize - pos % ioSize) ≤ count then info.readBlocks got count pos (pos % ioSize)
  else info.fillBuffer got count pos (pos % ioSize)

/-- `_my_b_read`. A seek in a file that is not open fails. -/
def myBReadSlow (count : Nat) : Outcome :=
  let left := info.buffer.drop info.readPos
  let pos := info.posInFile + info.buffer.length
  if info.seekNotDone && info.file.isNone then ⟨{ info with error := -1 }, left, true⟩
  else
    let sought := { info with filePos := info.offset pos, seekNotDone := false }
    sought.readFile left (count - left.length) pos

def myBRead (count : Nat) : Outcome :=
  if info.readPos + count ≤ info.buffer.length then
    ⟨{ info with readPos := info.readPos + count }, slice info.buffer info.readPos count, false⟩
  else info.myBReadSlow count

def reuses (seekOffset : Nat) : Bool := info.posInFile ≤ seekOffset && seekOffset ≤ info.tell

/-- The first branch of `reinit_io_cache`: the buffer is used on without a flush. -/
def reuse (type : CacheType) (seekOffset : Nat) : RwCache :=
  match info.type, type with
  | .writeCache, .readCache =>
    { info with
      type := .readCache, endOfFile := some info.tell, seekNotDone := info.file.isSome
      readPos := seekOffset - info.posInFile }
  | .readCache, .readCache => { info with readPos := seekOffset - info.posInFile }
  | .writeCache, .writeCache =>
    { info with endOfFile := none, buffer := info.buffer.take (seekOffset - info.posInFile) }
  | .readCache, .writeCache =>
    { info with
      type := .writeCache, writeEnd := info.bufferLength, seekNotDone := true, endOfFile := none
      buffer := info.buffer.take (seekOffset - info.posInFile) }

/-- The second branch of `reinit_io_cache`: what is written behind the position is ignored when the cache is to be read. -/
def restart (type : CacheType) (seekOffset : Nat) : RwCache :=
  let ended :=
    match info.type, type with
    | .writeCache, .readCache => { info with endOfFile := some info.tell }
    | _, _ => info
  let started := { ended.flush with type, posInFile := seekOffset, seekNotDone := true, buffer := [], readPos := 0 }
  match type with
  | .readCache => started
  | .writeCache => { started with writeEnd := info.bufferLength - seekOffset % ioSize, endOfFile := none }

def reinit (type : CacheType) (seekOffset : Nat) : RwCache :=
  { (if info.reuses seekOffset then info.reuse type seekOffset else info.restart type seekOffset) with error := 0 }

end RwCache

end Mysql51.IoCache
