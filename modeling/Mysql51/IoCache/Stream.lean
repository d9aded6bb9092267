import Mysql51.IoCache.ReadWrite

/-!
# The byte stream of a cache

What has been written through a cache is a stream of bytes, that ends at the write position when the cache is turned to
reading. The cache gives this stream back as long as the bytes that it looks for in the file are there: the bytes in its
buffer may not be, and `reinit_io_cache` drops them when it leaves the buffer of a `READ_CACHE`.
-/

namespace Mysql51.IoCache

open Machine ByteFile List

structure Streamed where
  info : RwCache
  stream : List UInt8
  deriving DecidableEq

inductive Op where
  | write (bytes : List UInt8)
  | read (count : Nat)
  | reinit (type : CacheType) (seekOffset : Nat)
  deriving DecidableEq

namespace Streamed

variable (s : Streamed)

def cut (type : CacheType) : List UInt8 :=
  match s.info.type, type with
  | .writeCache, .readCache => s.stream.take s.info.tell
  | _, _ => s.stream

/-- A cache is written or read as its type says and positioned up to the end of the stream. -/
def step : Op → Option Streamed
  | .write bytes =>
    if s.info.type = .writeCache then some ⟨(s.info.myBWrite bytes).info, writeAt s.stream s.info.tell bytes⟩ else none
  | .read count => if s.info.type = .readCache then some ⟨(s.info.myBRead count).info, s.stream⟩ else none
  | .reinit type seekOffset =>
    if seekOffset ≤ (s.cut type).length then some ⟨s.info.reinit type seekOffset, s.cut type⟩ else none

def available : Nat := s.stream.length - s.info.tell

def Correct : Op → Prop
  | .write bytes => (s.info.myBWrite bytes).failed = false ∧ (s.info.myBWrite bytes).info.tell = s.info.tell + bytes.length
  | .read count =>
    if count ≤ s.available then
      (s.info.myBRead count).failed = false ∧ (s.info.myBRead count).bytes = slice s.stream s.info.tell count ∧
        (s.info.myBRead count).info.tell = s.info.tell + count
    else (s.info.myBRead count).failed = true ∧ (s.info.myBRead count).info.error = s.available
  | .reinit type seekOffset => (s.info.reinit type seekOffset).tell = seekOffset

/-! ### The condition -/

/-- What `reinit_io_cache` leaves behind without a flush has to be in the file. -/
def SafeReinit (type : CacheType) (seekOffset : Nat) : Prop :=
  match s.info.type, type with
  | .writeCache, .readCache => True
  | .writeCache, .writeCache => Agree s.info.contents s.stream s.info.tell seekOffset
  | .readCache, .readCache => s.info.reuses seekOffset = true ∨ Agree s.info.contents s.stream seekOffset s.stream.length
  | .readCache, .writeCache =>
    Agree s.info.contents s.stream 0 (if s.info.reuses seekOffset then s.info.posInFile else seekOffset)

/-- A read is answered from the buffer. Or one `read` can give all bytes, a pending seek finds the file open and, if the stream has
bytes behind the buffer, the file stands where the buffer ends. A read behind the end of the stream finds the file not longer than
the stream, and the number to report is an `int`. -/
def SafeRead (count : Nat) : Prop :=
  count ≤ s.info.buffer.length - s.info.readPos ∨
    (count ≤ RwCache.maxRead ∧ s.info.bufferLength ≤ RwCache.maxRead ∧ (s.info.seekNotDone = true → s.info.file.isSome = true) ∧
      (s.info.posInFile + s.info.buffer.length < s.stream.length →
        s.info.offset (s.info.posInFile + s.info.buffer.length) = s.info.posInFile + s.info.buffer.length ∧
        (s.available < count → s.info.contents.length ≤ s.stream.length)) ∧
      (s.available < count → s.available < 2 ^ 31))

def Safe : Op → Prop
  | .write _ => True
  | .read count => s.SafeRead count
  | .reinit type seekOffset => s.SafeReinit type seekOffset

/-! ### The invariant -/

/-- A cache that is written: the file has the stream up to the buffer, the buffer the part up to the position. -/
structure Writes (s : Streamed) : Prop where
  type_eq : s.info.type = .writeCache
  endOfFile_eq : s.info.endOfFile = none
  tell_le : s.info.posInFile + s.info.buffer.length ≤ s.stream.length
  buffer_eq : s.info.buffer = slice s.stream s.info.posInFile s.info.buffer.length
  file_agree : Agree s.info.contents s.stream 0 s.info.posInFile
  offset_eq : s.info.file.isSome = true → s.info.offset s.info.posInFile = s.info.posInFile
  buffer_le : s.info.buffer.length ≤ s.info.writeEnd
  block_le_writeEnd : ioSize ≤ s.info.writeEnd
  writeEnd_le : s.info.writeEnd ≤ s.info.bufferLength
  blocks_le : ioSize * 2 ≤ s.info.bufferLength

/-- A cache that is read: the buffer is a window of the stream, the file has the part behind it. -/
structure Reads (s : Streamed) : Prop where
  type_eq : s.info.type = .readCache
  endOfFile_eq : s.info.endOfFile = some s.stream.length
  readPos_le : s.info.readPos ≤ s.info.buffer.length
  window_le : s.info.posInFile + s.info.buffer.length ≤ s.stream.length
  buffer_eq : s.info.buffer = slice s.stream s.info.posInFile s.info.buffer.length
  file_agree : Agree s.info.contents s.stream (s.info.posInFile + s.info.buffer.length) s.stream.length
  buffer_le : s.info.buffer.length ≤ s.info.bufferLength
  blocks_le : ioSize * 2 ≤ s.info.bufferLength

def Holds : Prop := s.Writes ∨ s.Reads

variable {s : Streamed}

/-! ### Writing -/

theorem tell_of_write {info : RwCache} (h : info.type = .writeCache) : info.tell = info.posInFile + info.buffer.length := by
  rw [RwCache.tell, h]

theorem tell_of_read {info : RwCache} (h : info.type = .readCache) : info.tell = info.posInFile + info.readPos := by
  rw [RwCache.tell, h]

theorem tell_keep {info : RwCache} (h : info.type = .writeCache) (bytes : List UInt8) :
    (info.keep bytes).tell = info.tell + bytes.length := by
  rw [tell_of_write h, tell_of_write (show (info.keep bytes).type = .writeCache from h), RwCache.keep, length_append, add_assoc]

section

variable (h : s.Writes)
include h

theorem Writes.posInFile_le : s.info.posInFile ≤ s.info.contents.length := by
  rcases Nat.eq_zero_or_pos s.info.posInFile with hzero | hpos
  · rw [hzero]
    exact Nat.zero_le _
  exact h.file_agree.le_length hpos ((Nat.le_add_right _ _).trans h.tell_le)

variable (bytes : List UInt8)

theorem Writes.agree_writeAt : Agree s.stream (writeAt s.stream s.info.tell bytes) 0 s.info.tell := by
  rw [tell_of_write h.type_eq]
  exact (agree_writeAt_before bytes h.tell_le le_rfl).symm

theorem Writes.keep (hfit : s.info.buffer.length + bytes.length ≤ s.info.writeEnd) :
    Writes ⟨s.info.keep bytes, writeAt s.stream s.info.tell bytes⟩ := by
  have htell := tell_of_write h.type_eq
  have hlen : (s.info.buffer ++ bytes).length = s.info.buffer.length + bytes.length := length_append
  have hagree := h.agree_writeAt bytes
  refine ⟨h.type_eq, h.endOfFile_eq, ?_, ?_, ?_, h.offset_eq, hlen.trans_le hfit, h.block_le_writeEnd, h.writeEnd_le, h.blocks_le⟩
  · show s.info.posInFile + (s.info.buffer ++ bytes).length ≤ (writeAt s.stream s.info.tell bytes).length
    rw [hlen, length_writeAt]
    omega
  · show s.info.buffer ++ bytes = slice (writeAt s.stream s.info.tell bytes) s.info.posInFile (s.info.buffer ++ bytes).length
    have hold : s.info.buffer = slice (writeAt s.stream s.info.tell bytes) s.info.posInFile s.info.buffer.length := by
      rw [← (hagree.mono (Nat.zero_le _) htell.ge).slice_eq]
      exact h.buffer_eq
    rw [hlen, ← slice_append_slice, ← hold, ← htell, slice_writeAt]
  exact h.file_agree.trans (hagree.mono le_rfl (by omega))

theorem Writes.openFile : Writes ⟨s.info.openFile, s.stream⟩ ∧ s.info.openFile.file.isSome = true := by
  unfold RwCache.openFile
  split
  case h_1 hnone =>
    -- without a file, nothing is before the buffer
    have hzero : s.info.posInFile = 0 := by
      have := h.posInFile_le
      rw [RwCache.contents, hnone] at this
      exact Nat.le_zero.1 this
    have hcontents : s.info.contents = [] := by rw [RwCache.contents, hnone]; rfl
    refine ⟨⟨h.type_eq, h.endOfFile_eq, h.tell_le, h.buffer_eq, ?_, ?_, h.buffer_le, h.block_le_writeEnd, h.writeEnd_le,
      h.blocks_le⟩, rfl⟩
    · exact hcontents ▸ h.file_agree
    intro _
    show (if s.info.seekNotDone then s.info.posInFile else 0) = s.info.posInFile
    rw [hzero, ite_self]
  case h_2 hfile =>
    refine ⟨h, ?_⟩
    rw [hfile]
    rfl

theorem Writes.writeBuffer (hfile : s.info.file.isSome = true) : Writes ⟨s.info.writeBuffer, s.stream⟩ := by
  have hoffset := h.offset_eq hfile
  have hmod := Nat.mod_lt (s.info.posInFile + s.info.buffer.length) (show 0 < ioSize by decide)
  have hblocks := h.blocks_le
  refine ⟨h.type_eq, ?_, h.tell_le, rfl, ?_, ?_, Nat.zero_le _, ?_, Nat.sub_le _ _, h.blocks_le⟩
  · show s.info.endOfFile.map _ = none
    rw [h.endOfFile_eq]
    rfl
  · show Agree (writeAt s.info.contents (s.info.offset s.info.posInFile) s.info.buffer) s.stream 0 _
    rw [hoffset]
    exact ((agree_writeAt_before _ h.posInFile_le le_rfl).trans h.file_agree).append (agree_writeAt_slice h.buffer_eq)
  · intro _
    show s.info.offset s.info.posInFile + s.info.buffer.length = _
    rw [hoffset]
    rfl
  show ioSize ≤ s.info.bufferLength - _
  omega

theorem Writes.flush : Writes ⟨s.info.flush, s.stream⟩ ∧ s.info.flush.file.isSome = true ∧
    s.info.flush.buffer = [] ∧ s.info.flush.posInFile = s.info.posInFile + s.info.buffer.length ∧
    (s.info.buffer ≠ [] → s.info.flush.seekNotDone = false) ∧
    ∀ j, Agree s.info.flush.contents s.info.contents (s.info.posInFile + s.info.buffer.length) j := by
  obtain ⟨hopen, hfile⟩ := h.openFile
  have hbuffer : s.info.openFile.buffer = s.info.buffer ∧ s.info.openFile.posInFile = s.info.posInFile ∧
      s.info.openFile.contents = s.info.contents := by
    unfold RwCache.openFile
    split
    case h_1 hnone => exact ⟨rfl, rfl, by rw [RwCache.contents, RwCache.contents, hnone]; rfl⟩
    case h_2 => exact ⟨rfl, rfl, rfl⟩
  unfold RwCache.flush
  rw [h.type_eq]
  by_cases hempty : s.info.buffer.length = 0
  · rw [if_neg (not_not.2 hempty)]
    have hnil := length_eq_zero_iff.1 hempty
    refine ⟨hopen, hfile, hbuffer.1.trans hnil, ?_, fun hne => absurd hnil hne, fun j => ?_⟩
    · rw [hbuffer.2.1, hempty, add_zero]
    rw [hbuffer.2.2]
    exact fun _ _ _ => rfl
  rw [if_pos hempty]
  refine ⟨hopen.writeBuffer hfile, rfl, rfl, ?_, fun _ => rfl, fun j => ?_⟩
  · show s.info.openFile.posInFile + s.info.openFile.buffer.length = _
    rw [hbuffer.1, hbuffer.2.1]
  show Agree (writeAt s.info.openFile.contents (s.info.openFile.offset s.info.openFile.posInFile) s.info.openFile.buffer) _ _ _
  rw [hopen.offset_eq hfile, hbuffer.1, hbuffer.2.1, hbuffer.2.2]
  exact agree_writeAt_behind le_rfl

theorem Writes.writeBlocks (hfile : s.info.file.isSome = true) (hempty : s.info.buffer = [])
    (hseek : s.info.seekNotDone = false) (bytes : List UInt8) :
    Writes ⟨s.info.writeBlocks bytes, writeAt s.stream s.info.tell (bytes.take (bytes.length / ioSize * ioSize))⟩ := by
  have htell : s.info.tell = s.info.posInFile := by rw [tell_of_write h.type_eq, hempty]; rfl
  have hpos : s.info.filePos = s.info.posInFile := by
    have hoffset := h.offset_eq hfile
    rwa [RwCache.offset, hseek] at hoffset
  have hlen := length_take_blocks bytes
  have hle : s.info.posInFile ≤ s.stream.length := (Nat.le_add_right _ _).trans h.tell_le
  rw [htell]
  refine ⟨h.type_eq, h.endOfFile_eq, ?_, ?_, ?_, ?_, h.buffer_le, h.block_le_writeEnd, h.writeEnd_le, h.blocks_le⟩
  · show s.info.posInFile + bytes.length / ioSize * ioSize + s.info.buffer.length ≤ (writeAt _ _ _).length
    rw [length_writeAt, hlen, hempty, length_nil]
    omega
  · show s.info.buffer = slice _ _ s.info.buffer.length
    rw [hempty]
    rfl
  · show Agree (writeAt s.info.contents s.info.filePos _) (writeAt s.stream _ _) 0 (s.info.posInFile + _)
    generalize bytes.take (bytes.length / ioSize * ioSize) = blocks at hlen ⊢
    rw [hpos, ← hlen]
    have hbefore := (agree_writeAt_before blocks h.posInFile_le le_rfl).trans
      (h.file_agree.trans (agree_writeAt_before blocks hle le_rfl).symm)
    exact hbefore.append agree_writeAt_writeAt
  intro _
  show (if s.info.seekNotDone then _ else s.info.filePos + bytes.length / ioSize * ioSize) = _
  rw [hseek, hpos]
  rfl

/-- Behind a flush that has written something, all bytes go to the file or the buffer. -/
theorem Writes.writeRest (hfile : s.info.file.isSome = true) (hempty : s.info.buffer = [])
    (hseek : s.info.seekNotDone = false) (bytes : List UInt8) :
    (s.info.writeRest bytes).failed = false ∧ (s.info.writeRest bytes).info.tell = s.info.tell + bytes.length ∧
      Writes ⟨(s.info.writeRest bytes).info, writeAt s.stream s.info.tell bytes⟩ := by
  have hblock := h.block_le_writeEnd
  unfold RwCache.writeRest
  by_cases hbig : ioSize ≤ bytes.length
  · have hsought : { s.info with filePos := s.info.offset s.info.posInFile, seekNotDone := false } = s.info := by
      rw [RwCache.offset, hseek, if_neg Bool.false_ne_true, ← hseek]
    rw [if_pos hbig, hseek, Bool.false_and, if_neg Bool.false_ne_true]
    rw [hsought]
    have hblocks := h.writeBlocks hfile hempty hseek bytes
    have hlast : (bytes.drop (bytes.length / ioSize * ioSize)).length ≤ ioSize := by
      rw [length_drop]
      exact (Nat.mod_eq_sub_div_mul ▸ Nat.mod_lt bytes.length (by decide)).le
    have hkeep := hblocks.keep (bytes.drop (bytes.length / ioSize * ioSize)) (by
      show s.info.buffer.length + _ ≤ s.info.writeEnd
      rw [hempty]
      exact (zero_add _).trans_le (hlast.trans hblock))
    have htell : (s.info.writeBlocks bytes).tell = s.info.tell + (bytes.take (bytes.length / ioSize * ioSize)).length := by
      rw [tell_of_write h.type_eq, tell_of_write hblocks.type_eq, length_take_blocks]
      show s.info.posInFile + _ + s.info.buffer.length = _
      omega
    refine ⟨rfl, ?_, ?_⟩
    · rw [tell_keep hblocks.type_eq, htell, add_assoc, ← length_append, take_append_drop]
    · rwa [htell, writeAt_append, take_append_drop] at hkeep
  rw [if_neg hbig]
  refine ⟨rfl, tell_keep h.type_eq bytes, h.keep bytes ?_⟩
  rw [hempty]
  exact (zero_add _).trans_le ((Nat.le_of_not_le hbig).trans hblock)

/-- The block fills the buffer, which is flushed. -/
theorem Writes.myBWriteSlow (hfull : s.info.writeEnd ≤ s.info.buffer.length + bytes.length) :
    (s.info.myBWriteSlow bytes).failed = false ∧ (s.info.myBWriteSlow bytes).info.tell = s.info.tell + bytes.length ∧
      Writes ⟨(s.info.myBWriteSlow bytes).info, writeAt s.stream s.info.tell bytes⟩ := by
  have hsmall : s.info.tooBig = false := by rw [RwCache.tooBig, h.endOfFile_eq]
  rw [RwCache.myBWriteSlow, hsmall, if_neg Bool.false_ne_true]
  have hbuffer := h.buffer_le
  have hblock := h.block_le_writeEnd
  have hio : 0 < ioSize := by decide
  have hrest : (bytes.take (s.info.writeEnd - s.info.buffer.length)).length = s.info.writeEnd - s.info.buffer.length :=
    length_take_of_le (by omega)
  have hsplit := take_append_drop (s.info.writeEnd - s.info.buffer.length) bytes
  generalize hroom : s.info.writeEnd - s.info.buffer.length = rest at hrest hsplit ⊢
  have hkeep := h.keep (bytes.take rest) (by omega)
  obtain ⟨hflush, hfile, hempty, hpos, hseek, -⟩ := hkeep.flush
  have hsome : s.info.buffer ++ bytes.take rest ≠ [] := by
    intro hnil
    have := congrArg List.length hnil
    rw [length_append, hrest, length_nil] at this
    omega
  have htell : (s.info.keep (bytes.take rest)).flush.tell = s.info.tell + (bytes.take rest).length := by
    rw [tell_of_write h.type_eq, tell_of_write hflush.type_eq, hempty, hpos]
    show s.info.posInFile + (s.info.buffer ++ bytes.take rest).length + 0 = _
    rw [length_append]
    omega
  have hwritten := hflush.writeRest hfile hempty (hseek hsome) (bytes.drop rest)
  dsimp only at hwritten
  rwa [htell, writeAt_append, add_assoc, ← length_append, hsplit] at hwritten

theorem Writes.myBWrite :
    (s.info.myBWrite bytes).failed = false ∧ (s.info.myBWrite bytes).info.tell = s.info.tell + bytes.length ∧
      Writes ⟨(s.info.myBWrite bytes).info, writeAt s.stream s.info.tell bytes⟩ := by
  unfold RwCache.myBWrite
  split_ifs with hfit
  · exact ⟨rfl, tell_keep h.type_eq bytes, h.keep bytes hfit⟩
  · exact h.myBWriteSlow bytes (Nat.le_of_not_le hfit)

end

end Streamed

end Mysql51.IoCache
