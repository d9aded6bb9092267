import Mysql51.IoCache.StreamRuns

/-!
# Blocks written inside the stream

`my_block_write` lays a block over the stream of a `WRITE_CACHE`: the part before the buffer goes to the file, the part
inside to the buffer and the rest to `_my_b_write`. Where the block ends in the buffer, `write_pos` is set to the length of the
part from the start of the buffer, not from the place it is copied to.
-/

namespace Mysql51.IoCache

open Machine ByteFile List

namespace RwCache

variable (info : RwCache)

/-- The bytes of the file before the buffer, and those in the buffer. -/
def logical : List UInt8 := info.contents.take info.posInFile ++ info.buffer

/-- A `pwrite`, that leaves the position of the file. -/
def myPwrite (bytes : List UInt8) (pos : Nat) : RwCache := { info with file := some (writeAt info.contents pos bytes) }

/-- The call of `_my_b_write`, which fills the buffer. `none` when the bytes are too few, so that it reads behind them. -/
def blockTail (bytes : List UInt8) : Option Outcome :=
  if !info.tooBig && decide (info.buffer.length + bytes.length < info.writeEnd) then none else some (info.myBWriteSlow bytes)

/-- The copy into the buffer; `write_pos` is set from the length of the block without its offset. -/
def overwrite (bytes : List UInt8) (offset : Nat) : RwCache :=
  { info with buffer := (writeAt info.buffer offset bytes).take (max info.buffer.length bytes.length) }

/-- `my_block_write` at or behind the start of the buffer. -/
def blockInside (bytes : List UInt8) (offset : Nat) : Option Outcome :=
  if offset < info.writeEnd then
    let length := min (info.writeEnd - offset) bytes.length
    let written := info.overwrite (bytes.take length) offset
    if bytes.length = length then some ⟨written, [], false⟩ else written.blockTail (bytes.drop length)
  else info.blockTail bytes

/-- The part before the buffer goes to the file. Its length is cut to an `uint`; if that cuts bits off, the rest is copied to a place
before the buffer. -/
def myBlockWrite (bytes : List UInt8) (pos : Nat) : Option Outcome :=
  if pos < info.posInFile then
    if pos + bytes.length ≤ info.posInFile then some ⟨info.myPwrite bytes pos, [], false⟩
    else
      let length := (info.posInFile - pos) % 2 ^ 32
      if pos + length < info.posInFile then none
      else (info.myPwrite (bytes.take length) pos).blockInside (bytes.drop length) 0
  else info.blockInside bytes (pos - info.posInFile)

end RwCache

namespace Streamed

/-- What a block does to a stream: where it fits it is laid over the stream, and elsewhere the stream is too short. -/
structure Laid (s : Streamed) (bytes : List UInt8) (pos : Nat) (fits : Prop) (result : Option RwCache.Outcome) : Prop where
  isSome : fits → result.isSome
  after : ∀ o, result = some o → o.failed = false ∧ ∃ stream, Writes ⟨o.info, stream⟩ ∧
    (fits → stream = writeAt s.stream pos bytes ∧ o.info.tell = max s.info.tell (pos + bytes.length)) ∧
    (¬ fits → o.info.tell < pos + bytes.length)

variable {s : Streamed} (h : s.Writes)
include h

theorem Writes.logical_eq : s.info.logical = s.stream.take s.info.tell := by
  have hfile : s.info.contents.take s.info.posInFile = s.stream.take s.info.posInFile :=
    (h.file_agree.mono le_rfl (zero_add _).le).slice_eq
  rw [tell_of_write h.type_eq, take_add, RwCache.logical, hfile]
  exact congrArg _ h.buffer_eq

theorem Writes.length_logical : s.info.logical.length = s.info.tell := by
  rw [h.logical_eq]
  exact length_take_of_le ((tell_of_write h.type_eq).trans_le h.tell_le)

theorem Writes.logical : Writes ⟨s.info, s.info.logical⟩ := by
  have htell := tell_of_write h.type_eq
  have hagree : Agree s.stream s.info.logical 0 s.info.tell := h.logical_eq ▸ (agree_take le_rfl).symm
  refine { h with tell_le := (htell.symm.trans h.length_logical.symm).le, buffer_eq := ?_, file_agree := ?_ }
  · exact h.buffer_eq.trans (hagree.mono (Nat.zero_le _) htell.ge).slice_eq
  · exact h.file_agree.trans (hagree.mono le_rfl (by omega))

variable (bytes : List UInt8) {pos offset : Nat}

theorem Writes.myPwrite (hlt : pos < s.info.posInFile) (hle : pos + bytes.length ≤ s.info.posInFile) :
    Writes ⟨s.info.myPwrite bytes pos, writeAt s.stream pos bytes⟩ := by
  have hfile := h.posInFile_le
  have htell := h.tell_le
  refine { h with tell_le := ?_, buffer_eq := ?_, file_agree := fun k hk hik => ?_, offset_eq := fun _ => h.offset_eq ?_ }
  · exact htell.trans (length_writeAt .. ▸ le_max_left ..)
  · exact h.buffer_eq.trans (agree_writeAt_behind hle).symm.slice_eq
  · change k < s.info.posInFile at hk
    show (writeAt s.info.contents pos bytes)[k]? = _
    rw [getElem?_writeAt, getElem?_writeAt, if_pos (hk.trans_le hfile), if_pos (show k < s.stream.length by omega),
      h.file_agree k hk hik]
  cases hopen : s.info.file with
  | none =>
    rw [RwCache.contents, hopen] at hfile
    exact absurd (hlt.trans_le hfile) (Nat.not_lt_zero _)
  | some f => rfl

theorem Writes.overwrite (hle : offset + bytes.length ≤ s.info.writeEnd) :
    (s.info.overwrite bytes offset).tell = s.info.posInFile + max s.info.buffer.length bytes.length ∧
      Writes ⟨s.info.overwrite bytes offset, writeAt s.stream s.info.posInFile (s.info.overwrite bytes offset).buffer⟩ := by
  have hpos : s.info.posInFile ≤ s.stream.length := (Nat.le_add_right _ _).trans h.tell_le
  have hbuffer := h.buffer_le
  have hlen : (s.info.overwrite bytes offset).buffer.length = max s.info.buffer.length bytes.length := by
    rw [RwCache.overwrite, length_take, length_writeAt]
    omega
  refine ⟨?_, { h with tell_le := ?_, buffer_eq := slice_writeAt.symm, file_agree := ?_, buffer_le := ?_ }⟩
  · exact (tell_of_write (show (s.info.overwrite bytes offset).type = _ from h.type_eq)).trans (congrArg _ hlen)
  · exact (le_max_right _ _).trans_eq (length_writeAt ..).symm
  · exact h.file_agree.trans (agree_writeAt_before _ hpos le_rfl).symm
  show (s.info.overwrite bytes offset).buffer.length ≤ s.info.writeEnd
  omega

/-- A part that starts the buffer or ends inside of what it holds is laid over the stream. -/
theorem Writes.overwrite_eq (hle : offset ≤ s.info.buffer.length)
    (hfit : offset = 0 ∨ offset + bytes.length ≤ s.info.buffer.length) :
    writeAt s.stream s.info.posInFile (s.info.overwrite bytes offset).buffer
      = writeAt s.stream (s.info.posInFile + offset) bytes := by
  have htell := h.tell_le
  have hbuffer : (s.info.overwrite bytes offset).buffer = writeAt s.info.buffer offset bytes := by
    apply take_of_length_le
    rw [length_writeAt]
    omega
  have hbyte : ∀ i < s.info.buffer.length, s.info.buffer[i]? = s.stream[s.info.posInFile + i]? := by
    intro i hi
    rw [h.buffer_eq, slice, List.getElem?_take, if_pos hi, List.getElem?_drop]
  apply ext_getElem?
  intro i
  rw [hbuffer, getElem?_writeAt, getElem?_writeAt, length_writeAt, getElem?_writeAt]
  grind

theorem Writes.blockTail : s.info.blockTail bytes =
      if s.info.buffer.length + bytes.length < s.info.writeEnd then none else some (s.info.myBWriteSlow bytes) := by
  simp [RwCache.blockTail, RwCache.tooBig, h.endOfFile_eq]

theorem Writes.blockInside (hle : offset ≤ s.info.buffer.length) : Laid s bytes (s.info.posInFile + offset)
      (offset = 0 ∨ offset + bytes.length ≤ s.info.buffer.length ∨ s.info.buffer.length = s.info.writeEnd)
      (s.info.blockInside bytes offset) := by
  have hbuffer := h.buffer_le
  have htell := tell_of_write h.type_eq
  unfold RwCache.blockInside
  split_ifs with hlt
  · generalize hlength : min (s.info.writeEnd - offset) bytes.length = length
    have htake : (bytes.take length).length = length := length_take_of_le (by omega)
    have hover := h.overwrite_eq (bytes.take length) hle
    obtain ⟨hafter, hwrites⟩ := @Writes.overwrite s h (bytes.take length) offset (by omega)
    rw [htake] at hafter hover
    dsimp only
    generalize hsame : s.info.overwrite (bytes.take length) offset = written at hafter hwrites hover ⊢
    split
    case isTrue hall =>
      refine ⟨fun _ => rfl, fun o ho => ?_⟩
      cases ho
      refine ⟨rfl, _, hwrites, fun hfits => ⟨?_, hafter.trans ?_⟩, fun hnot => hafter.trans_lt ?_⟩
      · rw [hover (by omega), take_of_length_le hall.le]
      · omega
      omega
    case isFalse hpart =>
      have hend : written.posInFile = s.info.posInFile ∧ written.writeEnd = s.info.writeEnd := hsame ▸ ⟨rfl, rfl⟩
      have hlen : written.tell = written.posInFile + written.buffer.length := tell_of_write hwrites.type_eq
      have hdrop : (bytes.drop length).length = bytes.length - length := length_drop
      rw [hwrites.blockTail]
      refine ⟨fun hfits => ?_, fun o ho => ?_⟩
      · rw [if_neg (show ¬ written.buffer.length + _ < written.writeEnd by omega)]
        rfl
      obtain ⟨hfull, ho⟩ := Option.ite_none_left_eq_some.1 ho
      cases ho
      obtain ⟨hok, hlast, htail⟩ := hwrites.myBWriteSlow (bytes.drop length) (Nat.le_of_not_lt hfull)
      dsimp only at hlast htail hfull ⊢
      refine ⟨hok, _, htail, fun hfits => ⟨?_, hlast.trans (by omega)⟩, fun hnot => hlast.trans_lt (by omega)⟩
      rw [hover (by omega), show written.tell = s.info.posInFile + offset + (bytes.take length).length by omega,
        writeAt_append, take_append_drop]
  obtain rfl : offset = s.info.buffer.length := by omega
  rw [h.blockTail, if_neg (by omega)]
  obtain ⟨hok, hafter, hwrites⟩ := h.myBWriteSlow bytes (by omega)
  refine ⟨fun _ => rfl, fun o ho => ?_⟩
  cases ho
  exact ⟨hok, _, hwrites, fun _ => ⟨by rw [htell], by omega⟩, fun hnot => absurd (.inr (.inr (by omega))) hnot⟩

theorem Writes.myBlockWrite (hle : pos ≤ s.info.tell) : Laid s bytes pos
      ((pos ≤ s.info.posInFile ∨ pos + bytes.length ≤ s.info.tell ∨ s.info.buffer.length = s.info.writeEnd) ∧
        (pos + bytes.length ≤ s.info.posInFile ∨ s.info.posInFile < pos + 2 ^ 32))
      (s.info.myBlockWrite bytes pos) := by
  have htell := tell_of_write h.type_eq
  unfold RwCache.myBlockWrite
  split
  case isTrue hlt =>
    split
    case isTrue hbefore =>
      refine ⟨fun _ => rfl, fun o ho => ?_⟩
      cases ho
      have hwithin : pos + bytes.length ≤ s.info.tell := by omega
      exact ⟨rfl, _, h.myPwrite bytes hlt hbefore, fun _ => ⟨rfl, (max_eq_left hwithin).symm⟩,
        fun hnot => absurd ⟨.inl hlt.le, .inl hbefore⟩ hnot⟩
    case isFalse hover =>
      dsimp only
      split
      case isTrue hcut => exact ⟨fun hfits => by omega, fun o ho => by cases ho⟩
      case isFalse hwhole =>
      obtain ⟨length, hlength⟩ := Nat.exists_eq_add_of_le hlt.le
      have htake : (bytes.take length).length = length := length_take_of_le (by omega)
      have hdrop : (bytes.drop length).length = bytes.length - length := length_drop
      rw [show (s.info.posInFile - pos) % 2 ^ 32 = length by omega]
      have hlaid := (h.myPwrite (bytes.take length) hlt (by omega)).blockInside (bytes.drop length) (Nat.zero_le _)
      refine ⟨fun _ => hlaid.isSome (.inl rfl), fun o ho => ?_⟩
      obtain ⟨hok, stream, hwrites, hfits, -⟩ := hlaid.after o ho
      obtain ⟨rfl, hafter⟩ := hfits (.inl rfl)
      refine ⟨hok, _, hwrites, fun _ => ⟨?_, hafter.trans ?_⟩, fun hnot => absurd ⟨.inl hlt.le, .inr (by omega)⟩ hnot⟩
      · show writeAt (writeAt s.stream pos _) s.info.posInFile _ = _
        rw [show s.info.posInFile = pos + (bytes.take length).length by omega, writeAt_append, take_append_drop]
      show max s.info.tell (s.info.posInFile + _) = _
      omega
  case isFalse hge =>
    have hlaid := @Writes.blockInside s h bytes (pos - s.info.posInFile) (by omega)
    rw [Nat.add_sub_cancel' (Nat.le_of_not_lt hge)] at hlaid
    convert hlaid using 1
    omega

omit h

/-- Runs of a cache in which blocks are written, too, and the position is changed where the stream is kept. -/
inductive Reachable : Streamed → Prop
  | init {opened : Bool} {cachesize failures : Nat} {info : RwCache} (hinit : initRwCache opened cachesize failures = some info) :
    Reachable ⟨info, []⟩
  | step {s t : Streamed} {op : Op} (hs : Reachable s) (hsafe : s.Safe op) (hstep : s.step op = some t) : Reachable t
  | blockWrite {s : Streamed} {bytes : List UInt8} {pos : Nat} {o : RwCache.Outcome} (hs : Reachable s)
    (htype : s.info.type = .writeCache) (hpos : pos ≤ s.info.tell) (ho : s.info.myBlockWrite bytes pos = some o) :
    Reachable ⟨o.info, o.info.logical⟩

theorem Reachable.holds (hs : Reachable s) : s.Holds := by
  induction hs with
  | init hinit => exact holds_init hinit
  | step _ hsafe hstep ih => exact (ih.step hstep hsafe).2
  | blockWrite _ htype hpos ho ih =>
    obtain ⟨-, stream, hwrites, -⟩ := ((ih.writes htype).myBlockWrite _ hpos).after _ ho
    exact .inl hwrites.logical

end Streamed

open Streamed in
/-- A block is laid over the stream unless it starts inside the buffer and ends behind what a buffer with room holds, or has
`2 ^ 32` bytes or more before the buffer and further ones in it. -/
theorem myBlockWrite_overlays_iff {s : Streamed} (hs : Reachable s) (htype : s.info.type = .writeCache) {pos : Nat}
    (hpos : pos ≤ s.info.tell) (bytes : List UInt8) :
    (∃ o, s.info.myBlockWrite bytes pos = some o ∧ o.failed = false ∧
      o.info.logical = writeAt s.info.logical pos bytes) ↔
      (pos ≤ s.info.posInFile ∨ pos + bytes.length ≤ s.info.tell ∨ s.info.buffer.length = s.info.writeEnd) ∧
        (pos + bytes.length ≤ s.info.posInFile ∨ s.info.posInFile < pos + 2 ^ 32) := by
  have h := hs.holds.writes htype
  have hlaid := h.logical.myBlockWrite bytes hpos
  constructor
  · rintro ⟨o, ho, -, heq⟩
    by_contra hnot
    obtain ⟨-, stream, hwrites, -, hshort⟩ := hlaid.after o ho
    have hafter := hwrites.length_logical
    rw [heq, length_writeAt] at hafter
    exact absurd (hshort hnot) (hafter ▸ (le_max_right _ _).not_gt)
  · intro hfits
    obtain ⟨o, ho⟩ := Option.isSome_iff_exists.1 (hlaid.isSome hfits)
    obtain ⟨hok, stream, hwrites, hover, -⟩ := hlaid.after o ho
    obtain ⟨rfl, htell⟩ := hover hfits
    refine ⟨o, ho, hok, hwrites.logical_eq.trans (take_of_length_le ?_)⟩
    rw [length_writeAt, h.length_logical]
    exact htell.ge

def smallCacheTwo : RwCache := { smallCache with buffer := [1, 2] }

theorem reachable_smallCacheTwo : Streamed.Reachable ⟨smallCacheTwo, [1, 2]⟩ :=
  @Streamed.Reachable.step _ _ (.write [1, 2]) (@Streamed.Reachable.init false 100 0 _ rfl) trivial rfl

theorem myBlockWrite_overlays_at_start : ∃ o, smallCacheTwo.myBlockWrite [7, 8, 9] 0 = some o ∧ o.failed = false ∧
      o.info.logical = writeAt smallCacheTwo.logical 0 [7, 8, 9] :=
  (myBlockWrite_overlays_iff reachable_smallCacheTwo rfl (Nat.zero_le _) _).2 ⟨.inl le_rfl, .inr (by decide)⟩

/-- The last byte of a block that is written from the second byte on is lost. -/
theorem not_myBlockWrite_overlays : Streamed.Reachable ⟨smallCacheTwo, [1, 2]⟩ ∧ smallCacheTwo.type = .writeCache ∧
    1 ≤ smallCacheTwo.tell ∧ writeAt smallCacheTwo.logical 1 [7, 8, 9] = [1, 7, 8, 9] ∧
    ∃ o, smallCacheTwo.myBlockWrite [7, 8, 9] 1 = some o ∧ o.failed = false ∧ o.info.logical = [1, 7, 8] :=
  ⟨reachable_smallCacheTwo, rfl, by decide, rfl, _, rfl, rfl, rfl⟩

end Mysql51.IoCache
