import Mysql51.IoCache.StreamReading
import Mysql51.Lib.Run

/-!
# Runs of a cache that is written and read

`reinit_io_cache` keeps the stream where the bytes that the cache needs at its new position are in the file. It flushes the
buffer only of a `WRITE_CACHE`, and only up to the write position.
-/

namespace Mysql51.IoCache

open Machine ByteFile List

namespace Streamed

variable {s : Streamed}

/-! ### Changing the type and the position -/

variable {info : RwCache} {seekOffset : Nat}

/-- The end of the file, when it is set to the position, does not change what a flush does and is not changed by it. -/
theorem flush_endOfFile (h : info.type = .writeCache) :
    ({ info with endOfFile := some info.tell } : RwCache).flush = { info.flush with endOfFile := some info.tell } := by
  obtain ⟨type, file, filePos, seekNotDone⟩ := info
  obtain rfl : type = .writeCache := h
  unfold RwCache.flush
  dsimp only
  split
  · cases file <;> cases seekNotDone <;>
      simp [RwCache.openFile, RwCache.writeBuffer, RwCache.contents, RwCache.offset, RwCache.tell]
  cases file <;> rfl

theorem flush_bufferLength (info : RwCache) : info.flush.bufferLength = info.bufferLength := by
  unfold RwCache.flush RwCache.openFile
  cases info.type with
  | readCache => rfl
  | writeCache => cases info.file <;> dsimp only <;> split <;> rfl

theorem flush_of_read (h : info.type = .readCache) : info.flush = info := by rw [RwCache.flush, h]

theorem restart_of_write (h : info.type = .writeCache) (seekOffset : Nat) : info.restart .readCache seekOffset =
    { info.flush with
      endOfFile := some info.tell, type := .readCache, posInFile := seekOffset, seekNotDone := true, buffer := []
      readPos := 0 } := by
  have hflush := flush_endOfFile h
  cases info
  cases h
  simp only [RwCache.restart]
  rw [hflush]

theorem reuses_iff : info.reuses seekOffset = true ↔ info.posInFile ≤ seekOffset ∧ seekOffset ≤ info.tell := by
  simp [RwCache.reuses]

/-- The stream is cut where the writer has been, so all of it is in the file or the buffer. -/
theorem Writes.reinit_read (h : s.Writes) (hseek : seekOffset ≤ (s.cut .readCache).length) :
    Reads ⟨s.info.reinit .readCache seekOffset, s.cut .readCache⟩ ∧ (s.info.reinit .readCache seekOffset).tell = seekOffset := by
  have htell := tell_of_write h.type_eq
  have hle := h.tell_le
  have hcut : s.cut .readCache = s.stream.take s.info.tell := by simp only [cut, h.type_eq]
  have hlen : (s.cut .readCache).length = s.info.tell := by
    rw [hcut, length_take]
    omega
  have hagree : Agree s.stream (s.cut .readCache) 0 s.info.tell := by
    rw [hcut]
    exact (agree_take le_rfl).symm
  rw [hlen] at hseek
  unfold RwCache.reinit
  split_ifs with hreuse
  · have hge := (reuses_iff.1 hreuse).1
    simp only [RwCache.reuse, h.type_eq]
    refine ⟨⟨rfl, congrArg some hlen.symm, ?_, ?_, ?_, ?_, h.buffer_le.trans h.writeEnd_le, h.blocks_le⟩, ?_⟩
    · show seekOffset - s.info.posInFile ≤ s.info.buffer.length
      omega
    · show s.info.posInFile + s.info.buffer.length ≤ (s.cut .readCache).length
      omega
    · rw [hcut, slice_take htell.ge]
      exact h.buffer_eq
    · exact agree_of_le (hlen.trans htell).le
    show s.info.posInFile + (seekOffset - s.info.posInFile) = seekOffset
    omega
  obtain ⟨hflush, -, -, hpos, -⟩ := h.flush
  rw [restart_of_write h.type_eq seekOffset]
  refine ⟨⟨rfl, congrArg some hlen.symm, le_rfl, ?_, rfl, ?_, Nat.zero_le _, hflush.blocks_le⟩, rfl⟩
  · exact hseek.trans hlen.ge
  have hfile := hflush.file_agree
  rw [show (⟨s.info.flush, s.stream⟩ : Streamed).info.posInFile = s.info.tell from hpos.trans htell.symm] at hfile
  exact (hfile.trans hagree).mono (Nat.zero_le _) hlen.le

theorem Holds.writes (h : s.Holds) (htype : s.info.type = .writeCache) : s.Writes :=
  h.resolve_right fun hreads => by simp [hreads.type_eq] at htype

theorem Holds.reads (h : s.Holds) (htype : s.info.type = .readCache) : s.Reads :=
  h.resolve_left fun hwrites => by simp [hwrites.type_eq] at htype

/-- The part of the buffer in front of the new position holds the stream as the whole did. -/
theorem kept_buffer (hge : s.info.posInFile ≤ seekOffset) (hlast : seekOffset - s.info.posInFile ≤ s.info.buffer.length)
    (hbuffer : s.info.buffer = slice s.stream s.info.posInFile s.info.buffer.length) (hseek : seekOffset ≤ s.stream.length) :
    let kept := s.info.buffer.take (seekOffset - s.info.posInFile)
    kept.length ≤ s.info.buffer.length ∧ kept = slice s.stream s.info.posInFile kept.length ∧
      s.info.posInFile + kept.length ≤ s.stream.length := by
  intro kept
  have hlen : kept.length = seekOffset - s.info.posInFile := length_take_of_le hlast
  refine ⟨hlen.trans_le hlast, ?_, by omega⟩
  rw [hlen]
  show s.info.buffer.take _ = _
  rw [hbuffer, take_slice, min_eq_left hlast]

theorem Writes.reinit_write_iff (h : s.Writes) (hseek : seekOffset ≤ s.stream.length) :
    Writes ⟨s.info.reinit .writeCache seekOffset, s.stream⟩ ↔ Agree s.info.contents s.stream s.info.tell seekOffset := by
  have htell := tell_of_write h.type_eq
  unfold RwCache.reinit
  split_ifs with hreuse
  · obtain ⟨hge, hlast⟩ := reuses_iff.1 hreuse
    obtain ⟨hlen, hbuffer, hwithin⟩ := kept_buffer hge (by omega) h.buffer_eq hseek
    simp only [RwCache.reuse, h.type_eq]
    refine iff_of_true ?_ (agree_of_le hlast)
    exact ⟨rfl, rfl, hwithin, hbuffer, h.file_agree, h.offset_eq, hlen.trans h.buffer_le, h.block_le_writeEnd, h.writeEnd_le,
      h.blocks_le⟩
  obtain ⟨hflush, -, -, hpos, -, hbehind⟩ := h.flush
  have hmod := Nat.mod_lt seekOffset (show 0 < ioSize by decide)
  have hlength := flush_bufferLength s.info
  have hblocks := h.blocks_le
  have hfile := hflush.file_agree
  rw [show (⟨s.info.flush, s.stream⟩ : Streamed).info.posInFile = s.info.tell from hpos.trans htell.symm] at hfile
  rw [← htell] at hbehind
  simp only [RwCache.restart, h.type_eq]
  constructor
  · intro hafter
    have hagree : Agree s.info.flush.contents s.stream 0 seekOffset := hafter.file_agree
    exact (hbehind seekOffset).symm.trans (hagree.mono (Nat.zero_le _) le_rfl)
  intro hsafe
  refine ⟨rfl, rfl, hseek, rfl, ?_, fun _ => rfl, Nat.zero_le _, ?_, ?_, hflush.blocks_le⟩
  · exact hfile.append ((hbehind seekOffset).trans hsafe)
  · show ioSize ≤ s.info.bufferLength - _
    omega
  exact (Nat.sub_le _ _).trans hlength.ge

/-- A reader that leaves its buffer needs all bytes from its new position on in the file. -/
theorem Reads.reinit_read_iff (h : s.Reads) (hseek : seekOffset ≤ s.stream.length) :
    Reads ⟨s.info.reinit .readCache seekOffset, s.stream⟩ ↔
      s.info.reuses seekOffset = true ∨ Agree s.info.contents s.stream seekOffset s.stream.length := by
  have htell := tell_of_read h.type_eq
  have hpos := h.readPos_le
  unfold RwCache.reinit
  split_ifs with hreuse
  · obtain ⟨hge, hlast⟩ := reuses_iff.1 hreuse
    simp only [RwCache.reuse, h.type_eq]
    refine iff_of_true ?_ (.inl hreuse)
    refine ⟨rfl, h.endOfFile_eq, ?_, h.window_le, h.buffer_eq, h.file_agree, h.buffer_le, h.blocks_le⟩
    show seekOffset - s.info.posInFile ≤ s.info.buffer.length
    omega
  simp only [RwCache.restart, h.type_eq, flush_of_read h.type_eq]
  refine Iff.trans ?_ (or_iff_right hreuse).symm
  constructor
  · intro hafter
    exact hafter.file_agree
  intro hsafe
  exact ⟨rfl, h.endOfFile_eq, le_rfl, hseek, rfl, hsafe, Nat.zero_le _, h.blocks_le⟩

/-- A reader that becomes a writer needs the bytes before its buffer, or before its position, in the file. -/
theorem Reads.reinit_write_iff (h : s.Reads) (hseek : seekOffset ≤ s.stream.length) :
    Writes ⟨s.info.reinit .writeCache seekOffset, s.stream⟩ ↔
      Agree s.info.contents s.stream 0 (if s.info.reuses seekOffset then s.info.posInFile else seekOffset) := by
  have htell := tell_of_read h.type_eq
  have hpos := h.readPos_le
  have hblocks := h.blocks_le
  unfold RwCache.reinit
  split_ifs with hreuse
  · obtain ⟨hge, hlast⟩ := reuses_iff.1 hreuse
    obtain ⟨hlen, hbuffer, hwithin⟩ := kept_buffer hge (by omega) h.buffer_eq hseek
    simp only [RwCache.reuse, h.type_eq]
    refine ⟨fun hafter => hafter.file_agree,
      fun hsafe => ⟨rfl, rfl, hwithin, hbuffer, hsafe, fun _ => rfl, hlen.trans h.buffer_le, ?_, le_rfl, h.blocks_le⟩⟩
    show ioSize ≤ s.info.bufferLength
    omega
  have hmod := Nat.mod_lt seekOffset (show 0 < ioSize by decide)
  simp only [RwCache.restart, h.type_eq, flush_of_read h.type_eq]
  refine ⟨fun hafter => hafter.file_agree,
    fun hsafe => ⟨rfl, rfl, hseek, rfl, hsafe, fun _ => rfl, Nat.zero_le _, ?_, Nat.sub_le _ _, h.blocks_le⟩⟩
  show ioSize ≤ s.info.bufferLength - _
  omega

theorem Holds.tell_reinit (h : s.Holds) (type : CacheType) (seekOffset : Nat) :
    (s.info.reinit type seekOffset).tell = seekOffset := by
  unfold RwCache.reinit
  split_ifs with hreuse
  · obtain ⟨hge, hlast⟩ := reuses_iff.1 hreuse
    have hlen : (s.info.buffer.take (seekOffset - s.info.posInFile)).length = seekOffset - s.info.posInFile := by
      apply length_take_of_le
      obtain hwrites | hreads := h
      · rw [tell_of_write hwrites.type_eq] at hlast
        omega
      have := hreads.readPos_le
      rw [tell_of_read hreads.type_eq] at hlast
      omega
    have hsum : s.info.posInFile + (seekOffset - s.info.posInFile) = seekOffset := Nat.add_sub_cancel' hge
    cases htype : s.info.type <;> cases type <;> simpa only [RwCache.reuse, RwCache.tell, htype, hlen] using hsum
  cases type <;> rfl

/-! ### Runs -/

/-- Under the condition, an operation does what it has to and the cache stands for the stream that follows. -/
theorem Holds.step (h : s.Holds) {op : Op} {t : Streamed} (hstep : s.step op = some t) (hsafe : s.Safe op) :
    s.Correct op ∧ t.Holds := by
  cases op with
  | write bytes =>
    obtain ⟨htype, ht⟩ := Option.ite_none_right_eq_some.1 hstep
    cases ht
    obtain ⟨hok, htell, hafter⟩ := (h.writes htype).myBWrite bytes
    exact ⟨⟨hok, htell⟩, .inl hafter⟩
  | read count =>
    obtain ⟨htype, ht⟩ := Option.ite_none_right_eq_some.1 hstep
    cases ht
    obtain ⟨hafter, hok, hshort⟩ := (h.reads htype).myBRead hsafe
    refine ⟨?_, .inr hafter⟩
    change if count ≤ s.available then _ else _
    split_ifs with hle
    · exact hok hle
    · exact hshort hle
  | reinit type seekOffset =>
    obtain ⟨hseek, ht⟩ := Option.ite_none_right_eq_some.1 hstep
    cases ht
    refine ⟨h.tell_reinit type seekOffset, ?_⟩
    change s.SafeReinit type seekOffset at hsafe
    unfold SafeReinit at hsafe
    obtain hwrites | hreads := h
    · rw [hwrites.type_eq] at hsafe
      cases type with
      | readCache => exact .inr (hwrites.reinit_read hseek).1
      | writeCache =>
        have hcut : s.cut .writeCache = s.stream := by simp only [cut, hwrites.type_eq]
        rw [hcut] at hseek ⊢
        exact .inl ((hwrites.reinit_write_iff hseek).2 hsafe)
    rw [hreads.type_eq] at hsafe
    cases type with
    | readCache =>
      have hcut : s.cut .readCache = s.stream := by simp only [cut, hreads.type_eq]
      rw [hcut] at hseek ⊢
      exact .inr ((hreads.reinit_read_iff hseek).2 hsafe)
    | writeCache =>
      have hcut : s.cut .writeCache = s.stream := by simp only [cut, hreads.type_eq]
      rw [hcut] at hseek ⊢
      exact .inl ((hreads.reinit_write_iff hseek).2 hsafe)

theorem holds_init {opened : Bool} {cachesize failures : Nat} (hinit : initRwCache opened cachesize failures = some info) :
    Holds ⟨info, []⟩ := by
  obtain ⟨size, hsize, rfl⟩ := Option.map_eq_some_iff.1 hinit
  have hblocks := le_of_allocSize hsize
  refine .inl ⟨rfl, rfl, le_rfl, rfl, agree_of_le le_rfl, fun _ => rfl, Nat.zero_le _, ?_, le_rfl, hblocks⟩
  exact (Nat.le_mul_of_pos_right ioSize Nat.two_pos).trans hblocks

end Streamed

open Streamed in
/-- In a run all of whose operations meet the condition, all of them do what they would do to a stream of bytes. -/
theorem cache_refines_stream {opened : Bool} {cachesize failures : Nat} {info : RwCache}
    (hinit : initRwCache opened cachesize failures = some info) (ops : List Op)
    (hsafe : ∀ s op t, Run.Takes step ⟨info, []⟩ ops s op → s.step op = some t → s.Safe op) {s t : Streamed} {op : Op}
    (htakes : Run.Takes step ⟨info, []⟩ ops s op) (hstep : s.step op = some t) : s.Correct op :=
  (Run.refines (fun _ _ _ h hstep hok => h.step hstep hok) (holds_init hinit) hsafe s op t htakes hstep).1

def smallCache : RwCache :=
  { type := .writeCache, file := none, filePos := 0, seekNotDone := false, posInFile := 0, buffer := [], readPos := 0,
    writeEnd := 8192, endOfFile := none, bufferLength := 8192, error := 0 }

/-- The same cache after three bytes are written and the position is set to the second of them. -/
def smallCacheRead : RwCache :=
  { smallCache with type := .readCache, buffer := [1, 2, 3], readPos := 1, endOfFile := some 3 }

/-- Three bytes are written and two of them read back from the buffer; the file is never opened. -/
theorem cache_refines_stream_sample : initRwCache false 100 0 = some smallCache ∧
      Run.run Streamed.step ⟨smallCache, []⟩ [.write [1, 2, 3], .reinit .readCache 1] = some ⟨smallCacheRead, [1, 2, 3]⟩ ∧
      (smallCacheRead.myBRead 2).failed = false ∧ (smallCacheRead.myBRead 2).bytes = [2, 3] := by
  have hinit : initRwCache false 100 0 = some smallCache := rfl
  have hrun : Run.run Streamed.step ⟨smallCache, []⟩ [.write [1, 2, 3], .reinit .readCache 1]
      = some ⟨smallCacheRead, [1, 2, 3]⟩ := rfl
  have hread : Streamed.Correct ⟨smallCacheRead, [1, 2, 3]⟩ (.read 2) :=
    cache_refines_stream hinit [.write [1, 2, 3], .reinit .readCache 1, .read 2] ?_
      ⟨[.write [1, 2, 3], .reinit .readCache 1], prefix_rfl, hrun⟩ rfl
  · exact ⟨hinit, hrun, hread.1, hread.2.1⟩
  intro s op t htakes _
  rcases Run.takes_cons.1 htakes with ⟨rfl, rfl⟩ | ⟨s', hs', htakes⟩
  · exact trivial
  cases hs'
  rcases Run.takes_cons.1 htakes with ⟨rfl, rfl⟩ | ⟨s', hs', htakes⟩
  · exact trivial
  cases hs'
  rcases Run.takes_cons.1 htakes with ⟨rfl, rfl⟩ | ⟨_, _, pre, hpre, _⟩
  · exact .inl le_rfl
  · simp at hpre

/-- The bytes that are written are in the buffer only; the second change of the position drops them. -/
theorem not_cache_refines_stream : initRwCache false 100 0 = some smallCache ∧
      ∃ s, Run.run Streamed.step ⟨smallCache, []⟩ [.write [1, 2, 3], .reinit .readCache 0, .reinit .readCache 2] = some s ∧
        s.stream = [1, 2, 3] ∧ s.info.tell = 2 ∧ (s.step (.read 1)).isSome ∧
        (s.info.myBRead 1).failed = true ∧ (s.info.myBRead 1).info.error = -1 ∧ ¬ s.Correct (.read 1) := by
  refine ⟨rfl, _, rfl, rfl, rfl, rfl, rfl, rfl, ?_⟩
  intro hcorrect
  exact absurd (show true = false from hcorrect.1) (by decide)

end Mysql51.IoCache
