import Mysql51.IoCache.Stream

/-!
# Reading the stream of a cache

A read takes what is left in the buffer, then whole blocks from the file, then fills the buffer again. With reads that one `read`
of the system can serve, it is right exactly when the bytes that it finds where the file stands are those of the stream, and, where
the stream ends before, when the number of bytes that it finds is the number there are.
-/

namespace Mysql51.IoCache

open Machine ByteFile List

namespace Streamed

/-- How many bytes a read takes from the file before it fills the buffer. -/
def direct (count pos : Nat) : Nat :=
  if ioSize + (ioSize - pos % ioSize) ≤ count then count / ioSize * ioSize - pos % ioSize else 0

/-- A read of `count` bytes from `pos` on goes to the file, `left` bytes being taken from the buffer before. The bytes that
it finds where the file stands have to be those of the stream. When the stream ends before, the number of bytes that it
finds has to be the one to report. -/
def SafeFile (s : Streamed) (left count pos : Nat) : Prop :=
  let behind := s.stream.length - pos
  let ahead := s.info.contents.length - s.info.offset pos
  let blocks := direct count pos
  let filled := min (s.info.bufferLength - if blocks = 0 then pos % ioSize else 0) (behind - blocks)
  if count ≤ behind then
    count ≤ ahead ∧ slice s.info.contents (s.info.offset pos) (blocks + filled) <+: s.stream.drop pos
  else if behind = 0 then int32 left = s.available
  else if blocks ≤ behind then int32 (min behind ahead + left : Nat) = s.available
  else ahead < blocks ∧ int32 (ahead + left : Nat) = s.available

variable {s : Streamed}

structure Obtains (stream : List UInt8) (start count : Nat) (r : RwCache.Outcome) : Prop where
  reads : Reads ⟨r.info, stream⟩
  ok : count ≤ stream.length - start → r.failed = false ∧ r.bytes = slice stream start count ∧ r.info.tell = start + count
  short : ¬ count ≤ stream.length - start → r.failed = true ∧ r.info.error = (stream.length - start : Nat)

structure Progress (s : Streamed) (start saveCount : Nat) (got : List UInt8) (count pos : Nat) : Prop where
  pos_eq : pos = start + got.length
  count_eq : saveCount = got.length + count
  pos_le : pos ≤ s.stream.length
  window_le : s.info.posInFile + s.info.buffer.length ≤ pos

variable {start saveCount count pos : Nat} {got : List UInt8}

theorem Reads.moved (h : s.Reads) (filePos : Nat) (seekNotDone : Bool) (error : Int) :
    Reads ⟨{ s.info with filePos, seekNotDone, error }, s.stream⟩ :=
  ⟨h.type_eq, h.endOfFile_eq, h.readPos_le, h.window_le, h.buffer_eq, h.file_agree, h.buffer_le, h.blocks_le⟩

/-- A read that fails is right when there are not enough bytes and it reports how many there are. -/
theorem obtains_failed_iff {stream : List UInt8} {r : RwCache.Outcome} (hreads : Reads ⟨r.info, stream⟩)
    (hfailed : r.failed = true) : Obtains stream start saveCount r ↔
      stream.length - start < saveCount ∧ r.info.error = (stream.length - start : Nat) := by
  constructor
  · rintro ⟨-, hok, hshort⟩
    have hlt : stream.length - start < saveCount := by
      by_contra hge
      have := (hok (Nat.le_of_not_lt hge)).1
      simp [hfailed] at this
    exact ⟨hlt, (hshort (Nat.not_le.2 hlt)).2⟩
  rintro ⟨hlt, herror⟩
  exact ⟨hreads, fun hle => absurd hle (Nat.not_le.2 hlt), fun _ => ⟨hfailed, herror⟩⟩

theorem Reads.myRead (h : s.Reads) (hlt : s.info.posInFile + s.info.buffer.length < s.stream.length) {n : Nat}
    (hn : n ≤ RwCache.maxRead) : s.info.myRead n = some (slice s.info.contents s.info.filePos n) := by
  have hlen := h.file_agree.le_length hlt le_rfl
  have hmax : RwCache.maxRead < 2 ^ 32 := by decide
  have hwhole : min (n % 2 ^ 32) RwCache.maxRead = n := by
    rw [Nat.mod_eq_of_lt (by omega), min_eq_left hn]
  unfold RwCache.myRead RwCache.contents at *
  rw [hwhole]
  cases hopen : s.info.file with
  | some contents => rfl
  | none =>
    rw [hopen] at hlen
    exact absurd (hlt.trans_le hlen) (Nat.not_lt_zero _)

/-- The buffer filled anew, `count` bytes of it being taken: the new buffer has to be a window of the stream. -/
theorem Reads.obtains_refill_iff (h : s.Reads) (hp : Progress s start saveCount got count pos) (filled : List UInt8)
    (hn : pos + filled.length ≤ s.stream.length) (hfit : filled.length ≤ s.info.bufferLength)
    (hcount : count ≤ filled.length) (filePos : Nat) : Obtains s.stream start saveCount
        ⟨{ s.info with filePos, posInFile := pos, buffer := filled, readPos := count }, got ++ filled.take count, false⟩ ↔
      got = slice s.stream start got.length ∧ filled <+: s.stream.drop pos := by
  obtain ⟨hpos, hsave, -, hwindow⟩ := hp
  have hwant : slice s.stream start saveCount = slice s.stream start got.length ++ slice s.stream pos count := by
    rw [hsave, hpos, slice_append_slice]
  constructor
  · rintro ⟨⟨-, -, -, -, hbuffer, -, -, -⟩, hok, -⟩
    have hbytes : got ++ filled.take count = slice s.stream start saveCount := (hok (by omega)).2.1
    rw [hwant] at hbytes
    refine ⟨(append_inj hbytes ?_).1, ?_⟩
    · rw [length_slice]
      omega
    rw [show filled = slice s.stream pos filled.length from hbuffer]
    exact take_prefix _ _
  rintro ⟨hgot, hprefix⟩
  have hfilled : filled = slice s.stream pos filled.length := prefix_iff_eq_take.1 hprefix
  refine ⟨⟨h.type_eq, h.endOfFile_eq, hcount, hn, hfilled, ?_, hfit, h.blocks_le⟩, fun _ => ⟨rfl, ?_, ?_⟩, ?_⟩
  · exact h.file_agree.mono (hwindow.trans (Nat.le_add_right _ _)) le_rfl
  · rw [hwant, ← hgot, hfilled, take_slice, min_eq_left hcount]
  · simp only [RwCache.tell, h.type_eq]
    omega
  intro hshort
  omega

theorem Reads.maxLength_eq (h : s.Reads) (hpos : pos ≤ s.stream.length) (diffLength : Nat) :
    s.info.maxLength pos diffLength = min (s.info.bufferLength - diffLength) (s.stream.length - pos) := by
  unfold RwCache.maxLength
  rw [h.endOfFile_eq]
  exact if_pos hpos

theorem Reads.fillBuffer_iff (h : s.Reads) (hp : Progress s start saveCount got count pos) {diffLength : Nat}
    (hmaxRead : s.info.bufferLength ≤ RwCache.maxRead) (hroom : diffLength < s.info.bufferLength)
    (hfit : count ≤ s.info.bufferLength - diffLength) :
    Obtains s.stream start saveCount (s.info.fillBuffer got count pos diffLength) ↔
      if count ≤ s.stream.length - pos then
        got = slice s.stream start got.length ∧ (s.stream.length ≤ pos ∨ (count ≤ s.info.contents.length - s.info.filePos ∧
          slice s.info.contents s.info.filePos (min (s.info.bufferLength - diffLength) (s.stream.length - pos))
            <+: s.stream.drop pos))
      else int32 (min (s.stream.length - pos) (s.info.contents.length - s.info.filePos) + got.length : Nat)
        = (s.stream.length - start : Nat) := by
  have hle := hp.pos_le
  have hpos := hp.pos_eq
  have hsave := hp.count_eq
  have hmax := h.maxLength_eq hle diffLength
  unfold RwCache.fillBuffer
  rw [← hmax]
  generalize s.info.maxLength pos diffLength = n at hmax ⊢
  by_cases hzero : n = 0
  · have hend : s.stream.length ≤ pos := by omega
    rw [if_pos hzero]
    by_cases hcount : count = 0
    · have hrefill := h.obtains_refill_iff hp [] hle (Nat.zero_le _) hcount.le s.info.filePos
      subst hcount
      rw [take_zero, append_nil] at hrefill
      rw [if_neg (not_not.2 rfl), if_pos (Nat.zero_le _)]
      refine hrefill.trans ⟨fun hall => ⟨hall.1, .inl hend⟩, fun hall => ⟨hall.1, nil_prefix⟩⟩
    rw [if_pos hcount, if_neg (by omega)]
    refine (obtains_failed_iff (h.moved _ _ _) rfl).trans ?_
    rw [Nat.sub_eq_zero_of_le hend, Nat.zero_min, zero_add]
    exact ⟨And.right, fun herror => ⟨by omega, herror⟩⟩
  have hread := @Reads.myRead s h (hp.window_le.trans_lt (by omega)) n (by omega)
  have hlen := length_slice s.info.contents s.info.filePos n
  rw [if_neg hzero, hread]
  dsimp only
  generalize slice s.info.contents s.info.filePos n = filled at hlen ⊢
  by_cases hshort : filled.length < count
  · rw [if_pos hshort]
    have hreads : Reads ⟨{ s.info with
        filePos := s.info.filePos + filled.length, posInFile := pos, buffer := [], readPos := 0
        error := int32 (filled.length + got.length : Nat) }, s.stream⟩ :=
      ⟨h.type_eq, h.endOfFile_eq, le_rfl, hle, rfl, h.file_agree.mono hp.window_le le_rfl, Nat.zero_le _, h.blocks_le⟩
    refine (obtains_failed_iff hreads rfl).trans ?_
    split_ifs with hall
    · have hnot : ¬ s.stream.length - start < saveCount := by omega
      refine ⟨fun hfail => absurd hfail.1 hnot, fun ⟨_, hgood⟩ => ?_⟩
      obtain hend | ⟨henough, -⟩ := hgood <;> omega
    rw [show min (s.stream.length - pos) (s.info.contents.length - s.info.filePos) = filled.length by omega]
    exact ⟨And.right, fun herror => ⟨by omega, herror⟩⟩
  rw [if_neg hshort, if_pos (by omega)]
  refine (h.obtains_refill_iff hp filled (by omega) (by omega) (Nat.le_of_not_lt hshort) _).trans ?_
  exact ⟨fun hall => ⟨hall.1, .inr ⟨by omega, hall.2⟩⟩, fun hall => ⟨hall.1, (hall.2.resolve_left (by omega)).2⟩⟩

/-- The bytes of two reads, one after the other, are those of the stream exactly when those of each are. -/
theorem append_slice_prefix_iff {f g : List UInt8} {i p d m : Nat} (hd : d ≤ f.length - i) :
    slice f i (d + m) <+: g.drop p ↔ slice f i d = slice g p d ∧ slice f (i + d) m <+: g.drop (p + d) := by
  have hlen : (slice f i d).length = d := by
    rw [length_slice]
    exact min_eq_left hd
  rw [← slice_append_slice, ← drop_drop]
  constructor
  · intro hprefix
    have hfirst := prefix_iff_eq_take.1 ((prefix_append _ _).trans hprefix)
    rw [hlen] at hfirst
    refine ⟨hfirst, ?_⟩
    rw [← take_append_drop d (g.drop p), show (g.drop p).take d = slice f i d from hfirst.symm] at hprefix
    exact (prefix_append_right_inj _).1 hprefix
  rintro ⟨hfirst, hrest⟩
  rw [hfirst, ← take_append_drop d (g.drop p)]
  exact (prefix_append_right_inj _).2 hrest

/-- Blocks behind the end of the stream are never right: the read succeeds or leaves the position behind the end. -/
theorem Reads.not_obtains_behind (h : s.Reads) (hmaxRead : s.info.bufferLength ≤ RwCache.maxRead) (hpos : s.stream.length < pos)
    (hlt : s.info.posInFile + s.info.buffer.length < s.stream.length) (hshort : s.stream.length - start < saveCount) :
    ¬ Obtains s.stream start saveCount (s.info.fillBuffer got count pos 0) := by
  have hmax : s.info.maxLength pos 0 = s.info.bufferLength := by
    unfold RwCache.maxLength
    rw [h.endOfFile_eq]
    exact if_neg (Nat.not_le.2 hpos)
  have hblocks := h.blocks_le
  have hio : 0 < ioSize := by decide
  unfold RwCache.fillBuffer
  rw [hmax, if_neg (by omega), h.myRead hlt hmaxRead]
  dsimp only
  split
  · intro hobtains
    have hwindow : pos + 0 ≤ s.stream.length := hobtains.reads.window_le
    omega
  intro hobtains
  exact absurd (hobtains.short (Nat.not_le.2 hshort)).1 Bool.false_ne_true

theorem Reads.readBlocks_iff (h : s.Reads) (hp : Progress s start saveCount got count pos)
    (hcount : count ≤ RwCache.maxRead) (hmaxRead : s.info.bufferLength ≤ RwCache.maxRead)
    (hbig : ioSize + (ioSize - pos % ioSize) ≤ count) {d : Nat} (hd : d = count / ioSize * ioSize - pos % ioSize) :
    Obtains s.stream start saveCount (s.info.readBlocks got count pos (pos % ioSize)) ↔
      if count ≤ s.stream.length - pos then
        got = slice s.stream start got.length ∧ count ≤ s.info.contents.length - s.info.filePos ∧
          slice s.info.contents s.info.filePos (d + min s.info.bufferLength (s.stream.length - pos - d)) <+: s.stream.drop pos
      else if s.stream.length ≤ pos then int32 got.length = (s.stream.length - start : Nat)
      else if d ≤ s.stream.length - pos then
        int32 (min (s.stream.length - pos) (s.info.contents.length - s.info.filePos) + got.length : Nat)
          = (s.stream.length - start : Nat)
      else s.info.contents.length - s.info.filePos < d ∧
        int32 (s.info.contents.length - s.info.filePos + got.length : Nat) = (s.stream.length - start : Nat) := by
  have hdiff := Nat.mod_lt pos (show 0 < ioSize by decide)
  have hmod := Nat.mod_lt count (show 0 < ioSize by decide)
  have hdiv := Nat.div_add_mod' count ioSize
  have hone : ioSize ≤ count / ioSize * ioSize :=
    Nat.le_mul_of_pos_left ioSize (Nat.div_pos (by omega) (show 0 < ioSize by decide))
  have hblocks := h.blocks_le
  have hle := hp.pos_le
  have hpos := hp.pos_eq
  have hsave := hp.count_eq
  have hatEnd : s.info.atEnd pos = decide (s.stream.length ≤ pos) := by rw [RwCache.atEnd, h.endOfFile_eq]
  unfold RwCache.readBlocks
  rw [hatEnd, ← hd]
  by_cases hlast : s.stream.length ≤ pos
  · rw [decide_eq_true hlast, if_pos rfl, if_neg (by omega), if_pos hlast]
    refine (obtains_failed_iff (h.moved _ _ _) rfl).trans ?_
    exact ⟨And.right, fun herror => ⟨by omega, herror⟩⟩
  have hlt := Nat.lt_of_not_le hlast
  have hread := @Reads.myRead s h (hp.window_le.trans_lt hlt) d (by omega)
  have hlen := length_slice s.info.contents s.info.filePos d
  rw [decide_eq_false hlast, if_neg Bool.false_ne_true, if_neg hlast]
  dsimp only
  rw [hread]
  dsimp only
  by_cases hshort : s.info.contents.length - s.info.filePos < d
  · have hgot : (slice s.info.contents s.info.filePos d).length = s.info.contents.length - s.info.filePos := by omega
    rw [if_pos (by omega), hgot]
    refine (obtains_failed_iff (h.moved _ _ _) rfl).trans ?_
    by_cases hall : count ≤ s.stream.length - pos
    · have hnot : ¬ s.stream.length - start < saveCount := by omega
      rw [if_pos hall]
      exact ⟨fun hfail => absurd hfail.1 hnot, fun ⟨_, henough, _⟩ => by omega⟩
    have hyes : s.stream.length - start < saveCount := by omega
    rw [if_neg hall]
    by_cases hin : d ≤ s.stream.length - pos
    · rw [if_pos hin, min_eq_right (by omega)]
      exact ⟨And.right, fun herror => ⟨hyes, herror⟩⟩
    rw [if_neg hin]
    exact ⟨fun hfail => ⟨hshort, hfail.2⟩, fun hfail => ⟨hyes, hfail.2⟩⟩
  have hgot : (slice s.info.contents s.info.filePos d).length = d := by omega
  rw [if_neg (not_not.2 hgot), hgot]
  have hmoved := h.moved (s.info.filePos + d) s.info.seekNotDone s.info.error
  by_cases hin : d ≤ s.stream.length - pos
  · have hboth : (got ++ slice s.info.contents s.info.filePos d).length = got.length + d := by
      rw [length_append, hgot]
    have hp' : Progress ⟨{ s.info with filePos := s.info.filePos + d }, s.stream⟩ start saveCount
        (got ++ slice s.info.contents s.info.filePos d) (count - d) (pos + d) := by
      refine ⟨?_, ?_, ?_, hp.window_le.trans (Nat.le_add_right _ _)⟩
      · rw [hboth]
        omega
      · rw [hboth]
        omega
      show pos + d ≤ s.stream.length
      omega
    refine (hmoved.fillBuffer_iff hp' hmaxRead (show 0 < s.info.bufferLength by omega)
      (show count - d ≤ s.info.bufferLength - 0 by omega)).trans ?_
    show (if count - d ≤ s.stream.length - (pos + d) then
        got ++ slice s.info.contents s.info.filePos d
            = slice s.stream start (got ++ slice s.info.contents s.info.filePos d).length ∧
          (s.stream.length ≤ pos + d ∨ (count - d ≤ s.info.contents.length - (s.info.filePos + d) ∧
            slice s.info.contents (s.info.filePos + d) (min s.info.bufferLength (s.stream.length - (pos + d)))
              <+: s.stream.drop (pos + d)))
      else int32 (min (s.stream.length - (pos + d)) (s.info.contents.length - (s.info.filePos + d))
        + (got ++ slice s.info.contents s.info.filePos d).length : Nat) = (s.stream.length - start : Nat)) ↔ _
    rw [hboth, ← slice_append_slice, ← hpos]
    by_cases hall : count ≤ s.stream.length - pos
    · rw [if_pos hall, if_pos (by omega), append_slice_prefix_iff (by omega), Nat.sub_sub]
      constructor
      · rintro ⟨hbytes, hrest⟩
        obtain ⟨hfirst, hsecond⟩ := append_inj hbytes (by rw [length_slice]; omega)
        refine ⟨hfirst, ?_, hsecond, ?_⟩
        · omega
        obtain hend | ⟨-, hprefix⟩ := hrest
        · rw [Nat.sub_eq_zero_of_le hend, Nat.min_zero]
          exact nil_prefix
        exact hprefix
      rintro ⟨hfirst, henough, hsecond, hprefix⟩
      refine ⟨?_, .inr ⟨by omega, hprefix⟩⟩
      rw [← hfirst, hsecond]
    rw [if_neg hall, if_neg (by omega), if_pos hin,
      show min (s.stream.length - (pos + d)) (s.info.contents.length - (s.info.filePos + d)) + (got.length + d)
        = min (s.stream.length - pos) (s.info.contents.length - s.info.filePos) + got.length by omega]
  rw [if_neg (by omega), if_neg hin]
  refine ⟨fun hobtains => absurd hobtains (hmoved.not_obtains_behind hmaxRead ?_ (hp.window_le.trans_lt hlt) ?_),
    fun hfail => absurd hfail.1 hshort⟩
  · show s.stream.length < pos + d
    omega
  · show s.stream.length - start < saveCount
    omega

/-- The file has the rest of the stream, so that it is as a read needs it if it stands at the right place. -/
theorem Reads.safeFile (h : s.Reads) (hbehind : s.info.buffer.length - s.info.readPos < count)
    (hfile : s.info.posInFile + s.info.buffer.length < s.stream.length →
      s.info.offset (s.info.posInFile + s.info.buffer.length) = s.info.posInFile + s.info.buffer.length ∧
      (s.available < count → s.info.contents.length ≤ s.stream.length))
    (hsmall : s.available < count → s.available < 2 ^ 31) :
    s.SafeFile (s.info.buffer.length - s.info.readPos) (count - (s.info.buffer.length - s.info.readPos))
      (s.info.posInFile + s.info.buffer.length) := by
  have htell := tell_of_read h.type_eq
  have hpos := h.readPos_le
  have hwindow := h.window_le
  have havailable : s.available = s.stream.length - s.info.tell := rfl
  have hint (n : Nat) (hn : n < 2 ^ 31) : int32 n = n := int32_of_range (by omega) (by omega)
  have hlen (hlt : s.info.posInFile + s.info.buffer.length < s.stream.length) : s.stream.length ≤ s.info.contents.length :=
    h.file_agree.le_length hlt le_rfl
  have hdirect : direct (count - (s.info.buffer.length - s.info.readPos)) (s.info.posInFile + s.info.buffer.length) ≤
      count - (s.info.buffer.length - s.info.readPos) := by
    unfold direct
    have hdiv := Nat.div_mul_le_self (count - (s.info.buffer.length - s.info.readPos)) ioSize
    split <;> omega
  unfold SafeFile
  generalize direct (count - (s.info.buffer.length - s.info.readPos)) (s.info.posInFile + s.info.buffer.length) = blocks at *
  dsimp only
  split
  · have hle := hlen (by omega)
    rw [(hfile (by omega)).1]
    refine ⟨by omega, ?_⟩
    rw [(h.file_agree.mono le_rfl (by omega)).slice_eq]
    exact take_prefix _ _
  have hreport := hsmall (by omega)
  split
  · rw [hint _ (by omega)]
    omega
  have hle := hlen (by omega)
  obtain ⟨hoffset, hlonger⟩ := hfile (by omega)
  have hsame := hlonger (by omega)
  rw [hoffset]
  split
  · rw [hint _ (by omega)]
    omega
  · refine ⟨by omega, ?_⟩
    rw [hint _ (by omega)]
    omega

theorem Reads.myBRead (h : s.Reads) {count : Nat} (hsafe : s.SafeRead count) :
    Obtains s.stream s.info.tell count (s.info.myBRead count) := by
  have htell := tell_of_read h.type_eq
  have hpos := h.readPos_le
  have hwindow := h.window_le
  have hblocks := h.blocks_le
  -- what is left of the window
  have hleft : s.info.buffer.drop s.info.readPos = slice s.stream s.info.tell (s.info.buffer.length - s.info.readPos) := by
    rw [h.buffer_eq, drop_slice, ← h.buffer_eq, htell]
  unfold RwCache.myBRead
  by_cases hfit : s.info.readPos + count ≤ s.info.buffer.length
  · rw [if_pos hfit]
    refine ⟨⟨h.type_eq, h.endOfFile_eq, hfit, h.window_le, h.buffer_eq, h.file_agree, h.buffer_le, h.blocks_le⟩,
      fun _ => ⟨rfl, ?_, ?_⟩, ?_⟩
    · rw [slice, hleft, take_slice, min_eq_left (by omega)]
    · simp only [RwCache.tell, h.type_eq]
      exact (add_assoc _ _ _).symm
    intro hshort
    omega
  have hlen : (s.info.buffer.drop s.info.readPos).length = s.info.buffer.length - s.info.readPos := length_drop
  obtain ⟨hcount, hmaxRead, hopen, hstands, hsmall⟩ := hsafe.resolve_left (by omega)
  have hfile := h.safeFile (by omega) hstands hsmall
  have hseek : (s.info.seekNotDone && s.info.file.isNone) = false := by
    cases hnot : s.info.seekNotDone with
    | false => rfl
    | true => rw [Bool.true_and, ← Option.not_isSome, hopen hnot]; rfl
  rw [if_neg hfit, RwCache.myBReadSlow, hseek, if_neg Bool.false_ne_true]
  rw [hlen]
  generalize hrest : count - (s.info.buffer.length - s.info.readPos) = rest at hfile ⊢
  have hmoved := h.moved (s.info.offset (s.info.posInFile + s.info.buffer.length)) false s.info.error
  have hp : Progress ⟨{ s.info with
      filePos := s.info.offset (s.info.posInFile + s.info.buffer.length), seekNotDone := false }, s.stream⟩
      s.info.tell count (s.info.buffer.drop s.info.readPos) rest (s.info.posInFile + s.info.buffer.length) :=
    ⟨by omega, by omega, hwindow, le_rfl⟩
  have hgot : s.info.buffer.drop s.info.readPos = slice s.stream s.info.tell (s.info.buffer.drop s.info.readPos).length := by
    rw [hlen]
    exact hleft
  have hdiff := Nat.mod_lt (s.info.posInFile + s.info.buffer.length) (show 0 < ioSize by decide)
  unfold RwCache.readFile
  unfold SafeFile direct at hfile
  by_cases hbig : ioSize + (ioSize - (s.info.posInFile + s.info.buffer.length) % ioSize) ≤ rest
  · have hblocks : rest / ioSize * ioSize - (s.info.posInFile + s.info.buffer.length) % ioSize ≠ 0 := by
      have hone : ioSize ≤ rest / ioSize * ioSize :=
        Nat.le_mul_of_pos_left ioSize (Nat.div_pos (by omega) (by decide))
      omega
    simp only [if_pos hbig, if_neg hblocks] at hfile ⊢
    refine (hmoved.readBlocks_iff hp (by omega) hmaxRead hbig rfl).2 ?_
    rw [← hgot, hlen]
    by_cases hall : rest ≤ s.stream.length - (s.info.posInFile + s.info.buffer.length)
    · rw [if_pos hall] at hfile ⊢
      exact ⟨rfl, hfile⟩
    rw [if_neg hall] at hfile ⊢
    simp only [Nat.sub_eq_zero_iff_le] at hfile
    exact hfile
  simp only [if_neg hbig] at hfile ⊢
  refine (hmoved.fillBuffer_iff hp hmaxRead ?_ ?_).2 ?_
  · show _ < s.info.bufferLength
    omega
  · show rest ≤ s.info.bufferLength - _
    omega
  rw [← hgot, hlen]
  by_cases hall : rest ≤ s.stream.length - (s.info.posInFile + s.info.buffer.length)
  · rw [if_pos hall, if_pos trivial, Nat.zero_add] at hfile
    rw [if_pos hall]
    exact ⟨rfl, .inr hfile⟩
  rw [if_neg hall] at hfile ⊢
  by_cases hend : s.stream.length - (s.info.posInFile + s.info.buffer.length) = 0
  · rw [if_pos hend] at hfile
    rw [hend, Nat.zero_min, zero_add]
    exact hfile
  · rw [if_neg hend, if_pos (Nat.zero_le _)] at hfile
    exact hfile

end Streamed

end Mysql51.IoCache
