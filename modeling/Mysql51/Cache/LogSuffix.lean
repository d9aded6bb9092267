import Mysql51.Cache.LogFiles
import Mysql51.Lib.Run

/-!
# What is left of a log after rotation

A sequence of writes is followed together with the bytes of the files that `ShiftFiles` has removed. What can be read at
the end is what was written without the records of the removed files, which are the oldest ones.
-/

namespace Mysql51.Cache

open Machine Function List

def LogItem.Accepted (x : LogItem) : Prop := 0 < x.buff.length ∧ x.buff.length ≤ maxBinlogItemLen
deriving Decidable

/-- The item the write builds stays within `szTmpBuff`. -/
def LogItem.InBuffer (x : LogItem) : Prop := x.Accepted → x.buff.length + 8 ≤ maxBinlogItemLen
deriving Decidable

def LogItem.accepted (xs : List LogItem) : List LogItem := xs.filter fun x => x.Accepted

structure RotatedLog where
  log : CBinLog
  dropped : List UInt8

namespace RotatedLog

def init (maxlogSize maxlogNum : Int) : RotatedLog := ⟨CBinLog.init maxlogSize maxlogNum, []⟩

/-- The content of the file that the write makes `ShiftFiles` remove. -/
def removedFile (log : CBinLog) (x : LogItem) : List UInt8 :=
  if x.Accepted ∧ log.dropsFile x.buff x.now then ((log.append x.buff x.now).files log.lastFile).getD [] else []

def write (s : RotatedLog) (x : LogItem) : Option RotatedLog :=
  (s.log.writeToBinLog x.buff x.now).map fun (_, log) => ⟨log, s.dropped ++ removedFile s.log x⟩

end RotatedLog

/-- Calls of `ReadRecordFromBinLog` until one reports the end; a return value of zero is to be ignored. -/
def CBinLog.readAll (maxsize : Nat) : Nat → CBinLog → Option (List (List UInt8))
  | 0, _ => none
  | fuel + 1, log =>
    match log.readRecordFromBinLog maxsize with
    | none => none
    | some (ret, buff, log) =>
      if ret = -1 then some []
      else if ret < 0 then none
      else if ret = 0 then readAll maxsize fuel log
      else (readAll maxsize fuel log).map (buff :: ·)

variable {f : Nat → Option (List LogItem)} {name : LogName} {log : CBinLog} {x : LogItem}

namespace CBinLog

/-! ### Reading everything -/

theorem readAll_spec {maxsize : Nat} {xs : List LogItem} :
    ∀ {log : CBinLog} {cur : List LogItem} {fuel : Nat}, log.Ahead f cur → cur ++ items f log.readidx = xs →
    (∀ x ∈ xs, x.buff.length ≤ maxsize) → xs.length < fuel → log.readAll maxsize fuel = some (xs.map LogItem.buff) := by
  induction xs with
  | nil =>
    intro log cur fuel h hitems _ hfuel
    obtain ⟨fuel, rfl⟩ := Nat.exists_eq_add_of_le' hfuel
    obtain ⟨log', hread⟩ := readRecord_nil h hitems maxsize
    simp [readAll, hread]
  | cons x xs ih =>
    intro log cur fuel h hitems hroom hfuel
    obtain ⟨fuel, rfl⟩ := Nat.exists_eq_add_of_le' ((Nat.le_add_left 1 _).trans hfuel)
    obtain ⟨log', cur', hread, hahead, hrest⟩ := readRecord_cons h hitems hroom
    have hlen : xs.length < fuel := by
      rw [length_cons] at hfuel
      omega
    have hnext := ih hahead hrest (fun y hy => hroom y (mem_cons_of_mem x hy)) hlen
    simp [readAll, hread, hnext]

/-! ### Writing -/

theorem shiftLoop_of_ne {n : Nat} (hname : ∀ i, name ≠ logName i) :
    ∀ files : LogName → Option (List UInt8), shiftLoop n files name = files name := by
  induction n with
  | zero => exact fun _ => rfl
  | succ n ih =>
    intro files
    cases hn : files (logName n) with
    | none => rw [shiftLoop_of_none hn, ih]
    | some bytes =>
      rw [shiftLoop_of_some hn, ih, update_of_ne (hname (n + 1)), update_of_ne (hname n)]

theorem numbered_ne_logName {j : Int} (hj : j ≤ 0) (i : Nat) : LogName.numbered j ≠ logName i := by
  intro hname
  unfold logName at hname
  split at hname
  · cases hname
  have := LogName.numbered.inj hname
  omega

theorem append_files_of_ne (hname : name ≠ .base) (buff : List UInt8) (now : Int) :
    (log.append buff now).files name = log.files name := update_of_ne hname _ _

theorem files_numbered_of_write {log' : CBinLog} {ret : Int} {j : Int} (hj : j ≤ 0)
    (hnone : log.files (.numbered j) = none) (hwrite : log.writeToBinLog x.buff x.now = some (ret, log')) :
    log'.files (.numbered j) = none := by
  have happend : (log.append x.buff x.now).files (.numbered j) = none := by
    rw [append_files_of_ne (by simp), hnone]
  unfold writeToBinLog shiftFiles at hwrite
  split_ifs at hwrite with hrefused
  · cases hwrite
    exact hnone
  split at hwrite
  · cases hwrite
    exact happend
  split_ifs at hwrite
  · cases hwrite
    dsimp only
    rw [shiftLoop_of_ne (numbered_ne_logName hj), update_apply, happend, ite_self]
  cases hwrite
  exact happend

end CBinLog

namespace RotatedLog

/-- The files hold what was written without the records of the removed files, which come first. -/
def Keeps (maxlogNum : Int) (written : List LogItem) (s : RotatedLog) : Prop :=
  ∃ f gone, s.log.Holds f ∧ s.log.maxlogNum = maxlogNum ∧ (∀ j ≤ 0, s.log.files (.numbered j) = none) ∧
    s.dropped = LogItem.bytes gone ∧
    if 1 ≤ maxlogNum then written = gone ++ CBinLog.items f maxlogNum.toNat else gone = []

theorem keeps_init (maxlogSize maxlogNum : Int) : Keeps maxlogNum [] (init maxlogSize maxlogNum) := by
  refine ⟨fun _ => none, [], ⟨fun _ => rfl, nofun⟩, rfl, fun _ _ => rfl, rfl, ?_⟩
  have hitems : CBinLog.items (fun _ => none) maxlogNum.toNat = [] := by simp [CBinLog.items]
  simp [hitems]

theorem removedFile_eq (h : log.Holds f) (hx : x.Fits) (hstray : ∀ j ≤ 0, log.files (.numbered j) = none) : removedFile log x =
      LogItem.bytes ((log.append x.buff x.now).removedItems (update f 0 (some ((f 0).getD [] ++ [x])))) := by
  have haccepted : x.Accepted := ⟨hx.1, by have := hx.2; omega⟩
  have hnum : (log.append x.buff x.now).maxlogNum = log.maxlogNum := rfl
  have hfull : (log.append x.buff x.now).full = log.full := rfl
  simp only [removedFile, CBinLog.removedItems, CBinLog.dropsFile, haccepted, true_and, hnum, hfull, Bool.and_eq_true]
  by_cases hone : 2 ≤ log.maxlogNum
  · have hfile := (CBinLog.append_holds h hx).files (log.maxlogNum - 1).toNat
    rw [← CBinLog.lastFile_eq hone] at hfile
    rw [hfile]
    cases update f 0 (some ((f 0).getD [] ++ [x])) (log.maxlogNum - 1).toNat with
    | none => simp
    | some xs => by_cases hany : ((log.append x.buff x.now).files .base).any (fun bytes => log.full bytes) <;> simp [hany, hone]
  have hnone : (log.append x.buff x.now).files log.lastFile = none := by
    rw [CBinLog.append_files_of_ne (by simp [CBinLog.lastFile])]
    exact hstray _ (by omega)
  simp [hone, hnone]

variable {maxlogNum : Int} {xs : List LogItem}

theorem keeps_write {written : List LogItem} {s : RotatedLog} (h : Keeps maxlogNum written s) (hx : x.InBuffer) :
    ∃ s', s.write x = some s' ∧ Keeps maxlogNum (written ++ LogItem.accepted [x]) s' := by
  obtain ⟨f, gone, hholds, hnum, hstray, hdropped, hitems⟩ := h
  by_cases haccepted : x.Accepted
  · have hfits : x.Fits := ⟨haccepted.1, hx haccepted⟩
    obtain ⟨ret, log', f', hwrite, hholds', hnum', hitems'⟩ := CBinLog.writeToBinLog_spec hholds hfits
    have hbytes := removedFile_eq hholds hfits hstray
    generalize (s.log.append x.buff x.now).removedItems (update f 0 (some ((f 0).getD [] ++ [x]))) = gone' at *
    refine ⟨⟨log', s.dropped ++ removedFile s.log x⟩, by rw [write, hwrite, Option.map_some], f', gone ++ gone', hholds',
      hnum'.trans hnum, ?_, ?_, ?_⟩
    · exact fun j hj => CBinLog.files_numbered_of_write hj (hstray j hj) hwrite
    · rw [hdropped, hbytes]
      exact (flatMap_append ..).symm
    rw [hnum] at hitems'
    split_ifs at hitems hitems' ⊢
    · rw [hitems, append_assoc, append_assoc, hitems', LogItem.accepted, filter_cons_of_pos (by simpa)]
      rfl
    rw [hitems, (append_eq_nil_iff.1 hitems').1]
    rfl
  have hwrite : s.log.writeToBinLog x.buff x.now = some (-1, s.log) := by
    refine if_pos ?_
    unfold LogItem.Accepted at haccepted
    omega
  refine ⟨⟨s.log, s.dropped ++ removedFile s.log x⟩, by rw [write, hwrite, Option.map_some], f, gone, hholds, hnum, hstray, ?_, ?_⟩
  · simp [removedFile, haccepted, hdropped]
  · simpa [LogItem.accepted, haccepted] using hitems

theorem keeps_run (hxs : ∀ x ∈ xs, x.InBuffer) : ∀ {written : List LogItem} {s : RotatedLog}, Keeps maxlogNum written s →
    ∃ s', Run.run write s xs = some s' ∧ Keeps maxlogNum (written ++ LogItem.accepted xs) s' := by
  induction xs with
  | nil =>
    intro written s h
    exact ⟨s, rfl, by simpa [LogItem.accepted] using h⟩
  | cons x xs ih =>
    intro written s h
    obtain ⟨s₁, hwrite, h₁⟩ := keeps_write h (hxs x mem_cons_self)
    obtain ⟨s₂, hrun, h₂⟩ := ih (fun y hy => hxs y (mem_cons_of_mem x hy)) h₁
    refine ⟨s₂, by rw [Run.run_cons, hwrite]; exact hrun, ?_⟩
    rw [append_assoc] at h₂
    rwa [show LogItem.accepted (x :: xs) = LogItem.accepted [x] ++ LogItem.accepted xs from filter_append [x] xs]

theorem run_eq_none (hxs : ∃ x ∈ xs, ¬ x.InBuffer) : ∀ s : RotatedLog, Run.run write s xs = none := by
  induction xs with
  | nil => simp at hxs
  | cons x xs ih =>
    intro s
    rw [Run.run_cons]
    by_cases hx : x.InBuffer
    · have hrest : ∃ y ∈ xs, ¬ y.InBuffer := by
        obtain ⟨y, hy, hbad⟩ := hxs
        rcases mem_cons.1 hy with rfl | hy
        · exact absurd hx hbad
        · exact ⟨y, hy, hbad⟩
      cases s.write x with
      | none => rfl
      | some s' => exact ih hrest s'
    have hover : x.Accepted ∧ maxBinlogItemLen < x.buff.length + 8 := by
      unfold LogItem.InBuffer at hx
      push Not at hx
      exact hx
    have hwrite : s.log.writeToBinLog x.buff x.now = none := by
      have hlen := hover.1
      unfold LogItem.Accepted at hlen
      rw [CBinLog.writeToBinLog, if_neg (by omega), if_pos hover.2]
    rw [write, hwrite]
    rfl

/-- What is read after the writes is what they wrote without the records of the removed files, which are the first ones. -/
def ReadsSuffix (maxlogSize maxlogNum : Int) (xs : List LogItem) : Prop :=
  ∃ s, Run.run write (init maxlogSize maxlogNum) xs = some s ∧
    ∃ k, s.dropped = LogItem.bytes ((LogItem.accepted xs).take k) ∧
      ∀ maxsize, (∀ x ∈ LogItem.accepted xs, x.buff.length ≤ maxsize) →
        s.log.setReadRecordStartTime.readAll maxsize (xs.length + 1) =
          some (((LogItem.accepted xs).drop k).map LogItem.buff)

/-- After the writes, what was written is what is gone and what can be read; without a file to read nothing is either. -/
theorem exists_kept (hxs : ∀ x ∈ xs, x.InBuffer) (maxlogSize maxlogNum : Int) :
    ∃ s gone kept, Run.run write (init maxlogSize maxlogNum) xs = some s ∧ s.dropped = LogItem.bytes gone ∧
      (if 1 ≤ maxlogNum then LogItem.accepted xs = gone ++ kept else gone = [] ∧ kept = []) ∧
      ∀ maxsize, (∀ x ∈ kept, x.buff.length ≤ maxsize) → ∀ fuel, kept.length < fuel →
        s.log.setReadRecordStartTime.readAll maxsize fuel = some (kept.map LogItem.buff) := by
  obtain ⟨s, hrun, f, gone, hholds, hnum, -, hgone, hitems⟩ := keeps_run hxs (keeps_init maxlogSize maxlogNum)
  refine ⟨s, gone, CBinLog.items f maxlogNum.toNat, hrun, hgone, ?_, ?_⟩
  · split_ifs at hitems ⊢ with hfiles
    · exact hitems
    rw [show maxlogNum.toNat = 0 by omega]
    exact ⟨hitems, rfl⟩
  intro maxsize hroom fuel hfuel
  refine CBinLog.readAll_spec hholds.ahead_start ?_ hroom hfuel
  rw [← hnum]
  rfl

theorem bytes_eq_nil (hxs : LogItem.bytes xs = []) : xs = [] := by
  cases xs with
  | nil => rfl
  | cons x xs =>
    have hlen := congrArg List.length hxs
    simp [LogItem.bytes_cons, CBinLog.item] at hlen

theorem ReadsSuffix.inBuffer {maxlogSize : Int} (h : ReadsSuffix maxlogSize maxlogNum xs) :
    (∀ x ∈ xs, x.InBuffer) ∧ (1 ≤ maxlogNum ∨ LogItem.accepted xs = []) := by
  obtain ⟨s, hrun, k, hdropped, hread⟩ := h
  have hbuffer : ∀ x ∈ xs, x.InBuffer := by
    by_contra hbad
    push Not at hbad
    rw [run_eq_none hbad] at hrun
    cases hrun
  refine ⟨hbuffer, ?_⟩
  obtain ⟨s', gone, kept, hrun', hgone, hsplit, hread'⟩ := exists_kept hbuffer maxlogSize maxlogNum
  obtain rfl : s = s' := Option.some.inj (hrun.symm.trans hrun')
  by_cases hfiles : 1 ≤ maxlogNum
  · exact .inl hfiles
  right
  rw [if_neg hfiles] at hsplit
  obtain ⟨rfl, rfl⟩ := hsplit
  have hroom : ∀ x ∈ LogItem.accepted xs, x.buff.length ≤ maxBinlogItemLen := by
    intro x hx
    exact (of_decide_eq_true (mem_filter.1 hx).2).2
  have htake := bytes_eq_nil (hdropped.symm.trans hgone)
  have hdrop := (hread _ hroom).symm.trans (hread' maxBinlogItemLen (by simp) _ (Nat.succ_pos _))
  rw [Option.some.injEq, map_nil, map_eq_nil_iff] at hdrop
  rw [← take_append_drop k (LogItem.accepted xs), htake, hdrop, append_nil]

/-- The log gives back the records it still has exactly when every accepted record leaves room for its head in the buffer
and there is a file to read, unless nothing was written. -/
theorem readsSuffix_iff (maxlogSize maxlogNum : Int) (xs : List LogItem) : ReadsSuffix maxlogSize maxlogNum xs ↔
      (∀ x ∈ xs, x.InBuffer) ∧ (1 ≤ maxlogNum ∨ LogItem.accepted xs = []) := by
  constructor
  · exact ReadsSuffix.inBuffer
  rintro ⟨hbuffer, hfiles⟩
  obtain ⟨s, gone, kept, hrun, hgone, hsplit, hread⟩ := exists_kept hbuffer maxlogSize maxlogNum
  have hwritten : LogItem.accepted xs = gone ++ kept := by
    split_ifs at hsplit with hnum
    · exact hsplit
    · rw [hsplit.1, hsplit.2]
      exact hfiles.resolve_left hnum
  have hlen : kept.length ≤ xs.length := by
    have hle := length_filter_le (fun x => decide x.Accepted) xs
    rw [show xs.filter _ = gone ++ kept from hwritten, length_append] at hle
    omega
  refine ⟨s, hrun, gone.length, ?_, ?_⟩
  · rw [hwritten, take_left, hgone]
  intro maxsize hroom
  rw [hwritten, drop_left]
  rw [hwritten] at hroom
  exact hread maxsize (fun x hx => hroom x (mem_append_right gone hx)) _ (by omega)

/-- Four records of which rotation drops some. -/
theorem readsSuffix_rotated : ReadsSuffix 10 2 [⟨[1], 0⟩, ⟨[2, 2], 1⟩, ⟨[], 2⟩, ⟨[3], 2⟩, ⟨[4], 3⟩] :=
  (readsSuffix_iff 10 2 _).2 ⟨by decide, by decide⟩

/-- A record as long as the buffer, which the test of its length lets pass, and a log without a file to read. -/
theorem not_readsSuffix :
    ¬ ReadsSuffix 20000000 8 [⟨List.replicate maxBinlogItemLen 0, 0⟩] ∧ ¬ ReadsSuffix 20000000 0 [⟨[1], 0⟩] := by
  constructor
  · intro h
    have hlen : (List.replicate maxBinlogItemLen (0 : UInt8)).length = maxBinlogItemLen := length_replicate
    have hfits := h.inBuffer.1 _ (mem_singleton_self _)
    unfold LogItem.InBuffer LogItem.Accepted at hfits
    rw [hlen] at hfits
    have hpos : 0 < maxBinlogItemLen := by
      unfold maxBinlogItemLen
      omega
    have := hfits ⟨hpos, le_rfl⟩
    omega
  · intro h
    exact absurd h.inBuffer.2 (by decide)

end RotatedLog

end Mysql51.Cache
