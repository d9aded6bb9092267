import Mysql51.Cache.BinLog

/-!
# What the log reads back

The files of a log hold whole items. As long as rotation drops no file, a write adds its item at the end of what the
files hold from the oldest to the newest, and reading gives the records back in the order in which they were written.
-/

namespace Mysql51.Cache

open Machine Function List Option

structure LogItem where
  buff : List UInt8
  now : Int

namespace LogItem

def Fits (x : LogItem) : Prop := 0 < x.buff.length ∧ x.buff.length + 8 ≤ maxBinlogItemLen

def bytes (xs : List LogItem) : List UInt8 := xs.flatMap fun x => CBinLog.item x.buff x.now

@[simp] theorem bytes_nil : bytes [] = [] := rfl

theorem bytes_cons (x : LogItem) (xs : List LogItem) : bytes (x :: xs) = CBinLog.item x.buff x.now ++ bytes xs := rfl

theorem bytes_concat (xs : List LogItem) (x : LogItem) : bytes (xs ++ [x]) = bytes xs ++ CBinLog.item x.buff x.now := by
  simp [bytes]

end LogItem

theorem logName_inj {i j : Nat} (h : logName i = logName j) : i = j := by
  unfold logName at h
  split at h <;> split at h <;> simp_all

namespace CBinLog

structure Holds (log : CBinLog) (f : Nat → Option (List LogItem)) : Prop where
  files : ∀ i, log.files (logName i) = (f i).map LogItem.bytes
  fits : ∀ i xs, f i = some xs → ∀ x ∈ xs, x.Fits

variable (f : Nat → Option (List LogItem))

def items (n : Nat) : List LogItem :=
  (List.range n).reverse.flatMap fun i => (f i).getD []

@[simp] theorem items_zero : items f 0 = [] := rfl

theorem items_succ (n : Nat) : items f (n + 1) = (f n).getD [] ++ items f n := by
  simp [items, range_succ]

theorem items_succ' (n : Nat) : items f (n + 1) = items (fun i => f (i + 1)) n ++ (f 0).getD [] := by
  simp [items, range_succ_eq_map, ← map_reverse, flatMap_map]

variable {f : Nat → Option (List LogItem)} {n : Nat} {log : CBinLog} {x : LogItem} {cur : List LogItem}

theorem items_congr {g : Nat → Option (List LogItem)} (h : ∀ i < n, f i = g i) : items f n = items g n := by
  apply flatMap_congr
  intro i hi
  rw [h i (by simpa using hi)]

theorem Holds.fits_items (h : log.Holds f) : ∀ x ∈ items f n, x.Fits := by
  intro x hx
  obtain ⟨i, -, hi⟩ := mem_flatMap.1 hx
  cases hf : f i with
  | none => simp [hf] at hi
  | some xs =>
    rw [hf] at hi
    exact h.fits i xs hf x hi

/-! ### Writing -/

def dropsFile (log : CBinLog) (buff : List UInt8) (now : Int) : Bool :=
  ((log.append buff now).files .base).any (fun bytes => log.full bytes) &&
    ((log.append buff now).files log.lastFile).isSome

theorem shiftLoop_of_none {files : LogName → Option (List UInt8)} (h : files (logName n) = none) :
    shiftLoop (n + 1) files = shiftLoop n files := by rw [shiftLoop, h]

theorem shiftLoop_of_some {files : LogName → Option (List UInt8)} {bytes : List UInt8} (h : files (logName n) = some bytes) :
    shiftLoop (n + 1) files = shiftLoop n (update (update files (logName n) none) (logName (n + 1)) (some bytes)) := by
  rw [shiftLoop, h]

/-- The renaming loop moves each file to the next number, when the last number is free. -/
theorem shiftLoop_spec (n : Nat) : ∀ files : LogName → Option (List UInt8), files (logName n) = none →
    shiftLoop n files (logName 0) = none ∧ (∀ i < n, shiftLoop n files (logName (i + 1)) = files (logName i)) ∧
      ∀ name, (∀ i ≤ n, name ≠ logName i) → shiftLoop n files name = files name := by
  induction n with
  | zero =>
    intro files hlast
    exact ⟨hlast, by simp, by simp [shiftLoop]⟩
  | succ n ih =>
    intro files hlast
    have hne : logName n ≠ logName (n + 1) := fun h => absurd (logName_inj h) (by omega)
    cases hn : files (logName n) with
    | none =>
      rw [shiftLoop_of_none hn]
      obtain ⟨hbase, hmoved, hother⟩ := ih files hn
      refine ⟨hbase, ?_, ?_⟩
      · intro i hi
        rcases Nat.lt_succ_iff_lt_or_eq.1 hi with hlt | rfl
        · exact hmoved i hlt
        rw [hn, ← hlast]
        apply hother
        intro j hj hname
        have := logName_inj hname
        omega
      intro name hname
      apply hother
      intro i hi
      exact hname i (by omega)
    | some bytes =>
      have hfree : update (update files (logName n) none) (logName (n + 1)) (some bytes) (logName n) =
          none := by
        rw [update_of_ne hne, update_self]
      rw [shiftLoop_of_some hn]
      obtain ⟨hbase, hmoved, hother⟩ := ih _ hfree
      refine ⟨hbase, ?_, ?_⟩
      · intro i hi
        rcases Nat.lt_succ_iff_lt_or_eq.1 hi with hlt | rfl
        · have hi₁ : logName i ≠ logName (n + 1) := fun h => absurd (logName_inj h) (by omega)
          have hi₂ : logName i ≠ logName n := fun h => absurd (logName_inj h) (by omega)
          rw [hmoved i hlt, update_of_ne hi₁, update_of_ne hi₂]
        rw [hother, update_self, hn]
        intro j hj hname
        have := logName_inj hname
        omega
      intro name hname
      rw [hother name fun i hi => hname i (by omega), update_of_ne (hname (n + 1) le_rfl), update_of_ne (hname n (by omega))]

theorem append_holds (h : log.Holds f) (hx : x.Fits) :
    (log.append x.buff x.now).Holds (update f 0 (some ((f 0).getD [] ++ [x]))) := by
  constructor
  · intro i
    by_cases hi : i = 0
    · subst hi
      have hbase : log.files .base = (f 0).map LogItem.bytes := h.files 0
      simp only [append, update_self, map_some, LogItem.bytes_concat]
      rw [show logName 0 = .base from rfl, update_self, hbase]
      cases f 0 <;> rfl
    have hname : logName i ≠ .base := fun hname => hi (logName_inj (j := 0) hname)
    rw [update_of_ne hi, ← h.files i]
    exact update_of_ne hname _ _
  intro i xs hxs y hy
  by_cases hi : i = 0
  · subst hi
    rw [update_self, Option.some.injEq] at hxs
    subst hxs
    rcases mem_append.1 hy with hy | hy
    · cases hf : f 0 with
      | none => simp [hf] at hy
      | some ys =>
        rw [hf] at hy
        exact h.fits 0 ys hf y hy
    rw [mem_singleton.1 hy]
    exact hx
  rw [update_of_ne hi] at hxs
  exact h.fits i xs hxs y hy

theorem items_append (f : Nat → Option (List LogItem)) (x : LogItem) (n : Nat) :
    items (update f 0 (some ((f 0).getD [] ++ [x]))) (n + 1) = items f (n + 1) ++ [x] := by
  rw [items_succ', items_succ', update_self, getD_some, ← append_assoc]
  congr 2

theorem shift_holds (h : log.Holds f) (hlast : log.files (logName n) = none) :
    ∃ f', { log with files := shiftLoop n log.files }.Holds f' ∧ items f' (n + 1) = items f (n + 1) := by
  obtain ⟨hbase, hmoved, hother⟩ := shiftLoop_spec n log.files hlast
  have hnone : f n = none := by
    rw [h.files n] at hlast
    simpa using hlast
  refine ⟨fun i => if i = 0 then none else if i ≤ n then f (i - 1) else f i, ⟨?_, ?_⟩, ?_⟩
  · intro i
    dsimp only
    cases i with
    | zero => exact hbase
    | succ i =>
      rw [if_neg (Nat.succ_ne_zero i)]
      split
      · next hi => rw [hmoved i hi, h.files i, Nat.add_sub_cancel]
      next hi =>
      rw [hother, h.files]
      intro j hj hname
      have := logName_inj hname
      omega
  · intro i xs hxs
    split at hxs
    · cases hxs
    split at hxs
    · exact h.fits (i - 1) xs hxs
    · exact h.fits i xs hxs
  rw [items_succ', if_pos rfl, getD_none, append_nil, items_succ, hnone, getD_none, nil_append]
  apply items_congr
  intro i hi
  rw [if_neg (Nat.succ_ne_zero i), if_pos (show i + 1 ≤ n from hi), Nat.add_sub_cancel]

theorem Holds.remove (h : log.Holds f) (n : Nat) :
    { log with files := update log.files (logName n) none }.Holds (update f n none) := by
  constructor
  · intro i
    by_cases hi : i = n
    · subst hi
      simp
    have hname : logName i ≠ logName n := fun hname => hi (logName_inj hname)
    rw [update_of_ne hi, ← h.files i]
    exact update_of_ne hname _ _
  intro i xs hxs
  by_cases hi : i = n
  · subst hi
    simp at hxs
  rw [update_of_ne hi] at hxs
  exact h.fits i xs hxs

def removedItems (log : CBinLog) (f : Nat → Option (List LogItem)) : List LogItem :=
  if (log.files .base).any (fun bytes => log.full bytes) ∧ 2 ≤ log.maxlogNum then (f (log.maxlogNum - 1).toNat).getD [] else []

theorem lastFile_eq (hnum : 2 ≤ log.maxlogNum) : log.lastFile = logName (log.maxlogNum - 1).toNat := by
  rw [lastFile, logName, if_neg (by omega), Int.toNat_of_nonneg (by omega)]

theorem shiftFiles_holds (h : log.Holds f) :
    ∃ ret log' f', log.shiftFiles = (ret, log') ∧ log'.Holds f' ∧ log'.maxlogNum = log.maxlogNum ∧
      log.removedItems f ++ items f' log.maxlogNum.toNat = items f log.maxlogNum.toNat := by
  unfold shiftFiles removedItems
  cases hfile : log.files .base with
  | none => exact ⟨-1, log, f, rfl, h, rfl, by simp⟩
  | some bytes =>
    by_cases hfull : log.full bytes
    · by_cases hone : 2 ≤ log.maxlogNum
      · have hremove := h.remove (log.maxlogNum - 1).toNat
        obtain ⟨f', hf', hitems⟩ := shift_holds hremove (n := (log.maxlogNum - 1).toNat) (by simp)
        simp only [if_pos hfull, lastFile_eq hone]
        refine ⟨0, _, f', rfl, hf', rfl, ?_⟩
        rw [show log.maxlogNum.toNat = (log.maxlogNum - 1).toNat + 1 by omega, hitems, items_succ, items_succ,
          update_self, getD_none, nil_append, if_pos (by simp [hfull, hone])]
        congr 1
        apply items_congr
        intro i hi
        rw [update_of_ne (by omega)]
      rw [show (log.maxlogNum - 1).toNat = 0 by omega]
      simp only [if_pos hfull, shiftLoop, hone, and_false, if_false, nil_append]
      refine ⟨0, _, f, rfl, ⟨fun i => ?_, h.fits⟩, rfl, rfl⟩
      rw [← h.files i]
      refine update_of_ne (fun hname => ?_) _ _
      -- the file removed is not one of the log's
      unfold logName lastFile at hname
      split at hname
      · cases hname
      have := LogName.numbered.inj hname
      omega
    simp only [if_neg hfull]
    exact ⟨0, log, f, rfl, h, rfl, by simp [hfull]⟩

/-- A write puts its item behind all others, and loses those of the file it drops; with no file to read all is lost. -/
theorem writeToBinLog_spec (h : log.Holds f) (hx : x.Fits) :
    ∃ ret log' f', log.writeToBinLog x.buff x.now = some (ret, log') ∧ log'.Holds f' ∧ log'.maxlogNum = log.maxlogNum ∧
      (log.append x.buff x.now).removedItems (update f 0 (some ((f 0).getD [] ++ [x]))) ++
        items f' log.maxlogNum.toNat = if 1 ≤ log.maxlogNum then items f log.maxlogNum.toNat ++ [x] else [] := by
  have hpos := hx.1
  have hlen := hx.2
  obtain ⟨ret, log', f', hshift, hholds, hnum, hitems⟩ := shiftFiles_holds (append_holds h hx)
  refine ⟨ret, log', f', ?_, hholds, hnum, hitems.trans ?_⟩
  · rw [writeToBinLog, if_neg (by omega), if_neg (by omega), hshift]
  rw [show (log.append x.buff x.now).maxlogNum = log.maxlogNum from rfl]
  split
  · next hnum =>
    obtain ⟨n, hn⟩ : ∃ n, log.maxlogNum.toNat = n + 1 := ⟨log.maxlogNum.toNat - 1, by omega⟩
    rw [hn, items_append]
  next hnum => rw [show log.maxlogNum.toNat = 0 by omega, items_zero]

theorem writeToBinLog_holds (h : log.Holds f) (hx : x.Fits) (hkeep : log.dropsFile x.buff x.now = false) :
    ∃ ret log' f', log.writeToBinLog x.buff x.now = some (ret, log') ∧ log'.Holds f' ∧ log'.maxlogNum = log.maxlogNum ∧
      items f' log.maxlogNum.toNat = if 1 ≤ log.maxlogNum then items f log.maxlogNum.toNat ++ [x] else [] := by
  obtain ⟨ret, log', f', hwrite, hholds, hnum, hitems⟩ := writeToBinLog_spec h hx
  suffices hremoved : (log.append x.buff x.now).removedItems (update f 0 (some ((f 0).getD [] ++ [x]))) = [] by
    rw [hremoved, nil_append] at hitems
    exact ⟨ret, log', f', hwrite, hholds, hnum, hitems⟩
  unfold removedItems
  split_ifs with hdrop
  · have hlast := (append_holds h hx).files ((log.append x.buff x.now).maxlogNum - 1).toNat
    rw [← lastFile_eq hdrop.2] at hlast
    have hnone : (log.append x.buff x.now).files log.lastFile = none := by
      rw [dropsFile, Bool.and_eq_false_iff] at hkeep
      rcases hkeep with hfull | hnone
      · exact absurd (hfull.symm.trans hdrop.1) (by decide)
      · simpa using hnone
    rw [show (log.append x.buff x.now).lastFile = log.lastFile from rfl, hnone] at hlast
    rw [map_eq_none_iff.1 hlast.symm, getD_none]
  rfl

/-! ### Reading -/

/-- What the reader has ahead of it: the items `cur` of the open file and those of the files below `readidx`. -/
structure Ahead (log : CBinLog) (f : Nat → Option (List LogItem)) (cur : List LogItem) : Prop where
  holds : log.Holds f
  fp : log.readFp = some ⟨LogItem.bytes cur, false⟩ ∨
    cur = [] ∧ (log.readFp = none ∨ ∃ rest, log.readFp = some ⟨rest, true⟩)
  fits : ∀ x ∈ cur, x.Fits

theorem Holds.reader (h : log.Holds f) (fp : Option ReadFile) (idx : Nat) :
    { log with readFp := fp, readidx := idx }.Holds f := ⟨h.files, h.fits⟩

theorem Holds.ahead_end (h : log.Holds f) (idx : Nat) : { log with readFp := some ⟨[], true⟩, readidx := idx }.Ahead f [] :=
  ⟨h.reader _ idx, .inr ⟨rfl, .inr ⟨[], rfl⟩⟩, by simp⟩

theorem nextFile_spec (h : log.Holds f) (n : Nat) : (log.nextFile n = none ∧ items f n = []) ∨
      ∃ i xs, i < n ∧ f i = some xs ∧ log.nextFile n = some (i, LogItem.bytes xs) ∧ items f n = xs ++ items f i := by
  induction n with
  | zero => exact .inl ⟨rfl, rfl⟩
  | succ n ih =>
    cases hn : f n with
    | some xs =>
      refine .inr ⟨n, xs, Nat.lt_succ_self n, hn, ?_, ?_⟩
      · rw [nextFile, h.files, hn, map_some]
      · rw [items_succ, hn, getD_some]
    | none =>
      have hnext : log.nextFile (n + 1) = log.nextFile n := by
        rw [nextFile, h.files, hn, map_none]
      have hitems : items f (n + 1) = items f n := by
        rw [items_succ, hn, getD_none, nil_append]
      rw [hnext, hitems]
      rcases ih with ih | ⟨i, xs, hi, hrest⟩
      · exact .inl ih
      · exact .inr ⟨i, xs, Nat.lt_succ_of_lt hi, hrest⟩

theorem read_leBytes (n x : Nat) (rest : List UInt8) :
    (ReadFile.mk (leBytes n x ++ rest) false).read n = (leBytes n x, ⟨rest, false⟩) := by
  have hlen := length_leBytes n x
  simp [ReadFile.read, take_left' hlen, drop_left' hlen]

theorem readRecordLoop_item {idx maxsize : Nat} (hx : x.Fits) (hroom : x.buff.length ≤ maxsize)
    (hlocate : log.locate = some (⟨LogItem.bytes (x :: cur), false⟩, idx)) (fuel : Nat) : readRecordLoop maxsize (fuel + 1) log =
      some (1, x.buff, { log with readFp := some ⟨LogItem.bytes cur, false⟩, readidx := idx }) := by
  have hlen : x.buff.length < 2147483648 := by
    have hfits := hx.2
    have hmax : maxBinlogItemLen < 2147483648 := by decide
    omega
  have hint : int32 (ofLeBytes (leBytes 4 x.buff.length)) = x.buff.length := by
    rw [ofLeBytes_leBytes_of_lt (by omega), int32_of_range (by omega) (by omega)]
  have hbytes : LogItem.bytes (x :: cur) =
      leBytes 4 (uint32 x.now) ++ (leBytes 4 x.buff.length ++ (x.buff ++ LogItem.bytes cur)) := by
    simp [LogItem.bytes_cons, item]
  have hread : (ReadFile.mk (x.buff ++ LogItem.bytes cur) false).read x.buff.length = (x.buff, ⟨LogItem.bytes cur, false⟩) := by
    simp [ReadFile.read]
  have hsmall : ¬(maxsize : Int) < x.buff.length := by omega
  have hnonneg : ¬(x.buff.length : Int) < 0 := by omega
  have hpos := hx.1
  rw [readRecordLoop, hlocate, hbytes]
  simp [read_leBytes, hint, hsmall, hnonneg, hread, hpos]

theorem readRecordLoop_end {idx : Nat} (maxsize : Nat) (hlocate : log.locate = some (⟨[], false⟩, idx)) (fuel : Nat) :
    readRecordLoop maxsize (fuel + 1) log =
      readRecordLoop maxsize fuel { log with readFp := some ⟨[], true⟩, readidx := idx } := by
  have hsmall : ¬(maxsize : Int) < 0 := by omega
  simp [readRecordLoop, hlocate, ReadFile.read, ofLeBytes, int32, hsmall]

theorem locate_of_closed {log : CBinLog} (h : log.readFp = none ∨ ∃ rest, log.readFp = some ⟨rest, true⟩) :
    log.locate = (log.nextFile log.readidx).map fun (n, bytes) => (⟨bytes, false⟩, n) := by
  rcases h with hnone | ⟨rest, heof⟩
  · simp [locate, hnone]
  · simp [locate, heof]

theorem readRecordLoop_spec {f : Nat → Option (List LogItem)} {maxsize fuel : Nat} : ∀ {log : CBinLog} {cur : List LogItem},
    log.Ahead f cur → (∀ x ∈ cur ++ items f log.readidx, x.buff.length ≤ maxsize) → log.readidx + 1 ≤ fuel →
    (cur = [] → log.readFp = some ⟨[], false⟩ → log.readidx + 2 ≤ fuel) →
    match cur ++ items f log.readidx with
    | [] => ∃ log', readRecordLoop maxsize fuel log = some (-1, [], log')
    | x :: xs => ∃ log' cur', readRecordLoop maxsize fuel log = some (1, x.buff, log') ∧ log'.Ahead f cur' ∧
        cur' ++ items f log'.readidx = xs := by
  induction fuel with
  | zero =>
    intro log cur _ _ hfuel
    omega
  | succ fuel ih =>
    intro log cur h hroom hfuel hopen
    rcases h.fp with hfp | ⟨rfl, hclosed⟩
    · have hlocate : log.locate = some (⟨LogItem.bytes cur, false⟩, log.readidx) := by
        simp [locate, hfp]
      cases cur with
      | cons x cur =>
        rw [cons_append]
        refine ⟨_, cur, readRecordLoop_item (h.fits x mem_cons_self) (hroom x mem_cons_self) hlocate fuel, ?_, rfl⟩
        exact ⟨h.holds.reader _ _, .inl rfl, fun y hy => h.fits y (mem_cons_of_mem x hy)⟩
      | nil =>
        have hfuel' := hopen rfl hfp
        rw [readRecordLoop_end maxsize hlocate]
        exact ih (h.holds.ahead_end log.readidx) hroom (by dsimp only; omega) (by simp)
    have hlocate := locate_of_closed hclosed
    rw [nil_append]
    rcases nextFile_spec h.holds log.readidx with ⟨hnext, hitems⟩ | ⟨i, xs, hi, hxs, hnext, hitems⟩
    · rw [hitems]
      exact ⟨{ log with readFp := none, readidx := 0 }, by simp [readRecordLoop, hlocate, hnext]⟩
    rw [hnext, map_some] at hlocate
    rw [nil_append, hitems] at hroom
    rw [hitems]
    cases xs with
    | cons x xs =>
      rw [cons_append]
      refine ⟨_, xs, readRecordLoop_item (h.holds.fits i _ hxs x mem_cons_self) (hroom x mem_cons_self) hlocate fuel, ?_, rfl⟩
      exact ⟨h.holds.reader _ _, .inl rfl, fun y hy => h.holds.fits i _ hxs y (mem_cons_of_mem x hy)⟩
    | nil =>
      rw [readRecordLoop_end maxsize hlocate]
      exact ih (h.holds.ahead_end i) hroom (by dsimp only; omega) (by simp)

theorem Holds.ahead_start (h : log.Holds f) :
    log.setReadRecordStartTime.Ahead f [] := ⟨h.reader none _, .inr ⟨rfl, .inl rfl⟩, by simp⟩

theorem readRecord_nil (h : log.Ahead f cur) (hnil : cur ++ items f log.readidx = []) (maxsize : Nat) :
    ∃ log', log.readRecordFromBinLog maxsize = some (-1, [], log') := by
  have hspec := @readRecordLoop_spec f maxsize _ log cur h (by simp [hnil]) (Nat.le_succ (log.readidx + 1)) fun _ _ => le_rfl
  rw [hnil] at hspec
  exact hspec

theorem readRecord_cons (h : log.Ahead f cur) {xs : List LogItem} (hcons : cur ++ items f log.readidx = x :: xs) {maxsize : Nat}
    (hroom : ∀ y ∈ x :: xs, y.buff.length ≤ maxsize) :
    ∃ log' cur', log.readRecordFromBinLog maxsize = some (1, x.buff, log') ∧ log'.Ahead f cur' ∧
      cur' ++ items f log'.readidx = xs := by
  have hspec := readRecordLoop_spec h (hcons ▸ hroom) (Nat.le_succ (log.readidx + 1)) fun _ _ => le_rfl
  rw [hcons] at hspec
  exact hspec

theorem Ahead.fits_all (h : log.Ahead f cur) : ∀ x ∈ cur ++ items f log.readidx, x.Fits := by
  intro x hx
  rcases mem_append.1 hx with hx | hx
  · exact h.fits x hx
  · exact h.holds.fits_items x hx

end CBinLog

end Mysql51.Cache
