import Mysql51.Cache.LogFiles
import Mysql51.Cache.Refinement

/-!
# Replaying the log

What `StartUp` does with the records of a log, on the list of entries. The times in the entries are those of the replay,
so the lists are compared without them (`Lru.timeless`).
-/

namespace Mysql51.Cache

open Link Machine List

inductive LogRec
  | set (key : TMBHashKey) (data : List UInt8) (expiretime : Int)
  | markClean (key : TMBHashKey)
  | del (key : TMBHashKey)

namespace LogRec

def buff : LogRec → List UInt8
  | .set key data expiretime => CacheAccess.setRecord key data expiretime
  | .markClean key => CacheAccess.recordHead .opMarkClean key
  | .del key => CacheAccess.recordHead .opDel key

def Fits (z : PoolSizes) : LogRec → Prop
  | .set _ data _ => data.length + z.chunkSize ≤ 2147483648
  | _ => True

end LogRec

namespace CacheAccess

theorem recordKey_recordHead (op : LogOp) (key : TMBHashKey) (rest : List UInt8) :
    recordKey (recordHead op key ++ rest) = key := by
  apply Vector.ext
  intro i hi
  have hlen := length_leBytes 4 op.code
  simp only [recordKey, recordHead, Vector.getElem_ofFn, append_assoc, getD_eq_getElem?_getD]
  rw [List.getElem?_append_right (by omega), hlen, Nat.add_sub_cancel_left,
    List.getElem?_append_left (by simpa using hi), Vector.getElem?_toList, Vector.getElem?_eq_getElem hi, Option.getD_some]

theorem take_recordHead (op : LogOp) (key : TMBHashKey) (rest : List UInt8) :
    ofLeBytes ((recordHead op key ++ rest).take 4) = op.code := by
  have hlen := length_leBytes 4 op.code
  rw [recordHead, append_assoc, take_left' hlen, ofLeBytes_leBytes_of_lt]
  cases op <;> decide

theorem drop_recordHead (op : LogOp) (key : TMBHashKey) (rest : List UInt8) (n : Nat) :
    (recordHead op key ++ rest).drop (20 + n) = rest.drop n := by
  rw [← drop_drop, drop_left' (length_recordHead op key)]

theorem replay_markClean (m : CHashMap) (key : TMBHashKey) (now : Int) : replay m (recordHead .opMarkClean key) now =
      (m.findNode key).map fun (node, m) => node.elim m fun i => m.setNodeFlag i .unchg := by
  have hop := take_recordHead .opMarkClean key []
  have hkey := recordKey_recordHead .opMarkClean key []
  rw [append_nil] at hop hkey
  simp only [replay, hop, hkey]
  rw [if_neg (by decide), if_neg (by decide), if_pos trivial]
  cases m.findNode key with
  | none => rfl
  | some p =>
    obtain ⟨node, m'⟩ := p
    cases node <;> rfl

theorem replay_del (m : CHashMap) (key : TMBHashKey) (now : Int) : replay m (recordHead .opDel key) now =
      (m.findNode key).bind fun (node, m) => node.elim (some m) m.deleteNode := by
  have hop := take_recordHead .opDel key []
  have hkey := recordKey_recordHead .opDel key []
  rw [append_nil] at hop hkey
  simp only [replay, hop, hkey]
  rw [if_neg (by decide), if_pos trivial]
  cases m.findNode key with
  | none => rfl
  | some p =>
    obtain ⟨node, m'⟩ := p
    cases node <;> rfl

end CacheAccess

namespace CChunkAllocator

theorem splitLoop_append (tail : List UInt8) {fuel : Nat} : ∀ (a : CChunkAllocator) (hdr : Option Nat) (d : List UInt8),
    splitLoop fuel a hdr (d ++ tail) d.length = splitLoop fuel a hdr d d.length := by
  induction fuel with
  | zero =>
    intro a hdr d
    cases hdr <;> rfl
  | succ fuel ih =>
    intro a hdr d
    cases hdr with
    | none => rfl
    | some i =>
      by_cases hlast : (d.length : Int) < a.chunkSize
      · simp only [splitLoop, if_pos hlast, Int.toNat_natCast, take_left', take_length]
      have hle : a.chunkSize ≤ d.length := by omega
      have hrest : (d.length : Int) - a.chunkSize = (d.drop a.chunkSize).length := by
        rw [length_drop]
        omega
      have hsize : (a.setData i (d.take a.chunkSize)).chunkSize = a.chunkSize := rfl
      simp only [splitLoop, if_neg hlast, take_append_of_le_length hle, hsize, drop_append_of_le_length hle, hrest, ih]

theorem split_append (a : CChunkAllocator) (hdr : Option Nat) (d tail : List UInt8) :
    a.split hdr (d ++ tail) d.length = a.split hdr d d.length := splitLoop_append tail a hdr d

end CChunkAllocator

theorem CHashMap.replaceNode_append (m : CHashMap) (key : TMBHashKey) (d tail : List UInt8) (now : Int) :
    m.replaceNode key (d ++ tail) d.length now = m.replaceNode key d d.length now := by
  simp only [replaceNode, insertNode, updateNode, CChunkAllocator.split_append]

theorem CacheAccess.replay_set (m : CHashMap) (key : TMBHashKey) {data : List UInt8} (hd : data.length < 2147483648)
    (expiretime now : Int) : replay m (setRecord key data expiretime) now =
      (m.replaceNode key data data.length now).map fun (node, m) => node.elim m fun i => m.setNodeFlag i .dirty := by
  have hrecord : setRecord key data expiretime =
      recordHead .opSet key ++ (leBytes 4 data.length ++ (data ++ leBytes 4 (uint32 expiretime))) := by
    simp [setRecord]
  have hlen := length_leBytes 4 data.length
  have hdataLen : int32 (ofLeBytes (leBytes 4 data.length)) = data.length := by
    rw [ofLeBytes_leBytes_of_lt (by omega), int32_of_range (by omega) (by omega)]
  rw [hrecord]
  simp only [replay, take_recordHead, recordKey_recordHead, drop_recordHead _ _ _ 0, drop_recordHead _ _ _ 4, if_true,
    drop_zero, take_left' hlen, drop_left' hlen, hdataLen]
  rw [CHashMap.replaceNode_append]
  cases m.replaceNode key data data.length now with
  | none => rfl
  | some p =>
    obtain ⟨node, m'⟩ := p
    cases node <;> rfl

def Entry.timeless (e : Entry) : Entry := { e with time := 0, expiretime := 0 }

namespace Lru

variable {z : PoolSizes} {l : List Entry} {key : TMBHashKey}

def timeless (l : List Entry) : List Entry := l.map Entry.timeless

theorem lookup_timeless : lookup (timeless l) key = (lookup l key).map Entry.timeless := List.find?_map ..

theorem without_timeless : without (timeless l) key = timeless (without l key) := filter_map ..

theorem touch_timeless : touch (timeless l) key = timeless (touch l key) := by
  cases h : lookup l key with
  | none => rw [touch_of_none h, touch_of_none (by rw [lookup_timeless, h, Option.map_none])]
  | some e =>
    rw [touch_of_some h, touch_of_some (by rw [lookup_timeless, h, Option.map_some]), without_timeless]
    rfl

theorem usedChunks_timeless : usedChunks z (timeless l) = usedChunks z l := by
  rw [usedChunks, timeless, map_map, usedChunks]
  rfl

theorem accepts_timeless {data : List UInt8} : Accepts z (timeless l) key data ↔ Accepts z l key data := by
  unfold Accepts freeChunks
  rw [lookup_timeless, usedChunks_timeless, timeless, length_map]
  cases lookup l key <;> rfl

theorem dirty_timeless : dirty (timeless l) = dirty l := by
  funext key
  rw [dirty, view, lookup_timeless, view]
  cases lookup l key <;> rfl

def redo (z : PoolSizes) (l : List Entry) : LogRec → List Entry
  | .set key data _ => if Accepts z l key data then ⟨key, data, .dirty, 0, 0⟩ :: without l key else touch l key
  | .markClean key => (lookup l key).elim l fun e => { e with flag := .unchg } :: without l key
  | .del key => without l key

end Lru

namespace Sim

open CHashMap Lru CacheAccess

variable {z : PoolSizes} {m : CHashMap} {add : List Nat} {l : List Entry}

theorem replay (h : Sim z m add l) {r : LogRec} (hr : r.Fits z) (now : Int) :
    ∃ m' add' l', CacheAccess.replay m r.buff now = some m' ∧ Sim z m' add' l' ∧ timeless l' = redo z (timeless l) r := by
  cases r with
  | set key data expiretime =>
    have hd : data.length + z.chunkSize ≤ 2147483648 := hr
    have hpos := z.chunkSize_pos
    rw [LogRec.buff, replay_set m key (by omega)]
    by_cases hacc : Accepts z l key data
    · obtain ⟨i, m', add', flag, hreplace, h'⟩ := h.replaceNode_ok hd hacc now
      refine ⟨m'.setNodeFlag i .dirty, _, _, by rw [hreplace]; rfl, h'.setNodeFlag .dirty, ?_⟩
      rw [redo, if_pos (accepts_timeless.2 hacc), without_timeless]
      rfl
    obtain ⟨m', add', hreplace, h'⟩ := h.replaceNode_fails hd hacc now
    refine ⟨m', add', touch l key, by rw [hreplace]; rfl, h', ?_⟩
    rw [redo, if_neg (mt accepts_timeless.1 hacc), touch_timeless]
  | markClean key =>
    rw [LogRec.buff, replay_markClean]
    cases he : lookup l key with
    | none =>
      refine ⟨m, add, l, by rw [h.findNode_none he]; rfl, h, ?_⟩
      rw [redo, lookup_timeless, he]
      rfl
    | some e =>
      obtain ⟨i, -, -, hfind, h'⟩ := h.findNode_some he
      refine ⟨_, _, _, by rw [hfind]; rfl, h'.setNodeFlag .unchg, ?_⟩
      rw [redo, lookup_timeless, he, without_timeless]
      rfl
  | del key =>
    rw [LogRec.buff, replay_del]
    cases he : lookup l key with
    | none =>
      refine ⟨m, add, l, by rw [h.findNode_none he]; rfl, h, ?_⟩
      rw [redo, without_of_none (by rw [lookup_timeless, he, Option.map_none])]
    | some e =>
      obtain ⟨i, -, hkey, hfind, h'⟩ := h.findNode_some he
      obtain ⟨m', hdelete, h'', -⟩ := h'.deleteNode_ok mem_cons_self
      rw [(insertAddListHead_frame m i).key, hkey, without_cons (lookup_some he).2, without_without] at h''
      refine ⟨m', _, without l key, by rw [hfind]; exact hdelete, h'', ?_⟩
      rw [redo, without_timeless]

/-- The loop of `StartUp` replays the records ahead of the reader, one round each and one more to see the end. -/
theorem startUpLoop {f : Nat → Option (List LogItem)} (clock : Nat → Int) {rs : List LogRec} :
    ∀ {s : CacheAccess} {add : List Nat} {l : List Entry} {cur : List LogItem} (fuel : Nat), Sim z s.cache add l →
    s.binlog.Ahead f cur → (cur ++ CBinLog.items f s.binlog.readidx).map LogItem.buff = rs.map LogRec.buff →
    (∀ r ∈ rs, r.Fits z) → (rs.length < fuel → (CacheAccess.startUpLoop clock fuel s).isSome) ∧
    ∀ s', CacheAccess.startUpLoop clock fuel s = some s' →
      ∃ add' l', Sim z s'.cache add' l' ∧ timeless l' = rs.foldl (redo z) (timeless l) := by
  induction rs with
  | nil =>
    intro s add l cur fuel h hahead hitems _
    rw [map_nil, map_eq_nil_iff] at hitems
    obtain ⟨log', hread⟩ := CBinLog.readRecord_nil hahead hitems maxBinlogItemLen
    cases fuel with
    | zero => exact ⟨by simp, by simp [CacheAccess.startUpLoop]⟩
    | succ fuel =>
      simp only [CacheAccess.startUpLoop, hread, some_bind_eq]
      rw [if_neg (by decide)]
      refine ⟨fun _ => rfl, ?_⟩
      rintro s' ⟨⟩
      exact ⟨add, l, h, rfl⟩
  | cons r rs ih =>
    intro s add l cur fuel h hahead hitems hfits
    obtain ⟨x, xs, hcons, hx, hxs⟩ := map_eq_cons_iff.1 hitems
    have hroom : ∀ y ∈ x :: xs, y.buff.length ≤ maxBinlogItemLen := by
      intro y hy
      have hfit := (hahead.fits_all y (hcons ▸ hy)).2
      omega
    obtain ⟨log', cur', hread, hahead', hrest⟩ := CBinLog.readRecord_cons hahead hcons hroom
    cases fuel with
    | zero => exact ⟨by simp, by simp [CacheAccess.startUpLoop]⟩
    | succ fuel =>
      obtain ⟨m', add', l', hreplay, h', htimeless⟩ := h.replay (hfits r mem_cons_self) (clock fuel)
      simp only [CacheAccess.startUpLoop, hread, some_bind_eq, hx, hreplay]
      rw [if_pos (by decide)]
      have hnext := ih (s := { s with cache := m', binlog := log' }) fuel h' hahead' (by rw [hrest]; exact hxs)
        fun r' hr' => hfits r' (mem_cons_of_mem r hr')
      rw [htimeless] at hnext
      exact ⟨fun hlt => hnext.1 (by simpa using hlt), hnext.2⟩

end Sim

end Mysql51.Cache
