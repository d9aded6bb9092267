import Mysql51.Cache.Replay

/-!
# The time of expiry in the log

`StartUp_mirror` replays the log as `StartUp` does, but also takes the time of expiry of an entry from the record of its `set`.
It reads eight bytes where `set` wrote four, so that the upper half comes from what the buffer held before, and for a key that
is in the cache it puts the time into the wrong field.
-/

namespace Mysql51.Cache

open Link Machine Function List Option

namespace CHashMap

variable (m : CHashMap)

def getExpiretime (i : Nat) : Int := (m.hashNode i).addInfo2

def insertNodeMetadata (key : TMBHashKey) (newData : List UInt8) (newLen now expiretime : Int) :
    Option (Option Nat × CHashMap) :=
  match m.freeListRemove with
  | (none, m) => some (none, m)
  | (some i, m) => do
      let newChunkNum := m.allocator.getChunkNum newLen
      let (allocator, headHdr) ← m.allocator.malloc newChunkNum
      let m := m.setAllocator allocator
      if headHdr = none then some (none, m.freeListInsert i)
      else
        let allocator ← m.allocator.split headHdr newData newLen
        let m := (m.setAllocator allocator).useNode i key newLen headHdr
        let m := m.modify i fun node => { node with addInfo1 := now }
        let m := m.modify i fun node => { node with addInfo2 := expiretime }
        some (some i, m.insertAddListHead i)

/-- `update_node_metadata`. The time of expiry goes to the field in which the time of the change has just been put. -/
def updateNodeMetadata (i : Nat) (newData : List UInt8) (newLen now expiretime : Int) : Option (Option Nat × CHashMap) := do
  let oldChunkNum := m.allocator.getChunkNum (m.hashNode i).chunkLen
  let newChunkNum := m.allocator.getChunkNum newLen
  if oldChunkNum ≠ newChunkNum then
    if oldChunkNum < newChunkNum ∧ m.allocator.freeTotal < int32 (newChunkNum - oldChunkNum) then some (none, m)
    else
      let allocator ← m.allocator.free (m.hashNode i).chunkHead
      let (allocator, headHdr) ← allocator.malloc newChunkNum
      let allocator ← allocator.split headHdr newData newLen
      let m := (m.setAllocator allocator).modify i fun node =>
        { { node with chunkLen := newLen, chunkHead := headHdr, addInfo1 := now } with addInfo1 := expiretime }
      some (some i, m.insertAddListHead i)
  else
    let allocator ← m.allocator.split (m.hashNode i).chunkHead newData newLen
    let m := (m.setAllocator allocator).modify i fun node =>
      { { node with chunkLen := newLen, addInfo1 := now } with addInfo1 := expiretime }
    some (some i, m.insertAddListHead i)

def replaceNodeMetadata (key : TMBHashKey) (newData : List UInt8) (newLen now expiretime : Int) :
    Option (Option Nat × CHashMap) := do
  match ← m.findNode key with
  | (none, m) => m.insertNodeMetadata key newData newLen now expiretime
  | (some i, m) => m.updateNodeMetadata i newData newLen now expiretime

end CHashMap

def CacheAccess.replayMirror (m : CHashMap) (szBuff : List UInt8) (now : Int) : Option CHashMap :=
  let op := ofLeBytes (szBuff.take 4)
  let key := recordKey szBuff
  if op = LogOp.opSet.code then do
    let dataLen := int32 (ofLeBytes ((szBuff.drop 20).take 4))
    let data := szBuff.drop 24
    let expiretime := int64 (ofLeBytes ((szBuff.drop (24 + dataLen.toNat)).take 8))
    let (node, m) ← m.replaceNodeMetadata key data dataLen now expiretime
    some (match node with
      | none => m
      | some i => m.setNodeFlag i .dirty)
  else if op = LogOp.opDel.code then do
    match ← m.findNode key with
    | (none, m) => some m
    | (some i, m) => m.deleteNode i
  else if op = LogOp.opMarkClean.code then do
    match ← m.findNode key with
    | (none, m) => some m
    | (some i, m) => some (m.setNodeFlag i .unchg)
  else some m

namespace CHashMap

variable (m : CHashMap)

theorem updateNodeMetadata_eq (i : Nat) (newData : List UInt8) (newLen now expiretime : Int) :
    m.updateNodeMetadata i newData newLen now expiretime = m.updateNode i newData newLen expiretime := rfl

/-! ### The time of expiry is no link -/

section Expire

variable (i j : Nat) (t : Int)

theorem setExpiretime_modify {f : THashNode → THashNode} (hf : ∀ n, f { n with addInfo2 := t } = { f n with addInfo2 := t }) :
    (m.setExpiretime i t).modify j f = (m.modify j f).setExpiretime i t := by
  have hnodes : ((m.setExpiretime i t).modify j f).hashNode = ((m.modify j f).setExpiretime i t).hashNode := by
    rw [setExpiretime, setExpiretime, hashNode_modify, hashNode_modify, hashNode_modify, hashNode_modify]
    by_cases hij : j = i
    · subst hij
      rw [update_self, update_self, update_idem, update_idem, hf]
    rw [update_of_ne hij, update_of_ne (Ne.symm hij), update_comm hij]
  rw [modify] at hnodes ⊢
  rw [setExpiretime, modify] at hnodes ⊢
  exact congrArg (fun nodes => { m with hashNode := nodes }) hnodes

theorem setExpiretime_setAddNext (hdr v : Option Nat) :
    (m.setExpiretime i t).setAddNext hdr v = (m.setAddNext hdr v).setExpiretime i t := by
  cases hdr with
  | none => rfl
  | some j => exact setExpiretime_modify m i j t (f := fun node => { node with addNext := v }) fun _ => rfl

theorem setExpiretime_setAddPrev (hdr v : Option Nat) :
    (m.setExpiretime i t).setAddPrev hdr v = (m.setAddPrev hdr v).setExpiretime i t := by
  cases hdr with
  | none => rfl
  | some j => exact setExpiretime_modify m i j t (f := fun node => { node with addPrev := v }) fun _ => rfl

theorem setExpiretime_addNext : (m.setExpiretime i t).addNext = m.addNext := field_modify_of_eq rfl

theorem setExpiretime_addPrev : (m.setExpiretime i t).addPrev = m.addPrev := field_modify_of_eq rfl

theorem setExpiretime_setAddHead (v : Option Nat) : (m.setExpiretime i t).setAddHead v = (m.setAddHead v).setExpiretime i t := rfl

theorem setExpiretime_setAddTail (v : Option Nat) : (m.setExpiretime i t).setAddTail v = (m.setAddTail v).setExpiretime i t := rfl

theorem setExpiretime_addHead : (m.setExpiretime i t).addHead = m.addHead := rfl

theorem setExpiretime_addTail : (m.setExpiretime i t).addTail = m.addTail := rfl

theorem setExpiretime_deleteFromAddList :
    (m.setExpiretime i t).deleteFromAddList j = (m.deleteFromAddList j).setExpiretime i t := by
  simp only [deleteFromAddList, setExpiretime_addNext, setExpiretime_addPrev, setExpiretime_addHead, setExpiretime_addTail,
    setExpiretime_setAddNext, setExpiretime_setAddPrev, setExpiretime_setAddHead, setExpiretime_setAddTail]
  split <;> rfl

theorem setExpiretime_insertAddListHead :
    (m.setExpiretime i t).insertAddListHead j = (m.insertAddListHead j).setExpiretime i t := by
  simp only [insertAddListHead, setExpiretime_deleteFromAddList, setExpiretime_addNext, setExpiretime_addHead,
    setExpiretime_addTail, setExpiretime_setAddNext, setExpiretime_setAddPrev, setExpiretime_setAddHead,
    setExpiretime_setAddTail]

end Expire

theorem insertNodeMetadata_eq (key : TMBHashKey) (newData : List UInt8) (newLen now expiretime : Int) :
    m.insertNodeMetadata key newData newLen now expiretime =
      (m.insertNode key newData newLen now).map fun (node, m) => (node, node.elim m fun i => m.setExpiretime i expiretime) := by
  rw [insertNodeMetadata, insertNode]
  cases hfree : m.freeListRemove with
  | mk node m₁ =>
    cases node with
    | none => rfl
    | some i =>
      dsimp only
      cases m₁.allocator.malloc (m₁.allocator.getChunkNum newLen) with
      | none => rfl
      | some p =>
        dsimp only [bind_eq_bind, bind_some]
        split
        · rfl
        cases (m₁.setAllocator p.1).allocator.split p.2 newData newLen with
        | none => rfl
        | some a =>
          dsimp only [bind_some, map_some, Option.elim]
          rw [← setExpiretime_insertAddListHead]
          rfl

theorem replaceNodeMetadata_append (key : TMBHashKey) (d tail : List UInt8) (now expiretime : Int) :
    m.replaceNodeMetadata key (d ++ tail) d.length now expiretime = m.replaceNodeMetadata key d d.length now expiretime := by
  simp only [replaceNodeMetadata, insertNodeMetadata, updateNodeMetadata, CChunkAllocator.split_append]

end CHashMap

/-! ### The record of a `set` -/

namespace CacheAccess

/-- The time of expiry that is read: the lower half is what `set` wrote, the upper half is from the bytes behind the record. -/
def readExpiretime (expiretime : Int) (behind : List UInt8) : Int :=
  int64 ((uint32 expiretime : Int) + 4294967296 * ofLeBytes (behind.take 4))

theorem readExpiretime_eq_iff {expiretime : Int} (hlow : -9223372036854775808 ≤ expiretime)
    (hhigh : expiretime < 9223372036854775808) {behind : List UInt8} :
    readExpiretime expiretime behind = expiretime ↔ ofLeBytes (behind.take 4) = uint32 (expiretime / 4294967296) := by
  have hlt := ofLeBytes_lt (behind.take 4)
  have hpow : 256 ^ (behind.take 4).length ≤ 256 ^ 4 := Nat.pow_le_pow_right (by decide) (by rw [length_take]; omega)
  have hlt' := lt_of_lt_of_le hlt hpow
  rw [readExpiretime, int64, uint32, uint32]
  omega

theorem replayMirror_set (m : CHashMap) (key : TMBHashKey) {data : List UInt8} (hd : data.length < 2147483648)
    (expiretime now : Int) (behind : List UInt8) : replayMirror m (setRecord key data expiretime ++ behind) now =
      (m.replaceNodeMetadata key data data.length now (readExpiretime expiretime behind)).map
        fun (node, m) => node.elim m fun i => m.setNodeFlag i .dirty := by
  have hrecord : setRecord key data expiretime ++ behind =
      recordHead .opSet key ++ (leBytes 4 data.length ++ (data ++ (leBytes 4 (uint32 expiretime) ++ behind))) := by
    simp [setRecord]
  have hlen := length_leBytes 4 data.length
  have hdataLen : int32 (ofLeBytes (leBytes 4 data.length)) = data.length := by
    rw [ofLeBytes_leBytes_of_lt (by omega), int32_of_range (by omega) (by omega)]
  have hexpire : int64 (ofLeBytes ((leBytes 4 (uint32 expiretime) ++ behind).take 8)) = readExpiretime expiretime behind := by
    have htake : (leBytes 4 (uint32 expiretime) ++ behind).take 8 = leBytes 4 (uint32 expiretime) ++ behind.take 4 := by
      rw [take_append, length_leBytes, take_of_length_le (by rw [length_leBytes]; omega)]
    have hlt : uint32 expiretime < 256 ^ 4 := by
      rw [uint32]
      omega
    rw [htake, ofLeBytes_append, length_leBytes, ofLeBytes_leBytes_of_lt hlt, readExpiretime]
    rfl
  have hdrop : (leBytes 4 data.length ++ (data ++ (leBytes 4 (uint32 expiretime) ++ behind))).drop (4 + data.length) =
      leBytes 4 (uint32 expiretime) ++ behind := by
    rw [← drop_drop, drop_left' hlen, drop_left]
  have htwenty : 24 + data.length = 20 + (4 + data.length) := by omega
  rw [hrecord]
  simp only [replayMirror, take_recordHead, recordKey_recordHead, drop_recordHead _ _ _ 0, drop_recordHead _ _ _ 4, if_true,
    drop_zero, take_left' hlen, drop_left' hlen, hdataLen, Int.toNat_natCast, htwenty,
    drop_recordHead _ _ _ (4 + data.length), hdrop, hexpire]
  rw [CHashMap.replaceNodeMetadata_append]
  cases m.replaceNodeMetadata key data data.length now (readExpiretime expiretime behind) with
  | none => rfl
  | some p =>
    obtain ⟨node, m'⟩ := p
    cases node <;> rfl

end CacheAccess

/-! ### The time of expiry after the replay -/

namespace Sim

open CHashMap Lru CacheAccess

variable {z : PoolSizes} {m : CHashMap} {add : List Nat} {l : List Entry} {key : TMBHashKey} {data : List UInt8}

/-- The list behind the replay of the record of a `set`. A new entry has the time that was read, an old one keeps its own. -/
theorem replayMirror_set (h : Sim z m add l) (hd : data.length + z.chunkSize ≤ 2147483648) (expiretime now : Int)
    (behind : List UInt8) :
    ∃ m' add' l', CacheAccess.replayMirror m (setRecord key data expiretime ++ behind) now = some m' ∧ Sim z m' add' l' ∧
      (lookup l' key).map Entry.expiretime =
        match lookup l key with
        | none => if Accepts z l key data then some (readExpiretime expiretime behind) else none
        | some e => some e.expiretime := by
  have hpos := z.chunkSize_pos
  rw [CacheAccess.replayMirror_set m key (by omega)]
  cases hlook : lookup l key with
  | none =>
    by_cases hacc : Accepts z l key data
    · rw [if_pos hacc]
      have hroom := hacc
      rw [Accepts, hlook] at hroom
      obtain ⟨i, m', flag, hinsert, hsim⟩ := h.insertNode_ok hlook hd hroom.1 hroom.2.1 hroom.2.2 now
      have hset := (hsim.setExpiretime (readExpiretime expiretime behind)).setNodeFlag .dirty
      refine ⟨_, _, _, ?_, hset, ?_⟩
      · rw [replaceNodeMetadata, h.findNode_none hlook]
        show ((m.insertNodeMetadata key data data.length now (readExpiretime expiretime behind)).map _) = _
        rw [insertNodeMetadata_eq, hinsert]
        rfl
      have hself : lookup (⟨key, data, .dirty, now, readExpiretime expiretime behind⟩ :: l) key = some _ := lookup_cons_self
      rw [hself]
      rfl
    rw [if_neg hacc]
    have hroom := hacc
    rw [Accepts, hlook] at hroom
    refine ⟨m, add, l, ?_, h, by rw [hlook]; rfl⟩
    rw [replaceNodeMetadata, h.findNode_none hlook]
    show ((m.insertNodeMetadata key data data.length now (readExpiretime expiretime behind)).map _) = _
    rw [insertNodeMetadata_eq, h.insertNode_fails hd hroom]
    rfl
  | some e =>
    obtain ⟨i, -, -, hfind, hsim⟩ := h.findNode_some hlook
    obtain ⟨-, rfl⟩ := lookup_some hlook
    rw [replaceNodeMetadata, hfind]
    by_cases hacc : chunksFor z.chunkSize data.length ≤ chunksFor z.chunkSize e.data.length + freeChunks z (e :: without l e.key)
    · obtain ⟨m', hupdate, hsim'⟩ := hsim.updateNode_ok hd hacc (readExpiretime expiretime behind)
      refine ⟨_, _, _, ?_, hsim'.setNodeFlag .dirty, ?_⟩
      · show (((m.insertAddListHead i).updateNodeMetadata i data data.length now (readExpiretime expiretime behind)).map _) = _
        rw [updateNodeMetadata_eq, hupdate]
        rfl
      have hself : lookup (⟨e.key, data, .dirty, readExpiretime expiretime behind, e.expiretime⟩ :: without l e.key) e.key =
          some _ := lookup_cons_self
      rw [hself]
      rfl
    refine ⟨_, _, _, ?_, hsim, by rw [lookup_cons_self]; rfl⟩
    show (((m.insertAddListHead i).updateNodeMetadata i data data.length now (readExpiretime expiretime behind)).map _) = _
    rw [updateNodeMetadata_eq, PoolRep.updateNode_fails _ i data _ ((hsim.lacks_iff hd).2 (by omega))]
    rfl

theorem getExpiretime (h : Sim z m add l) {e : Entry} (he : lookup l key = some e) :
    ∃ i m', m.findNode key = some (some i, m') ∧ m.getExpiretime i = e.expiretime := by
  obtain ⟨i, hi, hkey, hfind, -⟩ := h.findNode_some he
  refine ⟨i, _, hfind, ?_⟩
  have hnd := h.keys_nodup
  obtain ⟨free, chain, cfree, own, bytes, -, -, rfl⟩ := h.rep
  have hentry := lookup_eq_some hnd (mem_map_of_mem hi)
  have hkey' : (m.entry bytes i).key = key := hkey
  rw [hkey', he] at hentry
  rw [Option.some.inj hentry]
  rfl

end Sim

/-- After the replay of the record that `set` writes, `get_expiretime` of the key's node is what `set` was given. -/
def ExpireRestored (m : CHashMap) (key : TMBHashKey) (data : List UInt8) (expiretime : Int) (behind : List UInt8) (now : Int) :
    Prop :=
  ∃ m' i m'', CacheAccess.replayMirror m (CacheAccess.setRecord key data expiretime ++ behind) now = some m' ∧
    m'.findNode key = some (some i, m'') ∧ m'.getExpiretime i = expiretime

open Lru

theorem Sim.expireRestored {z : PoolSizes} {m : CHashMap} {add : List Nat} {l : List Entry} (h : Sim z m add l)
    (key : TMBHashKey) {data : List UInt8} (hd : data.length + z.chunkSize ≤ 2147483648) (expiretime : Int) (behind : List UInt8)
    (now : Int) : ExpireRestored m key data expiretime behind now ↔ (match lookup l key with
        | none => if Accepts z l key data then some (CacheAccess.readExpiretime expiretime behind) else none
        | some e => some e.expiretime) = some expiretime := by
  obtain ⟨m', add', l', hreplay, hsim, hexpire⟩ := h.replayMirror_set hd expiretime now behind
  rw [← hexpire]
  constructor
  · rintro ⟨m₁, i, m₂, hreplay₁, hfind, hvalue⟩
    rw [hreplay] at hreplay₁
    cases hreplay₁
    cases he : lookup l' key with
    | none =>
      rw [hsim.findNode_none he] at hfind
      cases hfind
    | some e =>
      obtain ⟨j, m₃, hfind', hvalue'⟩ := hsim.getExpiretime he
      rw [hfind'] at hfind
      cases hfind
      rw [map_some, ← hvalue', hvalue]
  intro hsome
  obtain ⟨e, he, hvalue⟩ := map_eq_some_iff.1 hsome
  obtain ⟨i, m₂, hfind, hvalue'⟩ := hsim.getExpiretime he
  exact ⟨m', i, m₂, hreplay, hfind, hvalue'.trans hvalue⟩

/-- For a key that is not in the cache, the bytes behind the record must be the upper half of the time of expiry. An entry that is
in the cache must have had the time before. -/
theorem expireRestored_iff {z : PoolSizes} {m : CHashMap} {add : List Nat} {l : List Entry} (h : Sim z m add l)
    (key : TMBHashKey) {data : List UInt8} (hd : data.length + z.chunkSize ≤ 2147483648) {expiretime : Int}
    (hlow : -9223372036854775808 ≤ expiretime) (hhigh : expiretime < 9223372036854775808) (behind : List UInt8) (now : Int) :
    ExpireRestored m key data expiretime behind now ↔
      match lookup l key with
      | none => Accepts z l key data ∧ ofLeBytes (behind.take 4) = uint32 (expiretime / 4294967296)
      | some e => e.expiretime = expiretime := by
  rw [h.expireRestored key hd]
  cases lookup l key with
  | none =>
    by_cases hacc : Accepts z l key data
    · rw [if_pos hacc, some_inj, CacheAccess.readExpiretime_eq_iff hlow hhigh]
      exact ⟨fun hvalue => ⟨hacc, hvalue⟩, And.right⟩
    · rw [if_neg hacc]
      exact ⟨fun hnone => (nomatch hnone), fun hcond => absurd hcond.1 hacc⟩
  | some e => exact some_inj

/-- An empty pool, and a time of expiry that fits into four bytes. -/
theorem expireRestored_iff_small : ExpireRestored (CHashMap.initPoolData 4 2 4 8) TMBHashKey.one [7] 5 [0, 0, 0, 0] 1 :=
  (expireRestored_iff (Sim.init PoolSizes.small) TMBHashKey.one (by decide) (by decide) (by decide) [0, 0, 0, 0] 1).2
    ⟨by decide, by decide⟩

/-- A time of expiry of more than four bytes in an empty pool, and a time of expiry for a key that is in the pool. -/
theorem not_expireRestored : ¬ExpireRestored (CHashMap.initPoolData 4 2 4 8) TMBHashKey.one [7] 4294967296 [0, 0, 0, 0] 1 ∧
      ∃ m add flag, Sim PoolSizes.small m add [⟨TMBHashKey.one, [7], flag, 1, 0⟩] ∧
        ¬ExpireRestored m TMBHashKey.one [7] 5 [0, 0, 0, 0] 2 := by
  refine ⟨?_, ?_⟩
  · exact fun hrestored => absurd
      (((Sim.init PoolSizes.small).expireRestored TMBHashKey.one (by decide) 4294967296 [0, 0, 0, 0] 1).1 hrestored) (by decide)
  obtain ⟨i, m, flag, -, hsim⟩ :=
    (Sim.init PoolSizes.small).insertNode_ok (d := [7]) (show lookup [] TMBHashKey.one = none from rfl) (by decide) (by decide) (by decide)
      (by decide) 1
  refine ⟨m, [i], flag, hsim, ?_⟩
  rw [hsim.expireRestored TMBHashKey.one (by decide), lookup_cons_self (e := ⟨TMBHashKey.one, [7], flag, 1, 0⟩)]
  exact fun hsome => absurd (Option.some.inj hsome) (by decide : ¬(0 : Int) = 5)

end Mysql51.Cache
