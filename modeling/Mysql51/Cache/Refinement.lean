import Mysql51.Cache.Entries
import Mysql51.Cache.Ownership

/-!
# The cache is a finite map

Each call of the interface is a step on the list of entries, so that over a run the cache stands for the map which the
calls that succeed build up. Calls return as long as their arguments keep to the sizes (`Op.Fits`).
-/

namespace Mysql51.Cache

open Link Machine Function

/-- What `merge_node_data` answers for data `d` and a buffer of `n` bytes. -/
def merged (d : List UInt8) (n : Int) : Int × Int × List UInt8 :=
  if n < d.length then (-2, d.length, []) else (0, d.length, d)

variable {d data : List UInt8} {now : Int} {s' : CacheAccess} {key : TMBHashKey}

theorem merged_of_le {n : Int} (hle : d.length ≤ n) : merged d n = (0, (d.length : Int), d) :=
  if_neg (not_lt.2 hle)

theorem merged_of_lt {n : Int} (hlt : n < d.length) : merged d n = (-2, (d.length : Int), []) := if_pos hlt

theorem PoolRep.mergeNodeData {m : CHashMap} {free chain add cfree own} {bytes : Nat → List UInt8} {i : Nat}
    (hrep : PoolRep m free chain add cfree own) (hdata : DataRep m add own bytes) (hi : i ∈ add) (n : Int) :
    m.mergeNodeData i n = some (merged (bytes i) n) := by
  obtain ⟨hholds, hlen⟩ := hdata i hi
  have hle : (own i).length ≤ m.allocator.chunkTotal := by
    have htotal := hrep.chunks.total.length_eq
    have hsub := ((List.perm_cons_erase hi).flatMap_right own).length_eq
    rw [List.flatMap_cons, List.length_append] at hsub
    rw [List.length_append, List.length_range] at htotal
    omega
  rw [CHashMap.mergeNodeData, CChunkAllocator.merge, hlen, merged]
  split
  · rfl
  rw [CChunkAllocator.mergeLoop_spec _ _ _ _ (hrep.chunks.ownChain i hi) hholds hle]
  rfl

namespace Sim

open CHashMap Lru

variable {z : PoolSizes} {m : CHashMap} {add : List Nat} {l : List Entry} {i : Nat} {e : Entry} {rest : List Entry}

theorem init (z : PoolSizes) : Sim z (initPoolData z.nodeTotal z.bucketSize z.nChunks z.chunkSize) [] [] := by
  have hframe := initPoolData_frame z.nodeTotal z.bucketSize z.nChunks z.chunkSize
  obtain ⟨free, chain, cfree, own, hrep⟩ := Owned.init z
  refine ⟨hframe.1, hframe.2.1, ?_, ?_, ⟨free, chain, cfree, own, fun _ => [], hrep, by simp [DataRep], rfl⟩, by simp⟩
  all_goals
    rw [hframe.2.2]
    rfl

theorem addRep (h : Sim z m add l) : AddRep m add ∧ add.length = l.length ∧ add.length ≤ z.nodeTotal := by
  obtain ⟨free, chain, cfree, own, bytes, hrep, -, rfl⟩ := h.rep
  exact ⟨hrep.hash.adds, by simp, h.nodeTotal ▸ hrep.hash.add_length_le⟩

theorem eq_nil (h : Sim z m add l) (hhead : m.addHead = none) : l = [] := by
  obtain ⟨hadds, hlength, -⟩ := h.addRep
  have hchain := hadds.chain
  rw [hhead] at hchain
  rw [Chain.eq_nil hchain, List.length_nil, eq_comm] at hlength
  exact List.eq_nil_of_length_eq_zero hlength

theorem node (h : Sim z m add l) (hi : i ∈ add) : ∃ e, lookup l (m.hashNode i).key = some e ∧ (m.hashNode i).flag = e.flag ∧
      (m.hashNode i).chunkLen = e.data.length ∧ ∀ n, m.mergeNodeData i n = some (merged e.data n) := by
  have hnd := h.keys_nodup
  obtain ⟨free, chain, cfree, own, bytes, hrep, hdata, rfl⟩ := h.rep
  exact ⟨m.entry bytes i, lookup_eq_some hnd (List.mem_map_of_mem hi), rfl, (hdata i hi).2, hrep.mergeNodeData hdata hi⟩

theorem front (h : Sim z m (i :: add) (e :: rest)) :
    (m.hashNode i).flag = e.flag ∧ (m.hashNode i).addInfo1 = e.time ∧ (m.hashNode i).addInfo2 = e.expiretime ∧
      (m.hashNode i).chunkLen = e.data.length ∧ ∀ n, m.mergeNodeData i n = some (merged e.data n) := by
  obtain ⟨free, chain, cfree, own, bytes, hrep, hdata, hl⟩ := h.rep
  rw [List.map_cons, List.cons.injEq] at hl
  obtain ⟨rfl, -⟩ := hl
  exact ⟨rfl, rfl, rfl, (hdata i (by simp)).2, hrep.mergeNodeData hdata (by simp)⟩

theorem deleteNodes {v : List Nat} (h : Sim z m add l) (hnd : v.Nodup) (hsub : v ⊆ add) :
    ∃ m', v.foldlM CHashMap.deleteNode m = some m' ∧
      ∃ add', Sim z m' add' (l.filter fun e => ∀ j ∈ v, e.key ≠ (m.hashNode j).key) := by
  induction v generalizing m add l with
  | nil => exact ⟨m, rfl, add, by simpa using h⟩
  | cons i v ih =>
    obtain ⟨hi, hnd⟩ := List.nodup_cons.1 hnd
    obtain ⟨m₁, hdelete, h₁, hkeys⟩ := h.deleteNode_ok (hsub List.mem_cons_self)
    have hsub₁ : v ⊆ add.erase i := fun j hj =>
      (h.addRep.1.chain.nodup.mem_erase_iff).2 ⟨ne_of_mem_of_not_mem hj hi, hsub (by simp [hj])⟩
    obtain ⟨m', hfold, add', h'⟩ := ih h₁ hnd hsub₁
    refine ⟨m', by simp [List.foldlM_cons, hdelete, hfold], add', ?_⟩
    convert h' using 1
    rw [without, List.filter_filter]
    refine List.filter_congr fun e _ => ?_
    have hrest : (∀ j ∈ v, e.key ≠ (m₁.hashNode j).key) ↔ ∀ j ∈ v, e.key ≠ (m.hashNode j).key :=
      forall₂_congr fun j hj => by rw [hkeys j (hsub₁ hj)]
    rw [← Bool.decide_and, decide_eq_decide, List.forall_mem_cons, hrest, and_comm]

end Sim

/-! ### The calls -/

theorem CacheAccess.length_recordHead (op : LogOp) (key : TMBHashKey) : (recordHead op key).length = 20 := by
  simp [recordHead]

theorem CacheAccess.recordHead_ne_nil (op : LogOp) (key : TMBHashKey) : recordHead op key ≠ [] := by
  rw [← List.length_pos_iff, length_recordHead]
  omega

theorem CacheAccess.length_setRecord (key : TMBHashKey) (data : List UInt8) (expiretime : Int) :
    (setRecord key data expiretime).length = data.length + 28 := by
  simp only [setRecord, recordHead, List.length_append, length_leBytes, Vector.length_toList]
  omega

theorem CacheAccess.setRecord_ne_nil (key : TMBHashKey) (data : List UInt8) (expiretime : Int) :
    setRecord key data expiretime ≠ [] := by
  rw [← List.length_pos_iff, length_setRecord]
  omega

/-- A record breaks the buffer of the log exactly when it leaves no room for the eight bytes in front of it. -/
theorem CacheAccess.writeLog_eq_none (s : CacheAccess) (wanted : Bool) {record : List UInt8} (hne : record ≠ []) (now : Int) :
    s.writeLog wanted record now = none ↔ wanted = true ∧ maxBinlogItemLen < record.length + 8 := by
  have hpos := List.length_pos_iff.2 hne
  unfold writeLog
  by_cases hw : wanted = true
  · rw [if_pos hw]
    by_cases hlen : record.length < maxBinlogItemLen
    · rw [if_pos hlen, CBinLog.writeToBinLog, if_neg (by omega)]
      by_cases hover : maxBinlogItemLen < record.length + 8 <;> simp [hw, hover]
    rw [if_neg hlen]
    simp only [hw, true_and, true_iff]
    omega
  simp [hw]

theorem CacheAccess.writeLog_withCache (s : CacheAccess) (cache : CHashMap) (wanted : Bool) (record : List UInt8) (now : Int) :
    { s with cache := cache }.writeLog wanted record now =
      (s.writeLog wanted record now).map fun s => { s with cache := cache } := by
  unfold writeLog
  split
  · split
    · rw [Option.map_map]
      rfl
    rfl
  rfl

namespace Sim

open CHashMap Lru CacheAccess

variable {z : PoolSizes} {s : CacheAccess} {add : List Nat} {l : List Entry} {e : Entry} {key : TMBHashKey}

theorem setCore_ok (h : Sim z s.cache add l) {data : List UInt8} (hd : data.length + z.chunkSize ≤ 2147483648)
    (hacc : Accepts z l key data) (expiretime : Option Int) (flag : ENodeFlag) (now : Int) : ∃ cache add', Sim z cache add'
        (⟨key, data, flag, now, expiretime.getD (keptExpire l key)⟩ :: without l key) ∧
      s.setCore key data expiretime flag now = ({ s with cache := cache }.writeLog
        (0 ≤ s.cacheDumpMin ∧ flag = ENodeFlag.dirty) (setRecord key data (expiretime.getD 0)) now).map fun s => (0, s) := by
  have hlen : int32 data.length = data.length := int32_of_range (by omega) (by have := z.chunkSize_pos; omega)
  obtain ⟨i, m', add', flag', hreplace, h'⟩ := h.replaceNode_ok hd hacc now
  have hflag := h'.setNodeFlag flag
  cases expiretime with
  | none =>
    refine ⟨m'.setNodeFlag i flag, i :: add', hflag, ?_⟩
    simp only [CacheAccess.setCore, hlen, hreplace, some_bind_eq]
    rw [Option.map_eq_bind]
    rfl
  | some t =>
    refine ⟨(m'.setNodeFlag i flag).setExpiretime i t, i :: add', hflag.setExpiretime t, ?_⟩
    simp only [CacheAccess.setCore, hlen, hreplace, some_bind_eq]
    rw [Option.map_eq_bind]
    rfl

theorem setCore_fails (h : Sim z s.cache add l) (hd : data.length + z.chunkSize ≤ 2147483648)
    (hacc : ¬Accepts z l key data) (expiretime : Option Int) (flag : ENodeFlag) (now : Int) :
    ∃ cache add', Sim z cache add' (touch l key) ∧
      s.setCore key data expiretime flag now = some (1, { s with cache := cache }) := by
  have hlen : int32 data.length = data.length := int32_of_range (by omega) (by have := z.chunkSize_pos; omega)
  obtain ⟨m', add', hreplace, h'⟩ := h.replaceNode_fails hd hacc now
  exact ⟨m', add', h', by simp only [CacheAccess.setCore, hlen, hreplace, some_bind_eq]⟩

def gotten (e : Entry) (bufSize : Nat) : Int × Option Got :=
  ((merged e.data (int32 bufSize)).1,
    some ⟨e.data.length, e.flag, e.time, e.expiretime, (merged e.data (int32 bufSize)).2.2⟩)

section

variable (h : Sim z s.cache add l)
include h

theorem get_none (hkey : lookup l key = none) (bufSize : Nat) : s.get key bufSize = some ((1, none), s) := by
  simp only [CacheAccess.get, h.findNode_none hkey, some_bind_eq]

theorem get_touches (he : lookup l key = some e) (bufSize : Nat) :
    ∃ i ∈ add, ∃ cache, (s.cache.hashNode i).key = key ∧ Sim z cache (i :: add.erase i) (e :: without l key) ∧
      s.get key bufSize = some (gotten e bufSize, { s with cache := cache }) := by
  obtain ⟨i, hi, hikey, hfind, h'⟩ := h.findNode_some he
  have hfits := h.fits e (lookup_some he).1
  have hlen : uint32 (e.data.length : Int) = e.data.length := by
    have := uint32_of_range (Int.natCast_nonneg e.data.length) (by have := z.chunkSize_pos; omega)
    omega
  obtain ⟨hflag, htime, hexpire, -, hmerge⟩ := h'.front
  refine ⟨i, hi, _, hikey, h', ?_⟩
  simp only [CacheAccess.get, hfind, some_bind_eq, hmerge, hflag, htime, hexpire, gotten]
  unfold merged
  split <;> simp only [hlen]

theorem get_some (he : lookup l key = some e) (bufSize : Nat) : ∃ cache add', Sim z cache add' (touch l key) ∧
      s.get key bufSize = some (gotten e bufSize, { s with cache := cache }) := by
  obtain ⟨i, -, cache, -, h', hget⟩ := h.get_touches he bufSize
  exact ⟨cache, _, touch_of_some he ▸ h', hget⟩

theorem get_fst (bufSize : Nat) :
    (s.get key bufSize).map Prod.fst = some ((lookup l key).elim (1, none) fun e => gotten e bufSize) := by
  cases he : lookup l key with
  | none =>
    rw [h.get_none he]
    rfl
  | some e =>
    obtain ⟨cache, add', -, hget⟩ := h.get_some he bufSize
    rw [hget]
    rfl

theorem getKey_none (hkey : lookup l key = none) : s.getKey key = some ((1, none), s) := by
  simp only [CacheAccess.getKey, h.findNode_none hkey, some_bind_eq]

theorem getKey_some (he : lookup l key = some e) :
    ∃ cache add' got, Sim z cache add' (touch l key) ∧ s.getKey key = some ((0, some got), { s with cache := cache }) := by
  obtain ⟨i, -, -, hfind, h'⟩ := h.findNode_some he
  refine ⟨s.cache.insertAddListHead i, i :: add.erase i, ?_⟩
  simp only [touch_of_some he, CacheAccess.getKey, hfind, some_bind_eq]
  exact ⟨_, h', rfl⟩

theorem markClean_none (hkey : lookup l key = none) (now : Int) : s.markClean key now = some (1, s) := by
  simp only [CacheAccess.markClean, h.findNode_none hkey, some_bind_eq]

theorem markClean_some (he : lookup l key = some e) (now : Int) : ∃ i ∈ add, ∃ cache, (s.cache.hashNode i).key = key ∧
      Sim z cache (i :: add.erase i) ({ e with flag := .unchg } :: without l key) ∧
      s.markClean key now = ({ s with cache := cache }.writeLog (0 ≤ s.cacheDumpMin) (recordHead .opMarkClean key) now).map
        fun s => (0, s) := by
  obtain ⟨i, hi, hikey, hfind, h'⟩ := h.findNode_some he
  refine ⟨i, hi, _, hikey, h'.setNodeFlag .unchg, ?_⟩
  simp only [CacheAccess.markClean, hfind, some_bind_eq]
  rw [Option.map_eq_bind]
  rfl

theorem markClean {ret : Int} (hmark : s.markClean key now = some (ret, s')) :
    ∃ add' l', Sim z s'.cache add' l' ∧ contents l' = contents l ∧ s'.cacheDumpMin = s.cacheDumpMin := by
  cases he : lookup l key with
  | none =>
    rw [h.markClean_none he] at hmark
    cases hmark
    exact ⟨add, l, h, rfl, rfl⟩
  | some e =>
    obtain ⟨i, -, cache, -, h', heq⟩ := h.markClean_some he now
    rw [heq] at hmark
    obtain ⟨s₁, hlog, hpair⟩ := Option.map_eq_some_iff.1 hmark
    cases hpair
    obtain ⟨hcache, hdump⟩ := writeLog_frame hlog
    exact ⟨i :: add.erase i, { e with flag := .unchg } :: without l key, by rw [hcache]; exact h',
      view_restore he (lookup_some he).2 rfl, hdump⟩

theorem del_none (hkey : lookup l key = none) (now : Int) : s.del key now = some (1, s) := by
  simp only [CacheAccess.del, h.findNode_none hkey, some_bind_eq]

theorem del_some (he : lookup l key = some e) (now : Int) : ∃ cache add', Sim z cache add' (without l key) ∧
      s.del key now = (s.writeLog (0 ≤ s.cacheDumpMin) (recordHead .opDel key) now).map
        fun s => (0, { s with cache := cache }) := by
  obtain ⟨i, -, hikey, hfind, h'⟩ := h.findNode_some he
  obtain ⟨m', hdelete, h'', -⟩ := h'.deleteNode_ok List.mem_cons_self
  rw [(insertAddListHead_frame _ i).key, hikey, without_cons (lookup_some he).2, without_without] at h''
  refine ⟨m', _, h'', ?_⟩
  simp only [CacheAccess.del, hfind, Option.bind_eq_bind, Option.bind_some]
  rw [writeLog_withCache]
  cases s.writeLog (0 ≤ s.cacheDumpMin) (recordHead .opDel key) now with
  | none => rfl
  | some s₁ => simp only [Option.map_some, Option.bind_some, hdelete]

theorem delNode_ok {modbase : Int} (hmod : uint32 modbase ≠ 0) (mobres : Int) :
    ∃ cache add', Sim z cache add' (l.filter fun e => !inResidue modbase mobres e.key) ∧
      s.delNode modbase mobres = some (0, { s with cache := cache }) := by
  obtain ⟨hadds, -, hle⟩ := h.addRep
  unfold CacheAccess.delNode
  split
  · next hhead =>
    obtain rfl := h.eq_nil hhead
    exact ⟨s.cache, add, h, rfl⟩
  next i hhead =>
  obtain ⟨m', hfold, add', h'⟩ := h.deleteNodes (hadds.chain.nodup.filter fun j =>
    inResidue modbase mobres (s.cache.hashNode j).key) List.filter_sublist.subset
  refine ⟨m', add', ?_, ?_⟩
  · convert h' using 1
    obtain ⟨free, chain, cfree, own, bytes, -, -, rfl⟩ := h.rep
    refine List.filter_congr fun e he => ?_
    obtain ⟨j, hj, rfl⟩ := List.mem_map.1 he
    rw [Bool.eq_iff_iff, Bool.not_eq_true', decide_eq_true_iff]
    refine ⟨fun hout k hk hkey => ?_, fun hall => ?_⟩
    · rw [hkey, (List.mem_filter.1 hk).2] at hout
      cases hout
    by_contra hin
    rw [Bool.not_eq_false] at hin
    exact hall j (List.mem_filter.2 ⟨hj, hin⟩) rfl
  rw [if_neg hmod, ← hhead, collect_eq hadds.chain _ (h.nodeTotal ▸ hle)]
  simp only [some_bind_eq, hfold]

theorem markCleanLoop {modbase mobres : Int} {fuel : Nat} {cur : Option Nat}
    (hloop : CacheAccess.markCleanLoop modbase mobres now fuel cur s = some s') :
    ∃ add' l', Sim z s'.cache add' l' ∧ contents l' = contents l ∧ s'.cacheDumpMin = s.cacheDumpMin := by
  induction fuel generalizing cur s add l with
  | zero =>
    cases cur with
    | none =>
      cases hloop
      exact ⟨add, l, h, rfl, rfl⟩
    | some i => cases hloop
  | succ fuel ih =>
    cases cur with
    | none =>
      cases hloop
      exact ⟨add, l, h, rfl, rfl⟩
    | some i =>
      obtain ⟨⟨ret, len, buf⟩, -, hloop⟩ := Option.bind_eq_some_iff.1 hloop
      dsimp only at hloop
      split at hloop
      · cases hloop
        exact ⟨add, l, h, rfl, rfl⟩
      split at hloop
      · cases hloop
      obtain ⟨s₁, hmark, hloop⟩ := Option.bind_eq_some_iff.1 hloop
      obtain ⟨cur, -, hloop⟩ := Option.bind_eq_some_iff.1 hloop
      split at hmark
      · obtain ⟨⟨ret, s₂⟩, hclean, rfl⟩ := Option.map_eq_some_iff.1 hmark
        obtain ⟨add₂, l₂, h₂, hcontents, hdump⟩ := h.markClean hclean
        obtain ⟨add', l', h', hcontents', hdump'⟩ := ih h₂ hloop
        exact ⟨add', l', h', hcontents'.trans hcontents, hdump'.trans hdump⟩
      cases hmark
      exact ih h hloop

end

end Sim

/-- The length that a `set` passes leaves room for a chunk below `INT_MAX`. -/
def Op.Short (z : PoolSizes) : Op → Prop
  | .set _ data _ _ => data.length + z.chunkSize ≤ 2147483647
  | .setExpire _ data _ _ _ => data.length + z.chunkSize ≤ 2147483647
  | _ => True

def Op.after (ret : Int) (contents : TMBHashKey → Option (List UInt8)) : Op → TMBHashKey → Option (List UInt8)
  | .set key data _ _ => if ret = 0 then update contents key (some data) else contents
  | .setExpire key data _ _ _ => if ret = 0 then update contents key (some data) else contents
  | .del key _ => update contents key none
  | .delNode modbase mobres => fun key => if CacheAccess.inResidue modbase mobres key then none else contents key
  | _ => contents

namespace Sim

open CHashMap Lru CacheAccess

variable {z : PoolSizes} {s s' : CacheAccess} {add : List Nat} {l : List Entry} {ret : Int}

theorem setCore (h : Sim z s.cache add l)
    (hd : data.length + z.chunkSize ≤ 2147483647) {expiretime : Option Int} {flag : ENodeFlag}
    (hset : s.setCore key data expiretime flag now = some (ret, s')) : ∃ add' l', Sim z s'.cache add' l' ∧
      contents l' = (if ret = 0 then update (contents l) key (some data) else contents l) ∧
      (ret = 0 ↔ Accepts z l key data) ∧ s'.cacheDumpMin = s.cacheDumpMin := by
  by_cases hacc : Accepts z l key data
  · obtain ⟨cache, add', h', heq⟩ := h.setCore_ok (by omega) hacc expiretime flag now
    rw [heq] at hset
    obtain ⟨s₁, hlog, hpair⟩ := Option.map_eq_some_iff.1 hset
    cases hpair
    obtain ⟨hcache, hdump⟩ := writeLog_frame hlog
    refine ⟨add', _, by rw [hcache]; exact h', ?_, by simp [hacc], hdump⟩
    rw [if_pos rfl]
    exact view_cons_without _ _
  obtain ⟨cache, add', h', heq⟩ := h.setCore_fails (by omega) hacc expiretime flag now
  rw [heq] at hset
  cases hset
  exact ⟨_, _, h', view_touch _, by simp [hacc], rfl⟩

theorem del (h : Sim z s.cache add l) (hdel : s.del key now = some (ret, s')) :
    ∃ add' l', Sim z s'.cache add' l' ∧ contents l' = update (contents l) key none ∧ s'.cacheDumpMin = s.cacheDumpMin := by
  cases he : lookup l key with
  | none =>
    rw [h.del_none he] at hdel
    cases hdel
    refine ⟨add, l, h, ?_, rfl⟩
    rw [eq_comm, update_eq_self_iff]
    exact (view_of_none he).symm
  | some e =>
    obtain ⟨cache, add', h', heq⟩ := h.del_some he now
    rw [heq] at hdel
    obtain ⟨s₁, hlog, hpair⟩ := Option.map_eq_some_iff.1 hdel
    cases hpair
    exact ⟨_, _, h', view_without _, (writeLog_frame hlog).2⟩

theorem exec (h : Sim z s.cache add l) {op : Op} (hshort : op.Short z) (hexec : s.exec op = some (ret, s')) :
    ∃ add' l', Sim z s'.cache add' l' ∧ contents l' = op.after ret (contents l) ∧ s'.cacheDumpMin = s.cacheDumpMin := by
  cases op with
  | set key data flag now =>
    obtain ⟨add', l', h', hcontents, -, hdump⟩ := h.setCore hshort hexec
    exact ⟨add', l', h', hcontents, hdump⟩
  | setExpire key data expiretime flag now =>
    obtain ⟨add', l', h', hcontents, -, hdump⟩ := h.setCore hshort hexec
    exact ⟨add', l', h', hcontents, hdump⟩
  | get key bufSize =>
    obtain ⟨⟨⟨ret, got⟩, s₁⟩, hget, heq⟩ := Option.map_eq_some_iff.1 hexec
    cases heq
    cases he : lookup l key with
    | none =>
      rw [h.get_none he] at hget
      cases hget
      exact ⟨add, l, h, rfl, rfl⟩
    | some e =>
      obtain ⟨cache, add', h', heq⟩ := h.get_some he bufSize
      rw [heq, Option.some.injEq, Prod.mk.injEq] at hget
      obtain ⟨-, rfl⟩ := hget
      exact ⟨add', _, h', view_touch _, rfl⟩
  | getKey key =>
    obtain ⟨⟨⟨ret, got⟩, s₁⟩, hget, heq⟩ := Option.map_eq_some_iff.1 hexec
    cases heq
    cases he : lookup l key with
    | none =>
      rw [h.getKey_none he] at hget
      cases hget
      exact ⟨add, l, h, rfl, rfl⟩
    | some e =>
      obtain ⟨cache, add', got', h', heq⟩ := h.getKey_some he
      rw [heq] at hget
      cases hget
      exact ⟨add', _, h', view_touch _, rfl⟩
  | markClean key now => exact h.markClean hexec
  | markCleanMod modbase mobres now =>
    obtain ⟨s₁, hloop, heq⟩ := Option.bind_eq_some_iff.1 hexec
    cases heq
    exact h.markCleanLoop hloop
  | del key now => exact h.del hexec
  | delNode modbase mobres =>
    by_cases hmod : uint32 modbase = 0
    · -- without a modulus the call only returns from an empty cache
      change s.delNode modbase mobres = some (ret, s') at hexec
      unfold CacheAccess.delNode at hexec
      split at hexec
      · next hhead =>
        cases hexec
        obtain rfl := h.eq_nil hhead
        exact ⟨add, [], h, by funext key; simp [Op.after, contents, view, lookup], rfl⟩
      rw [if_pos hmod] at hexec
      cases hexec
    obtain ⟨cache, add', h', heq⟩ := h.delNode_ok hmod mobres
    change s.delNode modbase mobres = some (ret, s') at hexec
    rw [heq] at hexec
    cases hexec
    exact ⟨add', _, h', view_filter _ _, rfl⟩

end Sim

/-! ### The map -/

def trackedStep (p : (TMBHashKey → Option (List UInt8)) × CacheAccess) (op : Op) :
    Option ((TMBHashKey → Option (List UInt8)) × CacheAccess) :=
  (p.2.exec op).map fun (ret, s) => (op.after ret p.1, s)

/-- `get` with a buffer of `bufSize` bytes answers `d`: that there is no such key, or the data in full. -/
def GetAnswers (s : CacheAccess) (key : TMBHashKey) (bufSize : Nat) : Option (List UInt8) → Prop
  | none => ∃ s', s.get key bufSize = some ((1, none), s')
  | some d => ∃ got s', s.get key bufSize = some ((0, some got), s') ∧ got.dataLen = d.length ∧ got.buf = d

/-- The data has a place in the pool: for a new key a node and its chunks, for an old one the chunks by which it grows. -/
def HasRoom (m : CHashMap) (old : Option (List UInt8)) (data : List UInt8) : Prop :=
  match old with
  | none => m.freeList ≠ none ∧ (Lru.chunksFor m.allocator.chunkSize data.length : Int) ≤ m.allocator.freeTotal
  | some d => (Lru.chunksFor m.allocator.chunkSize data.length : Int) ≤
      Lru.chunksFor m.allocator.chunkSize d.length + m.allocator.freeTotal

def SetAnswers (s : CacheAccess) (key : TMBHashKey) (data : List UInt8) (flag : ENodeFlag) (now : Int)
    (old : Option (List UInt8)) : Prop :=
  ∃ ret s', s.set key data flag now = some (ret, s') ∧ (ret = 0 ↔ HasRoom s.cache old data)

theorem Lru.chunksFor_pos {chunkSize n : Nat} (hsize : 0 < chunkSize) : 0 < Lru.chunksFor chunkSize n ↔ 0 < n := by
  rw [Lru.chunksFor, Nat.div_pos_iff]
  omega

namespace Sim

open CHashMap Lru CacheAccess

variable {z : PoolSizes} {s s' : CacheAccess} {add : List Nat} {l : List Entry} {key : TMBHashKey} {data : List UInt8}

section

variable (h : Sim z s.cache add l)
include h

theorem freeList_ne_none : s.cache.freeList ≠ none ↔ l.length < z.nodeTotal := by
  obtain ⟨free, chain, cfree, own, bytes, hrep, -, -⟩ := h.rep
  have hcounts := (h.counts hrep).1
  have hchain := hrep.hash.nodes.freeChain
  cases free with
  | nil =>
    rw [List.length_nil] at hcounts
    exact ⟨fun hne => absurd hchain hne, fun hlt => by omega⟩
  | cons i free =>
    rw [List.length_cons] at hcounts
    rw [hchain.1]
    exact ⟨fun _ => by omega, fun _ => by simp⟩

/-- The list accepts what has a place in the pool, except empty data under a new key. -/
theorem accepts_iff : Accepts z l key data ↔ HasRoom s.cache (contents l key) data ∧ ¬(contents l key = none ∧ data = []) := by
  obtain ⟨free, chain, cfree, own, bytes, hrep, -, -⟩ := h.rep
  have hchunks := h.freeChunks_eq hrep
  have hpos := chunksFor_pos (n := data.length) z.chunkSize_pos
  rw [List.length_pos_iff] at hpos
  unfold Accepts HasRoom contents view
  rw [h.freeList_ne_none, hrep.chunks.freeTotal, hchunks, h.chunkSize]
  cases lookup l key with
  | none =>
    simp only [Option.bind_none, true_and, Int.ofNat_le]
    tauto
  | some e =>
    simp only [Option.bind_some, reduceCtorEq, false_and, not_false_eq_true, and_true]
    omega

theorem getAnswers_iff {bufSize : Nat} (hbuf : bufSize < 4294967296)
    (hlarge : ∀ d, contents l key = some d → d.length ≤ bufSize) :
    GetAnswers s key bufSize (contents l key) ↔ contents l key = none ∨ bufSize < 2147483648 := by
  cases he : lookup l key with
  | none => simp [contents, view, he, GetAnswers, h.get_none he]
  | some e =>
    have hcontents := contents_of_lookup he
    have hle := hlarge _ hcontents
    obtain ⟨cache, add', -, hget⟩ := h.get_some he bufSize
    rw [hcontents, GetAnswers, hget]
    by_cases hsmall : bufSize < 2147483648
    · have hint : int32 bufSize = bufSize := int32_of_range (by omega) (by omega)
      have hmerged := merged_of_le (d := e.data) (n := int32 bufSize) (by omega)
      simp [gotten, hmerged, hsmall]
    have hint : int32 bufSize < 0 := by
      unfold int32
      omega
    have hmerged := merged_of_lt (d := e.data) (n := int32 bufSize) (by omega)
    simp [gotten, hmerged, hsmall]

theorem setAnswers_iff (hd : data.length + z.chunkSize ≤ 2147483647) (flag : ENodeFlag) (now : Int) :
    SetAnswers s key data flag now (contents l key) ↔ ¬(contents l key = none ∧ data = [] ∧ s.cache.freeList ≠ none) ∧
      ¬(0 ≤ s.cacheDumpMin ∧ flag = ENodeFlag.dirty ∧ HasRoom s.cache (contents l key) data ∧
        maxBinlogItemLen < data.length + 36) := by
  have haccepts : Accepts z l key data ↔ _ := h.accepts_iff
  by_cases hacc : Accepts z l key data
  · obtain ⟨hroom, hnew⟩ := haccepts.1 hacc
    obtain ⟨cache, add', -, hset⟩ := h.setCore_ok (by omega) hacc none flag now
    have hlog := writeLog_eq_none { s with cache := cache } (0 ≤ s.cacheDumpMin ∧ flag = ENodeFlag.dirty)
      (setRecord_ne_nil key data 0) now
    rw [length_setRecord, decide_eq_true_iff] at hlog
    unfold SetAnswers CacheAccess.set
    rw [hset]
    cases hwrite : { s with cache := cache }.writeLog (0 ≤ s.cacheDumpMin ∧ flag = ENodeFlag.dirty) (setRecord key data 0) now with
    | none =>
      obtain ⟨⟨hdump, hflag⟩, hlong⟩ := hlog.1 hwrite
      simp only [Option.getD_none, hwrite, Option.map_none, reduceCtorEq, false_and, exists_false, false_iff]
      exact fun hall => hall.2 ⟨hdump, hflag, hroom, by omega⟩
    | some s₁ =>
      have hquiet : ¬((0 ≤ s.cacheDumpMin ∧ flag = ENodeFlag.dirty) ∧ maxBinlogItemLen < data.length + 28 + 8) := fun hboth => by
        rw [hlog.2 hboth] at hwrite
        cases hwrite
      simp only [Option.getD_none, hwrite, Option.map_some]
      refine ⟨fun _ => ⟨fun hbad => hnew ⟨hbad.1, hbad.2.1⟩, fun hbad => hquiet ⟨⟨hbad.1, hbad.2.1⟩, ?_⟩⟩, fun _ => ?_⟩
      · have := hbad.2.2.2
        omega
      exact ⟨0, s₁, rfl, by simp [hroom]⟩
  obtain ⟨cache, add', -, hset⟩ := h.setCore_fails (by omega) hacc none flag now
  have hanswer : SetAnswers s key data flag now (contents l key) ↔ ¬HasRoom s.cache (contents l key) data := by
    unfold SetAnswers CacheAccess.set
    simp [hset]
  rw [hanswer]
  by_cases hroom : HasRoom s.cache (contents l key) data
  · have hnew : contents l key = none ∧ data = [] := by
      by_contra hnew
      exact hacc (haccepts.2 ⟨hroom, hnew⟩)
    refine iff_of_false (not_not.2 hroom) fun hall => hall.1 ⟨hnew.1, hnew.2, ?_⟩
    rw [hnew.1] at hroom
    exact hroom.1
  refine iff_of_true hroom ⟨fun hbad => hroom ?_, fun hbad => hroom hbad.2.2.1⟩
  obtain ⟨free, chain, cfree, own, bytes, hrep, -, -⟩ := h.rep
  rw [hbad.1, hbad.2.1]
  refine ⟨hbad.2.2, ?_⟩
  have hzero : chunksFor s.cache.allocator.chunkSize ([] : List UInt8).length = 0 := by
    rw [h.chunkSize]
    exact Nat.eq_zero_of_not_pos fun hpos => absurd ((chunksFor_pos z.chunkSize_pos).1 hpos) (by simp)
  rw [hzero, hrep.chunks.freeTotal]
  omega

end

end Sim

namespace CacheAccess

open Lru

variable {z : PoolSizes}

theorem openInit_sim {memSize : Int} {s : CacheAccess} (hopen : openInit memSize z = .ok s) (dumpMin logSize logNum : Int) :
    Sim z (s.coreInit dumpMin logSize logNum).cache [] [] := by
  rw [openInit_cache hopen]
  exact Sim.init z

/-- After every run of calls with short data the cache stands for the map that the calls have built up. `get` answers with
the data, unless the size of its buffer is read as a negative number. `set` returns `0` exactly when the data has a place,
but for empty data under a new key, and for data that is too long for the log. A `set` that returns `1` changes no
answer. -/
theorem refinesMap_iff (z : PoolSizes) (memSize : Int) (s : CacheAccess) (hopen : openInit memSize z = .ok s)
    (dumpMin logSize logNum : Int) (ops : List Op) (hshort : ∀ op ∈ ops, op.Short z)
    (c : TMBHashKey → Option (List UInt8)) (t : CacheAccess)
    (hrun : Run.run trackedStep (fun _ => none, s.coreInit dumpMin logSize logNum) ops = some (c, t)) :
    (∀ key bufSize, bufSize < 4294967296 → (∀ d, c key = some d → d.length ≤ bufSize) →
      (GetAnswers t key bufSize (c key) ↔ c key = none ∨ bufSize < 2147483648)) ∧
    ∀ key data flag now, data.length + z.chunkSize ≤ 2147483647 →
      (SetAnswers t key data flag now (c key) ↔
        ¬(c key = none ∧ data = [] ∧ t.cache.freeList ≠ none) ∧
        ¬(0 ≤ dumpMin ∧ flag = ENodeFlag.dirty ∧ HasRoom t.cache (c key) data ∧ maxBinlogItemLen < data.length + 36)) ∧
      ∀ t', t.set key data flag now = some (1, t') → ∀ key' bufSize,
        (t'.get key' bufSize).map Prod.fst = (t.get key' bufSize).map Prod.fst := by
  obtain ⟨add, l, hsim, hc, hdump⟩ := Run.invariant
    (P := fun p => ∃ add l, Sim z p.2.cache add l ∧ contents l = p.1 ∧ p.2.cacheDumpMin = dumpMin)
    (fun p op p' hop ⟨add, l, hsim, hc, hdump⟩ hstep => by
      obtain ⟨⟨ret, s'⟩, hexec, rfl⟩ := Option.map_eq_some_iff.1 hstep
      obtain ⟨add', l', hsim', hc', hdump'⟩ := hsim.exec (hshort op hop) hexec
      exact ⟨add', l', hsim', hc'.trans (by rw [hc]), hdump'.trans hdump⟩)
    ⟨[], [], openInit_sim hopen dumpMin logSize logNum, rfl, rfl⟩ hrun
  dsimp only at hsim hc hdump
  subst hc hdump
  refine ⟨fun key bufSize hbuf hlarge => hsim.getAnswers_iff hbuf hlarge, fun key data flag now hd =>
    ⟨hsim.setAnswers_iff hd flag now, fun t' hset key' bufSize => ?_⟩⟩
  have hacc : ¬Accepts z l key data := fun hacc => by
    obtain ⟨-, -, -, -, hret, -⟩ := hsim.setCore hd hset
    exact absurd (hret.2 hacc) (by decide)
  obtain ⟨cache, add', hsim', heq⟩ := hsim.setCore_fails (by omega) hacc none flag now
  rw [CacheAccess.set, heq] at hset
  cases hset
  rw [hsim.get_fst, Sim.get_fst (s := { t with cache := cache }) hsim', lookup_touch]

/-- Three bytes written and read back. -/
theorem refinesMap_small : ∃ s c t, openInit 1000 PoolSizes.small = .ok s ∧
    Run.run trackedStep (fun _ => none, s.coreInit (-1) 20000000 8) [.set TMBHashKey.zero [1, 2, 3] .dirty 7] = some (c, t) ∧
    c TMBHashKey.zero = some [1, 2, 3] ∧ GetAnswers t TMBHashKey.zero 16 (c TMBHashKey.zero) := by
  obtain ⟨s, hopen⟩ : ∃ s, openInit 1000 PoolSizes.small = .ok s := ⟨_, rfl⟩
  have hanswer : (Run.run trackedStep (fun _ => none, s.coreInit (-1) 20000000 8)
      [.set TMBHashKey.zero [1, 2, 3] .dirty 7]).map (fun p => p.1 TMBHashKey.zero) = some (some [1, 2, 3]) := by
    cases hopen
    decide +kernel
  obtain ⟨⟨c, t⟩, hrun, hc⟩ := Option.map_eq_some_iff.1 hanswer
  dsimp only at hc
  refine ⟨s, c, t, hopen, hrun, hc, ?_⟩
  refine ((refinesMap_iff PoolSizes.small 1000 s hopen (-1) 20000000 8 _ ?_ c t hrun).1 TMBHashKey.zero 16 (by decide) ?_).2
    (.inr (by decide))
  · simp [Op.Short, PoolSizes.small]
  rintro d hd
  rw [hc] at hd
  cases hd
  decide

/-- Empty data has a place in the empty small pool, but `set` returns `1`. -/
theorem set_empty_fails : ∃ s t, openInit 1000 PoolSizes.small = .ok s ∧ HasRoom (s.coreInit (-1) 20000000 8).cache none [] ∧
    (s.coreInit (-1) 20000000 8).set TMBHashKey.zero [] .dirty 0 = some (1, t) := by
  obtain ⟨s, hopen⟩ : ∃ s, openInit 1000 PoolSizes.small = .ok s := ⟨_, rfl⟩
  have hset : ((s.coreInit (-1) 20000000 8).set TMBHashKey.zero [] .dirty 0).map Prod.fst = some 1 := by
    cases hopen
    decide +kernel
  obtain ⟨⟨ret, t⟩, hset, rfl⟩ := Option.map_eq_some_iff.1 hset
  refine ⟨s, t, hopen, ?_, hset⟩
  cases hopen
  exact ⟨by decide, by decide⟩

end CacheAccess

end Mysql51.Cache
