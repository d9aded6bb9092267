import Mysql51.Cache.WellFormed

/-!
# Runs of the cache

The pool that `open` initialises is well formed. `Maintained` collects what has to be shown of the operations of
`CHashMap` for a property of the pool to survive every call of the interface; a condition on the data of `set` may be
part of it.
-/

namespace Mysql51.Cache

open Link Option List

namespace CHashMap

private def blank (nodeTotal bucketSize nChunks chunkSize : Nat) : CHashMap :=
  { nodeTotal, bucketSize, usedNodeNum := 0, addHead := none, addTail := none, freeList := none,
    bucket := fun _ => none, hashNode := fun _ => THashNode.init,
    allocator := CChunkAllocator.initPoolData nChunks chunkSize }

private def pushed (m : CHashMap) (n : Nat) : CHashMap :=
  (List.range n).foldl (fun m i => (m.modify i fun _ => THashNode.init).freeListInsert i) m

private theorem pushed_succ (m : CHashMap) (n : Nat) :
    m.pushed (n + 1) = ((m.pushed n).modify n fun _ => THashNode.init).freeListInsert n := by
  simp [pushed, range_succ]

/-- After `n` nodes are pushed the free list holds them, last first, and nothing else has changed. -/
private theorem pushed_rep (nodeTotal bucketSize nChunks chunkSize n : Nat) :
    NodeRep ((blank nodeTotal bucketSize nChunks chunkSize).pushed n) (List.range n).reverse (fun _ => []) ∧
    NodeFrame (blank nodeTotal bucketSize nChunks chunkSize) ((blank nodeTotal bucketSize nChunks chunkSize).pushed n) ∧
    ((blank nodeTotal bucketSize nChunks chunkSize).pushed n).usedNodeNum = 0 := by
  induction n with
  | zero => exact ⟨⟨rfl, fun _ => rfl, fun _ => trivial, by simp, by simp⟩, NodeFrame.refl _, rfl⟩
  | succ n ih =>
    obtain ⟨hrep, hframe, hcount⟩ := ih
    have hdet : NodeRep.Detached (List.range n).reverse (fun _ => []) n := ⟨by simp, by simp⟩
    rw [pushed_succ, range_succ, reverse_append]
    refine ⟨(hrep.modify_of_detached hdet _).freeListInsert hdet, ?_, ?_⟩
    · -- the node written is still as `blank` has it, up to its node links
      refine NodeFrame.setFreeList (NodeFrame.setNodeNext ?_ _ _) _
      refine ⟨hframe.nodeTotal, hframe.bucketSize, hframe.addHead, hframe.addTail, hframe.allocator, fun j => ?_⟩
      by_cases hj : j = n
      · subst hj
        rw [hashNode_modify_self]
        rfl
      rw [hashNode_modify_of_ne hj]
      exact hframe.node j
    exact (freeListInsert_links _ n).2.2.2.2.trans hcount

theorem initPoolData_rep (nodeTotal bucketSize nChunks chunkSize : Nat) :
    HashRep (initPoolData nodeTotal bucketSize nChunks chunkSize) (List.range nodeTotal).reverse (fun _ => []) [] := by
  obtain ⟨hrep, hframe, hcount⟩ := pushed_rep nodeTotal bucketSize nChunks chunkSize nodeTotal
  refine ⟨hrep, hframe.addRep ⟨rfl, trivial, rfl, fun _ _ => ⟨rfl, rfl⟩⟩, by simp, ?_, by simp, hcount⟩
  have htotal : (initPoolData nodeTotal bucketSize nChunks chunkSize).nodeTotal = nodeTotal := hframe.nodeTotal
  rw [append_nil, htotal]
  exact reverse_perm _

theorem initPoolData_frame (nodeTotal bucketSize nChunks chunkSize : Nat) :
    (initPoolData nodeTotal bucketSize nChunks chunkSize).nodeTotal = nodeTotal ∧
    (initPoolData nodeTotal bucketSize nChunks chunkSize).bucketSize = bucketSize ∧
    (initPoolData nodeTotal bucketSize nChunks chunkSize).allocator = CChunkAllocator.initPoolData nChunks chunkSize :=
  have hframe := (pushed_rep nodeTotal bucketSize nChunks chunkSize nodeTotal).2.1
  ⟨hframe.nodeTotal, hframe.bucketSize, hframe.allocator⟩

theorem initPoolData_ok (nodeTotal bucketSize nChunks chunkSize : Nat) :
    HashOk nodeTotal bucketSize (initPoolData nodeTotal bucketSize nChunks chunkSize) [] :=
  have hframe := initPoolData_frame nodeTotal bucketSize nChunks chunkSize
  ⟨hframe.1, hframe.2.1, _, _, initPoolData_rep nodeTotal bucketSize nChunks chunkSize⟩

/-- The walk of `del_node` collects the nodes of the add list that pass the test, in order. -/
theorem collect_eq {m : CHashMap} {l : List Nat} {hdr : Option Nat} (hl : Chain m.addNext hdr l)
    (test : TMBHashKey → Bool) {fuel : Nat} (hfuel : l.length ≤ fuel) :
    m.collect test fuel hdr = some (l.filter fun j => test (m.hashNode j).key) := by
  induction l generalizing hdr fuel with
  | nil =>
    rw [chain_nil] at hl
    subst hl
    cases fuel <;> rfl
  | cons j l ih =>
    obtain ⟨rfl, hl⟩ := hl
    cases fuel with
    | zero => simp at hfuel
    | succ fuel =>
      rw [length_cons, Nat.add_le_add_iff_right] at hfuel
      simp only [collect, ih hl hfuel, Machine.some_bind_eq, filter_cons]

end CHashMap

theorem CacheAccess.writeLog_frame {s s' : CacheAccess} {wanted : Bool} {record : List UInt8} {now : Int}
    (h : s.writeLog wanted record now = some s') : s'.cache = s.cache ∧ s'.cacheDumpMin = s.cacheDumpMin := by
  unfold writeLog at h
  split at h
  · split at h
    · obtain ⟨p, -, rfl⟩ := map_eq_some_iff.1 h
      exact ⟨rfl, rfl⟩
    cases h
  cases h
  exact ⟨rfl, rfl⟩

/-- A property of a pool and its used nodes that the operations of `CHashMap` keep, `replace_node` under a condition. -/
structure Maintained (P : CHashMap → List Nat → Prop) (ok : CHashMap → TMBHashKey → Int → Prop) : Prop where
  adds : ∀ {m add}, P m add → AddRep m add ∧ add.length ≤ m.nodeTotal
  find : ∀ {m m' add key node}, P m add → m.findNode key = some (node, m') →
    ∃ add', P m' add' ∧ ∀ i, node = some i → i ∈ add'
  replace : ∀ {m m' add key newData newLen now node}, P m add → -2147483648 ≤ newLen → newLen < 2147483648 →
    ok m key newLen → m.replaceNode key newData newLen now = some (node, m') → ∃ add', P m' add'
  flag : ∀ {m add} i flag, P m add → P (m.setNodeFlag i flag) add
  expire : ∀ {m add} i expiretime, P m add → P (m.setExpiretime i expiretime) add
  delete : ∀ {m m' add i}, P m add → i ∈ add → m.deleteNode i = some m' → P m' (add.erase i)

def Op.Meets (ok : CHashMap → TMBHashKey → Int → Prop) (m : CHashMap) : Op → Prop
  | .set key data _ _ => ok m key (Machine.int32 data.length)
  | .setExpire key data _ _ _ => ok m key (Machine.int32 data.length)
  | _ => True

namespace Maintained

open CHashMap CacheAccess

variable {P : CHashMap → List Nat → Prop} {ok : CHashMap → TMBHashKey → Int → Prop} (hP : Maintained P ok)
  {s s' : CacheAccess} {add : List Nat}
include hP

variable {key : TMBHashKey} {now ret : Int}

theorem setCore (h : P s.cache add) {data : List UInt8} {expiretime : Option Int} {flag : ENodeFlag}
    (hok : ok s.cache key (Machine.int32 data.length)) (hset : s.setCore key data expiretime flag now = some (ret, s')) :
    ∃ add', P s'.cache add' := by
  obtain ⟨⟨node, cache⟩, hreplace, hset⟩ := bind_eq_some_iff.1 hset
  have hrange := Machine.int32_range data.length
  obtain ⟨add', h'⟩ := hP.replace h hrange.1 hrange.2 hok hreplace
  cases node with
  | none =>
    cases hset
    exact ⟨add', h'⟩
  | some i =>
    obtain ⟨s₁, hlog, hset⟩ := bind_eq_some_iff.1 hset
    cases hset
    rw [(writeLog_frame hlog).1]
    cases expiretime with
    | none => exact ⟨add', hP.flag i flag h'⟩
    | some t => exact ⟨add', hP.expire i t (hP.flag i flag h')⟩

theorem markClean (h : P s.cache add) (hmark : s.markClean key now = some (ret, s')) : ∃ add', P s'.cache add' := by
  obtain ⟨⟨node, cache⟩, hfind, hmark⟩ := bind_eq_some_iff.1 hmark
  obtain ⟨add', h', -⟩ := hP.find h hfind
  cases node with
  | none =>
    cases hmark
    exact ⟨add', h'⟩
  | some i =>
    obtain ⟨s₁, hlog, hmark⟩ := bind_eq_some_iff.1 hmark
    cases hmark
    rw [(writeLog_frame hlog).1]
    exact ⟨add', hP.flag i .unchg h'⟩

theorem del (h : P s.cache add) (hdel : s.del key now = some (ret, s')) : ∃ add', P s'.cache add' := by
  obtain ⟨⟨node, cache⟩, hfind, hdel⟩ := bind_eq_some_iff.1 hdel
  obtain ⟨add', h', hmem⟩ := hP.find h hfind
  cases node with
  | none =>
    cases hdel
    exact ⟨add', h'⟩
  | some i =>
    obtain ⟨s₁, hlog, hdel⟩ := bind_eq_some_iff.1 hdel
    obtain ⟨cache', hdelete, heq⟩ := bind_eq_some_iff.1 hdel
    cases heq
    rw [(writeLog_frame hlog).1] at hdelete
    exact ⟨_, hP.delete h' (hmem i rfl) hdelete⟩

theorem deleteNodes {v : List Nat} {m m' : CHashMap} (h : P m add) (hnd : v.Nodup) (hsub : v ⊆ add)
    (hfold : v.foldlM CHashMap.deleteNode m = some m') : ∃ add', P m' add' := by
  induction v generalizing m add with
  | nil =>
    cases hfold
    exact ⟨add, h⟩
  | cons i v ih =>
    obtain ⟨m₁, hdelete, hfold⟩ := bind_eq_some_iff.1 hfold
    obtain ⟨hi, hnd⟩ := nodup_cons.1 hnd
    refine ih (hP.delete h (hsub (by simp)) hdelete) hnd (fun j hj => ?_) hfold
    exact ((hP.adds h).1.chain.nodup.mem_erase_iff).2 ⟨ne_of_mem_of_not_mem hj hi, hsub (by simp [hj])⟩

theorem delNode (h : P s.cache add) {modbase mobres : Int} (hdel : s.delNode modbase mobres = some (ret, s')) :
    ∃ add', P s'.cache add' := by
  obtain ⟨hadds, hlen⟩ := hP.adds h
  unfold CacheAccess.delNode at hdel
  split at hdel
  · cases hdel
    exact ⟨add, h⟩
  rename_i i hhead
  split at hdel
  · cases hdel
  obtain ⟨v, hcollect, hdel⟩ := bind_eq_some_iff.1 hdel
  obtain ⟨cache, hfold, heq⟩ := bind_eq_some_iff.1 hdel
  cases heq
  rw [← hhead, collect_eq hadds.chain _ hlen] at hcollect
  cases hcollect
  exact hP.deleteNodes h (hadds.chain.nodup.filter _) filter_sublist.subset hfold

theorem markCleanLoop {modbase mobres : Int} {fuel : Nat} {cur : Option Nat} (h : P s.cache add)
    (hloop : CacheAccess.markCleanLoop modbase mobres now fuel cur s = some s') : ∃ add', P s'.cache add' := by
  induction fuel generalizing cur s add with
  | zero =>
    cases cur with
    | none =>
      cases hloop
      exact ⟨add, h⟩
    | some i => cases hloop
  | succ fuel ih =>
    cases cur with
    | none =>
      cases hloop
      exact ⟨add, h⟩
    | some i =>
      obtain ⟨⟨ret, len, buf⟩, -, hloop⟩ := bind_eq_some_iff.1 hloop
      dsimp only at hloop
      split at hloop
      · cases hloop
        exact ⟨add, h⟩
      split at hloop
      · cases hloop
      obtain ⟨s₁, hmark, hloop⟩ := bind_eq_some_iff.1 hloop
      obtain ⟨cur, -, hloop⟩ := bind_eq_some_iff.1 hloop
      split at hmark
      · obtain ⟨⟨ret, s₂⟩, hclean, rfl⟩ := map_eq_some_iff.1 hmark
        obtain ⟨add', h'⟩ := hP.markClean h hclean
        exact ih h' hloop
      cases hmark
      exact ih h hloop

theorem exec (h : P s.cache add) {op : Op} (hok : op.Meets ok s.cache) (hexec : s.exec op = some (ret, s')) :
    ∃ add', P s'.cache add' := by
  cases op with
  | set key data flag now => exact hP.setCore h hok hexec
  | setExpire key data expiretime flag now => exact hP.setCore h hok hexec
  | get key bufSize =>
    obtain ⟨⟨⟨ret, got⟩, s₁⟩, hget, heq⟩ := map_eq_some_iff.1 hexec
    cases heq
    obtain ⟨⟨node, cache⟩, hfind, hget⟩ := bind_eq_some_iff.1 hget
    obtain ⟨add', h', -⟩ := hP.find h hfind
    cases node with
    | none =>
      cases hget
      exact ⟨add', h'⟩
    | some i =>
      obtain ⟨⟨ret, len, buf⟩, -, hget⟩ := bind_eq_some_iff.1 hget
      cases hget
      exact ⟨add', h'⟩
  | getKey key =>
    obtain ⟨⟨⟨ret, got⟩, s₁⟩, hget, heq⟩ := map_eq_some_iff.1 hexec
    cases heq
    obtain ⟨⟨node, cache⟩, hfind, hget⟩ := bind_eq_some_iff.1 hget
    obtain ⟨add', h', -⟩ := hP.find h hfind
    cases node <;> cases hget <;> exact ⟨add', h'⟩
  | markClean key now => exact hP.markClean h hexec
  | markCleanMod modbase mobres now =>
    obtain ⟨s₁, hloop, heq⟩ := bind_eq_some_iff.1 hexec
    cases heq
    exact hP.markCleanLoop h hloop
  | del key now => exact hP.del h hexec
  | delNode modbase mobres => exact hP.delNode h hexec

theorem step (h : P s.cache add) {op : Op} (hok : op.Meets ok s.cache) (hstep : s.step op = some s') :
    ∃ add', P s'.cache add' := by
  obtain ⟨⟨ret, s₁⟩, hexec, rfl⟩ := map_eq_some_iff.1 hstep
  exact hP.exec h hok hexec

end Maintained

theorem HashOk.maintained (nodeTotal bucketSize : Nat) : Maintained (HashOk nodeTotal bucketSize) fun _ _ _ => True where
  adds := fun ⟨_, _, _, _, hrep⟩ => ⟨hrep.adds, hrep.add_length_le⟩
  find := fun h hfind =>
    have ⟨add', h', hmem, _⟩ := h.findNode hfind
    ⟨add', h', hmem⟩
  replace := fun h _ _ _ hreplace => h.replaceNode hreplace
  flag := fun i flag h =>
    have ⟨_, _, hrep⟩ := h.2.2
    h.of_sizes rfl rfl (hrep.setNodeFlag i flag)
  expire := fun i expiretime h =>
    have ⟨_, _, hrep⟩ := h.2.2
    h.of_sizes rfl rfl (hrep.setExpiretime i expiretime)
  delete := fun h hi hdelete => h.deleteNode hi hdelete

theorem Op.meets_true (m : CHashMap) (op : Op) : op.Meets (fun _ _ _ => True) m := by cases op <;> trivial

theorem CacheAccess.step_wellFormed {nodeTotal bucketSize : Nat} (s : CacheAccess) (op : Op) (s' : CacheAccess)
    (h : WellFormed nodeTotal bucketSize s.cache) (hstep : s.step op = some s') : WellFormed nodeTotal bucketSize s'.cache := by
  obtain ⟨add, h⟩ := h
  exact (HashOk.maintained nodeTotal bucketSize).step h (op.meets_true _) hstep

end Mysql51.Cache
