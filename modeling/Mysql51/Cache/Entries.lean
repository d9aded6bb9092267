import Mathlib.Algebra.BigOperators.Group.List.Basic
import Mysql51.Cache.Pool

/-!
# The cache as a list of entries

What the cache is for: a list of entries with distinct keys, the most recently used first, of limited length and limited
size. `Sim z m add l` says that the pool `m` stands for the list `l`, node by node in the order `add`; the operations of
`CHashMap` become operations on the list.
-/

namespace Mysql51.Cache

open Link Machine Function List

structure Entry where
  key : TMBHashKey
  data : List UInt8
  flag : ENodeFlag
  time : Int
  expiretime : Int
  deriving DecidableEq

/-! ### Lists of entries -/

namespace Lru

def chunksFor (chunkSize n : Nat) : Nat := (n + chunkSize - 1) / chunkSize

variable (z : PoolSizes) (l : List Entry) (key : TMBHashKey)

def lookup : Option Entry := l.find? fun e => e.key = key

def without : List Entry := l.filter fun e => e.key ≠ key

def usedChunks : Nat := (l.map fun e => chunksFor z.chunkSize e.data.length).sum

def freeChunks : Nat := z.nChunks - usedChunks z l

def touch : List Entry :=
  match lookup l key with
  | none => l
  | some e => e :: without l key

/-- The new data has a place: for a key not yet there a node and the chunks, and at least one of them; otherwise the
chunks by which it grows. -/
def Accepts (data : List UInt8) : Prop :=
  match lookup l key with
  | none => l.length < z.nodeTotal ∧ 0 < chunksFor z.chunkSize data.length ∧
      chunksFor z.chunkSize data.length ≤ freeChunks z l
  | some e => chunksFor z.chunkSize data.length ≤ chunksFor z.chunkSize e.data.length + freeChunks z l

instance (data : List UInt8) : Decidable (Accepts z l key data) :=
  match h : lookup l key with
  | none => decidable_of_iff (l.length < z.nodeTotal ∧ 0 < chunksFor z.chunkSize data.length ∧
      chunksFor z.chunkSize data.length ≤ freeChunks z l) (by rw [Accepts, h])
  | some e => decidable_of_iff (chunksFor z.chunkSize data.length ≤ chunksFor z.chunkSize e.data.length + freeChunks z l)
      (by rw [Accepts, h])

variable {z l key}

theorem lookup_eq_none : lookup l key = none ↔ ∀ e ∈ l, e.key ≠ key := by
  simp [lookup, List.find?_eq_none]

variable {e : Entry}

theorem lookup_some (h : lookup l key = some e) : e ∈ l ∧ e.key = key :=
  ⟨mem_of_find?_eq_some h, by simpa using List.find?_some h⟩

theorem lookup_eq_some (hnd : (l.map Entry.key).Nodup) (he : e ∈ l) : lookup l e.key = some e := by
  cases hcase : lookup l e.key with
  | none => exact absurd rfl (lookup_eq_none.1 hcase e he)
  | some e' =>
    obtain ⟨hmem, hkey⟩ := lookup_some hcase
    rw [inj_on_of_nodup_map hnd hmem he hkey]

theorem freeChunks_perm {l' : List Entry} (h : l'.Perm l) : freeChunks z l' = freeChunks z l := by
  rw [freeChunks, freeChunks, usedChunks, usedChunks, (h.map _).sum_eq]

theorem mem_without : e ∈ without l key ↔ e ∈ l ∧ e.key ≠ key := by simp [without]

theorem touch_of_none (h : lookup l key = none) : touch l key = l := by rw [touch, h]

theorem touch_of_some (h : lookup l key = some e) : touch l key = e :: without l key := by rw [touch, h]

theorem without_of_none (h : lookup l key = none) : without l key = l :=
  filter_eq_self.2 fun e he => by simpa using lookup_eq_none.1 h e he

theorem without_cons (he : e.key = key) : without (e :: l) key = without l key := by simp [without, he]

theorem without_without : without (without l key) key = without l key := by simp [without]

theorem lookup_without_of_ne {key' : TMBHashKey} (hne : key' ≠ key) : lookup (without l key) key' = lookup l key' := by
  unfold lookup without
  rw [List.find?_filter]
  congr 1
  funext e
  by_cases he : e.key = key'
  · simp [he, hne]
  · simp [he]

theorem lookup_without_self : lookup (without l key) key = none :=
  lookup_eq_none.2 fun _ he => (mem_without.1 he).2

theorem lookup_cons_self : lookup (e :: l) e.key = some e := by simp [lookup]

theorem lookup_cons_of_ne (hne : e.key ≠ key) : lookup (e :: l) key = lookup l key := by
  simp [lookup, hne]

theorem lookup_cons_without (e : Entry) (key : TMBHashKey) :
    lookup (e :: without l e.key) key = if key = e.key then some e else lookup l key := by
  by_cases hkey : key = e.key
  · rw [if_pos hkey, hkey, lookup_cons_self]
  · rw [if_neg hkey, lookup_cons_of_ne (Ne.symm hkey), lookup_without_of_ne hkey]

theorem lookup_touch (key' : TMBHashKey) : lookup (touch l key) key' = lookup l key' := by
  cases h : lookup l key with
  | none => rw [touch_of_none h]
  | some e =>
    obtain ⟨-, rfl⟩ := lookup_some h
    rw [touch_of_some h, lookup_cons_without]
    split
    · next hkey => rw [hkey, h]
    · rfl

variable (g : Entry → Option (List UInt8))

def view (l : List Entry) (key : TMBHashKey) : Option (List UInt8) := (lookup l key).bind g

def contents : List Entry → TMBHashKey → Option (List UInt8) := view fun e => some e.data

def dirty : List Entry → TMBHashKey → Option (List UInt8) := view fun e => if e.flag = .dirty then some e.data else none

theorem contents_of_lookup (he : lookup l key = some e) : contents l key = some e.data := by
  rw [contents, view, he, Option.bind_some]

theorem view_of_none {g : Entry → Option (List UInt8)} (h : lookup l key = none) : view g l key = none := by
  rw [view, h, Option.bind_none]

theorem view_touch : view g (touch l key) = view g l :=
  funext fun key' => by rw [view, lookup_touch, view]

theorem view_cons_without (e : Entry) : view g (e :: without l e.key) = update (view g l) e.key (g e) := by
  funext key
  rw [view, lookup_cons_without, update_apply]
  split <;> rfl

theorem view_restore {g : Entry → Option (List UInt8)} {e' : Entry} (he : lookup l key = some e) (hkey : e'.key = key)
    (hg : g e' = g e) : view g (e' :: without l key) = view g l := by
  rw [← hkey, view_cons_without, hg, update_eq_self_iff, view, hkey, he, Option.bind_some]

theorem view_without : view g (without l key) = update (view g l) key none := by
  funext key'
  rw [view, update_apply]
  split
  · next hkey => rw [hkey, lookup_without_self, Option.bind_none]
  · next hkey => rw [lookup_without_of_ne hkey, view]

theorem view_filter (test : TMBHashKey → Bool) :
    view g (l.filter fun e => !test e.key) = fun key => if test key then none else view g l key := by
  funext key
  rw [view, view, lookup, lookup, List.find?_filter]
  split
  · next htest =>
    rw [List.find?_eq_none.2 fun e _ => ?_]
    · rfl
    rw [decide_eq_true_iff, decide_eq_true_iff]
    rintro ⟨hfalse, rfl⟩
    rw [htest] at hfalse
    cases hfalse
  next htest =>
  congr 2
  funext e
  by_cases he : e.key = key
  · simp [he, htest]
  · simp [he]

end Lru

/-! ### The pool and its list -/

def CHashMap.entry (m : CHashMap) (bytes : Nat → List UInt8) (i : Nat) : Entry :=
  ⟨(m.hashNode i).key, bytes i, (m.hashNode i).flag, (m.hashNode i).addInfo1, (m.hashNode i).addInfo2⟩

variable {m : CHashMap} {bytes : Nat → List UInt8} {own : Nat → List Nat}

theorem CHashMap.entry_of_body {i : Nat} {node : THashNode} {d : List UInt8}
    (hbody : (m.hashNode i).body = node.body) (hbytes : bytes i = d) :
    m.entry bytes i = ⟨node.key, d, node.flag, node.addInfo1, node.addInfo2⟩ := by
  have hkey := congrArg THashNode.key hbody
  have hflag := congrArg THashNode.flag hbody
  have htime := congrArg THashNode.addInfo1 hbody
  have hexp := congrArg THashNode.addInfo2 hbody
  unfold THashNode.body at hkey hflag htime hexp
  dsimp only at hkey hflag htime hexp
  rw [entry, hkey, hflag, htime, hexp, hbytes]

theorem CHashMap.entry_congr {m' : CHashMap} {bytes' : Nat → List UInt8} {i : Nat}
    (hbody : (m'.hashNode i).body = (m.hashNode i).body) (hbytes : bytes' i = bytes i) :
    m'.entry bytes' i = m.entry bytes i := entry_of_body hbody hbytes

/-- The pool stands for the list `l`: the `k`-th node of its add list stores the `k`-th entry. -/
structure Sim (z : PoolSizes) (m : CHashMap) (add : List Nat) (l : List Entry) : Prop where
  nodeTotal : m.nodeTotal = z.nodeTotal
  bucketSize : m.bucketSize = z.bucketSize
  chunkTotal : m.allocator.chunkTotal = z.nChunks
  chunkSize : m.allocator.chunkSize = z.chunkSize
  rep : ∃ free chain cfree own bytes, PoolRep m free chain add cfree own ∧ DataRep m add own bytes ∧
    l = add.map (m.entry bytes)
  fits : ∀ e ∈ l, e.data.length + z.chunkSize ≤ 2147483648

theorem DataRep.mono {add rest : List Nat}
    (hdata : DataRep m add own bytes) (hsub : rest ⊆ add) : DataRep m rest own bytes := fun j hj => hdata j (hsub hj)

theorem DataRep.of_frame {m' : CHashMap} {rest : List Nat}
    (hdata : DataRep m rest own bytes) (hframe : AllocFrame (rest.flatMap own) m.allocator m'.allocator)
    (hbody : ∀ j ∈ rest, (m'.hashNode j).body = (m.hashNode j).body) : DataRep m' rest own bytes := by
  intro j hj
  refine ⟨hframe.holds (ChunkRep.own_subset hj) (hdata j hj).1, ?_⟩
  rw [(THashNode.chunk_eq (hbody j hj)).2]
  exact (hdata j hj).2

theorem DataRep.cons {m : CHashMap} {rest mine : List Nat} {own : Nat → List Nat} {bytes : Nat → List UInt8} {i : Nat}
    {d : List UInt8} (hi : i ∉ rest) (hdata : DataRep m rest own bytes) (hholds : m.allocator.Holds mine d)
    (hlen : (m.hashNode i).chunkLen = d.length) : DataRep m (i :: rest) (update own i mine) (update bytes i d) := by
  intro j hj
  rcases mem_cons.1 hj with rfl | hj
  · rw [update_self, update_self]
    exact ⟨hholds, hlen⟩
  have hne := ne_of_mem_of_not_mem hj hi
  rw [update_of_ne hne, update_of_ne hne]
  exact hdata j hj

namespace Sim

open CHashMap Lru

variable {z : PoolSizes} {m : CHashMap} {add : List Nat} {l : List Entry}

theorem keys_nodup (h : Sim z m add l) : (l.map Entry.key).Nodup := by
  obtain ⟨free, chain, cfree, own, bytes, hrep, -, rfl⟩ := h.rep
  rw [map_map]
  exact (hrep.hash.adds.chain.nodup).map_on fun i hi j hj hkey => hrep.hash.keys i hi j hj hkey

variable {e : Entry} {i : Nat} {d : List UInt8} {rest : List Entry}

theorem touch_perm (h : Sim z m add l) {key : TMBHashKey} (he : lookup l key = some e) : (e :: without l key).Perm l := by
  obtain ⟨hmem, rfl⟩ := lookup_some he
  have hnd : l.Nodup := h.keys_nodup.of_map _
  refine List.Perm.trans (List.Perm.of_eq (congrArg (e :: ·) ?_)) (perm_cons_erase hmem).symm
  rw [hnd.erase_eq_filter, without]
  refine filter_congr fun e' he' => ?_
  rw [Bool.eq_iff_iff, bne_iff_ne, decide_eq_true_iff, ne_eq, ne_eq, not_iff_not]
  exact ⟨fun hkey => inj_on_of_nodup_map h.keys_nodup he' hmem hkey, fun heq => heq ▸ rfl⟩

theorem map_erase {free chain cfree own} (hrep : PoolRep m free chain add cfree own) (hi : i ∈ add) :
    (add.erase i).map (m.entry bytes) = without (add.map (m.entry bytes)) (m.hashNode i).key := by
  rw [without, filter_map, hrep.hash.adds.chain.nodup.erase_eq_filter]
  refine congrArg (List.map _) (filter_congr fun j hj => ?_)
  have hiff : j = i ↔ (m.hashNode j).key = (m.hashNode i).key := ⟨fun he => he ▸ rfl, hrep.hash.keys j hj i hi⟩
  rw [Bool.eq_iff_iff, bne_iff_ne, comp_apply, decide_eq_true_iff, ne_eq, hiff]
  rfl

section

variable (h : Sim z m add l)
include h

theorem sizeFrame {m' : CHashMap} (hnode : m'.nodeTotal = m.nodeTotal)
    (hbucket : m'.bucketSize = m.bucketSize) {others : List Nat} (hframe : AllocFrame others m.allocator m'.allocator) :
    m'.nodeTotal = z.nodeTotal ∧ m'.bucketSize = z.bucketSize ∧ m'.allocator.chunkTotal = z.nChunks ∧
      m'.allocator.chunkSize = z.chunkSize :=
  ⟨hnode.trans h.nodeTotal, hbucket.trans h.bucketSize, hframe.chunkTotal.trans h.chunkTotal, hframe.chunkSize.trans h.chunkSize⟩

theorem getChunkNum {n : Nat} (hn : n + z.chunkSize ≤ 2147483648) : m.allocator.getChunkNum n = chunksFor z.chunkSize n := by
  rw [CChunkAllocator.getChunkNum_of_fits (by rw [h.chunkSize]; exact hn), h.chunkSize]
  rfl

theorem counts {free chain cfree own} (hrep : PoolRep m free chain add cfree own) :
    free.length + l.length = z.nodeTotal ∧ cfree.length + usedChunks z l = z.nChunks := by
  obtain ⟨free', chain', cfree', own', bytes, hrep', hdata, rfl⟩ := h.rep
  have hfree : free' = free := Chain.unique hrep'.hash.nodes.freeChain hrep.hash.nodes.freeChain
  have hcfree : cfree' = cfree := Chain.unique hrep'.chunks.freeChain hrep.chunks.freeChain
  subst hfree hcfree
  have hnodes := hrep.hash.total.length_eq
  have hchunks := hrep'.chunks.total.length_eq
  rw [length_append, length_range] at hnodes hchunks
  rw [h.nodeTotal] at hnodes
  rw [h.chunkTotal] at hchunks
  refine ⟨by simpa using hnodes, ?_⟩
  rw [← hchunks, length_flatMap, usedChunks, map_map]
  congr 2
  refine map_congr_left fun i hi => ?_
  have hlen := hrep'.chunks.ownLength i hi
  have hfits : (bytes i).length + z.chunkSize ≤ 2147483648 := h.fits _ (mem_map_of_mem hi)
  rw [(hdata i hi).2, h.getChunkNum hfits, Int.natCast_inj] at hlen
  exact hlen.symm

theorem findNode_none {key : TMBHashKey} (hkey : lookup l key = none) : m.findNode key = some (none, m) := by
  obtain ⟨free, chain, cfree, own, bytes, hrep, -, rfl⟩ := h.rep
  exact hrep.hash.findNode_none fun j hj => lookup_eq_none.1 hkey _ (mem_map_of_mem hj)

theorem findNode_some {key : TMBHashKey} (he : lookup l key = some e) :
    ∃ i ∈ add, (m.hashNode i).key = key ∧ m.findNode key = some (some i, m.insertAddListHead i) ∧
      Sim z (m.insertAddListHead i) (i :: add.erase i) (e :: without l key) := by
  obtain ⟨free, chain, cfree, own, bytes, hrep, hdata, rfl⟩ := h.rep
  obtain ⟨hmem, rfl⟩ := lookup_some he
  obtain ⟨i, hi, rfl⟩ := mem_map.1 hmem
  have hframe := insertAddListHead_frame m i
  refine ⟨i, hi, rfl, hrep.hash.findNode_some hi, ?_⟩
  have hperm : (i :: add.erase i).Perm add := (perm_cons_erase hi).symm
  have hentry (j : Nat) : (m.insertAddListHead i).entry bytes j = m.entry bytes j := entry_congr (hframe.body j) rfl
  refine ⟨hframe.nodeTotal.trans h.nodeTotal, hframe.bucketSize.trans h.bucketSize, ?_, ?_,
    ⟨_, _, _, own, bytes, hrep.touch hi, fun j hj => ?_, ?_⟩, fun e he => ?_⟩
  · rw [hframe.allocator]
    exact h.chunkTotal
  · rw [hframe.allocator]
    exact h.chunkSize
  · rw [hframe.allocator, hframe.chunkLen]
    exact hdata j (hperm.mem_iff.1 hj)
  · rw [map_cons, hentry, funext hentry, map_erase hrep hi]
    rfl
  rcases mem_cons.1 he with rfl | he
  · exact h.fits _ hmem
  · exact h.fits e (mem_without.1 he).1

theorem freeChunks_eq {free chain cfree own} (hrep : PoolRep m free chain add cfree own) : cfree.length = freeChunks z l := by
  have hcount := (h.counts hrep).2
  rw [freeChunks]
  omega

theorem chunksFor_lt {n : Nat} (hn : n + z.chunkSize ≤ 2147483648) : chunksFor z.chunkSize n < 2147483648 := by
  have hlt := m.allocator.getChunkNum_lt n
  rw [h.getChunkNum hn] at hlt
  exact_mod_cast hlt

theorem insertNode_ok {key : TMBHashKey} (hkey : lookup l key = none)
    (hd : d.length + z.chunkSize ≤ 2147483648) (hnode : l.length < z.nodeTotal) (hpos : 0 < chunksFor z.chunkSize d.length)
    (hfree : chunksFor z.chunkSize d.length ≤ freeChunks z l) (now : Int) :
    ∃ i m' flag, m.insertNode key d d.length now = some (some i, m') ∧ Sim z m' (i :: add) (⟨key, d, flag, now, 0⟩ :: l) := by
  obtain ⟨free, chain, cfree, own, bytes, hrep, hdata, hl⟩ := h.rep
  have hcounts := h.counts hrep
  have hchunks := h.freeChunks_eq hrep
  have hnum := h.getChunkNum hd
  cases free with
  | nil =>
    rw [length_nil] at hcounts
    omega
  | cons i free =>
    have hi : i ∉ add := fun hm => hrep.hash.notMem_free hm (by simp)
    have hfresh (j : Nat) (hj : j ∈ add) : (m.hashNode j).key ≠ key :=
      lookup_eq_none.1 hkey (m.entry bytes j) (hl ▸ mem_map_of_mem hj)
    obtain ⟨head, a', cfree', mine, hinsert, hrep', hframe, hholds⟩ := hrep.insertNode_ok hfresh d now
      (show -2147483648 ≤ (d.length : Int) by omega) (by have := z.chunkSize_pos; omega) (by rw [hnum]; omega)
      (by rw [hnum]; omega)
    have hself := body_place_self m i key d.length head now a'
    have hbody (j : Nat) (hj : j ∈ add) := body_place_of_ne m (ne_of_mem_of_not_mem hj hi) key d.length head now a'
    have hsizes := sizes_place m i key d.length head now a'
    have hframe' : AllocFrame (add.flatMap own) m.allocator (m.place i key d.length head now a').allocator := by
      rw [hsizes.2.2]
      exact hframe
    obtain ⟨hnt, hbs, hct, hcs⟩ := h.sizeFrame hsizes.1 hsizes.2.1 hframe'
    refine ⟨i, _, (m.hashNode i).flag, hinsert, hnt, hbs, hct, hcs, ⟨_, _, _, _, update bytes i d, hrep', ?_, ?_⟩, fun e he => ?_⟩
    · refine DataRep.cons hi (hdata.of_frame hframe' hbody) ?_ (THashNode.chunk_eq hself).2
      rw [hsizes.2.2]
      exact hholds rfl (by rw [h.chunkSize]; exact hd)
    · rw [map_cons, map_congr_left fun j hj => entry_congr (hbody j hj) (update_of_ne (ne_of_mem_of_not_mem hj hi) _ _), ← hl]
      refine congrArg (· :: l) ?_
      exact (entry_of_body hself (update_self i d bytes)).symm
    rcases mem_cons.1 he with rfl | he
    · exact hd
    · exact h.fits e he

theorem insertNode_fails (hd : d.length + z.chunkSize ≤ 2147483648)
    (hfail : ¬(l.length < z.nodeTotal ∧ 0 < chunksFor z.chunkSize d.length ∧
      chunksFor z.chunkSize d.length ≤ freeChunks z l)) (key : TMBHashKey) (now : Int) :
    m.insertNode key d d.length now = some (none, m) := by
  obtain ⟨free, chain, cfree, own, bytes, hrep, -, -⟩ := h.rep
  have hcounts := h.counts hrep
  have hchunks := h.freeChunks_eq hrep
  refine hrep.insertNode_fails key d d.length now ?_
  rw [h.getChunkNum hd]
  by_cases hfree : free = []
  · exact .inl hfree
  have hpos := length_pos_of_ne_nil hfree
  refine .inr ?_
  omega

end

theorem lacks_iff (h : Sim z m (i :: add) (e :: rest)) (hd : d.length + z.chunkSize ≤ 2147483648) :
    m.allocator.Lacks (m.hashNode i).chunkLen d.length ↔
      chunksFor z.chunkSize e.data.length + freeChunks z (e :: rest) < chunksFor z.chunkSize d.length := by
  obtain ⟨free, chain, cfree, own, bytes, hrep, hdata, hl⟩ := h.rep
  have hchunks := h.freeChunks_eq hrep
  have he := h.fits e (by simp)
  rw [map_cons, List.cons.injEq] at hl
  have hbytes : (m.hashNode i).chunkLen = e.data.length := by
    rw [(hdata i (by simp)).2, hl.1]
    rfl
  have hold := h.chunksFor_lt he
  have hnew := h.chunksFor_lt hd
  rw [CChunkAllocator.Lacks, hbytes, h.getChunkNum he, h.getChunkNum hd, hrep.chunks.freeTotal, hchunks,
    int32_of_range (by omega) (by omega)]
  omega

theorem updateNode_ok (h : Sim z m (i :: add) (e :: rest)) (hd : d.length + z.chunkSize ≤ 2147483648)
    (hfree : chunksFor z.chunkSize d.length ≤ chunksFor z.chunkSize e.data.length + freeChunks z (e :: rest)) (now : Int) :
    ∃ m', m.updateNode i d d.length now = some (some i, m') ∧
      Sim z m' (i :: add) ({ e with data := d, time := now } :: rest) := by
  obtain ⟨free, chain, cfree, own, bytes, hrep, hdata, hl⟩ := h.rep
  have hnum := h.getChunkNum hd
  have hi : i ∉ add := (nodup_cons.1 hrep.hash.adds.chain.nodup).1
  obtain ⟨head, a', cfree', mine, hupdate, hrep', hframe, hholds⟩ := hrep.updateNode_ok (show i ∈ i :: add by simp) d now
    (show -2147483648 ≤ (d.length : Int) by omega) (by have := z.chunkSize_pos; omega) (by rw [hnum]; omega)
    (by rw [h.lacks_iff hd]; omega)
  rw [erase_cons_head] at hrep' hframe
  rw [map_cons, List.cons.injEq] at hl
  have hself := body_fill_self m i d.length head now a'
  have hbody (j : Nat) (hj : j ∈ add) := body_fill_of_ne m (ne_of_mem_of_not_mem hj hi) d.length head now a'
  have hsizes := sizes_fill m i d.length head now a'
  have hframe' : AllocFrame (add.flatMap own) m.allocator (m.fill i d.length head now a').allocator := by
    rw [hsizes.2.2]
    exact hframe
  obtain ⟨hnt, hbs, hct, hcs⟩ := h.sizeFrame hsizes.1 hsizes.2.1 hframe'
  refine ⟨_, hupdate, hnt, hbs, hct, hcs, ⟨_, _, _, _, update bytes i d, hrep', ?_, ?_⟩, fun e' he => ?_⟩
  · refine DataRep.cons hi ((hdata.mono (subset_cons_self i add)).of_frame hframe' hbody) ?_ (THashNode.chunk_eq hself).2
    rw [hsizes.2.2]
    exact hholds rfl (by rw [h.chunkSize]; exact hd)
  · rw [map_cons, map_congr_left fun j hj => entry_congr (hbody j hj)
      (update_of_ne (ne_of_mem_of_not_mem hj hi) _ _), ← hl.2, entry_of_body hself (update_self i d bytes),
      hl.1]
    rfl
  rcases mem_cons.1 he with rfl | he
  · exact hd
  · exact h.fits e' (by simp [he])

theorem deleteNode_ok (h : Sim z m add l) (hi : i ∈ add) :
    ∃ m', m.deleteNode i = some m' ∧ Sim z m' (add.erase i) (without l (m.hashNode i).key) ∧
      ∀ j ∈ add.erase i, (m'.hashNode j).key = (m.hashNode j).key := by
  obtain ⟨free, chain, cfree, own, bytes, hrep, hdata, rfl⟩ := h.rep
  obtain ⟨a', chain', hdelete, hrep', hframe⟩ := hrep.deleteNode_ok hi
  have hbody (j : Nat) (hj : j ∈ add.erase i) := body_removed m a' (ne_of_mem_of_not_mem hj hrep.notMem_erase)
  have hsizes := sizes_removed m i a'
  have hframe' : AllocFrame ((add.erase i).flatMap own) m.allocator (m.removed i a').allocator := by
    rw [hsizes.2.2]
    exact hframe
  obtain ⟨hnt, hbs, hct, hcs⟩ := h.sizeFrame hsizes.1 hsizes.2.1 hframe'
  refine ⟨_, hdelete, ⟨hnt, hbs, hct, hcs, ⟨_, _, _, own, bytes, hrep', ?_, ?_⟩, fun e he => ?_⟩,
    fun j hj => THashNode.key_eq (hbody j hj)⟩
  · exact (hdata.mono erase_subset).of_frame hframe' hbody
  · rw [← map_erase hrep hi]
    exact map_congr_left fun j hj => (entry_congr (hbody j hj) rfl).symm
  exact h.fits e (mem_without.1 he).1

section

variable (h : Sim z m (i :: add) (e :: rest))
include h

theorem modify_head {e' : Entry} {f : THashNode → THashNode}
    (hsame : SameLinks m (m.modify i f)) (hf : ∀ n, (f n).chunkHead = n.chunkHead ∧ (f n).chunkLen = n.chunkLen)
    (he' : ∀ bytes, m.entry bytes i = e → (m.modify i f).entry bytes i = e') (hdata : e'.data = e.data) :
    Sim z (m.modify i f) (i :: add) (e' :: rest) := by
  obtain ⟨free, chain, cfree, own, bytes, hrep, hbytes, hl⟩ := h.rep
  have hi : i ∉ add := (nodup_cons.1 hrep.hash.adds.chain.nodup).1
  rw [map_cons, List.cons.injEq] at hl
  refine ⟨h.nodeTotal, h.bucketSize, h.chunkTotal, h.chunkSize, ⟨_, _, _, own, bytes, hrep.modify i hsame hf, fun j hj => ?_,
    ?_⟩, fun e'' he => ?_⟩
  · refine ⟨(hbytes j hj).1, ?_⟩
    rw [← (hbytes j hj).2]
    exact congrFun (field_modify_of_eq (hf _).2) j
  · rw [map_cons, he' bytes hl.1.symm, hl.2]
    refine congrArg (e' :: ·) (map_congr_left fun j hj => ?_)
    rw [CHashMap.entry, CHashMap.entry, hashNode_modify_of_ne (ne_of_mem_of_not_mem hj hi)]
  rcases mem_cons.1 he with rfl | he
  · rw [hdata]
    exact h.fits e (by simp)
  exact h.fits e'' (by simp [he])

theorem setNodeFlag (flag : ENodeFlag) : Sim z (m.setNodeFlag i flag) (i :: add) ({ e with flag := flag } :: rest) := by
  refine h.modify_head (SameLinks.modify (SameLinks.refl m) i ?_ ?_ ?_ ?_ ?_) ?_ ?_ rfl <;> try exact fun _ => by simp
  rintro bytes rfl
  simp [CHashMap.entry]

theorem setExpiretime (expiretime : Int) :
    Sim z (m.setExpiretime i expiretime) (i :: add) ({ e with expiretime := expiretime } :: rest) := by
  refine h.modify_head (SameLinks.modify (SameLinks.refl m) i ?_ ?_ ?_ ?_ ?_) ?_ ?_ rfl <;> try exact fun _ => by simp
  rintro bytes rfl
  simp [CHashMap.entry]

end

def keptExpire (l : List Entry) (key : TMBHashKey) : Int := (lookup l key).elim 0 Entry.expiretime

theorem replaceNode_ok (h : Sim z m add l) {key : TMBHashKey} (hd : d.length + z.chunkSize ≤ 2147483648)
    (hacc : Accepts z l key d) (now : Int) : ∃ i m' add' flag, m.replaceNode key d d.length now = some (some i, m') ∧
      Sim z m' (i :: add') (⟨key, d, flag, now, keptExpire l key⟩ :: without l key) := by
  unfold Accepts at hacc
  cases hlook : lookup l key with
  | none =>
    rw [hlook] at hacc
    obtain ⟨i, m', flag, hinsert, hsim⟩ := h.insertNode_ok hlook hd hacc.1 hacc.2.1 hacc.2.2 now
    refine ⟨i, m', add, flag, ?_, ?_⟩
    · simp only [CHashMap.replaceNode, h.findNode_none hlook, some_bind_eq, hinsert]
    rw [keptExpire, hlook, without_of_none hlook]
    exact hsim
  | some e =>
    rw [hlook] at hacc
    obtain ⟨i, -, -, hfind, hsim₁⟩ := h.findNode_some hlook
    have hperm := h.touch_perm hlook
    obtain ⟨m', hupdate, hsim⟩ := hsim₁.updateNode_ok hd (by rw [freeChunks_perm hperm]; exact hacc) now
    refine ⟨i, m', add.erase i, e.flag, ?_, ?_⟩
    · simp only [CHashMap.replaceNode, hfind, some_bind_eq, hupdate]
    obtain ⟨-, rfl⟩ := lookup_some hlook
    rw [keptExpire, hlook]
    exact hsim

/-- `replace_node`, when the list has no room: an entry of the key still moves to the front. -/
theorem replaceNode_fails (h : Sim z m add l) {key : TMBHashKey} (hd : d.length + z.chunkSize ≤ 2147483648)
    (hacc : ¬Accepts z l key d) (now : Int) :
    ∃ m' add', m.replaceNode key d d.length now = some (none, m') ∧ Sim z m' add' (touch l key) := by
  unfold Accepts at hacc
  cases hlook : lookup l key with
  | none =>
    rw [hlook] at hacc
    refine ⟨m, add, ?_, ?_⟩
    · simp only [CHashMap.replaceNode, h.findNode_none hlook, some_bind_eq, h.insertNode_fails hd hacc]
    rw [touch_of_none hlook]
    exact h
  | some e =>
    rw [hlook] at hacc
    obtain ⟨i, -, -, hfind, hsim₁⟩ := h.findNode_some hlook
    have hperm := h.touch_perm hlook
    have hlack := (hsim₁.lacks_iff hd).2 (by rw [freeChunks_perm hperm]; omega)
    refine ⟨_, _, ?_, touch_of_some hlook ▸ hsim₁⟩
    simp only [CHashMap.replaceNode, hfind, some_bind_eq, PoolRep.updateNode_fails _ i d now hlack]

end Sim

end Mysql51.Cache
