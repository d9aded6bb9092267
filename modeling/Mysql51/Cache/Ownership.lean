import Mysql51.Cache.Pool
import Mysql51.Cache.Runs
import Mysql51.Cache.Layout

/-!
# The chunks over a run

Every chunk is free or belongs to one used node, as long as no `set` passes a length that `get_chunk_num` turns into a
negative number of chunks: `malloc` would take no chunk for it and yet lower `free_total_` by that number.
-/

namespace Mysql51.Cache

open Link Machine Option List

/-- Each chunk is free or on the chain of one used node, and the counts are right. -/
def Partitioned (m : CHashMap) : Prop := ∃ add cfree own, AddRep m add ∧ ChunkRep m add cfree own

/-- When the test of `update_node` finds room for `len` bytes in node `i`, the `malloc` that follows the `free` returns,
and with a chunk if one was asked for. -/
def UpdateSafe (m : CHashMap) (i : Nat) (len : Int) : Prop :=
  m.allocator.getChunkNum (m.hashNode i).chunkLen ≠ m.allocator.getChunkNum len →
    ¬m.allocator.Lacks (m.hashNode i).chunkLen len →
    ∃ a a' head, m.allocator.free (m.hashNode i).chunkHead = some a ∧
      a.malloc (m.allocator.getChunkNum len) = some (a', head) ∧ (0 < m.allocator.getChunkNum len → head ≠ none)

/-- The condition on a `set`: no negative number of chunks, unless the call fails before it asks for any. -/
def ChunkOk (m : CHashMap) (key : TMBHashKey) (len : Int) : Prop :=
  0 ≤ m.allocator.getChunkNum len ∨ m.freeList = none ∧ m.findNode key = some (none, m)

theorem CChunkAllocator.neg_le_getChunkNum (a : CChunkAllocator) (len : Int) : -2147483648 ≤ a.getChunkNum len := by
  have hrange := int32_range (len + a.chunkSize - 1)
  rw [getChunkNum]
  rcases le_or_gt 0 (int32 (len + a.chunkSize - 1)) with hnonneg | hneg
  · have hquot := Int.tdiv_nonneg hnonneg (Int.natCast_nonneg a.chunkSize)
    omega
  have hquot := Int.tdiv_le_self (a := -int32 (len + a.chunkSize - 1)) a.chunkSize (by omega)
  rw [Int.neg_tdiv] at hquot
  omega

theorem CChunkAllocator.malloc_neg {a : CChunkAllocator} {n : Int} (hfree : 0 ≤ a.freeTotal) (hn : n < 0) :
    a.malloc n = some ({ a with freeTotal := int32 (a.freeTotal - n) }, none) := by
  rw [malloc, if_neg (by omega), Int.toNat_of_nonpos hn.le]
  rfl

variable {key : TMBHashKey} {node : Option Nat} {m : CHashMap} {expiretime : Option Int} {flag : ENodeFlag}

namespace PoolRep

open CHashMap

variable {m : CHashMap} {free add cfree : List Nat} {chain : Nat → List Nat} {own : Nat → List Nat} {i : Nat}

theorem updateSafe (hrep : PoolRep m free chain add cfree own) (hi : i ∈ add) (len : Int) : UpdateSafe m i len := by
  intro _ hroom
  have hview := (hrep.chunks.congr (perm_cons_erase hi).symm rfl fun _ _ => ⟨rfl, rfl⟩).view
  obtain ⟨a, hfree, hview', hframe⟩ := hview.release hrep.sizeOk (hrep.chunks.ownChain i hi)
  rcases le_or_gt 0 (m.allocator.getChunkNum len) with hnonneg | hneg
  · obtain ⟨n, hn⟩ := Int.eq_ofNat_of_zero_le hnonneg
    have hfits := hview.le_of_not_lacks hrep.sizeOk (hrep.chunks.ownLength i hi) hn hroom
    obtain ⟨a', head, free', mine, hmalloc, -, hmine, hlen, -⟩ := hview'.malloc (hframe.sizeOk hrep.sizeOk) hfits
    refine ⟨a, a', head, hfree, by rw [hn]; exact hmalloc, fun hpos hnone => ?_⟩
    subst hnone
    rw [Chain.eq_nil hmine, length_nil] at hlen
    omega
  have htotal : 0 ≤ a.freeTotal := hview'.freeTotal ▸ Int.natCast_nonneg _
  exact ⟨a, _, none, hfree, CChunkAllocator.malloc_neg htotal hneg, fun hpos => absurd hpos (by omega)⟩

/-- What `replace_node` leaves behind for a negative number of chunks: a free list with the wrong count. -/
theorem replaceNode_neg (hrep : PoolRep m free chain add cfree own) {len : Int}
    (hneg : m.allocator.getChunkNum len < 0) (hreach : ¬(m.freeList = none ∧ m.findNode key = some (none, m)))
    (d : List UInt8) (now : Int) :
    ∃ node m' l, m.replaceNode key d len now = some (node, m') ∧ Chain m'.allocator.next m'.allocator.freeList l ∧
      m'.allocator.freeTotal = int32 (l.length - m.allocator.getChunkNum len) := by
  rcases HashRep.key_cases m add key with ⟨i, hi, rfl⟩ | hkey
  · -- the key is found: its chunks go back to the free list first
    have hframe := insertAddListHead_frame m i
    have hview := (hrep.chunks.congr (perm_cons_erase hi).symm rfl fun _ _ => ⟨rfl, rfl⟩).view
    obtain ⟨a, hfree, hview', hframe'⟩ := hview.release hrep.sizeOk (hrep.chunks.ownChain i hi)
    have hold : 0 ≤ m.allocator.getChunkNum (m.hashNode i).chunkLen := hrep.chunks.ownLength i hi ▸ Int.natCast_nonneg _
    have htotal : 0 ≤ a.freeTotal := hview'.freeTotal ▸ Int.natCast_nonneg _
    have hlack : ¬m.allocator.Lacks (m.hashNode i).chunkLen len := fun h => by
      have := h.1
      omega
    have hrefit : m.allocator.refit (m.hashNode i).chunkHead (m.hashNode i).chunkLen d len =
        some (none, { a with freeTotal := int32 (a.freeTotal - m.allocator.getChunkNum len) }) := by
      rw [CChunkAllocator.refit, if_pos (by omega), hfree]
      simp only [some_bind_eq, CChunkAllocator.malloc_neg htotal hneg]
      cases a.chunkTotal <;> simp [CChunkAllocator.split, CChunkAllocator.splitLoop]
    refine ⟨some i, (m.insertAddListHead i).fill i len none now
      { a with freeTotal := int32 (a.freeTotal - m.allocator.getChunkNum len) }, (own i).reverse ++ cfree, ?_, ?_, ?_⟩
    · simp only [CHashMap.replaceNode, hrep.hash.findNode_some hi, some_bind_eq, updateNode_eq,
        hframe.allocator, hframe.chunkLen, hframe.chunkHead, if_neg hlack, hrefit, map_some]
    · rw [(sizes_fill _ _ _ _ _ _).2.2]
      exact hview'.freeChain
    rw [(sizes_fill _ _ _ _ _ _).2.2, hview'.freeTotal]
  have hfind := hrep.hash.findNode_none hkey
  cases free with
  | nil => exact absurd ⟨hrep.hash.nodes.freeChain, hfind⟩ hreach
  | cons i free =>
    have htotal : 0 ≤ m.allocator.freeTotal := hrep.chunks.freeTotal ▸ Int.natCast_nonneg _
    refine ⟨none, m.setAllocator { m.allocator with freeTotal := int32 (m.allocator.freeTotal - m.allocator.getChunkNum len) },
      cfree, ?_, hrep.chunks.freeChain, ?_⟩
    · simp only [CHashMap.replaceNode, hfind, bind_eq_bind, bind_some,
        insertNode_of_free m hrep.hash.nodes.freeChain.1, CChunkAllocator.malloc_neg htotal hneg, if_true]
    rw [← hrep.chunks.freeTotal]
    rfl

end PoolRep

def Owned (m : CHashMap) (add : List Nat) : Prop := ∃ free chain cfree own, PoolRep m free chain add cfree own

namespace Owned

open CHashMap

variable {m m' : CHashMap} {add : List Nat}

theorem init (z : PoolSizes) : Owned (initPoolData z.nodeTotal z.bucketSize z.nChunks z.chunkSize) [] := by
  have halloc := (initPoolData_frame z.nodeTotal z.bucketSize z.nChunks z.chunkSize).2.2
  have hview := CChunkAllocator.initPoolData_rep z.nChunks z.chunkSize
  refine ⟨_, _, (List.range z.nChunks).reverse, fun _ => [], initPoolData_rep .., ⟨?_, by simp, ?_, by simp, ?_⟩, ?_⟩
  all_goals rw [halloc]
  · exact hview.freeChain
  · exact hview.total
  · exact hview.freeTotal
  exact ⟨z.chunkSize_pos, by have := z.chunk_fits; simp only [CChunkAllocator.initPoolData]; omega, z.nChunks_lt⟩

theorem findNode (h : Owned m add) (hfind : m.findNode key = some (node, m')) :
    ∃ add', Owned m' add' ∧ ∀ i, node = some i → i ∈ add' := by
  obtain ⟨free, chain, cfree, own, hrep⟩ := h
  rcases HashRep.key_cases m add key with ⟨i, hi, rfl⟩ | hkey
  · rw [hrep.hash.findNode_some hi] at hfind
    cases hfind
    exact ⟨_, ⟨_, _, _, _, hrep.touch hi⟩, by simp⟩
  rw [hrep.hash.findNode_none hkey] at hfind
  cases hfind
  exact ⟨_, ⟨_, _, _, _, hrep⟩, by simp⟩

theorem replaceNode (h : Owned m add) {d : List UInt8} {len now : Int}
    (hlow : -2147483648 ≤ len) (hhigh : len < 2147483648) (hok : ChunkOk m key len)
    (hreplace : m.replaceNode key d len now = some (node, m')) : ∃ add', Owned m' add' := by
  obtain ⟨free, chain, cfree, own, hrep⟩ := h
  rcases HashRep.key_cases m add key with ⟨i, hi, rfl⟩ | hkey
  · have hfind := hrep.hash.findNode_some hi
    have hrep₁ := hrep.touch hi
    have hframe := insertAddListHead_frame m i
    have hnum : 0 ≤ (m.insertAddListHead i).allocator.getChunkNum len := by
      rw [hframe.allocator]
      refine hok.resolve_right fun hnone => ?_
      rw [hfind] at hnone
      cases hnone.2
    simp only [CHashMap.replaceNode, hfind, some_bind_eq] at hreplace
    by_cases hroom : (m.insertAddListHead i).allocator.Lacks ((m.insertAddListHead i).hashNode i).chunkLen len
    · rw [PoolRep.updateNode_fails _ i d now hroom] at hreplace
      cases hreplace
      exact ⟨_, _, _, _, _, hrep₁⟩
    obtain ⟨head, a, cfree', mine, hupdate, hrep', -⟩ := hrep₁.updateNode_ok (by simp) d now hlow hhigh hnum hroom
    rw [hupdate] at hreplace
    cases hreplace
    exact ⟨_, _, _, _, _, hrep'⟩
  have hfind := hrep.hash.findNode_none hkey
  simp only [CHashMap.replaceNode, hfind, some_bind_eq] at hreplace
  by_cases hfail : free = [] ∨ (cfree.length : Int) < m.allocator.getChunkNum len ∨ m.allocator.getChunkNum len = 0
  · rw [hrep.insertNode_fails key d len now hfail] at hreplace
    cases hreplace
    exact ⟨_, _, _, _, _, hrep⟩
  rw [not_or, not_or] at hfail
  obtain ⟨i, free', rfl⟩ := exists_cons_of_ne_nil hfail.1
  have hnum : 0 ≤ m.allocator.getChunkNum len := by
    refine hok.resolve_right fun hnone => ?_
    rw [hrep.hash.nodes.freeChain.1] at hnone
    cases hnone.1
  obtain ⟨head, a, cfree', mine, hinsert, hrep', -⟩ := hrep.insertNode_ok hkey d now hlow hhigh (by omega) (by omega)
  rw [hinsert] at hreplace
  cases hreplace
  exact ⟨_, _, _, _, _, hrep'⟩

theorem maintained : Maintained Owned ChunkOk where
  adds := fun ⟨_, _, _, _, hrep⟩ => ⟨hrep.hash.adds, hrep.hash.add_length_le⟩
  find := fun h hfind => h.findNode hfind
  replace := fun h hlow hhigh hok hreplace => h.replaceNode hlow hhigh hok hreplace
  flag := fun i flag ⟨_, _, _, _, hrep⟩ => ⟨_, _, _, _, hrep.setNodeFlag i flag⟩
  expire := fun i expiretime ⟨_, _, _, _, hrep⟩ => ⟨_, _, _, _, hrep.setExpiretime i expiretime⟩
  delete := fun ⟨_, _, _, _, hrep⟩ hi hdelete => by
    obtain ⟨a, chain', heq, hrep', -⟩ := hrep.deleteNode_ok hi
    rw [heq] at hdelete
    cases hdelete
    exact ⟨_, _, _, _, hrep'⟩

end Owned

/-! ### Runs -/

def ChunksSound (m : CHashMap) : Prop :=
  Partitioned m ∧ ∀ add, AddRep m add → ∀ i ∈ add, ∀ len, UpdateSafe m i len

theorem Owned.chunksSound {add : List Nat} (h : Owned m add) : ChunksSound m := by
  obtain ⟨free, chain, cfree, own, hrep⟩ := h
  refine ⟨⟨add, cfree, own, hrep.hash.adds, hrep.chunks⟩, fun add' hadds i hi len => ?_⟩
  rw [Chain.unique hadds.chain hrep.hash.adds.chain] at hi
  exact hrep.updateSafe hi len

theorem Partitioned.freeTotal (h : Partitioned m) {l : List Nat}
    (hl : Chain m.allocator.next m.allocator.freeList l) : m.allocator.freeTotal = l.length := by
  obtain ⟨add, cfree, own, -, hchunks⟩ := h
  rw [hchunks.freeTotal, Chain.unique hl hchunks.freeChain]

namespace CacheAccess

variable {s s' : CacheAccess}

variable {key : TMBHashKey} {data : List UInt8}

theorem setCore_allocator {now ret : Int} (hset : s.setCore key data expiretime flag now = some (ret, s')) :
    ∃ node m', s.cache.replaceNode key data (int32 data.length) now = some (node, m') ∧ s'.cache.allocator = m'.allocator := by
  obtain ⟨⟨node, m'⟩, hreplace, hset⟩ := bind_eq_some_iff.1 hset
  refine ⟨node, m', hreplace, ?_⟩
  cases node with
  | none =>
    cases hset
    rfl
  | some i =>
    obtain ⟨s₁, hlog, hset⟩ := bind_eq_some_iff.1 hset
    cases hset
    rw [(writeLog_frame hlog).1]
    cases expiretime <;> rfl

section

variable {add : List Nat} (h : Owned s.cache add)
include h

theorem setCore_spoils {now ret : Int}
    (hbad : ¬ChunkOk s.cache key (int32 data.length)) (hset : s.setCore key data expiretime flag now = some (ret, s')) :
    ¬Partitioned s'.cache := by
  intro hpart
  obtain ⟨free, chain, cfree, own, hrep⟩ := h
  rw [ChunkOk, not_or, not_le] at hbad
  obtain ⟨node, m', l, hreplace, hl, htotal⟩ := hrep.replaceNode_neg hbad.1 hbad.2 data now
  obtain ⟨node₁, m₁, hreplace₁, halloc⟩ := setCore_allocator hset
  rw [hreplace] at hreplace₁
  cases hreplace₁
  rw [← halloc] at hl htotal
  rw [hpart.freeTotal hl] at htotal
  have hlow := s.cache.allocator.neg_le_getChunkNum (int32 data.length)
  have hneg := hbad.1
  generalize s.cache.allocator.getChunkNum (int32 data.length) = q at htotal hlow hneg
  -- a count and the same count raised by at most `2 ^ 31` differ modulo `2 ^ 32`
  unfold int32 at htotal
  omega

theorem setCore_returns (hbad : ¬ChunkOk s.cache key (int32 data.length))
    (hdump : s.cacheDumpMin < 0) (expiretime : Option Int) (flag : ENodeFlag) (now : Int) :
    (s.setCore key data expiretime flag now).isSome := by
  obtain ⟨free, chain, cfree, own, hrep⟩ := h
  rw [ChunkOk, not_or, not_le] at hbad
  obtain ⟨node, m', l, hreplace, -, -⟩ := hrep.replaceNode_neg hbad.1 hbad.2 data now
  have hquiet : ¬(0 ≤ s.cacheDumpMin ∧ flag = ENodeFlag.dirty) := fun hlog => absurd hlog.1 (by omega)
  cases node <;> simp [setCore, hreplace, writeLog, hquiet]

theorem step_spoils {op : Op} (hstep : s.step op = some s') (hbad : ¬op.Meets ChunkOk s.cache) : ¬Partitioned s'.cache := by
  obtain ⟨⟨ret, s₁⟩, hexec, rfl⟩ := map_eq_some_iff.1 hstep
  cases op with
  | set key data flag now => exact setCore_spoils h hbad hexec
  | setExpire key data expiretime flag now => exact setCore_spoils h hbad hexec
  | _ => exact absurd trivial hbad

end

theorem openInit_cache {memSize : Int} {z : PoolSizes} (hopen : openInit memSize z = .ok s) (dumpMin logSize logNum : Int) :
    (s.coreInit dumpMin logSize logNum).cache = CHashMap.initPoolData z.nodeTotal z.bucketSize z.nChunks z.chunkSize := by
  unfold openInit at hopen
  split at hopen
  · cases hopen
  cases hopen
  rfl

/-- Over a run the chunks stay partitioned, and no update runs out of them, exactly when no call asks for a negative
number of chunks. -/
theorem chunksSound_iff (c : PoolConfig) (hfits : c.Fits) (memSize : Int) (s : CacheAccess)
    (hopen : openInit memSize (c.pool hfits) = .ok s) (dumpMin logSize logNum : Int) (ops : List Op) :
    (∀ t, Run.Passes step (s.coreInit dumpMin logSize logNum) ops t → ChunksSound t.cache) ↔
      ∀ t op, Run.Takes step (s.coreInit dumpMin logSize logNum) ops t op → (t.step op).isSome →
        op.Meets ChunkOk t.cache := by
  have hinit : ∃ add, Owned (s.coreInit dumpMin logSize logNum).cache add := by
    rw [openInit_cache hopen]
    exact ⟨[], Owned.init _⟩
  refine Run.invariant_iff (P := fun t => ∃ add, Owned t.cache add) (fun t ⟨_, h⟩ => h.chunksSound) ?_ ?_ hinit
  · rintro t op t' - ⟨add, h⟩ hstep hok
    exact Owned.maintained.step h hok hstep
  · rintro t op t' - ⟨add, h⟩ hstep hsound
    by_contra hbad
    exact step_spoils h hstep hbad hsound.1

/-- A run of two calls in the small pool, one of which updates an entry. -/
theorem chunksSound_small : ∃ (c : PoolConfig) (hfits : c.Fits) (s : CacheAccess), openInit 1000 (c.pool hfits) = .ok s ∧
    c.nChunks = 4 ∧ c.chunkSize = 8 ∧ ∀ t, Run.Passes step (s.coreInit (-1) 20000000 8)
      [.set TMBHashKey.zero [1, 2, 3] .dirty 7, .set TMBHashKey.zero (List.replicate 20 5) .unchg 8] t → ChunksSound t.cache := by
  have hfits := (PoolSizes.small.config_fits (by decide) (by decide)).1
  have hpool : (PoolSizes.small.config _ _).pool hfits = PoolSizes.small := rfl
  obtain ⟨s, hopen⟩ : ∃ s, openInit 1000 PoolSizes.small = .ok s := ⟨_, rfl⟩
  have hcheck : Run.check step (fun t _ => 0 ≤ t.cache.allocator.getChunkNum 3 ∧ 0 ≤ t.cache.allocator.getChunkNum 20)
      (s.coreInit (-1) 20000000 8)
      [.set TMBHashKey.zero [1, 2, 3] .dirty 7, .set TMBHashKey.zero (List.replicate 20 5) .unchg 8] = true := by
    cases hopen
    decide +kernel
  have hopen' := (congrArg (openInit 1000) hpool).trans hopen
  refine ⟨_, hfits, s, hopen', rfl, rfl, (chunksSound_iff _ hfits 1000 s hopen' _ _ _ _).2 fun t op htakes _ => ?_⟩
  have hnum := of_decide_eq_true (Run.ok_of_check hcheck htakes)
  obtain ⟨pre, hpre, -⟩ := htakes
  have hop := hpre.subset (mem_append_right pre (mem_singleton_self op))
  simp only [mem_cons, not_mem_nil, or_false] at hop
  rcases hop with rfl | rfl
  · exact .inl hnum.1
  · exact .inl hnum.2

/-- A `set` of `2 ^ 31` bytes into the empty small pool: the length is read as `-2 ^ 31`, so that no chunk is taken while
`free_total_` goes up by `268435455`. -/
theorem not_partitioned_of_long_data : ∃ s t, openInit 1000 PoolSizes.small = .ok s ∧ Run.Passes step (s.coreInit (-1) 20000000 8)
      [.set TMBHashKey.zero (List.replicate 2147483648 0) .dirty 0] t ∧ ¬Partitioned t.cache := by
  have hlen : int32 (List.replicate 2147483648 (0 : UInt8)).length = -2147483648 := by
    rw [length_replicate]
    decide
  generalize List.replicate 2147483648 (0 : UInt8) = data at hlen
  obtain ⟨s, hopen⟩ : ∃ s, openInit 1000 PoolSizes.small = .ok s := ⟨_, rfl⟩
  have hcache := openInit_cache hopen (-1) 20000000 8
  have howned := hcache ▸ Owned.init PoolSizes.small
  have hbad : ¬ChunkOk (s.coreInit (-1) 20000000 8).cache TMBHashKey.zero (int32 data.length) := by
    rw [hcache, hlen]
    rintro (hnonneg | hfull)
    · exact absurd hnonneg (by decide)
    · exact absurd hfull.1 (by decide)
  have hreturns := setCore_returns howned hbad (show (-1 : Int) < 0 by decide) none .dirty 0
  obtain ⟨⟨ret, t⟩, hset⟩ := isSome_iff_exists.1 hreturns
  refine ⟨s, t, hopen, ⟨_, prefix_rfl, ?_⟩, setCore_spoils howned hbad hset⟩
  show (Option.map Prod.snd (setCore _ _ _ _ _ _)).bind _ = _
  rw [hset]
  rfl

end CacheAccess

end Mysql51.Cache
