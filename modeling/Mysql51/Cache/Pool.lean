import Mysql51.Cache.Partition

/-!
# The pool as a whole

`PoolRep` puts the lists of nodes and the lists of chunks together. Each operation of `CHashMap` is settled here once and for
all: whether it succeeds, which normal form its result has, and that the pool is in order again.
-/

namespace Mysql51.Cache

open Link Machine List

theorem THashNode.chunk_eq {n n' : THashNode} (h : n.body = n'.body) : n.chunkHead = n'.chunkHead ∧ n.chunkLen = n'.chunkLen := by
  have hhead := congrArg THashNode.chunkHead h
  have hlen := congrArg THashNode.chunkLen h
  exact ⟨hhead, hlen⟩

structure PoolRep (m : CHashMap) (free : List Nat) (chain : Nat → List Nat) (add cfree : List Nat)
    (own : Nat → List Nat) : Prop where
  hash : HashRep m free chain add
  chunks : ChunkRep m add cfree own
  sizeOk : m.allocator.SizeOk

namespace PoolRep

open CHashMap

variable {m : CHashMap} {free add cfree : List Nat} {chain : Nat → List Nat} {own : Nat → List Nat} {i : Nat}

section

variable (hrep : PoolRep m free chain add cfree own)
include hrep

theorem notMem_erase : i ∉ add.erase i :=
  fun hm => (hrep.hash.adds.chain.nodup.mem_erase_iff.1 hm).1 rfl

theorem owned {rest : List Nat} (hsub : rest ⊆ add) : ∀ j ∈ rest, Chain m.allocator.next (m.hashNode j).chunkHead (own j) ∧
      ((own j).length : Int) = m.allocator.getChunkNum (m.hashNode j).chunkLen :=
  fun j hj => ⟨hrep.chunks.ownChain j (hsub hj), hrep.chunks.ownLength j (hsub hj)⟩

theorem touch (hi : i ∈ add) : PoolRep (m.insertAddListHead i) free chain (i :: add.erase i) cfree own := by
  have hframe := insertAddListHead_frame m i
  refine ⟨hrep.hash.touch hi, ?_, ?_⟩
  · exact hrep.chunks.congr (perm_cons_erase hi).symm hframe.allocator fun j _ => ⟨hframe.chunkHead j, hframe.chunkLen j⟩
  rw [hframe.allocator]
  exact hrep.sizeOk

theorem modify (i : Nat) {f : THashNode → THashNode}
    (hsame : SameLinks m (m.modify i f)) (hf : ∀ n, (f n).chunkHead = n.chunkHead ∧ (f n).chunkLen = n.chunkLen) :
    PoolRep (m.modify i f) free chain add cfree own := by
  refine ⟨hsame.hashRep hrep.hash, hrep.chunks.congr (List.Perm.refl _) rfl fun j _ => ?_, hrep.sizeOk⟩
  exact ⟨congrFun (field_modify_of_eq (hf _).1) j, congrFun (field_modify_of_eq (hf _).2) j⟩

theorem setNodeFlag (i : Nat) (flag : ENodeFlag) : PoolRep (m.setNodeFlag i flag) free chain add cfree own := by
  refine hrep.modify i (SameLinks.modify (SameLinks.refl m) i ?_ ?_ ?_ ?_ ?_) ?_ <;> simp

theorem setExpiretime (i : Nat) (expiretime : Int) : PoolRep (m.setExpiretime i expiretime) free chain add cfree own := by
  refine hrep.modify i (SameLinks.modify (SameLinks.refl m) i ?_ ?_ ?_ ?_ ?_) ?_ <;> simp

end

/-- Without a free node, without chunks enough or without a chunk to ask for, `insert_node` changes nothing. -/
theorem insertNode_fails (hrep : PoolRep m free chain add cfree own) (key : TMBHashKey) (d : List UInt8) (len now : Int)
    (hfail : free = [] ∨ (cfree.length : Int) < m.allocator.getChunkNum len ∨ m.allocator.getChunkNum len = 0) :
    m.insertNode key d len now = some (none, m) := by
  cases free with
  | nil => exact insertNode_of_full m hrep.hash.nodes.freeChain key d len now
  | cons i free =>
    have hmalloc : m.allocator.malloc (m.allocator.getChunkNum len) = some (m.allocator, none) := by
      have hrange := hrep.sizeOk.chunkTotal_lt
      have hlen := hrep.chunks.view_nil.length_eq
      rcases hfail with hnil | hlack | hzero
      · cases hnil
      · exact CChunkAllocator.malloc_of_lack (hrep.chunks.freeTotal ▸ hlack)
      have htotal : int32 (m.allocator.freeTotal - 0) = m.allocator.freeTotal := by
        rw [hrep.chunks.freeTotal, int32_of_range] <;> omega
      rw [hzero, CChunkAllocator.malloc, if_neg (by rw [hrep.chunks.freeTotal]; omega)]
      simp only [Int.toNat_zero, CChunkAllocator.mallocLoop, some_bind_eq, htotal]
    rw [insertNode_of_free m hrep.hash.nodes.freeChain.1, hmalloc]
    rfl

/-- With a free node and chunks enough, `insert_node` puts the node at the head of the free list to use. -/
theorem insertNode_ok (hrep : PoolRep m (i :: free) chain add cfree own) {key : TMBHashKey}
    (hkey : ∀ j ∈ add, (m.hashNode j).key ≠ key) (d : List UInt8) {len : Int} (now : Int) (hlow : -2147483648 ≤ len)
    (hhigh : len < 2147483648) (hpos : 0 < m.allocator.getChunkNum len) (hle : m.allocator.getChunkNum len ≤ cfree.length) :
    ∃ head a' cfree' mine, m.insertNode key d len now = some (some i, m.place i key len head now a') ∧
      PoolRep (m.place i key len head now a') free
        (Function.update chain (m.getBucketId key) (i :: chain (m.getBucketId key))) (i :: add) cfree'
        (Function.update own i mine) ∧
      AllocFrame (add.flatMap own) m.allocator a' ∧
      (len = d.length → d.length + m.allocator.chunkSize ≤ 2147483648 → a'.Holds mine d) := by
  obtain ⟨n, hn⟩ := Int.eq_ofNat_of_zero_le hpos.le
  have hi : i ∉ add := fun hm => hrep.hash.notMem_free hm (by simp)
  obtain ⟨a₁, head, free₁, mine, hmalloc, hview₁, hmine₁, hlen₁, hframe₁⟩ :=
    hrep.chunks.view_nil.malloc hrep.sizeOk (show n ≤ cfree.length by omega)
  have hnum : (mine.length : Int) = m.allocator.getChunkNum len := by rw [hlen₁, hn]
  obtain ⟨a₂, hsplit, hview₂, hmine₂, hframe₂, hholds⟩ :=
    hview₁.split (hframe₁.sizeOk hrep.sizeOk) hmine₁ (d := d) hlow hhigh (by rw [hframe₁.getChunkNum, hnum])
  have hframe := hframe₁.trans hframe₂
  have hhead : head ≠ none := by
    rintro rfl
    have hnil := Chain.eq_nil hmine₁
    rw [hnil, length_nil] at hnum
    omega
  have hplaced := THashNode.chunk_eq (body_place_self m i key len head now a₂)
  refine ⟨head, a₂, free₁, mine, ?_, ⟨hrep.hash.place hkey len head now a₂, ?_, ?_⟩, hframe, ?_⟩
  · rw [insertNode_of_free m hrep.hash.nodes.freeChain.1, hn, hmalloc]
    simp only [Option.bind_some, if_neg hhead, hsplit, Option.map_some]
  · have halloc := (sizes_place m i key len head now a₂).2.2
    refine ChunkRep.of_view hi (hrep.owned fun _ hj => hj) (by rwa [halloc]) (by rwa [halloc]) ?_ ?_ fun j hj => ?_
    · rw [halloc, hplaced.1]
      exact hmine₂
    · rw [halloc, hplaced.2, hframe.getChunkNum]
      exact hnum
    exact THashNode.chunk_eq (body_place_of_ne m (ne_of_mem_of_not_mem hj hi) key len head now a₂)
  · rw [(sizes_place m i key len head now a₂).2.2]
    exact hframe.sizeOk hrep.sizeOk
  rwa [hframe₁.chunkSize] at hholds

/-- When the free chunks cover the growth, `update_node` refits the node and moves it to the front. -/
theorem updateNode_ok (hrep : PoolRep m free chain add cfree own) (hi : i ∈ add) (d : List UInt8) {len : Int} (now : Int)
    (hlow : -2147483648 ≤ len) (hhigh : len < 2147483648) (hnum : 0 ≤ m.allocator.getChunkNum len)
    (hroom : ¬m.allocator.Lacks (m.hashNode i).chunkLen len) :
    ∃ head a' cfree' mine, m.updateNode i d len now = some (some i, m.fill i len head now a') ∧
      PoolRep (m.fill i len head now a') free chain (i :: add.erase i) cfree' (Function.update own i mine) ∧
      AllocFrame ((add.erase i).flatMap own) m.allocator a' ∧
      (len = d.length → d.length + m.allocator.chunkSize ≤ 2147483648 → a'.Holds mine d) := by
  have hview := (hrep.chunks.congr (perm_cons_erase hi).symm rfl fun _ _ => ⟨rfl, rfl⟩).view
  obtain ⟨a', head, cfree', mine, hrefit, hview', hmine, hlen, hframe, hholds⟩ :=
    hview.refit hrep.sizeOk (hrep.chunks.ownChain i hi) (hrep.chunks.ownLength i hi) (d := d) hlow hhigh hnum hroom
  have hfilled := THashNode.chunk_eq (body_fill_self m i len head now a')
  have halloc := (sizes_fill m i len head now a').2.2
  refine ⟨head, a', cfree', mine, ?_, ⟨hrep.hash.fill hi len head now a', ?_, ?_⟩, hframe, hholds⟩
  · rw [updateNode_eq, if_neg hroom, hrefit]
    rfl
  · refine ChunkRep.of_view hrep.notMem_erase (hrep.owned erase_subset) (by rwa [halloc]) (by rwa [halloc]) ?_ ?_ fun j hj => ?_
    · rw [halloc, hfilled.1]
      exact hmine
    · rw [halloc, hfilled.2, hframe.getChunkNum]
      exact hlen
    exact THashNode.chunk_eq (body_fill_of_ne m (ne_of_mem_of_not_mem hj hrep.notMem_erase) len head now a')
  rw [halloc]
  exact hframe.sizeOk hrep.sizeOk

theorem updateNode_fails (m : CHashMap) (i : Nat) (d : List UInt8) {len : Int} (now : Int)
    (hlack : m.allocator.Lacks (m.hashNode i).chunkLen len) : m.updateNode i d len now = some (none, m) := by
  rw [updateNode_eq, if_pos hlack]

theorem deleteNode_ok (hrep : PoolRep m free chain add cfree own) (hi : i ∈ add) :
    ∃ a' chain', m.deleteNode i = some (m.removed i a') ∧
      PoolRep (m.removed i a') (i :: free) chain' (add.erase i) ((own i).reverse ++ cfree) own ∧
      AllocFrame ((add.erase i).flatMap own) m.allocator a' := by
  have hview := (hrep.chunks.congr (perm_cons_erase hi).symm rfl fun _ _ => ⟨rfl, rfl⟩).view
  obtain ⟨a', hfree, hview', hframe⟩ := hview.release hrep.sizeOk (hrep.chunks.ownChain i hi)
  have halloc := (sizes_removed m i a').2.2
  refine ⟨a', _, ?_, ⟨hrep.hash.removed hi a', ?_, ?_⟩, hframe⟩
  · rw [deleteNode_eq, hfree]
    rfl
  · refine ChunkRep.of_view_nil (hrep.owned erase_subset) (by rwa [halloc]) (by rwa [halloc]) fun j hj => ?_
    exact THashNode.chunk_eq (body_removed m a' (ne_of_mem_of_not_mem hj hrep.notMem_erase))
  rw [halloc]
  exact hframe.sizeOk hrep.sizeOk

end PoolRep

end Mysql51.Cache
