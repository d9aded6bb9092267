import Mysql51.Cache.AddList

/-!
# The free list and the bucket chains

`NodeRep m free chain` reads the two kinds of list that run through `node_next_`: the free list, and for each bucket its chain.
A node in a chain has that bucket as the bucket of its key, so no node is in two chains.
-/

namespace Mysql51.Cache

open Link Function List

def THashNode.eraseNode (node : THashNode) : THashNode := { node with nodeNext := none, nodePrev := none }

/-- `m'` differs from `m` in the free list and the bucket chains only. -/
structure NodeFrame (m m' : CHashMap) : Prop where
  nodeTotal : m'.nodeTotal = m.nodeTotal
  bucketSize : m'.bucketSize = m.bucketSize
  addHead : m'.addHead = m.addHead
  addTail : m'.addTail = m.addTail
  allocator : m'.allocator = m.allocator
  node : ∀ j, (m'.hashNode j).eraseNode = (m.hashNode j).eraseNode

namespace NodeFrame

theorem refl (m : CHashMap) : NodeFrame m m := ⟨rfl, rfl, rfl, rfl, rfl, fun _ => rfl⟩

variable {m m' : CHashMap} (h : NodeFrame m m')
include h

theorem modifyOpt (hdr : Option Nat) {f : THashNode → THashNode} (hf : ∀ node, (f node).eraseNode = node.eraseNode) :
    NodeFrame m (m'.modifyOpt hdr f) := by
  obtain ⟨⟨hah, hat, -⟩, hnt, hbs, hal⟩ := CHashMap.header_modifyOpt m' hdr f
  refine ⟨hnt.trans h.nodeTotal, hbs.trans h.bucketSize, hah.trans h.addHead, hat.trans h.addTail,
    hal.trans h.allocator, fun j => ?_⟩
  exact (congrFun (m'.field_modifyOpt_of_eq hdr hf) j).trans (h.node j)

theorem setNodeNext (hdr v : Option Nat) : NodeFrame m (m'.setNodeNext hdr v) := h.modifyOpt hdr fun _ => rfl

theorem setNodePrev (hdr v : Option Nat) : NodeFrame m (m'.setNodePrev hdr v) := h.modifyOpt hdr fun _ => rfl

theorem setFreeList (v : Option Nat) : NodeFrame m (m'.setFreeList v) :=
  ⟨h.nodeTotal, h.bucketSize, h.addHead, h.addTail, h.allocator, h.node⟩

theorem setBucket (b : Nat) (v : Option Nat) : NodeFrame m (m'.setBucket b v) :=
  ⟨h.nodeTotal, h.bucketSize, h.addHead, h.addTail, h.allocator, h.node⟩

theorem setUsedNodeNum (n : Int) : NodeFrame m (m'.setUsedNodeNum n) :=
  ⟨h.nodeTotal, h.bucketSize, h.addHead, h.addTail, h.allocator, h.node⟩

theorem field {β : Type} (p : THashNode → β) (hp : ∀ node, p node.eraseNode = p node) (j : Nat) :
    p (m'.hashNode j) = p (m.hashNode j) := by
  rw [← hp, h.node, hp]

theorem key (j : Nat) : (m'.hashNode j).key = (m.hashNode j).key := h.field THashNode.key (fun _ => rfl) j

theorem chunkHead (j : Nat) : (m'.hashNode j).chunkHead = (m.hashNode j).chunkHead :=
  h.field THashNode.chunkHead (fun _ => rfl) j

theorem addNext : m'.addNext = m.addNext := funext (h.field THashNode.addNext fun _ => rfl)

theorem addPrev : m'.addPrev = m.addPrev := funext (h.field THashNode.addPrev fun _ => rfl)

theorem addRep {l : List Nat} (hrep : AddRep m l) : AddRep m' l :=
  hrep.congr h.addNext h.addPrev h.addHead h.addTail

end NodeFrame

/-- The free list of the pool runs through `free` and the chain of each bucket `b` through `chain b`. -/
structure NodeRep (m : CHashMap) (free : List Nat) (chain : Nat → List Nat) : Prop where
  freeChain : Chain m.nodeNext m.freeList free
  bucketChain : ∀ b, Chain m.nodeNext (m.bucket b) (chain b)
  bucketBack : ∀ b, Back m.nodePrev none (chain b)
  home : ∀ b, ∀ i ∈ chain b, m.getBucketId (m.hashNode i).key = b
  disjoint : ∀ b, ∀ i ∈ chain b, i ∉ free

namespace CHashMap

variable (m : CHashMap) (i : Nat)

theorem freeListInsert_frame : NodeFrame m (m.freeListInsert i) :=
  ((NodeFrame.refl m).setNodeNext _ _).setFreeList _

theorem insertNodeList_frame : NodeFrame m (m.insertNodeList i) := by
  refine NodeFrame.setUsedNodeNum (NodeFrame.setNodePrev (NodeFrame.setBucket ?_ _ _) _ _) _
  exact ((NodeFrame.refl m).setNodeNext _ _).setNodePrev _ _

theorem deleteFromNodeList_frame : NodeFrame m (m.deleteFromNodeList i) := by
  refine NodeFrame.setUsedNodeNum (NodeFrame.setNodePrev (NodeFrame.setNodeNext (NodeFrame.setBucket ?_ _ _) _ _) _ _) _
  exact ((NodeFrame.refl m).setNodeNext _ _).setNodePrev _ _

@[simp] theorem freeListInsert_links : (m.freeListInsert i).nodeNext = update m.nodeNext i m.freeList ∧
    (m.freeListInsert i).nodePrev = m.nodePrev ∧ (m.freeListInsert i).freeList = some i ∧
    (m.freeListInsert i).bucket = m.bucket ∧ (m.freeListInsert i).usedNodeNum = m.usedNodeNum := by
  simp [freeListInsert]

theorem insertNodeList_links : (m.insertNodeList i).nodeNext =
      update m.nodeNext i (m.bucket (m.getBucketId (m.hashNode i).key)) ∧ (m.insertNodeList i).nodePrev =
      setOpt (update m.nodePrev i none) (m.bucket (m.getBucketId (m.hashNode i).key)) (some i) ∧
    (m.insertNodeList i).freeList = m.freeList ∧
    (m.insertNodeList i).bucket = update m.bucket (m.getBucketId (m.hashNode i).key) (some i) ∧
    (m.insertNodeList i).usedNodeNum = m.usedNodeNum + 1 := by
  simp [insertNodeList]

/-- The bucket written by `delete_from_node_list` is that of the node's key, which its first two writes keep. -/
theorem deleteFromNodeList_links : (m.deleteFromNodeList i).nodeNext =
      update (setOpt m.nodeNext (m.nodePrev i) (m.nodeNext i)) i none ∧ (m.deleteFromNodeList i).nodePrev =
      update (setOpt m.nodePrev (m.nodeNext i) (m.nodePrev i)) i none ∧ (m.deleteFromNodeList i).freeList = m.freeList ∧
    (m.deleteFromNodeList i).bucket = update m.bucket (m.getBucketId (m.hashNode i).key)
      (if m.bucket (m.getBucketId (m.hashNode i).key) = some i then m.nodeNext i
        else m.bucket (m.getBucketId (m.hashNode i).key)) ∧ (m.deleteFromNodeList i).usedNodeNum = m.usedNodeNum - 1 := by
  have hframe : NodeFrame m ((m.setNodeNext (m.nodePrev i) (m.nodeNext i)).setNodePrev (m.nodeNext i) (m.nodePrev i)) :=
    ((NodeFrame.refl m).setNodeNext _ _).setNodePrev _ _
  have hid : getBucketId ((m.setNodeNext (m.nodePrev i) (m.nodeNext i)).setNodePrev (m.nodeNext i) (m.nodePrev i))
      (((m.setNodeNext (m.nodePrev i) (m.nodeNext i)).setNodePrev (m.nodeNext i) (m.nodePrev i)).hashNode i).key =
      m.getBucketId (m.hashNode i).key := by
    rw [hframe.key, getBucketId, getBucketId, hframe.bucketSize]
  simp [deleteFromNodeList, hid]

end CHashMap

namespace NodeRep

open CHashMap

variable {m m' : CHashMap} {free : List Nat} {chain : Nat → List Nat} {i : Nat}

def Detached (free : List Nat) (chain : Nat → List Nat) (i : Nat) : Prop := i ∉ free ∧ ∀ b, i ∉ chain b

section

variable (hrep : NodeRep m free chain)
include hrep

/-- What the lists depend on: their heads, and the links and keys of the nodes on them. -/
theorem congr (hfree : m'.freeList = m.freeList) (hbucket : m'.bucket = m.bucket) (hsize : m'.bucketSize = m.bucketSize)
    (hnode : ∀ j, ¬Detached free chain j →
      m'.nodeNext j = m.nodeNext j ∧ m'.nodePrev j = m.nodePrev j ∧ (m'.hashNode j).key = (m.hashNode j).key) :
    NodeRep m' free chain := by
  have hmemFree {j : Nat} (hj : j ∈ free) : ¬Detached free chain j := fun hdet => hdet.1 hj
  have hmemChain {b j : Nat} (hj : j ∈ chain b) : ¬Detached free chain j := fun hdet => hdet.2 b hj
  refine ⟨?_, fun b => ?_, fun b => ?_, fun b j hj => ?_, hrep.disjoint⟩
  · rw [hfree, chain_congr fun j hj => (hnode j (hmemFree hj)).1]
    exact hrep.freeChain
  · rw [hbucket, chain_congr fun j hj => (hnode j (hmemChain hj)).1]
    exact hrep.bucketChain b
  · rw [back_congr fun j hj => (hnode j (hmemChain hj)).2.1]
    exact hrep.bucketBack b
  rw [(hnode j (hmemChain hj)).2.2, getBucketId, hsize]
  exact hrep.home b j hj

theorem of_addFrame (hframe : AddFrame m m') : NodeRep m' free chain :=
  hrep.congr hframe.freeList hframe.bucket hframe.bucketSize fun j _ =>
    ⟨congrFun hframe.nodeNext j, congrFun hframe.nodePrev j, hframe.key j⟩

theorem modify_of_detached (hdet : Detached free chain i) (f : THashNode → THashNode) : NodeRep (m.modify i f) free chain := by
  refine hrep.congr rfl rfl rfl fun j hj => ?_
  have hji : j ≠ i := fun he => hj (he ▸ hdet)
  simp only [nodeNext, nodePrev, hashNode_modify_of_ne hji, and_self]

theorem chain_eq {b : Nat} (hi : i ∈ chain b) : m.getBucketId (m.hashNode i).key = b := hrep.home b i hi

theorem freeListInsert (hdet : Detached free chain i) : NodeRep (m.freeListInsert i) (i :: free) chain := by
  obtain ⟨hnext, hprev, hfree, hbucket, -⟩ := freeListInsert_links m i
  have hframe := freeListInsert_frame m i
  refine ⟨?_, fun b => ?_, fun b => ?_, fun b j hj => ?_, fun b j hj => ?_⟩
  · rw [hnext, hfree]
    exact hrep.freeChain.push hdet.1
  · rw [hnext, hbucket, chain_update_of_notMem (hdet.2 b)]
    exact hrep.bucketChain b
  · rw [hprev]
    exact hrep.bucketBack b
  · rw [hframe.key, getBucketId, hframe.bucketSize]
    exact hrep.home b j hj
  refine not_or.2 ⟨fun he => ?_, hrep.disjoint b j hj⟩ ∘ mem_cons.1
  exact hdet.2 b (he ▸ hj)

end

theorem freeListRemove (hrep : NodeRep m (i :: free) chain) :
    m.freeListRemove = (some i, (m.setFreeList (m.nodeNext i)).setNodeNext (some i) none) ∧
    NodeRep ((m.setFreeList (m.nodeNext i)).setNodeNext (some i) none) free chain ∧ Detached free chain i := by
  have hnd := nodup_cons.1 hrep.freeChain.nodup
  have hchain (b : Nat) : i ∉ chain b := fun hm => hrep.disjoint b i hm (by simp)
  obtain ⟨hhead, htail⟩ := hrep.freeChain
  have hframe : NodeFrame m ((m.setFreeList (m.nodeNext i)).setNodeNext (some i) none) :=
    ((NodeFrame.refl m).setFreeList _).setNodeNext _ _
  refine ⟨?_, ⟨?_, fun b => ?_, fun b => ?_, fun b j hj => ?_, fun b j hj hm => ?_⟩, hnd.1, hchain⟩
  · rw [CHashMap.freeListRemove, hhead]
  · simpa using (chain_update_of_notMem hnd.1).2 htail
  · simpa using (chain_update_of_notMem (hchain b)).2 (hrep.bucketChain b)
  · simpa using hrep.bucketBack b
  · rw [hframe.key, getBucketId, hframe.bucketSize]
    exact hrep.home b j hj
  exact hrep.disjoint b j hj (by simp [hm])

theorem insertNodeList (hrep : NodeRep m free chain) (hdet : Detached free chain i) : NodeRep (m.insertNodeList i) free
      (update chain (m.getBucketId (m.hashNode i).key) (i :: chain (m.getBucketId (m.hashNode i).key))) := by
  obtain ⟨hnext, hprev, hfree, hbucket, -⟩ := insertNodeList_links m i
  have hframe := insertNodeList_frame m i
  have hout (b : Nat) : i ∉ chain b := hdet.2 b
  refine ⟨?_, fun b => ?_, fun b => ?_, fun b j hj => ?_, fun b j hj => ?_⟩
  · rw [hnext, hfree, chain_update_of_notMem hdet.1]
    exact hrep.freeChain
  · rw [hnext, hbucket]
    by_cases hb : b = m.getBucketId (m.hashNode i).key
    · subst hb
      rw [update_self, update_self]
      exact (hrep.bucketChain _).push (hout _)
    rw [update_of_ne hb, update_of_ne hb, chain_update_of_notMem (hout b)]
    exact hrep.bucketChain b
  · rw [hprev]
    by_cases hb : b = m.getBucketId (m.hashNode i).key
    · subst hb
      rw [update_self]
      exact Back.push (hrep.bucketChain _) (hrep.bucketBack _) (hout _)
    rw [update_of_ne hb]
    refine (back_congr fun j hj => ?_).2 (hrep.bucketBack b)
    rw [setOpt_of_ne, update_of_ne (ne_of_mem_of_not_mem hj (hout b))]
    -- the old head of the other bucket is at home there
    intro he
    rw [(hrep.bucketChain _).head?_eq] at he
    exact hb ((hrep.chain_eq hj).symm.trans (hrep.chain_eq (mem_of_head? he)))
  · rw [hframe.key, getBucketId, hframe.bucketSize]
    by_cases hb : b = m.getBucketId (m.hashNode i).key
    · subst hb
      rw [update_self] at hj
      rcases mem_cons.1 hj with rfl | hj
      · rfl
      · exact hrep.home _ j hj
    rw [update_of_ne hb] at hj
    exact hrep.home b j hj
  by_cases hb : b = m.getBucketId (m.hashNode i).key
  · subst hb
    rw [update_self] at hj
    rcases mem_cons.1 hj with rfl | hj
    · exact hdet.1
    · exact hrep.disjoint _ j hj
  rw [update_of_ne hb] at hj
  exact hrep.disjoint b j hj

theorem links_mem (hrep : NodeRep m free chain) {b j : Nat} (hi : i ∈ chain b) :
    (m.nodeNext i = some j → j ∈ chain b) ∧ (m.nodePrev i = some j → j ∈ chain b) := by
  obtain ⟨l₁, l₂, hl⟩ := append_of_mem hi
  have hnext := Chain.next_eq (hl ▸ hrep.bucketChain b)
  have hprev := Back.prev_eq (hl ▸ hrep.bucketBack b)
  rw [Option.or_none] at hprev
  rw [hnext, hprev, hl]
  exact ⟨fun he => by simp [mem_of_head? he], fun he => by simp [mem_of_getLast? he]⟩

theorem deleteFromNodeList (hrep : NodeRep m free chain) (hi : i ∈ chain (m.getBucketId (m.hashNode i).key)) :
    NodeRep (m.deleteFromNodeList i) free (update chain (m.getBucketId (m.hashNode i).key)
      ((chain (m.getBucketId (m.hashNode i).key)).erase i)) ∧ Detached free (update chain (m.getBucketId (m.hashNode i).key)
      ((chain (m.getBucketId (m.hashNode i).key)).erase i)) i := by
  obtain ⟨hnext, hprev, hfree, hbucket, -⟩ := deleteFromNodeList_links m i
  have hframe := deleteFromNodeList_frame m i
  generalize hid : m.getBucketId (m.hashNode i).key = b₀ at *
  have hnd := (hrep.bucketChain b₀).nodup
  obtain ⟨l₁, l₂, hl⟩ := append_of_mem hi
  have hi₁ : i ∉ l₁ := fun hm => disjoint_of_nodup_append (hl ▸ hnd) hm (by simp)
  have herase : (chain b₀).erase i = l₁ ++ l₂ := by
    rw [hl, erase_append_right _ hi₁, erase_cons_head]
  have hsub {b j : Nat} (hj : j ∈ update chain b₀ ((chain b₀).erase i) b) : j ∈ chain b ∧ j ≠ i := by
    by_cases hb : b = b₀
    · subst hb
      rw [update_self, hnd.mem_erase_iff] at hj
      exact hj.symm
    rw [update_of_ne hb] at hj
    exact ⟨hj, fun he => hb ((hrep.chain_eq (he ▸ hj)).symm.trans hid)⟩
  have hother {b j : Nat} (hb : b ≠ b₀) (hj : j ∈ chain b) : j ∉ chain b₀ :=
    fun hm => hb ((hrep.chain_eq hj).symm.trans (hrep.chain_eq hm))
  -- outside the chain of `i` no link is written
  have hfar {j : Nat} (hj : j ∉ chain b₀) :
      (m.deleteFromNodeList i).nodeNext j = m.nodeNext j ∧ (m.deleteFromNodeList i).nodePrev j = m.nodePrev j := by
    have hji : j ≠ i := fun he => hj (he ▸ hi)
    rw [hnext, hprev, update_of_ne hji, update_of_ne hji, setOpt_of_ne, setOpt_of_ne]
    · exact ⟨rfl, rfl⟩
    · exact fun he => hj ((hrep.links_mem hi).1 he)
    exact fun he => hj ((hrep.links_mem hi).2 he)
  refine ⟨⟨?_, fun b => ?_, fun b => ?_, fun b j hj => ?_, fun b j hj => ?_⟩, ?_, fun b hm => (hsub hm).2 rfl⟩
  · rw [hfree, chain_congr fun j hj => (hfar fun hm => hrep.disjoint b₀ j hm hj).1]
    exact hrep.freeChain
  · rw [hbucket]
    by_cases hb : b = b₀
    · subst hb
      rw [update_self, update_self, hnext, herase, chain_update_of_notMem]
      · exact Chain.unlink (hl ▸ hrep.bucketChain b) (hl ▸ hrep.bucketBack b)
      · exact fun hm => (hsub (b := b) (by rwa [update_self, herase])).2 rfl
    rw [update_of_ne hb, update_of_ne hb, chain_congr fun j hj => (hfar (hother hb hj)).1]
    exact hrep.bucketChain b
  · by_cases hb : b = b₀
    · subst hb
      rw [update_self, hprev, herase, back_update_of_notMem]
      · exact Back.unlink (hl ▸ hrep.bucketChain b) (hl ▸ hrep.bucketBack b)
      · exact fun hm => (hsub (b := b) (by rwa [update_self, herase])).2 rfl
    rw [update_of_ne hb, back_congr fun j hj => (hfar (hother hb hj)).2]
    exact hrep.bucketBack b
  · rw [hframe.key, getBucketId, hframe.bucketSize]
    exact hrep.home b j (hsub hj).1
  · exact hrep.disjoint b j (hsub hj).1
  exact hrep.disjoint b₀ i hi

end NodeRep

end Mysql51.Cache
