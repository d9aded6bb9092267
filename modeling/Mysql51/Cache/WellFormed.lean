import Mysql51.Cache.NodeList
import Mysql51.Cache.Access

/-!
# The well-formed pool

`HashRep` ties the lists of a pool together: every node is free or used, the add list holds the used nodes, and no two
of them have the same key. The operations of `CHashMap` are first brought to a form that names what they do to the
allocator and to the lists apart (`place`, `fill`, `removed`); each form keeps the pool well formed.
-/

namespace Mysql51.Cache

open Link Function List Option

def THashNode.body (node : THashNode) : THashNode :=
  { node with nodeNext := none, nodePrev := none, addNext := none, addPrev := none }

theorem THashNode.key_eq {n n' : THashNode} (h : n.body = n'.body) : n.key = n'.key := by
  have hkey := congrArg THashNode.key h
  exact hkey

theorem AddFrame.body {m m' : CHashMap} (h : AddFrame m m') (j : Nat) :
    (m'.hashNode j).body = (m.hashNode j).body := h.field THashNode.body (fun _ => rfl) j

theorem NodeFrame.body {m m' : CHashMap} (h : NodeFrame m m') (j : Nat) :
    (m'.hashNode j).body = (m.hashNode j).body := h.field THashNode.body (fun _ => rfl) j

structure HashRep (m : CHashMap) (free : List Nat) (chain : Nat → List Nat) (add : List Nat) : Prop where
  nodes : NodeRep m free chain
  adds : AddRep m add
  used : ∀ i, i ∈ add ↔ ∃ b, i ∈ chain b
  total : (free ++ add).Perm (List.range m.nodeTotal)
  keys : ∀ i ∈ add, ∀ j ∈ add, (m.hashNode i).key = (m.hashNode j).key → i = j
  count : m.usedNodeNum = add.length

structure SameLinks (m m' : CHashMap) : Prop where
  nodeTotal : m'.nodeTotal = m.nodeTotal
  bucketSize : m'.bucketSize = m.bucketSize
  usedNodeNum : m'.usedNodeNum = m.usedNodeNum
  addHead : m'.addHead = m.addHead
  addTail : m'.addTail = m.addTail
  freeList : m'.freeList = m.freeList
  bucket : m'.bucket = m.bucket
  nodeNext : m'.nodeNext = m.nodeNext
  nodePrev : m'.nodePrev = m.nodePrev
  addNext : m'.addNext = m.addNext
  addPrev : m'.addPrev = m.addPrev
  key : ∀ j, (m'.hashNode j).key = (m.hashNode j).key

variable {f : THashNode → THashNode} {l : List Nat} {chain : Nat → List Nat} {key : TMBHashKey} {hdr : Option Nat}

namespace SameLinks

variable {m m' : CHashMap}

theorem refl (m : CHashMap) : SameLinks m m := ⟨rfl, rfl, rfl, rfl, rfl, rfl, rfl, rfl, rfl, rfl, rfl, fun _ => rfl⟩

section

variable (h : SameLinks m m')
include h

theorem setAllocator (a : CChunkAllocator) : SameLinks m (m'.setAllocator a) :=
  ⟨h.nodeTotal, h.bucketSize, h.usedNodeNum, h.addHead, h.addTail, h.freeList, h.bucket, h.nodeNext, h.nodePrev,
    h.addNext, h.addPrev, h.key⟩

theorem modify (i : Nat) (hnn : ∀ n, (f n).nodeNext = n.nodeNext)
    (hnp : ∀ n, (f n).nodePrev = n.nodePrev) (han : ∀ n, (f n).addNext = n.addNext)
    (hap : ∀ n, (f n).addPrev = n.addPrev) (hkey : ∀ n, (f n).key = n.key) : SameLinks m (m'.modify i f) := by
  refine ⟨h.nodeTotal, h.bucketSize, h.usedNodeNum, h.addHead, h.addTail, h.freeList, h.bucket, ?_, ?_, ?_, ?_, ?_⟩
  · exact (CHashMap.field_modify_of_eq (hnn _)).trans h.nodeNext
  · exact (CHashMap.field_modify_of_eq (hnp _)).trans h.nodePrev
  · exact (CHashMap.field_modify_of_eq (han _)).trans h.addNext
  · exact (CHashMap.field_modify_of_eq (hap _)).trans h.addPrev
  exact fun j => (congrFun (CHashMap.field_modify_of_eq (hkey _)) j).trans (h.key j)

theorem addRep (hrep : AddRep m l) : AddRep m' l :=
  hrep.congr h.addNext h.addPrev h.addHead h.addTail

theorem nodeRep {free : List Nat} (hrep : NodeRep m free chain) : NodeRep m' free chain :=
  hrep.congr h.freeList h.bucket h.bucketSize fun j _ => ⟨congrFun h.nodeNext j, congrFun h.nodePrev j, h.key j⟩

theorem hashRep {free add : List Nat} (hrep : HashRep m free chain add) : HashRep m' free chain add := by
  refine ⟨h.nodeRep hrep.nodes, h.addRep hrep.adds, hrep.used, ?_, fun i hi j hj hk => ?_, ?_⟩
  · rw [h.nodeTotal]
    exact hrep.total
  · rw [h.key, h.key] at hk
    exact hrep.keys i hi j hj hk
  rw [h.usedNodeNum]
  exact hrep.count

end

end SameLinks

namespace CHashMap

variable (m : CHashMap)

variable (i : Nat)

def taken : CHashMap := (m.setFreeList (m.nodeNext i)).setNodeNext (some i) none

theorem taken_frame : NodeFrame m (m.taken i) := ((NodeFrame.refl m).setFreeList _).setNodeNext _ _

/-- The end of `insert_node`: node `i`, just taken from the free list, is put to use. -/
def place (key : TMBHashKey) (len : Int) (head : Option Nat) (now : Int) (a : CChunkAllocator) : CHashMap :=
  let m := (((m.taken i).setAllocator a).useNode i key len head).modify i fun node => { node with addInfo1 := now }
  m.insertAddListHead i

def fill (len : Int) (head : Option Nat) (now : Int) (a : CChunkAllocator) : CHashMap :=
  let m := (m.setAllocator a).modify i fun node => { node with chunkLen := len, chunkHead := head, addInfo1 := now }
  m.insertAddListHead i

/-- The pool after `delete_node`, where the chunks of node `i` went back to the allocator `a`. -/
def removed (a : CChunkAllocator) : CHashMap :=
  let m := (m.deleteFromAddList i).deleteFromNodeList i
  ((m.setAllocator a).modify i fun _ => THashNode.init).freeListInsert i

theorem body_modify {i : Nat} (hf : ∀ n, (f n).body = (f n.body).body) (j : Nat) :
    ((m.modify i f).hashNode j).body = if j = i then (f (m.hashNode i).body).body else (m.hashNode j).body := by
  split
  · rename_i hj
    rw [hj, hashNode_modify_self, hf]
  rename_i hj
  rw [hashNode_modify_of_ne hj]

theorem body_place_self (key : TMBHashKey) (len : Int) (head : Option Nat) (now : Int) (a : CChunkAllocator) :
    ((m.place i key len head now a).hashNode i).body = THashNode.body { m.hashNode i with
      key := key, chunkLen := len, chunkHead := head, addInfo1 := now, addInfo2 := 0 } := by
  unfold place useNode
  rw [(insertAddListHead_frame _ i).body, body_modify _ fun _ => rfl, if_pos rfl, (insertNodeList_frame _ i).body,
    body_modify _ fun _ => rfl, if_pos rfl]
  exact congrArg (fun n : THashNode =>
    { n with key := key, chunkLen := len, chunkHead := head, addInfo1 := now, addInfo2 := 0 }) ((taken_frame m i).body i)

theorem body_place_of_ne {i j : Nat} (hj : j ≠ i) (key : TMBHashKey) (len : Int) (head : Option Nat) (now : Int)
    (a : CChunkAllocator) : ((m.place i key len head now a).hashNode j).body = (m.hashNode j).body := by
  unfold place useNode
  rw [(insertAddListHead_frame _ i).body, body_modify _ fun _ => rfl, if_neg hj, (insertNodeList_frame _ i).body,
    body_modify _ fun _ => rfl, if_neg hj]
  exact (taken_frame m i).body j

theorem body_fill_self (len : Int) (head : Option Nat) (now : Int) (a : CChunkAllocator) :
    ((m.fill i len head now a).hashNode i).body = THashNode.body { m.hashNode i with
      chunkLen := len, chunkHead := head, addInfo1 := now } := by
  unfold fill
  rw [(insertAddListHead_frame _ i).body, body_modify _ fun _ => rfl, if_pos rfl]
  rfl

theorem body_fill_of_ne {i j : Nat} (hj : j ≠ i) (len : Int) (head : Option Nat) (now : Int) (a : CChunkAllocator) :
    ((m.fill i len head now a).hashNode j).body = (m.hashNode j).body := by
  unfold fill
  rw [(insertAddListHead_frame _ i).body, body_modify _ fun _ => rfl, if_neg hj]
  rfl

theorem body_removed {i : Nat} (a : CChunkAllocator) {j : Nat} (hj : j ≠ i) :
    ((m.removed i a).hashNode j).body = (m.hashNode j).body := by
  unfold removed
  rw [(freeListInsert_frame _ i).body, hashNode_modify_of_ne hj]
  exact ((deleteFromNodeList_frame _ i).body j).trans ((deleteFromAddList_frame m i).body j)

theorem deleteNode_eq : m.deleteNode i = (m.allocator.free (m.hashNode i).chunkHead).map (m.removed i) := by
  have hchunk : (((m.deleteFromAddList i).deleteFromNodeList i).hashNode i).chunkHead = (m.hashNode i).chunkHead :=
    ((deleteFromNodeList_frame _ i).chunkHead i).trans ((deleteFromAddList_frame m i).chunkHead i)
  have halloc : ((m.deleteFromAddList i).deleteFromNodeList i).allocator = m.allocator :=
    (deleteFromNodeList_frame _ i).allocator.trans (deleteFromAddList_frame m i).allocator
  simp only [deleteNode, freeNode, hchunk, halloc]
  cases m.allocator.free (m.hashNode i).chunkHead <;> rfl

end CHashMap

/-- What `update_node` does to the chunks of a node: it exchanges the chain when the number of chunks changes. -/
def CChunkAllocator.refit (a : CChunkAllocator) (hdr : Option Nat) (oldLen : Int) (newData : List UInt8) (newLen : Int) :
    Option (Option Nat × CChunkAllocator) :=
  if a.getChunkNum oldLen ≠ a.getChunkNum newLen then do
    let a' ← a.free hdr
    let (a', head) ← a'.malloc (a.getChunkNum newLen)
    let a' ← a'.split head newData newLen
    some (head, a')
  else (a.split hdr newData newLen).map fun a' => (hdr, a')

def CChunkAllocator.Lacks (a : CChunkAllocator) (oldLen newLen : Int) : Prop :=
  a.getChunkNum oldLen < a.getChunkNum newLen ∧
    a.freeTotal < Machine.int32 (a.getChunkNum newLen - a.getChunkNum oldLen)
deriving Decidable

namespace CHashMap

variable (m : CHashMap)

theorem updateNode_eq (i : Nat) (newData : List UInt8) (newLen now : Int) : m.updateNode i newData newLen now =
      if m.allocator.Lacks (m.hashNode i).chunkLen newLen then some (none, m)
      else (m.allocator.refit (m.hashNode i).chunkHead (m.hashNode i).chunkLen newData newLen).map
        fun (head, a) => (some i, m.fill i newLen head now a) := by
  unfold updateNode CChunkAllocator.refit
  by_cases hnum : m.allocator.getChunkNum (m.hashNode i).chunkLen = m.allocator.getChunkNum newLen
  · have hlack : ¬m.allocator.Lacks (m.hashNode i).chunkLen newLen := fun h => by
      have := h.1
      omega
    simp only [hnum, ne_eq, not_true_eq_false, if_false, if_neg hlack]
    cases m.allocator.split (m.hashNode i).chunkHead newData newLen <;> rfl
  simp only [ne_eq, hnum, not_false_eq_true, if_true]
  split
  · rename_i hlack
    rw [if_pos (show m.allocator.Lacks _ _ from hlack)]
  rename_i hlack
  rw [if_neg (show ¬m.allocator.Lacks _ _ from hlack)]
  cases m.allocator.free (m.hashNode i).chunkHead with
  | none => rfl
  | some a =>
    dsimp only [bind_eq_bind, bind_some]
    cases a.malloc (m.allocator.getChunkNum newLen) with
    | none => rfl
    | some p =>
      dsimp only [bind_some]
      cases p.1.split p.2 newData newLen <;> rfl

theorem insertNode_of_full (hfree : m.freeList = none) (key : TMBHashKey) (newData : List UInt8) (newLen now : Int) :
    m.insertNode key newData newLen now = some (none, m) := by
  simp [insertNode, freeListRemove, hfree]

theorem freeListInsert_freeListRemove {i : Nat} (hfree : m.freeList = some i) (a : CChunkAllocator) :
    ((m.taken i).setAllocator a).freeListInsert i = m.setAllocator a := by
  simp only [taken, freeListInsert, setNodeNext, setFreeList, setAllocator, modifyOpt, modify, nodeNext, update_idem,
    update_self, ← hfree]
  congr 1
  exact update_eq_self i m.hashNode

theorem insertNode_of_free {i : Nat} (hfree : m.freeList = some i) (key : TMBHashKey) (newData : List UInt8) (newLen now : Int) :
    m.insertNode key newData newLen now = (m.allocator.malloc (m.allocator.getChunkNum newLen)).bind fun (a, head) =>
      if head = none then some (none, m.setAllocator a)
      else (a.split head newData newLen).map fun a => (some i, m.place i key newLen head now a) := by
  have hremove : m.freeListRemove = (some i, m.taken i) := by simp only [freeListRemove, hfree, taken]
  simp only [insertNode, hremove, (taken_frame m i).allocator, bind_eq_bind]
  cases m.allocator.malloc (m.allocator.getChunkNum newLen) with
  | none => rfl
  | some p =>
    obtain ⟨a, head⟩ := p
    dsimp only [bind_some]
    split
    · rw [freeListInsert_freeListRemove m hfree]
    have hset : ((m.taken i).setAllocator a).allocator = a := rfl
    rw [hset]
    cases a.split head newData newLen <;> rfl

end CHashMap

section Use

variable {m : CHashMap} {free add : List Nat} {chain : Nat → List Nat} {i : Nat}

open CHashMap

theorem NodeRep.useNode (hrep : NodeRep m free chain) (hdet : NodeRep.Detached free chain i) (key : TMBHashKey) (len : Int)
    (head : Option Nat) : NodeRep (m.useNode i key len head) free
      (update chain (m.getBucketId key) (i :: chain (m.getBucketId key))) := by
  have hrep' := (hrep.modify_of_detached hdet fun node =>
    { node with key := key, chunkLen := len, chunkHead := head, addInfo1 := 0, addInfo2 := 0 }).insertNodeList hdet
  rw [hashNode_modify_self] at hrep'
  exact hrep'

theorem AddRep.useNode (hrep : AddRep m add) (i : Nat) (key : TMBHashKey) (len : Int) (head : Option Nat) :
    AddRep (m.useNode i key len head) add :=
  (insertNodeList_frame _ i).addRep (hrep.congr (field_modify_of_eq rfl) (field_modify_of_eq rfl) rfl rfl)

theorem place_lists (hnodes : NodeRep m (i :: free) chain) (hadds : AddRep m add) (hadd : i ∉ add) (key : TMBHashKey)
    (len : Int) (head : Option Nat) (now : Int) (a : CChunkAllocator) : NodeRep (m.place i key len head now a) free
      (update chain (m.getBucketId key) (i :: chain (m.getBucketId key))) ∧
    AddRep (m.place i key len head now a) (i :: add) ∧ (m.place i key len head now a).nodeTotal = m.nodeTotal ∧
    (m.place i key len head now a).usedNodeNum = m.usedNodeNum + 1 := by
  obtain ⟨-, htaken, hdet⟩ := hnodes.freeListRemove
  have hnodes₁ := NodeRep.useNode (((SameLinks.refl (m.taken i)).setAllocator a).nodeRep htaken) hdet key len head
  have hadds₁ := AddRep.useNode (((SameLinks.refl (m.taken i)).setAllocator a).addRep ((taken_frame m i).addRep hadds))
    i key len head
  have hid : ((m.taken i).setAllocator a).getBucketId key = m.getBucketId key := by
    rw [getBucketId, getBucketId]
    exact congrArg _ (taken_frame m i).bucketSize
  rw [hid] at hnodes₁
  have hsame (m' : CHashMap) : SameLinks m' (m'.modify i fun node => { node with addInfo1 := now }) := by
    refine SameLinks.modify (SameLinks.refl _) i ?_ ?_ ?_ ?_ ?_ <;> exact fun _ => rfl
  have hframe (m' : CHashMap) := insertAddListHead_frame m' i
  have hadds₂ := ((hsame _).addRep hadds₁).insertHead i
  rw [erase_of_not_mem hadd] at hadds₂
  refine ⟨((hsame _).nodeRep hnodes₁).of_addFrame (hframe _), hadds₂, ?_, ?_⟩
  · simp only [CHashMap.place, CHashMap.useNode, (hframe _).nodeTotal, (insertNodeList_frame _ i).nodeTotal, header_modify,
      header_setAllocator, (taken_frame m i).nodeTotal]
  simp [CHashMap.place, CHashMap.useNode, (hframe _).usedNodeNum, (insertNodeList_links _ i).2.2.2.2, taken]

end Use

namespace HashRep

open CHashMap

variable {m : CHashMap} {free add : List Nat} {chain : Nat → List Nat} {i : Nat}

section

variable (hrep : HashRep m free chain add)
include hrep

theorem nodup : (free ++ add).Nodup :=
  hrep.total.nodup_iff.2 nodup_range

theorem mem_chain (hi : i ∈ add) : i ∈ chain (m.getBucketId (m.hashNode i).key) := by
  obtain ⟨b, hb⟩ := (hrep.used i).1 hi
  rwa [hrep.nodes.home b i hb]

theorem notMem_free (hi : i ∈ add) : i ∉ free :=
  fun hm => disjoint_of_nodup_append hrep.nodup hm hi

theorem perm_add {add' : List Nat} (hperm : add'.Perm add) :
    (∀ i, i ∈ add' ↔ ∃ b, i ∈ chain b) ∧ (free ++ add').Perm (List.range m.nodeTotal) :=
  ⟨fun i => hperm.mem_iff.trans (hrep.used i), (hperm.append_left free).trans hrep.total⟩

theorem touch (hi : i ∈ add) : HashRep (m.insertAddListHead i) free chain (i :: add.erase i) := by
  have hframe := insertAddListHead_frame m i
  have hperm : (i :: add.erase i).Perm add := (perm_cons_erase hi).symm
  obtain ⟨hused, htotal⟩ := hrep.perm_add hperm
  refine ⟨hrep.nodes.of_addFrame hframe, hrep.adds.insertHead i, hused, ?_, fun j hj k hk hkey => ?_, ?_⟩
  · rw [hframe.nodeTotal]
    exact htotal
  · rw [hframe.key, hframe.key] at hkey
    exact hrep.keys j (hperm.mem_iff.1 hj) k (hperm.mem_iff.1 hk) hkey
  rw [hframe.usedNodeNum, hrep.count, hperm.length_eq]

theorem fill (hi : i ∈ add) (len : Int) (head : Option Nat) (now : Int)
    (a : CChunkAllocator) : HashRep (m.fill i len head now a) free chain (i :: add.erase i) := by
  refine touch (SameLinks.hashRep (SameLinks.modify ((SameLinks.refl m).setAllocator a) i ?_ ?_ ?_ ?_ ?_) hrep) hi <;>
    exact fun _ => rfl

theorem setNodeFlag (i : Nat) (flag : ENodeFlag) : HashRep (m.setNodeFlag i flag) free chain add := by
  refine SameLinks.hashRep (SameLinks.modify (SameLinks.refl m) i ?_ ?_ ?_ ?_ ?_) hrep <;> exact fun _ => rfl

theorem setExpiretime (i : Nat) (expiretime : Int) : HashRep (m.setExpiretime i expiretime) free chain add := by
  refine SameLinks.hashRep (SameLinks.modify (SameLinks.refl m) i ?_ ?_ ?_ ?_ ?_) hrep <;> exact fun _ => rfl

theorem setAllocator (a : CChunkAllocator) :
    HashRep (m.setAllocator a) free chain add := ((SameLinks.refl m).setAllocator a).hashRep hrep

end

/-- The node at the head of the free list is put to use under a key that is not in the pool. -/
theorem place (hrep : HashRep m (i :: free) chain add) (hkey : ∀ j ∈ add, (m.hashNode j).key ≠ key)
    (len : Int) (head : Option Nat) (now : Int) (a : CChunkAllocator) : HashRep (m.place i key len head now a) free
      (update chain (m.getBucketId key) (i :: chain (m.getBucketId key))) (i :: add) := by
  have hadd : i ∉ add := fun hm => hrep.notMem_free hm (by simp)
  obtain ⟨hnodes, hadds, htotal, hcount⟩ := place_lists hrep.nodes hrep.adds hadd key len head now a
  refine ⟨hnodes, hadds, fun j => ?_, ?_, fun j hj k hk hjk => ?_, ?_⟩
  · rw [mem_cons, hrep.used]
    constructor
    · rintro (rfl | ⟨b, hb⟩)
      · exact ⟨m.getBucketId key, by simp⟩
      by_cases hbk : b = m.getBucketId key
      · exact ⟨b, by simp [← hbk, hb]⟩
      · exact ⟨b, by simp [update_of_ne hbk, hb]⟩
    rintro ⟨b, hb⟩
    by_cases hbk : b = m.getBucketId key
    · subst hbk
      rw [update_self] at hb
      exact (mem_cons.1 hb).imp_right fun hm => ⟨_, hm⟩
    rw [update_of_ne hbk] at hb
    exact .inr ⟨b, hb⟩
  · rw [htotal]
    exact perm_middle.trans hrep.total
  · -- the new key meets none of the old ones
    have hold {j : Nat} (hj : j ∈ add) : ((m.place i key len head now a).hashNode j).key = (m.hashNode j).key :=
      THashNode.key_eq (body_place_of_ne m (ne_of_mem_of_not_mem hj hadd) key len head now a)
    have hnew :=
      THashNode.key_eq (body_place_self m i key len head now a)
    rcases mem_cons.1 hj with rfl | hj' <;> rcases mem_cons.1 hk with rfl | hk'
    · rfl
    · exact absurd ((hold hk').symm.trans (hjk.symm.trans hnew)) (hkey k hk')
    · exact absurd ((hold hj').symm.trans (hjk.trans hnew)) (hkey j hj')
    exact hrep.keys j hj' k hk' ((hold hj').symm.trans (hjk.trans (hold hk')))
  rw [hcount, hrep.count, length_cons, Nat.cast_succ]

section

variable (hrep : HashRep m free chain add)
include hrep

theorem removed_lists (hi : i ∈ add) (a : CChunkAllocator) :
    NodeRep (m.removed i a) (i :: free) (update chain (m.getBucketId (m.hashNode i).key)
      ((chain (m.getBucketId (m.hashNode i).key)).erase i)) ∧
    AddRep (m.removed i a) (add.erase i) ∧ (m.removed i a).nodeTotal = m.nodeTotal ∧
    (m.removed i a).usedNodeNum = m.usedNodeNum - 1 := by
  have hframe := deleteFromAddList_frame m i
  have hid : (m.deleteFromAddList i).getBucketId ((m.deleteFromAddList i).hashNode i).key = m.getBucketId (m.hashNode i).key := by
    rw [hframe.key, getBucketId, getBucketId, hframe.bucketSize]
  obtain ⟨hnodes, hdet⟩ := (hrep.nodes.of_addFrame hframe).deleteFromNodeList (i := i) (by rw [hid]; exact hrep.mem_chain hi)
  rw [hid] at hnodes hdet
  have hnodes₁ := NodeRep.modify_of_detached (((SameLinks.refl _).setAllocator a).nodeRep hnodes) hdet fun _ => THashNode.init
  have hadds := ((SameLinks.refl _).setAllocator a).addRep ((deleteFromNodeList_frame _ i).addRep (hrep.adds.delete i))
  have hout : i ∉ add.erase i := fun hm => (hrep.adds.chain.nodup.mem_erase_iff.1 hm).1 rfl
  -- the node leaves the add list with null links, which `init_node` writes again
  have hnext := (hadds.off i hout).1
  have hprev := (hadds.off i hout).2
  have hadds₁ : AddRep ((((m.deleteFromAddList i).deleteFromNodeList i).setAllocator a).modify i fun _ => THashNode.init)
      (add.erase i) := by
    refine hadds.congr (field_modify_of_eq ?_) (field_modify_of_eq ?_) rfl rfl
    · exact hnext.symm
    · exact hprev.symm
  refine ⟨hnodes₁.freeListInsert hdet, (freeListInsert_frame _ i).addRep hadds₁, ?_, ?_⟩
  · simp only [CHashMap.removed, (freeListInsert_frame _ i).nodeTotal, header_modify, header_setAllocator,
      (deleteFromNodeList_frame _ i).nodeTotal, hframe.nodeTotal]
  simp [CHashMap.removed, (deleteFromNodeList_links _ i).2.2.2.2, hframe.usedNodeNum]

theorem removed (hi : i ∈ add) (a : CChunkAllocator) :
    HashRep (m.removed i a) (i :: free) (update chain (m.getBucketId (m.hashNode i).key)
      ((chain (m.getBucketId (m.hashNode i).key)).erase i)) (add.erase i) := by
  obtain ⟨hnodes, hadds, htotal, hcount⟩ := hrep.removed_lists hi a
  have hnd := hrep.adds.chain.nodup
  have hbody {j : Nat} (hj : j ∈ add.erase i) : ((m.removed i a).hashNode j).key = (m.hashNode j).key :=
    THashNode.key_eq (body_removed m a (hnd.mem_erase_iff.1 hj).1)
  refine ⟨hnodes, hadds, fun j => ?_, ?_, fun j hj k hk hjk => ?_, ?_⟩
  · rw [hnd.mem_erase_iff, hrep.used]
    constructor
    · rintro ⟨hji, b, hb⟩
      by_cases hbk : b = m.getBucketId (m.hashNode i).key
      · exact ⟨b, by rw [hbk, update_self, ← hbk, ((hrep.nodes.bucketChain b).nodup).mem_erase_iff]; exact ⟨hji, hb⟩⟩
      · exact ⟨b, by rwa [update_of_ne hbk]⟩
    rintro ⟨b, hb⟩
    by_cases hbk : b = m.getBucketId (m.hashNode i).key
    · rw [hbk, update_self, ((hrep.nodes.bucketChain _).nodup).mem_erase_iff] at hb
      exact ⟨hb.1, _, hb.2⟩
    rw [update_of_ne hbk] at hb
    exact ⟨fun he => hbk (hrep.nodes.home b i (he ▸ hb)).symm, b, hb⟩
  · rw [htotal]
    refine List.Perm.trans ?_ hrep.total
    exact perm_middle.symm.trans ((perm_cons_erase hi).symm.append_left free)
  · rw [hbody hj, hbody hk] at hjk
    exact hrep.keys j (mem_of_mem_erase hj) k (mem_of_mem_erase hk) hjk
  rw [hcount, hrep.count, length_erase_of_mem hi]
  have hpos := length_pos_of_mem hi
  omega

theorem add_length_le : add.length ≤ m.nodeTotal := by
  have hlen := hrep.total.length_eq
  rw [length_append, length_range] at hlen
  omega

theorem chain_length_le (b : Nat) : (chain b).length ≤ m.nodeTotal := by
  have hsub : (chain b).Subperm add :=
    subperm_of_subset (hrep.nodes.bucketChain b).nodup fun j hj => (hrep.used j).2 ⟨b, hj⟩
  exact hsub.length_le.trans hrep.add_length_le

end

theorem findLoop_eq (hl : Chain m.nodeNext hdr l) (key : TMBHashKey) {fuel : Nat}
    (hfuel : l.length ≤ fuel) : m.findLoop key fuel hdr = some (l.find? fun j => (m.hashNode j).key = key) := by
  induction l generalizing hdr fuel with
  | nil =>
    rw [chain_nil] at hl
    subst hl
    cases fuel <;> rfl
  | cons j l ih =>
    obtain ⟨rfl, hl⟩ := hl
    cases fuel with
    | zero => simp at hfuel
    | succ fuel =>
      rw [length_cons, Nat.add_le_add_iff_right] at hfuel
      by_cases hkey : (m.hashNode j).key = key
      · simp [findLoop, hkey]
      · simp [findLoop, hkey, ih hl hfuel]

theorem findNode_some (hrep : HashRep m free chain add) (hi : i ∈ add) :
    m.findNode (m.hashNode i).key = some (some i, m.insertAddListHead i) := by
  have hloop := findLoop_eq (hrep.nodes.bucketChain (m.getBucketId (m.hashNode i).key)) (m.hashNode i).key
    (hrep.chain_length_le _)
  have hfind : (chain (m.getBucketId (m.hashNode i).key)).find?
      (fun j => (m.hashNode j).key = (m.hashNode i).key) = some i := by
    cases hcase : (chain (m.getBucketId (m.hashNode i).key)).find? fun j => (m.hashNode j).key = (m.hashNode i).key with
    | none => exact absurd (List.find?_eq_none.1 hcase i (hrep.mem_chain hi)) (by simp)
    | some j =>
      have hj := (hrep.used j).2 ⟨_, mem_of_find?_eq_some hcase⟩
      rw [hrep.keys j hj i hi (by simpa using List.find?_some hcase)]
  simp only [findNode, hloop, hfind, Machine.some_bind_eq]

theorem findNode_none (hrep : HashRep m free chain add) (hkey : ∀ j ∈ add, (m.hashNode j).key ≠ key) :
    m.findNode key = some (none, m) := by
  have hloop := findLoop_eq (hrep.nodes.bucketChain (m.getBucketId key)) key (hrep.chain_length_le _)
  have hfind : (chain (m.getBucketId key)).find? (fun j => (m.hashNode j).key = key) = none :=
    List.find?_eq_none.2 fun j hj => by simpa using hkey j ((hrep.used j).2 ⟨_, hj⟩)
  simp only [findNode, hloop, hfind, Machine.some_bind_eq]

theorem key_cases (m : CHashMap) (add : List Nat) (key : TMBHashKey) :
    (∃ i ∈ add, (m.hashNode i).key = key) ∨ ∀ j ∈ add, (m.hashNode j).key ≠ key := by
  by_cases h : ∃ i ∈ add, (m.hashNode i).key = key
  · exact .inl h
  · exact .inr fun j hj he => h ⟨j, hj, he⟩

end HashRep

namespace CHashMap

variable (m : CHashMap) (i : Nat)

theorem sizes_place (key : TMBHashKey) (len : Int) (head : Option Nat) (now : Int) (a : CChunkAllocator) :
    (m.place i key len head now a).nodeTotal = m.nodeTotal ∧ (m.place i key len head now a).bucketSize = m.bucketSize ∧
    (m.place i key len head now a).allocator = a := by
  simp only [place, useNode, (insertAddListHead_frame _ i).nodeTotal, (insertAddListHead_frame _ i).bucketSize,
    (insertAddListHead_frame _ i).allocator, (insertNodeList_frame _ i).nodeTotal, (insertNodeList_frame _ i).bucketSize,
    (insertNodeList_frame _ i).allocator, header_modify, header_setAllocator, (taken_frame m i).nodeTotal,
    (taken_frame m i).bucketSize, and_self]

theorem sizes_fill (len : Int) (head : Option Nat) (now : Int) (a : CChunkAllocator) :
    (m.fill i len head now a).nodeTotal = m.nodeTotal ∧ (m.fill i len head now a).bucketSize = m.bucketSize ∧
    (m.fill i len head now a).allocator = a :=
  ⟨(insertAddListHead_frame _ i).nodeTotal, (insertAddListHead_frame _ i).bucketSize, (insertAddListHead_frame _ i).allocator⟩

theorem sizes_removed (a : CChunkAllocator) :
    (m.removed i a).nodeTotal = m.nodeTotal ∧ (m.removed i a).bucketSize = m.bucketSize ∧ (m.removed i a).allocator = a := by
  simp only [removed, (freeListInsert_frame _ i).nodeTotal, (freeListInsert_frame _ i).bucketSize,
    (freeListInsert_frame _ i).allocator, header_modify, header_setAllocator, (deleteFromNodeList_frame _ i).nodeTotal,
    (deleteFromNodeList_frame _ i).bucketSize, (deleteFromAddList_frame m i).nodeTotal,
    (deleteFromAddList_frame m i).bucketSize, and_self]

end CHashMap

def HashOk (nodeTotal bucketSize : Nat) (m : CHashMap) (add : List Nat) : Prop :=
  m.nodeTotal = nodeTotal ∧ m.bucketSize = bucketSize ∧ ∃ free chain, HashRep m free chain add

def WellFormed (nodeTotal bucketSize : Nat) (m : CHashMap) : Prop := ∃ add, HashOk nodeTotal bucketSize m add

theorem CHashMap.freeNodeCount_eq {m : CHashMap} (hl : Chain m.nodeNext hdr l) {fuel : Nat}
    (hfuel : l.length ≤ fuel) : m.freeNodeCount fuel hdr = some l.length := by
  induction l generalizing hdr fuel with
  | nil =>
    rw [chain_nil] at hl
    subst hl
    cases fuel <;> rfl
  | cons j l ih =>
    obtain ⟨rfl, hl⟩ := hl
    cases fuel with
    | zero => simp at hfuel
    | succ fuel => simp [freeNodeCount, ih hl (by simpa using hfuel)]

namespace HashOk

open CHashMap

variable {nodeTotal bucketSize : Nat} {m m' : CHashMap} {add : List Nat} {i : Nat}

theorem verifyPoolData (h : HashOk nodeTotal bucketSize m add) : m.verifyPoolData nodeTotal bucketSize = some 0 := by
  obtain ⟨hnode, hbucket, free, chain, hrep⟩ := h
  have hlen := hrep.total.length_eq
  rw [length_append, length_range] at hlen
  have hcount := freeNodeCount_eq hrep.nodes.freeChain (show free.length ≤ m.nodeTotal by omega)
  have hsum : m.usedNodeNum + (free.length : Int) = m.nodeTotal := by
    rw [hrep.count]
    omega
  simp [CHashMap.verifyPoolData, ← hnode, ← hbucket, hcount, hsum]

theorem of_sizes (h : HashOk nodeTotal bucketSize m add) {add' free' : List Nat} {chain' : Nat → List Nat}
    (hnode : m'.nodeTotal = m.nodeTotal) (hbucket : m'.bucketSize = m.bucketSize) (hrep : HashRep m' free' chain' add') :
    HashOk nodeTotal bucketSize m' add' := ⟨hnode.trans h.1, hbucket.trans h.2.1, _, _, hrep⟩

variable {key : TMBHashKey} {node : Option Nat} {newData : List UInt8} {newLen now : Int}

section

variable (h : HashOk nodeTotal bucketSize m add)
include h

theorem findNode (hfind : m.findNode key = some (node, m')) :
    ∃ add', HashOk nodeTotal bucketSize m' add' ∧ (∀ i, node = some i → i ∈ add') ∧
      (node = none → ∀ j ∈ add', (m'.hashNode j).key ≠ key) := by
  obtain ⟨free, chain, hrep⟩ := h.2.2
  rcases HashRep.key_cases m add key with ⟨i, hi, rfl⟩ | hkey
  · rw [hrep.findNode_some hi] at hfind
    cases hfind
    have hframe := insertAddListHead_frame m i
    exact ⟨_, h.of_sizes hframe.nodeTotal hframe.bucketSize (hrep.touch hi), by simp, by simp⟩
  rw [hrep.findNode_none hkey] at hfind
  cases hfind
  exact ⟨_, h, by simp, fun _ => hkey⟩

theorem insertNode (hkey : ∀ j ∈ add, (m.hashNode j).key ≠ key)
    (hinsert : m.insertNode key newData newLen now = some (node, m')) : WellFormed nodeTotal bucketSize m' := by
  obtain ⟨free, chain, hrep⟩ := h.2.2
  cases free with
  | nil =>
    rw [insertNode_of_full m hrep.nodes.freeChain] at hinsert
    cases hinsert
    exact ⟨_, h⟩
  | cons i free =>
    rw [insertNode_of_free m hrep.nodes.freeChain.1, bind_eq_some_iff] at hinsert
    obtain ⟨⟨a, head⟩, -, hinsert⟩ := hinsert
    dsimp only at hinsert
    split at hinsert
    · cases hinsert
      exact ⟨_, h.of_sizes rfl rfl (hrep.setAllocator a)⟩
    obtain ⟨a', -, heq⟩ := map_eq_some_iff.1 hinsert
    cases heq
    have hsizes := sizes_place m i key newLen head now a'
    exact ⟨_, h.of_sizes hsizes.1 hsizes.2.1 (hrep.place hkey newLen head now a')⟩

theorem updateNode (hi : i ∈ add)
    (hupdate : m.updateNode i newData newLen now = some (node, m')) : WellFormed nodeTotal bucketSize m' := by
  obtain ⟨free, chain, hrep⟩ := h.2.2
  rw [updateNode_eq] at hupdate
  split at hupdate
  · cases hupdate
    exact ⟨_, h⟩
  obtain ⟨⟨head, a⟩, -, heq⟩ := map_eq_some_iff.1 hupdate
  cases heq
  have hsizes := sizes_fill m i newLen head now a
  exact ⟨_, h.of_sizes hsizes.1 hsizes.2.1 (hrep.fill hi newLen head now a)⟩

theorem replaceNode (hreplace : m.replaceNode key newData newLen now = some (node, m')) : WellFormed nodeTotal bucketSize m' := by
  unfold CHashMap.replaceNode at hreplace
  obtain ⟨⟨found, m₁⟩, hfind, hreplace⟩ := bind_eq_some_iff.1 hreplace
  obtain ⟨add₁, h₁, hsome, hnone⟩ := h.findNode hfind
  cases found with
  | none => exact h₁.insertNode (hnone rfl) hreplace
  | some i => exact h₁.updateNode (hsome i rfl) hreplace

theorem deleteNode (hi : i ∈ add) (hdelete : m.deleteNode i = some m') : HashOk nodeTotal bucketSize m' (add.erase i) := by
  obtain ⟨free, chain, hrep⟩ := h.2.2
  rw [deleteNode_eq] at hdelete
  obtain ⟨a, -, rfl⟩ := map_eq_some_iff.1 hdelete
  have hsizes := sizes_removed m i a
  exact h.of_sizes hsizes.1 hsizes.2.1 (hrep.removed hi a)

end

end HashOk

end Mysql51.Cache
