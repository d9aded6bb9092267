import Mysql51.Cache.HashMap

/-!
# The add list

`AddRep m l` reads the add list of a pool as the list of node numbers `l`, most recently used first. The two functions
that change it act on that list, `delete_from_add_list` as `erase` and `insert_add_list_head` as a move to the front,
and leave everything else of the pool alone (`AddFrame`).
-/

namespace Mysql51.Cache

open Link Function List

variable {β : Type} {f : THashNode → THashNode}

namespace CHashMap

theorem hashNode_modify (m : CHashMap) (i : Nat) (f : THashNode → THashNode) :
    (m.modify i f).hashNode = update m.hashNode i (f (m.hashNode i)) := rfl

@[simp] theorem hashNode_modify_self (m : CHashMap) (i : Nat) (f : THashNode → THashNode) :
    (m.modify i f).hashNode i = f (m.hashNode i) := update_self _ _ _

theorem hashNode_modify_of_ne {m : CHashMap} {i j : Nat} (hne : j ≠ i) (f : THashNode → THashNode) :
    (m.modify i f).hashNode j = m.hashNode j := update_of_ne hne _ _

theorem field_modify (p : THashNode → β) (m : CHashMap) (i : Nat) (f : THashNode → THashNode) :
    (fun j => p ((m.modify i f).hashNode j)) = update (fun j => p (m.hashNode j)) i (p (f (m.hashNode i))) := by
  funext j
  by_cases hj : j = i
  · subst hj
    rw [hashNode_modify_self, update_self]
  rw [hashNode_modify_of_ne hj, update_of_ne hj]

theorem field_modify_of_eq {p : THashNode → β} {m : CHashMap} {i : Nat}
    (hf : p (f (m.hashNode i)) = p (m.hashNode i)) : (fun j => p ((m.modify i f).hashNode j)) = fun j => p (m.hashNode j) := by
  rw [field_modify, hf]
  exact update_eq_self i _

theorem field_modifyOpt (p : THashNode → β) (m : CHashMap) (hdr : Option Nat) (f : THashNode → THashNode)
    (v : β) (hf : ∀ node, p (f node) = v) :
    (fun j => p ((m.modifyOpt hdr f).hashNode j)) = setOpt (fun j => p (m.hashNode j)) hdr v := by
  cases hdr with
  | none => rfl
  | some i => rw [modifyOpt, field_modify, hf, setOpt_some]

theorem field_modifyOpt_of_eq {p : THashNode → β} (m : CHashMap) (hdr : Option Nat) (hf : ∀ node, p (f node) = p node) :
    (fun j => p ((m.modifyOpt hdr f).hashNode j)) = fun j => p (m.hashNode j) := by
  cases hdr with
  | none => rfl
  | some i => exact field_modify_of_eq (hf _)

abbrev HasHeader (m : CHashMap) (addHead addTail freeList : Option Nat) (bucket : Nat → Option Nat) (usedNodeNum : Int) : Prop :=
  m.addHead = addHead ∧ m.addTail = addTail ∧ m.freeList = freeList ∧ m.bucket = bucket ∧ m.usedNodeNum = usedNodeNum

abbrev HasLinks (m : CHashMap) (nodeNext nodePrev addNext addPrev : Nat → Option Nat) : Prop :=
  m.nodeNext = nodeNext ∧ m.nodePrev = nodePrev ∧ m.addNext = addNext ∧ m.addPrev = addPrev

section Links

variable (m : CHashMap) (hdr v : Option Nat)

@[simp] theorem header_modify (i : Nat) (f : THashNode → THashNode) :
    (m.modify i f).HasHeader m.addHead m.addTail m.freeList m.bucket m.usedNodeNum ∧ (m.modify i f).nodeTotal = m.nodeTotal ∧
      (m.modify i f).bucketSize = m.bucketSize ∧ (m.modify i f).allocator = m.allocator :=
  ⟨⟨rfl, rfl, rfl, rfl, rfl⟩, rfl, rfl, rfl⟩

theorem header_modifyOpt (f : THashNode → THashNode) :
    (m.modifyOpt hdr f).HasHeader m.addHead m.addTail m.freeList m.bucket m.usedNodeNum ∧
      (m.modifyOpt hdr f).nodeTotal = m.nodeTotal ∧ (m.modifyOpt hdr f).bucketSize = m.bucketSize ∧
      (m.modifyOpt hdr f).allocator = m.allocator := by
  cases hdr <;> simp [modifyOpt, HasHeader]

@[simp] theorem header_setNodeNext : (m.setNodeNext hdr v).HasHeader m.addHead m.addTail m.freeList m.bucket m.usedNodeNum :=
  (header_modifyOpt m hdr _).1

@[simp] theorem header_setNodePrev : (m.setNodePrev hdr v).HasHeader m.addHead m.addTail m.freeList m.bucket m.usedNodeNum :=
  (header_modifyOpt m hdr _).1

@[simp] theorem header_setAddNext : (m.setAddNext hdr v).HasHeader m.addHead m.addTail m.freeList m.bucket m.usedNodeNum :=
  (header_modifyOpt m hdr _).1

@[simp] theorem header_setAddPrev : (m.setAddPrev hdr v).HasHeader m.addHead m.addTail m.freeList m.bucket m.usedNodeNum :=
  (header_modifyOpt m hdr _).1

@[simp] theorem links_setNodeNext : (m.setNodeNext hdr v).HasLinks (setOpt m.nodeNext hdr v) m.nodePrev m.addNext m.addPrev :=
  ⟨field_modifyOpt _ m hdr _ v fun _ => rfl, field_modifyOpt_of_eq m hdr fun _ => rfl, field_modifyOpt_of_eq m hdr fun _ => rfl,
    field_modifyOpt_of_eq m hdr fun _ => rfl⟩

@[simp] theorem links_setNodePrev : (m.setNodePrev hdr v).HasLinks m.nodeNext (setOpt m.nodePrev hdr v) m.addNext m.addPrev :=
  ⟨field_modifyOpt_of_eq m hdr fun _ => rfl, field_modifyOpt _ m hdr _ v fun _ => rfl, field_modifyOpt_of_eq m hdr fun _ => rfl,
    field_modifyOpt_of_eq m hdr fun _ => rfl⟩

@[simp] theorem links_setAddNext : (m.setAddNext hdr v).HasLinks m.nodeNext m.nodePrev (setOpt m.addNext hdr v) m.addPrev :=
  ⟨field_modifyOpt_of_eq m hdr fun _ => rfl, field_modifyOpt_of_eq m hdr fun _ => rfl, field_modifyOpt _ m hdr _ v fun _ => rfl,
    field_modifyOpt_of_eq m hdr fun _ => rfl⟩

@[simp] theorem links_setAddPrev : (m.setAddPrev hdr v).HasLinks m.nodeNext m.nodePrev m.addNext (setOpt m.addPrev hdr v) :=
  ⟨field_modifyOpt_of_eq m hdr fun _ => rfl, field_modifyOpt_of_eq m hdr fun _ => rfl, field_modifyOpt_of_eq m hdr fun _ => rfl,
    field_modifyOpt _ m hdr _ v fun _ => rfl⟩

@[simp] theorem links_setFreeList : (m.setFreeList v).HasLinks m.nodeNext m.nodePrev m.addNext m.addPrev := ⟨rfl, rfl, rfl, rfl⟩

@[simp] theorem links_setAddHead : (m.setAddHead v).HasLinks m.nodeNext m.nodePrev m.addNext m.addPrev := ⟨rfl, rfl, rfl, rfl⟩

@[simp] theorem links_setAddTail : (m.setAddTail v).HasLinks m.nodeNext m.nodePrev m.addNext m.addPrev := ⟨rfl, rfl, rfl, rfl⟩

@[simp] theorem links_setBucket (b : Nat) : (m.setBucket b v).HasLinks m.nodeNext m.nodePrev m.addNext m.addPrev :=
  ⟨rfl, rfl, rfl, rfl⟩

@[simp] theorem links_setUsedNodeNum (n : Int) : (m.setUsedNodeNum n).HasLinks m.nodeNext m.nodePrev m.addNext m.addPrev :=
  ⟨rfl, rfl, rfl, rfl⟩

@[simp] theorem header_setFreeList : (m.setFreeList v).HasHeader m.addHead m.addTail v m.bucket m.usedNodeNum :=
  ⟨rfl, rfl, rfl, rfl, rfl⟩

@[simp] theorem header_setAddHead : (m.setAddHead v).HasHeader v m.addTail m.freeList m.bucket m.usedNodeNum :=
  ⟨rfl, rfl, rfl, rfl, rfl⟩

@[simp] theorem header_setAddTail : (m.setAddTail v).HasHeader m.addHead v m.freeList m.bucket m.usedNodeNum :=
  ⟨rfl, rfl, rfl, rfl, rfl⟩

@[simp] theorem header_setBucket (b : Nat) :
    (m.setBucket b v).HasHeader m.addHead m.addTail m.freeList (update m.bucket b v) m.usedNodeNum :=
  ⟨rfl, rfl, rfl, rfl, rfl⟩

@[simp] theorem header_setUsedNodeNum (n : Int) : (m.setUsedNodeNum n).HasHeader m.addHead m.addTail m.freeList m.bucket n :=
  ⟨rfl, rfl, rfl, rfl, rfl⟩

@[simp] theorem header_setAllocator (a : CChunkAllocator) :
    (m.setAllocator a).HasHeader m.addHead m.addTail m.freeList m.bucket m.usedNodeNum ∧
      (m.setAllocator a).nodeTotal = m.nodeTotal ∧ (m.setAllocator a).bucketSize = m.bucketSize ∧ (m.setAllocator a).allocator = a :=
  ⟨⟨rfl, rfl, rfl, rfl, rfl⟩, rfl, rfl, rfl⟩

end Links

end CHashMap

def THashNode.eraseAdd (node : THashNode) : THashNode := { node with addNext := none, addPrev := none }

structure AddFrame (m m' : CHashMap) : Prop where
  nodeTotal : m'.nodeTotal = m.nodeTotal
  bucketSize : m'.bucketSize = m.bucketSize
  usedNodeNum : m'.usedNodeNum = m.usedNodeNum
  freeList : m'.freeList = m.freeList
  bucket : m'.bucket = m.bucket
  allocator : m'.allocator = m.allocator
  node : ∀ j, (m'.hashNode j).eraseAdd = (m.hashNode j).eraseAdd

namespace AddFrame

theorem refl (m : CHashMap) : AddFrame m m := ⟨rfl, rfl, rfl, rfl, rfl, rfl, fun _ => rfl⟩

section

variable {m m' : CHashMap} (h : AddFrame m m')
include h

theorem modifyOpt (hdr : Option Nat) (hf : ∀ node, (f node).eraseAdd = node.eraseAdd) : AddFrame m (m'.modifyOpt hdr f) := by
  obtain ⟨⟨-, -, hfl, hbk, hun⟩, hnt, hbs, hal⟩ := CHashMap.header_modifyOpt m' hdr f
  refine ⟨hnt.trans h.nodeTotal, hbs.trans h.bucketSize, hun.trans h.usedNodeNum, hfl.trans h.freeList,
    hbk.trans h.bucket, hal.trans h.allocator, fun j => ?_⟩
  exact (congrFun (m'.field_modifyOpt_of_eq hdr hf) j).trans (h.node j)

theorem setAddNext (hdr v : Option Nat) : AddFrame m (m'.setAddNext hdr v) :=
  h.modifyOpt hdr fun _ => rfl

theorem setAddPrev (hdr v : Option Nat) : AddFrame m (m'.setAddPrev hdr v) :=
  h.modifyOpt hdr fun _ => rfl

theorem setAddHead (v : Option Nat) : AddFrame m (m'.setAddHead v) :=
  ⟨h.nodeTotal, h.bucketSize, h.usedNodeNum, h.freeList, h.bucket, h.allocator, h.node⟩

theorem setAddTail (v : Option Nat) : AddFrame m (m'.setAddTail v) :=
  ⟨h.nodeTotal, h.bucketSize, h.usedNodeNum, h.freeList, h.bucket, h.allocator, h.node⟩

theorem field (p : THashNode → β) (hp : ∀ node, p node.eraseAdd = p node) (j : Nat) : p (m'.hashNode j) = p (m.hashNode j) := by
  rw [← hp, h.node, hp]

end

section Fields

variable {m m' : CHashMap} (h : AddFrame m m') (j : Nat)
include h

theorem key : (m'.hashNode j).key = (m.hashNode j).key := h.field THashNode.key (fun _ => rfl) j

theorem chunkLen : (m'.hashNode j).chunkLen = (m.hashNode j).chunkLen := h.field THashNode.chunkLen (fun _ => rfl) j

theorem chunkHead : (m'.hashNode j).chunkHead = (m.hashNode j).chunkHead := h.field THashNode.chunkHead (fun _ => rfl) j

theorem nodeNext : m'.nodeNext = m.nodeNext := funext (h.field THashNode.nodeNext fun _ => rfl)

theorem nodePrev : m'.nodePrev = m.nodePrev := funext (h.field THashNode.nodePrev fun _ => rfl)

end Fields

end AddFrame

/-- The add list of the pool runs through `l`, and no other node carries add links. -/
structure AddRep (m : CHashMap) (l : List Nat) : Prop where
  chain : Chain m.addNext m.addHead l
  back : Back m.addPrev none l
  tail : m.addTail = l.getLast?
  off : ∀ i, i ∉ l → m.addNext i = none ∧ m.addPrev i = none

namespace CHashMap

variable (m : CHashMap) (i : Nat)

theorem deleteFromAddList_frame : AddFrame m (m.deleteFromAddList i) := by
  unfold deleteFromAddList
  dsimp only
  split
  · exact AddFrame.refl m
  refine AddFrame.setAddNext (AddFrame.setAddPrev (AddFrame.setAddTail (AddFrame.setAddHead ?_ _) _) _ _) _ _
  exact ((AddFrame.refl m).setAddNext _ _).setAddPrev _ _

theorem insertAddListHead_frame : AddFrame m (m.insertAddListHead i) :=
  (((((deleteFromAddList_frame m i).setAddNext _ _).setAddHead _).setAddTail _).setAddPrev _ _).setAddPrev _ _

def OffAddList : Prop :=
  m.addNext i = none ∧ m.addPrev i = none ∧ m.addHead ≠ some i ∧ m.addTail ≠ some i

theorem deleteFromAddList_of_off (hoff : m.OffAddList i) : m.deleteFromAddList i = m := if_pos hoff

theorem deleteFromAddList_of_on {m : CHashMap} {i : Nat} (hon : ¬m.OffAddList i) :
    (m.deleteFromAddList i).addNext = update (setOpt m.addNext (m.addPrev i) (m.addNext i)) i none ∧
    (m.deleteFromAddList i).addPrev = update (setOpt m.addPrev (m.addNext i) (m.addPrev i)) i none ∧
    (m.deleteFromAddList i).addHead = (if m.addHead = some i then m.addNext i else m.addHead) ∧
    (m.deleteFromAddList i).addTail = if m.addTail = some i then m.addPrev i else m.addTail := by
  unfold OffAddList at hon
  simp [deleteFromAddList, if_neg hon]

theorem insertAddListHead_links :
    (m.insertAddListHead i).addNext = update (m.deleteFromAddList i).addNext i (m.deleteFromAddList i).addHead ∧
    (m.insertAddListHead i).addPrev =
      setOpt (update (m.deleteFromAddList i).addPrev i none) (m.deleteFromAddList i).addHead (some i) ∧
    (m.insertAddListHead i).addHead = some i ∧ (m.insertAddListHead i).addTail =
      if (m.deleteFromAddList i).addTail = none then some i else (m.deleteFromAddList i).addTail := by
  simp [insertAddListHead]

end CHashMap

namespace AddRep

open CHashMap

variable {m : CHashMap} {l : List Nat} {i : Nat}

section

variable (hrep : AddRep m l)
include hrep

theorem congr {m' : CHashMap} (hnext : m'.addNext = m.addNext) (hprev : m'.addPrev = m.addPrev)
    (hhead : m'.addHead = m.addHead) (htail : m'.addTail = m.addTail) : AddRep m' l := by
  refine ⟨?_, ?_, ?_, ?_⟩
  · rw [hnext, hhead]
    exact hrep.chain
  · rw [hprev]
    exact hrep.back
  · rw [htail]
    exact hrep.tail
  rw [hnext, hprev]
  exact hrep.off

theorem ne_of_notMem (hi : i ∉ l) : m.addHead ≠ some i ∧ m.addTail ≠ some i := by
  rw [hrep.chain.head?_eq, hrep.tail]
  exact ⟨fun he => hi (mem_of_head? he), fun he => hi (mem_of_getLast? he)⟩

theorem offAddList_iff : m.OffAddList i ↔ i ∉ l := by
  refine ⟨fun ⟨hnext, hprev, hhead, _⟩ hi => ?_, fun hi => ?_⟩
  · obtain ⟨l₁, l₂, rfl⟩ := append_of_mem hi
    -- a node without a predecessor is the head
    have hl₁ : l₁.getLast? = none := by
      rw [← Option.or_none (o := l₁.getLast?), ← hrep.back.prev_eq, hprev]
    rw [List.getLast?_eq_none_iff] at hl₁
    subst hl₁
    exact hhead hrep.chain.head?_eq
  exact ⟨(hrep.off i hi).1, (hrep.off i hi).2, (hrep.ne_of_notMem hi).1, (hrep.ne_of_notMem hi).2⟩

/-- `delete_from_add_list` cuts the node out, and does nothing for a node off the list. -/
theorem delete (i : Nat) : AddRep (m.deleteFromAddList i) (l.erase i) := by
  by_cases hi : i ∈ l
  · obtain ⟨hnext, hprev, hhead, htail⟩ := deleteFromAddList_of_on fun hoff => hrep.offAddList_iff.1 hoff hi
    have hnd := hrep.chain.nodup
    obtain ⟨l₁, l₂, rfl⟩ := append_of_mem hi
    have hi₁ : i ∉ l₁ := fun hm => disjoint_of_nodup_append hnd hm (by simp)
    have hi₂ : i ∉ l₂ := (nodup_cons.1 (nodup_append.1 hnd).2.1).1
    have hout : i ∉ l₁ ++ l₂ := by simp [hi₁, hi₂]
    rw [erase_append_right _ hi₁, erase_cons_head]
    refine ⟨?_, ?_, ?_, fun j hj => ?_⟩
    · rw [hnext, hhead]
      exact (chain_update_of_notMem hout).2 (Chain.unlink hrep.chain hrep.back)
    · rw [hprev]
      exact (back_update_of_notMem hout).2 (Back.unlink hrep.chain hrep.back)
    · rw [htail, hrep.tail]
      exact getLast?_unlink hnd hrep.back
    rw [hnext, hprev]
    by_cases hji : j = i
    · subst hji
      simp
    have hjl : j ∉ l₁ ++ i :: l₂ := by simpa [hji] using hj
    rw [update_of_ne hji, update_of_ne hji, setOpt_of_ne, setOpt_of_ne]
    · exact hrep.off j hjl
    · rw [hrep.chain.next_eq]
      exact fun he => hjl (by simp [mem_of_head? he])
    rw [hrep.back.prev_eq, Option.or_none]
    exact fun he => hjl (by simp [mem_of_getLast? he])
  rw [deleteFromAddList_of_off m i (hrep.offAddList_iff.2 hi), erase_of_not_mem hi]
  exact hrep

theorem insertHead (i : Nat) : AddRep (m.insertAddListHead i) (i :: l.erase i) := by
  have hdel := hrep.delete i
  have hi : i ∉ l.erase i := fun hm => ((hrep.chain.nodup).mem_erase_iff.1 hm).1 rfl
  obtain ⟨hnext, hprev, hhead, htail⟩ := insertAddListHead_links m i
  refine ⟨?_, ?_, ?_, fun j hj => ?_⟩
  · rw [hnext, hhead]
    exact hdel.chain.push hi
  · rw [hprev]
    exact Back.push hdel.chain hdel.back hi
  · rw [htail, hdel.tail]
    cases hl : l.erase i with
    | nil => simp
    | cons a rest => simp [List.getLast?_cons_cons]
  obtain ⟨hji, hjl⟩ := not_or.1 (mt mem_cons.2 hj)
  rw [hnext, hprev, update_of_ne hji, setOpt_of_ne (hdel.ne_of_notMem hjl).1, update_of_ne hji]
  exact hdel.off j hjl

end

end AddRep

end Mysql51.Cache
