import Mysql51.Cache.ChunkAlloc

/-!
# The hash map of the cache

`CHashMap` is an array of nodes threaded by three lists: the free list and the bucket chains run through `node_next_`, the list
of all used nodes in order of use, the add list, through `add_next_` and `add_prev_`. A node is addressed by its number;
`INVALID_BC_MEM_HANDLER_32` is `none`.
-/

namespace Mysql51.Cache

open Machine

inductive ENodeFlag
  | unchg
  | dirty
  deriving DecidableEq, Repr

/-- `TMBHashKey`: sixteen bytes, of which a union names the first four `uin_`. -/
abbrev TMBHashKey := Vector UInt8 16

def TMBHashKey.uin (key : TMBHashKey) : Nat := ofLeBytes (key.toList.take 4)

def TMBHashKey.zero : TMBHashKey := Vector.replicate 16 0

def TMBHashKey.one : TMBHashKey := zero.set 0 1

structure THashNode where
  key : TMBHashKey
  chunkLen : Int
  chunkHead : Option Nat
  nodePrev : Option Nat
  nodeNext : Option Nat
  addPrev : Option Nat
  addNext : Option Nat
  addInfo1 : Int
  addInfo2 : Int
  flag : ENodeFlag

def THashNode.init : THashNode where
  key := Vector.replicate 16 0
  chunkLen := 0
  chunkHead := none
  nodePrev := none
  nodeNext := none
  addPrev := none
  addNext := none
  addInfo1 := 0
  addInfo2 := 0
  flag := .unchg

/-- The pool of a `CHashMap`: the header `THashMap`, the node array and the chunk pool behind them. -/
structure CHashMap where
  nodeTotal : Nat
  bucketSize : Nat
  usedNodeNum : Int
  addHead : Option Nat
  addTail : Option Nat
  freeList : Option Nat
  bucket : Nat → Option Nat
  hashNode : Nat → THashNode
  allocator : CChunkAllocator

namespace CHashMap

variable (m : CHashMap)

variable (i : Nat)

def modify (f : THashNode → THashNode) : CHashMap :=
  { m with hashNode := Function.update m.hashNode i (f (m.hashNode i)) }

/-- A write through `handler2ptr`, which is skipped for the null pointer. -/
def modifyOpt (hdr : Option Nat) (f : THashNode → THashNode) : CHashMap :=
  match hdr with
  | none => m
  | some i => m.modify i f

/-! ### Links

The link fields of the nodes, read as pointer maps and written through a pointer that may be null, and the fields of
the header. -/

def nodeNext : Option Nat := (m.hashNode i).nodeNext

def nodePrev : Option Nat := (m.hashNode i).nodePrev

def addNext : Option Nat := (m.hashNode i).addNext

def addPrev : Option Nat := (m.hashNode i).addPrev

def setNodeNext (hdr v : Option Nat) : CHashMap := m.modifyOpt hdr fun node => { node with nodeNext := v }

def setNodePrev (hdr v : Option Nat) : CHashMap := m.modifyOpt hdr fun node => { node with nodePrev := v }

def setAddNext (hdr v : Option Nat) : CHashMap := m.modifyOpt hdr fun node => { node with addNext := v }

def setAddPrev (hdr v : Option Nat) : CHashMap := m.modifyOpt hdr fun node => { node with addPrev := v }

def setFreeList (v : Option Nat) : CHashMap := { m with freeList := v }

def setAddHead (v : Option Nat) : CHashMap := { m with addHead := v }

def setAddTail (v : Option Nat) : CHashMap := { m with addTail := v }

def setBucket (b : Nat) (v : Option Nat) : CHashMap := { m with bucket := Function.update m.bucket b v }

def setUsedNodeNum (n : Int) : CHashMap := { m with usedNodeNum := n }

def setAllocator (allocator : CChunkAllocator) : CHashMap := { m with allocator := allocator }

def getBucketId (key : TMBHashKey) : Nat := key.uin % m.bucketSize

def freeListInsert : CHashMap :=
  let m := m.setNodeNext (some i) m.freeList
  m.setFreeList (some i)

def freeListRemove : Option Nat × CHashMap :=
  match m.freeList with
  | none => (none, m)
  | some i =>
    let m := m.setFreeList (m.nodeNext i)
    (some i, m.setNodeNext (some i) none)

def initPoolData (nodeTotal bucketSize nChunks chunkSize : Nat) : CHashMap :=
  let blank : CHashMap :=
    { nodeTotal, bucketSize, usedNodeNum := 0, addHead := none, addTail := none, freeList := none,
      bucket := fun _ => none, hashNode := fun _ => THashNode.init,
      allocator := CChunkAllocator.initPoolData nChunks chunkSize }
  (List.range nodeTotal).foldl (fun m i => (m.modify i fun _ => THashNode.init).freeListInsert i) blank

/-- The walk along the free list in `verify_pool_data`; `none` if it does not end. -/
def freeNodeCount : Nat → Option Nat → Option Nat
  | _, none => some 0
  | 0, some _ => none
  | fuel + 1, some i => (freeNodeCount fuel (m.nodeNext i)).map (· + 1)

def verifyPoolData (nodeTotal bucketSize : Nat) : Option Int :=
  if nodeTotal ≠ m.nodeTotal then some (-1000)
  else if bucketSize ≠ m.bucketSize then some (-1000)
  else do
    let count ← m.freeNodeCount m.nodeTotal m.freeList
    some (if m.usedNodeNum + count ≠ m.nodeTotal then -1000 else 0)

def deleteFromAddList : CHashMap :=
  let nextAdd := m.addNext i
  let prevAdd := m.addPrev i
  if nextAdd = none ∧ prevAdd = none ∧ m.addHead ≠ some i ∧ m.addTail ≠ some i then m
  else
    let m := m.setAddNext prevAdd (m.addNext i)
    let m := m.setAddPrev nextAdd (m.addPrev i)
    let m := m.setAddHead (if m.addHead = some i then nextAdd else m.addHead)
    let m := m.setAddTail (if m.addTail = some i then prevAdd else m.addTail)
    let m := m.setAddPrev (some i) none
    m.setAddNext (some i) none

def insertAddListHead : CHashMap :=
  let m := m.deleteFromAddList i
  let m := m.setAddNext (some i) m.addHead
  let m := m.setAddHead (some i)
  let m := m.setAddTail (if m.addTail = none then some i else m.addTail)
  let m := m.setAddPrev (some i) none
  m.setAddPrev (m.addNext i) (some i)

/-- The walk along a bucket chain in `find_node`; `none` if it does not end. -/
def findLoop (key : TMBHashKey) : Nat → Option Nat → Option (Option Nat)
  | _, none => some none
  | 0, some _ => none
  | fuel + 1, some i => if (m.hashNode i).key = key then some (some i) else findLoop key fuel (m.nodeNext i)

def findNode (key : TMBHashKey) : Option (Option Nat × CHashMap) := do
  match ← m.findLoop key m.nodeTotal (m.bucket (m.getBucketId key)) with
  | none => some (none, m)
  | some i => some (some i, m.insertAddListHead i)

def insertNodeList : CHashMap :=
  let bucketId := m.getBucketId (m.hashNode i).key
  let m := m.setNodeNext (some i) (m.bucket bucketId)
  let m := m.setNodePrev (some i) none
  let m := m.setBucket bucketId (some i)
  let m := m.setNodePrev (m.nodeNext i) (some i)
  m.setUsedNodeNum (m.usedNodeNum + 1)

def deleteFromNodeList : CHashMap :=
  let nextNode := m.nodeNext i
  let prevNode := m.nodePrev i
  let m := m.setNodeNext prevNode (m.nodeNext i)
  let m := m.setNodePrev nextNode (m.nodePrev i)
  let bucketId := m.getBucketId (m.hashNode i).key
  let m := m.setBucket bucketId (if m.bucket bucketId = some i then nextNode else m.bucket bucketId)
  let m := m.setNodeNext (some i) none
  let m := m.setNodePrev (some i) none
  m.setUsedNodeNum (m.usedNodeNum - 1)

def useNode (key : TMBHashKey) (chunkLen : Int) (chunkHead : Option Nat) : CHashMap :=
  let m := m.modify i fun node =>
    { node with key := key, chunkLen := chunkLen, chunkHead := chunkHead, addInfo1 := 0, addInfo2 := 0 }
  m.insertNodeList i

def freeNode : Option CHashMap := do
  let m := m.deleteFromNodeList i
  let allocator ← m.allocator.free (m.hashNode i).chunkHead
  some ((m.setAllocator allocator).modify i fun _ => THashNode.init)

def insertNode (key : TMBHashKey) (newData : List UInt8) (newLen now : Int) : Option (Option Nat × CHashMap) :=
  match m.freeListRemove with
  | (none, m) => some (none, m)
  | (some i, m) => do
      let newChunkNum := m.allocator.getChunkNum newLen
      let (allocator, headHdr) ← m.allocator.malloc newChunkNum
      let m := m.setAllocator allocator
      if headHdr = none then some (none, m.freeListInsert i)
      else
        let allocator ← m.allocator.split headHdr newData newLen
        let m := (m.setAllocator allocator).useNode i key newLen headHdr
        let m := m.modify i fun node => { node with addInfo1 := now }
        some (some i, m.insertAddListHead i)

def updateNode (newData : List UInt8) (newLen now : Int) : Option (Option Nat × CHashMap) := do
  let oldChunkNum := m.allocator.getChunkNum (m.hashNode i).chunkLen
  let newChunkNum := m.allocator.getChunkNum newLen
  if oldChunkNum ≠ newChunkNum then
    if oldChunkNum < newChunkNum ∧ m.allocator.freeTotal < int32 (newChunkNum - oldChunkNum) then some (none, m)
    else
      let allocator ← m.allocator.free (m.hashNode i).chunkHead
      let (allocator, headHdr) ← allocator.malloc newChunkNum
      let allocator ← allocator.split headHdr newData newLen
      let m := (m.setAllocator allocator).modify i fun node =>
        { node with chunkLen := newLen, chunkHead := headHdr, addInfo1 := now }
      some (some i, m.insertAddListHead i)
  else
    let allocator ← m.allocator.split (m.hashNode i).chunkHead newData newLen
    let m := (m.setAllocator allocator).modify i fun node =>
      { node with chunkLen := newLen, addInfo1 := now }
    some (some i, m.insertAddListHead i)

def deleteNode : Option CHashMap := do
  let m := m.deleteFromAddList i
  let m ← m.freeNode i
  some (m.freeListInsert i)

def setNodeFlag (flag : ENodeFlag) : CHashMap := m.modify i fun node => { node with flag := flag }

def setExpiretime (expiretime : Int) : CHashMap := m.modify i fun node => { node with addInfo2 := expiretime }

def mergeNodeData (dataLen : Int) : Option (Int × Int × List UInt8) :=
  m.allocator.merge (m.hashNode i).chunkHead (m.hashNode i).chunkLen dataLen

end CHashMap

end Mysql51.Cache
