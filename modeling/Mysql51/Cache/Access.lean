import Mysql51.Lib.Run
import Mysql51.Cache.HashMap
import Mysql51.Cache.BinLog

/-!
# The cache

`CacheAccess` is the interface of the cache: a `CHashMap` in shared memory, and a binary log of what changed in it when
`_cache_dump_min` asks for one. Here are its operations, the calls a client makes (`Op`) with their runs, and the
recovery of a cache from its log (`startUp`).

A byte string passed with a length carries that length; `unsigned` and `int` are where the source converts.
-/

namespace Mysql51.Cache

open Machine

/-- The sizes a pool is opened with. The byte counts `get_pool_size` and `get_chunk_size` compute fit their `int`. -/
structure PoolSizes where
  nodeTotal : Nat
  bucketSize : Nat
  nChunks : Nat
  chunkSize : Nat
  bucketSize_pos : 0 < bucketSize
  chunkSize_pos : 0 < chunkSize
  nodes_fit : 28 + 4 * bucketSize + 64 * nodeTotal < 2147483648
  nChunks_lt : nChunks < 2147483648
  chunk_fits : 8 + chunkSize < 2147483648

def PoolSizes.small : PoolSizes :=
  { nodeTotal := 4, bucketSize := 2, nChunks := 4, chunkSize := 8, bucketSize_pos := by decide, chunkSize_pos := by decide,
    nodes_fit := by decide, nChunks_lt := by decide, chunk_fits := by decide }

def PoolSizes.wide : PoolSizes :=
  { nodeTotal := 4, bucketSize := 2, nChunks := 4, chunkSize := 400, bucketSize_pos := by decide, chunkSize_pos := by decide,
    nodes_fit := by decide, nChunks_lt := by decide, chunk_fits := by decide }

def CHashMap.replaceNode (m : CHashMap) (key : TMBHashKey) (newData : List UInt8) (newLen now : Int) :
    Option (Option Nat × CHashMap) := do
  match ← m.findNode key with
  | (some i, m) => m.updateNode i newData newLen now
  | (none, m) => m.insertNode key newData newLen now

/-- The node after `i` in the add list whose flag is not `NODE_FLAG_UNCHG`: `operator++` of `dirty_iterator`. -/
def CHashMap.nextDirty (m : CHashMap) : Nat → Option Nat → Option (Option Nat)
  | _, none => some none
  | 0, some _ => none
  | fuel + 1, some i => if (m.hashNode i).flag = .unchg then nextDirty m fuel (m.addNext i) else some (some i)

/-- The nodes of the add list from `hdr` on whose key passes the test, as `del_node` collects them. -/
def CHashMap.collect (m : CHashMap) (test : TMBHashKey → Bool) : Nat → Option Nat → Option (List Nat)
  | _, none => some []
  | 0, some _ => none
  | fuel + 1, some i => do
      let rest ← collect m test fuel (m.addNext i)
      some (if test (m.hashNode i).key then i :: rest else rest)

structure CacheAccess where
  cache : CHashMap
  cacheDumpMin : Int
  cacheinit : Bool
  binlog : CBinLog

inductive LogOp
  | opSet
  | opMarkClean
  | opDel
  deriving DecidableEq

def LogOp.code : LogOp → Nat
  | .opSet => 0
  | .opMarkClean => 1
  | .opDel => 2

namespace CacheAccess

def getTotalPoolSize (z : PoolSizes) : Nat := (28 + 4 * z.bucketSize + 64 * z.nodeTotal) + (20 + z.nChunks * (8 + z.chunkSize))

def openInit (memSize : Int) (z : PoolSizes) : Except Int CacheAccess :=
  if memSize < getTotalPoolSize z then .error (-1)
  else .ok
    { cache := CHashMap.initPoolData z.nodeTotal z.bucketSize z.nChunks z.chunkSize
      cacheDumpMin := -1, cacheinit := true, binlog := CBinLog.init 20000000 8 }

variable (s : CacheAccess)

def coreInit (coredumpMin maxBinLogSize maxBinLogNum : Int) : CacheAccess :=
  { s with cacheDumpMin := coredumpMin, binlog := CBinLog.init maxBinLogSize maxBinLogNum }

def recordHead (op : LogOp) (key : TMBHashKey) : List UInt8 := leBytes 4 op.code ++ key.toList

variable (key : TMBHashKey)

def setRecord (data : List UInt8) (expiretime : Int) : List UInt8 :=
  recordHead .opSet key ++ leBytes 4 data.length ++ data ++ leBytes 4 (uint32 expiretime)

/-- The logging branch of an operation. The record has to pass the assertion; what `WriteToBinLog` returns is not
looked at. -/
def writeLog (wanted : Bool) (record : List UInt8) (now : Int) : Option CacheAccess :=
  if wanted then
    if record.length < maxBinlogItemLen then
      (s.binlog.writeToBinLog record now).map fun (_, binlog) => { s with binlog := binlog }
    else none
  else some s

def setCore (data : List UInt8) (expiretime : Option Int) (flag : ENodeFlag) (now : Int) :
    Option (Int × CacheAccess) := do
  match ← s.cache.replaceNode key data (int32 data.length) now with
  | (none, cache) => some (1, { s with cache := cache })
  | (some i, cache) =>
    let cache := cache.setNodeFlag i flag
    let cache := match expiretime with
      | none => cache
      | some t => cache.setExpiretime i t
    let s ← { s with cache := cache }.writeLog (0 ≤ s.cacheDumpMin ∧ flag = ENodeFlag.dirty)
      (setRecord key data (expiretime.getD 0)) now
    some (0, s)

def set (data : List UInt8) (flag : ENodeFlag) (now : Int) : Option (Int × CacheAccess) :=
  s.setCore key data none flag now

def setExpire (data : List UInt8) (expiretime : Int) (flag : ENodeFlag) (now : Int) :
    Option (Int × CacheAccess) := s.setCore key data (some expiretime) flag now

/-- What `get` and `get_key` hand back about an entry. The bytes are those written to the buffer. -/
structure Got where
  dataLen : Nat
  dirtyFlag : ENodeFlag
  timeStamp : Int
  expiretime : Int
  buf : List UInt8

def get (bufSize : Nat) : Option ((Int × Option Got) × CacheAccess) := do
  match ← s.cache.findNode key with
  | (none, cache) => some ((1, none), { s with cache := cache })
  | (some i, cache) => do
      let node := cache.hashNode i
      let (ret, dataLen, buf) ← cache.mergeNodeData i (int32 bufSize)
      some ((ret, some ⟨uint32 dataLen, node.flag, node.addInfo1, node.addInfo2, buf⟩), { s with cache := cache })

def getKey : Option ((Int × Option Got) × CacheAccess) := do
  match ← s.cache.findNode key with
  | (none, cache) => some ((1, none), { s with cache := cache })
  | (some i, cache) =>
    let node := cache.hashNode i
    some ((0, some ⟨uint32 node.chunkLen, node.flag, node.addInfo1, node.addInfo2, []⟩), { s with cache := cache })

def markClean (now : Int) : Option (Int × CacheAccess) := do
  match ← s.cache.findNode key with
  | (none, cache) => some (1, { s with cache := cache })
  | (some i, cache) =>
    let s ← { s with cache := cache.setNodeFlag i .unchg }.writeLog (0 ≤ s.cacheDumpMin) (recordHead .opMarkClean key) now
    some (0, s)

def del (now : Int) : Option (Int × CacheAccess) := do
  match ← s.cache.findNode key with
  | (none, cache) => some (1, { s with cache := cache })
  | (some i, cache) =>
    let s ← { s with cache := cache }.writeLog (0 ≤ s.cacheDumpMin) (recordHead .opDel key) now
    let cache ← s.cache.deleteNode i
    some (0, { s with cache := cache })

/-- The test of the bulk operations, on the first four bytes of the key. -/
def inResidue (modbase mobres : Int) (key : TMBHashKey) : Bool := key.uin % uint32 modbase = uint32 mobres

def delNode (modbase mobres : Int) : Option (Int × CacheAccess) :=
  match s.cache.addHead with
  | none => some (0, s)
  | some i =>
    if uint32 modbase = 0 then none
    else do
      let vecNode ← s.cache.collect (inResidue modbase mobres) s.cache.nodeTotal (some i)
      let cache ← vecNode.foldlM CHashMap.deleteNode s.cache
      some (0, { s with cache := cache })

def markCleanLoop (modbase mobres now : Int) : Nat → Option Nat → CacheAccess → Option CacheAccess
  | _, none, s => some s
  | 0, some _, _ => none
  | fuel + 1, some i, s => do
      let (ret, _, _) ← s.cache.mergeNodeData i 102400
      if ret ≠ 0 then some s
      else if uint32 modbase = 0 then none
      else
        let key := (s.cache.hashNode i).key
        let s ← (if inResidue modbase mobres key then (s.markClean key now).map Prod.snd else some s)
        let cur ← s.cache.nextDirty s.cache.nodeTotal (s.cache.addNext i)
        markCleanLoop modbase mobres now fuel cur s

/-- The bulk `mark_clean`. A node marked clean moves to the front, so the walk may start over, but never again with as
many dirty nodes to mark. -/
def markCleanMod (modbase mobres now : Int) : Option (Int × CacheAccess) := do
  let fuel := (s.cache.nodeTotal + 2) * (s.cache.nodeTotal + 2)
  let s ← markCleanLoop modbase mobres now fuel s.cache.addHead s
  some (0, s)

end CacheAccess

inductive Op
  | set (key : TMBHashKey) (data : List UInt8) (flag : ENodeFlag) (now : Int)
  | setExpire (key : TMBHashKey) (data : List UInt8) (expiretime : Int) (flag : ENodeFlag) (now : Int)
  | get (key : TMBHashKey) (bufSize : Nat)
  | getKey (key : TMBHashKey)
  | markClean (key : TMBHashKey) (now : Int)
  | markCleanMod (modbase mobres now : Int)
  | del (key : TMBHashKey) (now : Int)
  | delNode (modbase mobres : Int)

namespace CacheAccess

variable (s : CacheAccess)

def exec : Op → Option (Int × CacheAccess)
  | .set key data flag now => s.set key data flag now
  | .setExpire key data expiretime flag now => s.setExpire key data expiretime flag now
  | .get key bufSize => (s.get key bufSize).map fun ((ret, _), s) => (ret, s)
  | .getKey key => (s.getKey key).map fun ((ret, _), s) => (ret, s)
  | .markClean key now => s.markClean key now
  | .markCleanMod modbase mobres now => s.markCleanMod modbase mobres now
  | .del key now => s.del key now
  | .delNode modbase mobres => s.delNode modbase mobres

def step (op : Op) : Option CacheAccess := (s.exec op).map Prod.snd

def run (ops : List Op) : Option CacheAccess := Run.run step s ops

def recordKey (szBuff : List UInt8) : TMBHashKey := Vector.ofFn fun i => szBuff.getD (4 + i.val) 0

def replay (m : CHashMap) (szBuff : List UInt8) (now : Int) : Option CHashMap :=
  let op := ofLeBytes (szBuff.take 4)
  let key := recordKey szBuff
  if op = LogOp.opSet.code then do
    let dataLen := int32 (ofLeBytes ((szBuff.drop 20).take 4))
    let (node, m) ← m.replaceNode key (szBuff.drop 24) dataLen now
    some (match node with
      | none => m
      | some i => m.setNodeFlag i .dirty)
  else if op = LogOp.opDel.code then do
    match ← m.findNode key with
    | (none, m) => some m
    | (some i, m) => m.deleteNode i
  else if op = LogOp.opMarkClean.code then do
    match ← m.findNode key with
    | (none, m) => some m
    | (some i, m) => some (m.setNodeFlag i .unchg)
  else some m

def startUpLoop (clock : Nat → Int) : Nat → CacheAccess → Option CacheAccess
  | 0, _ => none
  | fuel + 1, s => do
      let (len, szBuff, binlog) ← s.binlog.readRecordFromBinLog maxBinlogItemLen
      let s := { s with binlog := binlog }
      if 0 < len then
        let cache ← replay s.cache szBuff (clock fuel)
        startUpLoop clock fuel { s with cache := cache }
      else some s

def startUp (clock : Nat → Int) (fuel : Nat) : Option (Int × CacheAccess) :=
  if s.cacheinit then do
    let s ← startUpLoop clock fuel { s with binlog := s.binlog.setReadRecordStartTime }
    some (0, s)
  else some (1, s)

end CacheAccess

end Mysql51.Cache
