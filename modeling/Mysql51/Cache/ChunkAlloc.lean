import Mysql51.Lib.Link
import Mysql51.Lib.Machine

/-!
# The chunk allocator

`CChunkAllocator` keeps the data of the cache in chunks of one size. A chunk is on the free list or on the chain of one
hash node; both lists run through the `next_` field of the chunk. A handle is a byte offset into the pool: here it is
the number of the chunk it addresses, and `INVALID_BC_MEM_HANDLER_L` is `none`.

A C function that would read through a null pointer, copy a negative length or never leave its loop returns `none`.
-/

namespace Mysql51.Cache

open Machine

structure TChunkNode where
  next : Option Nat
  data : List UInt8

instance : Inhabited TChunkNode := ⟨⟨none, []⟩⟩

/-- The pool of a `CChunkAllocator`: the header `TChunk` and the chunk array behind it. -/
structure CChunkAllocator where
  chunkTotal : Nat
  chunkSize : Nat
  freeTotal : Int
  freeList : Option Nat
  chunkNodes : Nat → TChunkNode

namespace CChunkAllocator

variable (a : CChunkAllocator)

def overwrite (old new : List UInt8) : List UInt8 := new ++ old.drop new.length

def modify (i : Nat) (f : TChunkNode → TChunkNode) : CChunkAllocator :=
  { a with chunkNodes := Function.update a.chunkNodes i (f (a.chunkNodes i)) }

def setNext (i : Nat) (next : Option Nat) : CChunkAllocator := a.modify i fun node => { node with next := next }

def setData (i : Nat) (data : List UInt8) : CChunkAllocator :=
  a.modify i fun node => { node with data := overwrite node.data data }

def freeListInsert (i : Nat) : CChunkAllocator := { a.setNext i a.freeList with freeList := some i }

def freeListRemove : Option Nat × CChunkAllocator :=
  match a.freeList with
  | none => (none, a)
  | some i => (some i, { a.setNext i none with freeList := (a.chunkNodes i).next })

def initPoolData (nChunks chunkSize : Nat) : CChunkAllocator :=
  let blank : CChunkAllocator := ⟨0, 0, 0, none, fun _ => default⟩
  { (List.range nChunks).foldl (fun a i => (a.setNext i none).freeListInsert i) blank with
    chunkTotal := nChunks, chunkSize := chunkSize, freeTotal := nChunks }

/-- The loop of `malloc`: each chunk taken from the free list is put in front of the chain `head`. -/
def mallocLoop : Nat → CChunkAllocator → Option Nat → Option (CChunkAllocator × Option Nat)
  | 0, a, head => some (a, head)
  | n + 1, a, head =>
    match a.freeListRemove with
    | (none, _) => none
    | (some i, a) => mallocLoop n (a.setNext i head) (some i)

def malloc (chunkNum : Int) : Option (CChunkAllocator × Option Nat) :=
  if a.freeTotal < chunkNum then some (a, none)
  else do
    let (a, head) ← mallocLoop chunkNum.toNat a none
    some ({ a with freeTotal := int32 (a.freeTotal - chunkNum) }, head)

def freeLoop : Nat → CChunkAllocator → Option Nat → Option CChunkAllocator
  | _, a, none => some a
  | 0, _, some _ => none
  | fuel + 1, a, some i =>
    let next := (a.chunkNodes i).next
    let a := a.freeListInsert i
    freeLoop fuel { a with freeTotal := int32 (a.freeTotal + 1) } next

def free (headChunkHdr : Option Nat) : Option CChunkAllocator := freeLoop a.chunkTotal a headChunkHdr

def getChunkNum (dataLen : Int) : Int := (int32 (dataLen + a.chunkSize - 1)).tdiv a.chunkSize

/-- The loop of `merge`: the bytes copied so far are `out`, `remainLen` bytes are still to come. -/
def mergeLoop : Nat → Option Nat → Int → List UInt8 → Option (List UInt8)
  | _, none, _, out => some out
  | 0, some _, _, _ => none
  | fuel + 1, some i, remainLen, out =>
    if remainLen < a.chunkSize then
      if remainLen < 0 then none else some (out ++ (a.chunkNodes i).data.take remainLen.toNat)
    else mergeLoop fuel (a.chunkNodes i).next (remainLen - a.chunkSize) (out ++ (a.chunkNodes i).data.take a.chunkSize)

def merge (hdr : Option Nat) (chunkLen dataLen : Int) : Option (Int × Int × List UInt8) :=
  if dataLen < chunkLen then some (-2, chunkLen, [])
  else do
    let out ← a.mergeLoop a.chunkTotal hdr chunkLen []
    some (0, chunkLen, out)

def splitLoop : Nat → CChunkAllocator → Option Nat → List UInt8 → Int → Option CChunkAllocator
  | _, a, none, _, _ => some a
  | 0, _, some _, _, _ => none
  | fuel + 1, a, some i, readPos, remainLen =>
    if remainLen < a.chunkSize then
      if remainLen < 0 then none else some (a.setData i (readPos.take remainLen.toNat))
    else
      let a := a.setData i (readPos.take a.chunkSize)
      splitLoop fuel a (a.chunkNodes i).next (readPos.drop a.chunkSize) (remainLen - a.chunkSize)

def split (headHdr : Option Nat) (dataBuf : List UInt8) (dataLen : Int) : Option CChunkAllocator :=
  splitLoop a.chunkTotal a headHdr dataBuf dataLen

end CChunkAllocator

end Mysql51.Cache
