import Mysql51.Stats.CommStat
import Mysql51.Cache.Access

/-!
# The two segments of a statistic

Writers enter their samples in the segment that is current when they ask for it, under its lock. The switcher resets the
segment on standby without a lock, takes both locks and swaps the two. A state holds where each thread is in its code; a
step takes one thread past its next fetch, lock, access or unlock.
-/

namespace Mysql51.Stats

open Machine Cache Cache.CacheAccess Function

structure CDBInsDml where
  type : Int32
  result : Int32
  commStat : CDBCommStat

namespace CDBInsDml

def keyBytes (op : CDBInsDml) : List UInt8 := int32Bytes op.type ++ int32Bytes op.result

def toBytes (op : CDBInsDml) : List UInt8 := op.keyBytes ++ op.commStat.toBytes

def ofBytes (bs : List UInt8) : CDBInsDml :=
  ⟨int32OfBytes (slice bs 0 4), int32OfBytes (slice bs 4 4), CDBCommStat.ofBytes (slice bs 8 64)⟩

end CDBInsDml

/-- What a writer enters: its record, `op_diff`, and the clock when it does. -/
structure Sample where
  op : CDBInsDml
  opDiff : Double
  now : Int

/-- What `cdb_ins_dml_add` does between its lock and its unlock. A failed `insert` is only logged. `none` stands for a
record that `get` has not filled. -/
def insDmlUpdate (hash : List UInt8 → TMBHashKey) (ca : CacheAccess) (x : Sample) : Option CacheAccess := do
  let h := hash x.op.keyBytes
  match ← ca.getKey h with
  | ((rv, _), ca) =>
    if 0 < rv then
      let op := { x.op with commStat := cdbCommStatAdd x.op.commStat x.opDiff true }
      let (_, ca) ← ca.set h op.toBytes .dirty x.now
      some ca
    else if rv = 0 then
      match ← ca.get h 72 with
      | ((0, some got), ca) =>
        if got.buf.length = 72 then
          let entry := CDBInsDml.ofBytes got.buf
          let entry := { entry with commStat := cdbCommStatAdd entry.commStat x.opDiff false }
          let (_, ca) ← ca.set h entry.toBytes .dirty x.now
          some ca
        else none
      | _ => none
    else some ca

inductive Shm
  | one
  | two
  deriving DecidableEq

def Shm.other : Shm → Shm
  | .one => .two
  | .two => .one

theorem Shm.other_ne (s : Shm) : s.other ≠ s := by cases s <;> decide

theorem Shm.eq_other {s t : Shm} (h : s ≠ t) : s = t.other := by cases s <;> cases t <;> first | rfl | exact absurd rfl h

@[simp] theorem Shm.other_other (s : Shm) : s.other.other = s := by cases s <;> rfl

/-- Where a writer is in `cdb_ins_dml_add`: it has fetched the segment, has copied `_ca`, has the lock, has entered its
sample. A `CacheAccess` is known by the number of resets before it. -/
inductive WriterPc
  | idle
  | fetched (s : Shm) (x : Sample)
  | ready (s : Shm) (ca : Nat) (x : Sample)
  | locked (s : Shm) (ca : Nat) (x : Sample)
  | added (s : Shm)

inductive SwitchPc
  | idle
  | reset
  | lockedCurrent
  | lockedBoth
  | swapped
  | unlockedStandby
  deriving DecidableEq

inductive Owner
  | writer (w : Nat)
  | switcher
  deriving DecidableEq

structure ShmPair where
  current : Shm
  lock : Shm → Option Owner
  ca : Shm → CacheAccess
  resets : Shm → Nat
  writer : Nat → WriterPc
  switcher : SwitchPc

namespace ShmPair

variable (p : ShmPair)

def standby : Shm := p.current.other

theorem current_ne_standby : p.current ≠ p.standby := (Shm.other_ne p.current).symm

def setWriter (w : Nat) (pc : WriterPc) : ShmPair := { p with writer := update p.writer w pc }

def setLock (s : Shm) (owner : Option Owner) : ShmPair := { p with lock := update p.lock s owner }

theorem setLock_self (s : Shm) (owner : Option Owner) : (p.setLock s owner).lock s = owner := by
  simp [setLock]

theorem setLock_of_ne {s t : Shm} (hne : t ≠ s) (owner : Option Owner) : (p.setLock s owner).lock t = p.lock t := by
  simp [setLock, hne]

def setSwitcher (pc : SwitchPc) : ShmPair := { p with switcher := pc }

def acquire (s : Shm) (owner : Owner) : Option ShmPair :=
  if p.lock s = none then some (p.setLock s (some owner)) else none

/-- A call of `cdb_ins_dml_add`, up to `get_current`. -/
def call (w : Nat) (x : Sample) : Option ShmPair :=
  match p.writer w with
  | .idle => some (p.setWriter w (.fetched p.current x))
  | _ => none

/-- The next step of a writer. There is none through a `CacheAccess` that has been deleted. -/
def writerStep (hash : List UInt8 → TMBHashKey) (p : ShmPair) (w : Nat) : Option ShmPair :=
  match p.writer w with
  | .idle => none
  | .fetched s x => some (p.setWriter w (.ready s (p.resets s) x))
  | .ready s ca x => (p.acquire s (.writer w)).map fun p => p.setWriter w (.locked s ca x)
  | .locked s ca x =>
    if p.resets s = ca then
      (insDmlUpdate hash (p.ca s) x).map fun c => { p with ca := update p.ca s c }.setWriter w (.added s)
    else none
  | .added s => some ((p.setLock s none).setWriter w .idle)

def switchStep (fresh : CacheAccess) (p : ShmPair) : Option ShmPair :=
  match p.switcher with
  | .idle =>
    some ({ p with
      ca := update p.ca p.standby fresh
      resets := update p.resets p.standby (p.resets p.standby + 1) }.setSwitcher .reset)
  | .reset => (p.acquire p.current .switcher).map fun p => p.setSwitcher .lockedCurrent
  | .lockedCurrent => (p.acquire p.standby .switcher).map fun p => p.setSwitcher .lockedBoth
  | .lockedBoth => some ({ p with current := p.standby }.setSwitcher .swapped)
  | .swapped => some ((p.setLock p.standby none).setSwitcher .unlockedStandby)
  | .unlockedStandby => some ((p.setLock p.current none).setSwitcher .idle)

end ShmPair

inductive PairAct
  | call (w : Nat) (x : Sample)
  | writer (w : Nat)
  | switch

def ShmPair.step (hash : List UInt8 → TMBHashKey) (fresh : CacheAccess) (p : ShmPair) : PairAct → Option ShmPair
  | .call w x => p.call w x
  | .writer w => p.writerStep hash w
  | .switch => p.switchStep fresh

end Mysql51.Stats
