import Mathlib.Data.List.Basic

/-!
# The record lock queue of a page

The explicit record locks of one index page, from `lock/lock0lock.c`. A lock object belongs to a transaction, has one mode and
set of flags, and covers the records whose bits are set in its bitmap; the objects of a page stand in the order in which they
were put in the hash table. A request is granted or waits at the end of this queue, and what is released lets requests behind
it go. Whom the search for deadlocks rolls back depends on the waits in the whole system: the outcome is an argument here.
-/

namespace Mysql51.Innodb.RecLock

/-- `LOCK_IS`, `LOCK_IX`, `LOCK_S`, `LOCK_X` and `LOCK_AUTO_INC`. -/
inductive LockMode where
  | is
  | ix
  | s
  | x
  | autoInc
deriving Repr, DecidableEq

def lockModeStrongerOrEq (mode1 mode2 : LockMode) : Bool :=
  if mode1 = .x then true
  else if mode1 = .autoInc ∧ mode2 = .autoInc then true
  else if mode1 = .s ∧ (mode2 = .s ∨ mode2 = .is) then true
  else if mode1 = .is ∧ mode2 = .is then true
  else if mode1 = .ix ∧ (mode2 = .ix ∨ mode2 = .is) then true
  else false

def lockModeCompatible (mode1 mode2 : LockMode) : Bool :=
  if mode1 = .s ∧ (mode2 = .is ∨ mode2 = .s) then true
  else if mode1 = .x then false
  else if mode1 = .autoInc ∧ (mode2 = .is ∨ mode2 = .ix) then true
  else if mode1 = .is ∧ (mode2 = .is ∨ mode2 = .ix ∨ mode2 = .autoInc ∨ mode2 = .s) then true
  else if mode1 = .ix ∧ (mode2 = .is ∨ mode2 = .autoInc ∨ mode2 = .ix) then true
  else false

theorem lockModeCompatible_comm (mode1 mode2 : LockMode) : lockModeCompatible mode1 mode2 = lockModeCompatible mode2 mode1 := by
  cases mode1 <;> cases mode2 <;> rfl

/-- The `type_mode` of a record lock: its mode and the flags `LOCK_GAP`, `LOCK_REC_NOT_GAP`, `LOCK_INSERT_INTENTION` and
`LOCK_WAIT`. -/
structure TypeMode where
  mode : LockMode
  gap : Bool := false
  recNotGap : Bool := false
  insertIntention : Bool := false
  wait : Bool := false
deriving Repr, DecidableEq

/-- A `lock_t` of type `LOCK_REC`; the bitmap has a bit for each of the first heap numbers. -/
structure Lock where
  trx : Nat
  typeMode : TypeMode
  bitmap : List Bool
deriving Repr, DecidableEq

def supremum : Nat := 1

namespace Lock

variable (lock : Lock)

def getNthBit (i : Nat) : Bool := lock.bitmap.getD i false

def setNthBit (i : Nat) : Lock := { lock with bitmap := lock.bitmap.set i true }

def resetNthBit (i : Nat) : Lock := { lock with bitmap := lock.bitmap.set i false }

def findSetBit : Option Nat := lock.bitmap.findIdx? id

def resetWait : Lock := { lock with typeMode := { lock.typeMode with wait := false } }

end Lock

def lockRecHasToWait (trx : Nat) (typeMode : TypeMode) (lock2 : Lock) (lockIsOnSupremum : Bool) : Bool :=
  if trx ≠ lock2.trx ∧ lockModeCompatible typeMode.mode lock2.typeMode.mode = false then
    if (lockIsOnSupremum || typeMode.gap) && !typeMode.insertIntention then false
    else if !typeMode.insertIntention && lock2.typeMode.gap then false
    else if typeMode.gap && lock2.typeMode.recNotGap then false
    else if lock2.typeMode.insertIntention then false
    else true
  else false

def lockHasToWait (lock1 lock2 : Lock) : Bool :=
  if lock1.trx ≠ lock2.trx ∧ lockModeCompatible lock1.typeMode.mode lock2.typeMode.mode = false then
    lockRecHasToWait lock1.trx lock1.typeMode lock2 (lock1.getNthBit 1)
  else false

variable (queue : List Lock)

def lockRecHasExpl (preciseMode : TypeMode) (heapNo trx : Nat) : Bool :=
  queue.any fun lock =>
    lock.getNthBit heapNo && (lock.trx = trx && lockModeStrongerOrEq lock.typeMode.mode preciseMode.mode &&
      !lock.typeMode.wait && (!lock.typeMode.recNotGap || preciseMode.recNotGap || heapNo = supremum) &&
      (!lock.typeMode.gap || preciseMode.gap || heapNo = supremum) && !lock.typeMode.insertIntention)

def lockRecOtherHasConflicting (mode : TypeMode) (heapNo trx : Nat) : Bool :=
  queue.any fun lock => lock.getNthBit heapNo && lockRecHasToWait trx mode lock (heapNo = supremum)

def stripGap (typeMode : TypeMode) (heapNo : Nat) : TypeMode :=
  if heapNo = supremum then { typeMode with gap := false, recNotGap := false } else typeMode

/-- The lock object that `lock_rec_create` makes, for a page with `nHeap` records. -/
def newLock (typeMode : TypeMode) (heapNo trx nHeap : Nat) : Lock where
  trx := trx
  typeMode := stripGap typeMode heapNo
  bitmap := (List.replicate ((1 + (nHeap + 64) / 8) * 8) false).set heapNo true

def lockRecCreate (typeMode : TypeMode) (heapNo trx nHeap : Nat) : List Lock :=
  queue ++ [newLock typeMode heapNo trx nHeap]

def lockRecFindSimilarOnPage (typeMode : TypeMode) (heapNo trx : Nat) : Option Nat :=
  queue.findIdx? fun lock => lock.trx = trx && lock.typeMode = typeMode && heapNo < lock.bitmap.length

def lockRecAddToQueue (typeMode : TypeMode) (heapNo trx nHeap : Nat) : List Lock :=
  match lockRecFindSimilarOnPage queue (stripGap typeMode heapNo) heapNo trx with
  | some k =>
    if !(queue.any fun lock => lock.typeMode.wait && lock.getNthBit heapNo) && !typeMode.wait then
      queue.modify k fun lock => lock.setNthBit heapNo
    else lockRecCreate queue (stripGap typeMode heapNo) heapNo trx nHeap
  | none => lockRecCreate queue (stripGap typeMode heapNo) heapNo trx nHeap

def lockRecHasToWaitInQueue (ahead : List Lock) (waitLock : Lock) : Bool :=
  waitLock.findSetBit.any fun heapNo => ahead.any fun lock => lock.getNthBit heapNo && lockHasToWait waitLock lock

def grantUnlessWaits (ahead : List Lock) (lock : Lock) : Lock :=
  if lock.typeMode.wait && !lockRecHasToWaitInQueue ahead lock then lock.resetWait else lock

def grantLoop (on : Lock → Bool) : List Lock → List Lock → List Lock
  | _, [] => []
  | ahead, lock :: rest =>
    let lock := if on lock then grantUnlessWaits ahead lock else lock
    lock :: grantLoop on (ahead ++ [lock]) rest

def lockRecDequeueFromPage (k : Nat) : List Lock := grantLoop (fun _ => true) [] (queue.eraseIdx k)

def waitLock (trx : Nat) : Option Nat := queue.findIdx? fun lock => lock.trx = trx && lock.typeMode.wait

def lockCancelWaitingAndRelease (trx : Nat) : List Lock :=
  match waitLock queue trx with
  | some k => lockRecDequeueFromPage queue k
  | none => queue

/-- The outcome of `lock_deadlock_occurs`: the other transactions that it rolls back, in this order, and whether it chooses the
requesting transaction. -/
structure Deadlock where
  victims : List Nat := []
  occurs : Bool := false

def lockRecEnqueueWaiting (typeMode : TypeMode) (heapNo trx nHeap : Nat) (deadlock : Deadlock) : List Lock :=
  let created := lockRecCreate queue { typeMode with wait := true } heapNo trx nHeap
  let queue := (deadlock.victims.filter (· ≠ trx)).foldl lockCancelWaitingAndRelease created
  -- the search goes on only while the lock is not granted
  match waitLock queue trx with
  | some k => if deadlock.occurs then queue.modify k fun lock => lock.resetWait.resetNthBit heapNo else queue
  | none => queue

def lockRecLockSlow (impl : Bool) (mode : TypeMode) (heapNo trx nHeap : Nat) (deadlock : Deadlock) :
    List Lock :=
  if lockRecHasExpl queue mode heapNo trx then queue
  else if lockRecOtherHasConflicting queue mode heapNo trx then lockRecEnqueueWaiting queue mode heapNo trx nHeap deadlock
  else if !impl then lockRecAddToQueue queue mode heapNo trx nHeap
  else queue

def lockRecLock (impl : Bool) (mode : TypeMode) (heapNo trx nHeap : Nat) (deadlock : Deadlock) : List Lock :=
  match queue with
  | [] => if !impl then lockRecCreate [] mode heapNo trx nHeap else []
  | [lock] =>
    if lock.trx ≠ trx ∨ lock.typeMode ≠ mode ∨ lock.bitmap.length ≤ heapNo then
      lockRecLockSlow [lock] impl mode heapNo trx nHeap deadlock
    else if !impl && !lock.getNthBit heapNo then [lock.setNthBit heapNo]
    else [lock]
  | lock₁ :: lock₂ :: rest => lockRecLockSlow (lock₁ :: lock₂ :: rest) impl mode heapNo trx nHeap deadlock

def lockRecInsertCheckAndLock (heapNo trx nHeap : Nat) (deadlock : Deadlock) : List Lock :=
  if lockRecOtherHasConflicting queue { mode := .x, gap := true, insertIntention := true } heapNo trx then
    lockRecEnqueueWaiting queue { mode := .x, gap := true, insertIntention := true } heapNo trx nHeap deadlock
  else queue

def findLast (p : Lock → Bool) : List Lock → Option Nat
  | [] => none
  | lock :: rest => ((findLast p rest).map (· + 1)).or (if p lock then some 0 else none)

def lockRecUnlock (trx heapNo : Nat) (lockMode : LockMode) : List Lock :=
  match findLast (fun lock => lock.getNthBit heapNo && (lock.trx = trx && lock.typeMode.mode = lockMode)) queue with
  | some k => grantLoop (fun lock => lock.getNthBit heapNo) [] (queue.modify k fun lock => lock.resetNthBit heapNo)
  | none => queue

/-- The loop of `lock_release_off_kernel` over the locks of the transaction, the last one first; it may stop after some of
them to let others have the mutex. -/
def lockReleaseOffKernel (trx : Nat) : Nat → List Lock → List Lock
  | 0, queue => queue
  | count + 1, queue =>
    match findLast (fun lock => lock.trx = trx) queue with
    | some k => lockReleaseOffKernel trx count (lockRecDequeueFromPage queue k)
    | none => queue

inductive Act where
  | lock (impl : Bool) (mode : TypeMode) (heapNo trx nHeap : Nat) (deadlock : Deadlock)
  | insert (heapNo trx nHeap : Nat) (deadlock : Deadlock)
  | unlock (trx heapNo : Nat) (lockMode : LockMode)
  | cancelWaiting (trx : Nat)
  | release (trx count : Nat)

def Requested (mode : TypeMode) : Prop :=
  (mode.mode = .s ∨ mode.mode = .x) ∧ ¬ (mode.gap = true ∧ mode.recNotGap = true) ∧ mode.insertIntention = false ∧ mode.wait = false
deriving Decidable

def Enabled : Act → Prop
  | .lock _ mode heapNo trx nHeap _ => Requested mode ∧ heapNo < nHeap ∧ waitLock queue trx = none
  | .insert heapNo trx nHeap _ => heapNo < nHeap ∧ waitLock queue trx = none
  | .unlock trx _ _ => waitLock queue trx = none
  | .cancelWaiting _ => True
  | .release _ _ => True

instance (queue : List Lock) : (act : Act) → Decidable (Enabled queue act)
  | .lock _ _ _ _ _ _ => inferInstanceAs (Decidable (_ ∧ _))
  | .insert _ _ _ _ => inferInstanceAs (Decidable (_ ∧ _))
  | .unlock _ _ _ => inferInstanceAs (Decidable (_ = _))
  | .cancelWaiting _ => inferInstanceAs (Decidable True)
  | .release _ _ => inferInstanceAs (Decidable True)

def perform : Act → List Lock
  | .lock impl mode heapNo trx nHeap deadlock => lockRecLock queue impl mode heapNo trx nHeap deadlock
  | .insert heapNo trx nHeap deadlock => lockRecInsertCheckAndLock queue heapNo trx nHeap deadlock
  | .unlock trx heapNo lockMode => lockRecUnlock queue trx heapNo lockMode
  | .cancelWaiting trx => lockCancelWaitingAndRelease queue trx
  | .release trx count => lockReleaseOffKernel trx count queue

def step (act : Act) : Option (List Lock) :=
  if Enabled queue act then some (perform queue act) else none

end Mysql51.Innodb.RecLock
