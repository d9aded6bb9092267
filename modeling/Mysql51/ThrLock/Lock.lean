import Mysql51.Lib.TailQueue

/-!
# Table locks

`THR_LOCK` of `mysys/thr_lock.c`: four queues of lock requests, linked through `next` and `prev` pointers in the requests
themselves, and the functions that grant, queue, release and abort requests. Each of them runs under the lock's mutex and is
one step here; a request that has to wait ends its step in a wait queue, and the grant is a write to it by the step of
another thread. The callbacks for the status of a table have no effect on the lock and are left out, apart from
`check_status`, whose answers are given to each step.
-/

namespace Mysql51.ThrLock

open TailQueue Function

inductive LockType where
  | unlock
  | readDefault
  | read
  | readWithSharedLocks
  | readHighPriority
  | readNoInsert
  | writeAllowWrite
  | writeAllowRead
  | writeConcurrentInsert
  | writeDelayed
  | writeDefault
  | writeLowPriority
  | write
  | writeOnly
deriving Repr, DecidableEq

namespace LockType

def toNat : LockType → Nat
  | unlock => 0
  | readDefault => 1
  | read => 2
  | readWithSharedLocks => 3
  | readHighPriority => 4
  | readNoInsert => 5
  | writeAllowWrite => 6
  | writeAllowRead => 7
  | writeConcurrentInsert => 8
  | writeDelayed => 9
  | writeDefault => 10
  | writeLowPriority => 11
  | write => 12
  | writeOnly => 13

instance : LE LockType := ⟨fun t u => t.toNat ≤ u.toNat⟩

instance : LT LockType := ⟨fun t u => t.toNat < u.toNat⟩

instance (t u : LockType) : Decidable (t ≤ u) := inferInstanceAs (Decidable (t.toNat ≤ u.toNat))

instance (t u : LockType) : Decidable (t < u) := inferInstanceAs (Decidable (t.toNat < u.toNat))

def Requested (t : LockType) : Prop := t ≠ unlock ∧ t ≠ readDefault ∧ t ≠ writeDefault
deriving Decidable

def Inserts (t : LockType) : Prop := t = writeConcurrentInsert ∨ t = writeAllowWrite
deriving Decidable

end LockType

/-- The members `read_wait`, `read`, `write_wait` and `write` of `THR_LOCK`. -/
inductive Queue where
  | readWait
  | read
  | writeWait
  | write
deriving Repr, DecidableEq

/-- What is in a request besides its links, and the counters of the lock. `cond` says that the request has a condition
variable to be woken by. -/
structure Requests (n : Nat) where
  owner : Fin n → Nat
  type : Fin n → LockType
  cond : Fin n → Bool
  writeLockCount : Nat
  readNoWriteCount : Nat

/-- A `THR_LOCK` and the `THR_LOCK_DATA` for it, numbered below `n`. -/
structure Lock (n : Nat) where
  links : Store (Fin n) Queue
  reqs : Requests n

/-- What the functions read that is not in the lock: the `info` of an owner and the thread of an `info`, the variables
`thr_upgraded_concurrent_insert_lock` and `max_write_lock_count`, and whether the lock has a `check_status`. -/
structure Env where
  info : Nat → Nat
  threadId : Nat → Nat
  upgradedConcurrentInsertLock : LockType
  maxWriteLockCount : Nat
  hasCheckStatus : Bool
  upgraded : upgradedConcurrentInsertLock = .write ∨ upgradedConcurrentInsertLock = .writeLowPriority

inductive LockResult where
  | success
  | aborted
  | deadlock
  | waits
deriving Repr, DecidableEq

variable {n : Nat}

namespace Requests

variable (reqs : Requests n)

variable (i : Fin n)

def setType (t : LockType) : Requests n := { reqs with type := update reqs.type i t }

def setCond (c : Bool) : Requests n := { reqs with cond := update reqs.cond i c }

def enter (owner : Nat) (t : LockType) : Requests n :=
  { reqs with
    owner := update reqs.owner i owner
    type := update reqs.type i t
    cond := update reqs.cond i false }

def countRead : Requests n :=
  if reqs.type i = .readNoInsert then { reqs with readNoWriteCount := reqs.readNoWriteCount + 1 } else reqs

def uncountRead : Requests n :=
  if reqs.type i = .readNoInsert then { reqs with readNoWriteCount := reqs.readNoWriteCount - 1 } else reqs

section
variable (i : Fin n) (t : LockType) (c : Bool) (o : Nat)

@[simp] theorem setType_owner : (reqs.setType i t).owner = reqs.owner := rfl
@[simp] theorem setType_type : (reqs.setType i t).type = update reqs.type i t := rfl
@[simp] theorem setType_cond : (reqs.setType i t).cond = reqs.cond := rfl
@[simp] theorem setType_count : (reqs.setType i t).readNoWriteCount = reqs.readNoWriteCount := rfl
@[simp] theorem setCond_owner : (reqs.setCond i c).owner = reqs.owner := rfl
@[simp] theorem setCond_type : (reqs.setCond i c).type = reqs.type := rfl
@[simp] theorem setCond_cond : (reqs.setCond i c).cond = update reqs.cond i c := rfl
@[simp] theorem setCond_count : (reqs.setCond i c).readNoWriteCount = reqs.readNoWriteCount := rfl
@[simp] theorem enter_owner : (reqs.enter i o t).owner = update reqs.owner i o := rfl
@[simp] theorem enter_type : (reqs.enter i o t).type = update reqs.type i t := rfl
@[simp] theorem enter_cond : (reqs.enter i o t).cond = update reqs.cond i false := rfl
@[simp] theorem enter_count : (reqs.enter i o t).readNoWriteCount = reqs.readNoWriteCount := rfl

@[simp] theorem countRead_owner : (reqs.countRead i).owner = reqs.owner := by
  unfold countRead
  split_ifs <;> rfl

@[simp] theorem countRead_type : (reqs.countRead i).type = reqs.type := by
  unfold countRead
  split_ifs <;> rfl

@[simp] theorem countRead_cond : (reqs.countRead i).cond = reqs.cond := by
  unfold countRead
  split_ifs <;> rfl

@[simp] theorem countRead_count :
    (reqs.countRead i).readNoWriteCount = reqs.readNoWriteCount + if reqs.type i = .readNoInsert then 1 else 0 := by
  unfold countRead
  split_ifs <;> rfl

@[simp] theorem uncountRead_owner : (reqs.uncountRead i).owner = reqs.owner := by
  unfold uncountRead
  split_ifs <;> rfl

@[simp] theorem uncountRead_type : (reqs.uncountRead i).type = reqs.type := by
  unfold uncountRead
  split_ifs <;> rfl

@[simp] theorem uncountRead_cond : (reqs.uncountRead i).cond = reqs.cond := by
  unfold uncountRead
  split_ifs <;> rfl

@[simp] theorem uncountRead_count :
    (reqs.uncountRead i).readNoWriteCount = reqs.readNoWriteCount - if reqs.type i = .readNoInsert then 1 else 0 := by
  unfold uncountRead
  split_ifs <;> rfl

end

end Requests

namespace Lock

variable (env : Env) (check : Fin n → Bool) (lock : Lock n)

def first (q : Queue) : Option (Fin n) := lock.links.data q

def ids (q : Queue) : List (Fin n) := lock.links.walk n (lock.first q)

/-- A request is put at the end of a queue, its `next` pointer being null. -/
def append (q : Queue) (i : Fin n) : Lock n := { lock with links := lock.links.append q i }

def unlink (q : Queue) (i : Fin n) : Lock n := { lock with links := lock.links.unlink q i }

def mapReqs (g : Requests n → Requests n) : Lock n := { lock with reqs := g lock.reqs }

def haveOldReadLock (owner : Nat) : Bool := (lock.ids .read).any fun i => lock.reqs.owner i = owner

def haveSpecificLock (t : LockType) : Bool := (lock.ids .writeWait).any fun i => lock.reqs.type i = t

/-! ### Waking up -/

/-- One request of the loop of `free_all_read_locks`: it is linked back into the wait queue, or woken. -/
def freeRead (usingConcurrentInsert : Bool) (i : Fin n) : Lock n :=
  if lock.reqs.type i = .readNoInsert ∧ usingConcurrentInsert = true then (lock.unlink .read i).append .readWait i
  else lock.mapReqs fun reqs => (reqs.countRead i).setCond i false

def freeLoop (usingConcurrentInsert : Bool) : Nat → Fin n → Lock n → Lock n
  | 0, _, lock => lock
  | fuel + 1, i, lock =>
    match (lock.freeRead usingConcurrentInsert i).links.next i with
    | none => lock.freeRead usingConcurrentInsert i
    | some j => freeLoop usingConcurrentInsert fuel j (lock.freeRead usingConcurrentInsert i)

def freeAllReadLocks (usingConcurrentInsert : Bool) : Lock n :=
  match lock.first .readWait with
  | none => lock
  | some i =>
    let lock := freeLoop usingConcurrentInsert n i { lock with links := lock.links.splice .read .readWait i }
    let lock := { lock with links := lock.links.terminate .readWait }
    if lock.first .readWait = none then lock.mapReqs fun reqs => { reqs with writeLockCount := 0 } else lock

variable (i : Fin n)

/-- One waiting write request is put into the queue of granted ones and woken. -/
def grantWrite : Lock n :=
  { links := ((lock.links.unlink .writeWait i).append .write i).terminate .write
    reqs := (if lock.reqs.type i = .writeConcurrentInsert ∧ check i = true then lock.reqs.setType i .write
      else lock.reqs).setCond i false }

/-- The loop that grants waiting write requests: after a `TL_WRITE_ALLOW_WRITE` the next one too if it is of that type. Its
result has the request granted last. -/
def grantLoop : Nat → Fin n → Lock n → Fin n × Lock n
  | 0, i, lock => (i, lock)
  | fuel + 1, i, lock =>
    let lock := lock.grantWrite check i
    match lock.first .writeWait with
    | none => (i, lock)
    | some j =>
      if lock.reqs.type i = .writeAllowWrite ∧ lock.reqs.type j = .writeAllowWrite then grantLoop fuel j lock
      else (i, lock)

/-- The part of `wake_up_waiters` that grants write request `i`, those that go with it and, unless they are exclusive, waiting
read requests. -/
def wakeWriters (count : Nat) (i : Fin n) : Lock n :=
  let granted := grantLoop check n i (lock.mapReqs fun reqs => { reqs with writeLockCount := count })
  if granted.2.reqs.type granted.1 ≥ .writeLowPriority then granted.2
  else granted.2.freeAllReadLocks (granted.2.reqs.type granted.1).Inserts

def wakeIdle : Lock n :=
  match lock.first .writeWait with
  | none => lock.freeAllReadLocks false
  | some i =>
    if lock.reqs.type i ≠ .writeLowPriority ∨
        (lock.first .readWait).all (fun r => lock.reqs.type r < .readHighPriority) then
      if lock.reqs.writeLockCount > env.maxWriteLockCount then
        -- too many write locks in a row
        if (lock.first .readWait).isSome then
          (lock.mapReqs fun reqs => { reqs with writeLockCount := 0 }).freeAllReadLocks false
        else lock.wakeWriters check 0 i
      else lock.wakeWriters check ((lock.reqs.writeLockCount + 1) % 18446744073709551616) i
    else lock.freeAllReadLocks (lock.reqs.type i).Inserts

def wakeBesideReads : Lock n :=
  match lock.first .writeWait with
  | none => lock.freeAllReadLocks false
  | some i =>
    let lockType := lock.reqs.type i
    if lockType ≤ .writeDelayed ∧ (¬ lockType.Inserts ∨ lock.reqs.readNoWriteCount = 0) then
      if lockType = .writeConcurrentInsert ∧ check i = true then
        (lock.mapReqs fun reqs => reqs.setType i .write).freeAllReadLocks false
      else (grantLoop (fun _ => false) n i lock).2.freeAllReadLocks lockType.Inserts
    else lock

def wakeUpWaiters : Lock n :=
  if (lock.first .write).isSome then lock
  else if (lock.first .read).isNone then lock.wakeIdle env check
  else lock.wakeBesideReads check

/-! ### The functions of the interface -/

/-- The end of `thr_lock` for a request that is not granted: the test for a deadlock within one connection, and the part of
`wait_for_lock` before the thread waits. -/
def waitForLock (q : Queue) (i : Fin n) : LockResult × Lock n :=
  let lockOwner := (lock.first .read).or (lock.first .write)
  if lockOwner.any fun o => env.info (lock.reqs.owner o) = env.info (lock.reqs.owner i) then (.deadlock, lock)
  else (.waits, (lock.append q i).mapReqs fun reqs => reqs.setCond i true)

def abortRequest : LockResult × Lock n := (.aborted, lock.mapReqs fun reqs => reqs.setType i .unlock)

def thrLockRead : LockResult × Lock n :=
  let lockType := lock.reqs.type i
  let granted := (lock.append .read i).mapReqs fun reqs => reqs.countRead i
  match lock.first .write with
  | some w =>
    if lock.reqs.owner i = lock.reqs.owner w ∨
        lock.reqs.type w ≤ .writeDelayed ∧ (lockType ≤ .readHighPriority ∨
          lock.reqs.type w ≠ .writeConcurrentInsert ∧ lock.reqs.type w ≠ .writeAllowRead) then (.success, granted)
    else if lock.reqs.type w = .writeOnly then lock.abortRequest i
    else lock.waitForLock env .readWait i
  | none =>
    if (lock.first .writeWait).all (fun w => lock.reqs.type w ≤ .writeLowPriority) ∨ lockType = .readHighPriority ∨
        lock.haveOldReadLock (lock.reqs.owner i) = true then (.success, granted)
    else lock.waitForLock env .readWait i

def thrLockOnlyWrite : LockResult × Lock n :=
  let lockType := lock.reqs.type i
  if lock.first .read = none ∨ lockType ≤ .writeDelayed ∧ (¬ lockType.Inserts ∨ lock.reqs.readNoWriteCount = 0) then
    (.success, lock.append .write i)
  else lock.waitForLock env .writeWait i

/-- The branch of `thr_lock` for a write lock, after the special cases for `TL_WRITE_DELAYED` and for a lock without
`check_status`. -/
def thrLockWrite : LockResult × Lock n :=
  match lock.first .write with
  | some w =>
    if lock.reqs.type w = .writeOnly ∧ lock.reqs.owner i ≠ lock.reqs.owner w then lock.abortRequest i
    else if lock.reqs.owner i = lock.reqs.owner w ∨ lock.reqs.type i = .writeAllowWrite ∧ lock.first .writeWait = none ∧
        lock.reqs.type w = .writeAllowWrite then (.success, lock.append .write i)
    else lock.waitForLock env .writeWait i
  | none =>
    if lock.first .writeWait = none then
      if lock.reqs.type i = .writeConcurrentInsert ∧ check i = true then
        (lock.mapReqs fun reqs => reqs.setType i env.upgradedConcurrentInsertLock).thrLockOnlyWrite env i
      else lock.thrLockOnlyWrite env i
    else lock.waitForLock env .writeWait i

def thrLock (owner : Nat) (lockType : LockType) : LockResult × Lock n :=
  let lock : Lock n := { links := lock.links.assign (.next i) none, reqs := lock.reqs.enter i owner lockType }
  if lockType ≤ .readNoInsert then lock.thrLockRead env i
  else if lockType = .writeDelayed then
    if (lock.first .write).any fun w => lock.reqs.type w = .writeOnly then lock.abortRequest i
    else if (lock.first .write).all (fun w => lock.reqs.type w ≠ .writeAllowRead) ∧
        lock.haveSpecificLock .writeAllowRead = false ∧ ((lock.first .write).isSome ∨ (lock.first .read).isSome) then
      -- the request is queued and the caller goes on
      (.success, (lock.append .writeWait i).mapReqs fun reqs => reqs.setCond i true)
    else lock.thrLockWrite env check i
  else if lockType = .writeConcurrentInsert ∧ env.hasCheckStatus = false then
    (lock.mapReqs fun reqs => reqs.setType i env.upgradedConcurrentInsertLock).thrLockWrite env check i
  else lock.thrLockWrite env check i

def thrUnlock : Lock n :=
  let lockType := lock.reqs.type i
  let q : Queue := if lockType ≤ .readNoInsert then .read
    else if lockType = .writeDelayed ∧ lock.reqs.cond i = true then .writeWait else .write
  let lock := (lock.unlink q i).mapReqs fun reqs => (reqs.uncountRead i).setType i .unlock
  lock.wakeUpWaiters env check

def abortWait : Lock n :=
  let wait : Queue := if lock.reqs.type i ≤ .readNoInsert then .readWait else .writeWait
  ((lock.unlink wait i).mapReqs fun reqs => reqs.setType i .unlock).wakeUpWaiters env check

def abortAll : List (Fin n) → Requests n → Requests n
  | [], reqs => reqs
  | i :: is, reqs => abortAll is ((reqs.setType i .unlock).setCond i false)

def thrAbortLocks (upgradeLock : Bool) : Lock n :=
  let lock : Lock n :=
    { links := (lock.links.clear .readWait).clear .writeWait
      reqs := abortAll (lock.ids .writeWait) (abortAll (lock.ids .readWait) lock.reqs) }
  match lock.first .write with
  | some w => if upgradeLock then lock.mapReqs fun reqs => reqs.setType w .writeOnly else lock
  | none => lock

def threadOf (reqs : Requests n) (i : Fin n) : Nat := env.threadId (env.info (reqs.owner i))

def abortThreadLoop (q : Queue) (thread : Nat) : Nat → Option (Fin n) → Lock n → Lock n
  | 0, _, lock => lock
  | _ + 1, none, lock => lock
  | fuel + 1, some i, lock =>
    let lock := if threadOf env lock.reqs i = thread then
      (lock.mapReqs fun reqs => (reqs.setType i .unlock).setCond i false).unlink q i else lock
    abortThreadLoop q thread fuel (lock.links.next i) lock

def thrAbortLocksForThread (thread : Nat) : Lock n :=
  let lock := abortThreadLoop env .readWait thread n (lock.first .readWait) lock
  (abortThreadLoop env .writeWait thread n (lock.first .writeWait) lock).wakeUpWaiters env check

def Idle : Prop := ∀ q, i ∉ lock.ids q

instance (i : Fin n) : Decidable (lock.Idle i) :=
  decidable_of_iff (i ∉ lock.ids .readWait ∧ i ∉ lock.ids .read ∧ i ∉ lock.ids .writeWait ∧ i ∉ lock.ids .write) <| by
    constructor
    · rintro ⟨h₁, h₂, h₃, h₄⟩ (_ | _ | _ | _) <;> assumption
    · exact fun h => ⟨h _, h _, h _, h _⟩

end Lock

/-! ### Runs -/

inductive Act (n : Nat) where
  | lock (i : Fin n) (owner : Nat) (lockType : LockType)
  | unlock (i : Fin n)
  | abortWait (i : Fin n)
  | abortLocks (upgradeLock : Bool)
  | abortLocksForThread (thread : Nat)
deriving DecidableEq

namespace Lock

/-- A lock is requested with a `THR_LOCK_DATA` that is not in use; what is unlocked is a granted lock, or a
`TL_WRITE_DELAYED` that `thr_lock` has queued without waiting for it. -/
def Enabled (lock : Lock n) : Act n → Prop
  | .lock i _ lockType => lockType.Requested ∧ lock.Idle i
  | .unlock i =>
    i ∈ lock.ids .read ∨ i ∈ lock.ids .write ∨ i ∈ lock.ids .writeWait ∧ lock.reqs.type i = .writeDelayed
  | .abortWait i => i ∈ lock.ids .readWait ∨ i ∈ lock.ids .writeWait
  | .abortLocks _ => True
  | .abortLocksForThread _ => True

instance (lock : Lock n) : (act : Act n) → Decidable (lock.Enabled act)
  | .lock _ _ _ => inferInstanceAs (Decidable (_ ∧ _))
  | .unlock _ => inferInstanceAs (Decidable (_ ∨ _))
  | .abortWait _ => inferInstanceAs (Decidable (_ ∨ _))
  | .abortLocks _ => inferInstanceAs (Decidable True)
  | .abortLocksForThread _ => inferInstanceAs (Decidable True)

def perform (env : Env) (check : Fin n → Bool) (lock : Lock n) : Act n → Lock n
  | .lock i owner lockType => (lock.thrLock env check i owner lockType).2
  | .unlock i => lock.thrUnlock env check i
  | .abortWait i => lock.abortWait env check i
  | .abortLocks upgradeLock => lock.thrAbortLocks upgradeLock
  | .abortLocksForThread thread => lock.thrAbortLocksForThread env check thread

def step (env : Env) (lock : Lock n) (act : Act n × (Fin n → Bool)) : Option (Lock n) :=
  if lock.Enabled act.1 then some (lock.perform env act.2 act.1) else none

def init (next : Fin n → Option (Fin n)) (prev : Fin n → Link (Fin n) Queue) : Lock n where
  links := { data := fun _ => none, last := .data, next := next, prev := prev }
  reqs :=
    { owner := fun _ => 0, type := fun _ => .unlock, cond := fun _ => false, writeLockCount := 0, readNoWriteCount := 0 }

end Lock

end Mysql51.ThrLock
