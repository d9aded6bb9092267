import Mathlib.Data.List.Basic

/-!
# The memory-mapped log of two-phase commits

`TC_LOG_MMAP` of `log.cc` keeps the ids of the transactions that are to be committed in the pages of a mapped file. One
page is active and takes new ids, one may be on its way to the disk, and the others wait in a pool. A thread that has
stored an id waits until its page is synced or syncs it itself. Threads interleave at the operations on mutexes: a step is
what a thread does from one lock that it takes to the next one that it waits for. A page is an array of slots, and an id
goes into any free one.
-/

namespace Mysql51.TcLog

open Function

inductive PageState where
  | pool
  | error
  | dirty
  deriving DecidableEq

/-- An id in a slot of a page; `stored` tells when it was stored. -/
structure Entry where
  xid : Nat
  page : Nat
  slot : Nat
  stored : Nat
  deriving DecidableEq

structure Page where
  /-- The ids in the page, 0 in a free slot. -/
  slots : List Nat
  size : Nat
  free : Int
  waiters : Nat
  state : PageState
  next : Option Nat
  /-- The thread that holds `lock`. -/
  lock : Option Nat
  deriving DecidableEq

/-- Where a thread is. The argument `woken` of a sleeping thread says that it has been signalled. -/
inductive Pc where
  /-- in neither function -/
  | idle
  /-- in `log_xid`, about to lock `LOCK_active` -/
  | enter (xid : Nat)
  /-- waiting for `COND_active` -/
  | sleepActive (xid : Nat) (woken : Bool)
  /-- in `get_active_from_pool`, about to lock `LOCK_pool`; the thread holds `LOCK_active` -/
  | wantPool (xid : Nat)
  /-- waiting in `overflow` for `COND_pool`; the thread holds `LOCK_active` -/
  | sleepPool (xid : Nat) (woken : Bool)
  /-- about to lock the active page; the thread holds `LOCK_active` -/
  | wantPage (xid page : Nat)
  /-- about to lock `LOCK_sync`; the thread holds the lock of the page -/
  | wantSync (e : Entry)
  /-- waiting for the condition of the page -/
  | sleepPage (e : Entry) (woken : Bool)
  /-- about to lock `LOCK_active`; the thread holds `LOCK_sync` -/
  | wantActive (e : Entry)
  /-- in `sync`, about to call `my_msync` -/
  | startSync (e : Entry)
  /-- in `my_msync` of a page, that began at `start`; `written` says that the page has gone to the disk since then -/
  | msync (e : Entry) (page start : Nat) (written : Bool)
  /-- about to lock `LOCK_pool` to return the page -/
  | toPool (e : Entry) (err : Bool)
  /-- about to lock `LOCK_sync` to end the sync -/
  | leaveSync (e : Entry) (err : Bool)
  /-- in `unlog`, the slot being cleared, about to lock the page -/
  | unlog (page : Nat)
  /-- a null pointer was dereferenced -/
  | fault
  deriving DecidableEq

structure Log where
  npages : Nat
  pages : Nat → Page
  active : Option Nat
  syncing : Option Nat
  pool : Option Nat
  poolLast : Nat
  /-- The threads that hold `LOCK_active`, `LOCK_sync` and `LOCK_pool`. -/
  lockActive : Option Nat
  lockSync : Option Nat
  lockPool : Option Nat
  nthreads : Nat
  threads : Nat → Pc
  /-- The pages as they are on disk. -/
  disk : Nat → List Nat
  /-- When the last successful `my_msync` of a page began. -/
  synced : Nat → Nat
  /-- What has been logged with success and not unlogged. -/
  logged : List Entry
  /-- The number of ids stored and syncs begun so far. -/
  now : Nat

/-- The log that `open` leaves, `sizes` being the numbers of slots of its pages. -/
def start (sizes : List Nat) (nthreads : Nat) : Log where
  npages := sizes.length
  pages := fun p =>
    let size := sizes.getD p 0
    { slots := List.replicate size 0, size := size, free := size, waiters := 0, state := .pool
      next := if p + 1 < sizes.length then some (p + 1) else none, lock := none }
  active := some 0
  syncing := none
  pool := some 1
  poolLast := sizes.length - 1
  lockActive := none
  lockSync := none
  lockPool := none
  nthreads := nthreads
  threads := fun _ => .idle
  disk := fun p => List.replicate (sizes.getD p 0) 0
  synced := fun _ => 0
  logged := []
  now := 1

namespace Log

def setPage (s : Log) (p : Nat) (f : Page → Page) : Log := { s with pages := update s.pages p (f (s.pages p)) }

def setPc (s : Log) (t : Nat) (pc : Pc) : Log := { s with threads := update s.threads t pc }

inductive Cond where
  | active
  | pool
  | page (p : Nat)
  deriving DecidableEq

end Log

def Pc.wake (c : Log.Cond) : Pc → Pc
  | .sleepActive xid woken => .sleepActive xid (woken || decide (c = .active))
  | .sleepPool xid woken => .sleepPool xid (woken || decide (c = .pool))
  | .sleepPage e woken => .sleepPage e (woken || decide (c = .page e.page))
  | pc => pc

def Pc.waitsFor (c : Log.Cond) (pc : Pc) : Bool := pc ≠ pc.wake c

namespace Log

def broadcast (s : Log) (c : Cond) : Log := { s with threads := fun t => (s.threads t).wake c }

def signal (s : Log) (c : Cond) (w : Nat) : Option Log :=
  if (List.range s.nthreads).any fun t => (s.threads t).waitsFor c then
    if w < s.nthreads ∧ (s.threads w).waitsFor c then some (s.setPc w ((s.threads w).wake c)) else none
  else some s

/-- The pages from `p` on, linked by `next`; there is no such list when the links run in a circle. -/
def chain (s : Log) : Nat → Option Nat → Option (List Nat)
  | _, none => some []
  | 0, some _ => none
  | fuel + 1, some p => (s.chain fuel (s.pages p).next).map (p :: ·)

/-- The second strategy: the page without waiters that has the most free slots, `prev` being the page before. -/
def bestOf (s : Log) : Nat → List Nat → Int → Option (Nat × Nat) → Option (Nat × Nat)
  | _, [], _, best => best
  | prev, p :: ps, bestFree, best =>
    if (s.pages p).waiters = 0 ∧ bestFree < (s.pages p).free then s.bestOf p ps (s.pages p).free (some (prev, p))
    else s.bestOf p ps bestFree best

def takePage (s : Log) (prev : Option Nat) (p : Nat) : Log :=
  match (s.pages p).next with
  | none => { s with active := some p, poolLast := p }
  | some next =>
    match prev with
    | none => { s with active := some p, pool := some next }
    | some q => { s.setPage q ({ · with next := some next }) with active := some p }

/-- The end of `get_active_from_pool`: `LOCK_pool` is released if there is a page that is synced. -/
def leavePool (s : Log) (t xid p : Nat) : Log :=
  { s.setPc t (.wantPage xid p) with lockPool := if s.syncing.isSome then none else s.lockPool }

/-- The loop of `get_active_from_pool`, the thread holding `LOCK_pool` if there is a page that is synced. -/
def searchPool (s : Log) (t xid : Nat) : Option Log :=
  match s.pool with
  | none => some (s.setPc t .fault)
  | some first =>
    if (s.pages first).waiters = 0 then some ((s.takePage none first).leavePool t xid first)
    else
      (s.chain s.npages (s.pages first).next).map fun rest =>
        match s.bestOf first rest 0 none with
        | some (prev, p) => (s.takePage (some prev) p).leavePool t xid p
        | none => { s.setPc t (.sleepPool xid false) with lockPool := none }

def afterActive (s : Log) (t xid : Nat) : Option Log :=
  match s.active with
  | some p =>
    if (s.pages p).free = 0 then some { s.setPc t (.sleepActive xid false) with lockActive := none }
    else some { s.setPc t (.wantPage xid p) with lockActive := some t }
  | none =>
    let held := { s with lockActive := some t }
    if s.syncing.isSome then some (held.setPc t (.wantPool xid)) else held.searchPool t xid

/-- The id is stored, the page marked dirty and `LOCK_active` released. -/
def store (s : Log) (t xid p slot : Nat) : Log :=
  let stored := s.setPage p fun pg =>
    { pg with slots := pg.slots.set slot xid, free := pg.free - 1, state := .dirty, lock := some t }
  { stored.setPc t (.wantSync ⟨xid, p, slot, s.now⟩) with lockActive := none, now := s.now + 1 }

def finish (s : Log) (t : Nat) (e : Entry) (err : Bool) : Log :=
  { s.setPc t .idle with logged := if err then s.logged else e :: s.logged }

def synchronized (s : Log) (t : Nat) (e : Entry) (w : Nat) : Option Log :=
  let done := s.finish t e (decide ((s.pages e.page).state = .error))
  if (s.pages e.page).waiters = 0 then done.signal .pool w else some done

/-- From where `LOCK_sync` is taken after the id is stored to the next lock. -/
def afterStore (s : Log) (t : Nat) (e : Entry) (w : Nat) : Option Log :=
  let unlocked := s.setPage e.page ({ · with lock := none })
  if s.syncing.isSome then
    if (s.pages e.page).state = .dirty then
      some ((unlocked.setPage e.page fun pg => { pg with waiters := pg.waiters + 1 }).setPc t (.sleepPage e false))
    else unlocked.synchronized t e w
  else some { unlocked.setPc t (.wantActive e) with lockSync := some t }

/-- From where `LOCK_sync` is taken after the condition of the page to the next lock. -/
def afterSleep (s : Log) (t : Nat) (e : Entry) (w : Nat) : Option Log :=
  let left := s.setPage e.page fun pg => { pg with waiters := pg.waiters - 1 }
  if (s.pages e.page).state = .dirty then
    if s.syncing.isSome then some (s.setPc t (.sleepPage e false))
    else some { left.setPc t (.wantActive e) with lockSync := some t }
  else left.synchronized t e w

/-- The place of the page that is synced is taken, with both locks held. -/
def takeSync (s : Log) (t : Nat) (e : Entry) : Log :=
  { (s.broadcast .active).setPc t (.startSync e) with syncing := some e.page, active := none, lockSync := none }

def startSync (s : Log) (t : Nat) (e : Entry) : Log :=
  match s.syncing with
  | none => s.setPc t .fault
  | some q => { s.setPc t (.msync e q s.now false) with now := s.now + 1 }

def toPool (s : Log) (t : Nat) (e : Entry) (err : Bool) (w : Nat) : Option Log :=
  match s.syncing with
  | none => some (s.setPc t .fault)
  | some q =>
    let linked := (s.setPage s.poolLast ({ · with next := some q })).setPage q fun pg =>
      { pg with next := none, state := if err then .error else .pool }
    ({ linked.broadcast (.page q) with poolLast := q }.setPc t (.leaveSync e err)).signal .pool w

def leaveSync (s : Log) (t : Nat) (e : Entry) (err : Bool) (w : Nat) : Option Log :=
  match s.active with
  | none => some ({ s with syncing := none }.setPc t .fault)
  | some p => ({ s with syncing := none }.finish t e err).signal (.page p) w

def unlog (s : Log) (t : Nat) (e : Entry) : Log :=
  { (s.setPage e.page fun pg => { pg with slots := pg.slots.set e.slot 0 }).setPc t (.unlog e.page) with
    logged := s.logged.erase e }

def afterUnlog (s : Log) (t p w : Nat) : Option Log :=
  let left := (s.setPage p fun pg => { pg with free := pg.free + 1 }).setPc t .idle
  if (s.pages p).waiters = 0 then left.signal .pool w else some left

inductive Action where
  /-- `log_xid` is called -/
  | call (t xid : Nat)
  /-- `LOCK_active` is taken, at first or after a signal -/
  | lockActive (t : Nat)
  /-- `LOCK_pool` is taken in `get_active_from_pool`, at first or after a signal -/
  | lockPool (t : Nat)
  /-- the page is locked and a free slot taken -/
  | store (t slot : Nat)
  /-- `LOCK_sync` is taken, at first or after a signal -/
  | lockSync (t w : Nat)
  | takeSync (t : Nat)
  | startSync (t : Nat)
  | endSync (t : Nat) (err : Bool)
  | toPool (t w : Nat)
  | leaveSync (t w : Nat)
  /-- `unlog` is called -/
  | unlog (t : Nat) (e : Entry)
  | afterUnlog (t w : Nat)
  /-- a thread wakes up without a signal -/
  | wake (t : Nat)
  /-- the operating system writes a page to the disk -/
  | writeBack (p : Nat)
  deriving DecidableEq

/-- The disk gets the page as it is; a sync of the page that is going on has then written it. -/
def writeBack (s : Log) (p : Nat) : Log :=
  { s with
    disk := update s.disk p (s.pages p).slots
    threads := fun t =>
      match s.threads t with
      | .msync e page start written => .msync e page start (written || decide (page = p))
      | pc => pc }

def step (s : Log) : Action → Option Log
  | .call t xid => if t < s.nthreads ∧ xid ≠ 0 ∧ s.threads t = .idle then some (s.setPc t (.enter xid)) else none
  | .lockActive t =>
    if s.lockActive = none then
      match s.threads t with
      | .enter xid => s.afterActive t xid
      | .sleepActive xid true => s.afterActive t xid
      | _ => none
    else none
  | .lockPool t =>
    if s.lockPool = none then
      match s.threads t with
      | .wantPool xid => { s with lockPool := some t }.searchPool t xid
      | .sleepPool xid true => { s with lockPool := some t }.searchPool t xid
      | _ => none
    else none
  | .store t slot =>
    match s.threads t with
    | .wantPage xid p =>
      if (s.pages p).lock = none ∧ (s.pages p).slots[slot]? = some 0 then some (s.store t xid p slot) else none
    | _ => none
  | .lockSync t w =>
    if s.lockSync = none then
      match s.threads t with
      | .wantSync e => s.afterStore t e w
      | .sleepPage e true => s.afterSleep t e w
      | _ => none
    else none
  | .takeSync t =>
    match s.threads t with
    | .wantActive e => if s.lockActive = none then some (s.takeSync t e) else none
    | _ => none
  | .startSync t =>
    match s.threads t with
    | .startSync e => some (s.startSync t e)
    | _ => none
  | .endSync t err =>
    match s.threads t with
    | .msync e page start written =>
      if err then some (s.setPc t (.toPool e true))
      else if written then some { s.setPc t (.toPool e false) with synced := update s.synced page start }
      else none
    | _ => none
  | .toPool t w =>
    match s.threads t with
    | .toPool e err => if s.lockPool = none then s.toPool t e err w else none
    | _ => none
  | .leaveSync t w =>
    match s.threads t with
    | .leaveSync e err => if s.lockSync = none then s.leaveSync t e err w else none
    | _ => none
  | .unlog t e => if t < s.nthreads ∧ s.threads t = .idle ∧ e ∈ s.logged then some (s.unlog t e) else none
  | .afterUnlog t w =>
    match s.threads t with
    | .unlog p => if (s.pages p).lock = none then s.afterUnlog t p w else none
    | _ => none
  | .wake t =>
    match s.threads t with
    | .sleepActive xid _ => some (s.setPc t (.sleepActive xid true))
    | .sleepPool xid _ => some (s.setPc t (.sleepPool xid true))
    | .sleepPage e _ => some (s.setPc t (.sleepPage e true))
    | _ => none
  | .writeBack p => if p < s.npages then some (s.writeBack p) else none

def recover (s : Log) : List Nat := ((List.range s.npages).flatMap s.disk).filter (· ≠ 0)

end Log

end Mysql51.TcLog
