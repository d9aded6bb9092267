import Mathlib.Algebra.BigOperators.Group.Finset.Basic

/-!
# The common memory pool

The buddy allocator of `mem/mem0pool.c`, as it is compiled where `ulint` and pointers have 64 bits. An area of the pool starts
with a header whose first word holds the size of the area and its free bit; the headers are read at computed places of the
same memory that the users of the pool write to. A function that runs into `ut_error`, into memory that is not there or out of
memory does not return.
-/

namespace Mysql51.Innodb.MemPool

def memAreaExtraSize : Nat := 24

def memAreaMinSize : Nat := 2 * memAreaExtraSize

def ut2LogLoop : Nat → Nat → Nat
  | 0, _ => 0
  | fuel + 1, n => if n / 2 = 0 then 0 else ut2LogLoop fuel (n / 2) + 1

def ut2Log (n : Nat) : Nat := ut2LogLoop 64 (n - 1) + 1

def ut2Exp (n : Nat) : Nat := 1 <<< n

/-- The loop of `ut_2_power_up`; without fuel it has not ended. -/
def ut2PowerUpLoop (n : Nat) : Nat → Nat → Option Nat
  | 0, _ => none
  | fuel + 1, res => if res < n then ut2PowerUpLoop n fuel (res * 2 % 2 ^ 64) else some res

def ut2PowerUp (n : Nat) : Option Nat := ut2PowerUpLoop n 65 1

def memAreaGetSize (word : Nat) : Nat := word - word % 2

def memAreaSetSize (word size : Nat) : Nat := word % 2 ||| size

def memAreaGetFree (word : Nat) : Bool := word % 2 = 1

def memAreaSetFree (word : Nat) (free : Bool) : Nat := (word - word % 2) ||| free.toNat

/-- `mem_pool_t`; `word` is the word at each byte of `buf`, and an area in a free list is given by its place in `buf`. -/
structure Pool where
  size : Nat
  word : Nat → Nat
  reserved : Nat
  freeList : Nat → List Nat

namespace Pool

variable (pool : Pool)

def setWord (area : Nat) (f : Nat → Nat) : Pool := { pool with word := Function.update pool.word area (f (pool.word area)) }

def addFirst (i area : Nat) : Pool := { pool with freeList := Function.update pool.freeList i (area :: pool.freeList i) }

def remove (i area : Nat) : Pool := { pool with freeList := Function.update pool.freeList i ((pool.freeList i).erase area) }

end Pool

def createLog (rest : Nat) : Nat := if ut2Exp (ut2Log rest) > rest then ut2Log rest - 1 else ut2Log rest

/-- The end of the loop of `mem_pool_create`: the bytes from `used` on get a header and go to list `i`. -/
def Pool.carve (i used : Nat) (pool : Pool) : Pool :=
  (pool.setWord used fun word => memAreaSetFree (memAreaSetSize word (ut2Exp i)) true).addFirst i used

def createLoop : Nat → Nat → Pool → Pool
  | 0, _, pool => pool
  | fuel + 1, used, pool =>
    if pool.size - used ≥ memAreaMinSize then
      let i := createLog (pool.size - used)
      createLoop fuel (used + ut2Exp i) (pool.carve i used)
    else pool

variable (size : Nat)

def emptyPool (buf : Nat → Nat) : Pool := { size := size, word := buf, reserved := 0, freeList := fun _ => [] }

def memPoolCreate (buf : Nat → Nat) : Option Pool :=
  if size > 10000 then some (createLoop 64 0 (emptyPool size buf)) else none

def Pool.split (i area : Nat) (pool : Pool) : Pool :=
  let pool := pool.remove (i + 1) area
  let area2 := area + ut2Exp i
  let pool := pool.setWord area2 fun word => memAreaSetFree (memAreaSetSize word (ut2Exp i)) true
  let pool := pool.addFirst i area2
  let pool := pool.setWord area fun word => memAreaSetSize word (ut2Exp i)
  pool.addFirst i area

def splitFirst (i : Nat) (pool : Pool) : Option Pool := (pool.freeList (i + 1)).head?.map fun area => pool.split i area

def memPoolFillFreeList : Nat → Nat → Pool → Option (Bool × Pool)
  | 0, _, pool => some (false, pool)
  | d + 1, i, pool =>
    match (pool.freeList (i + 1)).head? with
    | some _ => (splitFirst i pool).map (true, ·)
    | none =>
      match memPoolFillFreeList d (i + 1) pool with
      | some (true, pool) => (splitFirst i pool).map (true, ·)
      | some (false, pool) => some (false, pool)
      | none => none

/-- `ut_malloc` returns only if the `malloc` of the system, whose outcome is given, has the memory. -/
def utMalloc (malloc : Bool) : Option Unit := if malloc then some () else none

def Pool.take (n area : Nat) (pool : Pool) : Pool :=
  let pool := pool.setWord area fun word => memAreaSetFree word false
  let pool := pool.remove n area
  { pool with reserved := pool.reserved + memAreaGetSize (pool.word area) }

def takeArea (n : Nat) (pool : Pool) : Option (Option Nat × Pool) :=
  match (pool.freeList n).head? with
  | none => none
  | some area =>
    if memAreaGetFree (pool.word area) = false then none else some (some (area + memAreaExtraSize), pool.take n area)

def allocLog : Nat := ut2Log (max ((size + memAreaExtraSize) % 2 ^ 64) memAreaMinSize)

def memAreaAlloc (malloc : Bool) (pool : Pool) : Option (Option Nat × Pool) :=
  -- there is no free_list[64]
  if allocLog size ≥ 64 then none
  else
    match (pool.freeList (allocLog size)).head? with
    | some _ => takeArea (allocLog size) pool
    | none =>
      match memPoolFillFreeList (63 - allocLog size) (allocLog size) pool with
      | some (true, pool) => takeArea (allocLog size) pool
      | some (false, pool) => (utMalloc malloc).map fun _ => (none, pool)
      | none => none

def memAreaGetBuddy (area size : Nat) (pool : Pool) : Option Nat :=
  if area % (2 * size) = 0 then
    if area + size + size > pool.size then none else some (area + size)
  else some (area - size)

def freeBuddy (area size : Nat) (pool : Pool) : Option Nat :=
  (memAreaGetBuddy area size pool).filter fun buddy =>
    memAreaGetFree (pool.word buddy) && size = memAreaGetSize (pool.word buddy)

/-- The part of `mem_area_free` that merges two areas of list `n`, one of them in use, to one in use: `first` is the lower
one and `buddy` the one that was free. -/
def Pool.merge (n first buddy : Nat) (f : Nat → Nat) (pool : Pool) : Pool :=
  let pool := pool.setWord first f
  let pool := pool.remove n buddy
  { pool with reserved := pool.reserved + ut2Exp n }

def Pool.give (n area size : Nat) (pool : Pool) : Pool :=
  let pool := pool.addFirst n area
  let pool := pool.setWord area fun word => memAreaSetFree word true
  { pool with reserved := pool.reserved - size }

/-- The check of the header that follows an area: its size has to be a power of two. -/
def nextOk (area size : Nat) (pool : Pool) : Bool :=
  area + size ≥ pool.size ||
    ut2PowerUp (memAreaGetSize (pool.word (area + size))) = some (memAreaGetSize (pool.word (area + size)))

/-- The body of `mem_area_free` of a pointer into the pool: the pool it leaves, or the arguments of the call that
frees the joined area. -/
def freeStep (ptr : Nat) (pool : Pool) : Option (Pool ⊕ Nat × Pool) :=
  let area := ptr - memAreaExtraSize
  let size := memAreaGetSize (pool.word area)
  if memAreaGetFree (pool.word area) = true ∨ size = 0 ∨ nextOk area size pool = false then none
  else
    match freeBuddy area size pool with
    | some buddy =>
      if buddy < area then
        some (.inr (buddy + memAreaExtraSize,
          pool.merge (ut2Log size) buddy buddy fun word => memAreaSetFree (memAreaSetSize word (2 * size)) false))
      else some (.inr (ptr, pool.merge (ut2Log size) area buddy fun word => memAreaSetSize word (2 * size)))
    | none => some (.inl (pool.give (ut2Log size) area size))

def memAreaFree : Nat → Nat → Pool → Option Pool
  | 0, _, _ => none
  | fuel + 1, ptr, pool =>
    match freeStep ptr pool with
    | none => none
    | some (.inl pool) => some pool
    | some (.inr (ptr, pool)) => memAreaFree fuel ptr pool

def validateList (i : Nat) (pool : Pool) (areas : List Nat) : Bool :=
  areas.all fun area =>
    memAreaGetFree (pool.word area) && memAreaGetSize (pool.word area) = ut2Exp i &&
      (memAreaGetBuddy area (ut2Exp i) pool).all fun buddy =>
        !memAreaGetFree (pool.word buddy) || ut2Exp i ≠ memAreaGetSize (pool.word buddy)

def freeBytes (pool : Pool) : Nat := ∑ i ∈ Finset.range 64, (pool.freeList i).length * ut2Exp i

def memPoolValidate (pool : Pool) : Bool :=
  ((List.range 64).all fun i => validateList i pool (pool.freeList i)) && freeBytes pool + pool.reserved = pool.size

/-- The pool, and the live allocations from it: their places and the sizes that were asked for. -/
structure State where
  pool : Pool
  live : List (Nat × Nat)

/-- What the users of the pool do: allocate, with what `malloc` does if it is asked, free the `k`-th live allocation, or write to
it. -/
inductive Act where
  | alloc (size : Nat) (malloc : Bool)
  | free (k : Nat)
  | write (k : Nat) (buf : Nat → Nat)

def areaSize (pool : Pool) (ptr : Nat) : Nat := memAreaGetSize (pool.word (ptr - memAreaExtraSize))

def areaEnd (pool : Pool) (ptr : Nat) : Nat := ptr - memAreaExtraSize + areaSize pool ptr

/-- A user may write to all bytes of the area behind its header, and so to the words that have some of them. -/
def writeArea (ptr : Nat) (buf : Nat → Nat) (pool : Pool) : Pool :=
  { pool with word := fun p => if ptr < p + 8 ∧ p < areaEnd pool ptr then buf p else pool.word p }

/-- A pointer that is not into the pool is given back to the operating system. -/
def step (st : State) : Act → Option State
  | .alloc size malloc =>
    (memAreaAlloc size malloc st.pool).map fun (ptr, pool) =>
      { pool := pool, live := (ptr.map fun ptr => (ptr, size)).toList ++ st.live }
  | .free k =>
    match st.live[k]? with
    | some (ptr, _) => (memAreaFree 64 ptr st.pool).map fun pool => { pool := pool, live := st.live.eraseIdx k }
    | none => some st
  | .write k buf =>
    match st.live[k]? with
    | some (ptr, _) => some { st with pool := writeArea ptr buf st.pool }
    | none => some st

def init (buf : Nat → Nat) : Option State :=
  (memPoolCreate size buf).map fun pool => { pool := pool, live := [] }

end Mysql51.Innodb.MemPool
