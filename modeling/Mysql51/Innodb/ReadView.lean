import Mysql51.Lib.Run

/-!
# Transactions and read views

What InnoDB does under the kernel mutex to the list of transactions and the list of read views: transactions start, get a
number in the middle of their commit, become committed and leave the list, and read views are opened and closed. Transaction
ids and transaction numbers are taken from one counter.
-/

namespace Mysql51.Innodb

inductive ConcState where
  | active
  | prepared
  | committedInMemory
  deriving DecidableEq

/-- A transaction in `trx_list`. Its number is `none` as long as it is `ut_dulint_max`. -/
structure Trx where
  id : Nat
  no : Option Nat
  concState : ConcState
  deriving DecidableEq

def Trx.running (trx : Trx) : Bool := trx.concState = .active ∨ trx.concState = .prepared

structure ReadView where
  creatorTrxId : Nat
  lowLimitNo : Nat
  lowLimitId : Nat
  upLimitId : Nat
  trxIds : List Nat
  deriving DecidableEq

/-- What `trx_sys` holds: the next id, the transactions and the read views, each list with the first element in front. -/
structure TrxSys where
  maxTrxId : Nat
  trxList : List Trx
  viewList : List ReadView

/-- The loop of `read_view_open_now` over `trx_list`, with the ids collected so far and `low_limit_no`. -/
def openLoop (crTrxId : Nat) : List Trx → List Nat → Nat → List Nat × Nat
  | trx :: rest, trxIds, lowLimitNo =>
    if trx.id ≠ crTrxId ∧ trx.running then
      openLoop crTrxId rest (trxIds ++ [trx.id])
        (match trx.no with
          | some no => if no < lowLimitNo then no else lowLimitNo
          | none => lowLimitNo)
    else openLoop crTrxId rest trxIds lowLimitNo
  | [], trxIds, lowLimitNo => (trxIds, lowLimitNo)

variable (sys : TrxSys)

def openView (crTrxId : Nat) : ReadView :=
  let lowLimitId := sys.maxTrxId
  let (trxIds, lowLimitNo) := openLoop crTrxId sys.trxList [] lowLimitId
  { creatorTrxId := crTrxId
    lowLimitNo := lowLimitNo
    lowLimitId := lowLimitId
    upLimitId := trxIds.getLast?.getD lowLimitId
    trxIds := trxIds }

def readViewOpenNow (crTrxId : Nat) : TrxSys :=
  { sys with viewList := openView sys crTrxId :: sys.viewList }

/-- The loop of `read_view_oldest_copy_or_open_new`: it fills `n - i` more cells of the copy, of which `i` are there. -/
def copyLoop (oldIds : List Nat) (creatorTrxId : Nat) : Nat → Bool → Nat → List Nat → List Nat
  | 0, _, _, trxIds => trxIds
  | n + 1, needsInsert, insertDone, trxIds =>
    let i := trxIds.length
    if needsInsert ∧ (oldIds.length ≤ i ∨ oldIds.getD i 0 < creatorTrxId) then
      copyLoop oldIds creatorTrxId n false 1 (trxIds ++ [creatorTrxId])
    else copyLoop oldIds creatorTrxId n needsInsert insertDone (trxIds ++ [oldIds.getD (i - insertDone) 0])

def copyView (oldView : ReadView) (crTrxId : Nat) : ReadView :=
  let needsInsert := decide (oldView.creatorTrxId ≠ 0)
  let n := oldView.trxIds.length + if needsInsert then 1 else 0
  let trxIds := copyLoop oldView.trxIds oldView.creatorTrxId n needsInsert 0 []
  { creatorTrxId := crTrxId
    lowLimitNo := oldView.lowLimitNo
    lowLimitId := oldView.lowLimitId
    upLimitId := if 0 < n then trxIds.getD (n - 1) 0 else oldView.upLimitId
    trxIds := trxIds }

def readViewOldestCopyOrOpenNew (crTrxId : Nat) : ReadView × TrxSys :=
  match sys.viewList.getLast? with
  | none => (openView sys crTrxId, readViewOpenNow sys crTrxId)
  | some oldView => (copyView oldView crTrxId, { sys with viewList := sys.viewList ++ [copyView oldView crTrxId] })

def readViewClose (i : Nat) : TrxSys := { sys with viewList := sys.viewList.eraseIdx i }

def seesLoop (trxId : Nat) : List Nat → Bool
  | id :: rest => if trxId ≤ id then decide (trxId < id) else seesLoop trxId rest
  | [] => true

def readViewSeesTrxId (view : ReadView) (trxId : Nat) : Bool :=
  if trxId < view.upLimitId then true
  else if view.lowLimitId ≤ trxId then false
  else seesLoop trxId view.trxIds.reverse

def trxStartLow : TrxSys :=
  { sys with maxTrxId := sys.maxTrxId + 1, trxList := ⟨sys.maxTrxId, none, .active⟩ :: sys.trxList }

def setTrx (id : Nat) (f : Trx → Trx) : TrxSys :=
  { sys with trxList := sys.trxList.map fun trx => if trx.id = id then f trx else trx }

def assignNo (id : Nat) : TrxSys :=
  { setTrx sys id (fun trx => { trx with no := some sys.maxTrxId }) with maxTrxId := sys.maxTrxId + 1 }

def setConcState (id : Nat) (concState : ConcState) : TrxSys :=
  setTrx sys id fun trx => { trx with concState := concState }

/-- The end of `trx_commit_off_kernel`: the transaction leaves the list. -/
def trxRemove (id : Nat) : TrxSys := { sys with trxList := sys.trxList.filter fun trx => trx.id ≠ id }

/-- What has happened: the ids that were assigned, the numbers and their transactions, and the transactions that have become
committed in memory. -/
structure Log where
  ids : List Nat
  nos : List (Nat × Nat)
  committed : List Nat

structure Watched where
  sys : TrxSys
  log : Log

/-- The start: no transaction, no view, and a counter above the id `(0, 0)` of purge. -/
def Watched.init (maxTrxId : Nat) : Watched := ⟨⟨maxTrxId, [], []⟩, ⟨[], [], []⟩⟩

inductive TrxAct where
  | start
  | assignNo (id : Nat)
  | prepare (id : Nat)
  | commitInMemory (id : Nat)
  | remove (id : Nat)
  | openNow (id : Nat)
  | oldestCopy
  | close (i : Nat)

/-- When a transaction makes a step. A read view is opened by an active transaction that is not in the middle of its commit, a
transaction gets its number once, in its commit, and it leaves the list after it has become committed. -/
def TrxAct.enabled : TrxAct → Bool
  | .start => true
  | .assignNo id => sys.trxList.any fun trx => trx.id = id && trx.running && trx.no.isNone
  | .prepare id => sys.trxList.any fun trx => trx.id = id && trx.concState = .active
  | .commitInMemory id => sys.trxList.any fun trx => trx.id = id && trx.running
  | .remove id => sys.trxList.any fun trx => trx.id = id && trx.concState = .committedInMemory
  | .openNow id => sys.trxList.any fun trx => trx.id = id && trx.concState = .active && trx.no.isNone
  | .oldestCopy => true
  | .close i => decide (i < sys.viewList.length)

def TrxAct.apply (w : Watched) : TrxAct → Watched
  | .start => ⟨trxStartLow w.sys, { w.log with ids := w.sys.maxTrxId :: w.log.ids }⟩
  | .assignNo id => ⟨Innodb.assignNo w.sys id, { w.log with nos := (id, w.sys.maxTrxId) :: w.log.nos }⟩
  | .prepare id => ⟨setConcState w.sys id .prepared, w.log⟩
  | .commitInMemory id =>
    ⟨setConcState w.sys id .committedInMemory, { w.log with committed := id :: w.log.committed }⟩
  | .remove id => ⟨trxRemove w.sys id, w.log⟩
  | .openNow id => ⟨readViewOpenNow w.sys id, w.log⟩
  | .oldestCopy => ⟨(readViewOldestCopyOrOpenNew w.sys 0).2, w.log⟩
  | .close i => ⟨readViewClose w.sys i, w.log⟩

def trxStep (w : Watched) (a : TrxAct) : Option Watched := if a.enabled w.sys then some (a.apply w) else none

end Mysql51.Innodb
