import Mathlib.Data.List.Nodup
import Mathlib.Data.List.Basic
import Rmdb.Index.Node

namespace Rmdb

abbrev TxnId := Int

inductive LockDataId
  | table (fd : Int)
  | record (fd : Int) (rid : Rid)
deriving DecidableEq

inductive LockMode
  | shared
  | exlucsive
  | intentionShared
  | intentionExclusive
  | sIx
deriving DecidableEq, Repr

inductive GroupLockMode
  | nonLock
  | is
  | ix
  | s
  | x
  | six
deriving DecidableEq, Repr

namespace GroupLockMode

/-- The numeric value of the enumerator, by which the code compares modes. -/
def ord : GroupLockMode → Nat
  | nonLock => 0
  | is => 1
  | ix => 2
  | s => 3
  | x => 4
  | six => 5

def max (a b : GroupLockMode) : GroupLockMode := if a.ord < b.ord then b else a

end GroupLockMode

/-- The rows of `lock_matrix_`, columns in the order NON_LOCK, IS, IX, S, X, SIX. -/
def lockMatrix : GroupLockMode → List Bool
  | .nonLock => [true, true, true, true, true, true]
  | .is => [true, true, true, true, false, true]
  | .ix => [true, true, true, false, false, false]
  | .s => [true, true, false, true, false, false]
  | .x => [true, false, false, false, false, false]
  | .six => [true, true, false, false, false, false]

def lockCompatible (a b : GroupLockMode) : Bool := (lockMatrix a).getD b.ord false

def getGroupLockMode : LockMode → GroupLockMode
  | .shared => .s
  | .exlucsive => .x
  | .intentionShared => .is
  | .intentionExclusive => .ix
  | .sIx => .six

structure LockRequest where
  txnId : TxnId
  lockMode : LockMode
  granted : Bool
deriving DecidableEq, Repr

structure LockRequestQueue where
  requestQueue : List LockRequest := []
  upgradeQueue : List LockRequest := []
  groupLockMode : GroupLockMode := .nonLock
deriving DecidableEq, Repr

/-- How a call ends, as far as the calling thread can see: it returns, it blocks on the
queue's condition variable, it throws `TransactionAbortException`, or it reads through the
null pointer of a request that is not there. -/
inductive LockResult
  | returned
  | waits
  | dies
  | nullRequest
deriving DecidableEq, Repr

namespace LockRequestQueue

variable (q : LockRequestQueue) (txn : TxnId)

/-- True when the transaction has to die. -/
def checkWaitDie : Bool := q.requestQueue.any fun r => r.txnId < txn

def checkAndExecuteLock (mode : LockMode) : LockResult × LockRequestQueue :=
  if lockCompatible q.groupLockMode (getGroupLockMode mode) then
    (.returned, { q with
      requestQueue := q.requestQueue ++ [⟨txn, mode, true⟩]
      groupLockMode := getGroupLockMode mode })
  else if q.checkWaitDie txn then (.dies, q)
  else (.waits, { q with requestQueue := q.requestQueue ++ [⟨txn, mode, false⟩] })

/-- Writes the mode into the transaction's request; a queue holds at most one. -/
def setMode (mode : LockMode) (granted : Bool) : List LockRequest :=
  q.requestQueue.map fun r => if r.txnId = txn then ⟨txn, mode, granted || r.granted⟩ else r

def upgradeLockOnTable (mode : LockMode) : LockResult × LockRequestQueue :=
  match q.requestQueue.find? (fun r => r.txnId = txn) with
  | none => (.nullRequest, q)
  | some r =>
      if (getGroupLockMode mode).ord ≤ (getGroupLockMode r.lockMode).ord then (.returned, q)
      else if q.checkWaitDie txn then (.dies, q)
      else if q.requestQueue.length = 1 ∨ lockCompatible q.groupLockMode (getGroupLockMode mode) then
        (.returned, { q with
          requestQueue := q.setMode txn mode true
          groupLockMode := q.groupLockMode.max (getGroupLockMode mode) })
      else (.waits, { q with upgradeQueue := q.upgradeQueue ++ [⟨txn, mode, false⟩] })

/-- What a woken upgrader does before `upgrade_lock_on_table` returns. -/
def finishUpgrade (mode : LockMode) : LockRequestQueue :=
  { q with
    requestQueue := q.setMode txn mode false
    upgradeQueue := q.upgradeQueue.eraseP fun r => r.txnId = txn }

/-- The loop of `unlock` that grants every waiting request the group mode allows. -/
def grantCompatible : GroupLockMode → List LockRequest → GroupLockMode × List LockRequest
  | g, [] => (g, [])
  | g, r :: l =>
      if lockCompatible g (getGroupLockMode r.lockMode) then
        let rest := grantCompatible (g.max (getGroupLockMode r.lockMode)) l
        (rest.1, { r with granted := true } :: rest.2)
      else
        let rest := grantCompatible g l
        (rest.1, r :: rest.2)

/-- `unlock` when nobody holds the lock any more: the front request decides the mode. -/
def grantWaiting (front : LockRequest) (rest : List LockRequest) : LockRequestQueue :=
  if getGroupLockMode front.lockMode = .x then
    { q with requestQueue := { front with granted := true } :: rest, groupLockMode := .x }
  else
    let granted := grantCompatible (getGroupLockMode front.lockMode) (front :: rest)
    { q with requestQueue := granted.2, groupLockMode := granted.1 }

/-- `unlock` when `first` is the first request that is still granted: the front of the
upgrade queue is served if it belongs to `first` and nobody else holds the lock. -/
def handOver (requests : List LockRequest) (first : LockRequest) (others : List LockRequest) :
    LockRequestQueue :=
  match q.upgradeQueue with
  | [] => { q with requestQueue := requests }
  | up :: ups =>
      if first.txnId = up.txnId ∧ others.all (fun r => !r.granted) then
        { requestQueue := requests
          upgradeQueue := { up with granted := true } :: ups
          groupLockMode := getGroupLockMode up.lockMode }
      else { q with requestQueue := requests }

def unlock : LockRequestQueue :=
  let requests := q.requestQueue.eraseP fun r => r.txnId = txn
  match requests with
  | [] => { q with requestQueue := [], groupLockMode := .nonLock }
  | front :: rest =>
      match requests.dropWhile (fun r => !r.granted) with
      | [] => q.grantWaiting front rest
      | first :: others => q.handOver requests first others

end LockRequestQueue

end Rmdb
