import Rmdb.Lib.TwoPhase
import Rmdb.Record.ScanCounts
import Rmdb.Transaction.LockHolders

namespace Rmdb

open TwoPhase

/-- What a transaction has done to a table file. An insert is `refused` when a unique index has
its key already: the executor deletes the record again. -/
inductive RecordAccess
  | get (fd : Int) (rid : Rid) (record : Bytes)
  | count (fd : Int) (n : Int)
  | insert (fd : Int) (rid : Rid) (buf : Bytes)
  | refused (fd : Int) (rid : Rid)
  | update (fd : Int) (rid : Rid) (buf : Bytes)
  | delete (fd : Int) (rid : Rid)

inductive RecordWrite
  | insert (rid : Rid) (buf : Bytes) (accepted : Bool)
  | update (rid : Rid) (record buf : Bytes)
  | delete (rid : Rid) (record : Bytes)

inductive FileWrite
  | insertTuple (fd : Int) (rid : Rid)
  | deleteTuple (fd : Int) (rid : Rid) (record : Bytes)
  | updateTuple (fd : Int) (rid : Rid) (record : Bytes)

/-- The thread of a transaction: `getting`, `counting` and `writing` sleep in a lock call,
`chosen` has the rid of `get_free_record`, `dying` has thrown `TransactionAbortException`,
`rollingBack` is in the first loop of `abort`, and `releasing` in the loop over `lock_set_` of
`commit` or `abort`. -/
inductive RecordThread
  | running
  | getting (fd : Int) (rid : Rid)
  | counting (fd : Int)
  | chosen (fd : Int) (rid : Rid) (buf : Bytes)
  | writing (fd : Int) (w : RecordWrite)
  | dying
  | rollingBack
  | releasing (committed : Bool)
  | ended (committed : Bool)

/-- The table files and the transactions that work on them. `found` is the record that an executor
has read last. The last three fields are the history: what each transaction has done since it
began, what the committed ones have made of the files, and the committed ones in the order of
their commits. -/
structure RecordServer where
  files : Int → RmFileHandle
  locks : LockState
  threads : TxnId → RecordThread
  found : TxnId → Option (Int × Rid × Bytes)
  writeSet : TxnId → List FileWrite
  log : TxnId → List RecordAccess
  committed : Int → Rid → Option Bytes
  serial : List (TxnId × List RecordAccess)

inductive RecordAction
  | getRecord (txn : TxnId) (fd : Int) (rid : Rid)
  | getRecordCount (txn : TxnId) (fd : Int)
  | getFreeRecord (txn : TxnId) (fd : Int) (buf : Bytes)
  | insert (txn : TxnId) (accepted : Bool)
  | update (txn : TxnId) (buf : Bytes)
  | delete (txn : TxnId)
  | wake (txn : TxnId)
  | commit (txn : TxnId)
  | abort (txn : TxnId)
  | undo (txn : TxnId)
  | undone (txn : TxnId)
  | unlock (txn : TxnId) (id : LockDataId)
  | unlocked (txn : TxnId)

def FileWrite.fd : FileWrite → Int
  | .insertTuple fd _ | .deleteTuple fd _ _ | .updateTuple fd _ _ => fd

def FileWrite.rid : FileWrite → Rid
  | .insertTuple _ rid | .deleteTuple _ rid _ | .updateTuple _ rid _ => rid

def FileWrite.undo (f : RmFileHandle) : FileWrite → Rm RmFileHandle
  | .insertTuple _ rid => f.deleteRecord rid
  | .deleteTuple _ rid record => f.insertRecordAt rid record
  | .updateTuple _ rid record => f.updateRecord rid record

namespace RecordServer

section Model

variable (s : RecordServer) (txn : TxnId) (locks : LockState) (fd : Int)

def init (files : Int → RmFileHandle) : RecordServer :=
  ⟨files, .init, fun _ => .running, fun _ => none, fun _ => [], fun _ => [], fun fd => (files fd).entry, []⟩

def setThread (thread : RecordThread) : RecordServer :=
  { s with locks := locks, threads := Function.update s.threads txn thread }

def accessed (f : RmFileHandle) (found : Option (Int × Rid × Bytes)) (writeSet : List FileWrite)
    (a : RecordAccess) : RecordServer :=
  { s with
    files := Function.update s.files fd f
    locks := locks
    threads := Function.update s.threads txn .running
    found := Function.update s.found txn found
    writeSet := Function.update s.writeSet txn writeSet
    log := Function.update s.log txn (s.log txn ++ [a]) }

def readRecord (rid : Rid) : RecordServer :=
  match (s.files fd).getRecord rid with
  | .ok record =>
      s.accessed txn locks fd (s.files fd) (some (fd, rid, record)) (s.writeSet txn) (.get fd rid record)
  | .error _ => s.setThread txn locks .running

def countRecords : RecordServer :=
  match (s.files fd).getRecordCount with
  | .ok n => s.accessed txn locks fd (s.files fd) (s.found txn) (s.writeSet txn) (.count fd n)
  | .error _ => s.setThread txn locks .running

def write : RecordWrite → RecordServer
  | .insert rid buf accepted =>
      match (s.files fd).insertRecordAt rid buf with
      | .error _ => s.setThread txn locks .running
      | .ok f =>
          if accepted then s.accessed txn locks fd f none (.insertTuple fd rid :: s.writeSet txn)
            (.insert fd rid buf)
          else
            match f.deleteRecord rid with
            | .error _ => s.setThread txn locks .running
            | .ok f =>
                s.accessed txn locks fd f none (.insertTuple fd rid :: s.writeSet txn) (.refused fd rid)
  | .update rid record buf =>
      match (s.files fd).updateRecord rid buf with
      | .error _ => s.setThread txn locks .running
      | .ok f =>
          s.accessed txn locks fd f none (.updateTuple fd rid record :: s.writeSet txn)
            (.update fd rid buf)
  | .delete rid record =>
      match (s.files fd).deleteRecord rid with
      | .error _ => s.setThread txn locks .running
      | .ok f =>
          s.accessed txn locks fd f none (.deleteTuple fd rid record :: s.writeSet txn) (.delete fd rid)

/-- How a lock call ends: the thread goes on, sleeps or throws. -/
def afterCall (blocked : RecordThread) (go : LockState → RecordServer) :
    LockResult × LockState → Option RecordServer
  | (.returned, locks) => some (go locks)
  | (.waits, locks) => some (s.setThread txn locks blocked)
  | (.dies, locks) => some (s.setThread txn locks .dying)
  | (.nullRequest, _) => none

def getRecord (rid : Rid) : Option RecordServer :=
  s.afterCall txn (.getting fd rid) (fun locks => s.readRecord txn locks fd rid)
    (s.locks.lockSharedOnTable txn fd)

def getRecordCount : Option RecordServer :=
  s.afterCall txn (.counting fd) (fun locks => s.countRecords txn locks fd) (s.locks.lockSharedOnTable txn fd)

/-- A record buffer has `record_size` bytes. -/
def getFreeRecord (buf : Bytes) : Option RecordServer :=
  if buf.length = (s.files fd).fileHdr.recordSize then
    some <| match (s.files fd).getFreeRecord with
      | (.ok rid, f) =>
          { s with files := Function.update s.files fd f }.setThread txn s.locks (.chosen fd rid buf)
      | (.error _, f) => { s with files := Function.update s.files fd f }
  else none

def lockAndWrite (w : RecordWrite) : Option RecordServer :=
  s.afterCall txn (.writing fd w) (fun locks => s.write txn locks fd w) (s.locks.lockExclusiveOnTable txn fd)

def insert (accepted : Bool) : Option RecordServer :=
  match s.threads txn with
  | .chosen fd rid buf => s.lockAndWrite txn fd (.insert rid buf accepted)
  | _ => none

def update (buf : Bytes) : Option RecordServer :=
  match s.found txn with
  | some (fd, rid, record) =>
      if buf.length = record.length then s.lockAndWrite txn fd (.update rid record buf) else none
  | none => none

def delete : Option RecordServer :=
  match s.found txn with
  | some (fd, rid, record) => s.lockAndWrite txn fd (.delete rid record)
  | none => none

def wake : Option RecordServer :=
  match s.locks.wakeUp txn with
  | none => none
  | some (_, locks) =>
      match s.threads txn with
      | .getting fd rid => some (s.readRecord txn locks fd rid)
      | .counting fd => some (s.countRecords txn locks fd)
      | .writing fd w => some (s.write txn locks fd w)
      | _ => none

/-- The first lines of `commit`; the locks go one by one. -/
def commit : RecordServer :=
  { s with
    threads := Function.update s.threads txn (.releasing true)
    found := Function.update s.found txn none
    writeSet := Function.update s.writeSet txn []
    log := Function.update s.log txn []
    committed := fun fd => if fd ∈ (s.writeSet txn).map FileWrite.fd then (s.files fd).entry
      else s.committed fd
    serial := s.serial ++ [(txn, s.log txn)] }

def abort : RecordServer :=
  { s with
    threads := Function.update s.threads txn .rollingBack
    found := Function.update s.found txn none
    log := Function.update s.log txn [] }

/-- One round of the first loop of `abort`. An exception out of it ends the server. -/
def undo : Option RecordServer :=
  match s.writeSet txn with
  | [] => none
  | w :: ws =>
      match w.undo (s.files w.fd) with
      | .ok f => some { s with
          files := Function.update s.files w.fd f
          writeSet := Function.update s.writeSet txn ws }
      | .error _ => none

def isRunning : RecordThread → Bool
  | .running => true
  | _ => false

def isReleasing : RecordThread → Bool
  | .releasing _ => true
  | _ => false

def step (s : RecordServer) : RecordAction → Option RecordServer
  | .getRecord txn fd rid => if isRunning (s.threads txn) then s.getRecord txn fd rid else none
  | .getRecordCount txn fd => if isRunning (s.threads txn) then s.getRecordCount txn fd else none
  | .getFreeRecord txn fd buf => if isRunning (s.threads txn) then s.getFreeRecord txn fd buf else none
  | .insert txn accepted => s.insert txn accepted
  | .update txn buf => if isRunning (s.threads txn) then s.update txn buf else none
  | .delete txn => if isRunning (s.threads txn) then s.delete txn else none
  | .wake txn => s.wake txn
  | .commit txn => if isRunning (s.threads txn) then some (s.commit txn) else none
  | .abort txn =>
      match s.threads txn with
      | .running | .dying => some (s.abort txn)
      | _ => none
  | .undo txn =>
      match s.threads txn with
      | .rollingBack => s.undo txn
      | _ => none
  | .undone txn =>
      match s.threads txn with
      | .rollingBack =>
          if s.writeSet txn = [] then some (s.setThread txn s.locks (.releasing false)) else none
      | _ => none
  | .unlock txn id =>
      if isReleasing (s.threads txn) ∧ id ∈ s.locks.lockSet txn
        then some { s with locks := s.locks.unlock txn id } else none
  | .unlocked txn =>
      match s.threads txn with
      | .releasing committed =>
          if s.locks.lockSet txn = ∅ then some (s.setThread txn s.locks (.ended committed)) else none
      | _ => none

end Model

end RecordServer

end Rmdb
