import Rmdb.Lib.Slot
import Rmdb.Transaction.LockQueue

namespace Rmdb

abbrev Lsn := Int

def invalidLsn : Lsn := -1

structure Loc where
  table : String
  rid : Rid
deriving DecidableEq, Repr

/-- The data page that holds the slot; a file is open under one descriptor. -/
def Loc.page (l : Loc) : String × Int := (l.table, l.rid.pageNo)

abbrev Store := Loc → Option Bytes

section RmFileHandle

variable (st : Store) (loc : Loc)

/-- `insert_record(rid, buf)`: overwrites the slot and sets its bit if it is not set. -/
def insertRecord (buf : Bytes) : Store := Function.update st loc (some buf)

/-- Tolerates a slot that is not set. -/
def deleteRecord : Store := Function.update st loc none

/-- Writes the bytes of the slot and leaves its bit alone. -/
def updateRecord (buf : Bytes) : Store := Function.update st loc ((st loc).map fun _ => buf)

end RmFileHandle

/-- A logged change of one record: INSERT is `put`, DELETE is `erase`, UPDATE is `set`. -/
structure Write where
  loc : Loc
  op : Slot.Op Bytes

def Write.redo (w : Write) (st : Store) : Store :=
  match w.op with
  | .put v => insertRecord st w.loc v
  | .erase _ => deleteRecord st w.loc
  | .set _ after => updateRecord st w.loc after

def Write.undo (w : Write) (st : Store) : Store :=
  match w.op with
  | .put _ => deleteRecord st w.loc
  | .erase v => insertRecord st w.loc v
  | .set before _ => updateRecord st w.loc before

inductive LogBody
  | begin
  | commit
  | abort
  | staticCheckpoint
  | write (w : Write)

structure LogRecord where
  lsn : Lsn
  logTid : TxnId
  prevLsn : Lsn
  body : LogBody

def LogRecord.write? (r : LogRecord) : Option Write :=
  match r.body with
  | .write w => some w
  | _ => none

inductive RecoveryError
  | tableNotFound (name : String)
  | outOfFuel

/-- What recovery knows of the database: its tables, the slots of each file in scan order,
and for each index the function that takes a record to its key. -/
structure Catalog (κ : Type) where
  tables : List String
  slots : String → List Rid
  nodup : ∀ t, (slots t).Nodup
  indexes : String → List (Bytes → κ)

section TxnTable

variable (l : List (TxnId × Lsn)) (t : TxnId) (v : Lsn)

/-- `unordered_map::emplace`: keeps an entry that is there. -/
def emplaceTxn : List (TxnId × Lsn) := if (l.lookup t).isSome then l else l ++ [(t, v)]

def eraseTxn : List (TxnId × Lsn) := l.filter fun e => e.1 ≠ t

def setTxn : List (TxnId × Lsn) := (t, v) :: eraseTxn l t

end TxnTable

/-- `std::map::emplace`, ordered by lsn: a record whose lsn is taken is dropped. -/
def emplaceRecord (r : LogRecord) : List LogRecord → List LogRecord
  | [] => [r]
  | x :: l =>
      if r.lsn < x.lsn then r :: x :: l
      else if r.lsn = x.lsn then x :: l
      else x :: emplaceRecord r l

structure RecoveryManager where
  logRecords : List LogRecord := []
  redoTxn : List (TxnId × Lsn) := []
  undoTxn : List (TxnId × Lsn) := []
  txnList : List TxnId := []

namespace RecoveryManager

def readRecord (a : RecoveryManager) (r : LogRecord) : RecoveryManager :=
  let a := { a with logRecords := emplaceRecord r a.logRecords }
  match r.body with
  | .staticCheckpoint => a
  | .begin => { a with undoTxn := emplaceTxn a.undoTxn r.logTid r.lsn, txnList := a.txnList ++ [r.logTid] }
  | .commit =>
      { a with redoTxn := emplaceTxn a.redoTxn r.logTid r.lsn, undoTxn := eraseTxn a.undoTxn r.logTid }
  | .abort => { a with undoTxn := setTxn a.undoTxn r.logTid r.lsn }
  | .write _ => { a with undoTxn := setTxn a.undoTxn r.logTid r.lsn }

def readLog (log : List LogRecord) : RecoveryManager := log.foldl readRecord {}

/-- The loop that files the records under their pages: the table must be open. A checkpoint
record has no table name and finds none. -/
def checkTables {κ : Type} (cat : Catalog κ) : List LogRecord → Except RecoveryError Unit
  | [] => .ok ()
  | r :: l =>
      match r.body with
      | .begin | .commit | .abort => checkTables cat l
      | .staticCheckpoint => .error (.tableNotFound "")
      | .write w =>
          if w.loc.table ∈ cat.tables then checkTables cat l else .error (.tableNotFound w.loc.table)

/-- The records are those of the durable log from the restart offset on, as the reading
loop decodes them. -/
def analyze {κ : Type} (cat : Catalog κ) (log : List LogRecord) : Except RecoveryError RecoveryManager := do
  let a := readLog log
  checkTables cat a.logRecords
  return a

variable (a : RecoveryManager)

def redoLogs (page : String × Int) : List Write :=
  (a.logRecords.filterMap LogRecord.write?).filter fun w => w.loc.page = page

/-- The pages of `redo_logs_map_` come in the order of the hash table. -/
def RedoOrder (order : List (String × Int)) : Prop :=
  order.Nodup ∧ ∀ page, page ∈ order ↔ a.redoLogs page ≠ []

def redo (order : List (String × Int)) (st : Store) : Store :=
  order.foldl (fun st page => (a.redoLogs page).foldl (fun st w => w.redo st) st) st

/-- Walks the records of one transaction back along `prev_lsn_`. -/
def undoChain : Nat → Lsn → Store → Except RecoveryError Store
  | 0, _, _ => .error .outOfFuel
  | fuel + 1, lsn, st =>
      match a.logRecords.find? (fun r => r.lsn = lsn) with
      | none => .ok st
      | some r => undoChain fuel r.prevLsn (match r.body with
          | .write w => w.undo st
          | _ => st)

/-- The transactions to undo, the one that began last first. -/
def undoTxnList : List TxnId := (a.txnList.filter fun t => (a.undoTxn.lookup t).isSome).reverse

def undoAll : List TxnId → Store → Except RecoveryError Store
  | [], st => .ok st
  | t :: ts, st => do
      let st ← a.undoChain (a.logRecords.length + 1) ((a.undoTxn.lookup t).getD invalidLsn) st
      undoAll ts st

end RecoveryManager

section Rebuild

variable {κ : Type} [DecidableEq κ]

/-- `create_index` over the rows of the table: a row whose key the index has already is
deleted from the table. -/
def createIndexRows (cat : Catalog κ) (t : String) (key : Bytes → κ) (st : Store) : Store :=
  ((cat.slots t).foldl (fun (acc : List κ × Store) rid =>
    match acc.2 ⟨t, rid⟩ with
    | none => acc
    | some row =>
        if key row ∈ acc.1 then (acc.1, deleteRecord acc.2 ⟨t, rid⟩)
        else (key row :: acc.1, acc.2)) ([], st)).2

/-- The end of `undo`: every index of every table is dropped and created again. -/
def rebuildIndexes (cat : Catalog κ) (st : Store) : Store :=
  cat.tables.foldl (fun st t => (cat.indexes t).foldl (fun st key => createIndexRows cat t key st) st) st

def RecoveryManager.undo (a : RecoveryManager) (cat : Catalog κ) (st : Store) :
    Except RecoveryError Store := do
  let st ← a.undoAll a.undoTxnList st
  if a.redoTxn = [] ∧ a.undoTxn = [] then return st
  else return rebuildIndexes cat st

def recover (cat : Catalog κ) (order : List (String × Int)) (log : List LogRecord) (disk : Store) :
    Except RecoveryError Store := do
  let a ← RecoveryManager.analyze cat log
  a.undo cat (a.redo order disk)

end Rebuild

end Rmdb
