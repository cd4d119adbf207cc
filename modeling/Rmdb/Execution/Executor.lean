import Rmdb.Index.Map

namespace Rmdb

/-- A record: the raw bytes of each of its columns. -/
abbrev Row := String → Bytes

inductive WriteRecord
  | insertTuple (rid : Rid)
  | deleteTuple (rid : Rid) (record : Row)
  | updateTuple (rid : Rid) (record : Row)

inductive ExecError
  | incompatibleType
  | indexDuplicateKey
  | transactionAbort
  | index (e : IxError)
deriving DecidableEq, Repr

/-- The unique indexes of a table: the columns of each, and the key that their raw values
make up when they are copied one after the other. -/
structure TabMeta (n : Nat) (K : Fin n → Type) where
  cols : Fin n → List String
  copy : ∀ i, List Bytes → K i

structure SetClause where
  col : String
  raw : Bytes

section Meta

variable {n : Nat} {K : Fin n → Type} (tab : TabMeta n K)

def TabMeta.key (i : Fin n) (record : Row) : K i := tab.copy i ((tab.cols i).map record)

def TabMeta.updateIndexes (set : List SetClause) : List (Fin n) :=
  (List.finRange n).flatMap fun i => ((tab.cols i).filter fun c => set.any fun s => s.col = c).map fun _ => i

def setRecord (set : List SetClause) (record : Row) : Row :=
  set.foldl (fun r s => Function.update r s.col s.raw) record

end Meta

/-- A table file (slots and bitmap), the open indexes, and the write set of the transaction
that runs, the latest write first. A slot keeps its bytes when its bit is cleared. -/
structure TableState (n : Nat) (K : Fin n → Type) where
  bitmap : Rid → Bool
  slots : Rid → Row
  ihs : ∀ i, IxIndexHandle (K i)
  writeSet : List WriteRecord

/-- Statements change the state step by step, and what they have done stays when they throw. -/
abbrev Exec {n : Nat} (K : Fin n → Type) := EStateM ExecError (TableState n K)

namespace Exec

variable {n : Nat} {K : Fin n → Type}

section RmFileHandle

variable (rid : Rid) (record : Row)

def insertRecord : Exec K Unit := modify fun s =>
  { s with bitmap := Function.update s.bitmap rid true, slots := Function.update s.slots rid record }

def deleteRecord : Exec K Unit := modify fun s => { s with bitmap := Function.update s.bitmap rid false }

def updateRecord : Exec K Unit := modify fun s => { s with slots := Function.update s.slots rid record }

/-- Does not look at the bitmap. -/
def getRecord : Exec K Row := return (← get).slots rid

end RmFileHandle

def appendWriteRecord (w : WriteRecord) : Exec K Unit :=
  modify fun s => { s with writeSet := w :: s.writeSet }

variable [∀ i, IxKey (K i)]

def insertEntry (i : Fin n) (key : K i) (rid : Rid) : Exec K Bool := do
  let s ← get
  match (s.ihs i).insertEntry key rid with
  | .ok (_, success, ih) => do
      set { s with ihs := Function.update s.ihs i ih }
      return success
  | .error e => throw (.index e)

def deleteEntry (i : Fin n) (key : K i) (rid : Option Rid) : Exec K Unit := do
  let s ← get
  match (s.ihs i).deleteEntry key rid with
  | .ok (_, ih) => set { s with ihs := Function.update s.ihs i ih }
  | .error e => throw (.index e)

variable (tab : TabMeta n K)

def deleteKeys (record : Row) : List (Fin n) → Exec K Unit
  | [] => return ()
  | i :: is => do
      deleteEntry i (tab.key i record) none
      deleteKeys record is

def insertKeys (rid : Rid) (record : Row) (done : List (Fin n)) : List (Fin n) → Exec K Unit
  | [] => return ()
  | i :: is => do
      let success ← insertEntry i (tab.key i record) rid
      if success then insertKeys rid record (done ++ [i]) is
      else do
        deleteRecord rid
        deleteKeys tab record done
        throw .indexDuplicateKey

/-- `InsertExecutor::Next`. A row comes with the free slot that it gets; `none` stands for
values that do not fit the columns. -/
def insertNext : List (Option Row × Rid) → Exec K Unit
  | [] => return ()
  | (none, _) :: _ => throw .incompatibleType
  | (some record, rid) :: values => do
      insertRecord rid record
      appendWriteRecord (.insertTuple rid)
      insertKeys tab rid record [] (List.finRange n)
      insertNext values

/-- The index loop of `UpdateExecutor::Next`: first the new key, then the old one. -/
def updateKeys (rid : Rid) (old new : Row) : List (Fin n) → Exec K Unit
  | [] => return ()
  | i :: is => do
      let success ← insertEntry i (tab.key i new) rid
      if success then do
        deleteEntry i (tab.key i old) none
        updateKeys rid old new is
      else throw .transactionAbort

def updateNext (clauses : List SetClause) : List Rid → Exec K Unit
  | [] => return ()
  | rid :: rids => do
      let record ← getRecord rid
      updateRecord rid (setRecord clauses record)
      appendWriteRecord (.updateTuple rid record)
      updateKeys tab rid record (setRecord clauses record) (tab.updateIndexes clauses)
      updateNext clauses rids

def deleteNext : List Rid → Exec K Unit
  | [] => return ()
  | rid :: rids => do
      let record ← getRecord rid
      deleteRecord rid
      appendWriteRecord (.deleteTuple rid record)
      deleteKeys tab record (List.finRange n)
      deleteNext rids

def undoKey (w : WriteRecord) (i : Fin n) : Exec K Unit := do
  match w with
  | .insertTuple rid =>
      let record ← getRecord rid
      deleteEntry i (tab.key i record) (some rid)
  | .deleteTuple rid old =>
      let _ ← insertEntry i (tab.key i old) rid
  | .updateTuple rid old =>
      let record ← getRecord rid
      deleteEntry i (tab.key i record) (some rid)
      let _ ← insertEntry i (tab.key i old) rid

def undoKeys (w : WriteRecord) : List (Fin n) → Exec K Unit
  | [] => return ()
  | i :: is => do
      undoKey tab w i
      undoKeys w is

def undoWrite (w : WriteRecord) : Exec K Unit := do
  match w with
  | .deleteTuple rid old => insertRecord rid old
  | _ => pure ()
  undoKeys tab w (List.finRange n)
  match w with
  | .insertTuple rid => deleteRecord rid
  | .updateTuple rid old => updateRecord rid old
  | .deleteTuple _ _ => return ()

def undoWrites : List WriteRecord → Exec K Unit
  | [] => return ()
  | w :: ws => do
      modify fun s => { s with writeSet := ws }
      undoWrite tab w
      undoWrites ws

def abort : Exec K Unit := do
  let s ← get
  undoWrites tab s.writeSet

def commit : Exec K Unit := modify fun s => { s with writeSet := [] }

end Exec

inductive DmlPlan
  | insert (values : List (Option Row × Rid))
  | update (clauses : List SetClause) (rids : List Rid)
  | delete (rids : List Rid)

def DmlPlan.exec {n : Nat} {K : Fin n → Type} [∀ i, IxKey (K i)] (tab : TabMeta n K) : DmlPlan → Exec K Unit
  | .insert values => Exec.insertNext tab values
  | .update clauses rids => Exec.updateNext tab clauses rids
  | .delete rids => Exec.deleteNext tab rids

end Rmdb
