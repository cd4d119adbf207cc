import Rmdb.Execution.SelectAnswers
import Rmdb.Recovery.IndexBuild
import Rmdb.System.LoadTable

namespace Rmdb

open IxManager

inductive DmlError
  | tableNotFound
  | invalidValueCount
  | incompatibleType
  | stringOverflow
  | assertFailed
  | indexDuplicateKey
  | transactionAbort
  | record (e : RmError)
  | index (e : IxError)
  | scan (e : ScanError)
  | plan (e : PlanError)
deriving DecidableEq, Repr

/-- The exceptions after which `client_handler` goes on with the next statement; a run ends at the
other errors, which are an abort with its rollback or come from below. -/
def DmlError.goesOn : DmlError → Bool
  | tableNotFound | invalidValueCount | incompatibleType | stringOverflow | indexDuplicateKey => true
  | _ => false

abbrev OpenIx := Σ ix : IndexMeta, IxIndexHandle (Key ix.layout)

/-- A table with its file and its indexes. The locks of a single session are granted; the log and
the write set, which these executors only write, are left out. -/
structure OpenTable where
  table : Table
  indexes : List OpenIx

abbrev OpenTables := String → Option OpenTable

/-- What a run finds beside the tables: the switches of the planner, `sscanf`, the word of a
`Value` that has not been set, a new buffer, and the members of an executor before
`beginTuple`. -/
structure DmlEnv where
  enableNestedloopJoin : Bool
  enableSortmergeJoin : Bool
  scanf : Sscanf
  unset : UInt32
  fresh : Nat → Bytes
  fresh_length : ∀ size, (fresh size).length = size
  initial : ∀ p : Plan, p.State

def OpenTable.setFile (o : OpenTable) (fh : RmFileHandle) : OpenTable :=
  { o with table := { o.table with fh := fh } }

def deleteKeys (record : Bytes) : List OpenIx → Except DmlError Unit × List OpenIx
  | [] => (.ok (), [])
  | ⟨ix, ih⟩ :: rest => match ih.deleteEntry (ix.key record) none with
      | .error e => (.error (.index e), ⟨ix, ih⟩ :: rest)
      | .ok (_, ih) =>
          let (res, rest) := deleteKeys record rest
          (res, ⟨ix, ih⟩ :: rest)

namespace Value

def tryCastTo : Value → ColType → Value
  | int v, .float => float (Float32.ofInt v.toInt)
  | float x, .int => int (floatToInt x)
  | v, _ => v

def initRaw (len : Nat) : Value → Except DmlError Bytes
  | int v => if len = 4 then .ok (intBytes v) else .error .assertFailed
  | float x => if len = 4 then .ok (floatBytes x) else .error .assertFailed
  | string s _ => if len < s.length then .error .stringOverflow else .ok (padTo len s)

end Value

namespace InsertExecutor

def isMatch (colType valType : ColType) : Bool :=
  colType = valType ∨ colType = .int ∧ valType = .float ∨ colType = .float ∧ valType = .int

def fill : List ColMeta → List Value → Bytes → Except DmlError Bytes
  | col :: cols, v :: vals, record =>
      if isMatch col.type v.type = false then .error .incompatibleType
      else match (v.tryCastTo col.type).initRaw col.len with
        | .error e => .error e
        | .ok raw => fill cols vals (copyInto record col.offset raw)
  | _, _, record => .ok record

/-- The index loop; `done` are the indexes before the current one, out of which the key goes again
when the current one has it already. -/
def insertKeys (rid : Rid) (record : Bytes) (fh : RmFileHandle) (done : List OpenIx) :
    List OpenIx → Except DmlError Unit × RmFileHandle × List OpenIx
  | [] => (.ok (), fh, done)
  | ⟨ix, ih⟩ :: rest => match ih.insertEntry (ix.key record) rid with
      | .error e => (.error (.index e), fh, done ++ ⟨ix, ih⟩ :: rest)
      | .ok (_, true, ih) => insertKeys rid record fh (done ++ [⟨ix, ih⟩]) rest
      | .ok (_, false, ih) => match fh.deleteRecord rid with
          | .error e => (.error (.record e), fh, done ++ ⟨ix, ih⟩ :: rest)
          | .ok fh =>
              let (res, done) := deleteKeys record done
              (res.bind fun _ => .error .indexDuplicateKey, fh, done ++ ⟨ix, ih⟩ :: rest)

def insertRow (vals : List Value) (record : Bytes) (o : OpenTable) : Except DmlError Bytes × OpenTable :=
  match fill o.table.cols vals record with
  | .error e => (.error e, o)
  | .ok record => match o.table.fh.getFreeRecord with
      | (.error e, fh) => (.error (.record e), o.setFile fh)
      | (.ok rid, fh) => match fh.insertRecordAt rid record with
          | .error e => (.error (.record e), o.setFile fh)
          | .ok fh =>
              let (res, fh, indexes) := insertKeys rid record fh [] o.indexes
              (res.map fun _ => record, ⟨{ o.table with fh := fh }, indexes⟩)

def next : List (List Value) → Bytes → OpenTable → Except DmlError Unit × OpenTable
  | [], _, o => (.ok (), o)
  | vals :: values, record, o => match insertRow vals record o with
      | (.error e, o) => (.error e, o)
      | (.ok record, o) => next values record o

end InsertExecutor

namespace DeleteExecutor

def next : List Rid → OpenTable → Except DmlError Unit × OpenTable
  | [], o => (.ok (), o)
  | rid :: rids, o => match o.table.fh.getRecord rid with
      | .error e => (.error (.record e), o)
      | .ok record => match o.table.fh.deleteRecord rid with
          | .error e => (.error (.record e), o)
          | .ok fh => match deleteKeys record o.indexes with
              | (.error e, indexes) => (.error e, ⟨{ o.table with fh := fh }, indexes⟩)
              | (.ok (), indexes) => next rids ⟨{ o.table with fh := fh }, indexes⟩

end DeleteExecutor

namespace UpdateExecutor

structure SetClause where
  lhs : TabCol
  rhs : Value

def valueCast (env : DmlEnv) (type : ColType) : Value → Except DmlError Value
  | .string s n => match type with
      | .string => .ok (.string s n)
      | .int => .ok (.int ((env.scanf.int s).getD env.unset.toInt32))
      | .float => .ok (.float ((env.scanf.float s).getD (Float32.ofBits env.unset)))
      | .null => .error .incompatibleType
  | v => (v.valueCast type).mapError .scan

def setFields (env : DmlEnv) (cols : List ColMeta) : List SetClause → Except DmlError (List (ColMeta × Bytes))
  | [] => .ok []
  | clause :: clauses => do
      let col ← (getCol cols clause.lhs).mapError .scan
      let rhs ← valueCast env col.type clause.rhs
      let raw ← rhs.initRaw col.len
      let fields ← setFields env cols clauses
      return (col, raw) :: fields

def setCount (clauses : List SetClause) (ix : IndexMeta) : Nat :=
  (ix.cols.filter fun col => clauses.any fun clause => clause.lhs.colName = col.name).length

def setRecord (fields : List (ColMeta × Bytes)) (record : Bytes) : Bytes :=
  fields.foldl (fun record field => copyInto record field.1.offset field.2) record

def updateEntry (rid : Rid) (old new : Bytes) (ix : IndexMeta) :
    Nat → IxIndexHandle (Key ix.layout) → Except DmlError Unit × IxIndexHandle (Key ix.layout)
  | 0, ih => (.ok (), ih)
  | n + 1, ih => match ih.insertEntry (ix.key new) rid with
      | .error e => (.error (.index e), ih)
      | .ok (_, false, ih) => (.error .transactionAbort, ih)
      | .ok (_, true, ih) => match ih.deleteEntry (ix.key old) none with
          | .error e => (.error (.index e), ih)
          | .ok (_, ih) => updateEntry rid old new ix n ih

def updateKeys (clauses : List SetClause) (rid : Rid) (old new : Bytes) :
    List OpenIx → Except DmlError Unit × List OpenIx
  | [] => (.ok (), [])
  | ⟨ix, ih⟩ :: rest => match updateEntry rid old new ix (setCount clauses ix) ih with
      | (.error e, ih) => (.error e, ⟨ix, ih⟩ :: rest)
      | (.ok (), ih) =>
          let (res, rest) := updateKeys clauses rid old new rest
          (res, ⟨ix, ih⟩ :: rest)

def next (clauses : List SetClause) (fields : List (ColMeta × Bytes)) :
    List Rid → OpenTable → Except DmlError Unit × OpenTable
  | [], o => (.ok (), o)
  | rid :: rids, o => match o.table.fh.getRecord rid with
      | .error e => (.error (.record e), o)
      | .ok record => match o.table.fh.updateRecord rid (setRecord fields record) with
          | .error e => (.error (.record e), o)
          | .ok fh => match updateKeys clauses rid record (setRecord fields record) o.indexes with
              | (.error e, indexes) => (.error e, ⟨{ o.table with fh := fh }, indexes⟩)
              | (.ok (), indexes) => next clauses fields rids ⟨{ o.table with fh := fh }, indexes⟩

end UpdateExecutor

/-- What `portal.h` does of a DML statement's scan: the rids of its rows. -/
def Portal.scanRids (db : Database) (fuel : Nat) (x : ScanPlan) : Except ScanError (List Rid) :=
  match db.getTable x.tabName with
  | none => .error .assertFailed
  | some tab => match x.indexColNames with
      | none => (SeqScanExecutor.run tab x.conds fuel).map (List.map Prod.fst)
      | some names => match db.getIndex x.tabName names with
          | none => .error .assertFailed
          | some ⟨_, ih⟩ => (IndexScanExecutor.run x.conds tab ih fuel).map (List.map Prod.fst)

inductive DmlStmt
  | insert (tabName : String) (values : List (List Value))
  | delete (tabName : String) (conds : List Condition)
  | update (tabName : String) (clauses : List UpdateExecutor.SetClause) (conds : List Condition)
  | select (q : SelectQuery) (selCols : List TabCol)

namespace OpenTables

variable (s : OpenTables)

def database : Database where
  getTable t := (s t).map OpenTable.table
  getIndex t names := (s t).bind fun o => o.indexes.find? fun p => p.1.cols.map ColMeta.name = names

def planner (env : DmlEnv) : Planner where
  enableNestedloopJoin := env.enableNestedloopJoin
  enableSortmergeJoin := env.enableSortmergeJoin
  indexes t := (s t).elim [] fun o => o.indexes.map fun p => p.1.cols.map ColMeta.name

def dmlScan (env : DmlEnv) (tabName : String) (conds : List Condition) : ScanPlan :=
  ⟨tabName, conds, (s.planner env).getIndexCols tabName conds⟩

def exec (env : DmlEnv) (fuel : Nat) : DmlStmt → Except DmlError (List (List Bytes)) × OpenTables
  | .insert tabName values => match s tabName with
      | none => (.error .tableNotFound, s)
      | some o =>
          if ∃ vals ∈ values, vals.length ≠ o.table.cols.length then (.error .invalidValueCount, s)
          else
            let (res, o) := InsertExecutor.next values (env.fresh o.table.fh.fileHdr.recordSize) o
            (res.map fun _ => [], Function.update s tabName (some o))
  | .delete tabName conds => match s tabName with
      | none => (.error .tableNotFound, s)
      | some o => match Portal.scanRids s.database fuel (s.dmlScan env tabName conds) with
          | .error e => (.error (.scan e), s)
          | .ok rids =>
              let (res, o) := DeleteExecutor.next rids o
              (res.map fun _ => [], Function.update s tabName (some o))
  | .update tabName clauses conds => match s tabName with
      | none => (.error .tableNotFound, s)
      | some o => match Portal.scanRids s.database fuel (s.dmlScan env tabName conds) with
          | .error e => (.error (.scan e), s)
          | .ok rids => match UpdateExecutor.setFields env o.table.cols clauses with
              | .error e => (.error e, s)
              | .ok fields =>
                  let (res, o) := UpdateExecutor.next clauses fields rids o
                  (res.map fun _ => [], Function.update s tabName (some o))
  | .select q selCols => match (s.planner env).makeOneRel q.tables q.conds [] with
      | .error e => (.error (.plan e), s)
      | .ok p => match Portal.selectRows s.database fuel p selCols (env.initial p) with
          | .error e => (.error (.scan e), s)
          | .ok rows => (.ok rows, s)

def run (env : DmlEnv) (fuel : Nat) :
    List DmlStmt → OpenTables → List (Except DmlError (List (List Bytes))) × OpenTables
  | [], s => ([], s)
  | stmt :: stmts, s =>
      let (res, s) := s.exec env fuel stmt
      let goesOn := match res with
        | .ok _ => true
        | .error e => e.goesOn
      if goesOn = true then
        let (outs, s) := run env fuel stmts s
        (res :: outs, s)
      else ([res], s)

end OpenTables

end Rmdb
