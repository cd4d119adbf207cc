import Rmdb.Execution.ScanExecutor
import Rmdb.Execution.NestedLoopJoin
import Rmdb.Execution.RecordPrinter
import Rmdb.Execution.Cell
import Rmdb.Optimizer.Planner

namespace Rmdb

structure Database where
  getTable : String → Option Table
  getIndex : String → List String → Option (Σ ix : IndexMeta, IxIndexHandle (Key ix.layout))

def Table.tupleLen (tab : Table) : Nat :=
  match tab.cols.getLast? with
  | some col => col.offset + col.len
  | none => 0

def SeqScanExecutor.executor (tab : Table) (fed : List FedCond) (fuel : Nat) : AbstractExecutor Rid where
  toCursor := (cursor tab fed fuel).read id fun row => .ok row.2
  cols := tab.cols
  tupleLen := tab.tupleLen
  beginTuple _ := beginTuple tab fed fuel

/-- The state has the end of the scan in front. -/
def IndexScanExecutor.executor {ix : IndexMeta} (conds : List Condition) (tab : Table)
    (ih : IxIndexHandle (Key ix.layout)) (fed : List FedCond) (fuel : Nat) :
    AbstractExecutor (Iid × Iid) where
  isEnd s := (cursor tab ih s.1 fed fuel).isEnd s.2
  get s := Prod.snd <$> (cursor tab ih s.1 fed fuel).get s.2
  next s := Prod.mk s.1 <$> (cursor tab ih s.1 fed fuel).next s.2
  cols := tab.cols
  tupleLen := tab.tupleLen
  beginTuple _ := beginTuple conds tab ih fed fuel

def ColMeta.place : Nat → List ColMeta → List ColMeta
  | _, [] => []
  | currOffset, col :: cols => { col with offset := currOffset } :: place (currOffset + col.len) cols

namespace ProjectionExecutor

variable {σ : Type} (prev : AbstractExecutor σ)

/-- The column with its index: `get_col` and an entry of `sel_idxs_`. -/
def findCol (prevCols : List ColMeta) (selCol : TabCol) : Except ScanError (Nat × ColMeta) :=
  match prevCols.zipIdx.find? fun c => c.1.tabName = selCol.tabName ∧ c.1.name = selCol.colName with
  | some (col, i) => .ok (i, col)
  | none => .error .columnNotFound

def isSelAll (found : List (Nat × ColMeta)) : Bool := found.map Prod.fst = List.range prev.cols.length

def project (found : List (Nat × ColMeta)) (record : Bytes) : Bytes :=
  if isSelAll prev found then record else found.flatMap fun c => c.2.slice record

def cols (found : List (Nat × ColMeta)) : List ColMeta := ColMeta.place 0 (found.map Prod.snd)

def executor (found : List (Nat × ColMeta)) : AbstractExecutor σ where
  isEnd := prev.isEnd
  get s := project prev found <$> prev.get s
  next := prev.next
  cols := cols found
  tupleLen := (found.map fun c => c.2.len).sum
  beginTuple := prev.beginTuple

def make (selCols : List TabCol) : Except ScanError (AbstractExecutor σ) := do
  let found ← selCols.mapM (findCol prev.cols)
  return executor prev found

end ProjectionExecutor

def ScanPlan.State (x : ScanPlan) : Type :=
  match x.indexColNames with
  | none => Rid
  | some _ => Iid × Iid

def Plan.State : Plan → Type
  | .null => Unit
  | .scan x => x.State
  | .join _ left right _ => JoinState left.State right.State

namespace Portal

variable (db : Database) (fuel : Nat)

/-- A table or an index that is missing is taken for an exception. -/
def convertScan : (x : ScanPlan) → Except ScanError (AbstractExecutor x.State)
  | ⟨tabName, conds, none⟩ =>
      match db.getTable tabName with
      | none => .error .assertFailed
      | some tab => do
          let fed ← SeqScanExecutor.fedConds tab conds
          return SeqScanExecutor.executor tab fed fuel
  | ⟨tabName, conds, some indexColNames⟩ =>
      match db.getTable tabName, db.getIndex tabName indexColNames with
      | some tab, some ⟨ix, ih⟩ => do
          let fed ← IndexScanExecutor.fedConds ix conds tab
          let conds ← conds.mapM (IndexScanExecutor.normalize tabName)
          return IndexScanExecutor.executor conds tab ih fed fuel
      | _, _ => .error .assertFailed

/-- Both kinds of join are done by the nested loops. -/
def convertPlanExecutor : (p : Plan) → Except ScanError (AbstractExecutor p.State)
  | .null => .error .assertFailed
  | .scan x => convertScan db fuel x
  | .join _ left right conds => do
      let l ← convertPlanExecutor left
      let r ← convertPlanExecutor right
      let fed ← NestedLoopJoinExecutor.fedConds l r conds
      return NestedLoopJoinExecutor.executor l r fed fuel

def start (p : Plan) (selCols : List TabCol) : Except ScanError (AbstractExecutor p.State) := do
  let prev ← convertPlanExecutor db fuel p
  ProjectionExecutor.make prev selCols

end Portal

/-- `std::to_string(float)`: six decimals of the exact value, halves rounded to the even side. -/
def floatText (x : Float32) : Bytes :=
  let sign := if floatNegative x then ascii "-" else []
  if floatExponent x = 255 then
    sign ++ if x.toBits.toNat % 8388608 = 0 then ascii "inf" else ascii "nan"
  else
    let num := floatDigits x * 1000000 * 2 ^ (floatExponent x - 150)
    let den := 2 ^ (150 - max (floatExponent x) 1)
    let up := den < 2 * (num % den) ∨ 2 * (num % den) = den ∧ num / den % 2 = 1
    let millionths := num / den + if up then 1 else 0
    sign ++ (TextStream.naturalText (millionths / 1000000)).map byteOf ++ ascii "." ++
      List.leftpad 6 (byteOf '0') ((TextStream.naturalText (millionths % 1000000)).map byteOf)

def ColMeta.text (col : ColMeta) (record : Bytes) : Bytes :=
  match col.type with
  | .int => (TextStream.integerText (Int32.ofInt (readInt (record.drop col.offset)))).map byteOf
  | .float => floatText (Float32.ofBits (UInt32.ofNat (readWord (record.drop col.offset))))
  | .string => columnValue col record
  | .null => ascii "NULL"

namespace Portal

def selectRows (db : Database) (fuel : Nat) (p : Plan) (selCols : List TabCol) (s : p.State) :
    Except ScanError (List (List Bytes)) := do
  let root ← start db fuel p selCols
  let records ← root.run fuel s
  return records.map fun record => root.cols.map fun col => col.text record

end Portal

end Rmdb
