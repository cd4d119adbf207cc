import Rmdb.Execution.AggregateValue
import Rmdb.Execution.CountStar
import Rmdb.Execution.SwapSides

namespace Rmdb

open ConditionCheck AggregationExecutor

inductive GroupError
  | scan (e : ScanError)
  | aggr (e : AggrError)
deriving DecidableEq, Repr

/-- A literal of the query. Its `Value` gets no `str_len`. -/
inductive SvValue
  | int (val : Int32)
  | float (val : Float32)
  | text (val : Bytes)

def SvValue.value (strLen : Int) : SvValue → Value
  | int v => .int v
  | float x => .float x
  | text s => .string s strLen

structure SelectedCol where
  col : TabCol
  aggr : AggrType

structure GroupCond where
  lhsCol : TabCol
  aggr : AggrType
  op : CompOp
  rhsVal : SvValue

structure GroupQuery where
  selCols : List SelectedCol
  groupCols : List TabCol
  havingConds : List GroupCond

structure MatchedCond where
  lhs : AggrCol
  op : CompOp
  rhsVal : SvValue

/-- What `str_len` holds where nothing sets it: in the literal of a condition, in the values that
a condition makes of a record of a group, and in those of a row. The last argument counts the
calls of `to_value`. -/
structure Unset where
  literal : Nat → Int
  lhs : Nat → Nat → Nat → Nat → Int
  row : Nat → Nat → Nat → Int

/-- Of `grouped_records_` it keeps the groups behind the current one, and of `curr_idx` how many
have been taken out and whether the last one has been passed. -/
structure GroupExecutor where
  groupCols : List ColMeta
  selCols : List AggrCol
  havingConds : List MatchedCond
  groupedRecords : List (List Bytes)
  taken : Nat
  isEnd : Bool
  currRecords : List Bytes

def SelectedCol.find (prevCols : List ColMeta) (sel : SelectedCol) : Except ScanError AggrCol :=
  if sel.aggr = .count ∧ sel.col.colName = "*" then .ok AggrCol.starCol
  else (AggrCol.mk · sel.aggr) <$> getCol prevCols sel.col

/-- Whether `get_col` takes the selected column for the one that is named. -/
def AggrCol.named (target : TabCol) (aggr : AggrType) (c : AggrCol) : Bool :=
  c.col.tabName = target.tabName ∧ c.col.name = target.colName ∧ c.aggr = aggr

def GroupCond.lhsMatch (selCols : List AggrCol) (cond : GroupCond) : Except ScanError MatchedCond :=
  if cond.aggr = .count ∧ cond.lhsCol.colName = "*" then .ok ⟨AggrCol.starCol, cond.op, cond.rhsVal⟩
  else match selCols.find? (AggrCol.named cond.lhsCol cond.aggr) with
    | some c => .ok ⟨c, cond.op, cond.rhsVal⟩
    | none => .error .columnNotFound

/-- The value as a comparison takes it; a NULL is of no type that a literal has. -/
def AggrValue.value : AggrValue Float32 → Except ScanError Value
  | int v => .ok (.int v)
  | float x => .ok (.float x)
  | text s n => .ok (.string s n)
  | null => .error .incompatibleType

namespace MatchedCond

variable (ops : FloatOps Float32)

def lhsValue (strLen : Nat → Int) (cond : MatchedCond) (records : List Bytes) (record : Bytes) :
    Except GroupError Value := do
  let val ← (if cond.lhs.aggr = .none then toValue ops (strLen 0) cond.lhs record
    else aggregateValue ops strLen cond.lhs records).mapError .aggr
  val.value.mapError .scan

/-- Only an aggregate is brought to the type of the literal, or the literal to its type. -/
def check (cond : MatchedCond) (lhs rhs : Value) : Except ScanError Bool := do
  if cond.lhs.aggr = .none then cond.op.check lhs rhs
  else
    let (lhs, rhs) ← promote lhs rhs
    cond.op.check lhs rhs

def eval (strLen : Nat → Int) (litLen : Int) (cond : MatchedCond) (records : List Bytes) (record : Bytes) :
    Except GroupError Bool := do
  let lhs ← cond.lhsValue ops strLen records record
  (cond.check lhs (cond.rhsVal.value litLen)).mapError .scan

end MatchedCond

namespace GroupExecutor

variable (ops : FloatOps Float32) (unset : Unset)

def make (query : GroupQuery) (prevCols : List ColMeta) : Except ScanError GroupExecutor := do
  let groupCols ← query.groupCols.mapM (getCol prevCols)
  let selCols ← query.selCols.mapM (SelectedCol.find prevCols)
  let havingConds ← query.havingConds.mapM (GroupCond.lhsMatch selCols)
  return ⟨groupCols, selCols, havingConds, [], 0, false, []⟩

def allOf (strLen : Nat → Nat → Int) (records : List Bytes) (record : Bytes) :
    Nat → List MatchedCond → Except GroupError Bool
  | _, [] => .ok true
  | k, cond :: conds => do
      if ← cond.eval ops (strLen k) (unset.literal k) records record
        then allOf strLen records record (k + 1) conds
      else return false

def checkConditions (strLen : Nat → Nat → Nat → Int) (conds : List MatchedCond) (records : List Bytes) :
    Nat → List Bytes → Except GroupError (List Bytes)
  | _, [] => .ok []
  | i, record :: rest => do
      let keep ← allOf ops unset (strLen i) records record 0 conds
      let kept ← checkConditions strLen conds records (i + 1) rest
      return if keep then record :: kept else kept

/-- `++curr_idx` and the loop of `nextTuple` over the groups that are left; a group of which no
record is kept is left out. -/
def nextGroup (agg : GroupExecutor) : Nat → List (List Bytes) → Except GroupError GroupExecutor
  | n, [] => .ok { agg with groupedRecords := [], taken := n, isEnd := true }
  | n, records :: groups => do
      let kept ← checkConditions ops unset (unset.lhs n) agg.havingConds records 0 records
      if kept.length = 0 then nextGroup agg (n + 1) groups
      else return { agg with groupedRecords := groups, taken := n + 1, currRecords := kept }

def nextTuple (agg : GroupExecutor) : Except GroupError GroupExecutor :=
  nextGroup ops unset agg agg.taken agg.groupedRecords

def beginTuple (prev : Child) (agg : GroupExecutor) : Except GroupError GroupExecutor := do
  let records ← prev.rows.mapError .scan
  nextTuple ops unset { agg with groupedRecords := (groupsOf (groupKey agg.groupCols) records).map Prod.snd }

def fetch (agg : GroupExecutor) : Except GroupError (List OutCol) :=
  (collectRow ops (unset.row agg.taken) agg.currRecords 0 agg.selCols).mapError .aggr

def fetchAll : Nat → GroupExecutor → Except GroupError (List (List OutCol))
  | 0, agg => if agg.isEnd then .ok [] else .error (.scan .outOfFuel)
  | fuel + 1, agg =>
      if agg.isEnd then .ok []
      else do
        let row ← fetch ops unset agg
        let rows ← fetchAll fuel (← nextTuple ops unset agg)
        return row :: rows

def run (query : GroupQuery) (prev : Child) (fuel : Nat) : Except GroupError (List (List OutCol)) := do
  let agg ← (make query prev.cols).mapError .scan
  fetchAll ops unset fuel (← beginTuple ops unset prev agg)

end GroupExecutor

end Rmdb
