import Rmdb.Execution.DmlExecutors
import Rmdb.Execution.GroupBy

namespace Rmdb

inductive SvRhs
  | val (v : SvValue)
  | col (c : SelectedCol)

structure BinaryExpr where
  lhs : SelectedCol
  op : CompOp
  rhs : SvRhs

structure GroupBy where
  cols : List SelectedCol
  conds : List BinaryExpr

structure SelectStmt where
  cols : List SelectedCol
  tabs : List String
  onConds : List BinaryExpr
  conds : List BinaryExpr
  group : Option GroupBy

inductive SvStmt
  | insert (tabName : String) (vals : List (List SvValue))
  | delete (tabName : String) (conds : List BinaryExpr)
  | update (tabName : String) (setClauses : List (String × SvValue)) (conds : List BinaryExpr)
  | select (x : SelectStmt)

inductive QueryRhs
  | val (v : Value)
  | col (c : SelectedCol)

def QueryRhs.hasAggr : QueryRhs → Bool
  | val _ => false
  | col c => c.aggr ≠ .none

structure QueryCond where
  lhs : SelectedCol
  op : CompOp
  rhs : QueryRhs

structure Query where
  tables : List String := []
  cols : List SelectedCol := []
  onConds : List QueryCond := []
  conds : List QueryCond := []
  setClauses : List UpdateExecutor.SetClause := []
  values : List (List Value) := []
  hasAggr : Bool := false
  groupCols : List SelectedCol := []
  havingConds : List QueryCond := []

inductive SemanticError
  | tableNotFound (tabName : String)
  | columnNotFound (colName : String)
  | ambiguousColumn (text : String)
  | incompatibleType (lhs rhs : ColType)
  /-- what `init_raw` throws -/
  | value (e : DmlError)
deriving DecidableEq

namespace Analyze

-- `db` has the columns of the tables; `strLen` is what `str_len` holds in a `Value` where nothing sets it.
variable (db : String → Option (List ColMeta)) (strLen : Int)

def getTable (tabName : String) : Except SemanticError (List ColMeta) :=
  match db tabName with
  | some cols => .ok cols
  | none => .error (.tableNotFound tabName)

def findCol (c : TabCol) : Except SemanticError ColMeta := do
  let cols ← getTable db c.tabName
  match cols.find? fun col => col.name = c.colName with
  | some col => .ok col
  | none => .error (.columnNotFound c.colName)

def getAllCols : List String → Except SemanticError (List ColMeta)
  | [] => .ok []
  | t :: tabNames => do
      let cols ← getTable db t
      return cols ++ (← getAllCols tabNames)

/-- The loop of `check_column`; the name is empty until a table is found. -/
def inferTable (colName : String) : List ColMeta → String → Except SemanticError String
  | [], tabName => .ok tabName
  | col :: cols, tabName =>
      if col.name = colName then
        if tabName ≠ "" then .error (.ambiguousColumn colName) else inferTable colName cols col.tabName
      else inferTable colName cols tabName

/-- A column with a table in front of it is not looked up. -/
def checkColumn (allCols : List ColMeta) (target : SelectedCol) : Except SemanticError SelectedCol :=
  if target.col.tabName = "" then do
    let tabName ← inferTable target.col.colName allCols ""
    if tabName = "" then
      if target.aggr = .count ∧ target.col.colName = "*" then return target
      else .error (.columnNotFound target.col.colName)
    else return ⟨⟨tabName, target.col.colName⟩, target.aggr⟩
  else return target

def getClause (svConds : List BinaryExpr) : List QueryCond :=
  svConds.map fun expr => ⟨expr.lhs, expr.op, match expr.rhs with
    | .val v => .val (v.value strLen)
    | .col c => .col c⟩

def valueTypeMatch (type1 type2 : ColType) : Bool :=
  type1 = type2 ∨ type1 = .int ∧ type2 = .float ∨ type1 = .float ∧ type2 = .int

/-- The type of the right side of a condition. A literal gets its bytes first, as many as the left
side has. -/
def rhsType (len : Nat) : QueryRhs → Except SemanticError ColType
  | .val v => ((v.initRaw len).mapError .value).map fun _ => v.type
  | .col c => (findCol db c.col).map ColMeta.type

def checkRhs (lhsType : ColType) (len : Nat) (rhs : QueryRhs) : Except SemanticError Unit := do
  let rhsType ← rhsType db len rhs
  if valueTypeMatch lhsType rhsType then return else .error (.incompatibleType lhsType rhsType)

def checkRhsCol (allCols : List ColMeta) : QueryRhs → Except SemanticError QueryRhs
  | .val v => .ok (.val v)
  | .col c => (checkColumn allCols c).map .col

/-- The types of the two sides. `COUNT(*)` is an integer. -/
def checkTypes (lhs : SelectedCol) (rhs : QueryRhs) : Except SemanticError Unit :=
  if lhs.aggr = .count ∧ lhs.col.colName = "*" then checkRhs db .int 4 rhs
  else do
    let col ← findCol db lhs.col
    checkRhs db col.type col.len rhs

def checkCond (allCols : List ColMeta) (isHaving : Bool) (cond : QueryCond) :
    Except SemanticError QueryCond :=
  if isHaving = false ∧ cond.lhs.aggr ≠ .none ∨ cond.rhs.hasAggr = true then
    .error (.ambiguousColumn "aggregate functions are not allowed in WHERE clause")
  else do
    let lhs ← checkColumn allCols cond.lhs
    let rhs ← checkRhsCol allCols cond.rhs
    checkTypes db lhs rhs
    return ⟨lhs, cond.op, rhs⟩

def checkClause (tabNames : List String) (conds : List QueryCond) (isHaving : Bool) :
    Except SemanticError (List QueryCond) := do
  let allCols ← getAllCols db tabNames
  conds.mapM (checkCond db allCols isHaving)

def checkTargets (group : Option GroupBy) : List SelectedCol → Bool → Bool → Except SemanticError Bool
  | [], hasAggr, _ => .ok hasAggr
  | c :: cols, hasAggr, hasNonAggr =>
      if group.any fun g => g.cols.isEmpty then
        .error (.ambiguousColumn "must have group by clause when using aggregate function")
      else
        let hasAggr := hasAggr || c.aggr ≠ .none
        let hasNonAggr := hasNonAggr || c.aggr = .none
        if (hasAggr && hasNonAggr && group.isNone) = true then
          .error (.ambiguousColumn
            "SELECT list contains both an aggregated and a non-aggregated column without GROUP BY clause")
        else checkTargets group cols hasAggr hasNonAggr

/-- The clauses of GROUP BY. The conditions behind HAVING are all checked once for each of them. -/
def groupClause (tabs : List String) (allCols : List ColMeta) (selCols : List SelectedCol) (group : GroupBy) :
    Except SemanticError (List SelectedCol × List QueryCond) := do
  let havingConds ← group.conds.foldlM (fun _ _ => checkClause db tabs (getClause strLen group.conds) true) []
  let groupCols ← group.cols.mapM (checkColumn allCols)
  if ∃ sel ∈ selCols, sel.aggr = .none ∧
    ∀ g ∈ groupCols, ¬ (sel.col.colName = g.col.colName ∧ sel.col.tabName = g.col.tabName) then
    .error (.ambiguousColumn "SELECT list contains non-aggregated column that is not in GROUP BY clause")
  else return (groupCols, havingConds)

def checkGroup (tabs : List String) (allCols : List ColMeta) (selCols : List SelectedCol) :
    Option GroupBy → Except SemanticError (List SelectedCol × List QueryCond)
  | none => .ok ([], [])
  | some group => groupClause db strLen tabs allCols selCols group

/-- The select list; an empty one is `*`. -/
def selectList (allCols : List ColMeta) (cols : List SelectedCol) : Except SemanticError (List SelectedCol) :=
  if cols.isEmpty then .ok (allCols.map fun col => ⟨⟨col.tabName, col.name⟩, .none⟩)
    else cols.mapM (checkColumn allCols)

def checkTables : List String → Except SemanticError Unit
  | [] => .ok ()
  | t :: tabs => if (db t).isSome then checkTables tabs else .error (.tableNotFound t)

def select (x : SelectStmt) : Except SemanticError Query := do
  checkTables db x.tabs
  let hasAggr ← checkTargets x.group x.cols false false
  let allCols ← getAllCols db x.tabs
  let cols ← selectList allCols x.cols
  let grouped ← checkGroup db strLen x.tabs allCols cols x.group
  let onConds ← checkClause db x.tabs (getClause strLen x.onConds) false
  let conds ← checkClause db x.tabs (getClause strLen x.conds) false
  return { tables := x.tabs, cols, onConds, conds, hasAggr, groupCols := grouped.1, havingConds := grouped.2 }

/-- `do_analyze`. An INSERT is not checked here. -/
def doAnalyze : SvStmt → Except SemanticError Query
  | .select x => select db strLen x
  | .update tabName setClauses svConds => do
      let conds ← checkClause db [tabName] (getClause strLen svConds) false
      return { conds, setClauses := setClauses.map fun c => ⟨⟨tabName, c.1⟩, c.2.value strLen⟩ }
  | .delete tabName svConds => do
      let conds ← checkClause db [tabName] (getClause strLen svConds) false
      return { conds }
  | .insert _ vals => .ok { values := vals.map fun values => values.map (SvValue.value strLen) }

end Analyze

end Rmdb
