import Rmdb.Execution.StringCompare
import Mathlib.Logic.Function.Basic

namespace Rmdb

namespace Condition

def isRhsCol (cond : Condition) : Bool :=
  match cond.rhs with
  | .val _ => false
  | .col _ => true

def rhsCol (cond : Condition) : TabCol :=
  match cond.rhs with
  | .val _ => ⟨"", ""⟩
  | .col c => c

def reverse (cond : Condition) : Condition where
  lhsCol := cond.rhsCol
  op := cond.op.swap
  rhs := match cond.rhs with
    | .val v => .val v
    | .col _ => .col cond.lhsCol

end Condition

/-- An index scan if there are `index_col_names_`, and otherwise a sequential scan. -/
structure ScanPlan where
  tabName : String
  conds : List Condition
  indexColNames : Option (List String)

inductive Plan
  | null
  | scan (x : ScanPlan)
  | join (sortMerge : Bool) (left right : Plan) (conds : List Condition)

def Plan.isNull : Plan → Bool
  | .null => true
  | _ => false

/-- "No join executor selected!" -/
inductive PlanError
  | noJoinExecutor
deriving DecidableEq, Repr

structure Planner where
  enableNestedloopJoin : Bool
  enableSortmergeJoin : Bool
  indexes : String → List (List String)

/-- `scantbl`, `joined_tables` and `table_join_executors` of `make_one_rel`. -/
structure Joining where
  scantbl : Nat → Bool
  joinedTables : List String
  executors : Plan

namespace Planner

section Indexes

def matchLen (conds : List Condition) (index : List String) : Nat :=
  (index.takeWhile fun col => conds.any fun cond => cond.lhsCol.colName = col).length

/-- The first of the indexes with the longest match; without conditions the first index. -/
def modifyAndCheckIndex (indexes : List (List String)) (conds : List Condition) : Option (List String) :=
  if conds.isEmpty then indexes.head?
  else (indexes.foldl (fun (best : Nat × Option (List String)) index =>
    if best.1 < matchLen conds index then (matchLen conds index, some index) else best) (0, none)).2

def getIndexCols (planner : Planner) (tabName : String) (currConds : List Condition) : Option (List String) :=
  modifyAndCheckIndex (planner.indexes tabName)
    (currConds.filter fun cond => !cond.isRhsCol ∧ cond.lhsCol.tabName = tabName)

end Indexes

/-- The test of `pop_conds`. The second part does not look at the table. -/
def Pops (tabName : String) (cond : Condition) : Bool :=
  (tabName = cond.lhsCol.tabName ∧ !cond.isRhsCol) ∨ cond.lhsCol.tabName = cond.rhsCol.tabName

def popConds (conds : List Condition) (tabName : String) : List Condition × List Condition :=
  conds.partition (Pops tabName)

def tableScans (planner : Planner) : List String → List Condition → List ScanPlan × List Condition
  | [], conds => ([], conds)
  | tab :: tables, conds =>
      let (currConds, conds) := popConds conds tab
      let (scans, conds) := tableScans planner tables conds
      (⟨tab, currConds, planner.getIndexCols tab currConds⟩ :: scans, conds)

/-- Says which side of the condition is below the plan: `1` for the left one, `2` for the right one, `0` for
none, and `3` if both were and the condition has been put into a join. -/
def pushConds (cond : Condition) : Plan → Nat × Plan
  | .null => (0, .null)
  | .scan x =>
      (if x.tabName = cond.lhsCol.tabName then 1 else if x.tabName =
        cond.rhsCol.tabName then 2 else 0, .scan x)
  | .join sortMerge left right conds =>
      let (leftRes, left) := pushConds cond left
      if leftRes = 3 then (3, .join sortMerge left right conds)
      else
        let (rightRes, right) := pushConds cond right
        if rightRes = 3 then (3, .join sortMerge left right conds)
        else if leftRes = 0 ∨ rightRes = 0 then (leftRes + rightRes, .join sortMerge left right conds)
        else (3, .join sortMerge left right (conds ++ [if leftRes = 2 then cond.reverse else cond]))

def popScan (table : String) (s : Joining) : Nat → List ScanPlan → Plan × Joining
  | _, [] => (.null, s)
  | i, x :: scans =>
      if x.tabName = table then
        (.scan x, { s with
          scantbl := Function.update s.scantbl i true, joinedTables := s.joinedTables ++ [x.tabName] })
      else popScan table s (i + 1) scans

/-- The first condition makes the first join. The vector of joined tables starts with empty names. -/
def firstJoin (planner : Planner) (scans : List ScanPlan) (cond : Condition) : Except PlanError Joining :=
  let (left, s) := popScan cond.lhsCol.tabName ⟨fun _ => false, List.replicate scans.length "", .null⟩ 0 scans
  let (right, s) := popScan cond.rhsCol.tabName s 0 scans
  if planner.enableNestedloopJoin then .ok { s with executors := .join false left right [cond] }
  else if planner.enableSortmergeJoin then .ok { s with executors := .join true left right [cond] }
  else .error .noJoinExecutor

/-- Each further condition adds the tables that are not joined yet, or is pushed down. -/
def joinStep (scans : List ScanPlan) (s : Joining) (cond : Condition) : Joining :=
  let plan := s.executors
  let (left, s) :=
    if cond.lhsCol.tabName ∈ s.joinedTables then (.null, s) else popScan cond.lhsCol.tabName s 0 scans
  let isNeedReverse := cond.rhsCol.tabName ∉ s.joinedTables
  let (right, s) :=
    if isNeedReverse then popScan cond.rhsCol.tabName s 0 scans else (.null, s)
  if !left.isNull ∧ !right.isNull then
    { s with executors := .join false (.join false left right [cond]) plan [] }
  else if !left.isNull ∨ !right.isNull then
    if isNeedReverse then { s with executors := .join false right plan [cond.reverse] }
    else { s with executors := .join false left plan [cond] }
  else { s with executors := (pushConds cond plan).2 }

def joinRest (scantbl : Nat → Bool) : Nat → List ScanPlan → Plan → Plan
  | _, [], plan => plan
  | i, x :: scans, plan =>
      joinRest scantbl (i + 1) scans (if scantbl i then plan else .join false (.scan x) plan [])

def makeOneRel (planner : Planner) (tables : List String) (conds onConds : List Condition) :
    Except PlanError Plan :=
  let (scans, conds) := tableScans planner tables conds
  match scans with
  | [] => .ok .null
  | x :: rest =>
      if rest.isEmpty then .ok (.scan x)
      else match conds ++ onConds with
        | [] => .ok (joinRest (Function.update (fun _ => false) 0 true) 0 (x :: rest) (.scan x))
        | cond :: conds => do
            let s ← firstJoin planner (x :: rest) cond
            let s := conds.foldl (joinStep (x :: rest)) s
            return joinRest s.scantbl 0 (x :: rest) s.executors

end Planner

end Rmdb
