import Rmdb.Lib.Group
import Rmdb.Execution.IndexScan

namespace Rmdb

open ConditionCheck

structure Child where
  cols : List ColMeta
  getCount : Except ScanError Int32
  rows : Except ScanError (List Bytes)

inductive Access
  | seq
  | index (ix : IndexMeta) (ih : IxIndexHandle (Key ix.layout))

namespace Access

variable (tab : Table) (conds : List Condition) (fed : List FedCond) (fuel : Nat)

/-- The conditions that the scan checks row by row. -/
def fedConds : Access → Except ScanError (List FedCond)
  | seq => SeqScanExecutor.fedConds tab conds
  | index ix _ => IndexScanExecutor.fedConds ix conds tab

def getCount : Access → Except ScanError Int32
  | seq => SeqScanExecutor.getCount tab fed
  | index _ _ => IndexScanExecutor.getCount tab fed

def run : Access → Except ScanError (List (Rid × Bytes))
  | seq => SeqScanExecutor.run tab conds fuel
  | index _ ih => IndexScanExecutor.run conds tab ih fuel

def child (access : Access) : Except ScanError Child := do
  let fed ← access.fedConds tab conds
  return ⟨tab.cols, access.getCount tab fed, (access.run tab conds fuel).map (List.map Prod.snd)⟩

end Access

inductive AggrType
  | none
  | count
  | sum
  | max
  | min
deriving DecidableEq, Repr

structure HavingCond where
  lhsCol : TabCol
  aggr : AggrType
  op : CompOp
  rhsVal : Value

def HavingCond.isCountStar (cond : HavingCond) : Bool := cond.aggr = .count ∧ cond.lhsCol.colName = "*"

structure CountQuery where
  groupCols : List TabCol
  having : List HavingCond

/-- The executor of such a query. Of `grouped_records_` and `curr_idx` it keeps the groups behind the
current one and whether the last one has been passed. -/
structure AggregationExecutor where
  groupCols : List ColMeta
  havingConds : List HavingCond
  groupedRecords : List (List Bytes)
  isEnd : Bool
  currRecords : List Bytes
  emptyTableAggr : Bool
  onlyCountStar : Bool
  countStar : Int32
  value : Int32

namespace AggregationExecutor

/-- The constructor. The only selected column is the star, so that no other left side is found behind
`HAVING`. Without the shortcut `only_count_star_` stays unset. -/
def make (shortcut : Bool) (query : CountQuery) (prevCols : List ColMeta) :
    Except ScanError AggregationExecutor := do
  let groupCols ← query.groupCols.mapM (getCol prevCols)
  if query.having.all HavingCond.isCountStar then
    return ⟨groupCols, query.having, [], false, [], false, shortcut, -1, 0⟩
  else throw .columnNotFound

def groupKey (groupCols : List ColMeta) (record : Bytes) : Bytes :=
  (groupCols.map fun c => c.slice record).flatten

def holds (count : Int32) : List HavingCond → Except ScanError Bool
  | [] => .ok true
  | cond :: conds => do
      let (lhs, rhs) ← promote (.int count) cond.rhsVal
      if ← cond.op.check lhs rhs then holds count conds else return false

/-- Drops the records on which the conditions do not hold; the group is left out when none remains.
The conditions see the number of records before the first one is dropped. -/
def checkConditions (having : List HavingCond) (count : Int32) : List Bytes → Except ScanError (List Bytes)
  | [] => .ok []
  | record :: records => do
      let keep ← holds count having
      let kept ← checkConditions having count records
      return if keep then record :: kept else kept

def nextGroup (agg : AggregationExecutor) : List (List Bytes) → Except ScanError AggregationExecutor
  | [] => .ok { agg with groupedRecords := [], isEnd := true }
  | records :: groups => do
      let kept ← checkConditions agg.havingConds (Int32.ofNat records.length) records
      if kept.length = 0 then nextGroup agg groups
      else return { agg with groupedRecords := groups, currRecords := kept }

def nextTuple (agg : AggregationExecutor) : Except ScanError AggregationExecutor :=
  -- without grouping columns there are no groups either
  if agg.groupCols.length = 0 ∧ agg.emptyTableAggr = false then .ok { agg with emptyTableAggr := true }
  else nextGroup agg agg.groupedRecords

def beginTuple (prev : Child) (agg : AggregationExecutor) : Except ScanError AggregationExecutor := do
  let countStar ← if agg.onlyCountStar then prev.getCount else .ok agg.countStar
  if countStar = -1 then
    let records ← prev.rows
    if agg.groupCols.length = 0 then
      -- `update_values`: the count wraps round
      nextTuple { agg with onlyCountStar := false, value := records.foldl (fun v _ => v + 1) 0 }
    else
      nextTuple { agg with onlyCountStar := false,
                           groupedRecords := (groupsOf (groupKey agg.groupCols) records).map Prod.snd }
  else return { agg with countStar := countStar }

/-- `Next`. With the shortcut it is `Next` itself that moves `curr_idx` behind the last group. -/
def fetch (agg : AggregationExecutor) : Bytes × AggregationExecutor :=
  if agg.onlyCountStar then (intBytes agg.countStar, { agg with isEnd := true })
  else if agg.groupCols.length = 0 then (intBytes agg.value, agg)
  else (intBytes (Int32.ofNat agg.currRecords.length), agg)

def fetchAll : Nat → AggregationExecutor → Except ScanError (List Bytes)
  | 0, agg => if agg.isEnd then .ok [] else .error .outOfFuel
  | fuel + 1, agg =>
      if agg.isEnd then .ok []
      else do
        let (row, agg) := agg.fetch
        let rows ← fetchAll fuel (← agg.nextTuple)
        return row :: rows

def run (shortcut : Bool) (query : CountQuery) (child : Except ScanError Child) (fuel : Nat) :
    Except ScanError (List Bytes) := do
  let prev ← child
  let agg ← make shortcut query prev.cols
  fetchAll fuel (← agg.beginTuple prev)

end AggregationExecutor

/-- The number of records is compared without an exception: `check_clause` lets no text pass here. -/
def HavingCond.Numeric (cond : HavingCond) : Prop := cond.rhsVal.type = .int ∨ cond.rhsVal.type = .float

def HavingCond.passes (count : Int32) (cond : HavingCond) : Bool :=
  match promote (.int count) cond.rhsVal with
  | .ok (lhs, rhs) =>
      match cond.op.check lhs rhs with
      | .ok b => b
      | .error _ => false
  | .error _ => false

theorem HavingCond.Numeric.check {cond : HavingCond} (h : cond.Numeric) (count : Int32) :
    ∃ lhs rhs, promote (.int count) cond.rhsVal = .ok (lhs, rhs) ∧
      cond.op.check lhs rhs = .ok (cond.passes count) := by
  obtain ⟨lhs, rhs, hpromote, htype⟩ : ∃ lhs rhs, promote (.int count) cond.rhsVal = .ok (lhs, rhs) ∧
      lhs.type = rhs.type := by
    cases hv : cond.rhsVal with
    | int v => exact ⟨_, _, rfl, rfl⟩
    | float x => exact ⟨_, _, rfl, rfl⟩
    | string s n =>
        rw [HavingCond.Numeric, hv] at h
        rcases h with h | h <;> cases h
  obtain ⟨b, hb⟩ : ∃ b, cond.op.check lhs rhs = .ok b := CompOp.check_total htype
  refine ⟨lhs, rhs, hpromote, ?_⟩
  rw [HavingCond.passes, hpromote]
  simp only [hb]

namespace AggregationExecutor

variable {having : List HavingCond} {count : Int32} {records : List Bytes} {groups : List (List Bytes)}
  {agg : AggregationExecutor} {fuel : Nat}

theorem holds_spec (h : ∀ cond ∈ having, cond.Numeric) :
    holds count having = .ok (having.all (HavingCond.passes count)) := by
  induction having with
  | nil => rfl
  | cons cond conds ih =>
      obtain ⟨lhs, rhs, hpromote, hcheck⟩ := (h cond List.mem_cons_self).check count
      have hrest := ih fun c hc => h c (List.mem_cons_of_mem _ hc)
      simp only [holds, hpromote, hcheck, hrest, bind, Except.bind, pure, Except.pure, List.all_cons]
      cases cond.passes count <;> rfl

/-- The conditions hold on all records of a group or on none. -/
theorem checkConditions_spec (h : ∀ cond ∈ having, cond.Numeric) :
    checkConditions having count records =
      .ok (if having.all (HavingCond.passes count) then records else []) := by
  induction records with
  | nil => simp [checkConditions]
  | cons record records ih =>
      simp only [checkConditions, holds_spec h, ih, bind, Except.bind, pure, Except.pure]
      cases having.all (HavingCond.passes count) <;> rfl

def keeps (having : List HavingCond) (records : List Bytes) : Bool :=
  having.all (HavingCond.passes (Int32.ofNat records.length))

theorem fetch_group (hgroup : agg.groupCols.length ≠ 0) (hstar : agg.onlyCountStar = false) :
    agg.fetch = (intBytes (Int32.ofNat agg.currRecords.length), agg) := by
  rw [fetch, if_neg (by simp [hstar]), if_neg hgroup]

theorem nextTuple_group {r : Except ScanError (List Bytes)} (hgroup : agg.groupCols.length ≠ 0)
    (hrest : nextGroup agg agg.groupedRecords >>= fetchAll fuel = r) :
    agg.nextTuple >>= fetchAll fuel = r := by
  rw [nextTuple, if_neg fun h => hgroup h.1, hrest]

theorem fetchAll_succ {row : Bytes} {agg' : AggregationExecutor} {rows : List Bytes}
    (hend : agg.isEnd = false) (hfetch : agg.fetch = (row, agg'))
    (hrest : agg'.nextTuple >>= fetchAll fuel = .ok rows) :
    fetchAll (fuel + 1) agg = .ok (row :: rows) := by
  rw [fetchAll, if_neg (by simp [hend]), hfetch]
  cases hnext : agg'.nextTuple with
  | error e => rw [hnext] at hrest; cases hrest
  | ok next =>
      rw [hnext] at hrest
      simp only [bind, Except.bind] at hrest
      simp only [hnext, hrest, bind, Except.bind, pure, Except.pure]

theorem fetchAll_end (hend : agg.isEnd = true) : fetchAll fuel agg = .ok [] := by
  cases fuel <;> exact if_pos hend

theorem nextTuple_single (hgroup : agg.groupCols.length = 0) (hstar : agg.onlyCountStar = false)
    (hend : agg.isEnd = false) (hempty : agg.emptyTableAggr = false) (hnone : agg.groupedRecords = []) :
    agg.nextTuple >>= fetchAll (fuel + 1) = .ok [intBytes agg.value] := by
  have hfetch : fetch { agg with emptyTableAggr := true } =
      (intBytes agg.value, { agg with emptyTableAggr := true }) := by
    rw [fetch, if_neg (by simp [hstar]), if_pos hgroup]
  rw [nextTuple, if_pos ⟨hgroup, hempty⟩]
  refine fetchAll_succ hend hfetch ?_
  rw [nextTuple, if_neg (by simp), hnone]
  exact fetchAll_end rfl

theorem fetchAll_groups (hcond : ∀ cond ∈ agg.havingConds, cond.Numeric) (hgroup : agg.groupCols.length ≠ 0)
    (hstar : agg.onlyCountStar = false) (hend : agg.isEnd = false) (hne : ∀ records ∈ groups, records ≠ [])
    (hfuel : groups.length ≤ fuel) : nextGroup agg groups >>= fetchAll fuel =
      .ok ((groups.filter (keeps agg.havingConds)).map fun records =>
        intBytes (Int32.ofNat records.length)) := by
  induction groups generalizing agg fuel with
  | nil => cases fuel <;> rfl
  | cons records groups ih =>
      have hrecords : records.length ≠ 0 := by simpa using hne records List.mem_cons_self
      have hne' : ∀ records ∈ groups, records ≠ [] := fun r hr => hne r (List.mem_cons_of_mem _ hr)
      rw [List.length_cons] at hfuel
      rw [nextGroup, checkConditions_spec hcond]
      cases hkeep : keeps agg.havingConds records with
      | false =>
          rw [keeps] at hkeep
          rw [hkeep, List.filter_cons_of_neg (by rw [keeps, hkeep]; simp)]
          exact ih hcond hgroup hstar hend hne' (by omega)
      | true =>
          obtain ⟨fuel, rfl⟩ : ∃ n, fuel = n + 1 := ⟨fuel - 1, by omega⟩
          have hrest : nextGroup { agg with
            groupedRecords := groups, currRecords := records } groups >>= fetchAll fuel =
              .ok ((groups.filter (keeps agg.havingConds)).map fun records =>
                intBytes (Int32.ofNat records.length)) :=
            ih hcond hgroup hstar hend hne' (by omega)
          rw [keeps] at hkeep
          rw [hkeep, List.filter_cons_of_pos (by rw [keeps, hkeep]), List.map_cons]
          simp only [bind, Except.bind, pure, Except.pure, if_true, hrecords, if_false]
          exact fetchAll_succ hend (fetch_group hgroup hstar) (nextTuple_group hgroup hrest)

variable {query : CountQuery} {prev : Child} {cols gcols : List ColMeta}

def Accepts (query : CountQuery) (cols groupCols : List ColMeta) : Prop :=
  query.groupCols.mapM (getCol cols) = .ok groupCols ∧ query.having.all HavingCond.isCountStar = true

theorem make_of_accepts (h : Accepts query cols gcols) (shortcut : Bool) :
    make shortcut query cols = .ok ⟨gcols, query.having, [], false, [], false, shortcut, -1, 0⟩ := by
  simp [make, h.1, h.2, bind, Except.bind, pure, Except.pure]

theorem make_of_not_accepts (h : ∀ groupCols, ¬ Accepts query cols groupCols) :
    make true query cols = make false query cols ∧ ∃ e, make false query cols = .error e := by
  cases hgroup : query.groupCols.mapM (getCol cols) with
  | error e => simp [make, hgroup, bind, Except.bind]
  | ok groupCols =>
      have hstar : ¬ query.having.all HavingCond.isCountStar = true := fun hc => h groupCols ⟨hgroup, hc⟩
      have hmake : ∀ shortcut, make shortcut query cols = .error .columnNotFound := by
        intro shortcut
        simp only [make, hgroup, bind, Except.bind, if_neg hstar]
        rfl
      exact ⟨by rw [hmake, hmake], _, hmake false⟩

theorem foldl_count : ∀ (records : List Bytes)
    (v : Int32), records.foldl (fun v _ => v + 1) v = v + Int32.ofNat records.length
  | [], v => by simp
  | _ :: records, v => by
      rw [List.foldl_cons, foldl_count records, List.length_cons, Int32.ofNat_add, Int32.add_assoc,
        Int32.add_comm 1]
      rfl

def counted (query : CountQuery) (groupCols : List ColMeta) (records : List Bytes) : List Bytes :=
  if groupCols.length = 0 then [intBytes (Int32.ofNat records.length)]
  else (((groupsOf (groupKey groupCols) records).map Prod.snd).filter (keeps query.having)).map fun records =>
    intBytes (Int32.ofNat records.length)

theorem run_of_accepts (h : Accepts query prev.cols gcols) (shortcut : Bool) :
    run shortcut query (.ok prev) fuel =
    beginTuple prev ⟨gcols, query.having, [], false, [], false, shortcut, -1, 0⟩ >>= fetchAll fuel := by
  rw [run]
  simp only [make_of_accepts h, bind, Except.bind]

theorem beginTuple_counting (hstar : agg.onlyCountStar = false) (hcount : agg.countStar = -1)
    (hrows : prev.rows = .ok records) :
    agg.beginTuple prev = if agg.groupCols.length = 0
    then nextTuple { agg with value := Int32.ofNat records.length }
      else
        nextTuple { agg with
          groupedRecords := (groupsOf (groupKey agg.groupCols) records).map Prod.snd } := by
  have hfold : records.foldl (fun v _ => v + 1) (0 : Int32) = Int32.ofNat records.length := by
    rw [foldl_count, Int32.zero_add]
  cases agg
  subst hstar hcount
  simp only [beginTuple, hrows, hfold, bind, Except.bind]
  rfl

theorem run_counting (h : Accepts query prev.cols gcols) (hcond : ∀ cond ∈ query.having, cond.Numeric)
    (hrows : prev.rows = .ok records) (hfuel : records.length + 1 ≤ fuel) :
    run false query (.ok prev) fuel = .ok (counted query gcols records) := by
  rw [run_of_accepts h, beginTuple_counting rfl rfl hrows, counted]
  split
  · rename_i hgroup
    obtain ⟨fuel, rfl⟩ : ∃ n, fuel = n + 1 := ⟨fuel - 1, by omega⟩
    exact nextTuple_single hgroup rfl rfl rfl rfl
  · rename_i hgroup
    refine nextTuple_group hgroup (fetchAll_groups hcond hgroup rfl rfl ?_ ?_)
    · intro group hgroup
      obtain ⟨g, hg, rfl⟩ := List.mem_map.1 hgroup
      exact ne_nil_of_mem_groupsOf g hg
    · rw [List.length_map]
      exact le_trans groupsOf_length_le (by omega)

theorem run_without_rows {e : ScanError} (h : Accepts query prev.cols gcols) (hrows : prev.rows = .error e) :
    run false query (.ok prev) fuel = .error e := by
  rw [run_of_accepts h]
  simp only [beginTuple, hrows, bind, Except.bind]
  rfl

theorem run_shortcut (h : Accepts query prev.cols gcols) (hcount : prev.getCount = .ok count)
    (hne : count ≠ -1) (hfuel : 1 ≤ fuel) : run true query (.ok prev) fuel = .ok [intBytes count] := by
  obtain ⟨fuel, rfl⟩ : ∃ n, fuel = n + 1 := ⟨fuel - 1, by omega⟩
  rw [run_of_accepts h]
  simp only [beginTuple, hcount, bind, Except.bind, if_true, if_neg hne, pure, Except.pure]
  refine fetchAll_succ rfl rfl ?_
  rw [nextTuple]
  split
  · exact fetchAll_end rfl
  · exact fetchAll_end rfl

theorem run_same (hcount : prev.getCount = .ok (-1)) :
    run true query (.ok prev) fuel = run false query (.ok prev) fuel := by
  by_cases h : ∃ gcols, Accepts query prev.cols gcols
  · obtain ⟨gcols, h⟩ := h
    rw [run_of_accepts h, run_of_accepts h]
    simp only [beginTuple, hcount]
    rfl
  · rw [run, run]
    simp only [(make_of_not_accepts (not_exists.1 h)).1, bind, Except.bind]

end AggregationExecutor

end Rmdb
