import Rmdb.Index.Bounds
import Rmdb.Execution.Condition

namespace Rmdb

open ConditionCheck IxManager

/-- `memset` over the length of the column, then `memcpy` of the text. -/
def padTo (len : Nat) (s : Bytes) : Bytes := s ++ List.replicate (len - s.length) 0

structure Table where
  tabName : String
  cols : List ColMeta
  fh : RmFileHandle

structure IndexMeta where
  cols : List ColMeta
  typed : ∀ c ∈ cols, c.type = .int ∧ c.len = 4 ∨ c.type = .string
  bounded : (cols.map fun c => c.len).sum ≤ 512

def IndexMeta.layout (ix : IndexMeta) : KeyLayout where
  cols := ix.cols.map fun c => (c.type, c.len)
  typed := by
    intro c hc
    obtain ⟨col, hcol, rfl⟩ := List.mem_map.1 hc
    rcases ix.typed col hcol with ⟨ht, hl⟩ | ht
    · exact .inl (by rw [ht, hl])
    · exact .inr ht
  bounded := by simpa [colTotLen, List.map_map, Function.comp_def] using ix.bounded

def Table.read (tab : Table) (rid : Rid) : Except ScanError (Rid × Bytes) := do
  let record ← (tab.fh.getRecord rid).mapError .record
  return (rid, record)

def checkRow (fed : List FedCond) (row : Rid × Bytes) : Except ScanError Bool := checkConditions fed row.2

/-- The number of all rows if there is nothing to check, else `-1`. -/
def Table.getCount (tab : Table) (fed : List FedCond) : Except ScanError Int32 :=
  if fed.length ≠ 0 then .ok (-1)
  else do
    let count ← (tab.fh.getRecordCount).mapError .record
    return Int32.ofInt count

namespace SeqScanExecutor

variable (tab : Table) (conds : List Condition) (fed : List FedCond) (fuel : Nat)

def fedConds : Except ScanError (List FedCond) := conds.mapM fun cond => cond.feed tab.cols

def scan : Cursor Rid ScanError (Rid × Bytes) := (RmScan.cursor tab.fh).read .record tab.read

def beginTuple : Except ScanError Rid := do
  let rid ← (RmScan.start tab.fh).mapError .record
  (scan tab).seek (checkRow fed) .outOfFuel fuel rid

def cursor : Cursor Rid ScanError (Rid × Bytes) := (scan tab).filter (checkRow fed) .outOfFuel fuel

def run : Except ScanError (List (Rid × Bytes)) := do
  let fed ← fedConds tab conds
  let rid ← beginTuple tab fed fuel
  (cursor tab fed fuel).collect .outOfFuel fuel rid

def getCount : Except ScanError Int32 := tab.getCount fed

end SeqScanExecutor

/-- What the conditions say about one column of the index; of several conditions of a kind the
last one counts. The equality comes with the place of its condition. -/
structure ColRange where
  lowerVal : Option Value
  upperVal : Option Value
  equalVal : Option (Value × Nat)

def ColRange.add (range : ColRange) (op : CompOp) (v : Value) (i : Nat) : ColRange :=
  match op with
  | .gt | .ge => { range with lowerVal := some v }
  | .le | .lt => { range with upperVal := some v }
  | .eq => { range with equalVal := some (v, i) }
  | .ne => range

namespace IndexScanExecutor

/-- A condition that names another table on its left side is turned round. -/
def normalize (tabName : String) (cond : Condition) : Except ScanError Condition :=
  if cond.lhsCol.tabName = tabName then .ok cond
  else
    match cond.rhs with
    | .col c => if c.tabName = tabName then .ok ⟨c, cond.op.swap, .col cond.lhsCol⟩ else .error .assertFailed
    | .val _ => .error .assertFailed

/-- `col_name_to_index`: of two columns of one name the last one is kept. -/
def colNameToIndex : List ColMeta → String → Option Nat
  | [], _ => none
  | c :: cols, name =>
      match colNameToIndex cols name with
      | some i => some (i + 1)
      | none => if c.name = name then some 0 else none

def addCond (cols : List ColMeta) (ranges : List ColRange) (cond : Condition × Nat) : List ColRange :=
  match cond.1.rhs, colNameToIndex cols cond.1.lhsCol.colName with
  | .val v, some j => ranges.modify j fun range => range.add cond.1.op v cond.2
  | _, _ => ranges

variable (ix : IndexMeta) (conds : List Condition)

def colRanges : List ColRange :=
  conds.zipIdx.foldl (addCond ix.cols) (List.replicate ix.cols.length ⟨none, none, none⟩)

def equalVals : List (Value × Nat) :=
  ((colRanges ix conds).map ColRange.equalVal).takeWhile Option.isSome |>.filterMap id

/-- The conditions that the key does not stand for. -/
def residual : List Condition :=
  (conds.zipIdx.filter fun c => c.2 ∉ (equalVals ix conds).map Prod.snd).map Prod.fst

def fedConds (tab : Table) : Except ScanError (List FedCond) := do
  let conds ← conds.mapM (normalize tab.tabName)
  (residual ix conds).mapM fun cond => cond.feed tab.cols

def fieldBytes (col : ColMeta) (v : Value) : Except ScanError Bytes := do
  match ← v.valueCast col.type with
  | .int v => return intBytes v
  | .float x => return floatBytes x
  | .string s _ => return padTo col.len s

/-- The key buffer is kept column by column. -/
def buildEqualKey : List ColMeta → List Value → Except ScanError (List Bytes)
  | col :: cols, v :: vals => do
      let field ← fieldBytes col v
      let fields ← buildEqualKey cols vals
      return field :: fields
  | _, _ => .ok []

def lowestField (col : ColMeta) : Bytes :=
  match col.type with
  | .int => intBytes Int32.minValue
  -- `numeric_limits<float>::min()` is the smallest positive number
  | .float => wordBytes 0x00800000
  | .string | .null => List.replicate col.len 0

def highestField (col : ColMeta) : Bytes :=
  match col.type with
  | .int => intBytes Int32.maxValue
  | .float => wordBytes 0x7f7fffff
  | .string | .null => List.replicate col.len 0xFF

/-- Writes the bounds over the leading columns that have one. -/
def buildRangeKey : List ColMeta → List (Option Value) → List Bytes → Except ScanError (List Bytes)
  | col :: cols, some v :: vals, _ :: fields => do
      let field ← fieldBytes col v
      let fields ← buildRangeKey cols vals fields
      return field :: fields
  | _, _, fields => .ok fields

def toKey (fields : List Bytes) : Except ScanError (Key ix.layout) :=
  if h : fields.flatten.length = colTotLen ix.layout.cols then .ok ⟨fields.flatten, h⟩
    else .error .assertFailed

def boundFields (filler : ColMeta → Bytes) (bound : ColRange → Option Value) :
    Except ScanError (List Bytes) := do
  let equal := (equalVals ix conds).map Prod.fst
  let rest := ix.cols.drop equal.length
  let front ← buildEqualKey ix.cols equal
  let back ← buildRangeKey rest (((colRanges ix conds).drop equal.length).map bound) (rest.map filler)
  return front ++ back

def lowerKey : Except ScanError (Key ix.layout) := do
  toKey ix (← boundFields ix conds lowestField ColRange.lowerVal)

def upperKey : Except ScanError (Key ix.layout) := do
  toKey ix (← boundFields ix conds highestField ColRange.upperVal)

variable {ix} (tab : Table) (ih : IxIndexHandle (Key ix.layout)) (last : Iid)
  (fed : List FedCond) (fuel : Nat)

def scan : Cursor Iid ScanError (Rid × Bytes) := (IxScan.cursor ih last).read .index tab.read

/-- Returns the end of the scan and its first position. -/
def beginTuple : Except ScanError (Iid × Iid) := do
  let lower ← (ih.lowerBound (← lowerKey ix conds)).mapError .index
  let upper ← (ih.upperBound (← upperKey ix conds)).mapError .index
  return (upper, ← (scan tab ih upper).seek (checkRow fed) .outOfFuel fuel lower)

def cursor : Cursor Iid ScanError (Rid × Bytes) := (scan tab ih last).filter (checkRow fed) .outOfFuel fuel

def run : Except ScanError (List (Rid × Bytes)) := do
  let fed ← fedConds ix conds tab
  let conds ← conds.mapM (normalize tab.tabName)
  let (last, iid) ← beginTuple conds tab ih fed fuel
  (cursor tab ih last fed fuel).collect .outOfFuel fuel iid

/-- As in the sequential scan: conditions that the key stands for are not in `fed`. -/
def getCount : Except ScanError Int32 := tab.getCount fed

end IndexScanExecutor

end Rmdb
