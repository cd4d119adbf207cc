import Rmdb.Index.Key
import Rmdb.Record.RmScan

namespace Rmdb

inductive ScanError
  | columnNotFound
  | incompatibleType
  | assertFailed
  | index (e : IxError)
  | record (e : RmError)
  | outOfFuel
deriving DecidableEq, Repr

structure TabCol where
  tabName : String
  colName : String
deriving DecidableEq, Repr

structure ColMeta where
  tabName : String
  name : String
  type : ColType
  len : Nat
  offset : Nat
deriving DecidableEq, Repr

/-- `get_col`: the first column of the name. -/
def getCol (recCols : List ColMeta) (target : TabCol) : Except ScanError ColMeta :=
  match recCols.find? fun col => col.tabName = target.tabName ∧ col.name = target.colName with
  | some col => .ok col
  | none => .error .columnNotFound

def floatExponent (x : Float32) : Nat := x.toBits.toNat / 8388608 % 256

/-- The digits of a finite number in units of `2 ^ (e - 150)`, where `e` is the exponent, or `1` for `0`. -/
def floatDigits (x : Float32) : Nat :=
  if floatExponent x = 0 then x.toBits.toNat % 8388608 else 8388608 + x.toBits.toNat % 8388608

def floatNegative (x : Float32) : Bool := 2147483648 ≤ x.toBits.toNat

/-- The conversion to `int`, which cuts off the fraction. For a number outside the range of `int`
it is undefined; the processor then answers with the least `int`. -/
def floatToInt (x : Float32) : Int32 :=
  let whole := if 150 ≤ floatExponent x then floatDigits x * 2 ^ (floatExponent x - 150)
    else floatDigits x / 2 ^ (150 - max (floatExponent x) 1)
  let val : Int := if floatNegative x then -whole else whole
  if floatExponent x < 255 ∧ -2147483648 ≤ val ∧ val < 2147483648 then Int32.ofInt val else -2147483648

/-- A text comes with `str_len`, which only `build_value` sets. -/
inductive Value
  | int (val : Int32)
  | float (val : Float32)
  | string (val : Bytes) (strLen : Int)

namespace Value

def type : Value → ColType
  | int _ => .int
  | float _ => .float
  | string _ _ => .string

/-- Texts are not read as numbers: `check_clause` lets no text meet a numeric column. -/
def valueCast : Value → ColType → Except ScanError Value
  | int v, .int => .ok (int v)
  | float x, .float => .ok (float x)
  | string s n, .string => .ok (string s n)
  | int v, .float => .ok (float (Float32.ofInt v.toInt))
  | float x, .int => .ok (int (floatToInt x))
  | _, _ => .error .incompatibleType

/-- Compares at most the first `n` bytes, up to the first NUL; behind its end a text is NUL. -/
def compareFirst : Nat → Bytes → Bytes → Int
  | 0, _, _ => 0
  | n + 1, a, b =>
      if a.headD 0 < b.headD 0 then -1
      else if b.headD 0 < a.headD 0 then 1
      else if a.headD 0 = 0 then 0
      else compareFirst n a.tail b.tail

/-- The length is passed as a `size_t`: a negative one is larger than any text. -/
def strncmp (a b : Bytes) (n : Int) : Int :=
  compareFirst (if n < 0 then a.length + b.length + 1 else n.toNat) a b

/-- `operator==`. Texts are compared over the length of the left one. -/
def eq : Value → Value → Except ScanError Bool
  | int a, int b => .ok (a = b)
  | float a, float b => .ok (a == b)
  | string a n, string b _ => .ok (strncmp a b n = 0)
  | _, _ => .error .incompatibleType

def lt : Value → Value → Except ScanError Bool
  | int a, int b => .ok (a < b)
  | float a, float b => .ok (a < b)
  | string a n, string b _ => .ok (strncmp a b n < 0)
  | _, _ => .error .incompatibleType

end Value

inductive CompOp
  | eq
  | ne
  | lt
  | gt
  | le
  | ge
deriving DecidableEq, Repr

/-- `check_condition`. The other operators are made of `==` and `<`. -/
def CompOp.check (op : CompOp) (lhs rhs : Value) : Except ScanError Bool :=
  match op with
  | .eq => lhs.eq rhs
  | .ne => not <$> lhs.eq rhs
  | .lt => lhs.lt rhs
  | .gt => rhs.lt lhs
  | .le => not <$> rhs.lt lhs
  | .ge => not <$> lhs.lt rhs

def CompOp.swap : CompOp → CompOp
  | .eq => .eq
  | .ne => .ne
  | .lt => .gt
  | .gt => .lt
  | .le => .ge
  | .ge => .le

inductive CondRhs
  | val (v : Value)
  | col (c : TabCol)

structure Condition where
  lhsCol : TabCol
  op : CompOp
  rhs : CondRhs

/-- The right side of a condition as the executors prepare it: the literal in the type of the
left column, or the column that was found. -/
inductive FedRhs
  | val (v : Value)
  | col (c : ColMeta)

structure FedCond where
  lhsMatchCol : ColMeta
  op : CompOp
  rhs : FedRhs

def Condition.feed (cols : List ColMeta) (cond : Condition) : Except ScanError FedCond := do
  let lhs ← getCol cols cond.lhsCol
  match cond.rhs with
  | .col c => return ⟨lhs, cond.op, .col (← getCol cols c)⟩
  | .val v => return ⟨lhs, cond.op, .val (← v.valueCast lhs.type)⟩

namespace ConditionCheck

/-- A text is read up to the first NUL, over the end of its column if need be; the bytes behind
the record are taken to be NUL. -/
def buildValue (col : ColMeta) (record : Bytes) : Except ScanError Value :=
  match col.type with
  | .int => .ok (.int (Int32.ofInt (readInt (record.drop col.offset))))
  | .float => .ok (.float (Float32.ofBits (UInt32.ofNat (readWord (record.drop col.offset)))))
  | .string => .ok (.string ((record.drop col.offset).takeWhile (· ≠ 0)) col.len)
  | .null => .error .incompatibleType

/-- Only a literal is brought to the type of the other side. -/
def promote : Value → Value → Except ScanError (Value × Value)
  | .int a, .float b => .ok (.float (Float32.ofInt a.toInt), .float b)
  | .float a, .int b => .ok (.float a, .float (Float32.ofInt b.toInt))
  | a, b => if a.type = b.type then .ok (a, b) else .error .incompatibleType

def checkSingleCondition (cond : FedCond) (record : Bytes) : Except ScanError Bool := do
  let lhs ← buildValue cond.lhsMatchCol record
  match cond.rhs with
  | .col c => cond.op.check lhs (← buildValue c record)
  | .val v => do
      let (lhs, rhs) ← promote lhs v
      cond.op.check lhs rhs

def checkConditions : List FedCond → Bytes → Except ScanError Bool
  | [], _ => .ok true
  | cond :: conds, record => do
      if ← checkSingleCondition cond record then checkConditions conds record else return false

end ConditionCheck

end Rmdb
