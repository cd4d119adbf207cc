import Rmdb.Execution.Aggregation
import Rmdb.Execution.ScanExecutor

namespace Rmdb

/-- The `float`s of an aggregation; `stof` is `none` where it throws. -/
structure FloatOps (F : Type) where
  zero : F
  maxFinite : F
  minNormal : F
  add : F → F → F
  lt : F → F → Bool
  ofWord : Nat → F
  word : F → Nat
  toInt : F → Int32
  stof : Bytes → Option F

inductive AggrError
  | unknownAggrType
  | notImplemented
  | stofThrows
deriving DecidableEq, Repr

structure AggrCol where
  col : ColMeta
  aggr : AggrType
deriving DecidableEq

/-- A value that has been aggregated. A text comes from `to_value`, which leaves `str_len` unset. -/
inductive AggrValue (F : Type)
  | int (val : Int32)
  | float (val : F)
  | text (val : Bytes) (strLen : Int)
  | null
deriving DecidableEq

/-- A column of the row that is returned: its type as `cols` gives it, and its bytes. Those of a
NULL are not read. -/
structure OutCol where
  type : ColType
  raw : Bytes
deriving DecidableEq, Repr

namespace AggrCol

def starCol : AggrCol := ⟨⟨"", "*", .int, 4, 0⟩, .count⟩

def selCol (c : AggrCol) : ColMeta :=
  match c.aggr with
  | .count => { c.col with type := .int, len := 4 }
  | .sum => if c.col.type = .string then { c.col with type := .int, len := 4 } else c.col
  | _ => c.col

def readInt (c : AggrCol) (record : Bytes) : Int32 := Int32.ofInt (Rmdb.readInt (record.drop c.col.offset))

def readText (c : AggrCol) (record : Bytes) : Bytes :=
  ((record.drop c.col.offset).take c.col.len).takeWhile (· ≠ 0)

end AggrCol

namespace AggrValue

variable {F : Type} (ops : FloatOps F)

def raw (len : Nat) : AggrValue F → Bytes
  | int v => intBytes v
  | float x => wordBytes (ops.word x)
  | text s _ => padTo len s
  | null => []

def out (c : AggrCol) : AggrValue F → OutCol
  | null => ⟨.null, []⟩
  | v => ⟨c.selCol.type, v.raw ops c.col.len⟩

/-- `operator<`, where both values are of one column. -/
def lt : AggrValue F → AggrValue F → Bool
  | int a, int b => a < b
  | float a, float b => ops.lt a b
  | text a n, text b _ => Value.strncmp a b n < 0
  | _, _ => false

end AggrValue

section Streaming

variable {F : Type} (ops : FloatOps F)

def initValue (c : AggrCol) : AggrValue F :=
  match c.selCol.type with
  | .int => .int (match c.aggr with
      | .min => Int32.maxValue
      | .max => Int32.minValue
      | _ => 0)
  | .float => .float (match c.aggr with
      | .min => ops.maxFinite
      | .max => ops.minNormal
      | _ => ops.zero)
  | .string => .text [] 0
  | .null => .null

/-- The update of one value. A text has no branch of its own. -/
def updateValue (c : AggrCol) (val : AggrValue F) (record : Bytes) : Except AggrError (AggrValue F) :=
  match c.aggr, c.col.type, val with
  | .none, _, _ => .error .unknownAggrType
  | .count, _, .int v => .ok (.int (v + 1))
  | .sum, .int, .int v => .ok (.int (v + c.readInt record))
  | .sum, .float, .float x => .ok (.float (ops.add x (ops.ofWord (readWord (record.drop c.col.offset)))))
  | .max, .int, .int v => .ok (.int (if v < c.readInt record then c.readInt record else v))
  | .max, .float, .float x =>
      let y := ops.ofWord (readWord (record.drop c.col.offset))
      .ok (.float (if ops.lt x y then y else x))
  | .min, .int, .int v => .ok (.int (if c.readInt record < v then c.readInt record else v))
  | .min, .float, .float x =>
      let y := ops.ofWord (readWord (record.drop c.col.offset))
      .ok (.float (if ops.lt y x then y else x))
  | _, _, val => .ok val

def updateValues : List AggrCol → List (AggrValue F) → Bytes → Except AggrError (List (AggrValue F))
  | c :: cs, val :: vals, record => do
      let val ← updateValue ops c val record
      let vals ← updateValues cs vals record
      return val :: vals
  | _, _, _ => .ok []

def streamRow (selCols : List AggrCol) (records : List Bytes) : Except AggrError (List OutCol) := do
  let vals ← records.foldlM (updateValues ops selCols) (selCols.map (initValue ops))
  return (selCols.zip vals).map fun (c, val) => val.out ops c

end Streaming

section Collecting

variable {F : Type} (ops : FloatOps F)

def toValue (strLen : Int) (c : AggrCol) (record : Bytes) : Except AggrError (AggrValue F) :=
  match c.col.type with
  | .int => .ok (.int (c.readInt record))
  | .float => .ok (.float (ops.ofWord (readWord (record.drop c.col.offset))))
  | .string => .ok (.text (c.readText record) strLen)
  | .null => .error .notImplemented

/-- The loop of `MAX`, and that of `MIN` with the sides exchanged. `strLen` holds what each call
of `to_value` leaves. -/
def extremum (strLen : Nat → Int) (better : AggrValue F → AggrValue F → Bool) (c : AggrCol) :
    Nat → AggrValue F → List Bytes → Except AggrError (AggrValue F)
  | _, val, [] => .ok val
  | i, val, record :: records => do
      let tmp ← toValue ops (strLen i) c record
      extremum strLen better c (i + 1) (if better val tmp then tmp else val) records

def numeral (c : AggrCol) (record : Bytes) : Bytes :=
  ((record.drop c.col.offset).take c.col.len).takeWhile fun b => (48 ≤ b ∧ b ≤ 57) ∨ b = 46

/-- The sum over a text column: whether a point has been met, and the sum. -/
def sumTexts (c : AggrCol) : Bool → F → List Bytes → Except AggrError (Bool × F)
  | isFloat, sum, [] => .ok (isFloat, sum)
  | isFloat, sum, record :: records =>
      let isFloat := isFloat || (numeral c record).contains 46
      if numeral c record = [] then sumTexts c isFloat sum records
      else match ops.stof (numeral c record) with
        | none => .error .stofThrows
        | some x => sumTexts c isFloat (ops.add sum x) records

def sumValue (c : AggrCol) (records : List Bytes) : Except AggrError (AggrValue F) :=
  match c.col.type with
  | .int => .ok (.int (records.foldl (fun sum record => sum + c.readInt record) 0))
  | .float =>
      .ok (.float (records.foldl
        (fun sum record => ops.add sum (ops.ofWord (readWord (record.drop c.col.offset)))) ops.zero))
  | .string => do
      let (isFloat, sum) ← sumTexts ops c false ops.zero records
      return if isFloat then .float sum else .int (ops.toInt sum)
  | .null => .error .unknownAggrType

def aggregateValue (strLen : Nat → Int) (c : AggrCol) (records : List Bytes) :
    Except AggrError (AggrValue F) :=
  match c.aggr, records with
  | .count, _ => .ok (.int (Int32.ofNat records.length))
  | .sum, _ => sumValue ops c records
  | _, [] => .ok .null
  | .none, first :: _ => toValue ops (strLen 0) c first
  | .max, first :: _ => do
      let val ← toValue ops (strLen 0) c first
      extremum ops strLen (fun val tmp => val.lt ops tmp) c 1 val records
  | .min, first :: _ => do
      let val ← toValue ops (strLen 0) c first
      extremum ops strLen (fun val tmp => tmp.lt ops val) c 1 val records

def collectRow (strLen : Nat → Nat → Int) (records : List Bytes) :
    Nat → List AggrCol → Except AggrError (List OutCol)
  | _, [] => .ok []
  | i, c :: cs => do
      let val ← aggregateValue ops (strLen i) c records
      let outs ← collectRow strLen records (i + 1) cs
      return val.out ops c :: outs

end Collecting

/-- What `stof` and the arithmetic of `float`s do with numerals without a sign: all values are
nonnegative, a sum is zero only of zeros, and a whole number other than zero is not converted to
zero. -/
structure FloatOps.Lawful {F : Type} (ops : FloatOps F) where
  nonneg : F → Prop
  whole : F → Prop
  nonneg_zero : nonneg ops.zero
  whole_zero : whole ops.zero
  nonneg_stof : ∀ w x, (∀ b ∈ w, (48 ≤ b ∧ b ≤ 57) ∨ b = 46) → ops.stof w = some x → nonneg x
  whole_stof : ∀ w x, (∀ b ∈ w, 48 ≤ b ∧ b ≤ 57) → ops.stof w = some x → whole x
  nonneg_add : ∀ x y, nonneg x → nonneg y → nonneg (ops.add x y)
  whole_add : ∀ x y, whole x → whole y → whole (ops.add x y)
  add_eq_zero : ∀ x y, nonneg x → nonneg y → (ops.add x y = ops.zero ↔ x = ops.zero ∧ y = ops.zero)
  word_eq_zero : ∀ x, nonneg x → (wordBytes (ops.word x) = [0, 0, 0, 0] ↔ x = ops.zero)
  toInt_eq_zero : ∀ x, nonneg x → whole x → (ops.toInt x = 0 ↔ x = ops.zero)

section Agreement

variable {F : Type} (ops : FloatOps F)

/-- The columns of the statement: every one is aggregated, and all are `INT` or `CHAR`. -/
def AggrCol.Plain (c : AggrCol) : Prop :=
  c.aggr ≠ .none ∧ (c.col.type = .int ∧ c.col.len = 4 ∨ c.col.type = .string)

/-- Both ways make the same row, whatever `to_value` leaves in `str_len`; for no record the
extremes are NULL and the counts zero. -/
def AggregatesAgree (selCols : List AggrCol) (records : List Bytes) : Prop :=
  (∀ strLen, streamRow ops selCols records = collectRow ops strLen records 0 selCols) ∧
    (records = [] → ∃ outs, streamRow ops selCols records = .ok outs ∧
      List.Forall₂ (fun (c : AggrCol) (out : OutCol) => (c.aggr = .min ∨ c.aggr = .max → out.type = .null) ∧
        (c.aggr = .count → out = ⟨.int, intBytes 0⟩)) selCols outs)

/-- Sums over texts are zero, extremes of numbers have a record, and an extreme of texts is the empty text. -/
def ValueAgrees (c : AggrCol) (records : List Bytes) : Prop :=
  match c.aggr, c.col.type with
  | .sum, .string => ∀ record ∈ records, numeral c record = [] ∨ ops.stof (numeral c record) = some ops.zero
  | .max, .string => records ≠ [] ∧ ∀ record ∈ records, c.readText record = []
  | .min, .string => ∃ first rest, records = first :: rest ∧ c.readText first = []
  | .max, _ => records ≠ []
  | .min, _ => records ≠ []
  | _, _ => True

variable {ops} {c : AggrCol} {cs : List AggrCol} {record : Bytes} {records : List Bytes} {val : AggrValue F}
  {vals : List (AggrValue F)} {strLen : Nat → Int}

def updated (ops : FloatOps F) (c : AggrCol) (val : AggrValue F) (record : Bytes) : AggrValue F :=
  match updateValue ops c val record with
  | .ok val' => val'
  | .error _ => val

def streamOut (ops : FloatOps F) (c : AggrCol) (records : List Bytes) : OutCol :=
  (records.foldl (updated ops c) (initValue ops c)).out ops c

theorem updateValue_eq (h : c.aggr ≠ .none) :
    updateValue ops c val record = .ok (updated ops c val record) := by
  unfold updated updateValue
  cases haggr : c.aggr with
  | none => exact absurd haggr h
  | _ => cases c.col.type <;> cases val <;> rfl

theorem updateValues_eq (h : ∀ c ∈ cs, c.aggr ≠ .none) (hlen : vals.length = cs.length) :
    updateValues ops cs vals record = .ok (List.zipWith (fun c val => updated ops c val record) cs vals) := by
  induction cs generalizing vals with
  | nil => rfl
  | cons c cs ih =>
      cases vals with
      | nil => simp at hlen
      | cons val vals =>
          rw [updateValues, updateValue_eq (h c List.mem_cons_self),
            ih (fun c hc => h c (List.mem_cons_of_mem _ hc)) (by simpa using hlen)]
          rfl

theorem foldlM_updateValues (h : ∀ c ∈ cs, c.aggr ≠ .none) (hlen : vals.length = cs.length) :
    records.foldlM (updateValues ops cs) vals =
      .ok (List.zipWith (fun c val => records.foldl (updated ops c) val) cs vals) := by
  induction records generalizing vals with
  | nil =>
      simp only [List.foldlM_nil, List.foldl_nil]
      congr 1
      induction cs generalizing vals with
      | nil => simpa using hlen
      | cons c cs ih =>
          cases vals with
          | nil => simp at hlen
          | cons val vals =>
              rw [List.zipWith_cons_cons,
                ← ih (fun c hc => h c (List.mem_cons_of_mem _ hc)) (by simpa using hlen)]
  | cons record records ih =>
      rw [List.foldlM_cons, updateValues_eq h hlen]
      simp only [bind, Except.bind, List.foldl_cons]
      rw [ih (by simp [hlen]), List.zipWith_zipWith_right, List.zipWith3_same_left]

theorem streamRow_eq (h : ∀ c ∈ cs, c.aggr ≠ .none) :
    streamRow ops cs records = .ok (cs.map fun c => streamOut ops c records) := by
  rw [streamRow, foldlM_updateValues h (by simp)]
  simp only [bind, Except.bind, pure, Except.pure]
  congr 1
  induction cs with
  | nil => rfl
  | cons c cs ih =>
      simp only [List.map_cons, List.zipWith_cons_cons, List.zip_cons_cons]
      rw [ih fun c hc => h c (List.mem_cons_of_mem _ hc)]
      rfl

theorem collectRow_eq {f : AggrCol → OutCol} {strLen : Nat → Nat → Int} {i : Nat} :
    collectRow ops strLen records i cs = .ok (cs.map f) ↔
      ∀ k c, cs[k]? = some c →
        (aggregateValue ops (strLen (i + k)) c records).map (AggrValue.out ops c) = .ok (f c) := by
  induction cs generalizing i with
  | nil => simp [collectRow]
  | cons c cs ih =>
      have hsplit : (∀ k d, (c :: cs)[k]? = some d →
          (aggregateValue ops (strLen (i + k)) d records).map (AggrValue.out ops d) = .ok (f d)) ↔
          (aggregateValue ops (strLen i) c records).map (AggrValue.out ops c) = .ok (f c) ∧
            ∀ k d, cs[k]? = some d →
              (aggregateValue ops (strLen (i + 1 + k)) d records).map (AggrValue.out ops d) = .ok (f d) := by
        constructor
        · intro h
          refine ⟨h 0 c rfl, fun k d hd => ?_⟩
          have := h (k + 1) d hd
          rwa [show i + (k + 1) = i + 1 + k by omega] at this
        · rintro ⟨hhead, htail⟩ k d hd
          cases k with
          | zero =>
              obtain rfl : c = d := by simpa using hd
              exact hhead
          | succ k =>
              rw [show i + (k + 1) = i + 1 + k by omega]
              exact htail k d hd
      rw [hsplit, ← ih, collectRow]
      cases haggr : aggregateValue ops (strLen i) c records with
      | error e => simp [bind, Except.bind, Except.map]
      | ok val =>
          cases hrest : collectRow ops strLen records (i + 1) cs with
          | error e => simp [bind, Except.bind, Except.map]
          | ok outs => simp [bind, Except.bind, Except.map, pure, Except.pure]

section Texts

variable {a b : Bytes} {n : Nat}

theorem compareFirst_nil_right : ¬ Value.compareFirst n a [] < 0 := by
  cases n with
  | zero => simp [Value.compareFirst]
  | succ n =>
      have hzero : ¬ a.headD 0 < 0 := UInt8.not_lt_zero
      rw [Value.compareFirst, List.headD_nil, if_neg hzero]
      by_cases hx : a.headD 0 = 0
      · rw [hx, if_neg UInt8.not_lt_zero, if_pos rfl]
        decide
      · rw [if_pos (UInt8.pos_iff_ne_zero.2 hx)]
        decide

theorem compareFirst_nil_left {x : UInt8} (hx : x ≠ 0) : Value.compareFirst (n + 1) [] (x :: b) < 0 := by
  have hpos : (0 : UInt8) < x := UInt8.pos_iff_ne_zero.2 hx
  simp [Value.compareFirst, hpos]

/-- No text is before the empty one, whatever `str_len` is. -/
theorem strncmp_nil (strLen : Int) : ¬ Value.strncmp a [] strLen < 0 := compareFirst_nil_right

theorem readText_head {x : UInt8} {c : AggrCol} {record : Bytes}
    (h : c.readText record = x :: b) : x ≠ 0 := by
  have hin : x ∈ c.readText record := by
    rw [h]
    exact List.mem_cons_self
  simpa using List.mem_takeWhile_imp hin

end Texts

section Numbers

variable {v : Int32} {f : Int32 → Bytes → Int32}

theorem foldl_int {g : AggrValue F → Bytes → AggrValue F}
    (h : ∀ v record, g (.int v) record = .int (f v record)) :
    records.foldl g (.int v) = .int (records.foldl f v) := by
  induction records generalizing v with
  | nil => rfl
  | cons record records ih => rw [List.foldl_cons, List.foldl_cons, h, ih]

theorem extremum_int {better : AggrValue F → AggrValue F → Bool} {i : Nat} (ht : c.col.type = .int)
    (h : ∀ v record, (if better (.int v) (.int (c.readInt record)) then .int (c.readInt record) else .int v) =
      AggrValue.int (F := F) (f v record)) :
    extremum ops strLen better c i (.int v) records = .ok (.int (records.foldl f v)) := by
  induction records generalizing v i with
  | nil => rfl
  | cons record records ih =>
      rw [extremum, toValue, ht, List.foldl_cons]
      simp only [bind, Except.bind]
      rw [h, ih]

theorem max_value {first : Bytes} {rest : List Bytes} (haggr : c.aggr = .max) (ht : c.col.type = .int) :
    aggregateValue ops strLen c (first :: rest) = .ok (.int ((first :: rest).foldl
      (fun v record => if v < c.readInt record then c.readInt record else v) (c.readInt first))) := by
  simp only [aggregateValue, haggr, toValue, ht, bind, Except.bind]
  refine extremum_int ht fun v record => ?_
  simp only [AggrValue.lt, decide_eq_true_eq]
  split <;> rfl

theorem max_int (haggr : c.aggr = .max) (ht : c.col.type = .int) (hne : records ≠ []) :
    (aggregateValue ops strLen c records).map (AggrValue.out ops c) = .ok (streamOut ops c records) := by
  obtain ⟨first, rest, rfl⟩ := List.exists_cons_of_ne_nil hne
  have hinit : initValue ops c = .int Int32.minValue := by simp [initValue, AggrCol.selCol, haggr, ht]
  have hstream : (first :: rest).foldl (updated ops c) (.int Int32.minValue) = .int ((first :: rest).foldl
      (fun v record => if v < c.readInt record then c.readInt record else v) Int32.minValue) :=
    foldl_int fun v record => by
      unfold updated updateValue
      rw [haggr, ht]
  have hmin : (if Int32.minValue < c.readInt first then c.readInt first else Int32.minValue) =
      c.readInt first := by
    split
    · rfl
    · rename_i hlt
      exact Int32.le_antisymm (Int32.minValue_le _) (Int32.not_lt.1 hlt)
  rw [max_value haggr ht, streamOut, hinit, hstream, List.foldl_cons, List.foldl_cons, hmin, ite_self]
  rfl

theorem min_value {first : Bytes} {rest : List Bytes} (haggr : c.aggr = .min) (ht : c.col.type = .int) :
    aggregateValue ops strLen c (first :: rest) = .ok (.int ((first :: rest).foldl
      (fun v record => if c.readInt record < v then c.readInt record else v) (c.readInt first))) := by
  simp only [aggregateValue, haggr, toValue, ht, bind, Except.bind]
  refine extremum_int ht fun v record => ?_
  simp only [AggrValue.lt, decide_eq_true_eq]
  split <;> rfl

theorem min_int (haggr : c.aggr = .min) (ht : c.col.type = .int) (hne : records ≠ []) :
    (aggregateValue ops strLen c records).map (AggrValue.out ops c) = .ok (streamOut ops c records) := by
  obtain ⟨first, rest, rfl⟩ := List.exists_cons_of_ne_nil hne
  have hinit : initValue ops c = .int Int32.maxValue := by simp [initValue, AggrCol.selCol, haggr, ht]
  have hstream : (first :: rest).foldl (updated ops c) (.int Int32.maxValue) = .int ((first :: rest).foldl
      (fun v record => if c.readInt record < v then c.readInt record else v) Int32.maxValue) :=
    foldl_int fun v record => by
      unfold updated updateValue
      rw [haggr, ht]
  have hmax : (if c.readInt first < Int32.maxValue then c.readInt first else Int32.maxValue) =
      c.readInt first := by
    split
    · rfl
    · rename_i hlt
      exact Int32.le_antisymm (Int32.not_lt.1 hlt) (Int32.le_maxValue _)
  rw [min_value haggr ht, streamOut, hinit, hstream, List.foldl_cons, List.foldl_cons, hmax, ite_self]
  rfl

end Numbers

section TextColumns

variable {text : Bytes} {n : Int}

@[simp] theorem AggrValue.lt_text (a b : Bytes) (n m : Int) :
    (AggrValue.text a n).lt ops (.text b m) = decide (Value.strncmp a b n < 0) := rfl

theorem foldl_fixed {α : Type} {g : α → Bytes → α} {v : α} (h : ∀ record, g v record = v) :
    records.foldl g v = v := by
  induction records with
  | nil => rfl
  | cons record records ih => rw [List.foldl_cons, h, ih]

/-- Without `GROUP BY` an extreme of texts is the empty text. -/
theorem streamOut_text (haggr : c.aggr = .max ∨ c.aggr = .min) (ht : c.col.type = .string) :
    streamOut ops c records = (AggrValue.text (F := F) [] 0).out ops c := by
  have hinit : initValue ops c = .text [] 0 :=
    by rcases haggr with haggr | haggr <;> simp [initValue, AggrCol.selCol, haggr, ht]
  rw [streamOut, hinit, foldl_fixed]
  intro record
  unfold updated updateValue
  rcases haggr with haggr | haggr <;> rw [haggr, ht]

theorem text_out_inj {record : Bytes}
    (h : (AggrValue.text (F := F) (c.readText record) n).out ops c =
      (AggrValue.text (F := F) [] 0).out ops c) :
    c.readText record = [] := by
  have hraw : padTo c.col.len (c.readText record) = padTo c.col.len [] := congrArg OutCol.raw h
  cases htext : c.readText record with
  | nil => rfl
  | cons x b =>
      rw [htext] at hraw
      cases hlen : c.col.len with
      | zero => simp [padTo, hlen] at hraw
      | succ len =>
          simp only [padTo, hlen, List.cons_append, List.nil_append, List.length_nil, Nat.sub_zero,
            List.replicate_succ] at hraw
          exact absurd (List.cons.inj hraw).1 (readText_head htext)

theorem extremum_min_empty (ht : c.col.type = .string) {i : Nat} :
    extremum ops strLen (fun val tmp => tmp.lt ops val) c i (.text [] n) records = .ok (.text [] n) := by
  induction records generalizing i with
  | nil => rfl
  | cons record records ih =>
      rw [extremum, toValue, ht]
      simp only [bind, Except.bind, AggrValue.lt_text, strncmp_nil, decide_false,
        Bool.false_eq_true, if_false]
      exact ih

/-- Where `str_len` is zero the first text stays. -/
theorem extremum_min_first (ht : c.col.type = .string) {i : Nat} :
    extremum ops (fun _ => 0) (fun val tmp => tmp.lt ops val) c i (.text text n) records =
      .ok (.text text n) := by
  induction records generalizing i with
  | nil => rfl
  | cons record records ih =>
      rw [extremum, toValue, ht]
      have hstay : ¬ Value.strncmp (c.readText record) text 0 < 0 := by
        simp [Value.strncmp, Value.compareFirst]
      simp only [bind, Except.bind, AggrValue.lt_text, hstay, decide_false, Bool.false_eq_true, if_false]
      exact ih

theorem min_text (haggr : c.aggr = .min) (ht : c.col.type = .string) :
    (∀ strLen, (aggregateValue ops strLen c records).map (AggrValue.out ops c) =
      .ok (streamOut ops c records)) ↔
      ∃ first rest, records = first :: rest ∧ c.readText first = [] := by
  rw [streamOut_text (.inr haggr) ht]
  cases records with
  | nil =>
      refine iff_of_false (fun h => ?_) (by simp)
      have hnull := h fun _ => 0
      simp [aggregateValue, haggr, Except.map, AggrValue.out, AggrCol.selCol, ht] at hnull
  | cons first rest =>
      constructor
      · intro h
        refine ⟨first, rest, rfl, ?_⟩
        have hfirst := h fun _ => 0
        simp only [aggregateValue, haggr, toValue, ht, bind, Except.bind, extremum_min_first ht, Except.map,
          Except.ok.injEq] at hfirst
        exact text_out_inj hfirst
      · rintro ⟨_, _, heq, hfirst⟩ strLen
        obtain ⟨rfl, -⟩ := List.cons.inj heq
        simp only [aggregateValue, haggr, toValue, ht, bind, Except.bind, hfirst,
          extremum_min_empty ht, Except.map]
        rfl

theorem extremum_max_empty (ops : FloatOps F) (strLen : Nat → Int) (n : Int) (i : Nat)
    (ht : c.col.type = .string) (h : ∀ record ∈ records, c.readText record = []) :
    ∃ n', extremum ops strLen (fun val tmp => val.lt ops tmp) c i (.text [] n) records =
      .ok (.text [] n') := by
  induction records generalizing i n with
  | nil => exact ⟨n, rfl⟩
  | cons record records ih =>
      rw [extremum, toValue, ht, h record List.mem_cons_self]
      simp only [bind, Except.bind, AggrValue.lt_text, strncmp_nil, decide_false,
        Bool.false_eq_true, if_false]
      exact ih n (i + 1) fun r hr => h r (List.mem_cons_of_mem _ hr)

/-- Where `str_len` covers all texts, the maximum is empty only if all of them are. -/
theorem extremum_max_full (ops : FloatOps F) (records : List Bytes) (ht : c.col.type = .string)
    (text : Bytes) (i : Nat) :
    ∃ text', extremum ops (fun _ => -1) (fun val tmp => val.lt ops tmp) c i (.text text (-1)) records =
      .ok (.text text' (-1)) ∧
      (text' = text ∨ ∃ record, text' = c.readText record) ∧
      (text' = [] → text = [] ∧ ∀ record ∈ records, c.readText record = []) := by
  induction records generalizing text i with
  | nil => exact ⟨text, rfl, .inl rfl, fun h => ⟨h, nofun⟩⟩
  | cons record records ih =>
      rw [extremum, toValue, ht]
      simp only [bind, Except.bind, AggrValue.lt_text]
      by_cases hlt : Value.strncmp text (c.readText record) (-1) < 0
      · obtain ⟨text', hrun, hfrom, hempty⟩ := ih (c.readText record) (i + 1)
        refine ⟨text', by simpa only [hlt, decide_true, if_true] using hrun, .inr ?_, fun hnil => ?_⟩
        · rcases hfrom with rfl | h
          · exact ⟨record, rfl⟩
          · exact h
        · rw [(hempty hnil).1] at hlt
          exact absurd hlt (strncmp_nil _)
      · obtain ⟨text', hrun, hfrom, hempty⟩ := ih text (i + 1)
        refine ⟨text', by simpa only [hlt, decide_false, Bool.false_eq_true, if_false] using hrun,
          hfrom, fun hnil => ?_⟩
        obtain ⟨rfl, hrest⟩ := hempty hnil
        refine ⟨rfl, fun r hr => ?_⟩
        rcases List.mem_cons.1 hr with rfl | hr
        · cases htext : c.readText r with
          | nil => rfl
          | cons x b =>
              rw [htext, Value.strncmp, if_pos (by decide)] at hlt
              exact absurd (compareFirst_nil_left (readText_head htext)) hlt
        · exact hrest r hr

theorem max_text (haggr : c.aggr = .max) (ht : c.col.type = .string) :
    (∀ strLen, (aggregateValue ops strLen c records).map (AggrValue.out ops c) =
      .ok (streamOut ops c records)) ↔
      records ≠ [] ∧ ∀ record ∈ records, c.readText record = [] := by
  rw [streamOut_text (.inl haggr) ht]
  cases records with
  | nil =>
      refine iff_of_false (fun h => ?_) (by simp)
      have hnull := h fun _ => 0
      simp [aggregateValue, haggr, Except.map, AggrValue.out, AggrCol.selCol, ht] at hnull
  | cons first rest =>
      constructor
      · intro h
        refine ⟨by simp, ?_⟩
        have hfull := h fun _ => -1
        obtain ⟨text', hrun, hfrom, hempty⟩ := extremum_max_full ops (first :: rest) ht (c.readText first) 1
        simp only [aggregateValue, haggr, toValue, ht, bind, Except.bind, hrun, Except.map,
          Except.ok.injEq] at hfull
        refine (hempty ?_).2
        rcases hfrom with rfl | ⟨record, rfl⟩
        · exact text_out_inj hfull
        · exact text_out_inj hfull
      · rintro ⟨-, hall⟩ strLen
        obtain ⟨n', hrun⟩ := extremum_max_empty ops strLen (strLen 0) 1 ht hall
        simp only [aggregateValue, haggr, toValue, ht, bind, Except.bind,
          hall first List.mem_cons_self, hrun, Except.map]
        rfl

end TextColumns

section Sums

theorem count_value (haggr : c.aggr = .count) :
    (aggregateValue ops strLen c records).map (AggrValue.out ops c) = .ok (streamOut ops c records) := by
  have hinit : initValue ops c = .int 0 := by simp [initValue, AggrCol.selCol, haggr]
  have hstream : records.foldl (updated ops c) (.int 0) = .int (records.foldl (fun v _ => v + 1) 0) :=
    foldl_int fun v record => by
      unfold updated updateValue
      rw [haggr]
  rw [streamOut, hinit, hstream, AggregationExecutor.foldl_count, Int32.zero_add]
  simp only [aggregateValue, haggr]
  rfl

theorem sum_int (haggr : c.aggr = .sum) (ht : c.col.type = .int) :
    (aggregateValue ops strLen c records).map (AggrValue.out ops c) = .ok (streamOut ops c records) := by
  have hinit : initValue ops c = .int 0 := by simp [initValue, AggrCol.selCol, haggr, ht]
  have hstream : records.foldl (updated ops c) (.int 0) =
      .int (records.foldl (fun sum record => sum + c.readInt record) 0) :=
    foldl_int fun v record => by
      unfold updated updateValue
      rw [haggr, ht]
  rw [streamOut, hinit, hstream]
  simp only [aggregateValue, haggr, sumValue, ht]
  rfl

variable {isFloat : Bool} {sum : F}

theorem numeral_bytes {record : Bytes} {b : UInt8} (h : b ∈ numeral c record) :
    (48 ≤ b ∧ b ≤ 57) ∨ b = 46 := by
  simpa using List.mem_takeWhile_imp h

theorem sumTexts_zero (isFloat : Bool) (hl : ops.Lawful)
    (h : ∀ record ∈ records, numeral c record = [] ∨ ops.stof (numeral c record) = some ops.zero) :
    ∃ isFloat', sumTexts ops c isFloat ops.zero records = .ok (isFloat', ops.zero) := by
  have hzero : ops.add ops.zero ops.zero = ops.zero :=
    (hl.add_eq_zero _ _ hl.nonneg_zero hl.nonneg_zero).2 ⟨rfl, rfl⟩
  induction records generalizing isFloat with
  | nil => exact ⟨isFloat, rfl⟩
  | cons record records ih =>
      obtain ⟨isFloat', hrun⟩ := ih (isFloat || (numeral c record).contains 46)
        fun r hr => h r (List.mem_cons_of_mem _ hr)
      refine ⟨isFloat', ?_⟩
      rw [sumTexts]
      split
      · exact hrun
      · rename_i hne
        rw [(h record List.mem_cons_self).resolve_left hne]
        simp only [hzero]
        exact hrun

theorem sumTexts_spec (hl : ops.Lawful) (hnn : hl.nonneg sum) (hwhole : isFloat = false → hl.whole sum)
    {isFloat' : Bool} {x : F} (h : sumTexts ops c isFloat sum records = .ok (isFloat', x)) :
    hl.nonneg x ∧ (isFloat' = false → hl.whole x) ∧ (x = ops.zero → sum = ops.zero ∧
      ∀ record ∈ records, numeral c record = [] ∨ ops.stof (numeral c record) = some ops.zero) := by
  induction records generalizing isFloat sum with
  | nil =>
      cases h
      exact ⟨hnn, hwhole, fun hx => ⟨hx, nofun⟩⟩
  | cons record records ih =>
      rw [sumTexts] at h
      split at h
      · rename_i hnil
        have hwhole' : (isFloat || (numeral c record).contains 46) = false → hl.whole sum :=
          fun hf => hwhole (Bool.or_eq_false_iff.1 hf).1
        obtain ⟨hx, hxw, hzero⟩ := ih hnn hwhole' h
        refine ⟨hx, hxw, fun h0 => ⟨(hzero h0).1, fun r hr => ?_⟩⟩
        rcases List.mem_cons.1 hr with rfl | hr
        · exact .inl hnil
        · exact (hzero h0).2 r hr
      · split at h
        · cases h
        · rename_i y hy
          have hny : hl.nonneg y := hl.nonneg_stof _ _ (fun b hb => numeral_bytes hb) hy
          have hwhole' : (isFloat || (numeral c record).contains 46) = false → hl.whole (ops.add sum y) := by
            intro hf
            obtain ⟨hf, hpoint⟩ := Bool.or_eq_false_iff.1 hf
            refine hl.whole_add _ _ (hwhole hf) (hl.whole_stof _ _ (fun b hb => ?_) hy)
            refine (numeral_bytes hb).resolve_right ?_
            rintro rfl
            rw [List.contains_iff_mem.2 hb] at hpoint
            cases hpoint
          obtain ⟨hx, hxw, hzero⟩ := ih (hl.nonneg_add _ _ hnn hny) hwhole' h
          refine ⟨hx, hxw, fun h0 => ?_⟩
          obtain ⟨hsum, hrest⟩ := hzero h0
          obtain ⟨h1, rfl⟩ := (hl.add_eq_zero _ _ hnn hny).1 hsum
          refine ⟨h1, fun r hr => ?_⟩
          rcases List.mem_cons.1 hr with rfl | hr
          · exact .inr hy
          · exact hrest r hr

theorem sum_text (hl : ops.Lawful) (haggr : c.aggr = .sum) (ht : c.col.type = .string) :
    (aggregateValue ops strLen c records).map (AggrValue.out ops c) = .ok (streamOut ops c records) ↔
      ∀ record ∈ records, numeral c record = [] ∨ ops.stof (numeral c record) = some ops.zero := by
  have hinit : initValue ops c = .int 0 := by simp [initValue, AggrCol.selCol, haggr, ht]
  have hstream : streamOut ops c records = ⟨.int, [0, 0, 0, 0]⟩ := by
    rw [streamOut, hinit, foldl_fixed]
    · simp only [AggrValue.out, AggrValue.raw, AggrCol.selCol, haggr, ht, if_true]
      rfl
    · intro record
      unfold updated updateValue
      rw [haggr, ht]
  have hout : ∀ (isFloat : Bool) (x : F),
    (if isFloat then AggrValue.float x else AggrValue.int (ops.toInt x)).out ops c =
      ⟨.int, if isFloat then wordBytes (ops.word x) else intBytes (ops.toInt x)⟩ := by
    intro isFloat x
    cases isFloat <;> simp [AggrValue.out, AggrValue.raw, AggrCol.selCol, haggr, ht]
  rw [hstream]
  simp only [aggregateValue, haggr, sumValue, ht]
  constructor
  · intro h
    cases hsum : sumTexts ops c false ops.zero records with
    | error e => simp [hsum, bind, Except.bind, Except.map] at h
    | ok res =>
        obtain ⟨isFloat, x⟩ := res
        obtain ⟨hx, hxw, hzero⟩ := sumTexts_spec hl hl.nonneg_zero (fun _ => hl.whole_zero) hsum
        simp only [hsum, bind, Except.bind, pure, Except.pure, Except.map, hout,
          Except.ok.injEq, OutCol.mk.injEq, true_and] at h
        refine (hzero ?_).2
        cases isFloat with
        | true => exact (hl.word_eq_zero x hx).1 h
        | false =>
            refine (hl.toInt_eq_zero x hx (hxw rfl)).1 ?_
            have hread := congrArg Rmdb.readInt h
            simp only [Bool.false_eq_true, if_false, readInt_intBytes] at hread
            exact Int32.toInt_inj.1 hread
  · intro h
    obtain ⟨isFloat, hsum⟩ := sumTexts_zero false hl h
    simp only [hsum, bind, Except.bind, pure, Except.pure, Except.map, hout]
    cases isFloat with
    | true => simp [(hl.word_eq_zero _ hl.nonneg_zero).2 rfl]
    | false =>
        rw [(hl.toInt_eq_zero _ hl.nonneg_zero hl.whole_zero).2 rfl]
        rfl

end Sums

theorem valueAgrees_iff (hl : ops.Lawful) (hc : c.Plain) :
    (∀ strLen, (aggregateValue ops strLen c records).map (AggrValue.out ops c) =
      .ok (streamOut ops c records)) ↔
      ValueAgrees ops c records := by
  obtain ⟨hnone, ht⟩ := hc
  have hempty : ∀ aggr, c.aggr = aggr → aggr = .max ∨ aggr = .min → c.col.type = .int → records = [] →
      ¬ ∀ strLen, (aggregateValue ops strLen c records).map (AggrValue.out ops c) =
        .ok (streamOut ops c records) := by
    rintro aggr haggr hor ht rfl h
    have hnull := h fun _ => 0
    rcases hor with rfl | rfl <;>
      simp [aggregateValue, haggr, Except.map, AggrValue.out, streamOut, initValue,
        AggrCol.selCol, ht] at hnull
  rw [ValueAgrees]
  cases haggr : c.aggr with
  | none => exact absurd haggr hnone
  | count => exact iff_of_true (fun _ => count_value haggr) trivial
  | sum =>
      rcases ht with ⟨ht, -⟩ | ht
      · rw [ht]
        exact iff_of_true (fun _ => sum_int haggr ht) trivial
      · rw [ht]
        exact ⟨fun h => (sum_text hl haggr ht).1 (h fun _ => 0), fun h _ => (sum_text hl haggr ht).2 h⟩
  | max =>
      rcases ht with ⟨ht, -⟩ | ht
      · rw [ht]
        exact ⟨fun h hnil => hempty _ haggr (.inl rfl) ht hnil h, fun h _ => max_int haggr ht h⟩
      · rw [ht]
        exact max_text haggr ht
  | min =>
      rcases ht with ⟨ht, -⟩ | ht
      · rw [ht]
        exact ⟨fun h hnil => hempty _ haggr (.inr rfl) ht hnil h, fun h _ => min_int haggr ht h⟩
      · rw [ht]
        exact min_text haggr ht

/-- The two implementations agree exactly where each of the columns does. -/
theorem aggregates_agree_iff (ops : FloatOps F) (hl : ops.Lawful) (selCols : List AggrCol)
    (records : List Bytes) (hplain : ∀ c ∈ selCols, c.Plain) :
    AggregatesAgree ops selCols records ↔ ∀ c ∈ selCols, ValueAgrees ops c records := by
  have hnone : ∀ c ∈ selCols, c.aggr ≠ .none := fun c hc => (hplain c hc).1
  constructor
  · rintro ⟨h, -⟩ c hc
    refine (valueAgrees_iff hl (hplain c hc)).1 fun strLen => ?_
    obtain ⟨k, hk⟩ := List.mem_iff_getElem?.1 hc
    have hrow := h fun _ => strLen
    rw [streamRow_eq hnone] at hrow
    exact collectRow_eq.1 hrow.symm k c hk
  · intro h
    refine ⟨fun strLen => ?_, ?_⟩
    · rw [streamRow_eq hnone]
      refine (collectRow_eq.2 fun k c hk => ?_).symm
      have hc := List.mem_of_getElem? hk
      exact (valueAgrees_iff hl (hplain c hc)).2 (h c hc) _
    · rintro rfl
      refine ⟨_, streamRow_eq hnone,
        List.forall₂_map_right_iff.2 (List.forall₂_same.2 fun c hc => ⟨fun hor => ?_, fun haggr => ?_⟩)⟩
      · -- an extreme of no record does not agree
        have hagree := h c hc
        rcases hor with haggr | haggr <;> rcases (hplain c hc).2 with ⟨ht, -⟩ | ht <;>
          simp [ValueAgrees, haggr, ht] at hagree
      · simp [streamOut, initValue, AggrCol.selCol, haggr, AggrValue.out, AggrValue.raw]

end Agreement

section Example

def zeroOrNot : FloatOps Bool where
  zero := false
  maxFinite := true
  minNormal := true
  add a b := a || b
  lt a b := !a && b
  ofWord w := w % 2147483648 ≠ 0
  word a := if a then 1065353216 else 0
  toInt a := if a then 1 else 0
  stof w := if w.any fun b => 48 ≤ b ∧ b ≤ 57 then some (w.any fun b => 49 ≤ b ∧ b ≤ 57) else none

def zeroOrNot_lawful : zeroOrNot.Lawful where
  nonneg _ := True
  whole _ := True
  nonneg_zero := trivial
  whole_zero := trivial
  nonneg_stof _ _ _ _ := trivial
  whole_stof _ _ _ _ := trivial
  nonneg_add _ _ _ _ := trivial
  whole_add _ _ _ _ := trivial
  add_eq_zero x y _ _ := by cases x <;> cases y <;> simp [zeroOrNot]
  word_eq_zero x _ := by cases x <;> decide
  toInt_eq_zero x _ _ := by cases x <;> decide

/-- `SUM(a), MAX(a), SUM(b)` over the rows `(5, '0')` and `(7, 'x')`. -/
theorem aggregates_agree_iff_numbers : AggregatesAgree zeroOrNot
    [⟨⟨"t", "a", .int, 4, 0⟩, .sum⟩, ⟨⟨"t", "a", .int, 4, 0⟩, .max⟩, ⟨⟨"t", "b", .string, 2, 4⟩, .sum⟩]
    [[5, 0, 0, 0, 48, 0], [7, 0, 0, 0, 120, 0]] := by
  refine (aggregates_agree_iff zeroOrNot zeroOrNot_lawful _ _ ?_).2 ?_
  · simp [AggrCol.Plain]
  · simp only [List.mem_cons, List.not_mem_nil, or_false]
    rintro c (rfl | rfl | rfl)
    · trivial
    · simp [ValueAgrees]
    · simp only [ValueAgrees, List.mem_cons, List.not_mem_nil, or_false]
      rintro record (rfl | rfl)
      · exact .inr (by decide)
      · exact .inl (by decide)

/-- `MIN(c)` over the one row `'b'` is the empty text without `GROUP BY`. -/
theorem min_text_lost : AggrCol.Plain ⟨⟨"t", "c", .string, 1, 0⟩, .min⟩ ∧
    ¬ AggregatesAgree zeroOrNot [⟨⟨"t", "c", .string, 1, 0⟩, .min⟩] [[98]] := by
  refine ⟨⟨by decide, .inr rfl⟩, fun h => ?_⟩
  have hstream : streamRow zeroOrNot [⟨⟨"t", "c", .string, 1, 0⟩, .min⟩] [[98]] = .ok [⟨.string, [0]⟩] := by
    decide
  have hcollect : collectRow zeroOrNot (fun _ _ => 0) [[98]] 0 [⟨⟨"t", "c", .string, 1, 0⟩, .min⟩] =
      .ok [⟨.string, [98]⟩] := by
    decide
  have hrow := h.1 fun _ _ => 0
  rw [hstream, hcollect] at hrow
  exact absurd (Except.ok.inj hrow) (by decide)

end Example

end Rmdb
