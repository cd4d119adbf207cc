import Mathlib.Data.Sum.Order
import Rmdb.Execution.DecimalLiteral
import Rmdb.Execution.ColumnOrder

namespace Rmdb

open Value ConditionCheck

abbrev CellValue := ℚ ⊕ₗ List Int

namespace ColMeta

/-- What a column of a record holds. What a `FLOAT` column holds is not compared here. -/
def cell (col : ColMeta) (record : Bytes) : CellValue :=
  match col.type with
  | .int => Sum.inlₗ (readInt (record.drop col.offset) : ℚ)
  | .string => Sum.inrₗ (unsignedBytes (columnValue col record))
  | .float | .null => Sum.inrₗ []

def shift (n : Nat) (col : ColMeta) : ColMeta := { col with offset := col.offset + n }

structure Inside (col : ColMeta) (n : Nat) : Prop where
  bound : col.offset + col.len ≤ n
  width : col.type = .int ∨ col.type = .float → col.len = 4

end ColMeta

/-- The literal as it is written: a decimal keeps its fraction. -/
def Value.cell : Value → CellValue
  | .int v => Sum.inlₗ (v.toInt : ℚ)
  | .float x => (floatRat x).elim (Sum.inrₗ []) Sum.inlₗ
  | .string s _ => Sum.inrₗ (unsignedBytes s)

/-- On an `INT` column the literal is compared as the number it stands for: the fraction of a decimal, which
is cut off, changes nothing for the operator. -/
def Value.Exact (op : CompOp) : Value → Prop
  | .int _ => True
  | .float x => ∃ q, floatRat x = some q ∧ -2147483648 ≤ q ∧ q ≤ 2147483647 ∧
      (q = integerPart q ∨ (op = .lt ∨ op = .ge) ∧ q < 0 ∨ (op = .gt ∨ op = .le) ∧ 0 < q)
  | .string _ _ => False

def FedRhs.cell (record : Bytes) : FedRhs → CellValue
  | .val v => v.cell
  | .col c => c.cell record

/-- The comparisons that look at nothing but the cells: of numbers, of text columns of one length,
and of a text column with a literal that fits and stays on the right side. -/
inductive FedCond.Plain : FedCond → Prop
  | number {col : ColMeta} {op : CompOp} {v : Int32} (htype : col.type = .int) :
      Plain ⟨col, op, .val (.int v)⟩
  | numbers {col c : ColMeta} {op : CompOp} (htype : col.type = .int) (htype' : c.type = .int) :
      Plain ⟨col, op, .col c⟩
  | text {col : ColMeta} {op : CompOp} {s : Bytes} {n : Int} (htype : col.type = .string) (hs : 0 ∉ s)
      (hlen : s.length ≤ col.len)
      (hop : op ≠ .gt ∧ op ≠ .le) : Plain ⟨col, op, .val (.string s n)⟩
  | texts {col c : ColMeta} {op : CompOp} (htype : col.type = .string) (htype' : c.type = .string)
      (hlen : c.len = col.len) :
      Plain ⟨col, op, .col c⟩

section Check

variable {op : CompOp} {col c : ColMeta} {record a b s : Bytes} {n : Int}

/-- Where `==` and `<` are those of an order, all operators are. -/
theorem CompOp.check_order {α : Type} [LinearOrder α] {lhs rhs : Value} {x y : α}
    (heq : lhs.eq rhs = .ok (decide (x = y))) (hlt : lhs.lt rhs = .ok (decide (x < y)))
    (hgt : rhs.lt lhs = .ok (decide (y < x))) : op.check lhs rhs = .ok (op.holds x y) := by
  cases op with
  | eq => exact heq
  | ne => simp [CompOp.check, heq, CompOp.holds, Functor.map, Except.map]
  | lt => exact hlt
  | gt => exact hgt
  | le => simp only [CompOp.check, hgt, CompOp.holds_le, Functor.map, Except.map]
  | ge => simp only [CompOp.check, hlt, CompOp.holds_ge, Functor.map, Except.map]

theorem holds_number (p q : ℚ) : op.holds (Sum.inlₗ p : CellValue) (Sum.inlₗ q) = op.holds p q :=
  CompOp.holds_congr Sum.Lex.inl_lt_inl_iff Sum.Lex.inl_lt_inl_iff

theorem holds_text (x y : List Int) : op.holds (Sum.inrₗ x : CellValue) (Sum.inrₗ y) = op.holds x y :=
  CompOp.holds_congr Sum.Lex.inr_lt_inr_iff Sum.Lex.inr_lt_inr_iff

theorem check_numbers (v w : Int32) :
    op.check (.int v) (.int w) =
      .ok (op.holds (Sum.inlₗ (v.toInt : ℚ) : CellValue) (Sum.inlₗ (w.toInt : ℚ))) := by
  rw [holds_number, CompOp.holds_congr (α := ℚ) (β := ℤ) Int.cast_lt Int.cast_lt, CompOp.check_int]

theorem Value.Exact.cast {v : Value} (h : v.Exact op) : ∃ i, v.valueCast .int = .ok (.int i) ∧
    ∀ a : ℤ, op.holds (Sum.inlₗ (a : ℚ)) (Value.int i).cell = op.holds (Sum.inlₗ (a : ℚ)) v.cell := by
  cases v with
  | int i => exact ⟨i, rfl, fun _ => rfl⟩
  | float x =>
      obtain ⟨q, hq, hlo, hhi, hfraction⟩ := h
      refine ⟨floatToInt x, rfl, fun a => ?_⟩
      have hsame : op.holds a (integerPart q) = op.holds (a : ℚ) q :=
        holds_integerPart_iff.2 (hfraction.imp_right .inr)
      rw [Value.cell, Value.cell, hq, Option.elim_some, holds_number, holds_number,
        floatToInt_spec hq hlo hhi, ← hsame]
      exact CompOp.holds_congr Int.cast_lt Int.cast_lt
  | string s n => exact h.elim

theorem check_texts (ha : 0 ∉ a) (hb : 0 ∉ b) (len : Nat) :
    op.check (.string a len) (.string b len) =
      .ok (op.holds (unsignedBytes (a.take len)) (unsignedBytes (b.take len))) := by
  have horder : ∀ a b : Bytes, 0 ∉ a → 0 ∉ b →
    (strncmp a b len < 0 ↔ unsignedBytes (a.take len) < unsignedBytes (b.take len)) ∧
      (strncmp a b len = 0 ↔ unsignedBytes (a.take len) = unsignedBytes (b.take len)) := by
    intro a b ha hb
    have h := strncmp_order ha hb len
    rw [span, if_neg (by omega), Int.toNat_natCast] at h
    rw [unsignedBytes_inj, unsignedBytes_take, unsignedBytes_take]
    exact h
  refine CompOp.check_order ?_ ?_ ?_
  · exact congrArg _ (decide_eq_decide.2 (horder a b ha hb).2)
  · exact congrArg _ (decide_eq_decide.2 (horder a b ha hb).1)
  · exact congrArg _ (decide_eq_decide.2 (horder b a hb ha).1)

theorem check_literal_text (hs : 0 ∉ s) (hlen : s.length ≤ col.len) (hop : op ≠ .gt ∧ op ≠ .le) :
    op.check (.string (columnText col record) col.len) (.string s n) =
      .ok (op.holds (unsignedBytes (columnValue col record)) (unsignedBytes s)) := by
  obtain ⟨hlt, heq⟩ := columnText_order hs hlen record
  cases op with
  | gt => exact absurd rfl hop.1
  | le => exact absurd rfl hop.2
  | eq => simp [CompOp.check, CompOp.holds, Value.eq, heq, unsignedBytes_inj]
  | ne => simp [CompOp.check, CompOp.holds, Value.eq, heq, unsignedBytes_inj, Functor.map, Except.map]
  | lt => simp [CompOp.check, CompOp.holds, Value.lt, hlt]
  | ge => simp [CompOp.check, CompOp.holds_ge, Value.lt, hlt, Functor.map, Except.map]

theorem checkSingleCondition_plain {fed : FedCond} (h : fed.Plain) (record : Bytes) :
    checkSingleCondition fed record =
      .ok (fed.op.holds (fed.lhsMatchCol.cell record) (fed.rhs.cell record)) := by
  cases h with
  | number htype =>
      simp only [checkSingleCondition, buildValue, htype, promote, Value.type, if_true,
        ColMeta.cell, FedRhs.cell, Value.cell, check_numbers, toInt_readInt, bind, Except.bind]
  | numbers htype htype' =>
      simp only [checkSingleCondition, buildValue, htype, htype', ColMeta.cell, FedRhs.cell,
        check_numbers, toInt_readInt, bind, Except.bind]
  | text htype hs hlen hop =>
      rw [checkSingleCondition_string htype, check_literal_text hs hlen hop]
      simp only [ColMeta.cell, htype, FedRhs.cell, Value.cell, holds_text]
  | @texts col c op htype htype' hlen =>
      have hzero : ∀ col : ColMeta, 0 ∉ columnText col record := fun _ => zero_notMem_columnText
      have hcheck : op.check (.string (columnText col record) col.len)
          (.string (columnText c record) col.len) = _ :=
        check_texts (hzero col) (hzero c) col.len
      rw [columnText_take, ← hlen, columnText_take] at hcheck
      simp only [checkSingleCondition, buildValue, htype, htype', ColMeta.cell, FedRhs.cell, holds_text,
        bind, Except.bind]
      rw [← hlen]
      exact hcheck

end Check

namespace ColMeta

variable {col c : ColMeta} {record record' pre post : Bytes} {n : Nat}

@[simp] theorem shift_type : (col.shift n).type = col.type := rfl

@[simp] theorem shift_len : (col.shift n).len = col.len := rfl

@[simp] theorem shift_offset : (col.shift n).offset = col.offset + n := rfl

@[simp] theorem shift_tabName : (col.shift n).tabName = col.tabName := rfl

@[simp] theorem shift_name : (col.shift n).name = col.name := rfl

theorem Inside.shift (h : col.Inside n) (m : Nat) : (col.shift m).Inside (m + n) :=
  ⟨by have := h.bound; simp only [ColMeta.shift]; omega, h.width⟩

theorem Inside.mono {m : Nat} (h : col.Inside n) (hnm : n ≤ m) : col.Inside m := ⟨h.bound.trans hnm, h.width⟩

theorem slice_shift (hin : col.offset + col.len ≤ record.length) :
    (col.shift pre.length).slice (pre ++ record ++ post) = col.slice record := by
  have hdrop : (pre ++ record ++ post).drop (col.offset + pre.length) = record.drop col.offset ++ post := by
    rw [List.append_assoc, Nat.add_comm, List.drop_append, List.drop_append_of_le_length (by omega)]
    simp
  have hlen : col.len ≤ (record.drop col.offset).length := by
    rw [List.length_drop]
    omega
  rw [slice, slice, shift_len, shift_offset, hdrop, List.take_append_of_le_length hlen]

theorem columnValue_slice : columnValue col record = (col.slice record).takeWhile (· ≠ 0) := rfl

theorem readInt_slice (hin : col.offset + col.len ≤ record.length) (hl : col.len = 4) :
    readInt (col.slice record) = readInt (record.drop col.offset) := by
  rw [slice, hl, readInt_take (by rw [List.length_drop]; omega)]

theorem cell_congr (htype : c.type = col.type) (hlen : c.len = col.len) (hin : col.Inside record.length)
    (hin' : c.Inside record'.length) (h : c.slice record' = col.slice record) :
    c.cell record' = col.cell record := by
  rw [cell, cell, htype]
  cases ht : col.type with
  | int =>
      have hl : col.len = 4 := hin.width (.inl ht)
      simp only [← readInt_slice hin.bound hl, ← readInt_slice hin'.bound (hlen.trans hl), h]
  | string => simp only [columnValue_slice, h]
  | float | null => rfl

end ColMeta

end Rmdb
