import Rmdb.Execution.Condition
import Mathlib.Data.List.TakeWhile

namespace Rmdb

open Value ConditionCheck

def CompOp.holds {α : Type} [LinearOrder α] (op : CompOp) (a b : α) : Bool :=
  match op with
  | .eq => a = b
  | .ne => a ≠ b
  | .lt => a < b
  | .gt => b < a
  | .le => a ≤ b
  | .ge => b ≤ a

theorem CompOp.holds_le {α : Type} [LinearOrder α] (a b : α) : CompOp.le.holds a b = !decide (b < a) := by
  rw [CompOp.holds, ← decide_not]
  exact decide_eq_decide.2 not_lt.symm

theorem CompOp.holds_ge {α : Type} [LinearOrder α] (a b : α) : CompOp.ge.holds a b = !decide (a < b) := by
  rw [CompOp.holds, ← decide_not]
  exact decide_eq_decide.2 not_lt.symm

/-- The text that stands at a column: up to its NUL, if need be over the end of the column. -/
def columnText (col : ColMeta) (record : Bytes) : Bytes := (record.drop col.offset).takeWhile (· ≠ 0)

def columnValue (col : ColMeta) (record : Bytes) : Bytes :=
  ((record.drop col.offset).take col.len).takeWhile (· ≠ 0)

section Lex

variable {a b : List Int} {k : Nat}

theorem lt_of_take_lt (h : a.take k < b.take k) : a < b := by
  induction k generalizing a b with
  | zero => simp at h
  | succ k ih =>
      cases b with
      | nil => simp at h
      | cons y b =>
          cases a with
          | nil => exact List.nil_lt_cons y b
          | cons x a =>
              rw [List.take_succ_cons, List.take_succ_cons, List.cons_lt_cons_iff] at h
              rw [List.cons_lt_cons_iff]
              exact h.imp id fun h => ⟨h.1, ih h.2⟩

end Lex

namespace Value

variable {a b : Bytes} {n : Nat} {len : Int}

theorem unsignedBytes_inj : unsignedBytes a = unsignedBytes b ↔ a = b := by
  refine (List.map_injective_iff.2 ?_).eq_iff
  intro x y h
  exact UInt8.toNat_inj.1 (by simpa using h)

theorem unsignedBytes_take : unsignedBytes (a.take n) = (unsignedBytes a).take n := List.map_take

theorem compareFirst_order (ha : 0 ∉ a) (hb : 0 ∉ b) :
    (compareFirst n a b < 0 ↔ unsignedBytes (a.take n) < unsignedBytes (b.take n)) ∧
      (compareFirst n a b = 0 ↔ a.take n = b.take n) := by
  induction n generalizing a b with
  | zero => simp [compareFirst, unsignedBytes]
  | succ n ih =>
      cases a with
      | nil =>
          cases b with
          | nil => simp [compareFirst, unsignedBytes]
          | cons y b =>
              have hy : 0 < y := UInt8.pos_iff_ne_zero.2 fun hc => hb (hc ▸ List.mem_cons_self)
              simp [compareFirst, hy, unsignedBytes]
      | cons x a =>
          have hx : 0 < x := UInt8.pos_iff_ne_zero.2 fun hc => ha (hc ▸ List.mem_cons_self)
          cases b with
          | nil =>
              have hx' : ¬ x < 0 := UInt8.not_lt_zero
              simp [compareFirst, hx, hx', unsignedBytes]
          | cons y b =>
              obtain ⟨hlt, heq⟩ := ih (a := a) (b := b) (fun hc => ha (List.mem_cons_of_mem x hc))
                fun hc => hb (List.mem_cons_of_mem y hc)
              have hne : x ≠ 0 := UInt8.pos_iff_ne_zero.1 hx
              have hxy : (x < y ↔ (x.toNat : Int) < y.toNat) ∧ (y < x ↔ (y.toNat : Int) < x.toNat) ∧
                  (x = y ↔ (x.toNat : Int) = y.toNat) := by
                refine ⟨?_, ?_, ?_⟩
                · rw [UInt8.lt_iff_toNat_lt]; omega
                · rw [UInt8.lt_iff_toNat_lt]; omega
                · rw [← UInt8.toNat_inj]; omega
              simp only [compareFirst, List.headD_cons, List.tail_cons, List.take_succ_cons,
                unsignedBytes, List.map_cons, List.cons_lt_cons_iff, List.cons.injEq, hxy.1, hxy.2.1,
                hxy.2.2, hne, if_false] at hlt heq ⊢
              rcases lt_trichotomy (x.toNat : Int) y.toNat with h | h | h
              · rw [if_pos h]
                simp [h, h.ne]
              · rw [if_neg (by omega), if_neg (by omega)]
                simp [h, hlt, heq]
              · rw [if_neg (by omega), if_pos h]
                have hle : y.toNat ≤ x.toNat := by omega
                exact ⟨by simp [hle, h.ne'], by simp [h.ne']⟩

def span (a b : Bytes) (n : Int) : Nat := if n < 0 then a.length + b.length + 1 else n.toNat

theorem strncmp_order (ha : 0 ∉ a) (hb : 0 ∉ b) (len : Int) :
    (strncmp a b len < 0 ↔ (unsignedBytes a).take (span a b len) < (unsignedBytes b).take (span a b len)) ∧
      (strncmp a b len = 0 ↔ a.take (span a b len) = b.take (span a b len)) := by
  rw [← unsignedBytes_take, ← unsignedBytes_take]
  exact compareFirst_order ha hb

end Value

section Column

variable {col : ColMeta} {record s : Bytes} {op : CompOp} {n : Int}

theorem columnText_take : (columnText col record).take col.len = columnValue col record := List.take_takeWhile

theorem zero_notMem_columnText : 0 ∉ columnText col record := by
  intro hc
  have := List.mem_takeWhile_imp hc
  simp at this

theorem checkSingleCondition_string (htype : col.type = .string) :
    checkSingleCondition ⟨col, op, .val (.string s n)⟩ record =
      op.check (.string (columnText col record) col.len) (.string s n) := by
  simp only [checkSingleCondition, buildValue, htype, bind, Except.bind, promote, Value.type,
    if_true, columnText]

variable (hs : 0 ∉ s) (hlen : s.length ≤ col.len)

include hs hlen

theorem columnText_order (record : Bytes) : (strncmp (columnText col record) s col.len < 0 ↔
      unsignedBytes (columnValue col record) < unsignedBytes s) ∧
    (strncmp (columnText col record) s col.len = 0 ↔ columnValue col record = s) := by
  have hspan : span (columnText col record) s col.len = col.len := by
    rw [span, if_neg (by omega), Int.toNat_natCast]
  have hzero : 0 ∉ columnText col record := zero_notMem_columnText
  obtain ⟨hlt, heq⟩ := strncmp_order hzero hs col.len
  rw [hspan] at hlt heq
  rw [columnText_take, List.take_of_length_le hlen] at heq
  rw [← unsignedBytes_take, ← unsignedBytes_take, columnText_take, List.take_of_length_le hlen] at hlt
  exact ⟨hlt, heq⟩

/-- With the literal on the left, the unset length decides: only a text that is not above the literal is
compared rightly for every length. -/
theorem literal_order_iff (record : Bytes) : (∀ n, strncmp s (columnText col record) n < 0 ↔
      unsignedBytes s < unsignedBytes (columnValue col record)) ↔
    unsignedBytes (columnText col record) ≤ unsignedBytes s := by
  have hzero : 0 ∉ columnText col record := zero_notMem_columnText
  have hval : unsignedBytes (columnValue col record) =
      (unsignedBytes (columnText col record)).take col.len := by
    rw [← columnText_take, unsignedBytes_take]
  have hlit : unsignedBytes s = (unsignedBytes s).take col.len := by
    rw [← unsignedBytes_take, List.take_of_length_le hlen]
  constructor
  · intro h
    have hnone : ¬ unsignedBytes s < unsignedBytes (columnValue col record) := by
      rw [← h 0, (strncmp_order hs hzero 0).1]
      simp [span]
    have hwhole := (strncmp_order hs hzero (-1)).1
    rw [h (-1), List.take_of_length_le (by simp [span, unsignedBytes]; omega),
      List.take_of_length_le (by simp [span, unsignedBytes]; omega)] at hwhole
    exact not_lt.1 fun hc => hnone (hwhole.2 hc)
  · intro h n
    rw [(strncmp_order hs hzero n).1]
    refine iff_of_false (fun hc => not_lt.2 h (lt_of_take_lt hc)) fun hc => not_lt.2 h ?_
    rw [hval] at hc
    exact lt_of_take_lt (hlit ▸ hc)

end Column

def charCol : ColMeta := ⟨"t", "c", .string, 4, 0⟩

end Rmdb
