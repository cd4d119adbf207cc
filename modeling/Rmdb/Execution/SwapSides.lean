import Rmdb.Execution.ColumnOrder

namespace Rmdb

open Value ConditionCheck

section Compare

variable {a b : Bytes} {n k : Nat}

theorem headD_takeWhile : (a.takeWhile (· ≠ 0)).headD 0 = a.headD 0 := by
  cases a with
  | nil => rfl
  | cons c a =>
      by_cases hc : c = 0
      · simp [hc]
      · simp [hc]

theorem tail_takeWhile (h : a.headD 0 ≠ 0) : (a.takeWhile (· ≠ 0)).tail = a.tail.takeWhile (· ≠ 0) := by
  cases a with
  | nil => rfl
  | cons c a =>
      have hc : c ≠ 0 := h
      rw [List.takeWhile_cons_of_pos (by simpa using hc), List.tail_cons, List.tail_cons]

/-- The comparison stops at the first NUL by itself. -/
theorem compareFirst_takeWhile :
    compareFirst n (a.takeWhile (· ≠ 0)) (b.takeWhile (· ≠ 0)) = compareFirst n a b := by
  induction n generalizing a b with
  | zero => rfl
  | succ n ih =>
      rw [compareFirst, compareFirst, headD_takeWhile, headD_takeWhile]
      split
      · rfl
      · split
        · rfl
        · split
          · rfl
          · rename_i hlt hgt ha
            have heq : a.headD 0 = b.headD 0 := UInt8.le_antisymm (UInt8.not_lt.1 hgt) (UInt8.not_lt.1 hlt)
            rw [tail_takeWhile ha, tail_takeWhile (heq ▸ ha), ih]

/-- Texts agree over `n + 1` bytes if they begin with the same byte and end there or go on alike. -/
theorem compareFirst_succ : compareFirst (n + 1) a b = 0 ↔
    a.headD 0 = b.headD 0 ∧ (a.headD 0 = 0 ∨ compareFirst n a.tail b.tail = 0) := by
  rw [compareFirst]
  generalize a.headD 0 = x, b.headD 0 = y
  by_cases hlt : x < y
  · simp [hlt, UInt8.ne_of_lt hlt]
  · by_cases hgt : y < x
    · simp [hlt, hgt, (UInt8.ne_of_lt hgt).symm]
    · have heq : x = y := UInt8.le_antisymm (UInt8.not_lt.1 hgt) (UInt8.not_lt.1 hlt)
      by_cases hzero : y = 0 <;> simp [heq, hzero]

theorem compareFirst_comm : compareFirst n a b = 0 ↔ compareFirst n b a = 0 := by
  induction n generalizing a b with
  | zero => rfl
  | succ n ih =>
      rw [compareFirst_succ, compareFirst_succ, ih]
      constructor
      · rintro ⟨heq, h⟩
        exact ⟨heq.symm, heq ▸ h⟩
      · rintro ⟨heq, h⟩
        exact ⟨heq.symm, heq ▸ h⟩

/-- A longer comparison finds the same unless the shorter one has met no NUL. -/
theorem compareFirst_add : compareFirst (n + k) a b = 0 ↔
    compareFirst n a b = 0 ∧ (0 ∈ firstBytes n a ∨ compareFirst k (a.drop n) (b.drop n) = 0) := by
  induction n generalizing a b with
  | zero => simp [compareFirst, firstBytes]
  | succ n ih =>
      rw [Nat.add_right_comm, compareFirst_succ, compareFirst_succ, ih, firstBytes,
        List.mem_cons, ← List.drop_tail, ← List.drop_tail, eq_comm (a := (0 : UInt8))]
      tauto

theorem compareFirst_filled (h : 0 ∉ firstBytes n a) :
    compareFirst n a b = 0 ↔ firstBytes n b = firstBytes n a := by
  induction n generalizing a b with
  | zero => simp [compareFirst, firstBytes]
  | succ n ih =>
      rw [firstBytes, List.mem_cons, not_or] at h
      rw [compareFirst_succ, ih h.2, firstBytes, firstBytes, List.cons.injEq, eq_comm (a := a.headD 0),
        or_iff_right (Ne.symm h.1)]

end Compare

/-- The field of `s` is filled completely, the longer field of `l` begins with the same bytes, and behind
them it does not go on as the record does behind `s`. -/
def Overruns (s l : ColMeta) (record : Bytes) : Prop :=
  s.len < l.len ∧ 0 ∉ firstBytes s.len (record.drop s.offset) ∧
    firstBytes s.len (record.drop l.offset) = firstBytes s.len (record.drop s.offset) ∧
    compareFirst (l.len - s.len) (record.drop (s.offset + s.len)) (record.drop (l.offset + s.len)) ≠ 0

instance (s l : ColMeta) (record : Bytes) : Decidable (Overruns s l record) :=
  inferInstanceAs (Decidable (_ ∧ _ ∧ _ ∧ _))

/-- Turning the condition round does not matter: `<`, `>`, `<=` and `>=` compare from the same side
both times, and `=` and `<>` find the same over both lengths. -/
def Swappable (op : CompOp) (a b : ColMeta) (record : Bytes) : Prop :=
  op = .eq ∨ op = .ne → a.type = .string → ¬ Overruns a b record ∧ ¬ Overruns b a record

section Swap

variable {a b s l : ColMeta} {op : CompOp} {record : Bytes}

def SameOver (n : Nat) (a b : ColMeta) (record : Bytes) : Prop :=
  compareFirst n (record.drop a.offset) (record.drop b.offset) = 0

theorem overruns_iff (hlen : s.len < l.len) :
    Overruns s l record ↔ SameOver s.len s l record ∧ ¬ SameOver l.len s l record := by
  have hsum : l.len = s.len + (l.len - s.len) := by omega
  have hadd :=
    compareFirst_add (n := s.len) (k := l.len - s.len) (a := record.drop s.offset)
      (b := record.drop l.offset)
  rw [← hsum, List.drop_drop, List.drop_drop] at hadd
  rw [Overruns, SameOver, SameOver, hadd]
  by_cases hzero : 0 ∈ firstBytes s.len (record.drop s.offset)
  · simp [hzero]
  · rw [compareFirst_filled hzero]
    tauto

/-- The two lengths do not find the same exactly when one of the columns overruns. -/
theorem sameOver_iff : (SameOver a.len a b record ↔ SameOver b.len a b record) ↔
    ¬ Overruns a b record ∧ ¬ Overruns b a record := by
  have hcomm : ∀ n, SameOver n b a record ↔ SameOver n a b record := fun n => compareFirst_comm
  have hshort : ∀ {c d : ColMeta}, c.len < d.len → SameOver d.len c d record → SameOver c.len c d record := by
    intro c d hlen h
    have hsum : d.len = c.len + (d.len - c.len) := by omega
    rw [SameOver, hsum] at h
    exact (compareFirst_add.1 h).1
  have hnot : ∀ {c d : ColMeta}, d.len ≤ c.len → ¬ Overruns c d record := fun hlen h => absurd h.1 (by omega)
  rcases lt_trichotomy a.len b.len with hlen | hlen | hlen
  · rw [overruns_iff hlen, and_iff_left (hnot hlen.le)]
    have := hshort (c := a) (d := b) hlen
    tauto
  · rw [hlen]
    exact iff_of_true Iff.rfl ⟨hnot hlen.ge, hnot hlen.le⟩
  · rw [overruns_iff hlen, and_iff_right (hnot hlen.le), hcomm, hcomm]
    have := hshort (c := b) (d := a) hlen
    rw [hcomm, hcomm] at this
    tauto

/-- Only `=` and `<>` look at the sides differently. -/
theorem check_swap {x y : Value} (heq : op ≠ .eq) (hne : op ≠ .ne) : op.check x y = op.swap.check y x := by
  cases op with
  | eq => exact absurd rfl heq
  | ne => exact absurd rfl hne
  | lt | gt | le | ge => rfl

theorem check_columns {x y : Value} (ha : buildValue a record = .ok x) (hb : buildValue b record = .ok y) :
    checkSingleCondition ⟨a, op, .col b⟩ record = op.check x y := by
  simp only [checkSingleCondition, ha, hb, bind, Except.bind]

def textOf (col : ColMeta) (record : Bytes) : Value :=
  .string ((record.drop col.offset).takeWhile (· ≠ 0)) col.len

theorem buildValue_int (h : a.type = .int) :
    buildValue a record = .ok (.int (Int32.ofInt (readInt (record.drop a.offset)))) := by
  rw [buildValue, h]

theorem buildValue_string (h : a.type = .string) : buildValue a record = .ok (textOf a record) := by
  rw [buildValue, h]
  rfl

instance (n : Nat) (a b : ColMeta) (record : Bytes) : Decidable (SameOver n a b record) :=
  inferInstanceAs (Decidable (_ = _))

theorem eq_textOf : (textOf a record).eq (textOf b record) = .ok (decide (SameOver a.len a b record)) := by
  rw [textOf, textOf, Value.eq, strncmp, if_neg (by omega), Int.toNat_natCast]
  simp only [compareFirst_takeWhile]
  rfl

theorem eq_textOf_swap : (textOf a record).eq (textOf b record) = (textOf b record).eq (textOf a record) ↔
    ¬ Overruns a b record ∧ ¬ Overruns b a record := by
  have hcomm : SameOver b.len b a record ↔ SameOver b.len a b record := compareFirst_comm
  rw [eq_textOf, eq_textOf, ← sameOver_iff, Except.ok.injEq, decide_eq_decide, hcomm]

end Swap

section Example

def pairCol : ColMeta := ⟨"t", "a", .string, 2, 0⟩

def quadCol : ColMeta := ⟨"t", "b", .string, 4, 2⟩

end Example

end Rmdb
