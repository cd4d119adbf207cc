import Rmdb.Execution.StringCompare
import Mathlib.Data.Rat.Floor

namespace Rmdb

open Value ConditionCheck

def floatMagnitude (x : Float32) : ℚ := floatDigits x * 2 ^ ((max (floatExponent x) 1 : ℤ) - 150)

/-- The number that a `float` stands for; infinities and NaNs stand for none. -/
def floatRat (x : Float32) : Option ℚ :=
  if floatExponent x = 255 then none
  else if floatNegative x then some (-floatMagnitude x) else some (floatMagnitude x)

def integerPart (q : ℚ) : ℤ := if 0 ≤ q then ⌊q⌋ else ⌈q⌉

section Truncation

variable {x : Float32} {q : ℚ}

theorem floatMagnitude_nonneg (x : Float32) : 0 ≤ floatMagnitude x := by
  rw [floatMagnitude]
  positivity

theorem floor_magnitude (x : Float32) : ⌊floatMagnitude x⌋ =
    ((if 150 ≤ floatExponent x then floatDigits x * 2 ^ (floatExponent x - 150)
      else floatDigits x / 2 ^ (150 - max (floatExponent x) 1) : ℕ) : ℤ) := by
  rw [floatMagnitude]
  split
  · rename_i he
    have hexp : (max (floatExponent x) 1 : ℤ) - 150 = ((floatExponent x - 150 : ℕ) : ℤ) := by omega
    rw [hexp, zpow_natCast]
    have hcast : (floatDigits x : ℚ) * 2 ^ (floatExponent x - 150) =
        ((floatDigits x * 2 ^ (floatExponent x - 150) : ℕ) : ℚ) := by
      push_cast
      rfl
    rw [hcast, Int.floor_natCast]
  · rename_i he
    have hexp : (max (floatExponent x) 1 : ℤ) - 150 = -((150 - max (floatExponent x) 1 : ℕ) : ℤ) := by omega
    rw [hexp, zpow_neg, zpow_natCast, ← div_eq_mul_inv]
    have hcast : (2 : ℚ) ^ (150 - max (floatExponent x) 1) =
        ((2 ^ (150 - max (floatExponent x) 1) : ℕ) : ℚ) := by
      push_cast
      rfl
    rw [hcast, Rat.floor_natCast_div_natCast]
    rfl

theorem integerPart_neg (q : ℚ) : integerPart (-q) = -integerPart q := by
  rcases lt_trichotomy q 0 with h | rfl | h
  · rw [integerPart, integerPart, if_pos (by linarith), if_neg (by linarith), Int.floor_neg]
  · simp [integerPart]
  · rw [integerPart, integerPart, if_neg (by linarith), if_pos h.le, Int.ceil_neg]

/-- The cast cuts off the fraction of every number in the range of an `int`. -/
theorem floatToInt_spec (hq : floatRat x = some q) (hlo : -2147483648 ≤ q) (hhi : q ≤ 2147483647) :
    (floatToInt x).toInt = integerPart q := by
  have hmag := floatMagnitude_nonneg x
  have hwhole := floor_magnitude x
  rw [floatRat] at hq
  split at hq
  · cases hq
  · rename_i hfinite
    have hexp : floatExponent x < 255 := by
      have : floatExponent x < 256 := Nat.mod_lt _ (by decide)
      omega
    have hpart : integerPart (floatMagnitude x) = ⌊floatMagnitude x⌋ := if_pos hmag
    rw [floatToInt]
    split at hq
    · rename_i hneg
      obtain rfl := Option.some.inj hq
      have hfloor : ⌊floatMagnitude x⌋ ≤ 2147483648 := by
        have : (⌊floatMagnitude x⌋ : ℚ) ≤ 2147483648 := le_trans (Int.floor_le _) (by linarith)
        exact_mod_cast this
      have hfloor0 : 0 ≤ ⌊floatMagnitude x⌋ := Int.floor_nonneg.2 hmag
      rw [if_pos hneg, ← hwhole, if_pos ⟨hexp, by omega, by omega⟩, integerPart_neg, hpart]
      exact Int32.toInt_ofInt_of_le (by simpa using by omega) (by simpa using by omega)
    · rename_i hpos
      obtain rfl := Option.some.inj hq
      have hfloor : ⌊floatMagnitude x⌋ ≤ 2147483647 := by
        have : (⌊floatMagnitude x⌋ : ℚ) ≤ 2147483647 := le_trans (Int.floor_le _) hhi
        exact_mod_cast this
      have hfloor0 : 0 ≤ ⌊floatMagnitude x⌋ := Int.floor_nonneg.2 hmag
      rw [if_neg hpos, ← hwhole, if_pos ⟨hexp, by omega, by omega⟩, hpart]
      exact Int32.toInt_ofInt_of_le (by simpa using by omega) (by simpa using by omega)

end Truncation

section Compare

variable {α β : Type} [LinearOrder α] [LinearOrder β] {op : CompOp}

theorem CompOp.holds_congr {a b : α} {c d : β} (hlt : a < b ↔ c < d) (hgt : b < a ↔ d < c) :
    op.holds a b = op.holds c d := by
  have heq : a = b ↔ c = d := by
    constructor
    · rintro rfl
      exact le_antisymm (not_lt.1 fun hc => lt_irrefl a (hgt.2 hc))
        (not_lt.1 fun hc => lt_irrefl a (hlt.2 hc))
    · rintro rfl
      exact le_antisymm (not_lt.1 fun hc => lt_irrefl c (hgt.1 hc))
        (not_lt.1 fun hc => lt_irrefl c (hlt.1 hc))
  cases op with
  | eq => exact decide_eq_decide.2 heq
  | ne => exact decide_eq_decide.2 (not_congr heq)
  | lt => exact decide_eq_decide.2 hlt
  | gt => exact decide_eq_decide.2 hgt
  | le => exact decide_eq_decide.2 (by rw [← not_lt, ← not_lt, hgt])
  | ge => exact decide_eq_decide.2 (by rw [← not_lt, ← not_lt, hlt])

variable {a : ℤ} {q : ℚ}

theorem lt_of_lt_integerPart (h : a < integerPart q) : (a : ℚ) < q := by
  rw [integerPart] at h
  split at h
  · exact lt_of_lt_of_le (Int.cast_lt.2 h) (Int.floor_le q)
  · exact Int.lt_ceil.1 h

theorem lt_of_integerPart_lt (h : integerPart q < a) : q < (a : ℚ) := by
  rw [integerPart] at h
  split at h
  · exact Int.floor_lt.1 h
  · exact lt_of_le_of_lt (Int.le_ceil q) (Int.cast_lt.2 h)

theorem pos_of_integerPart_lt (h : (integerPart q : ℚ) < q) : 0 < q := by
  rw [integerPart] at h
  split at h
  · rename_i h0
    refine lt_of_le_of_ne h0 ?_
    rintro rfl
    simp at h
  · exact absurd h (not_lt.2 (Int.le_ceil q))

theorem neg_of_lt_integerPart (h : q < integerPart q) : q < 0 := by
  rw [integerPart] at h
  split at h
  · exact absurd h (not_lt.2 (Int.floor_le q))
  · exact not_le.1 ‹_›

/-- Without its fraction a literal compares as with it, unless the other operand is its integer
part and the fraction decides. -/
theorem holds_integerPart_iff : op.holds a (integerPart q) = op.holds (a : ℚ) q ↔
    q = integerPart q ∨ a ≠ integerPart q ∨ (op = .lt ∨ op = .ge) ∧ q < 0 ∨
    (op = .gt ∨ op = .le) ∧ 0 < q := by
  rcases lt_trichotomy a (integerPart q) with h | rfl | h
  · have hq := lt_of_lt_integerPart h
    exact iff_of_true (CompOp.holds_congr (iff_of_true h hq)
      (iff_of_false (not_lt.2 h.le) (not_lt.2 hq.le))) (.inr (.inl h.ne))
  · rcases lt_trichotomy q (integerPart q : ℚ) with hq | hq | hq
    · have hneg := neg_of_lt_integerPart hq
      cases op <;> simp [CompOp.holds, hq, hq.ne, hq.ne', hq.le, hneg, not_le.2 hq, not_lt.2 hneg.le]
    · exact iff_of_true (CompOp.holds_congr (by simp [← hq]) (by simp [← hq])) (.inl hq)
    · have hpos := pos_of_integerPart_lt hq
      cases op <;> simp [CompOp.holds, hq, hq.ne, hq.ne', hq.le, hpos, not_le.2 hq, not_lt.2 hpos.le]
  · have hq := lt_of_integerPart_lt h
    exact iff_of_true (CompOp.holds_congr (iff_of_false (not_lt.2 h.le) (not_lt.2 hq.le))
      (iff_of_true h hq)) (.inr (.inl h.ne'))

end Compare

section Condition

variable {cols : List ColMeta} {col : ColMeta} {lhs : TabCol} {op : CompOp} {x : Float32}
  {q : ℚ} {record : Bytes}

def Condition.check (cols : List ColMeta) (cond : Condition) (record : Bytes) : Except ScanError Bool := do
  checkSingleCondition (← cond.feed cols) record

theorem CompOp.check_int (a b : Int32) : op.check (.int a) (.int b) = .ok (op.holds a.toInt b.toInt) := by
  cases op with
  | eq => simp [CompOp.check, CompOp.holds, Value.eq, Int32.toInt_inj]
  | ne => simp [CompOp.check, CompOp.holds, Value.eq, Int32.toInt_inj, Functor.map, Except.map]
  | lt => simp [CompOp.check, CompOp.holds, Value.lt, Int32.lt_iff_toInt_lt]
  | gt => simp [CompOp.check, CompOp.holds, Value.lt, Int32.lt_iff_toInt_lt]
  | le => simp [CompOp.check, CompOp.holds_le, Value.lt, Int32.lt_iff_toInt_lt, Functor.map, Except.map]
  | ge => simp [CompOp.check, CompOp.holds_ge, Value.lt, Int32.lt_iff_toInt_lt, Functor.map, Except.map]

theorem check_decimal (hcol : getCol cols lhs = .ok col) (hint : col.type = .int) :
    Condition.check cols ⟨lhs, op, .val (.float x)⟩ record =
      .ok (op.holds (readInt (record.drop col.offset)) (floatToInt x).toInt) := by
  have hfeed : Condition.feed cols ⟨lhs, op, .val (.float x)⟩ =
      .ok ⟨col, op, .val (.int (floatToInt x))⟩ := by
    simp [Condition.feed, hcol, hint, valueCast, bind, Except.bind, pure, Except.pure]
  rw [Condition.check, hfeed]
  simp only [bind, Except.bind, checkSingleCondition, buildValue, hint, promote, Value.type, if_true]
  rw [CompOp.check_int, toInt_readInt]

/-- Of a decimal literal on an `INT` column the comparison has its arithmetical truth value
exactly when the literal is an integer, or the column does not hold its integer part, or the
fraction changes nothing for the operator. -/
theorem decimal_condition_iff (hcol : getCol cols lhs = .ok col) (hint : col.type = .int)
    (hq : floatRat x = some q) (hlo : -2147483648 ≤ q) (hhi : q ≤ 2147483647) (op : CompOp) (record : Bytes) :
    Condition.check cols ⟨lhs, op, .val (.float x)⟩ record =
      .ok (op.holds (readInt (record.drop col.offset) : ℚ) q) ↔
      q = integerPart q ∨ readInt (record.drop col.offset) ≠ integerPart q ∨
        (op = .lt ∨ op = .ge) ∧ q < 0 ∨ (op = .gt ∨ op = .le) ∧ 0 < q := by
  rw [check_decimal hcol hint, floatToInt_spec hq hlo hhi, Except.ok.injEq]
  exact holds_integerPart_iff

end Condition

def intCol : ColMeta := ⟨"t", "a", .int, 4, 0⟩

def twoAndHalf : Float32 := .ofBits 0x40200000

theorem floatRat_twoAndHalf : floatRat twoAndHalf = some (5 / 2) := by
  decide +kernel

/-- `a <= 2.5` for `2`. -/
theorem decimal_condition_le : floatRat twoAndHalf = some (5 / 2) ∧
    Condition.check [intCol] ⟨⟨"t", "a"⟩, .le, .val (.float twoAndHalf)⟩ [2, 0, 0, 0] =
      .ok (CompOp.le.holds (readInt [2, 0, 0, 0] : ℚ) (5 / 2)) := by
  refine ⟨floatRat_twoAndHalf, ?_⟩
  have hcol : getCol [intCol] ⟨"t", "a"⟩ = .ok intCol := rfl
  refine (decimal_condition_iff hcol rfl floatRat_twoAndHalf (by norm_num)
    (by norm_num) .le [2, 0, 0, 0]).2 ?_
  exact .inr (.inr (.inr ⟨.inr rfl, by norm_num⟩))

theorem two_not_below : floatRat twoAndHalf = some (5 / 2) ∧
    ¬ Condition.check [intCol] ⟨⟨"t", "a"⟩, .lt, .val (.float twoAndHalf)⟩ [2, 0, 0, 0] =
      .ok (CompOp.lt.holds (readInt [2, 0, 0, 0] : ℚ) (5 / 2)) := by
  refine ⟨floatRat_twoAndHalf, ?_⟩
  decide +kernel

end Rmdb
