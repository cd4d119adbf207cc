import Mathlib.Data.List.TakeWhile
import Rmdb.Execution.ScanExecutor

namespace Rmdb

open Value ConditionCheck IxManager IndexScanExecutor

section Text

variable {a b s : Bytes} {n m : Nat}

/-- The first `n` bytes of a text, NULs behind its end. -/
def firstBytes : Nat → Bytes → Bytes
  | 0, _ => []
  | n + 1, a => a.headD 0 :: firstBytes n a.tail

theorem firstBytes_length : (firstBytes n a).length = n := by
  induction n generalizing a with
  | zero => rfl
  | succ n ih => rw [firstBytes, List.length_cons, ih]

theorem firstBytes_nil : firstBytes n [] = List.replicate n 0 := by
  induction n with
  | zero => rfl
  | succ n ih => rw [firstBytes, List.tail_nil, ih]; rfl

theorem padTo_eq (h : s.length ≤ n) : padTo n s = firstBytes n s := by
  induction s generalizing n with
  | nil => rw [firstBytes_nil]; rfl
  | cons c s ih =>
      obtain ⟨n, rfl⟩ : ∃ k, n = k + 1 := Nat.exists_eq_succ_of_ne_zero (by simp at h; omega)
      have hs : s.length ≤ n := by simpa using h
      rw [firstBytes, List.tail_cons, ← ih hs]
      simp [padTo]

/-- Texts without NULs are compared as their first bytes are. -/
theorem compareFirst_spec (ha : (0 : UInt8) ∉ a) (hb : (0 : UInt8) ∉ b) :
    (compareFirst n a b < 0 ↔ unsignedBytes (firstBytes n a) < unsignedBytes (firstBytes n b)) ∧
      (compareFirst n a b = 0 ↔ firstBytes n a = firstBytes n b) := by
  induction n generalizing a b with
  | zero => simp [compareFirst, firstBytes, unsignedBytes]
  | succ n ih =>
      have htail : (0 : UInt8) ∉ a.tail ∧ (0 : UInt8) ∉ b.tail :=
        ⟨fun hc => ha (List.mem_of_mem_tail hc), fun hc => hb (List.mem_of_mem_tail hc)⟩
      obtain ⟨hlt, heq⟩ := ih htail.1 htail.2
      have hcd : ∀ c d : UInt8, (c < d ↔ (c.toNat : Int) < d.toNat) ∧
          (c = d ↔ (c.toNat : Int) = d.toNat) := by
        intro c d
        rw [UInt8.lt_iff_toNat_lt, ← UInt8.toNat_inj]
        omega
      simp only [compareFirst, firstBytes, unsignedBytes, List.map_cons, List.cons_lt_cons_iff,
        List.cons.injEq] at hlt ⊢
      rcases lt_trichotomy (a.headD 0).toNat (b.headD 0).toNat with hh | hh | hh
      · have h1 := (hcd (a.headD 0) (b.headD 0)).1.2 (by omega)
        have h2 : a.headD 0 ≠ b.headD 0 := fun hc => by rw [hc] at hh; omega
        rw [if_pos h1]
        exact ⟨iff_of_true (by decide) (.inl (by omega)), iff_of_false (by decide) (fun hc => h2 hc.1)⟩
      · have h1 : a.headD 0 = b.headD 0 := UInt8.toNat_inj.1 hh
        have h2 : ¬ b.headD 0 < b.headD 0 := by simp
        rw [h1]
        simp only [h2, if_false, true_and, lt_irrefl, false_or]
        split
        · rename_i hzero
          -- both texts end here
          have hnil : ∀ {t : Bytes}, (0 : UInt8) ∉ t → t.headD 0 = 0 → t = [] := by
            intro t ht hz
            cases t with
            | nil => rfl
            | cons c t =>
                exact absurd (by simpa using hz.symm) (fun hc : (0 : UInt8) = c => ht (by simp [hc]))
          rw [hnil ha (h1.trans hzero), hnil hb hzero]
          simp
        · exact ⟨hlt, heq⟩
      · have h1 := (hcd (b.headD 0) (a.headD 0)).1.2 (by omega)
        have h2 : ¬ a.headD 0 < b.headD 0 := by rw [(hcd _ _).1]; omega
        have h3 : a.headD 0 ≠ b.headD 0 := fun hc => by rw [hc] at hh; omega
        rw [if_neg h2, if_pos h1]
        exact ⟨iff_of_false (by decide) (by omega), iff_of_false (by decide) (fun hc => h3 hc.1)⟩

/-- A comparison over one length decides every other one. -/
theorem firstBytes_le (h : unsignedBytes (firstBytes n a) < unsignedBytes (firstBytes n b)) :
    unsignedBytes (firstBytes m a) ≤ unsignedBytes (firstBytes m b) := by
  induction n generalizing a b m with
  | zero => simp [firstBytes, unsignedBytes] at h
  | succ n ih =>
      cases m with
      | zero => exact le_refl _
      | succ m =>
          simp only [firstBytes, unsignedBytes, List.map_cons, List.cons_lt_cons_iff] at h
          rw [← not_lt, firstBytes, firstBytes, unsignedBytes, unsignedBytes, List.map_cons, List.map_cons,
            List.cons_lt_cons_iff]
          rcases h with h | ⟨h, ht⟩
          · omega
          · rintro (hlt | ⟨-, hlt⟩)
            · omega
            · exact absurd hlt (not_lt.2 (ih ht))

/-- A comparison over one length is kept by a length that is not shorter or covers both texts. -/
theorem firstBytes_lt (h : unsignedBytes (firstBytes n a) < unsignedBytes (firstBytes n b))
    (hm : n ≤ m ∨ a.length ≤ m ∧ b.length ≤ m) :
    unsignedBytes (firstBytes m a) < unsignedBytes (firstBytes m b) := by
  induction n generalizing a b m with
  | zero => simp [firstBytes, unsignedBytes] at h
  | succ n ih =>
      cases m with
      | zero =>
          obtain ⟨ha, hb⟩ := hm.resolve_left (by omega)
          rw [List.length_eq_zero_iff.1 (Nat.le_zero.1 ha), List.length_eq_zero_iff.1 (Nat.le_zero.1 hb)] at h
          exact absurd h (lt_irrefl _)
      | succ m =>
          simp only [firstBytes, unsignedBytes, List.map_cons, List.cons_lt_cons_iff] at h ⊢
          refine h.imp_right fun hrest => ⟨hrest.1, ih hrest.2 ?_⟩
          rw [List.length_tail, List.length_tail]
          omega

/-- Behind the first NUL of a padded field there are only NULs. -/
def Padded (field : Bytes) : Prop := firstBytes field.length (field.takeWhile (· ≠ 0)) = field

theorem firstBytes_takeWhile_take :
    firstBytes n ((b.take n).takeWhile (· ≠ 0)) = firstBytes n (b.takeWhile (· ≠ 0)) := by
  induction n generalizing b with
  | zero => rfl
  | succ n ih =>
      cases b with
      | nil => rfl
      | cons c b =>
          rw [List.take_succ_cons]
          by_cases hc : c = 0
          · simp [hc]
          · simp only [ne_eq, hc, not_false_eq_true, decide_true, List.takeWhile_cons_of_pos]
            rw [firstBytes, firstBytes, List.tail_cons, List.tail_cons]
            exact congrArg _ ih

/-- A text that is read over the end of its column still begins with the bytes of the column. -/
theorem Padded.firstBytes_eq (h : Padded (b.take n)) (hn : n ≤ b.length) :
    firstBytes n (b.takeWhile (· ≠ 0)) = b.take n := by
  rw [Padded, List.length_take, Nat.min_eq_left hn, firstBytes_takeWhile_take] at h
  exact h

theorem zero_notMem_takeWhile : (0 : UInt8) ∉ b.takeWhile (· ≠ 0) := fun hc => by
  simpa using List.mem_takeWhile_imp hc

end Text

def ColMeta.slice (col : ColMeta) (record : Bytes) : Bytes := (record.drop col.offset).take col.len

def ColMeta.code (col : ColMeta) (field : Bytes) : List Int := colCode (col.type, col.len) field

/-- The column takes the literal: `check_clause` lets it pass. The parser makes texts without
NULs, and `init_raw` refuses texts that are longer than the column. -/
def ColMeta.Takes (col : ColMeta) : Value → Prop
  | .string s _ => col.type = .string ∧ (0 : UInt8) ∉ s ∧ s.length ≤ col.len
  | _ => col.type = .int ∨ col.type = .float

section Literal

variable {col : ColMeta} {v w lhs : Value} {op : CompOp} {record field : Bytes}

theorem ColMeta.Takes.valueCast (h : col.Takes v) :
    ∃ w, v.valueCast col.type = .ok w ∧ w.type = col.type := by
  cases v with
  | int i => rcases h with h | h <;> rw [h] <;> exact ⟨_, rfl, rfl⟩
  | float x => rcases h with h | h <;> rw [h] <;> exact ⟨_, rfl, rfl⟩
  | string s n => rw [h.1]; exact ⟨_, rfl, rfl⟩

theorem ColMeta.Takes.ne_null (h : col.Takes v) : col.type ≠ .null := by
  obtain ⟨w, -, hw⟩ := h.valueCast
  rw [← hw]
  cases w <;> simp [Value.type]

theorem buildValue_type (h : col.type ≠ .null) (record : Bytes) :
    ∃ lhs, buildValue col record = .ok lhs ∧ lhs.type = col.type := by
  rw [buildValue]
  cases ht : col.type with
  | null => exact absurd ht h
  | int | float | string => exact ⟨_, rfl, rfl⟩

theorem promote_self {a b : Value} (h : a.type = b.type) : promote a b = .ok (a, b) := by
  cases a <;> cases b <;> simp_all [Value.type, promote]

theorem CompOp.check_total {a b : Value} (h : a.type = b.type) : ∃ r, op.check a b = .ok r := by
  cases op <;> cases a <;> cases b <;> first | exact ⟨_, rfl⟩ | (simp [Value.type] at h)

theorem check_literal (hlhs : buildValue col record = .ok lhs) (hl : lhs.type = col.type)
    (hw : w.type = col.type) :
    checkSingleCondition ⟨col, op, .val w⟩ record = op.check lhs w := by
  simp [checkSingleCondition, hlhs, promote_self (hl.trans hw.symm), bind, Except.bind]

theorem checkSingleCondition_total (hcol : col.type ≠ .null) (hw : w.type = col.type) (op : CompOp)
    (record : Bytes) :
    ∃ r, checkSingleCondition ⟨col, op, .val w⟩ record = .ok r := by
  obtain ⟨lhs, hlhs, hl⟩ := buildValue_type hcol record
  rw [check_literal hlhs hl hw]
  exact CompOp.check_total (hl.trans hw.symm)

theorem slice_length (hin : col.offset + col.len ≤ record.length) : (col.slice record).length = col.len := by
  simp [ColMeta.slice]
  omega

theorem code_int (ht : col.type = .int) : col.code field = [readInt field] := by
  simp [ColMeta.code, colCode, ht]

theorem code_string (ht : col.type = .string) (hl : field.length = col.len) :
    col.code field = unsignedBytes field := by
  simp [ColMeta.code, colCode, ht, ← hl]

theorem ColMeta.Takes.int_field (h : col.Takes v) (ht : col.type = .int) :
    ∃ i, v.valueCast col.type = .ok (.int i) ∧ fieldBytes col v = .ok (intBytes i) := by
  obtain ⟨w, hw, hwt⟩ := h.valueCast
  rw [ht] at hwt
  cases w with
  | int i => exact ⟨i, hw, by simp [fieldBytes, hw, bind, Except.bind, pure, Except.pure]⟩
  | float x => simp [Value.type] at hwt
  | string s n => simp [Value.type] at hwt

theorem ColMeta.Takes.string_field (h : col.Takes v) (ht : col.type = .string) :
    ∃ s n, v.valueCast col.type = .ok (.string s n) ∧
    (0 : UInt8) ∉ s ∧ fieldBytes col v = .ok (firstBytes col.len s) := by
  cases v with
  | int i => exact absurd ht (by rcases h with h | h <;> rw [h] <;> simp)
  | float x => exact absurd ht (by rcases h with h | h <;> rw [h] <;> simp)
  | string s n =>
      have hcast : (Value.string s n).valueCast col.type = .ok (.string s n) := by rw [ht]; rfl
      exact ⟨s, n, hcast, h.2.1, by
        simp [fieldBytes, hcast, bind, Except.bind, pure, Except.pure, padTo_eq h.2.2]⟩

theorem ColMeta.Takes.exists_field (h : col.Takes v)
    (hc : col.type = .int ∧ col.len = 4 ∨ col.type = .string) :
    ∃ field, fieldBytes col v = .ok field ∧ field.length = col.len := by
  rcases hc with ⟨ht, hl⟩ | ht
  · obtain ⟨i, -, hi⟩ := h.int_field ht
    exact ⟨_, hi, hl.symm⟩
  · obtain ⟨s, n, -, -, hs⟩ := h.string_field ht
    exact ⟨_, hs, firstBytes_length⟩

variable (hin : col.offset + col.len ≤ record.length)

include hin in
theorem check_int_field {i : Int32} (ht : col.type = .int) (hl : col.len = 4) :
    checkSingleCondition ⟨col, op, .val (.int i)⟩ record =
      op.check (.int (Int32.ofInt (readInt (col.slice record)))) (.int i) := by
  refine check_literal ?_ ht.symm ht.symm
  rw [buildValue, ht, ColMeta.slice, hl, readInt_take (by rw [List.length_drop]; omega)]

include hin in
theorem int_eq_iff {i : Int32} (hl : col.len = 4) :
    Int32.ofInt (readInt (col.slice record)) = i ↔ intBytes i = col.slice record := by
  have hlen := slice_length hin
  constructor
  · rintro rfl
    have h :=
      readInt_inj (a := intBytes (Int32.ofInt (readInt (col.slice record))))
        (b := col.slice record) le_rfl (by omega)
      (by rw [readInt_intBytes, toInt_readInt])
    rw [List.take_of_length_le (by rw [intBytes_length]), List.take_of_length_le (by omega)] at h
    exact h
  · intro h
    rw [← h, readInt_intBytes]
    exact Int32.ofInt_toInt i

variable (hpad : Padded (col.slice record))

theorem check_string_field {s : Bytes} {n : Int} (ht : col.type = .string) :
    checkSingleCondition ⟨col, op, .val (.string s n)⟩ record =
      op.check (.string ((record.drop col.offset).takeWhile (· ≠ 0)) col.len) (.string s n) := by
  refine check_literal ?_ ht.symm ht.symm
  rw [buildValue, ht]

include hin hpad in
theorem firstBytes_slice :
    firstBytes col.len ((record.drop col.offset).takeWhile (· ≠ 0)) = col.slice record :=
  Padded.firstBytes_eq hpad (by rw [List.length_drop]; omega)

end Literal

section IndexColumn

variable {col : ColMeta} {v : Value} {record field : Bytes}
  (hc : col.type = .int ∧ col.len = 4 ∨ col.type = .string) (hv : col.Takes v)
  (hfield : fieldBytes col v = .ok field) (hin : col.offset + col.len ≤ record.length)
  (hpad : col.type = .string → Padded (col.slice record))

include hc hv hfield hin hpad in
/-- An equality on an index column compares the bytes of the column with those in the key. -/
theorem check_eq_field : ∃ w, v.valueCast col.type = .ok w ∧
    checkSingleCondition ⟨col, .eq, .val w⟩ record = .ok (decide (field = col.slice record)) := by
  rcases hc with ⟨ht, hl⟩ | ht
  · obtain ⟨i, hi, hbytes⟩ := hv.int_field ht
    obtain rfl : intBytes i = field := by simpa using hbytes.symm.trans hfield
    refine ⟨_, hi, ?_⟩
    rw [check_int_field hin ht hl, CompOp.check, Value.eq]
    simp only [int_eq_iff hin hl]
  · obtain ⟨s, n, hs, hnul, hbytes⟩ := hv.string_field ht
    obtain rfl : firstBytes col.len s = field := by simpa using hbytes.symm.trans hfield
    refine ⟨_, hs, ?_⟩
    rw [check_string_field ht, CompOp.check, Value.eq, strncmp, if_neg (by omega), Int.toNat_natCast]
    simp only [(compareFirst_spec zero_notMem_takeWhile hnul).2, firstBytes_slice hin (hpad ht), eq_comm]

include hc hv hfield hin hpad in
/-- A row that passes a lower bound is not below the bytes of the bound in the key. -/
theorem check_lower_field {op : CompOp} {w : Value} (hw : v.valueCast col.type = .ok w)
    (hop : op = .gt ∨ op = .ge) (h : checkSingleCondition ⟨col, op, .val w⟩ record = .ok true) :
    col.code field ≤ col.code (col.slice record) := by
  rcases hc with ⟨ht, hl⟩ | ht
  · obtain ⟨i, hi, hbytes⟩ := hv.int_field ht
    obtain rfl : intBytes i = field := by simpa using hbytes.symm.trans hfield
    obtain rfl : .int i = w := by simpa using hi.symm.trans hw
    rw [code_int ht, code_int ht, readInt_intBytes, ← not_lt, List.cons_lt_cons_iff]
    rw [check_int_field hin ht hl] at h
    have hle : i.toInt ≤ readInt (col.slice record) := by
      rcases hop with rfl | rfl
      · have hlt : i < Int32.ofInt (readInt (col.slice record)) := by simpa [CompOp.check, Value.lt] using h
        rw [Int32.lt_iff_toInt_lt, toInt_readInt] at hlt
        exact hlt.le
      · have hlt : ¬ Int32.ofInt (readInt (col.slice record)) < i := by
          simpa [CompOp.check, Value.lt, Functor.map, Except.map] using h
        rw [Int32.lt_iff_toInt_lt, toInt_readInt] at hlt
        exact not_lt.1 hlt
    simp
    omega
  · obtain ⟨s, n, hs, hnul, hbytes⟩ := hv.string_field ht
    obtain rfl : firstBytes col.len s = field := by simpa using hbytes.symm.trans hfield
    obtain rfl : .string s n = w := by simpa using hs.symm.trans hw
    rw [code_string ht firstBytes_length, code_string ht (slice_length hin), ← firstBytes_slice hin (hpad ht)]
    rw [check_string_field ht] at h
    rcases hop with rfl | rfl
    · have hlt : strncmp s ((record.drop col.offset).takeWhile (· ≠ 0)) n < 0 := by
        simpa [CompOp.check, Value.lt] using h
      rw [strncmp, (compareFirst_spec hnul zero_notMem_takeWhile).1] at hlt
      exact firstBytes_le hlt
    · have hlt : ¬ strncmp ((record.drop col.offset).takeWhile (· ≠ 0)) s col.len < 0 := by
        simpa [CompOp.check, Value.lt, Functor.map, Except.map] using h
      rw [strncmp, if_neg (by omega), Int.toNat_natCast,
        (compareFirst_spec zero_notMem_takeWhile hnul).1] at hlt
      exact not_lt.1 hlt

/-- The comparison `rhs < lhs` covers the whole column: it is over `str_len` of the literal. -/
def ColMeta.Covers (col : ColMeta) : Value → Prop
  | .string _ n => n < 0 ∨ (col.len : Int) ≤ n
  | _ => True

include hc hv hfield hin hpad in
/-- A row that passes an upper bound is not above the bytes of the bound in the key, unless a
comparison with `<=` stops before the end of the column. -/
theorem check_upper_field {op : CompOp} {w : Value} (hw : v.valueCast col.type = .ok w)
    (hop : op = .lt ∨ op = .le ∧ col.Covers v)
    (h : checkSingleCondition ⟨col, op, .val w⟩ record = .ok true) :
    col.code (col.slice record) ≤ col.code field := by
  rcases hc with ⟨ht, hl⟩ | ht
  · obtain ⟨i, hi, hbytes⟩ := hv.int_field ht
    obtain rfl : intBytes i = field := by simpa using hbytes.symm.trans hfield
    obtain rfl : .int i = w := by simpa using hi.symm.trans hw
    rw [code_int ht, code_int ht, readInt_intBytes, ← not_lt, List.cons_lt_cons_iff]
    rw [check_int_field hin ht hl] at h
    have hle : readInt (col.slice record) ≤ i.toInt := by
      rcases hop with rfl | ⟨rfl, -⟩
      · have hlt : Int32.ofInt (readInt (col.slice record)) < i := by simpa [CompOp.check, Value.lt] using h
        rw [Int32.lt_iff_toInt_lt, toInt_readInt] at hlt
        exact hlt.le
      · have hlt : ¬ i < Int32.ofInt (readInt (col.slice record)) := by
          simpa [CompOp.check, Value.lt, Functor.map, Except.map] using h
        rw [Int32.lt_iff_toInt_lt, toInt_readInt] at hlt
        exact not_lt.1 hlt
    simp
    omega
  · obtain ⟨s, n, rfl⟩ : ∃ s n, v = .string s n := by
      cases v with
      | int i => exact absurd ht (by rcases hv with h | h <;> rw [h] <;> simp)
      | float x => exact absurd ht (by rcases hv with h | h <;> rw [h] <;> simp)
      | string s n => exact ⟨s, n, rfl⟩
    obtain ⟨s', n', hs, hnul, hbytes⟩ := hv.string_field ht
    obtain ⟨rfl, rfl⟩ : s = s' ∧ n = n' := by simpa [ht, Value.valueCast] using hs
    obtain rfl : firstBytes col.len s = field := by simpa using hbytes.symm.trans hfield
    obtain rfl : .string s n = w := by simpa using hs.symm.trans hw
    rw [code_string ht firstBytes_length, code_string ht (slice_length hin), ← firstBytes_slice hin (hpad ht)]
    rw [check_string_field ht] at h
    rcases hop with rfl | ⟨rfl, hcovers⟩
    · have hlt : strncmp ((record.drop col.offset).takeWhile (· ≠ 0)) s col.len < 0 := by
        simpa [CompOp.check, Value.lt] using h
      rw [strncmp, if_neg (by omega), Int.toNat_natCast,
        (compareFirst_spec zero_notMem_takeWhile hnul).1] at hlt
      exact hlt.le
    · have hlt : ¬ strncmp s ((record.drop col.offset).takeWhile (· ≠ 0)) n < 0 := by
        simpa [CompOp.check, Value.lt, Functor.map, Except.map] using h
      rw [strncmp, (compareFirst_spec hnul zero_notMem_takeWhile).1] at hlt
      refine not_lt.1 fun hc => hlt (firstBytes_lt hc ?_)
      rcases hcovers with hneg | hlong
      · rw [if_pos hneg]
        omega
      · rw [if_neg (by omega)]
        omega

end IndexColumn

section Key

variable {col : ColMeta} {cols front back : List ColMeta} {fields : List Bytes}
  {record field rest rest' : Bytes}

def layoutOf (cols : List ColMeta) : List (ColType × Nat) := cols.map fun c => (c.type, c.len)

def KeyCols (cols : List ColMeta) : Prop := ∀ c ∈ cols, c.type = .int ∧ c.len = 4 ∨ c.type = .string

theorem KeyCols.layout (h : KeyCols cols) : ∀ c ∈ layoutOf cols, c = (.int, 4) ∨ c.1 = .string := by
  intro c hc
  obtain ⟨col, hcol, rfl⟩ := List.mem_map.1 hc
  rcases h col hcol with ⟨ht, hl⟩ | ht
  · exact .inl (by rw [ht, hl])
  · exact .inr ht

def Fields (cols : List ColMeta) (fields : List Bytes) : Prop :=
  List.Forall₂ (fun c f => f.length = c.len) cols fields

theorem keyCode_cons (hc : col.type = .int ∧ col.len = 4 ∨ col.type = .string) (hl : field.length = col.len) :
    keyCode (layoutOf (col :: cols)) (field ++ rest) = col.code field ++ keyCode (layoutOf cols) rest := by
  rw [layoutOf, List.map_cons, keyCode, ← layoutOf, ← hl, List.drop_left, ColMeta.code, hl]
  congr 1
  rcases hc with ⟨ht, h4⟩ | ht
  · simp [colCode, ht, readInt_append (hl.trans h4)]
  · simp [colCode, ht, ← hl]

theorem keyCode_append (hk : KeyCols front) (hf : Fields front fields) :
    keyCode (layoutOf (front ++ back)) (fields.flatten ++ rest) =
      keyCode (layoutOf front) fields.flatten ++ keyCode (layoutOf back) rest := by
  induction hf with
  | nil => simp [layoutOf, keyCode]
  | @cons c f cs fs hl _ ih =>
      have hc := hk c List.mem_cons_self
      rw [List.cons_append, List.flatten_cons, List.append_assoc, keyCode_cons hc hl, keyCode_cons hc hl,
        ih fun d hd => hk d (List.mem_cons_of_mem _ hd), List.append_assoc]

theorem Fields.length_flatten (hf : Fields cols fields) :
    fields.flatten.length = colTotLen (layoutOf cols) := by
  induction hf with
  | nil => rfl
  | cons hl _ ih => rw [List.flatten_cons, List.length_append, hl, ih]; rfl

theorem Fields.of_slices (hin : ∀ c ∈ cols, c.offset + c.len ≤ record.length) :
    Fields cols (cols.map fun c => c.slice record) := by
  rw [Fields, List.forall₂_map_right_iff, List.forall₂_same]
  exact fun c hc => slice_length (hin c hc)

theorem append_le_append {x y xs ys : List Int} (hl : x.length = y.length) (h : x ≤ y) (hs : xs ≤ ys) :
    x ++ xs ≤ y ++ ys := by
  rw [← not_lt, lex_append hl.symm]
  rintro (hlt | ⟨-, hlt⟩)
  · exact absurd hlt (not_lt.2 h)
  · exact absurd hlt (not_lt.2 hs)

theorem keyCode_rel {S : List Int → List Int → Prop} (hnil : S [] [])
    (happ : ∀ x y xs ys, x.length = y.length → S x y → S xs ys → S (x ++ xs) (y ++ ys)) (hk : KeyCols cols)
    (hin : ∀ c ∈ cols, c.offset + c.len ≤ record.length)
    (h : List.Forall₂ (fun c f => f.length = c.len ∧ S (c.code f) (c.code (c.slice record))) cols fields) :
    S (keyCode (layoutOf cols) fields.flatten)
      (keyCode (layoutOf cols) (cols.map fun c => c.slice record).flatten) := by
  induction h with
  | nil => exact hnil
  | @cons c f cs fs hcf _ ih =>
      have hc := hk c List.mem_cons_self
      have hs := slice_length (hin c List.mem_cons_self)
      have hrec :=
        ih (fun d hd => hk d (List.mem_cons_of_mem _ hd)) fun d hd => hin d (List.mem_cons_of_mem _ hd)
      have hlen : (c.code f).length = (c.code (c.slice record)).length :=
        colCode_length _ (hcf.1.trans hs.symm)
      rw [List.map_cons, List.flatten_cons, List.flatten_cons, keyCode_cons hc hcf.1, keyCode_cons hc hs]
      exact happ _ _ _ _ hlen hcf.2 hrec

theorem keyCode_lowest {others : List Bytes} (hk : KeyCols cols)
    (h : List.Forall₂ (fun c f => f.length = c.len ∧ ∀ g : Bytes, g.length = c.len →
      c.code f ≤ c.code g) cols fields)
    (hothers : Fields cols others) :
    keyCode (layoutOf cols) fields.flatten ≤ keyCode (layoutOf cols) others.flatten := by
  induction h generalizing others with
  | nil => cases hothers; exact le_refl _
  | @cons c f cs fs hcf _ ih =>
      cases hothers with
      | @cons _ g _ gs hg hgs =>
          have hc := hk c List.mem_cons_self
          rw [List.flatten_cons, List.flatten_cons, keyCode_cons hc hcf.1, keyCode_cons hc hg]
          exact append_le_append (colCode_length _ (hcf.1.trans hg.symm)) (hcf.2 g hg)
            (ih (fun d hd => hk d (List.mem_cons_of_mem _ hd)) hgs)

theorem keyCode_length (layout : List (ColType × Nat)) {a b : Bytes} (h : a.length = b.length) :
    (keyCode layout a).length = (keyCode layout b).length := by
  induction layout generalizing a b with
  | nil => rfl
  | cons c layout ih =>
      rw [keyCode, keyCode, List.length_append, List.length_append, colCode_length c h,
        ih (a := a.drop c.2) (b := b.drop c.2) (by simp [h])]

theorem Fields.ext {others : List Bytes} (hf : Fields cols fields) (hg : Fields cols others)
    (h : fields.flatten = others.flatten) : fields = others := by
  induction hf generalizing others with
  | nil => cases hg; rfl
  | cons hl _ ih =>
      cases hg with
      | cons hl' hg =>
          rw [List.flatten_cons, List.flatten_cons] at h
          obtain ⟨h1, h2⟩ := List.append_inj h (hl.trans hl'.symm)
          rw [h1, ih hg h2]

/-- Between two keys with the same leading columns there are only keys with these columns. -/
theorem front_eq_of_between {others : List Bytes} (back : List ColMeta) (hk : KeyCols front)
    (hf : Fields front fields) (hg : Fields front others) (low mid high : Bytes)
    (hlow : keyCode (layoutOf (front ++ back)) (fields.flatten ++ low) ≤
      keyCode (layoutOf (front ++ back)) (others.flatten ++ mid))
    (hhigh : keyCode (layoutOf (front ++ back)) (others.flatten ++ mid) ≤
      keyCode (layoutOf (front ++ back)) (fields.flatten ++ high)) : fields = others := by
  have hlen := keyCode_length (layoutOf front) (hf.length_flatten.trans hg.length_flatten.symm)
  rw [keyCode_append hk hf, keyCode_append hk hg, ← not_lt, lex_append hlen.symm] at hlow
  rw [keyCode_append hk hf, keyCode_append hk hg, ← not_lt, lex_append hlen] at hhigh
  refine hf.ext hg (keyCode_inj _ hk.layout hf.length_flatten hg.length_flatten ?_)
  exact le_antisymm (not_lt.1 fun hc => hlow (.inl hc)) (not_lt.1 fun hc => hhigh (.inl hc))

end Key

end Rmdb
