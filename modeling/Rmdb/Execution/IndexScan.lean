import Rmdb.Execution.ColumnOrder
import Rmdb.Index.Emptied

namespace Rmdb

open Value ConditionCheck IxManager RmFileHandle

def Table.rows (tab : Table) : List (Rid × Bytes) :=
  tab.fh.rids.map fun rid => (rid, (tab.fh.entry rid).getD [])

def IndexMeta.rowKey (ix : IndexMeta) (record : Bytes) : Bytes :=
  (ix.cols.map fun c => c.slice record).flatten

/-- A table with an index that agrees with it. The columns of the index are those that the table
finds under their names, and text columns are filled up with NULs. When its last row has been
deleted, the index has no root page. -/
structure IndexedTable (tab : Table) (ix : IndexMeta) (ih : IxIndexHandle (Key ix.layout)) : Prop where
  file : RmInv tab.fh
  found : ∀ c ∈ ix.cols, getCol tab.cols ⟨tab.tabName, c.name⟩ = .ok c
  inside : ∀ c ∈ ix.cols, c.offset + c.len ≤ tab.fh.fileHdr.recordSize
  padded : ∀ c ∈ ix.cols, c.type = .string → ∀ row ∈ tab.rows, Padded (c.slice row.2)
  consistent : (∃ m, Sim ih m ∧ ∀ k r, m k = some r ↔
    ∃ record, (r, record) ∈ tab.rows ∧ k.1 = ix.rowKey record) ∨
    Emptied ih ∧ tab.rows = []

def Literal (tab : Table) (cond : Condition) : Prop :=
  cond.lhsCol.tabName = tab.tabName ∧
    ∃ col v, getCol tab.cols cond.lhsCol = .ok col ∧ cond.rhs = .val v ∧ col.Takes v

def Condition.passes (tab : Table) (cond : Condition) (record : Bytes) : Bool :=
  match cond.feed tab.cols with
  | .ok fed =>
      match checkSingleCondition fed record with
      | .ok b => b
      | .error _ => false
  | .error _ => false

section Table

variable {tab : Table} {rid : Rid} {record : Bytes}

theorem mem_rows (h : RmInv tab.fh) : (rid, record) ∈ tab.rows ↔ tab.fh.entry rid = some record := by
  rw [Table.rows, List.mem_map]
  constructor
  · rintro ⟨r, hr, heq⟩
    obtain ⟨rfl, rfl⟩ := Prod.mk.inj heq
    obtain ⟨record, hrec⟩ := Option.ne_none_iff_exists'.1 ((mem_rids h).1 hr)
    rw [hrec]
    rfl
  · intro hrec
    exact ⟨rid, (mem_rids h).2 (by rw [hrec]; simp), by rw [hrec]; rfl⟩

theorem read_rows (h : RmInv tab.fh) : ∀ r ∈ tab.fh.rids, tab.read r = .ok (r, (tab.fh.entry r).getD []) := by
  intro r hr
  obtain ⟨record, hrec⟩ := Option.ne_none_iff_exists'.1 ((mem_rids h).1 hr)
  simp [Table.read, getRecord_of_entry hrec, hrec, Except.mapError, bind, Except.bind, pure, Except.pure]

theorem record_length (h : RmInv tab.fh) (hrow : (rid, record) ∈ tab.rows) :
    record.length = tab.fh.fileHdr.recordSize := by
  have hrec := (mem_rows h).1 hrow
  rw [entry] at hrec
  split at hrec
  · cases hrec
  · split at hrec
    · rw [slotEntry] at hrec
      split at hrec
      · rw [← Option.some.inj hrec, bytesAt, List.length_map, List.length_range]
      · cases hrec
    · cases hrec

end Table

section Conditions

variable {tab : Table} {cond : Condition} {conds : List Condition} {record : Bytes}

theorem Literal.feed (h : Literal tab cond) : ∃ fed, cond.feed tab.cols = .ok fed ∧
    ∀ record, checkSingleCondition fed record = .ok (cond.passes tab record) := by
  obtain ⟨-, col, v, hcol, hrhs, htakes⟩ := h
  obtain ⟨w, hw, hwt⟩ := htakes.valueCast
  have hfeed : cond.feed tab.cols = .ok ⟨col, cond.op, .val w⟩ := by
    simp [Condition.feed, hcol, hrhs, hw, bind, Except.bind, pure, Except.pure]
  refine ⟨_, hfeed, fun record => ?_⟩
  obtain ⟨r, hr⟩ := checkSingleCondition_total htakes.ne_null hwt cond.op record
  rw [Condition.passes, hfeed]
  simp only [hr]

theorem feed_all (h : ∀ cond ∈ conds, Literal tab cond) :
    ∃ fed, conds.mapM (fun cond => cond.feed tab.cols) = .ok fed ∧
    ∀ record, checkConditions fed record = .ok (conds.all fun cond => cond.passes tab record) := by
  induction conds with
  | nil => exact ⟨[], rfl, fun _ => rfl⟩
  | cons cond conds ih =>
      obtain ⟨fed, hfed, hcheck⟩ := (h cond List.mem_cons_self).feed
      obtain ⟨feds, hfeds, hchecks⟩ := ih fun c hc => h c (List.mem_cons_of_mem _ hc)
      refine ⟨fed :: feds,
        by simp [List.mapM_cons, hfed, hfeds, bind, Except.bind, pure, Except.pure], fun record => ?_⟩
      rw [checkConditions, hcheck]
      cases hp : cond.passes tab record <;> simp [hchecks, hp, bind, Except.bind, pure, Except.pure]

theorem normalize_all (h : ∀ cond ∈ conds, Literal tab cond) :
    conds.mapM (IndexScanExecutor.normalize tab.tabName) = .ok conds := by
  induction conds with
  | nil => rfl
  | cons cond conds ih =>
      have hcond : IndexScanExecutor.normalize tab.tabName cond = .ok cond := by
        rw [IndexScanExecutor.normalize, if_pos (h cond List.mem_cons_self).1]
      simp [List.mapM_cons, hcond, ih fun c hc => h c (List.mem_cons_of_mem _ hc), bind, Except.bind,
        pure, Except.pure]

theorem SeqScanExecutor.run_spec (hfile : RmInv tab.fh) (h : ∀ cond ∈ conds, Literal tab cond) {fuel : Nat}
    (hfuel : tab.rows.length ≤ fuel) :
    run tab conds fuel = .ok (tab.rows.filter fun row => conds.all fun cond => cond.passes tab row.2) := by
  obtain ⟨fed, hfed, hcheck⟩ := feed_all h
  obtain ⟨rid, hstart, hyields⟩ := RmScan.scan_yields hfile
  have hrows : (scan tab).Yields rid tab.rows := hyields.read (read_rows hfile)
  obtain ⟨r, hseek, hfiltered⟩ := hrows.seek (checkRow fed) .outOfFuel (fun row _ => hcheck row.2) hfuel hfuel
  have hcollect := hfiltered.collect .outOfFuel (le_trans (List.length_filter_le _ _) hfuel)
  simp only [run, fedConds, hfed, beginTuple, hstart, Except.mapError, bind, Except.bind, hseek]
  exact hcollect

end Conditions

namespace IndexScanExecutor

section Ranges

variable {cols : List ColMeta} {name : String} {j : Nat} {conds : List Condition}
  {all : List (Condition × Nat)}

theorem colNameToIndex_spec (h : colNameToIndex cols name = some j) :
    ∃ col, cols[j]? = some col ∧ col.name = name := by
  induction cols generalizing j with
  | nil => cases h
  | cons c cols ih =>
      rw [colNameToIndex] at h
      split at h
      · rename_i i hi
        obtain rfl : i + 1 = j := by simpa using h
        exact ih hi
      · split at h
        · rename_i hname
          obtain rfl : 0 = j := by simpa using h
          exact ⟨c, rfl, hname⟩
        · cases h

def Bounds (col : ColMeta) (v : Value) (cond : Condition) : Prop :=
  cond.lhsCol.colName = col.name ∧ cond.rhs = .val v

structure RangeOf (all : List (Condition × Nat)) (col : ColMeta) (range : ColRange) : Prop where
  lower : ∀ v, range.lowerVal = some v → ∃ c ∈ all, Bounds col v c.1 ∧ (c.1.op = .gt ∨ c.1.op = .ge)
  upper : ∀ v, range.upperVal = some v → ∃ c ∈ all, Bounds col v c.1 ∧ (c.1.op = .lt ∨ c.1.op = .le)
  equal : ∀ v i, range.equalVal = some (v, i) → ∃ c ∈ all, Bounds col v c.1 ∧ c.1.op = .eq ∧ c.2 = i

theorem RangeOf.add {col : ColMeta} {range : ColRange} {c : Condition × Nat} {v : Value}
    (h : RangeOf all col range) (hc : c ∈ all) (hv : Bounds col v c.1) :
    RangeOf all col (range.add c.1.op v c.2) := by
  cases hop : c.1.op with
  | eq =>
      refine ⟨h.lower, h.upper, fun w i heq => ?_⟩
      obtain ⟨rfl, rfl⟩ : v = w ∧ c.2 = i := by simpa [ColRange.add] using heq
      exact ⟨c, hc, hv, hop, rfl⟩
  | ne => exact h
  | lt | le =>
      refine ⟨h.lower, fun w heq => ?_, h.equal⟩
      obtain rfl : v = w := by simpa [ColRange.add] using heq
      exact ⟨c, hc, hv, by simp [hop]⟩
  | gt | ge =>
      refine ⟨fun w heq => ?_, h.upper, h.equal⟩
      obtain rfl : v = w := by simpa [ColRange.add] using heq
      exact ⟨c, hc, hv, by simp [hop]⟩

def Ranges (all : List (Condition × Nat)) (cols : List ColMeta) (ranges : List ColRange) : Prop :=
  List.Forall₂ (RangeOf all) cols ranges

theorem Ranges.addCond {ranges : List ColRange} {c : Condition × Nat}
    (h : Ranges all cols ranges) (hc : c ∈ all) :
    Ranges all cols (addCond cols ranges c) := by
  rw [IndexScanExecutor.addCond]
  split
  · rename_i v j hv hj
    obtain ⟨col, hcol, hname⟩ := colNameToIndex_spec hj
    rw [Ranges, List.forall₂_iff_get] at h ⊢
    refine ⟨by rw [List.length_modify]; exact h.1, fun i hi hi' => ?_⟩
    rw [List.length_modify] at hi'
    have hi0 := h.2 i hi hi'
    simp only [List.get_eq_getElem, List.getElem_modify] at hi0 ⊢
    split
    · rename_i hij
      subst hij
      have hcol' : cols[j] = col := by simpa [List.getElem?_eq_getElem hi] using hcol
      exact hi0.add hc ⟨by rw [hcol', hname], hv⟩
    · exact hi0
  · exact h

variable (ix : IndexMeta)

theorem colRanges_spec : Ranges conds.zipIdx ix.cols (colRanges ix conds) := by
  have hfold : ∀ (cs : List (Condition × Nat)) (ranges : List ColRange), (∀ c ∈ cs, c ∈ conds.zipIdx) →
      Ranges conds.zipIdx ix.cols ranges →
      Ranges conds.zipIdx ix.cols (cs.foldl (addCond ix.cols) ranges) := by
    intro cs
    induction cs with
    | nil => exact fun _ _ h => h
    | cons c cs ih =>
        intro ranges hcs h
        exact ih _ (fun d hd => hcs d (List.mem_cons_of_mem _ hd)) (h.addCond (hcs c List.mem_cons_self))
  refine hfold _ _ (fun _ hc => hc) ?_
  rw [Ranges, List.forall₂_iff_get]
  refine ⟨by simp, fun i _ _ => ?_⟩
  simp only [List.get_eq_getElem, List.getElem_replicate]
  exact ⟨fun v h => (by cases h), fun v h => (by cases h), fun v i h => (by cases h)⟩

end Ranges

section Equal

variable {all : List (Condition × Nat)} {cols : List ColMeta} {ranges : List ColRange}

theorem Ranges.equal (h : Ranges all cols ranges) :
    List.Forall₂ (fun col e => ∃ c ∈ all, Bounds col e.1 c.1 ∧ c.1.op = .eq ∧ c.2 = e.2)
      (cols.take (((ranges.map ColRange.equalVal).takeWhile Option.isSome).filterMap id).length)
      (((ranges.map ColRange.equalVal).takeWhile Option.isSome).filterMap id) := by
  induction h with
  | nil => exact .nil
  | @cons col range cols ranges hr _ ih =>
      cases he : range.equalVal with
      | none => simp [he]
      | some e =>
          rw [List.map_cons, he, List.takeWhile_cons_of_pos rfl,
            List.filterMap_cons_some (f := id) (b := e) rfl, List.length_cons,
            List.take_succ_cons]
          exact .cons (hr.equal e.1 e.2 he) ih

variable {conds : List Condition} (ix : IndexMeta)

theorem equalVals_spec (conds : List Condition) :
    List.Forall₂ (fun col e => ∃ c ∈ conds.zipIdx, Bounds col e.1 c.1 ∧ c.1.op = .eq ∧ c.2 = e.2)
    (ix.cols.take (equalVals ix conds).length) (equalVals ix conds) := (colRanges_spec ix).equal

end Equal

section Keys

variable {tab : Table} {ix : IndexMeta} {ih : IxIndexHandle (Key ix.layout)} {conds : List Condition}
  {cond : Condition} {col : ColMeta} {v : Value} {row : Rid × Bytes}

def fieldOf (col : ColMeta) (v : Value) : Bytes :=
  match fieldBytes col v with
  | .ok field => field
  | .error _ => []

theorem fieldOf_eq {field : Bytes} (h : fieldBytes col v = .ok field) :
    fieldOf col v = field := by rw [fieldOf, h]

variable (ht : IndexedTable tab ix ih) (hcol : col ∈ ix.cols) (hlit : Literal tab cond)
  (hb : Bounds col v cond)

include ht hcol hlit hb

theorem bounds_takes : col.Takes v ∧ ∀ w, v.valueCast col.type = .ok w →
    cond.feed tab.cols = .ok ⟨col, cond.op, .val w⟩ := by
  obtain ⟨htab, col', v', hcol', hrhs, htakes⟩ := hlit
  have hlhs : cond.lhsCol = ⟨tab.tabName, col.name⟩ := by
    rw [← htab, ← hb.1]
  rw [hlhs, ht.found col hcol] at hcol'
  obtain rfl : col = col' := by simpa using hcol'
  obtain rfl : v = v' := by simpa using hb.2.symm.trans hrhs
  refine ⟨htakes, fun w hw => ?_⟩
  simp [Condition.feed, hlhs, ht.found col hcol, hrhs, hw, bind, Except.bind, pure, Except.pure]

theorem bounds_field : fieldBytes col v = .ok (fieldOf col v) ∧ (fieldOf col v).length = col.len := by
  obtain ⟨field, hfield, hlen⟩ := (bounds_takes ht hcol hlit hb).1.exists_field (ix.typed col hcol)
  rw [fieldOf_eq hfield]
  exact ⟨hfield, hlen⟩

variable (hrow : row ∈ tab.rows)

omit hlit hb in
include hrow in
theorem column_inside : col.offset + col.len ≤ row.2.length := by
  rw [record_length ht.file (show (row.1, row.2) ∈ tab.rows from hrow)]
  exact ht.inside col hcol

include hrow in
theorem passes_eq (hop : cond.op = .eq) :
    cond.passes tab row.2 = decide (fieldOf col v = col.slice row.2) := by
  obtain ⟨htakes, hfeed⟩ := bounds_takes ht hcol hlit hb
  obtain ⟨w, hw, hcheck⟩ := check_eq_field (ix.typed col hcol) htakes (bounds_field ht hcol hlit hb).1
    (column_inside ht hcol hrow) fun hs => ht.padded col hcol hs row hrow
  rw [Condition.passes, hfeed w hw, hop]
  simp only [hcheck]

include hrow in
theorem lower_le (hop : cond.op = .gt ∨ cond.op = .ge) (hp : cond.passes tab row.2 = true) :
    col.code (fieldOf col v) ≤ col.code (col.slice row.2) := by
  obtain ⟨htakes, hfeed⟩ := bounds_takes ht hcol hlit hb
  obtain ⟨w, hw, -⟩ := htakes.valueCast
  refine check_lower_field (ix.typed col hcol) htakes (bounds_field ht hcol hlit hb).1
    (column_inside ht hcol hrow)
    (fun hs => ht.padded col hcol hs row hrow) hw hop ?_
  obtain ⟨fed, hfed, hcheck⟩ := hlit.feed
  rw [hfeed w hw] at hfed
  obtain rfl : _ = fed := by simpa using hfed
  rw [hcheck, hp]

include hrow in
theorem upper_ge (hop : cond.op = .lt ∨ cond.op = .le ∧ col.Covers v) (hp : cond.passes tab row.2 = true) :
    col.code (col.slice row.2) ≤ col.code (fieldOf col v) := by
  obtain ⟨htakes, hfeed⟩ := bounds_takes ht hcol hlit hb
  obtain ⟨w, hw, -⟩ := htakes.valueCast
  refine check_upper_field (ix.typed col hcol) htakes (bounds_field ht hcol hlit hb).1
    (column_inside ht hcol hrow)
    (fun hs => ht.padded col hcol hs row hrow) hw hop ?_
  obtain ⟨fed, hfed, hcheck⟩ := hlit.feed
  rw [hfeed w hw] at hfed
  obtain rfl : _ = fed := by simpa using hfed
  rw [hcheck, hp]

end Keys

section Build

variable {cols : List ColMeta}

theorem buildEqualKey_spec {equal : List (Value × Nat)}
    (h : List.Forall₂ (fun col e => fieldBytes col e.1 = .ok (fieldOf col e.1))
      (cols.take equal.length) equal) :
    buildEqualKey cols (equal.map Prod.fst) =
      .ok (List.zipWith (fun col e => fieldOf col e.1) cols equal) := by
  induction equal generalizing cols with
  | nil => cases cols <;> simp [buildEqualKey]
  | cons e equal ih =>
      cases cols with
      | nil => cases h
      | cons col cols =>
          rw [List.length_cons, List.take_succ_cons, List.forall₂_cons] at h
          simp [buildEqualKey, h.1, ih h.2, bind, Except.bind, pure, Except.pure]

theorem buildRangeKey_spec (P : ColMeta → Bytes → Prop) (bound : ColRange → Option Value)
    (filler : ColMeta → Bytes) {ranges : List ColRange} (hfill : ∀ c ∈ cols, P c (filler c))
    (h : List.Forall₂ (fun col range => ∀ v, bound range = some v →
      fieldBytes col v = .ok (fieldOf col v) ∧ P col (fieldOf col v))
      cols ranges) :
    ∃ back, buildRangeKey cols (ranges.map bound) (cols.map filler) = .ok back ∧
      List.Forall₂ P cols back := by
  have hfills : ∀ cs : List ColMeta, (∀ c ∈ cs, P c (filler c)) → List.Forall₂ P cs (cs.map filler) := by
    intro cs hcs
    rw [List.forall₂_map_right_iff, List.forall₂_same]
    exact hcs
  induction h with
  | nil => exact ⟨[], by simp [buildRangeKey], .nil⟩
  | @cons col range cols ranges hr _ ih =>
      cases hb : bound range with
      | none => exact ⟨_, by simp [buildRangeKey, hb], hfills _ hfill⟩
      | some v =>
          obtain ⟨hfield, hP⟩ := hr v hb
          obtain ⟨back, hback, hall⟩ := ih fun c hc => hfill c (List.mem_cons_of_mem _ hc)
          exact ⟨fieldOf col v :: back,
            by simp [buildRangeKey, hb, hfield, hback, bind, Except.bind, pure, Except.pure],
            .cons hP hall⟩

end Build

section Bounds

variable {tab : Table} {ix : IndexMeta} {ih : IxIndexHandle (Key ix.layout)} {conds : List Condition}

def frontFields (ix : IndexMeta) (conds : List Condition) : List Bytes :=
  List.zipWith (fun col e => fieldOf col e.1) ix.cols (equalVals ix conds)

def EqualAt (ix : IndexMeta) (conds : List Condition) (col : ColMeta) (e : Value × Nat) : Prop :=
  col ∈ ix.cols ∧ ∃ c ∈ conds.zipIdx, Bounds col e.1 c.1 ∧ c.1.op = .eq ∧ c.2 = e.2

theorem equalAt :
    List.Forall₂ (EqualAt ix conds) (ix.cols.take (equalVals ix conds).length) (equalVals ix conds) := by
  have h := equalVals_spec ix conds
  rw [List.forall₂_iff_get] at h ⊢
  exact ⟨h.1, fun i hi hi' => ⟨List.mem_of_mem_take (List.get_mem _ _), h.2 i hi hi'⟩⟩

theorem forall₂_zipWith {A B C : Type} {Q : A → B → Prop} {R : A → C → Prop} {g : A → B → C}
    {as : List A} {bs : List B} (h : List.Forall₂ Q (as.take bs.length) bs)
    (hR : ∀ a b, Q a b → R a (g a b)) :
    List.Forall₂ R (as.take bs.length) (List.zipWith g as bs) := by
  induction bs generalizing as with
  | nil => simp
  | cons b bs iht =>
      cases as with
      | nil => cases h
      | cons a as =>
          rw [List.length_cons, List.take_succ_cons, List.forall₂_cons] at h
          exact .cons (hR a b h.1) (iht h.2)

theorem zipWith_eq_map {A B C : Type} {Q : A → B → Prop} {g : A → B → C} {k : A → C}
    {as : List A} {bs : List B} (h : List.Forall₂ Q (as.take bs.length) bs)
    (heq : List.zipWith g as bs = (as.take bs.length).map k) :
    ∀ b ∈ bs, ∃ a, Q a b ∧ g a b = k a := by
  induction bs generalizing as with
  | nil => simp
  | cons b bs iht =>
      cases as with
      | nil => cases h
      | cons a as =>
          rw [List.length_cons, List.take_succ_cons, List.forall₂_cons] at h
          rw [List.zipWith_cons_cons, List.length_cons, List.take_succ_cons, List.map_cons,
            List.cons.injEq] at heq
          exact List.forall_mem_cons.2 ⟨⟨a, h.1, heq.1⟩, iht h.2 heq.2⟩

theorem forall₂_split {A B : Type} {R : A → B → Prop} {as : List A} {bs cs : List B} {n : Nat}
    (hfront : List.Forall₂ R (as.take n) bs) (hback : List.Forall₂ R (as.drop n) cs) :
    List.Forall₂ R as (bs ++ cs) := by
  have h : List.Forall₂ R (as.take n ++ as.drop n) (bs ++ cs) := List.rel_append hfront hback
  rwa [List.take_append_drop] at h

variable (ht : IndexedTable tab ix ih) (hlit : ∀ cond ∈ conds, Literal tab cond)

include ht hlit

theorem EqualAt.field {col : ColMeta} {e : Value × Nat} (h : EqualAt ix conds col e) :
    fieldBytes col e.1 = .ok (fieldOf col e.1) ∧ (fieldOf col e.1).length = col.len := by
  obtain ⟨hcol, c, hc, hb, -⟩ := h
  exact bounds_field ht hcol (hlit c.1 (List.fst_mem_of_mem_zipIdx hc)) hb

theorem frontFields_spec : Fields (ix.cols.take (equalVals ix conds).length) (frontFields ix conds) :=
  forall₂_zipWith equalAt fun _ _ h => (h.field ht hlit).2

/-- The ends of the range: the equalities in front, fields with the given property behind. -/
theorem boundFields_spec (filler : ColMeta → Bytes) (bound : ColRange → Option Value)
    (P : ColMeta → Bytes → Prop) (hfill : ∀ c ∈ ix.cols, P c (filler c))
    (hbound : ∀ col ∈ ix.cols, ∀ range, RangeOf conds.zipIdx col range → ∀ v,
      bound range = some v → fieldBytes col v = .ok (fieldOf col v) ∧ P col (fieldOf col v)) :
    ∃ back, boundFields ix conds filler bound = .ok (frontFields ix conds ++ back) ∧
      List.Forall₂ P (ix.cols.drop (equalVals ix conds).length) back := by
  have hfront := buildEqualKey_spec (equalAt.imp fun _ _ h => (h.field ht hlit).1)
  have hranges : Ranges conds.zipIdx (ix.cols.drop (equalVals ix conds).length)
      ((colRanges ix conds).drop (equalVals ix conds).length) := List.forall₂_drop _ (colRanges_spec ix)
  obtain ⟨back, hback, hall⟩ := buildRangeKey_spec P bound filler
    (fun c hc => hfill c (List.mem_of_mem_drop hc)) (by
      rw [Ranges, List.forall₂_iff_get] at hranges
      rw [List.forall₂_iff_get]
      exact ⟨hranges.1, fun i hi hi' => hbound _ (List.mem_of_mem_drop (List.get_mem _ _)) _
        (hranges.2 i hi hi')⟩)
  refine ⟨back, ?_, hall⟩
  simp only [boundFields, List.length_map, hfront, hback, bind, Except.bind, pure, Except.pure]
  rfl

omit ht hlit in
theorem toKey_spec {fields : List Bytes} (h : Fields ix.cols fields) :
    ∃ key, toKey ix fields = .ok key ∧ key.1 = fields.flatten :=
  ⟨⟨fields.flatten, h.length_flatten⟩, dif_pos h.length_flatten, rfl⟩

theorem fields_append {back : List Bytes} (hback : Fields (ix.cols.drop (equalVals ix conds).length) back) :
    Fields ix.cols (frontFields ix conds ++ back) :=
  forall₂_split (frontFields_spec ht hlit) hback

omit ht hlit in
theorem lowestField_spec {col : ColMeta} (hc : col.type = .int ∧ col.len = 4 ∨ col.type = .string) :
    (lowestField col).length = col.len ∧ ∀ field :
    Bytes, field.length = col.len → col.code (lowestField col) ≤ col.code field := by
  rcases hc with ⟨htype, hl⟩ | htype
  · have hlow : lowestField col = intBytes Int32.minValue := by rw [lowestField, htype]
    rw [hlow]
    refine ⟨hl.symm, fun field _ => ?_⟩
    rw [code_int htype, code_int htype, readInt_intBytes, ← not_lt, List.cons_lt_cons_iff]
    have hrange := (readInt_range field).1
    have hmin : Int32.minValue.toInt = -2147483648 := rfl
    rw [hmin]
    simp
    omega
  · have hlow : lowestField col = List.replicate col.len 0 := by rw [lowestField, htype]
    rw [hlow]
    refine ⟨List.length_replicate, fun field hf => ?_⟩
    rw [code_string htype List.length_replicate, code_string htype hf, ← hf]
    clear hf
    induction field with
    | nil => exact le_refl _
    | cons b field iht =>
        rw [List.length_cons, List.replicate_succ, unsignedBytes, unsignedBytes, List.map_cons,
          List.map_cons, ← not_lt, List.cons_lt_cons_iff]
        rintro (hlt | ⟨-, hlt⟩)
        · simp at hlt
          omega
        · exact absurd hlt (not_lt.2 iht)

omit ht hlit in
theorem highestField_spec {col : ColMeta} (hc : col.type = .int ∧ col.len = 4 ∨ col.type = .string) :
    (highestField col).length = col.len ∧ ∀ field :
    Bytes, field.length = col.len → col.code field ≤ col.code (highestField col) := by
  rcases hc with ⟨htype, hl⟩ | htype
  · have hhigh : highestField col = intBytes Int32.maxValue := by rw [highestField, htype]
    rw [hhigh]
    refine ⟨hl.symm, fun field _ => ?_⟩
    rw [code_int htype, code_int htype, readInt_intBytes, ← not_lt, List.cons_lt_cons_iff]
    have hrange := (readInt_range field).2
    have hmax : Int32.maxValue.toInt = 2147483647 := rfl
    rw [hmax]
    simp
    omega
  · have hhigh : highestField col = List.replicate col.len 0xFF := by rw [highestField, htype]
    rw [hhigh]
    refine ⟨List.length_replicate, fun field hf => ?_⟩
    rw [code_string htype List.length_replicate, code_string htype hf, ← hf]
    clear hf
    induction field with
    | nil => exact le_refl _
    | cons b field iht =>
        have hb := b.toNat_lt
        rw [List.length_cons, List.replicate_succ, unsignedBytes, unsignedBytes, List.map_cons,
          List.map_cons, ← not_lt, List.cons_lt_cons_iff]
        rintro (hlt | ⟨-, hlt⟩)
        · simp at hlt
          omega
        · exact absurd hlt (not_lt.2 iht)

theorem front_meets {row : Rid × Bytes} (hrow : row ∈ tab.rows)
    (hpass : ∀ cond ∈ conds, cond.passes tab row.2 = true) :
    List.Forall₂ (fun c f => f.length = c.len ∧ c.code f = c.code (c.slice row.2))
      (ix.cols.take (equalVals ix conds).length) (frontFields ix conds) := by
  refine forall₂_zipWith equalAt fun col e he => ⟨(he.field ht hlit).2, ?_⟩
  obtain ⟨hcol, c, hc, hb, hop, -⟩ := he
  have hmem := List.fst_mem_of_mem_zipIdx hc
  have heq := passes_eq ht hcol (hlit c.1 hmem) hb hrow hop
  rw [hpass c.1 hmem] at heq
  rw [of_decide_eq_true heq.symm]

theorem lowerKey_spec :
    ∃ lo back, lowerKey ix conds = .ok lo ∧ lo.1 = (frontFields ix conds ++ back).flatten ∧
    Fields (ix.cols.drop (equalVals ix conds).length) back ∧
    ∀ row ∈ tab.rows, (∀ cond ∈ conds, cond.passes tab row.2 = true) →
      keyCode (layoutOf ix.cols) lo.1 ≤ keyCode (layoutOf ix.cols) (ix.rowKey row.2) := by
  obtain ⟨back, hrun, hall⟩ := boundFields_spec ht hlit lowestField ColRange.lowerVal
    (fun c f => f.length = c.len ∧ ∀ row ∈ tab.rows, (∀ cond ∈ conds, cond.passes tab row.2 = true) →
      c.code f ≤ c.code (c.slice row.2))
    (fun c hc => ⟨(lowestField_spec (ix.typed c hc)).1, fun row hrow _ =>
      (lowestField_spec (ix.typed c hc)).2 _ (slice_length (column_inside ht hc hrow))⟩)
    (fun col hcol range hrange v hv => by
      obtain ⟨c, hc, hb, hop⟩ := hrange.lower v hv
      have hlitc := hlit c.1 (List.fst_mem_of_mem_zipIdx hc)
      obtain ⟨hfield, hlen⟩ := bounds_field ht hcol hlitc hb
      exact ⟨hfield, hlen, fun row hrow hpass =>
        lower_le ht hcol hlitc hb hrow hop (hpass c.1 (List.fst_mem_of_mem_zipIdx hc))⟩)
  have hback : Fields (ix.cols.drop (equalVals ix conds).length) back := hall.imp fun _ _ h => h.1
  obtain ⟨lo, hlo, hbytes⟩ := toKey_spec (fields_append ht hlit hback)
  refine ⟨lo, back, by simp only [lowerKey, hrun, bind, Except.bind, hlo], hbytes,
    hback, fun row hrow hpass => ?_⟩
  have hfields : List.Forall₂ (fun c f => f.length = c.len ∧ c.code f ≤ c.code (c.slice row.2)) ix.cols
      (frontFields ix conds ++ back) :=
        forall₂_split ((front_meets ht hlit hrow hpass).imp fun _ _ h => ⟨h.1, h.2.le⟩)
    (hall.imp fun _ _ h => ⟨h.1, h.2 row hrow hpass⟩)
  rw [hbytes]
  exact keyCode_rel (le_refl _) (fun _ _ _ _ => append_le_append) ix.typed
    (fun c hc => column_inside ht hc hrow) hfields

/-- No comparison with `<=` on a text column of the index stops before the end of the column. -/
def Covered (ix : IndexMeta) (conds : List Condition) : Prop :=
  ∀ cond ∈ conds, ∀ col ∈ ix.cols, ∀ v, Bounds col v cond → cond.op = .le → col.Covers v

/-- Every row that meets the conditions lies at or below the upper end, if the comparisons with
`<=` cover their columns. -/
theorem upperKey_spec :
    ∃ hi back, upperKey ix conds = .ok hi ∧ hi.1 = (frontFields ix conds ++ back).flatten ∧
    Fields (ix.cols.drop (equalVals ix conds).length) back ∧
    (Covered ix conds → ∀ row ∈ tab.rows, (∀ cond ∈ conds, cond.passes tab row.2 = true) →
      keyCode (layoutOf ix.cols) (ix.rowKey row.2) ≤ keyCode (layoutOf ix.cols) hi.1) := by
  obtain ⟨back, hrun, hall⟩ := boundFields_spec ht hlit highestField ColRange.upperVal
    (fun c f => f.length = c.len ∧
      (Covered ix conds → ∀ row ∈ tab.rows, (∀ cond ∈ conds, cond.passes tab row.2 = true) →
      c.code (c.slice row.2) ≤ c.code f))
    (fun c hc => ⟨(highestField_spec (ix.typed c hc)).1, fun _ row hrow _ =>
      (highestField_spec (ix.typed c hc)).2 _ (slice_length (column_inside ht hc hrow))⟩)
    (fun col hcol range hrange v hv => by
      obtain ⟨c, hc, hb, hop⟩ := hrange.upper v hv
      have hmem := List.fst_mem_of_mem_zipIdx hc
      obtain ⟨hfield, hlen⟩ := bounds_field ht hcol (hlit c.1 hmem) hb
      exact ⟨hfield, hlen, fun hcov row hrow hpass => upper_ge ht hcol (hlit c.1 hmem) hb hrow
        (hop.imp_right fun hle => ⟨hle, hcov c.1 hmem col hcol v hb hle⟩) (hpass c.1 hmem)⟩)
  have hback : Fields (ix.cols.drop (equalVals ix conds).length) back := hall.imp fun _ _ h => h.1
  obtain ⟨hi, hhi, hbytes⟩ := toKey_spec (fields_append ht hlit hback)
  refine ⟨hi, back, by simp only [upperKey, hrun, bind, Except.bind, hhi], hbytes,
    hback, fun hcov row hrow hpass => ?_⟩
  have hfields : List.Forall₂ (fun c f => f.length = c.len ∧ c.code (c.slice row.2) ≤ c.code f) ix.cols
      (frontFields ix conds ++ back) :=
        forall₂_split ((front_meets ht hlit hrow hpass).imp fun _ _ h => ⟨h.1, h.2.ge⟩)
    (hall.imp fun _ _ h => ⟨h.1, h.2 hcov row hrow hpass⟩)
  rw [hbytes]
  exact keyCode_rel (S := fun x y => y ≤ x) (le_refl _) (fun _ _ _ _ hl => append_le_append hl.symm) ix.typed
    (fun c hc => column_inside ht hc hrow) hfields

/-- If all conditions are equalities, the range is not turned round. -/
theorem lower_le_upper (heq : ∀ cond ∈ conds, cond.op = .eq) {lo hi : Key ix.layout}
    (hlo : lowerKey ix conds = .ok lo) (hhi : upperKey ix conds = .ok hi) :
    keyCode (layoutOf ix.cols) lo.1 ≤ keyCode (layoutOf ix.cols) hi.1 := by
  obtain ⟨back, hrun, hall⟩ := boundFields_spec ht hlit lowestField ColRange.lowerVal
    (fun c f => f.length = c.len ∧ ∀ g : Bytes, g.length = c.len → c.code f ≤ c.code g)
    (fun c hc => lowestField_spec (ix.typed c hc))
    (fun col _ range hrange v hv => by
      obtain ⟨c, hc, -, hop⟩ := hrange.lower v hv
      rw [heq c.1 (List.fst_mem_of_mem_zipIdx hc)] at hop
      rcases hop with hop | hop <;> cases hop)
  have hback : Fields (ix.cols.drop (equalVals ix conds).length) back := hall.imp fun _ _ h => h.1
  obtain ⟨lo', hlo', hlobytes⟩ := toKey_spec (fields_append ht hlit hback)
  have hlower : lowerKey ix conds = .ok lo' := by simp only [lowerKey, hrun, bind, Except.bind, hlo']
  cases hlo.symm.trans hlower
  obtain ⟨hi', high, hhi', hhibytes, hhigh, -⟩ := upperKey_spec ht hlit
  cases hhi.symm.trans hhi'
  have hfront : KeyCols (ix.cols.take (equalVals ix conds).length) := fun c hc =>
    ix.typed c (List.mem_of_mem_take hc)
  have hcols : layoutOf ix.cols = layoutOf
      (ix.cols.take (equalVals ix conds).length ++ ix.cols.drop (equalVals ix conds).length) := by
    rw [List.take_append_drop]
  rw [hlobytes, hhibytes, List.flatten_append, List.flatten_append, hcols,
    keyCode_append hfront (frontFields_spec ht hlit), keyCode_append hfront (frontFields_spec ht hlit)]
  exact append_le_append rfl (le_refl _)
    (keyCode_lowest (fun c hc => ix.typed c (List.mem_of_mem_drop hc)) hall hhigh)

theorem passes_of_between {lo hi : Key ix.layout} (hlo : lowerKey ix conds = .ok lo)
    (hhi : upperKey ix conds = .ok hi) {row : Rid × Bytes} (hrow : row ∈ tab.rows) {k : Key ix.layout}
    (hk : k.1 = ix.rowKey row.2) (hlok : lo ≤ k) (hkhi : k ≤ hi) :
    (∀ cond ∈ conds, cond.passes tab row.2 = true) ↔
      ∀ cond ∈ residual ix conds, cond.passes tab row.2 = true := by
  obtain ⟨lo', low, hlo', hlow, -⟩ := lowerKey_spec ht hlit
  obtain ⟨hi', high, hhi', hhigh, -, -⟩ := upperKey_spec ht hlit
  cases hlo.symm.trans hlo'
  cases hhi.symm.trans hhi'
  have hslices : Fields (ix.cols.take (equalVals ix conds).length)
      ((ix.cols.take (equalVals ix conds).length).map fun c => c.slice row.2) :=
    Fields.of_slices fun c hc => column_inside ht (List.mem_of_mem_take hc) hrow
  have hkey : k.1 = ((ix.cols.take (equalVals ix conds).length).map fun c => c.slice row.2).flatten ++
      ((ix.cols.drop (equalVals ix conds).length).map fun c => c.slice row.2).flatten := by
    rw [hk, IndexMeta.rowKey, ← List.flatten_append, ← List.map_append, List.take_append_drop]
  have hfront : frontFields ix conds = (ix.cols.take (equalVals ix conds).length).map fun c =>
      c.slice row.2 := by
    refine front_eq_of_between (ix.cols.drop (equalVals ix conds).length)
      (fun c hc => ix.typed c (List.mem_of_mem_take hc))
      (frontFields_spec ht hlit) hslices low.flatten
      ((ix.cols.drop (equalVals ix conds).length).map fun c => c.slice row.2).flatten high.flatten ?_ ?_
    · rw [List.take_append_drop, ← hkey, ← List.flatten_append, ← hlow]
      exact hlok
    · rw [List.take_append_drop, ← hkey, ← List.flatten_append, ← hhigh]
      exact hkhi
  have hused := zipWith_eq_map equalAt hfront
  constructor
  · intro h cond hcond
    obtain ⟨c, hc, rfl⟩ := List.mem_map.1 hcond
    exact h c.1 (List.fst_mem_of_mem_zipIdx (List.mem_filter.1 hc).1)
  · intro h cond hcond
    obtain ⟨i, hi⟩ := List.mem_iff_getElem?.1 hcond
    have hmem : (cond, i) ∈ conds.zipIdx := List.mk_mem_zipIdx_iff_getElem?.2 hi
    by_cases hui : i ∈ (equalVals ix conds).map Prod.snd
    · obtain ⟨e, he, rfl⟩ := List.mem_map.1 hui
      obtain ⟨col, ⟨hcol, c, hc, hb, hop, hidx⟩, heq⟩ := hused e he
      have hsame : c.1 = cond := by
        have h1 := List.mk_mem_zipIdx_iff_getElem?.1 (show (c.1, c.2) ∈ conds.zipIdx from hc)
        rw [hidx, hi] at h1
        exact (Option.some.inj h1).symm
      rw [← hsame, passes_eq ht hcol (hlit c.1 (List.fst_mem_of_mem_zipIdx hc)) hb hrow hop]
      exact decide_eq_true heq
    · exact h cond (List.mem_map.2 ⟨(cond, i), List.mem_filter.2 ⟨hmem, by simpa using hui⟩, rfl⟩)

end Bounds

def rowCode (ix : IndexMeta) (row : Rid × Bytes) : List Int := keyCode ix.layout.cols (ix.rowKey row.2)

def endCode (ix : IndexMeta) (key : Key ix.layout) : List Int := keyCode ix.layout.cols key.1

section Run

variable {tab : Table} {ix : IndexMeta} {ih : IxIndexHandle (Key ix.layout)} {conds : List Condition}
  (ht : IndexedTable tab ix ih) (hlit : ∀ cond ∈ conds, Literal tab cond) {lo hi : Key ix.layout}
  (hlo : lowerKey ix conds = .ok lo) (hhi : upperKey ix conds = .ok hi)

include ht

theorem exists_rowKey {row : Rid × Bytes} (hrow : row ∈ tab.rows) : ∃ k :
    Key ix.layout, k.1 = ix.rowKey row.2 := by
  have hlen : (ix.rowKey row.2).length = colTotLen ix.layout.cols :=
    (Fields.of_slices fun c hc => column_inside ht hc hrow).length_flatten
  exact ⟨⟨ix.rowKey row.2, hlen⟩, rfl⟩

theorem emptied_of_rootless (hroot : ih.fileHdr.rootPage = -1) : Emptied ih ∧ tab.rows = [] := by
  rcases ht.consistent with ⟨m, ⟨es, hvalid, -⟩, -⟩ | hempty
  · exact absurd hroot hvalid.root_ne
  · exact hempty

/-- Without a root page the descent to the first leaf throws. -/
theorem run_rootless (hroot : ih.fileHdr.rootPage = -1) (fuel : Nat) (rows : List (Rid × Bytes)) :
    run conds tab ih fuel ≠ .ok rows := by
  obtain ⟨hempty, -⟩ := emptied_of_rootless ht hroot
  have hlower : ∀ k, ∃ e, ih.lowerBound k = .error e := by
    intro k
    obtain ⟨e, he⟩ := findLeafPage_rootless hempty.root hempty.noPage k
    exact ⟨e, by rw [IxIndexHandle.lowerBound, he]; rfl⟩
  have hbegin : ∀ conds fed, ∃ e, beginTuple conds tab ih fed fuel = .error e := by
    intro conds fed
    rw [beginTuple]
    cases lowerKey ix conds with
    | error e => exact ⟨e, rfl⟩
    | ok lo =>
        obtain ⟨e, he⟩ := hlower lo
        exact ⟨.index e, by simp only [he, Except.mapError, bind, Except.bind]⟩
  intro hc
  rw [run] at hc
  cases hfed : fedConds ix conds tab with
  | error e => rw [hfed] at hc; cases hc
  | ok fed =>
      cases hconds : conds.mapM (normalize tab.tabName) with
      | error e => rw [hfed, hconds] at hc; cases hc
      | ok conds' =>
          obtain ⟨e, he⟩ := hbegin conds' fed
          rw [hfed, hconds] at hc
          simp only [bind, Except.bind, he] at hc
          cases hc

theorem entries_rows (hroot : ih.fileHdr.rootPage ≠ -1) : ∃ es, Valid ih es ∧
    (∀ k r, (k, r) ∈ es ↔ ∃ record, (r, record) ∈ tab.rows ∧ k.1 = ix.rowKey record) ∧
    (∀ row ∈ tab.rows, ∃ k, (k, row.1) ∈ es ∧ k.1 = ix.rowKey row.2) ∧ (∀ e ∈ es, e.2 ∈ tab.fh.rids) ∧
    (es.map Prod.snd).Nodup := by
  obtain ⟨m, ⟨es, hvalid, hes⟩, hm⟩ := ht.consistent.resolve_right fun h => hroot h.1.root
  have hmem : ∀ k r, (k, r) ∈ es ↔ ∃ record, (r, record) ∈ tab.rows ∧ k.1 = ix.rowKey record := fun k r =>
    (hes k r).trans (hm k r)
  refine ⟨es, hvalid, hmem, fun row hrow => ?_, fun e he => ?_, ?_⟩
  · obtain ⟨k, hk⟩ := exists_rowKey ht hrow
    exact ⟨k, (hmem _ _).2 ⟨row.2, hrow, hk⟩, hk⟩
  · obtain ⟨record, hrow, -⟩ := (hmem e.1 e.2).1 he
    exact (mem_rids ht.file).2 (by rw [(mem_rows ht.file).1 hrow]; simp)
  · refine List.Nodup.map_on (fun e he e' he' hrid => ?_) (hvalid.sorted.imp fun hlt heq => (heq ▸ hlt).false)
    obtain ⟨record, hrow, hk⟩ := (hmem e.1 e.2).1 he
    obtain ⟨record', hrow', hk'⟩ := (hmem e'.1 e'.2).1 he'
    rw [hrid] at hrow
    have hrecord : record = record' :=
      Option.some.inj (((mem_rows ht.file).1 hrow).symm.trans ((mem_rows ht.file).1 hrow'))
    exact Prod.ext (Subtype.ext (by rw [hk, hk', hrecord])) hrid

include hlit hlo hhi

/-- What an index scan with a root page does: it returns the rows of the range that meet the other
conditions, or it breaks when there is a row between the upper and the lower end. -/
theorem run_spec (hroot : ih.fileHdr.rootPage ≠ -1) :
    ((∀ row ∈ tab.rows, ¬ (endCode ix hi < rowCode ix row ∧ rowCode ix row < endCode ix lo)) →
      ∃ N rows, (∀ fuel, N ≤ fuel → run conds tab ih fuel = .ok rows) ∧ rows.Nodup ∧
        ∀ row, row ∈ rows ↔ row ∈ tab.rows ∧
        (endCode ix lo ≤ rowCode ix row ∧ rowCode ix row ≤ endCode ix hi) ∧
        ∀ cond ∈ residual ix conds, cond.passes tab row.2 = true) ∧
    ((∃ row ∈ tab.rows, endCode ix hi < rowCode ix row ∧ rowCode ix row < endCode ix lo) →
      ∀ fuel rows, run conds tab ih fuel ≠ .ok rows) := by
  obtain ⟨es, hvalid, hes, hrowkey, hrids, hnodup⟩ := entries_rows ht hroot
  obtain ⟨a, b, ha, hb, hyields, hbreaks⟩ := hvalid.range_scan lo hi
  have hres : ∀ cond ∈ residual ix conds, Literal tab cond := by
    intro cond hcond
    obtain ⟨c, hc, rfl⟩ := List.mem_map.1 hcond
    exact hlit c.1 (List.fst_mem_of_mem_zipIdx (List.mem_filter.1 hc).1)
  obtain ⟨fed, hfed, hcheck⟩ := feed_all hres
  have hrun : ∀ fuel, run conds tab ih fuel =
    (scan tab ih b).seek (checkRow fed) .outOfFuel fuel a >>= fun s =>
      (cursor tab ih b fed fuel).collect .outOfFuel fuel s := by
    intro fuel
    simp only [run, fedConds, normalize_all hlit, beginTuple, hlo, hhi, ha, hb, hfed, Except.mapError,
      bind, Except.bind, pure, Except.pure]
    cases (scan tab ih b).seek (checkRow fed) .outOfFuel fuel a <;> rfl
  refine ⟨fun hnone => ?_, ?_⟩
  · have hscan : (scan tab ih b).Yields a
      (((es.filter fun e => lo ≤ e.1 ∧ e.1 ≤ hi).map Prod.snd).map fun r =>
        (r, (tab.fh.entry r).getD [])) := by
      refine (hyields ?_).read ?_
      · rintro e he ⟨h1, h2⟩
        obtain ⟨record, hrow, hk⟩ := (hes e.1 e.2).1 he
        refine hnone (e.2, record) hrow ⟨?_, ?_⟩
        · rw [rowCode, ← hk]; exact h1
        · rw [rowCode, ← hk]; exact h2
      · intro r hr
        obtain ⟨e, he, rfl⟩ := List.mem_map.1 hr
        exact read_rows ht.file _ (hrids e (List.mem_filter.1 he).1)
    obtain ⟨all, hall⟩ : ∃ all, all = ((es.filter fun e => lo ≤ e.1 ∧ e.1 ≤ hi).map Prod.snd).map fun r =>
        (r, (tab.fh.entry r).getD []) := ⟨_, rfl⟩
    rw [← hall] at hscan
    refine ⟨all.length, all.filter fun row => (residual ix conds).all fun cond =>
      cond.passes tab row.2, fun fuel hf => ?_, ?_, ?_⟩
    · obtain ⟨s, hseek, hfiltered⟩ := hscan.seek (checkRow fed) .outOfFuel (fun row _ => hcheck row.2) hf hf
      rw [hrun, hseek]
      exact hfiltered.collect .outOfFuel (le_trans (List.length_filter_le _ _) hf)
    · rw [hall]
      refine (List.Nodup.map (fun r r' h => (Prod.mk.inj h).1) ?_).filter _
      exact hnodup.sublist (List.filter_sublist.map Prod.snd)
    · intro row
      rw [List.mem_filter, List.all_eq_true, ← and_assoc]
      refine and_congr_left fun _ => ?_
      rw [hall]
      simp only [List.mem_map, List.mem_filter, decide_eq_true_eq]
      constructor
      · rintro ⟨r, ⟨e, ⟨he, h1, h2⟩, rfl⟩, rfl⟩
        obtain ⟨record, hrow, hk⟩ := (hes e.1 e.2).1 he
        rw [(mem_rows ht.file).1 hrow, Option.getD_some]
        refine ⟨hrow, ?_, ?_⟩
        · rw [rowCode, ← hk]; exact h1
        · rw [rowCode, ← hk]; exact h2
      · rintro ⟨hrow, h1, h2⟩
        obtain ⟨k, hk, hkey⟩ := hrowkey row hrow
        refine ⟨row.1, ⟨(k, row.1), ⟨hk, ?_, ?_⟩, rfl⟩, ?_⟩
        · rw [rowCode, ← hkey] at h1; exact h1
        · rw [rowCode, ← hkey] at h2; exact h2
        · rw [(mem_rows ht.file).1 (show (row.1, row.2) ∈ tab.rows from hrow)]
          rfl
  · rintro ⟨row, hrow, h1, h2⟩ fuel rows hc
    obtain ⟨k, hk, hkey⟩ := hrowkey row hrow
    rw [rowCode, ← hkey] at h1 h2
    have hbreak : (scan tab ih b).Breaks a := (hbreaks ⟨(k, row.1), hk, h1, h2⟩).read
    rw [hrun] at hc
    cases hseek : (scan tab ih b).seek (checkRow fed) .outOfFuel fuel a with
    | error e => rw [hseek] at hc; cases hc
    | ok s =>
        rw [hseek] at hc
        have hfiltered : (cursor tab ih b fed fuel).Breaks s :=
          hbreak.seek (checkRow fed) .outOfFuel fuel hseek
        exact hfiltered.not_collect .outOfFuel fuel hc

end Run

end IndexScanExecutor

end Rmdb
