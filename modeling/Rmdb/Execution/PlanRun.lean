import Rmdb.Execution.Portal
import Rmdb.Execution.ScanAgreement
import Rmdb.Execution.CountStar
import Rmdb.Optimizer.PlannedQuery

namespace Rmdb

open ConditionCheck RmFileHandle

def recordWidth (cols : List ColMeta) : Nat := (cols.map fun col => col.len).sum

structure Table.Laid (tab : Table) : Prop where
  file : RmInv tab.fh
  nonempty : tab.cols ≠ []
  named : ∀ col ∈ tab.cols, col.tabName = tab.tabName
  placed : ColMeta.place 0 tab.cols = tab.cols
  width : ∀ col ∈ tab.cols, col.type = .int ∨ col.type = .float → col.len = 4
  recordSize : tab.fh.fileHdr.recordSize = recordWidth tab.cols

section Place

variable {cols cols' : List ColMeta} {col : ColMeta} {n m : Nat}

open ColMeta

theorem recordWidth_append : recordWidth (cols ++ cols') = recordWidth cols + recordWidth cols' := by
  rw [recordWidth, List.map_append, List.sum_append]
  rfl

theorem place_append : place n (cols ++ cols') = place n cols ++ place (n + recordWidth cols) cols' := by
  induction cols generalizing n with
  | nil => rfl
  | cons col cols ih =>
      have hwidth : n + recordWidth (col :: cols) = n + col.len + recordWidth cols :=
        (Nat.add_assoc n col.len _).symm
      rw [List.cons_append, place, place, ih, List.cons_append, hwidth]

theorem map_shift_place : (place n cols).map (shift m) = place (n + m) cols := by
  induction cols generalizing n with
  | nil => rfl
  | cons col cols ih =>
      rw [place, List.map_cons, ih, place, Nat.add_right_comm]
      rfl

theorem place_place : place n (place m cols) = place n cols := by
  induction cols generalizing n m with
  | nil => rfl
  | cons col cols ih =>
      rw [place, place, ih, place]

theorem length_place : (place n cols).length = cols.length := by
  induction cols generalizing n with
  | nil => rfl
  | cons col cols ih => exact congrArg (· + 1) ih

theorem getLast_place (h : cols ≠ []) :
    ∃ col, (place n cols).getLast? = some col ∧ col.offset + col.len = n + recordWidth cols := by
  induction cols generalizing n with
  | nil => exact absurd rfl h
  | cons col cols ih =>
      cases cols with
      | nil => exact ⟨{ col with offset := n }, rfl, rfl⟩
      | cons col' cols =>
          obtain ⟨last, hlast, hend⟩ := ih (n := n + col.len) (by simp)
          refine ⟨last, ?_, by rw [hend]; simp [recordWidth]; omega⟩
          rw [place, ← hlast]
          rfl

theorem mem_place (h : col ∈ place n cols) :
    n ≤ col.offset ∧ col.offset + col.len ≤ n + recordWidth cols := by
  induction cols generalizing n with
  | nil => cases h
  | cons c cols ih =>
      have hwidth : recordWidth (c :: cols) = c.len + recordWidth cols := rfl
      rcases List.mem_cons.1 h with rfl | h
      · exact ⟨le_rfl, by simp only [hwidth]; omega⟩
      · have hin := ih h
        omega

theorem exists_of_mem_place (h : col ∈ place n cols) : ∃ c ∈ cols, col.type = c.type ∧ col.len = c.len := by
  induction cols generalizing n with
  | nil => cases h
  | cons c cols ih =>
      rcases List.mem_cons.1 h with rfl | h
      · exact ⟨c, List.mem_cons_self, rfl, rfl⟩
      · obtain ⟨c', hc', heq⟩ := ih h
        exact ⟨c', List.mem_cons_of_mem c hc', heq⟩

end Place

namespace Table.Laid

variable {tab : Table} {col : ColMeta}

theorem tupleLen (h : tab.Laid) : tab.tupleLen = recordWidth tab.cols := by
  obtain ⟨last, hlast, hend⟩ := getLast_place (n := 0) h.nonempty
  rw [h.placed] at hlast
  rw [Table.tupleLen, hlast]
  simpa using hend

theorem inside (h : tab.Laid) (hcol : col ∈ tab.cols) : col.Inside (recordWidth tab.cols) := by
  refine ⟨?_, h.width col hcol⟩
  rw [← h.placed] at hcol
  simpa using (mem_place hcol).2

theorem length (h : tab.Laid) {row : Rid × Bytes} (hrow : row ∈ tab.rows) :
    row.2.length = recordWidth tab.cols :=
  (record_length h.file hrow).trans h.recordSize

end Table.Laid

def rowRecord (ts : List String) (row : JoinedRow Bytes) : Bytes := ts.flatMap fun t => (row t).getD []

namespace Database

variable (db : Database)

def cols (tabName : String) : List ColMeta :=
  match db.getTable tabName with
  | some tab => tab.cols
  | none => []

def col (c : TabCol) : Option ColMeta :=
  match getCol (db.cols c.tabName) c with
  | .ok col => some col
  | .error _ => none

def rows (tabName : String) : List Bytes :=
  match db.getTable tabName with
  | some tab => tab.rows.map Prod.snd
  | none => []

def data : QueryData Bytes CellValue where
  rows := db.rows
  value c record := (db.col c).elim (Sum.inrₗ []) fun col => col.cell record
  literal := Value.cell

def text (row : JoinedRow Bytes) (c : TabCol) : Bytes :=
  match db.col c, row c.tabName with
  | some col, some record => col.text record
  | _, _ => []

def joined (ts : List String) : List ColMeta := ColMeta.place 0 (ts.flatMap db.cols)

def Has (tabName : String) : Prop := ∃ tab, db.getTable tabName = some tab ∧ tab.tabName = tabName ∧ tab.Laid

def Fits (ts : List String) (row : JoinedRow Bytes) : Prop :=
  ∀ t ∈ ts, ∃ record, row t = some record ∧ record.length = recordWidth (db.cols t)

variable {db} {ts us front back : List String} {t : String} {c : TabCol} {col : ColMeta}
  {row l r : JoinedRow Bytes}

theorem rowRecord_append : rowRecord (ts ++ us) row = rowRecord ts row ++ rowRecord us row :=
  List.flatMap_append

theorem joined_append :
    db.joined (ts ++ us) = db.joined ts ++ (db.joined us).map
      (ColMeta.shift (recordWidth (ts.flatMap db.cols))) := by
  rw [joined, List.flatMap_append, place_append, joined, joined, map_shift_place, Nat.add_comm]

theorem Fits.mono (h : db.Fits ts row) (hsub : ∀ t ∈ us, t ∈ ts) :
    db.Fits us row := fun t ht => h t (hsub t ht)

theorem Fits.length (h : db.Fits ts row) : (rowRecord ts row).length = recordWidth (ts.flatMap db.cols) := by
  induction ts with
  | nil => rfl
  | cons t ts ih =>
      obtain ⟨rec, hrow, hlen⟩ := h t List.mem_cons_self
      have hrest := ih (h.mono fun u hu => List.mem_cons_of_mem t hu)
      have hcons : rowRecord (t :: ts) row = rec ++ rowRecord ts row := by
        rw [rowRecord, List.flatMap_cons, hrow]
        rfl
      rw [hcons, List.length_append, hlen, hrest, List.flatMap_cons, recordWidth_append]

theorem Has.cols (h : db.Has t) :
    ∃ tab, db.getTable t = some tab ∧ tab.tabName = t ∧ tab.Laid ∧ db.cols t = tab.cols := by
  obtain ⟨tab, htab, hname, hlaid⟩ := h
  exact ⟨tab, htab, hname, hlaid, by rw [Database.cols, htab]⟩

theorem Has.named (h : db.Has t) {col : ColMeta} (hcol : col ∈ db.cols t) : col.tabName = t := by
  obtain ⟨tab, -, hname, hlaid, hcols⟩ := h.cols
  rw [hcols] at hcol
  rw [hlaid.named col hcol, hname]

theorem Has.placed (h : db.Has t) : ColMeta.place 0 (db.cols t) = db.cols t := by
  obtain ⟨tab, -, -, hlaid, hcols⟩ := h.cols
  rw [hcols, hlaid.placed]

theorem getCol_of_col (h : db.col c = some col) : getCol (db.cols c.tabName) c = .ok col := by
  rw [Database.col] at h
  cases hget : getCol (db.cols c.tabName) c with
  | error e => simp [hget] at h
  | ok col' => simpa [hget] using h

theorem getCol_ok {cols : List ColMeta} : getCol cols c = .ok col ↔
    (cols.find? fun col => col.tabName = c.tabName ∧ col.name = c.colName) = some col := by
  rw [getCol]
  split
  · rename_i col' hfind
    rw [hfind, Except.ok.injEq, Option.some.injEq]
  · rename_i hfind
    rw [hfind]
    simp only [reduceCtorEq]

theorem mem_of_getCol {cols : List ColMeta} (h : getCol cols c = .ok col) : col ∈ cols :=
  List.mem_of_find?_eq_some (getCol_ok.1 h)

theorem Has.inside (h : db.Has c.tabName) (hcol : db.col c = some col) :
    col.Inside (recordWidth (db.cols c.tabName)) := by
  obtain ⟨tab, -, -, hlaid, hcols⟩ := h.cols
  have hmem := mem_of_getCol (getCol_of_col hcol)
  rw [hcols] at hmem ⊢
  exact hlaid.inside hmem

theorem joined_single (h : db.Has t) : db.joined [t] = db.cols t := by
  rw [joined, List.flatMap_singleton, h.placed]

theorem rowRecord_single {record : Bytes} : rowRecord [t] (QueryData.single t record) = record := by
  simp [rowRecord, QueryData.single]

theorem joined_tabName (hts : ∀ t ∈ ts, db.Has t) {col : ColMeta} (hcol : col ∈ db.joined ts) :
    col.tabName ∈ ts := by
  induction ts generalizing col with
  | nil => cases hcol
  | cons t ts ih =>
      rw [show t :: ts = [t] ++ ts from rfl, joined_append, joined_single (hts t List.mem_cons_self),
        List.mem_append] at hcol
      rcases hcol with hcol | hcol
      · rw [(hts t List.mem_cons_self).named hcol]
        exact List.mem_cons_self
      · obtain ⟨col', hcol', rfl⟩ := List.mem_map.1 hcol
        have htab := ih (fun u hu => hts u (List.mem_cons_of_mem t hu)) hcol'
        exact List.mem_cons_of_mem t htab

theorem joined_inside (hts : ∀ t ∈ ts, db.Has t) {col : ColMeta} (hcol : col ∈ db.joined ts) :
    col.Inside (recordWidth (ts.flatMap db.cols)) := by
  refine ⟨by simpa using (mem_place hcol).2, fun htype => ?_⟩
  obtain ⟨c, hc, htype', hlen⟩ := exists_of_mem_place hcol
  obtain ⟨t, ht, hc⟩ := List.mem_flatMap.1 hc
  obtain ⟨tab, -, -, hlaid, hcols⟩ := (hts t ht).cols
  rw [hlen]
  exact hlaid.width c (hcols ▸ hc) (htype' ▸ htype)

/-- The first table with the column's name decides where the column lies. -/
theorem find_joined (hts : ∀ t ∈ ts, db.Has t) (hc : c.tabName ∈ ts) (hcol : db.col c = some col) :
    ∃ front back, ts = front ++ c.tabName :: back ∧
      getCol (db.joined ts) c = .ok (col.shift (recordWidth (front.flatMap db.cols))) := by
  obtain ⟨front, back, rfl, hfront⟩ := List.eq_append_cons_of_mem hc
  refine ⟨front, back, rfl, ?_⟩
  have hown := getCol_ok.1 (getCol_of_col hcol)
  have hnone : ((db.joined front).find? fun col => col.tabName = c.tabName ∧
      col.name = c.colName) = none := by
    refine List.find?_eq_none.2 fun col hmem => ?_
    have htab := joined_tabName (fun t ht => hts t (List.mem_append_left _ ht)) hmem
    simp only [decide_eq_true_eq, not_and]
    intro heq
    exact absurd (heq ▸ htab) hfront
  have hcons : db.joined (c.tabName :: back) =
      db.cols c.tabName ++ (db.joined back).map (ColMeta.shift (recordWidth (db.cols c.tabName))) := by
    have happ : db.joined ([c.tabName] ++ back) = _ := joined_append
    rwa [joined_single (hts _ (List.mem_append_right _ List.mem_cons_self)), List.flatMap_singleton] at happ
  rw [getCol_ok, joined_append, List.find?_append, hnone, Option.none_or, List.find?_map, hcons,
    List.find?_append]
  change Option.map _ (((db.cols c.tabName).find? fun col => col.tabName = c.tabName ∧
    col.name = c.colName).or _) = _
  rw [hown]
  rfl

theorem slice_joined (hts : ∀ t ∈ ts, db.Has t) (hc : c.tabName ∈ ts) (hcol : db.col c = some col) :
    ∃ col', getCol (db.joined ts) c = .ok col' ∧ col'.type = col.type ∧ col'.len = col.len ∧
      col'.Inside (recordWidth (ts.flatMap db.cols)) ∧ ∀ row, db.Fits ts row →
        ∃ rec, row c.tabName = some rec ∧
        col.Inside rec.length ∧ col'.slice (rowRecord ts row) = col.slice rec := by
  obtain ⟨front, back, rfl, hget⟩ := find_joined hts hc hcol
  have hin := (hts _ hc).inside hcol
  refine ⟨_, hget, rfl, rfl, ?_, fun row hrow => ?_⟩
  · refine (hin.shift _).mono ?_
    rw [List.flatMap_append, recordWidth_append, List.flatMap_cons, recordWidth_append]
    omega
  · obtain ⟨rec, hrec, hlen⟩ := hrow _ hc
    refine ⟨rec, hrec, hlen ▸ hin, ?_⟩
    have hfront := (hrow.mono fun t ht => List.mem_append_left _ ht : db.Fits front row).length
    have hsplit : rowRecord (front ++ c.tabName :: back) row =
        rowRecord front row ++ rec ++ rowRecord back row := by
      rw [rowRecord_append, List.append_assoc,
        show c.tabName :: back = [c.tabName] ++ back from rfl, rowRecord_append]
      simp [rowRecord, hrec]
    rw [hsplit, ← hfront]
    exact ColMeta.slice_shift (hlen ▸ hin).bound

theorem cell_joined (hts : ∀ t ∈ ts, db.Has t) (hc : c.tabName ∈ ts) (hcol : db.col c = some col) :
    ∃ col', getCol (db.joined ts) c = .ok col' ∧ col'.type = col.type ∧ col'.len = col.len ∧
      ∀ row, db.Fits ts row → db.data.cell row c = some (col'.cell (rowRecord ts row)) := by
  obtain ⟨col', hget, htype, hlen, hin', hslice⟩ := slice_joined hts hc hcol
  refine ⟨col', hget, htype, hlen, fun row hrow => ?_⟩
  obtain ⟨rec, hrec, hin, heq⟩ := hslice row hrow
  rw [ColMeta.cell_congr htype hlen hin (hrow.length ▸ hin') heq]
  simp [QueryData.cell, hrec, data, hcol]

end Database

/-- The condition compares what the columns hold: `INT` columns with each other or with a literal
that is compared as written, texts of one length, or a text with a literal that fits and is not
put in front of the column. -/
inductive Database.Plain (db : Database) : Condition → Prop
  | number {c : TabCol} {col : ColMeta} {op : CompOp} {v : Value} (hcol : db.col c = some col)
      (htype : col.type = .int)
      (hv : v.Exact op) : Plain db ⟨c, op, .val v⟩
  | numbers {c c' : TabCol} {col col' : ColMeta} {op : CompOp} (hcol : db.col c = some col)
      (htype : col.type = .int)
      (hcol' : db.col c' = some col') (htype' : col'.type = .int) : Plain db ⟨c, op, .col c'⟩
  | text {c : TabCol} {col : ColMeta} {op : CompOp} {s : Bytes} {n : Int} (hcol : db.col c = some col)
      (htype : col.type = .string)
      (hs : 0 ∉ s) (hlen : s.length ≤ col.len) (hop : op ≠ .gt ∧ op ≠ .le) : Plain db
        ⟨c, op, .val (.string s n)⟩
  | texts {c c' : TabCol} {col col' : ColMeta} {op : CompOp} (hcol : db.col c = some col)
      (htype : col.type = .string)
      (hcol' : db.col c' = some col') (htype' : col'.type = .string)
        (hlen : col'.len = col.len) : Plain db ⟨c, op, .col c'⟩

section Conditions

variable {db : Database} {ts : List String} {cond : Condition} {conds : List Condition}

theorem feed_val {cols : List ColMeta} {c : TabCol} {col : ColMeta} {op : CompOp} {v w : Value}
    (hget : getCol cols c = .ok col) (hw : v.valueCast col.type = .ok w) :
    Condition.feed cols ⟨c, op, .val v⟩ = .ok ⟨col, op, .val w⟩ := by
  simp [Condition.feed, hget, hw, bind, Except.bind, pure, Except.pure]

theorem feed_col {cols : List ColMeta} {c c' : TabCol} {col col' : ColMeta} {op : CompOp}
    (hget : getCol cols c = .ok col) (hget' : getCol cols c' = .ok col') :
    Condition.feed cols ⟨c, op, .col c'⟩ = .ok ⟨col, op, .col col'⟩ := by
  simp [Condition.feed, hget, hget', bind, Except.bind, pure, Except.pure]

/-- Over the record of a row the executors check what the condition says of the row. -/
theorem Database.Plain.feed (h : db.Plain cond) (hts : ∀ t ∈ ts, db.Has t) (hwithin : cond.Within ts) :
    ∃ fed, cond.feed (db.joined ts) = .ok fed ∧ ∀ row, db.Fits ts row →
      checkSingleCondition fed (rowRecord ts row) = .ok (db.data.meets row cond) := by
  have hcheck : ∀ {fed : FedCond} {a b : CellValue} {row : JoinedRow Bytes}, fed.Plain →
    db.data.cell row cond.lhsCol = some a →
      db.data.rhs row cond = some b → a = fed.lhsMatchCol.cell (rowRecord ts row) →
      b = fed.rhs.cell (rowRecord ts row) →
      fed.op = cond.op → checkSingleCondition fed (rowRecord ts row) = .ok (db.data.meets row cond) := by
    intro fed a b row hplain hlhs hrhs ha hb hop
    rw [checkSingleCondition_plain hplain, QueryData.meets, hlhs, hrhs, ha, hb, hop]
  cases h with
  | number hcol htype hv =>
      obtain ⟨col, hget, htype', -, hcell⟩ := Database.cell_joined hts hwithin.1 hcol
      obtain ⟨i, hcast, hsame⟩ := hv.cast
      have hint := htype'.trans htype
      refine ⟨_, feed_val hget (hint ▸ hcast), fun row hrow => ?_⟩
      have hnumber : col.cell (rowRecord ts row) =
          Sum.inlₗ (readInt ((rowRecord ts row).drop col.offset) : ℚ) := by
        rw [ColMeta.cell, hint]
      rw [checkSingleCondition_plain (.number hint), QueryData.meets, hcell row hrow, hnumber]
      exact congrArg _ (hsame _)
  | numbers hcol htype hcol' htype' =>
      obtain ⟨col, hget, ht, -, hcell⟩ := Database.cell_joined hts hwithin.1 hcol
      obtain ⟨col', hget', ht', -, hcell'⟩ := Database.cell_joined hts (hwithin.2 _ rfl) hcol'
      refine ⟨_, feed_col hget hget', fun row hrow => ?_⟩
      exact hcheck (.numbers (ht.trans htype) (ht'.trans htype')) (hcell row hrow)
        (hcell' row hrow) rfl rfl rfl
  | text hcol htype hs hlen hop =>
      obtain ⟨col, hget, ht, hl, hcell⟩ := Database.cell_joined hts hwithin.1 hcol
      have hstring := ht.trans htype
      refine ⟨_, feed_val hget (by rw [hstring]; rfl), fun row hrow => ?_⟩
      exact hcheck (.text hstring hs (hl ▸ hlen) hop) (hcell row hrow) rfl rfl rfl rfl
  | texts hcol htype hcol' htype' hlen =>
      obtain ⟨col, hget, ht, hl, hcell⟩ := Database.cell_joined hts hwithin.1 hcol
      obtain ⟨col', hget', ht', hl', hcell'⟩ := Database.cell_joined hts (hwithin.2 _ rfl) hcol'
      refine ⟨_, feed_col hget hget', fun row hrow => ?_⟩
      exact hcheck (.texts (ht.trans htype) (ht'.trans htype') (hl'.trans (hlen.trans hl.symm)))
        (hcell row hrow)
        (hcell' row hrow) rfl rfl rfl

theorem feed_plain (hplain : ∀ cond ∈ conds, db.Plain cond) (hts : ∀ t ∈ ts, db.Has t)
    (hwithin : ∀ cond ∈ conds, cond.Within ts) :
    ∃ fed, conds.mapM (fun cond => cond.feed (db.joined ts)) = .ok fed ∧ ∀ row, db.Fits ts row →
      checkConditions fed (rowRecord ts row) = .ok (conds.all (db.data.meets row)) := by
  induction conds with
  | nil => exact ⟨[], rfl, fun _ _ => rfl⟩
  | cons cond conds ih =>
      obtain ⟨fed, hfed, hcheck⟩ :=
        (hplain cond List.mem_cons_self).feed hts (hwithin cond List.mem_cons_self)
      obtain ⟨feds, hfeds, hchecks⟩ := ih (fun c hc => hplain c (List.mem_cons_of_mem _ hc))
        fun c hc => hwithin c (List.mem_cons_of_mem _ hc)
      refine ⟨fed :: feds, by simp [hfed, hfeds, bind, Except.bind, pure, Except.pure], fun row hrow => ?_⟩
      rw [checkConditions, hcheck row hrow, hchecks row hrow, List.all_cons]
      cases db.data.meets row cond <;> rfl

end Conditions

section Scans

variable {db : Database} {tab : Table} {conds : List Condition} {cond : Condition} {x : ScanPlan} {fuel : Nat}
  {rows : List (Rid × Bytes)}

theorem IndexScanExecutor.run_ok {ix : IndexMeta} {ih : IxIndexHandle (Key ix.layout)}
    (h : run conds tab ih fuel = .ok rows) :
    ∃ fed normal last iid, fedConds ix conds tab = .ok fed ∧ conds.mapM (normalize tab.tabName) = .ok normal ∧
      beginTuple normal tab ih fed fuel = .ok (last, iid) ∧
      (cursor tab ih last fed fuel).Yields iid rows := by
  rw [run] at h
  cases hfed : fedConds ix conds tab with
  | error e => simp [hfed, bind, Except.bind] at h
  | ok fed =>
      cases hnormal : conds.mapM (normalize tab.tabName) with
      | error e => simp [hfed, hnormal, bind, Except.bind] at h
      | ok normal =>
          cases hbegin : beginTuple normal tab ih fed fuel with
          | error e => simp [hfed, hnormal, hbegin, bind, Except.bind] at h
          | ok ends =>
              have hcollect : (cursor tab ih ends.1 fed fuel).collect .outOfFuel fuel ends.2 = .ok rows := by
                simpa [hfed, hnormal, hbegin, bind, Except.bind] using h
              exact ⟨fed, normal, ends.1, ends.2, rfl, rfl, hbegin, Cursor.yields_of_collect hcollect⟩

theorem SeqScanExecutor.iterates {fed : List FedCond} {rid : Rid} (hlaid : tab.Laid)
    (hrows : ∀ row ∈ rows, row ∈ tab.rows) (hbegin : beginTuple tab fed fuel = .ok rid)
    (hyields : (cursor tab fed fuel).Yields rid rows) :
    (executor tab fed fuel).Iterates (fun _ => True) (rows.map Prod.snd) := by
  refine ⟨fun s _ => ⟨rid, hbegin, .of_yields (hyields.read fun _ _ => rfl)⟩, fun record hrecord => ?_⟩
  obtain ⟨row, hrow, rfl⟩ := List.mem_map.1 hrecord
  exact (hlaid.length (hrows row hrow)).trans hlaid.tupleLen.symm

theorem IndexScanExecutor.iterates {ix : IndexMeta} {ih : IxIndexHandle (Key ix.layout)}
    {fed : List FedCond} {last iid : Iid} (hlaid : tab.Laid) (hrows : ∀ row ∈ rows, row ∈ tab.rows)
    (hbegin : beginTuple conds tab ih fed fuel = .ok (last, iid))
    (hyields : (cursor tab ih last fed fuel).Yields iid rows) :
    (executor conds tab ih fed fuel).Iterates (fun _ => True) (rows.map Prod.snd) := by
  have hall : (executor conds tab ih fed fuel).Yields (last, iid) (rows.map Prod.snd) := by
    clear hbegin hrows
    induction hyields with
    | done hend => exact .done hend
    | @step s t a as hend hget hnext hrest ihy =>
        refine .step hend ?_ ?_ ihy
        · simp [executor, hget, Functor.map, Except.map]
        · simp [executor, hnext, Functor.map, Except.map]
  refine ⟨fun s _ => ⟨_, hbegin, .of_yields hall⟩, fun record hrecord => ?_⟩
  obtain ⟨row, hrow, rfl⟩ := List.mem_map.1 hrecord
  exact (hlaid.length (hrows row hrow)).trans hlaid.tupleLen.symm

def Database.ScanCond (db : Database) (tabName : String) (cond : Condition) : Prop :=
  db.Plain cond ∧ cond.Within [tabName]

/-- An index scan compares with literals, its index agrees with its table and has a root page, and
its range is sound. -/
def Database.Ready (db : Database) (x : ScanPlan) : Prop :=
  ∀ names, x.indexColNames = some names → (∀ cond ∈ x.conds, cond.isRhsCol = false) ∧ ∃ tab ix ih,
    db.getTable x.tabName = some tab ∧ db.getIndex x.tabName names = some ⟨ix, ih⟩ ∧ IndexedTable tab ix ih ∧
      ih.fileHdr.rootPage ≠ -1 ∧ RangeSound tab ix x.conds

theorem Database.ScanCond.literal (h : db.ScanCond tab.tabName cond) (hval : cond.isRhsCol = false)
    (hcols : db.cols tab.tabName = tab.cols) : Literal tab cond := by
  obtain ⟨hplain, hwithin⟩ := h
  have htab : cond.lhsCol.tabName = tab.tabName := List.mem_singleton.1 hwithin.1
  have hget : ∀ {col : ColMeta}, db.col cond.lhsCol = some col → getCol tab.cols cond.lhsCol = .ok col := by
    intro col hcol
    rw [← hcols, ← htab]
    exact Database.getCol_of_col hcol
  refine ⟨htab, ?_⟩
  cases hplain with
  | @number c col op v hcol htype hv =>
      refine ⟨col, v, hget hcol, rfl, ?_⟩
      cases v with
      | int i => exact .inl htype
      | float y => exact .inl htype
      | string s n => exact hv.elim
  | text hcol htype hs hlen hop => exact ⟨_, _, hget hcol, rfl, htype, hs, hlen⟩
  | numbers => cases hval
  | texts => cases hval

theorem feed_scan (hhas : db.Has tab.tabName) (hlaid : tab.Laid) (hcols : db.cols tab.tabName = tab.cols)
    (hconds : ∀ cond ∈ conds, db.ScanCond tab.tabName cond) :
    ∃ fed, conds.mapM (fun cond => cond.feed tab.cols) = .ok fed ∧ ∀ row ∈ tab.rows,
      checkRow fed row = .ok (conds.all (db.data.meets (QueryData.single tab.tabName row.2))) := by
  have hts : ∀ t ∈ [tab.tabName], db.Has t := List.forall_mem_singleton.2 hhas
  obtain ⟨fed, hfed, hcheck⟩ :=
    feed_plain (fun cond hc => (hconds cond hc).1) hts fun cond hc => (hconds cond hc).2
  rw [Database.joined_single hhas, hcols] at hfed
  refine ⟨fed, hfed, fun row hrow => ?_⟩
  have hfits : db.Fits [tab.tabName] (QueryData.single tab.tabName row.2) := by
    intro t ht
    obtain rfl := List.mem_singleton.1 ht
    exact ⟨row.2, Function.update_self _ _ _, (hlaid.length hrow).trans (congrArg _ hcols.symm)⟩
  have hok := hcheck _ hfits
  rwa [Database.rowRecord_single] at hok

theorem Database.ScanCond.passes (h : db.ScanCond tab.tabName cond) (hhas : db.Has tab.tabName)
    (hlaid : tab.Laid) (hcols : db.cols tab.tabName = tab.cols) {row : Rid × Bytes} (hrow : row ∈ tab.rows) :
    cond.passes tab row.2 = db.data.meets (QueryData.single tab.tabName row.2) cond := by
  have hall : ∀ c ∈ [cond], db.ScanCond tab.tabName c := List.forall_mem_singleton.2 h
  obtain ⟨feds, hfeds, hcheck⟩ := feed_scan hhas hlaid hcols hall
  have hok := hcheck row hrow
  cases hfed : cond.feed tab.cols with
  | error e => simp [hfed, bind, Except.bind] at hfeds
  | ok fed =>
      obtain rfl : [fed] = feds := by simpa [hfed, bind, Except.bind, pure, Except.pure] using hfeds
      rw [Condition.passes, hfed]
      cases hsingle : checkSingleCondition fed row.2 with
      | error e => simp [checkRow, checkConditions, hsingle, bind, Except.bind] at hok
      | ok b =>
          cases b <;> simpa [checkRow, checkConditions, hsingle, bind, Except.bind, pure,
            Except.pure] using hok

theorem SeqScanExecutor.begins (hhas : db.Has tab.tabName) (hlaid : tab.Laid)
    (hcols : db.cols tab.tabName = tab.cols) (hconds : ∀ cond ∈ conds, db.ScanCond tab.tabName cond)
    (hfuel : tab.rows.length ≤ fuel) :
    ∃ fed rid, fedConds tab conds = .ok fed ∧ beginTuple tab fed fuel = .ok rid ∧
      (cursor tab fed fuel).Yields rid
      (tab.rows.filter fun row => conds.all (db.data.meets (QueryData.single tab.tabName row.2))) := by
  obtain ⟨fed, hfed, hcheck⟩ := feed_scan hhas hlaid hcols hconds
  obtain ⟨rid, hstart, hyields⟩ := RmScan.scan_yields hlaid.file
  have hrows : (scan tab).Yields rid tab.rows := hyields.read (read_rows hlaid.file)
  obtain ⟨r, hseek, hfiltered⟩ := hrows.seek (checkRow fed) .outOfFuel hcheck hfuel hfuel
  refine ⟨fed, r, hfed, ?_, hfiltered⟩
  simp [beginTuple, hstart, hseek, Except.mapError, bind, Except.bind]

theorem IndexScanExecutor.rows_spec {ix : IndexMeta} {ih : IxIndexHandle (Key ix.layout)}
    (hhas : db.Has tab.tabName) (hlaid : tab.Laid) (hcols : db.cols tab.tabName = tab.cols)
    (hconds : ∀ cond ∈ conds, db.ScanCond tab.tabName cond) (hval : ∀ cond ∈ conds, cond.isRhsCol = false)
    (hindexed : IndexedTable tab ix ih) (hroot : ih.fileHdr.rootPage ≠ -1)
    (hsound : RangeSound tab ix conds) :
    ∃ N rows, (∀ fuel, N ≤ fuel → run conds tab ih fuel = .ok rows) ∧
      rows.Perm (tab.rows.filter fun row =>
        conds.all (db.data.meets (QueryData.single tab.tabName row.2))) := by
  obtain ⟨lo, hi, hlo, hhi, hsound⟩ := hsound
  have hlit : ∀ cond ∈ conds, Literal tab cond := fun cond hc => (hconds cond hc).literal (hval cond hc) hcols
  obtain ⟨N, rows, hrun, hnodup, hmem⟩  :=
    (run_spec hindexed hlit hlo hhi hroot).1 fun row hrow => (hsound row hrow).1
  refine ⟨N, rows, hrun, (List.perm_ext_iff_of_nodup hnodup (nodup_rows.filter _)).2 fun row => ?_⟩
  rw [hmem, List.mem_filter, List.all_eq_true]
  refine and_congr_right fun hrow => ?_
  have hpasses : (∀ cond ∈ conds, cond.passes tab row.2 = true) ↔
      ∀ cond ∈ conds, db.data.meets (QueryData.single tab.tabName row.2) cond = true :=
    forall₂_congr fun cond hc => by rw [(hconds cond hc).passes hhas hlaid hcols hrow]
  rw [in_range_iff hindexed hlit hlo hhi hrow, ← hpasses]
  exact ⟨And.right, fun hpass => ⟨(hsound row hrow).2 hpass, hpass⟩⟩

def Database.Runs (db : Database) (fuel : Nat) (p : Plan) (records : List Bytes) : Prop :=
  ∃ ex reach, Portal.convertPlanExecutor db fuel p = .ok ex ∧ ex.cols = db.joined p.tables ∧
    ex.tupleLen = recordWidth (p.tables.flatMap db.cols) ∧ (∀ s, reach s) ∧ ex.Iterates reach records

theorem scan_runs (hhas : db.Has x.tabName) (hconds : ∀ cond ∈ x.conds, db.ScanCond x.tabName cond)
    (hready : db.Ready x) :
    ∃ N records, records.Perm ((((db.rows x.tabName).map (QueryData.single x.tabName)).filter fun row =>
        x.conds.all (db.data.meets row)).map (rowRecord [x.tabName])) ∧ ∀ fuel, N ≤ fuel →
          db.Runs fuel (.scan x) records := by
  obtain ⟨tabName, conds, names⟩ := x
  obtain ⟨tab, htab, rfl, hlaid, hcols⟩ := hhas.cols
  have hrows : db.rows tab.tabName = tab.rows.map Prod.snd := by rw [Database.rows, htab]
  have hmeets : ((((db.rows tab.tabName).map (QueryData.single tab.tabName)).filter fun row =>
      conds.all (db.data.meets row)).map (rowRecord [tab.tabName])) =
      (tab.rows.filter fun row => conds.all (db.data.meets (QueryData.single tab.tabName row.2))).map
        Prod.snd := by
    rw [hrows, List.map_map, List.filter_map, List.map_map]
    exact List.map_congr_left fun row _ => Database.rowRecord_single
  have hjoined : tab.cols = db.joined (Plan.scan ⟨tab.tabName, conds, names⟩).tables := by
    rw [Plan.tables_scan, Database.joined_single hhas, hcols]
  have hwidth : tab.tupleLen =
      recordWidth ((Plan.scan ⟨tab.tabName, conds, names⟩).tables.flatMap db.cols) := by
    rw [Plan.tables_scan, List.flatMap_singleton, hcols, hlaid.tupleLen]
  rw [hmeets]
  cases names with
  | none =>
      refine ⟨tab.rows.length, _, .refl _, fun fuel hfuel => ?_⟩
      obtain ⟨fed, rid, hfed, hbegin, hyields⟩ := SeqScanExecutor.begins hhas hlaid hcols hconds hfuel
      refine ⟨SeqScanExecutor.executor tab fed fuel, _, ?_, hjoined, hwidth, fun _ => trivial,
        SeqScanExecutor.iterates hlaid (fun row hrow => (List.mem_filter.1 hrow).1) hbegin hyields⟩
      simp only [Portal.convertPlanExecutor, Portal.convertScan, htab, hfed, bind, Except.bind,
        pure, Except.pure]
      rfl
  | some cols =>
      obtain ⟨hval, tab', ix, ih, htab', hix, hindexed, hroot, hsound⟩ := hready cols rfl
      cases htab.symm.trans htab'
      obtain ⟨N, rows, hrun, hperm⟩ :=
        IndexScanExecutor.rows_spec hhas hlaid hcols hconds hval hindexed hroot hsound
      refine ⟨N, rows.map Prod.snd, hperm.map _, fun fuel hfuel => ?_⟩
      · obtain ⟨fed, normal, last, iid, hfed, hnormal, hbegin, hyields⟩ :=
          IndexScanExecutor.run_ok (hrun fuel hfuel)
        refine ⟨IndexScanExecutor.executor normal tab ih fed fuel, _, ?_, hjoined, hwidth, fun _ => trivial,
          IndexScanExecutor.iterates hlaid
            (fun row hrow => List.mem_of_mem_filter (hperm.mem_iff.1 hrow)) hbegin hyields⟩
        simp only [Portal.convertPlanExecutor, Portal.convertScan, htab, hix, hfed, hnormal, bind,
          Except.bind, pure, Except.pure]
        rfl

end Scans

namespace NestedLoopJoinExecutor

variable {σ τ : Type} {left : AbstractExecutor σ} {right : AbstractExecutor τ}
  {fed : List FedCond} {fuel : Nat} {reachL : σ → Prop} {reachR : τ → Prop} {L R : List Bytes}

theorem filter_iterates (hL : left.Iterates reachL L) (hR : right.Iterates reachR R)
    (hfuelL : L.length ≤ fuel) (hfuelR : R.length ≤ fuel) {test : Bytes → Bool}
    (htest : ∀ p ∈ pairs L R, checkConditions fed p = .ok (test p)) :
    (executor left right fed fuel).Iterates (Reach reachL reachR) ((pairs L R).filter test) := by
  refine ⟨fun s hs => ?_, fun record hrecord => ?_⟩
  · have hkept := keepRecords_filter htest
    rw [keepRecords_seek] at hkept
    rcases (beginTuple_spec fed hL hR hfuelL hfuelR hs.1 hs.2).cases
      with ⟨e, -, hseek⟩ | ⟨t, found, htuple, hseek, hat⟩
    · rw [hseek] at hkept
      cases hkept
    · rw [hseek] at hkept
      exact ⟨t, htuple, yieldsIn_spec hR hfuelR hat hkept⟩
  · obtain ⟨l, hl, hpair⟩ := List.mem_flatMap.1 (List.mem_filter.1 hrecord).1
    obtain ⟨r, hr, rfl⟩ := List.mem_map.1 hpair
    change (l ++ r).length = left.tupleLen + right.tupleLen
    rw [List.length_append, hL.width l hl, hR.width r hr]

theorem pairs_perm {α β : Type} {ls : List α} {rs : List β} {f : α → Bytes} {g : β → Bytes}
    (hL : L.Perm (ls.map f)) (hR : R.Perm (rs.map g)) :
    (pairs L R).Perm (ls.flatMap fun l => rs.map fun r => f l ++ g r) := by
  have hleft : (pairs L R).Perm ((ls.map f).flatMap fun l => R.map (l ++ ·)) := hL.flatMap_right _
  refine hleft.trans ?_
  rw [List.flatMap_map]
  refine .flatMap_left _ fun l _ => ?_
  have hright := hR.map (f l ++ ·)
  rwa [List.map_map] at hright

end NestedLoopJoinExecutor

section Plans

open NestedLoopJoinExecutor

variable {db : Database} {p left right : Plan} {ts us : List String} {row l r : JoinedRow Bytes}
  {conds : List Condition}

theorem QueryData.mem_rows_of_cross {ρ β : Type} {data : QueryData ρ β} {row : JoinedRow ρ}
    {t : String} {x : ρ} (h : row ∈ data.cross ts) (hx : row t = some x) : x ∈ data.rows t := by
  induction ts generalizing row with
  | nil =>
      obtain rfl := List.mem_singleton.1 h
      cases hx
  | cons u us ih =>
      obtain ⟨y, hy, h⟩ := List.mem_flatMap.1 h
      obtain ⟨row', hrow', rfl⟩ := List.mem_map.1 h
      by_cases ht : t = u
      · subst ht
        obtain rfl : y = x := by simpa [QueryData.merge, QueryData.single] using hx
        exact hy
      · exact ih hrow' (by simpa [QueryData.merge, QueryData.single, ht] using hx)

theorem fits_of_cross (hhas : ∀ t ∈ ts, db.Has t) (h : row ∈ db.data.cross ts) : db.Fits ts row := by
  intro t ht
  obtain ⟨rec, hrec⟩ := Option.ne_none_iff_exists'.1 fun hc => (QueryData.mem_cross h t).1 hc ht
  refine ⟨rec, hrec, ?_⟩
  obtain ⟨tab, htab, -, hlaid, hcols⟩ := (hhas t ht).cols
  have hmem : rec ∈ db.rows t := QueryData.mem_rows_of_cross h hrec
  rw [Database.rows, htab] at hmem
  obtain ⟨tabRow, hrow, rfl⟩ := List.mem_map.1 hmem
  rw [hcols, hlaid.length hrow]

theorem rowRecord_merge (hl : l ∈ db.data.cross ts) (hdis : ts.Disjoint us) :
    rowRecord (ts ++ us) (QueryData.merge l r) = rowRecord ts l ++ rowRecord us r := by
  rw [Database.rowRecord_append, rowRecord, rowRecord, rowRecord, rowRecord]
  congr 1
  · refine List.flatMap_congr fun t ht => ?_
    obtain ⟨rec, hrec⟩ := Option.ne_none_iff_exists'.1 fun hc => (QueryData.mem_cross hl t).1 hc ht
    simp [QueryData.merge, hrec]
  · refine List.flatMap_congr fun t ht => ?_
    rw [QueryData.merge, (QueryData.mem_cross hl t).2 fun hc => hdis hc ht, Option.none_or]

theorem join_runs {b : Bool} {ls rs : List (JoinedRow Bytes)} {L R : List Bytes} {N M : Nat}
    (hdis : left.tables.Disjoint right.tables) (hhas : ∀ t ∈ left.tables ++ right.tables, db.Has t)
    (hplain : ∀ cond ∈ conds, db.Plain cond)
    (hwithin : ∀ cond ∈ conds, cond.Within (left.tables ++ right.tables))
    (hls : ∀ l ∈ ls, l ∈ db.data.cross left.tables) (hrs : ∀ r ∈ rs, r ∈ db.data.cross right.tables)
    (hL : L.Perm (ls.map (rowRecord left.tables))) (hR : R.Perm (rs.map (rowRecord right.tables)))
    (hleft : ∀ fuel, N ≤ fuel → db.Runs fuel left L) (hright : ∀ fuel, M ≤ fuel → db.Runs fuel right R) :
    ∃ K records, records.Perm
      (((ls.flatMap fun l => rs.map (QueryData.merge l)).filter fun row =>
        conds.all (db.data.meets row)).map
      (rowRecord (left.tables ++ right.tables))) ∧ ∀ fuel, K ≤ fuel →
        db.Runs fuel (.join b left right conds) records := by
  obtain ⟨fed, hfed, hcheck⟩ := feed_plain hplain hhas hwithin
  let test : Bytes → Bool := fun record => decide (checkConditions fed record = .ok true)
  have hpairs := pairs_perm hL hR
  have hrecords : (ls.flatMap fun l => rs.map fun r => rowRecord left.tables l ++ rowRecord right.tables r) =
      (ls.flatMap fun l => rs.map (QueryData.merge l)).map (rowRecord (left.tables ++ right.tables)) := by
    rw [List.map_flatMap]
    refine List.flatMap_congr fun l hl => ?_
    rw [List.map_map]
    exact List.map_congr_left fun r _ => (rowRecord_merge (hls l hl) hdis).symm
  have hfits : ∀ row ∈ ls.flatMap fun l => rs.map (QueryData.merge l),
      db.Fits (left.tables ++ right.tables) row := by
    intro row hrow
    refine fits_of_cross hhas ?_
    obtain ⟨l, hl, hrow⟩ := List.mem_flatMap.1 hrow
    obtain ⟨r, hr, rfl⟩ := List.mem_map.1 hrow
    rw [QueryData.cross_append]
    exact List.mem_flatMap.2 ⟨l, hls l hl, List.mem_map.2 ⟨r, hrs r hr, rfl⟩⟩
  have htest : ∀ row ∈ ls.flatMap fun l => rs.map (QueryData.merge l),
      test (rowRecord (left.tables ++ right.tables) row) = conds.all (db.data.meets row) := by
    intro row hrow
    simp only [test, hcheck row (hfits row hrow)]
    cases conds.all (db.data.meets row) <;> simp
  refine ⟨max (max N M) (max L.length R.length), (pairs L R).filter test, ?_, fun fuel hfuel => ?_⟩
  · refine (hpairs.filter test).trans (.of_eq ?_)
    rw [hrecords, List.filter_map]
    exact congrArg _ (List.filter_congr htest)
  · obtain ⟨exL, reachL, hexL, hcolsL, hlenL, hallL, hiterL⟩ := hleft fuel (by omega)
    obtain ⟨exR, reachR, hexR, hcolsR, hlenR, hallR, hiterR⟩ := hright fuel (by omega)
    have hcols : NestedLoopJoinExecutor.cols exL exR = db.joined (left.tables ++ right.tables) := by
      rw [NestedLoopJoinExecutor.cols, hcolsL, hcolsR, hlenL, Database.joined_append]
      rfl
    have hfedConds : fedConds exL exR conds = .ok fed := by rw [fedConds, hcols, hfed]
    refine ⟨executor exL exR fed fuel, Reach reachL reachR, ?_, ?_,
      ?_, fun s => ⟨hallL s.left, hallR s.right⟩,
      filter_iterates hiterL hiterR (by omega) (by omega) fun record hrecord => ?_⟩
    · simp only [Portal.convertPlanExecutor, hexL, hexR, hfedConds, bind, Except.bind, pure, Except.pure]
      rfl
    · rw [Plan.tables_join]
      exact hcols
    · rw [Plan.tables_join, List.flatMap_append, recordWidth_append, ← hlenL, ← hlenR]
      rfl
    · rw [hpairs.mem_iff, hrecords] at hrecord
      obtain ⟨row, hrow, rfl⟩ := List.mem_map.1 hrecord
      rw [htest row hrow]
      exact hcheck row (hfits row hrow)

/-- The executors of a placed plan return the records of the rows that the plan stands for. -/
theorem plan_runs (hp : p.Placed) (hnd : p.tables.Nodup) (hhas : ∀ t ∈ p.tables, db.Has t)
    (hplain : ∀ cond ∈ p.conds, db.Plain cond) (hready : ∀ x ∈ p.scans, db.Ready x)
    {rows : List (JoinedRow Bytes)} (hrows : db.data.exec p = .ok rows) :
    ∃ N records, records.Perm (rows.map (rowRecord p.tables)) ∧ ∀ fuel, N ≤ fuel →
      db.Runs fuel p records := by
  induction p generalizing rows with
  | null => exact hp.1.elim
  | scan x =>
      have hconds := hp.2 x List.mem_cons_self
      rw [QueryData.exec, if_pos hconds, Except.ok.injEq] at hrows
      rw [← hrows]
      refine scan_runs (hhas _ List.mem_cons_self) (fun cond hc => ⟨hplain cond ?_, hconds cond hc⟩)
        (hready x List.mem_cons_self)
      simpa [Plan.conds, Plan.scans, Plan.joinConds] using hc
  | join b left right conds ihl ihr =>
      rw [Plan.tables_join] at hnd hhas
      obtain ⟨hndl, hndr, hdis⟩ := List.nodup_append'.1 hnd
      obtain ⟨hpl, hpr, hwithin⟩ := QueryData.Placed.children hp
      have hmem : ∀ cond, cond ∈ (Plan.join b left right conds).conds ↔
          cond ∈ left.conds ∨ cond ∈ right.conds ∨ cond ∈ conds := by
        intro cond
        simp only [Plan.conds, Plan.scans, Plan.joinConds, List.flatMap_append, List.mem_append]
        tauto
      have hls : db.data.exec left = _ := QueryData.exec_spec hpl hndl
      have hrs : db.data.exec right = _ := QueryData.exec_spec hpr hndr
      rw [QueryData.exec, hls, hrs] at hrows
      simp only [bind, Except.bind, pure, Except.pure] at hrows
      rw [if_pos hwithin, Except.ok.injEq] at hrows
      obtain ⟨N, L, hL, hleft⟩ := ihl hpl hndl (fun t ht => hhas t (List.mem_append_left _ ht))
        (fun cond hc => hplain cond ((hmem cond).2 (.inl hc)))
          (fun x hx => hready x (List.mem_append_left _ hx)) hls
      obtain ⟨M, R, hR, hright⟩ := ihr hpr hndr (fun t ht => hhas t (List.mem_append_right _ ht))
        (fun cond hc => hplain cond ((hmem cond).2 (.inr (.inl hc))))
          (fun x hx => hready x (List.mem_append_right _ hx)) hrs
      rw [← hrows, Plan.tables_join]
      exact join_runs hdis hhas (fun cond hc => hplain cond ((hmem cond).2 (.inr (.inr hc)))) hwithin
        (fun l hl => (List.mem_filter.1 hl).1) (fun r hr => (List.mem_filter.1 hr).1) hL hR hleft hright

end Plans

end Rmdb
