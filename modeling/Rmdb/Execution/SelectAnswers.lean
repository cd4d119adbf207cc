import Rmdb.Execution.PlanRun

namespace Rmdb

open ConditionCheck Planner RmFileHandle

namespace ColMeta

variable {col c : ColMeta} {cols : List ColMeta} {record record' pre : Bytes} {n : Nat}

theorem readWord_slice (hin : col.offset + col.len ≤ record.length) (hl : col.len = 4) :
    readWord (col.slice record) = readWord (record.drop col.offset) := by
  have hfour : 4 ≤ (record.drop col.offset).length := by
    rw [List.length_drop]
    omega
  have hsplit :=
    readWord_append (a := (record.drop col.offset).take 4) (b := (record.drop col.offset).drop 4)
      (by simpa using hfour)
  rw [List.take_append_drop] at hsplit
  rw [slice, hl, hsplit]

theorem text_congr (htype : c.type = col.type) (hlen : c.len = col.len) (hin : col.Inside record.length)
    (hin' : c.Inside record'.length) (h : c.slice record' = col.slice record) :
    c.text record' = col.text record := by
  rw [text, text, htype]
  cases ht : col.type with
  | int =>
      have hl : col.len = 4 := hin.width (.inl ht)
      simp only [← readInt_slice hin.bound hl, ← readInt_slice hin'.bound (hlen.trans hl), h]
  | float =>
      have hl : col.len = 4 := hin.width (.inr ht)
      simp only [← readWord_slice hin.bound hl, ← readWord_slice hin'.bound (hlen.trans hl), h]
  | string => simp only [columnValue_slice, h]
  | null => rfl

theorem Inside.length_slice (h : col.Inside record.length) : (col.slice record).length = col.len := by
  have hbound := h.bound
  rw [slice, List.length_take, List.length_drop]
  omega

theorem length_slices (h : ∀ col ∈ cols, col.Inside record.length) :
    (cols.flatMap fun col => col.slice record).length = recordWidth cols := by
  induction cols with
  | nil => rfl
  | cons col cols ih =>
      rw [List.flatMap_cons, List.length_append, (h col List.mem_cons_self).length_slice,
        ih fun c hc => h c (List.mem_cons_of_mem col hc)]
      rfl

/-- The columns of a record, copied one behind the other, are printed as before. -/
theorem text_place (h : ∀ col ∈ cols, col.Inside record.length) (hpre : pre.length = n) :
    (place n cols).map (fun c => c.text (pre ++ cols.flatMap fun col => col.slice record)) =
      cols.map fun col => col.text record := by
  induction cols generalizing pre n with
  | nil => rw [place, List.map_nil, List.map_nil]
  | cons col cols ih =>
      have hcol := h col List.mem_cons_self
      have hrest : ∀ c ∈ cols, c.Inside record.length := fun c hc => h c (List.mem_cons_of_mem col hc)
      have hlen := length_slices hrest
      have hslice := hcol.length_slice
      rw [place, List.map_cons, List.map_cons, List.flatMap_cons]
      refine congrArg₂ List.cons ?_ ?_
      · refine text_congr rfl rfl hcol ⟨?_, hcol.width⟩ ?_
        · change n + col.len ≤ _
          rw [List.length_append, List.length_append, hslice, hpre, ← Nat.add_assoc]
          exact Nat.le_add_right _ _
        · have hdrop : (pre ++ (col.slice record ++ cols.flatMap fun col => col.slice record)).drop n =
              col.slice record ++ cols.flatMap fun col => col.slice record := by
            rw [← hpre, List.drop_left]
          rw [slice, hdrop, ← hslice, List.take_left]
      · rw [← List.append_assoc]
        exact ih hrest (by rw [List.length_append, hslice, hpre])

end ColMeta

namespace ProjectionExecutor

variable {σ : Type} {prev : AbstractExecutor σ} {cols : List ColMeta} {c : TabCol} {col : ColMeta}
  {found : List (Nat × ColMeta)} {record : Bytes}

theorem find_zipIdx {p : ColMeta → Bool} {n : Nat} (h : cols.find? p = some col) :
    ∃ i, (cols.zipIdx n).find? (fun c => p c.1) = some (col, n + i) ∧ cols[i]? = some col := by
  induction cols generalizing n with
  | nil => cases h
  | cons c cols ih =>
      rw [List.find?_cons] at h
      rw [List.zipIdx_cons, List.find?_cons]
      cases hp : p c with
      | true =>
          obtain rfl : c = col := by simpa [hp] using h
          exact ⟨0, rfl, rfl⟩
      | false =>
          rw [hp] at h
          obtain ⟨i, hfind, hget⟩ := ih (n := n + 1) h
          exact ⟨i + 1, by rw [show n + (i + 1) = n + 1 + i by omega]; exact hfind, hget⟩

theorem findCol_spec (h : getCol cols c = .ok col) :
    ∃ i, findCol cols c = .ok (i, col) ∧ cols[i]? = some col := by
  obtain ⟨i, hfind, hget⟩ := find_zipIdx (n := 0) (Database.getCol_ok.1 h)
  rw [Nat.zero_add] at hfind
  refine ⟨i, ?_, hget⟩
  rw [findCol, hfind]

theorem isSelAll_cols (hfound : ∀ c ∈ found, prev.cols[c.1]? = some c.2) (hall : isSelAll prev found = true) :
    found.map Prod.snd = prev.cols := by
  have hidx : found.map Prod.fst = List.range prev.cols.length := by simpa [isSelAll] using hall
  have hsome : (found.map Prod.snd).map some = prev.cols.map some := by
    calc (found.map Prod.snd).map some = found.map fun c => prev.cols[c.1]? := by
          rw [List.map_map]
          exact List.map_congr_left fun c hc => (hfound c hc).symm
      _ = (List.range prev.cols.length).map fun i => prev.cols[i]? := by
          rw [← hidx, List.map_map]
          rfl
      _ = prev.cols.map some := by
          refine List.ext_getElem (by simp) fun i hi hi' => ?_
          have hlt : i < prev.cols.length := by simpa using hi
          simp [hlt]
  exact List.map_injective_iff.2 (Option.some_injective _) hsome

theorem text_project (hfound : ∀ c ∈ found, prev.cols[c.1]? = some c.2)
    (hplaced : ColMeta.place 0 prev.cols = prev.cols) (hin : ∀ col ∈ prev.cols, col.Inside record.length) :
    (ProjectionExecutor.cols found).map (fun c => c.text (project prev found record)) =
      found.map fun c => c.2.text record := by
  have hmap : (found.map fun c => c.2.text record) = (found.map Prod.snd).map fun col => col.text record := by
    rw [List.map_map]
    rfl
  rw [hmap, ProjectionExecutor.cols, project]
  cases hall : isSelAll prev found with
  | true => rw [if_pos rfl, isSelAll_cols hfound hall, hplaced]
  | false =>
      have hflat : (found.flatMap fun c => c.2.slice record) = (found.map Prod.snd).flatMap fun col =>
          col.slice record := by
        rw [List.flatMap_map]
      rw [if_neg Bool.false_ne_true, hflat]
      have hnil : ([] : Bytes).length = 0 := rfl
      have hcols : ∀ col ∈ found.map Prod.snd, col.Inside record.length := by
        intro col hcol
        obtain ⟨c, hc, rfl⟩ := List.mem_map.1 hcol
        exact hin c.2 (List.mem_of_getElem? (hfound c hc))
      have htext := ColMeta.text_place hcols hnil
      rwa [List.nil_append] at htext

end ProjectionExecutor

section Run

variable {σ : Type} {ex : AbstractExecutor σ} {reach : σ → Prop} {records : List Bytes} {fuel : Nat} {s : σ}
  {found : List (Nat × ColMeta)}

theorem ProjectionExecutor.yields (h : ex.Yields s records) :
    (ProjectionExecutor.executor ex found).Yields s (records.map (project ex found)) := by
  induction h with
  | done hend => exact .done hend
  | step hend hget hnext hrest ih =>
      refine .step hend ?_ hnext ih
      simp [ProjectionExecutor.executor, hget, Functor.map, Except.map]

theorem ProjectionExecutor.run_spec (h : ex.Iterates reach records) (hs : reach s)
    (hfuel : records.length ≤ fuel) :
    (ProjectionExecutor.executor ex found).run fuel s = .ok (records.map (project ex found)) := by
  obtain ⟨t, hbegin, hyields⟩ := h.start s hs
  have hproject : (ProjectionExecutor.executor ex found).Yields t (records.map (project ex found)) :=
    ProjectionExecutor.yields hyields.yields
  have hlen : (records.map (project ex found)).length ≤ fuel := by simpa using hfuel
  have hstart : (ProjectionExecutor.executor ex found).beginTuple s = .ok t := hbegin
  rw [AbstractExecutor.run, hstart]
  exact hproject.collect .outOfFuel hlen

end Run

section Select

variable {db : Database} {planner : Planner} {q : SelectQuery} {p : Plan} {selCols : List TabCol}
  {ts : List String} {cond cond' : Condition}

/-- The selected columns are found, and of a record they print what the row has. -/
theorem found_spec (hts : ∀ t ∈ ts, db.Has t)
    (hsel : ∀ c ∈ selCols, c.tabName ∈ ts ∧ ∃ col, db.col c = some col) :
    ∃ found, selCols.mapM (ProjectionExecutor.findCol (db.joined ts)) = .ok found ∧
      (∀ c ∈ found, (db.joined ts)[c.1]? = some c.2) ∧ ∀ row, db.Fits ts row →
        (found.map fun c => c.2.text (rowRecord ts row)) = selCols.map (db.text row) := by
  induction selCols with
  | nil => exact ⟨[], rfl, by simp, fun _ _ => rfl⟩
  | cons c selCols ih =>
      obtain ⟨found, hmapM, hidx, htext⟩ := ih fun c' hc' => hsel c' (List.mem_cons_of_mem c hc')
      obtain ⟨hc, col, hcol⟩ := hsel c List.mem_cons_self
      obtain ⟨col', hget, htype, hlen, hin', hslice⟩ := Database.slice_joined hts hc hcol
      obtain ⟨i, hfind, hi⟩ := ProjectionExecutor.findCol_spec hget
      refine ⟨(i, col') :: found, by simp [hfind, hmapM, bind, Except.bind, pure, Except.pure],
        List.forall_mem_cons.2 ⟨hi, hidx⟩, fun row hrow => ?_⟩
      obtain ⟨rec, hrec, hin, heq⟩ := hslice row hrow
      have hfirst : col'.text (rowRecord ts row) = db.text row c := by
        rw [ColMeta.text_congr htype hlen hin (hrow.length ▸ hin') heq, Database.text, hcol, hrec]
      rw [List.map_cons, List.map_cons, htext row hrow, hfirst]

theorem Database.Plain.same (h : db.Plain cond) (hsame : cond.Same cond') : db.Plain cond' := by
  rcases hsame with rfl | ⟨hcol, rfl⟩
  · exact h
  · cases h with
    | number => cases hcol
    | text => cases hcol
    | numbers hlhs htype hrhs htype' => exact .numbers hrhs htype' hlhs htype
    | texts hlhs htype hrhs htype' hlen => exact .texts hrhs htype' hlhs htype hlen.symm

/-- What a query needs: a join executor, conditions and columns that are those of its tables,
comparisons inside one table for the first table only, and indexes whose scans agree with the
tables. -/
structure Database.Serves (db : Database) (planner : Planner) (q : SelectQuery)
    (selCols : List TabCol) : Prop where
  enabled : planner.enableNestedloopJoin = true ∨ planner.enableSortmergeJoin = true
  known : q.Known
  innerFirst : q.InnerFirst
  plain : ∀ cond ∈ q.conds, db.Plain cond
  tables : ∀ t ∈ q.tables, db.Has t
  selected : ∀ c ∈ selCols, c.tabName ∈ q.tables ∧ ∃ col, db.col c = some col
  ready : ∀ x ∈ (tableScans planner q.tables q.conds).1, db.Ready x

/-- A plan that has all of the query is run to the rows that the query asks for. -/
theorem selectRows_spec (hp : q.Planned p) (hplain : ∀ cond ∈ q.conds, db.Plain cond)
    (htables : ∀ t ∈ q.tables, db.Has t)
    (hsel : ∀ c ∈ selCols, c.tabName ∈ q.tables ∧ ∃ col, db.col c = some col)
    (hready : ∀ x ∈ p.scans, db.Ready x) :
    ∃ N rows, rows.Perm
      (((db.data.cross q.tables).filter fun row => q.conds.all (db.data.meets row)).map fun row =>
      selCols.map (db.text row)) ∧ ∀ fuel, N ≤ fuel →
        ∀ s, Portal.selectRows db fuel p selCols s = .ok rows := by
  have hts : ∀ t ∈ p.tables, db.Has t := fun t ht => htables t (hp.tables.mem_iff.1 ht)
  have hconds : ∀ cond ∈ p.conds, db.Plain cond := by
    intro cond' hc'
    obtain ⟨cond, hc, hsame⟩ := Multiset.exists_mem_of_rel_of_mem (Multiset.rel_flip.2 hp.conds) hc'
    exact (hplain cond hc).same hsame
  have hnd : p.tables.Nodup := hp.tables.nodup_iff.2 q.distinct
  have hanswers : db.data.Answers q p := QueryData.answers_of_planned hp
  obtain ⟨joined, hexec, hperm⟩ := hanswers
  obtain ⟨N, records, hrecords, hruns⟩ := plan_runs hp.placed hnd hts hconds hready hexec
  obtain ⟨found, hfound, hidx, htext⟩ := found_spec hts fun c hc =>
    ⟨hp.tables.mem_iff.2 (hsel c hc).1, (hsel c hc).2⟩
  have hfits : ∀ row ∈ joined, db.Fits p.tables row := by
    intro row hrow
    rw [QueryData.exec_spec hp.placed hnd, Except.ok.injEq] at hexec
    exact fits_of_cross hts (List.mem_filter.1 (hexec ▸ hrow)).1
  have hlength : ∀ record ∈ records, record.length = recordWidth (p.tables.flatMap db.cols) := by
    intro record hrecord
    obtain ⟨row, hrow, rfl⟩ := List.mem_map.1 (hrecords.mem_iff.1 hrecord)
    exact (hfits row hrow).length
  refine ⟨max N records.length, records.map fun record => found.map fun c => c.2.text record,
    ?_, fun fuel hfuel s => ?_⟩
  · refine (hrecords.map _).trans (.trans (.of_eq ?_) (hperm.map _))
    rw [List.map_map]
    exact List.map_congr_left fun row hrow => htext row (hfits row hrow)
  · obtain ⟨ex, reach, hex, hcols, -, hall, hiter⟩ := hruns fuel (by omega)
    have hmake : ProjectionExecutor.make ex selCols = .ok (ProjectionExecutor.executor ex found) := by
      rw [ProjectionExecutor.make, hcols, hfound]
      rfl
    have hlen : records.length ≤ fuel := by omega
    have hrun : (ProjectionExecutor.executor ex found).run fuel s = _ :=
      ProjectionExecutor.run_spec hiter (hall s) hlen
    rw [Portal.selectRows, Portal.start, hex]
    simp only [bind, Except.bind, pure, Except.pure, hmake, hrun, List.map_map]
    refine congrArg _ (List.map_congr_left fun record hrecord => ?_)
    refine ProjectionExecutor.text_project (by rw [hcols]; exact hidx) ?_ fun col hcol => ?_
    · rw [hcols, Database.joined, place_place]
    · rw [hcols] at hcol
      rw [hlength record hrecord]
      exact Database.joined_inside hts hcol

/-- From the planner to the printed columns: the executors return the rows of the cross product
that meet all conditions. -/
theorem select_answers (db : Database) (planner : Planner) (q : SelectQuery) (selCols : List TabCol)
    (h : db.Serves planner q selCols) :
    ∃ p, planner.makeOneRel q.tables q.conds [] = .ok p ∧ ∃ N rows,
      rows.Perm (((db.data.cross q.tables).filter fun row => q.conds.all (db.data.meets row)).map fun row =>
        selCols.map (db.text row)) ∧
      ∀ fuel, N ≤ fuel → ∀ s, Portal.selectRows db fuel p selCols s = .ok rows := by
  obtain ⟨p, hrun⟩ := makeOneRel_total h.enabled q.tables q.conds []
  have hplanned := (planned_iff h.known hrun).2 h.innerFirst
  have hjoins := makeOneRel_joins h.known hrun
  exact ⟨p, hrun, selectRows_spec hplanned h.plain h.tables h.selected fun x hx =>
    h.ready x (hjoins.scans.mem_iff.1 hx)⟩

end Select

section Example

def tableU : Table where
  tabName := "u"
  cols := [⟨"u", "b", .int, 4, 0⟩, ⟨"u", "c", .string, 2, 4⟩]
  fh := (((RmManager.openFile ⟨⟨6, 1, 665, rmNoPage, 84⟩, fun _ => none⟩).insertRecord
    [5, 0, 0, 0, 120, 0]).2.insertRecord [7, 0, 0, 0, 121, 122]).2

def sampleDb : Database where
  getTable tabName := if tabName = "t" then some tableA else if tabName = "u" then some tableU else none
  getIndex tabName names := if tabName = "t" ∧ names = ["a"] then some ⟨indexA, handleA⟩ else none

def samplePlanner : Planner := ⟨true, true, fun tabName => if tabName = "t" then [["a"]] else []⟩

/-- `SELECT u.c, t.a FROM t, u WHERE t.a >= 3 AND u.b = t.a`. -/
def sampleQuery : SelectQuery where
  tables := ["t", "u"]
  conds := [⟨⟨"t", "a"⟩, .ge, .val (.int 3)⟩, ⟨⟨"u", "b"⟩, .eq, .col ⟨"t", "a"⟩⟩]
  nonempty := by decide
  distinct := by decide
  named := by decide

theorem laid_tableA : tableA.Laid where
  file := indexed_tableA.file
  nonempty := by decide
  named := by decide
  placed := rfl
  width := by decide
  recordSize := rfl

theorem inv_emptyU : RmInv (RmManager.openFile ⟨⟨6, 1, 665, rmNoPage, 84⟩, fun _ => none⟩) :=
  openFile_inv (show RmManager.createFile 6 = .ok _ from rfl)

theorem laid_tableU : tableU.Laid where
  file := inv_insertRecord (inv_insertRecord inv_emptyU rfl) rfl
  nonempty := by decide
  named := by decide
  placed := rfl
  width := by decide
  recordSize := rfl

theorem column_a : sampleDb.col ⟨"t", "a"⟩ = some ⟨"t", "a", .int, 4, 0⟩ := rfl

theorem column_b : sampleDb.col ⟨"u", "b"⟩ = some ⟨"u", "b", .int, 4, 0⟩ := rfl

theorem serves_sample : sampleDb.Serves samplePlanner sampleQuery [⟨"u", "c"⟩, ⟨"t", "a"⟩] where
  enabled := .inl rfl
  known := by
    unfold SelectQuery.Known
    decide
  innerFirst := by
    simp [SelectQuery.InnerFirst, sampleQuery, Condition.isRhsCol, Condition.Inner, Condition.rhsCol]
  plain := by
    intro cond hcond
    simp only [sampleQuery, List.mem_cons, List.not_mem_nil, or_false] at hcond
    rcases hcond with rfl | rfl
    · exact .number column_a rfl trivial
    · exact .numbers column_b rfl column_a rfl
  tables := by
    intro t ht
    simp only [sampleQuery, List.mem_cons, List.not_mem_nil, or_false] at ht
    rcases ht with rfl | rfl
    · exact ⟨tableA, rfl, rfl, laid_tableA⟩
    · exact ⟨tableU, rfl, rfl, laid_tableU⟩
  selected := by
    intro c hc
    simp only [List.mem_cons, List.not_mem_nil, or_false] at hc
    rcases hc with rfl | rfl
    · exact ⟨by decide, _, rfl⟩
    · exact ⟨by decide, _, rfl⟩
  ready := by
    have hscans : (Planner.tableScans samplePlanner sampleQuery.tables sampleQuery.conds).1 =
      [⟨"t", [⟨⟨"t", "a"⟩, .ge, .val (.int 3)⟩], some ["a"]⟩, ⟨"u", [], none⟩] := rfl
    intro x hx
    rw [hscans, List.mem_cons, List.mem_singleton] at hx
    rcases hx with rfl | rfl
    · intro names hnames
      cases hnames
      refine ⟨by decide, tableA, indexA, handleA, rfl, rfl, indexed_tableA, root_handleA,
        ⟨intBytes 3, rfl⟩, ⟨intBytes Int32.maxValue, rfl⟩, rfl, rfl, ?_⟩
      rw [rows_tableA]
      decide
    · intro names hnames
      cases hnames

theorem rows_tableU : tableU.rows = [(⟨1, 0⟩, [5, 0, 0, 0, 120, 0]), (⟨1, 1⟩, [7, 0, 0, 0, 121, 122])] := by
  obtain ⟨hrids, hfirst, hsecond⟩ :
      tableU.fh.rids = [⟨1, 0⟩, ⟨1, 1⟩] ∧ tableU.fh.entry ⟨1, 0⟩ = some [5, 0, 0, 0, 120, 0] ∧
      tableU.fh.entry ⟨1, 1⟩ = some [7, 0, 0, 0, 121, 122] :=
    two_records inv_emptyU rfl rfl rfl rfl rfl (.inr ⟨rfl, by decide⟩)
  rw [Table.rows, hrids, List.map_cons, List.map_singleton, hfirst, hsecond]
  rfl

theorem select_answers_two_tables :
    ∃ p, samplePlanner.makeOneRel sampleQuery.tables sampleQuery.conds [] = .ok p ∧
    ∃ N, ∀ fuel, N ≤ fuel → ∀ s, Portal.selectRows sampleDb fuel p [⟨"u", "c"⟩, ⟨"t", "a"⟩] s =
      .ok [[ascii "x", ascii "5"]] := by
  obtain ⟨p, hplan, N, rows, hperm, hrun⟩ := select_answers sampleDb samplePlanner sampleQuery _ serves_sample
  have hexpected : (((sampleDb.data.cross sampleQuery.tables).filter fun row =>
      sampleQuery.conds.all (sampleDb.data.meets row)).map
        fun row => [(⟨"u", "c"⟩ : TabCol), ⟨"t", "a"⟩].map (sampleDb.text row)) =
      [[ascii "x", ascii "5"]] := by
    have hrows : sampleDb.data.rows "t" = [[5, 0, 0, 0]] := congrArg (List.map Prod.snd) rows_tableA
    have hrows' : sampleDb.data.rows "u" = [[5, 0, 0, 0, 120, 0], [7, 0, 0, 0, 121, 122]] :=
      congrArg (List.map Prod.snd) rows_tableU
    rw [sampleQuery, QueryData.cross, QueryData.cross, QueryData.cross, hrows, hrows']
    decide
  rw [hexpected] at hperm
  rw [List.perm_singleton.1 hperm] at hrun
  exact ⟨p, hplan, N, hrun⟩

end Example

end Rmdb
