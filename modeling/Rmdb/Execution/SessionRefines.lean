import Rmdb.Execution.Relations

namespace Rmdb

open IxManager RmFileHandle Planner

namespace OpenTables

def headings (s : OpenTables) :
    Headings := fun t => (s t).map fun o => ⟨o.table.cols, o.indexes.map Sigma.fst⟩

def bags (s : OpenTables) : Bags := fun t => (s t).elim 0 OpenTable.bag

def Inv (s : OpenTables) : Prop := ∀ t o, s t = some o → o.table.tabName = t ∧ o.Inv

variable {s : OpenTables} {t : String} {o : OpenTable} {env : DmlEnv} {c : TabCol} {cond : Condition}
  {conds : List Condition} {ts : List String} {x : ScanPlan} {B : Bags}

section Views

theorem getTable_eq (s : OpenTables) (t : String) : s.database.getTable t = (s t).map OpenTable.table := rfl

theorem cols_eq (s : OpenTables) (t : String) : s.database.cols t = s.headings.cols t := by
  rw [Database.cols, getTable_eq, Headings.cols, headings]
  cases s t <;> rfl

theorem col_eq (s : OpenTables) : s.database.col = s.headings.col := by
  funext c
  cases hget : getCol (s.headings.cols c.tabName) c <;> simp only [Database.col, Headings.col, cols_eq, hget]

theorem planner_eq (s : OpenTables) (env : DmlEnv) : s.planner env = s.headings.planner env := by
  rw [planner, Headings.planner, Planner.mk.injEq]
  refine ⟨rfl, rfl, funext fun t => ?_⟩
  rw [headings]
  cases s t with
  | none => rfl
  | some o =>
      change o.indexes.map _ = (o.indexes.map Sigma.fst).map _
      rw [List.map_map]
      rfl

theorem cols_some (h : s t = some o) :
    s.headings.cols t = o.table.cols := by rw [Headings.cols, headings, h]; rfl

theorem indexes_some (h : s t = some o) : s.headings.indexes t = o.indexes.map Sigma.fst := by
  rw [Headings.indexes, headings, h]
  rfl

theorem bags_some (h : s t = some o) : s.bags t = o.bag := by rw [bags, h]; rfl

theorem headings_some {h : Heading} (hh : s.headings t = some h) :
    ∃ o, s t = some o ∧ h.cols = o.table.cols ∧ h.indexes = o.indexes.map Sigma.fst := by
  rw [headings] at hh
  obtain ⟨o, ho, rfl⟩ := Option.map_eq_some_iff.1 hh
  exact ⟨o, ho, rfl, rfl⟩

theorem rows_some (h : s t = some o) :
    s.database.rows t = o.table.rows.map Prod.snd := by rw [Database.rows, getTable_eq, h]; rfl

theorem Inv.has (hs : s.Inv) (h : s t = some o) : s.database.Has t :=
  ⟨o.table, by rw [getTable_eq, h]; rfl, (hs t o h).1, (hs t o h).2.laid⟩

theorem Inv.record (hs : s.Inv) (h : s t = some o) {record : Bytes} (hrecord : record ∈ s.database.rows t) :
    ∃ tup, Tuple.Typed o.table.cols tup ∧ record = Tuple.encode o.table.cols tup ∧
      Tuple.decode o.table.cols record = tup := by
  rw [rows_some h] at hrecord
  obtain ⟨row, hrow, rfl⟩ := List.mem_map.1 hrecord
  have ho := (hs t o h).2
  obtain ⟨tup, ht, heq⟩ := ho.typed row.1 row.2 ((mem_rows ho.sound.inv).1 hrow)
  exact ⟨tup, ht, heq, by rw [heq, Tuple.decode_encode ht ho.wide ho.laid.placed]⟩

theorem Inv.get_decode (hs : s.Inv) {record : Bytes} (hrecord : record ∈ s.database.rows c.tabName) :
    (∃ col, s.database.col c = some col ∧ col.type ≠ .null ∧
      Tuple.get (s.headings.cols c.tabName) c (Tuple.decode (s.headings.cols c.tabName) record) =
        some (col.datum record)) ∨
    (s.database.col c = none ∧ Tuple.get (s.headings.cols c.tabName) c
      (Tuple.decode (s.headings.cols c.tabName) record) = none) := by
  rw [Tuple.get_decode]
  cases hcol : s.database.col c with
  | none =>
      refine .inr ⟨rfl, ?_⟩
      rw [Database.col, cols_eq, getCol] at hcol
      cases hfind : (s.headings.cols c.tabName).find? fun col => col.tabName = c.tabName ∧
        col.name = c.colName with
      | none => rfl
      | some col => simp only [hfind, reduceCtorEq] at hcol
  | some col =>
      have hget := Database.getCol_of_col hcol
      cases ho : s c.tabName with
      | none =>
          rw [Database.rows, getTable_eq, ho] at hrecord
          cases hrecord
      | some o =>
          have hinv := (hs _ _ ho).2
          rw [cols_eq, cols_some ho] at hget
          obtain ⟨tup, ht, rfl, -⟩ := hs.record ho hrecord
          have hfits := (Tuple.slice_encode hinv.laid.placed hinv.wide ht (Database.mem_of_getCol hget)).1
          refine .inl ⟨col, rfl, fun hc => ?_, ?_⟩
          · rw [ColMeta.datum, hc] at hfits
            have htext : col.type = .string := hfits.1
            rw [hc] at htext
            cases htext
          · rw [cols_some ho, Database.getCol_ok.1 hget]
            rfl

theorem Inv.represents (hs : s.Inv) (ts : List String) :
    s.database.data.Represents (s.headings.data s.bags) (fun t => Tuple.decode (s.headings.cols t)) ts where
  rows t _ := by
    change (s.bags t).toList.Perm ((s.database.rows t).map _)
    rw [← Multiset.coe_eq_coe, Multiset.coe_toList]
    cases ho : s t with
    | none => rw [bags, ho, Database.rows, getTable_eq, ho]; rfl
    | some o => rw [bags_some ho, rows_some ho, cols_some ho, OpenTable.bag, List.map_map]; rfl
  value c _ record hrecord := by
    change (Tuple.get _ c _).elim (Sum.inrₗ []) Datum.cell = (s.database.col c).elim (Sum.inrₗ []) _
    rcases hs.get_decode hrecord with ⟨col, hcol, hnull, hget⟩ | ⟨hcol, hget⟩
    · rw [hcol, hget]
      exact Datum.cell_datum col record hnull
    · rw [hcol, hget]
      rfl
  literal := rfl

end Views

section Scans

open IndexScanExecutor

theorem indexed_of_inv (h : o.Inv) {p : OpenIx} (hp : p ∈ o.indexes) : IndexedTable o.table p.1 p.2 where
  file := h.sound.inv
  found c hc := by
    have hget := h.found p hp c hc
    rwa [h.laid.named c (Database.mem_of_getCol hget)] at hget
  inside c hc := by
    rw [h.laid.recordSize]
    exact (Tuple.inside h.laid.placed h.wide (Database.mem_of_getCol (h.found p hp c hc))).bound
  padded c hc htype row hrow := by
    obtain ⟨tup, ht, heq⟩ := h.typed row.1 row.2 ((mem_rows h.sound.inv).1 hrow)
    obtain ⟨hfits, hslice⟩ :=
      Tuple.slice_encode h.laid.placed h.wide ht (Database.mem_of_getCol (h.found p hp c hc))
    rw [heq, hslice]
    cases hd : c.datum (Tuple.encode o.table.cols tup) with
    | int v =>
        rw [hd] at hfits
        exact absurd (htype.symm.trans hfits) (by decide)
    | float w =>
        rw [hd] at hfits
        exact absurd (htype.symm.trans hfits) (by decide)
    | text text =>
        rw [hd] at hfits
        rw [Datum.bytes, Padded, takeWhile_padTo hfits.2.1, padTo_eq hfits.2.2, firstBytes_length]
  consistent := by
    obtain ⟨-, m, hsim, hm⟩ := h.keyed p hp
    refine .inl ⟨m, hsim, fun k r => (hm k r).trans (exists_congr fun record => ?_)⟩
    rw [mem_rows h.sound.inv]
    refine and_congr_right fun hrecord => ?_
    obtain ⟨tup, ht, rfl⟩ := h.typed r record hrecord
    rw [← IndexMeta.key_val (h.inside hp ht)]
    exact ⟨fun hk => congrArg Subtype.val hk.symm, fun hk => (Subtype.ext hk).symm⟩

theorem covered_of_plain {db : Database} {ix : IndexMeta} (h : ∀ cond ∈ conds, db.Plain cond) :
    Covered ix conds := by
  intro cond hc col _ v hb hop
  obtain ⟨-, hrhs⟩ := hb
  have hplain := h cond hc
  cases hplain with
  | @number c col op v' hcol htype hv =>
      cases hrhs
      cases v with
      | int i => trivial
      | float y => trivial
      | string text n => exact hv.elim
  | text _ _ _ _ hne => exact absurd hop hne.2
  | numbers => cases hrhs
  | texts => cases hrhs

theorem mem_of_modifyAndCheckIndex {indexes : List (List String)} {names : List String}
    (h : modifyAndCheckIndex indexes conds = some names) : names ∈ indexes := by
  have hfold : ∀ (l : List (List String)) (best : Nat × Option (List String)),
    (∀ n, best.2 = some n → n ∈ indexes) →
      (∀ n ∈ l, n ∈ indexes) → ∀ n, (l.foldl (fun (best : Nat × Option (List String)) index =>
        if best.1 < matchLen conds index then (matchLen conds index, some index)
          else best) best).2 = some n → n ∈ indexes := by
    intro l
    induction l with
    | nil => exact fun best hbest _ => hbest
    | cons index l ih =>
        intro best hbest hl
        rw [List.foldl_cons]
        refine ih _ (fun n hn => ?_) fun n hn => hl n (List.mem_cons_of_mem index hn)
        split at hn
        · cases hn
          exact hl _ List.mem_cons_self
        · exact hbest n hn
  rw [modifyAndCheckIndex] at h
  split at h
  · exact List.mem_of_mem_head? h
  · exact hfold indexes (0, none) nofun (fun _ hn => hn) names h

theorem Inv.ready (hs : s.Inv) (h : s.headings.Ready s.bags x)
    (hname : x.indexColNames = (s.planner env).getIndexCols x.tabName x.conds)
    (hconds : ∀ cond ∈ x.conds, s.database.ScanCond x.tabName cond) : s.database.Ready x := by
  intro names hnames
  obtain ⟨hval, hupright⟩ := h names hnames
  have hmem : names ∈ (s x.tabName).elim [] fun o => o.indexes.map fun p => p.1.cols.map ColMeta.name :=
    mem_of_modifyAndCheckIndex (hname.symm.trans hnames)
  cases ho : s x.tabName with
  | none =>
      rw [ho] at hmem
      cases hmem
  | some o =>
      rw [ho] at hmem
      obtain ⟨htab, hinv⟩ := hs _ _ ho
      obtain ⟨p₀, hp₀, hp₀names⟩ := List.mem_map.1 hmem
      obtain ⟨p, hfind⟩ : ∃ p, o.indexes.find? (fun p => p.1.cols.map ColMeta.name = names) = some p :=
        Option.isSome_iff_exists.1 (List.find?_isSome.2 ⟨p₀, hp₀, decide_eq_true hp₀names⟩)
      have hp := List.mem_of_find?_eq_some hfind
      have hpnames : p.1.cols.map ColMeta.name = names := by simpa using List.find?_some hfind
      have hindexed := indexed_of_inv hinv hp
      obtain ⟨-, m, ⟨es, hvalid, -⟩, -⟩ := hinv.keyed p hp
      have hroot := hvalid.root_ne
      have hcols : s.database.cols x.tabName = o.table.cols := by rw [cols_eq, cols_some ho]
      have hlit : ∀ cond ∈ x.conds, Literal o.table cond := fun cond hc => by
        have hcond := hconds cond hc
        rw [← htab] at hcond hcols
        exact hcond.literal (hval cond hc) hcols
      obtain ⟨lo, -, hlo, -⟩ := lowerKey_spec hindexed hlit
      obtain ⟨hi, -, hhi, -⟩ := upperKey_spec hindexed hlit
      refine ⟨hval, o.table, p.1, p.2, by rw [getTable_eq, ho]; rfl, ?_, hindexed, hroot,
        rangeSound_of_covered hindexed hlit (covered_of_plain fun cond hc => (hconds cond hc).1) hlo
          hhi fun row hrow => ?_⟩
      · change (s x.tabName).bind _ = some p
        rw [ho]
        exact hfind
      · obtain ⟨tup, ht, heq⟩ := hinv.typed row.1 row.2 ((mem_rows hinv.sound.inv).1 hrow)
        have htup : tup ∈ s.bags x.tabName := by
          rw [bags_some ho]
          exact List.mem_map.2 ⟨row, hrow, by rw [heq, Tuple.decode_encode ht hinv.wide hinv.laid.placed]⟩
        have hno :=
          hupright ⟨o.table.cols, o.indexes.map Sigma.fst⟩ (by rw [headings, ho]; rfl) p.1
            (List.mem_map_of_mem hp)
          hpnames lo hi hlo hhi tup htup
        rw [rowCode, heq]
        exact hno

theorem Inv.selects_eq (hs : s.Inv) (h : s t = some o) (hwithin : ∀ cond ∈ conds, cond.Within [t])
    {row : Rid × Bytes} (hrow : row ∈ o.table.rows) :
    s.headings.selects t conds (Tuple.decode o.table.cols row.2) =
      conds.all (s.database.data.meets (QueryData.single t row.2)) := by
  have hmem : ∀ u ∈ [t], ∃ record ∈ s.database.data.rows u, QueryData.single t row.2 u = some record := by
    refine List.forall_mem_singleton.2 ⟨row.2, ?_, Function.update_self _ _ _⟩
    change row.2 ∈ s.database.rows t
    rw [rows_some h]
    exact List.mem_map_of_mem hrow
  have hmeets : ∀ cond ∈ conds,
    (s.headings.data s.bags).meets (QueryData.single t (Tuple.decode o.table.cols row.2)) cond =
      s.database.data.meets (QueryData.single t row.2) cond := by
    intro cond hc
    rw [← (hs.represents [t]).meets (hwithin cond hc) hmem, QueryData.mapRow_single, cols_some h]
  rw [Headings.selects, Bool.eq_iff_iff, List.all_eq_true, List.all_eq_true]
  exact forall₂_congr fun cond hc => by rw [← hmeets cond hc]; rfl

/-- The scan under a DELETE or an UPDATE finds the rows whose tuples meet the conditions. -/
theorem Inv.scanRids_spec (hs : s.Inv) (h : s t = some o) (hsel : s.headings.Selective env s.bags t conds) :
    ∃ N rids, (∀ fuel, N ≤ fuel → Portal.scanRids s.database fuel (s.dmlScan env t conds) = .ok rids) ∧
      rids.Nodup ∧
      (∀ r ∈ rids, o.table.fh.entry r ≠ none) ∧
      ∀ row ∈ o.table.rows, row.1 ∈ rids ↔
        s.headings.selects t conds (Tuple.decode o.table.cols row.2) = true := by
  obtain ⟨htab, ho⟩ := hs t o h
  subst htab
  obtain ⟨hconds, hready⟩ := hsel
  have hhas := hs.has h
  have hcols : s.database.cols o.table.tabName = o.table.cols := by rw [cols_eq, cols_some h]
  have hscan : ∀ cond ∈ conds, s.database.ScanCond o.table.tabName cond := fun cond hc =>
    ⟨(hconds cond hc).1 _ s.col_eq, (hconds cond hc).2⟩
  have hget : s.database.getTable o.table.tabName = some o.table := by rw [getTable_eq, h]; rfl
  -- Both kinds of scan return the same rows, in some order.
  have hrids : ∀ rows : List (Rid × Bytes), rows.Perm (o.table.rows.filter fun row =>
      conds.all (s.database.data.meets (QueryData.single o.table.tabName row.2))) →
        (rows.map Prod.fst).Nodup ∧
      (∀ r ∈ rows.map Prod.fst, o.table.fh.entry r ≠ none) ∧ ∀ row ∈ o.table.rows,
        row.1 ∈ rows.map Prod.fst ↔
        s.headings.selects o.table.tabName conds (Tuple.decode o.table.cols row.2) = true := by
    intro rows hperm
    have hmem : ∀ row, row ∈ rows ↔ row ∈ o.table.rows ∧
        s.headings.selects o.table.tabName conds (Tuple.decode o.table.cols row.2) = true := fun row => by
      rw [hperm.mem_iff, List.mem_filter]
      exact and_congr_right fun hrow => by rw [hs.selects_eq h (fun cond hc => (hconds cond hc).2) hrow]
    refine ⟨(hperm.map Prod.fst).nodup_iff.2 ((List.filter_sublist.map _).nodup fst_nodup), fun r hr => ?_,
      fun row hrow => ⟨fun hr => ?_, fun htest => List.mem_map_of_mem ((hmem row).2 ⟨hrow, htest⟩)⟩⟩
    · obtain ⟨row, hrow, rfl⟩ := List.mem_map.1 hr
      rw [(mem_rows ho.sound.inv).1 ((hmem row).1 hrow).1]
      exact Option.some_ne_none _
    · obtain ⟨row', hrow', heq⟩ := List.mem_map.1 hr
      obtain ⟨hin, htest⟩ := (hmem row').1 hrow'
      have hentry := (mem_rows ho.sound.inv).1 hin
      rw [heq, (mem_rows ho.sound.inv).1 hrow, Option.some.injEq] at hentry
      rwa [hentry]
  cases hnames : (s.planner env).getIndexCols o.table.tabName conds with
  | none =>
      refine ⟨o.table.rows.length, _, fun fuel hfuel => ?_, hrids _ (.refl _)⟩
      obtain ⟨fed, rid, hfed, hbegin, hyields⟩ := SeqScanExecutor.begins hhas ho.laid hcols hscan hfuel
      have hlen : (o.table.rows.filter fun row =>
          conds.all (s.database.data.meets (QueryData.single o.table.tabName row.2))).length ≤ fuel :=
        (List.length_filter_le _ _).trans hfuel
      have hcollect := hyields.collect .outOfFuel hlen
      simp only [Portal.scanRids, dmlScan, hnames, hget, SeqScanExecutor.run, hfed, hbegin, hcollect,
        bind, Except.bind]
      rfl
  | some names =>
      have hdml : s.dmlScan env o.table.tabName conds = s.headings.dmlScan env o.table.tabName conds := by
        rw [dmlScan, Headings.dmlScan, planner_eq]
      obtain ⟨hval, tab', ix, ih, htab', hix, hindexed, hroot, hsound⟩ :=
        hs.ready (hdml ▸ hready) rfl hscan names hnames
      cases hget.symm.trans htab'
      obtain ⟨N, rows, hrun, hperm⟩ :=
        IndexScanExecutor.rows_spec hhas ho.laid hcols hscan hval hindexed hroot hsound
      refine ⟨N, _, fun fuel hfuel => ?_, hrids _ hperm⟩
      have hix' : s.database.getIndex o.table.tabName names = some ⟨ix, ih⟩ := hix
      have hrun' : IndexScanExecutor.run conds o.table ih fuel = .ok rows := hrun fuel hfuel
      simp only [Portal.scanRids, dmlScan, hnames, hget, hix', hrun']
      rfl

end Scans

section Statements

variable {env : DmlEnv} {stmt : DmlStmt} {stmts : List DmlStmt} {values : List (List Value)}
  {o' : OpenTable} {L : Rid → Option Bytes} {clauses : List UpdateExecutor.SetClause} {q : SelectQuery}
  {selCols : List TabCol}

def Follows (env : DmlEnv) (s : OpenTables) (stmt : DmlStmt) : Prop :=
  ∃ N res s', (∀ fuel, N ≤ fuel → s.exec env fuel stmt = (res, s')) ∧ s'.Inv ∧ s'.headings = s.headings ∧
    (res.map Multiset.ofList, s'.bags) = s.headings.exec s.bags stmt

theorem Inv.update (hs : s.Inv) (h : s t = some o) (hb : o.Becomes o' L) :
    Inv (Function.update s t (some o')) ∧ headings (Function.update s t (some o')) = s.headings ∧
      bags (Function.update s t (some o')) = Function.update s.bags t o'.bag := by
  refine ⟨fun u p hu => ?_, funext fun u => ?_, funext fun u => ?_⟩
  · by_cases heq : u = t
    · subst heq
      rw [Function.update_self, Option.some.injEq] at hu
      subst hu
      exact ⟨hb.name.trans (hs u o h).1, hb.inv⟩
    · rw [Function.update_of_ne heq] at hu
      exact hs u p hu
  · by_cases heq : u = t
    · subst heq
      rw [headings, headings, Function.update_self, h, Option.map_some, Option.map_some, hb.cols, hb.metas]
    · rw [headings, headings, Function.update_of_ne heq]
  · by_cases heq : u = t
    · subst heq
      rw [bags, Function.update_self, Function.update_self]
      rfl
    · rw [bags, Function.update_of_ne heq, Function.update_of_ne heq, bags]

theorem Inv.insert_follows (hs : s.Inv) (h : s.headings.Legal env s.bags (.insert t values)) :
    Follows env s (.insert t values) := by
  obtain ⟨hd, hhd, hv⟩ := h
  obtain ⟨o, ho, hcols, hix⟩ := headings_some hhd
  rw [hcols] at hv
  have hcols' := cols_some ho
  by_cases hlen : ∃ vals ∈ values, vals.length ≠ o.table.cols.length
  · refine ⟨0, .error .invalidValueCount, s, fun fuel _ => ?_, hs, rfl, ?_⟩
    · simp only [exec, ho, if_pos hlen]
    · rw [Headings.exec, hcols', if_pos hlen]
      rfl
  · have hfit := hv fun vals hvals => not_not.1 fun hne => hlen ⟨vals, hvals, hne⟩
    obtain ⟨o', L, hnext, hb, hbag⟩ := InsertExecutor.next_spec (hs t o ho).2 hfit (env.fresh_length _)
    obtain ⟨hinv, hhead, hbags⟩ := hs.update ho hb
    cases hins : Tuple.insertRows o.table.cols (o.indexes.map Sigma.fst) values o.bag with
    | mk res bag =>
        rw [hins] at hnext hbag
        refine ⟨0, res.map fun _ => [], _, fun fuel _ => ?_, hinv, hhead, ?_⟩
        · simp only [exec, ho, if_neg hlen, hnext]
        · rw [hbags, hbag, Headings.exec, hcols', indexes_some ho, bags_some ho, if_neg hlen, hins]
          cases res <;> rfl

theorem Inv.delete_follows (hs : s.Inv) (h : s.headings.Legal env s.bags (.delete t conds)) :
    Follows env s (.delete t conds) := by
  obtain ⟨hd, hhd, hsel, hstay⟩ := h
  obtain ⟨o, ho, hcols, hix⟩ := headings_some hhd
  rw [hix, bags_some ho] at hstay
  obtain ⟨N, rids, hscan, hnd, hlive, hmem⟩ := hs.scanRids_spec ho hsel
  obtain ⟨o', L, hnext, hb, hbag⟩ := DeleteExecutor.delete_spec (hs t o ho).2 hnd hlive hmem fun hne =>
    hstay fun hc => hne (List.map_eq_nil_iff.1 hc)
  obtain ⟨hinv, hhead, hbags⟩ := hs.update ho hb
  refine ⟨N, .ok [], _, fun fuel hfuel => ?_, hinv, hhead, ?_⟩
  · simp only [exec, ho, hscan fuel hfuel, hnext]
    rfl
  · rw [hbags, hbag, Headings.exec, bags_some ho]
    rfl

theorem Inv.update_follows (hs : s.Inv) (h : s.headings.Legal env s.bags (.update t clauses conds)) :
    Follows env s (.update t clauses conds) := by
  obtain ⟨hd, hhd, hsel, hassign, hcount⟩ := h
  obtain ⟨o, ho, hcols, hix⟩ := headings_some hhd
  rw [hcols] at hassign
  rw [hcols, hix, bags_some ho] at hcount
  obtain ⟨N, rids, hscan, hnd, hlive, hmem⟩ := hs.scanRids_spec ho hsel
  obtain ⟨fields, o', L, hfields, hnext, hb, hbag⟩ :=
    UpdateExecutor.update_spec env (hs t o ho).2 hassign hnd hlive hmem fun p hp =>
    hcount p.1 (List.mem_map_of_mem hp)
  obtain ⟨hinv, hhead, hbags⟩ := hs.update ho hb
  refine ⟨N, .ok [], _, fun fuel hfuel => ?_, hinv, hhead, ?_⟩
  · simp only [exec, ho, hscan fuel hfuel, hfields, hnext]
    rfl
  · rw [hbags, hbag, Headings.exec, bags_some ho, cols_some ho]
    rfl

theorem index_of_tableScans {planner : Planner} (hx : x ∈ (tableScans planner ts conds).1) :
    x.indexColNames = planner.getIndexCols x.tabName x.conds := by
  induction ts generalizing conds with
  | nil => cases hx
  | cons t ts ih =>
      rw [tableScans_cons] at hx
      rcases List.mem_cons.1 hx with rfl | hx
      · rfl
      · exact ih hx

theorem Inv.text_eq (hs : s.Inv) {row : JoinedRow Bytes} (hrow : row ∈ s.database.data.cross ts)
    (hc : c.tabName ∈ ts) {col : ColMeta} (hcol : s.database.col c = some col) :
    s.database.text row c = s.headings.printed
      (QueryData.mapRow (fun t => Tuple.decode (s.headings.cols t)) row) c := by
  obtain ⟨record, hrecord⟩ :=
    Option.ne_none_iff_exists'.1 fun hnone => (QueryData.mem_cross hrow c.tabName).1 hnone hc
  have hmem : record ∈ s.database.rows c.tabName := QueryData.mem_rows_of_cross hrow hrecord
  have hmap : QueryData.mapRow (fun t => Tuple.decode (s.headings.cols t)) row c.tabName =
      some (Tuple.decode (s.headings.cols c.tabName) record) := by rw [QueryData.mapRow, hrecord]; rfl
  rcases hs.get_decode hmem with ⟨col', hcol', hnull, hget⟩ | ⟨hnone, -⟩
  · rw [Database.text, hcol', hrecord, Headings.printed, hmap, Option.bind_some, hget]
    exact (Datum.printed_datum col' record hnull).symm
  · cases hcol.symm.trans hnone

theorem Inv.answer_eq (hs : s.Inv) (hknown : q.Known)
    (hsel : ∀ c ∈ selCols, c.tabName ∈ q.tables ∧ ∃ col, s.database.col c = some col) :
    ((((s.database.data.cross q.tables).filter fun row =>
      q.conds.all (s.database.data.meets row)).map fun row =>
      selCols.map (s.database.text row) : List (List Bytes)) : Multiset (List Bytes)) =
      ((((s.headings.data s.bags).cross q.tables).filter fun row =>
        q.conds.all ((s.headings.data s.bags).meets row)).map fun row =>
        selCols.map (s.headings.printed row) : List (List Bytes)) := by
  have hrep := hs.represents q.tables
  have hmeets : ∀ row ∈ s.database.data.cross q.tables, ∀ cond ∈ q.conds, (s.headings.data s.bags).meets
      (QueryData.mapRow (fun t => Tuple.decode (s.headings.cols t)) row) cond =
        s.database.data.meets row cond := by
    intro row hrow cond hc
    refine hrep.meets (hknown cond hc) fun t ht => ?_
    obtain ⟨record, hrecord⟩ :=
      Option.ne_none_iff_exists'.1 fun hnone => (QueryData.mem_cross hrow t).1 hnone ht
    exact ⟨record, QueryData.mem_rows_of_cross hrow hrecord, hrecord⟩
  rw [Multiset.coe_eq_coe]
  refine .trans ?_ ((hrep.cross.filter _).map _).symm
  rw [List.filter_map, List.map_map]
  refine .of_eq ?_
  have hfilter : (s.database.data.cross q.tables).filter
    (fun row => q.conds.all (s.database.data.meets row)) =
      (s.database.data.cross q.tables).filter ((fun row => q.conds.all ((s.headings.data s.bags).meets row)) ∘
        QueryData.mapRow fun t => Tuple.decode (s.headings.cols t)) := by
    refine List.filter_congr fun row hrow => ?_
    rw [Function.comp_apply, Bool.eq_iff_iff, List.all_eq_true, List.all_eq_true]
    exact forall₂_congr fun cond hc => by rw [hmeets row hrow cond hc]
  rw [← hfilter]
  refine List.map_congr_left fun row hrow => List.map_congr_left fun c hc => ?_
  obtain ⟨hin, col, hcol⟩ := hsel c hc
  exact hs.text_eq (List.mem_of_mem_filter hrow) hin hcol

theorem Inv.select_follows (hs : s.Inv) (h : s.headings.Legal env s.bags (.select q selCols)) :
    Follows env s (.select q selCols) := by
  obtain ⟨henabled, hknown, hinner, hplain, htables, hsel, hready⟩ := h
  have hplain' : ∀ cond ∈ q.conds, s.database.Plain cond := fun cond hc => hplain cond hc _ s.col_eq
  have hsel' : ∀ c ∈ selCols, c.tabName ∈ q.tables ∧ ∃ col, s.database.col c = some col := by rwa [col_eq]
  have hhas : ∀ t ∈ q.tables, s.database.Has t := by
    intro t ht
    obtain ⟨hd, hhd⟩ := Option.ne_none_iff_exists'.1 (htables t ht)
    obtain ⟨o, ho, -, -⟩ := headings_some hhd
    exact hs.has ho
  have henabled' : (s.planner env).enableNestedloopJoin = true ∨
    (s.planner env).enableSortmergeJoin = true := henabled
  obtain ⟨p, hrun⟩ := makeOneRel_total henabled' q.tables q.conds []
  have hplanned := (planned_iff hknown hrun).2 hinner
  have hjoins := makeOneRel_joins hknown hrun
  have hscans : ∀ x ∈ p.scans, s.database.Ready x := by
    intro x hx
    have hmem := hjoins.scans.mem_iff.1 hx
    refine hs.ready (hready x (planner_eq s env ▸ hmem)) (index_of_tableScans hmem) fun cond hc => ?_
    exact ⟨hplain' cond (mem_scan_conds hmem hc).1, hplanned.placed.2 x hx cond hc⟩
  obtain ⟨N, rows, hperm, hrows⟩ := selectRows_spec hplanned hplain' hhas hsel' hscans
  refine ⟨N, .ok rows, s, fun fuel hfuel => ?_, hs, rfl, ?_⟩
  · simp only [exec, hrun, hrows fuel hfuel]
  · rw [Headings.exec, ← hs.answer_eq hknown hsel', ← Multiset.coe_eq_coe.2 hperm]
    rfl

theorem Inv.follows (hs : s.Inv) (h : s.headings.Legal env s.bags stmt) : Follows env s stmt := by
  cases stmt with
  | insert t values => exact hs.insert_follows h
  | delete t conds => exact hs.delete_follows h
  | update t clauses conds => exact hs.update_follows h
  | select q selCols => exact hs.select_follows h

theorem insertRows_res (cols : List ColMeta) (metas : List IndexMeta) (values : List (List Value))
    (bag : Multiset Tuple) :
    (Tuple.insertRows cols metas values bag).1 = .ok () ∨
    (Tuple.insertRows cols metas values bag).1 = .error .indexDuplicateKey := by
  induction values generalizing bag with
  | nil => exact .inl rfl
  | cons vals values ih =>
      rw [Tuple.insertRows]
      split
      · exact .inr rfl
      · exact ih _

theorem goesOn_of_exec {H : Headings} {e : DmlError} (h : (H.exec B stmt).1 = .error e) :
    e.goesOn = true := by
  cases stmt with
  | insert t values =>
      rw [Headings.exec] at h
      split at h
      · cases h
        rfl
      · rcases insertRows_res (H.cols t) (H.indexes t) values (B t) with hres | hres
        · simp only [hres, Except.map, reduceCtorEq] at h
        · simp only [hres, Except.map, Except.error.injEq] at h
          rw [← h]
          rfl
  | delete t conds => cases h
  | update t clauses conds => cases h
  | select q selCols => cases h

end Statements

end OpenTables

def OpenTable.created (tabName : String) (cols : List ColMeta) (file : RmFile)
    (metas : List IndexMeta) : OpenTable where
  table := ⟨tabName, cols, RmManager.openFile file⟩
  indexes := metas.map fun ix => ⟨ix, createIndex ix.layout⟩

theorem OpenTable.created_inv {tabName : String} {cols : List ColMeta} {file : RmFile}
    {metas : List IndexMeta} (hfile : RmManager.createFile (recordWidth cols) = .ok file)
    (hne : cols ≠ []) (hnamed : ∀ col ∈ cols, col.tabName = tabName)
    (hplaced : ColMeta.place 0 cols = cols) (hwide : ∀ col ∈ cols, col.Wide)
    (hfound : ∀ ix ∈ metas, ∀ c ∈ ix.cols, getCol cols ⟨c.tabName, c.name⟩ = .ok c) :
    (created tabName cols file metas).Inv ∧ (created tabName cols file metas).bag = 0 := by
  have hinv := RmFileHandle.openFile_inv hfile
  obtain ⟨hout, hlist⟩ := RmFileHandle.openFile_room hfile
  have hsize : (RmManager.openFile file).fileHdr.recordSize = recordWidth cols := by
    rw [RmManager.createFile] at hfile
    split at hfile
    · cases hfile
    · cases hfile
      rfl
  have hnone : ∀ r, (RmManager.openFile file).entry r = none := by
    intro r
    rw [RmFileHandle.entry, RmFileHandle.openFile_empty hfile]
  refine ⟨⟨⟨hinv, hne, hnamed, hplaced, hwide, hsize⟩,
    ⟨hinv, hout, [], hlist, List.forall_mem_nil _⟩, fun r record hr => ?_, ?_, ?_⟩, ?_⟩
  · cases (hnone r).symm.trans hr
  · intro p hp
    obtain ⟨ix, hix, rfl⟩ := List.mem_map.1 hp
    exact hfound ix hix
  · intro p hp
    obtain ⟨ix, -, rfl⟩ := List.mem_map.1 hp
    refine ⟨rfl, IxMap.empty, createIndex_sim ix.layout, fun k r => ?_⟩
    change IxMap.empty k = some r ↔ ∃ row, (RmManager.openFile file).entry r = some row ∧ _
    simp [IxMap.empty, hnone]
  · have hrows : (created tabName cols file metas).table.rows = [] :=
      List.eq_nil_iff_forall_not_mem.2 fun row hrow => by
      have hentry :=
        (mem_rows hinv).1 (show (row.1, row.2) ∈ (created tabName cols file metas).table.rows from hrow)
      cases (hnone row.1).symm.trans hentry
    rw [bag, hrows]
    rfl

section Example

def Plan.initial : ∀ p : Plan, p.State
  | .null => ()
  | .scan ⟨_, _, none⟩ => (⟨0, 0⟩ : Rid)
  | .scan ⟨_, _, some _⟩ => ((⟨0, 0⟩, ⟨0, 0⟩) : Iid × Iid)
  | .join _ left right _ => (⟨left.initial, right.initial, false⟩ : JoinState left.State right.State)

def plainEnv : DmlEnv :=
  ⟨true, true, ⟨fun _ => none, fun _ => none⟩, .ofNat 0, fun size => List.replicate size (.ofNat 0),
  fun _ => List.length_replicate, Plan.initial⟩

def newTables : OpenTables := fun t =>
  if t = "t"
    then some (.created "t" [⟨"t", "a", .int, 4, 0⟩] ⟨⟨4, 1, 987, rmNoPage, 124⟩, fun _ => none⟩ [indexA])
      else none

def heldBy (l : List Tuple) : Bags := fun t => if t = "t" then l else 0

theorem newTables_inv : newTables.Inv ∧ newTables.bags = heldBy [] := by
  have hcreated :=
    @OpenTable.created_inv "t" [⟨"t", "a", .int, 4, 0⟩]
      ⟨⟨4, 1, 987, rmNoPage, 124⟩, fun _ => none⟩ [indexA] rfl
    (by decide) (by decide) rfl (by simp [ColMeta.Wide]) (by decide)
  constructor
  · intro t o ho
    rw [newTables] at ho
    split at ho
    · next heq =>
      cases ho
      exact ⟨heq.symm, hcreated.1⟩
    · cases ho
  · funext t
    rw [OpenTables.bags, newTables, heldBy]
    by_cases ht : t = "t"
    · rw [if_pos ht, if_pos ht]
      exact hcreated.2
    · rw [if_neg ht, if_neg ht]
      rfl

def condA (op : CompOp) (i : Int32) : Condition := ⟨⟨"t", "a"⟩, op, .val (.int i)⟩

def sampleSession : List DmlStmt :=
  [.insert "t" [[.int 1], [.int 1]],
    .update "t" [⟨⟨"t", "a"⟩, .int 2⟩] [condA .eq 1],
    .delete "t" [condA .gt 5],
    .select ⟨["t"], [condA .ge 2], by decide, by decide, by decide⟩ [⟨"t", "a"⟩]]

theorem plain_condA (op : CompOp) (i : Int32) : newTables.headings.Plain (condA op i) := by
  intro db hdb
  have hcol : db.col ⟨"t", "a"⟩ = some ⟨"t", "a", .int, 4, 0⟩ := by rw [hdb]; rfl
  exact .number hcol rfl trivial

theorem update_heldBy (l l' : List Tuple) : Function.update (heldBy l) "t" l' = heldBy l' := by
  funext t
  by_cases ht : t = "t"
  · subst ht
    exact Function.update_self _ _ _
  · rw [Function.update_of_ne ht, heldBy, heldBy, if_neg ht, if_neg ht]

theorem insert_sample : newTables.headings.exec (heldBy []) (.insert "t" [[.int 1], [.int 1]]) =
    (.error .indexDuplicateKey, heldBy [[.int 1]]) := by
  rw [← update_heldBy [] [[.int 1]]]
  rfl

theorem update_sample :
    newTables.headings.exec (heldBy [[.int 1]]) (.update "t" [⟨⟨"t", "a"⟩, .int 2⟩] [condA .eq 1]) =
    (.ok 0, heldBy [[.int 2]]) := by
  rw [← update_heldBy [[.int 1]] [[.int 2]]]
  rfl

theorem delete_sample : newTables.headings.exec (heldBy [[.int 2]]) (.delete "t" [condA .gt 5]) =
    (.ok 0, heldBy [[.int 2]]) := by
  have hexec : newTables.headings.exec (heldBy [[.int 2]]) (.delete "t" [condA .gt 5]) =
    (.ok 0, Function.update (heldBy [[.int 2]]) "t" ([[.int 2]] : List Tuple)) := rfl
  rw [hexec, update_heldBy]

theorem ready_sample {op : CompOp} {i n : Int32} {lo hi : Key indexA.layout}
    (hlo : IndexScanExecutor.lowerKey indexA [condA op i] = .ok lo)
    (hhi : IndexScanExecutor.upperKey indexA [condA op i] = .ok hi)
    (hno : ¬ (IndexScanExecutor.endCode indexA hi < keyCode indexA.layout.cols (intBytes n) ∧
      keyCode indexA.layout.cols (intBytes n) < IndexScanExecutor.endCode indexA lo)) :
    newTables.headings.Ready (heldBy [[.int n]]) ⟨"t", [condA op i], some ["a"]⟩ := by
  intro names hnames
  cases hnames
  refine ⟨List.forall_mem_singleton.2 rfl, fun h hh ix hix _ lo' hi' hlo' hhi' tup htup => ?_⟩
  cases hh
  obtain rfl := List.mem_singleton.1 hix
  cases hlo.symm.trans hlo'
  cases hhi.symm.trans hhi'
  obtain rfl := List.mem_singleton.1 htup
  exact hno

theorem selective_sample {op : CompOp} {i n : Int32}
    (h : newTables.headings.Ready (heldBy [[.int n]]) ⟨"t", [condA op i], some ["a"]⟩)
    (hscan : newTables.headings.dmlScan plainEnv "t" [condA op i] = ⟨"t", [condA op i], some ["a"]⟩) :
    newTables.headings.Selective plainEnv (heldBy [[.int n]]) "t" [condA op i] :=
  ⟨List.forall_mem_singleton.2 ⟨plain_condA op i, List.mem_singleton.2 rfl, nofun⟩, by rw [hscan]; exact h⟩

theorem legal_sample : newTables.headings.LegalRun plainEnv (heldBy []) sampleSession := by
  refine ⟨⟨_, rfl, fun _ vals hvals => ?_⟩, ?_⟩
  · have htakes : ∀ v, ColMeta.Takes ⟨"t", "a", .int, 4, 0⟩ (.int v) := fun v => .inl rfl
    simp only [List.mem_cons, List.not_mem_nil, or_false, or_self] at hvals
    subst hvals
    exact .cons (htakes 1) .nil
  rw [insert_sample]
  refine ⟨⟨_, rfl, selective_sample (ready_sample rfl rfl (by decide)) rfl, ?_, ?_⟩, ?_⟩
  · exact List.forall_mem_singleton.2 ⟨⟨"t", "a", .int, 4, 0⟩, rfl, .inl rfl⟩
  · refine List.forall_mem_singleton.2 (.inr ⟨rfl, ?_⟩)
    exact (Multiset.coe_nodup (l := [[some (Datum.int 1)], [some (Datum.int 2)]])).2 (by decide)
  rw [update_sample]
  refine ⟨⟨_, rfl, selective_sample (ready_sample rfl rfl (by decide)) rfl, fun _
    ⟨tup, htup, hsel⟩ => ?_⟩, ?_⟩
  · obtain rfl := List.mem_singleton.1 htup
    cases hsel
  rw [delete_sample]
  refine ⟨⟨.inl rfl, ?_, ?_, ?_, ?_, ?_, ?_⟩, trivial⟩
  · exact List.forall_mem_singleton.2 ⟨List.mem_singleton.2 rfl, nofun⟩
  · exact List.forall_mem_singleton.2 nofun
  · exact List.forall_mem_singleton.2 (plain_condA .ge 2)
  · exact List.forall_mem_singleton.2 nofun
  · exact List.forall_mem_singleton.2 ⟨List.mem_singleton.2 rfl, _, rfl⟩
  · exact List.forall_mem_singleton.2 (ready_sample rfl rfl (by decide +kernel))

theorem select_sample : newTables.headings.exec (heldBy [[.int 2]])
    (.select ⟨["t"], [condA .ge 2], by decide, by decide, by decide⟩ [⟨"t", "a"⟩]) =
    (.ok ([[ascii "2"]] : List (List Bytes)), heldBy [[.int 2]]) := by
  have hrows : (heldBy [[.int 2]] "t").toList = [[Datum.int 2]] := Multiset.toList_singleton _
  have hcross : (newTables.headings.data (heldBy [[.int 2]])).cross ["t"] =
      [QueryData.merge (QueryData.single "t" [Datum.int 2]) fun _ => none] := by
    rw [QueryData.cross]
    change (heldBy [[.int 2]] "t").toList.flatMap _ = _
    rw [hrows]
    rfl
  rw [Headings.exec, hcross]
  rfl

end Example

end Rmdb
