import Rmdb.System.DdlRefines

namespace Rmdb.SmMeta.Schema

open Restart

abbrev Agrees {α : Type} (o : Outcome Stop α SmState Disk) (o' : Outcome Stop α Database Stored) : Prop :=
  o.Matches (fun e => Stop.ends e = true) Represents Stores o'

section Agree

variable {s : SmState} {d : Database} {n : String} {t : Table} {cols : List ColDef} {ix : List String}

theorem Agrees.refused {α : Type} (h : Represents s d) (e : DdlError) :
    Agrees (⟨.error (.error e), s, []⟩ : Outcome Stop α SmState Disk) (refuse e d) := ⟨rfl, .nil, fun _ => h⟩

theorem Agrees.failed {α β : Type} (h : Represents s d) {e : DdlError} {x : Sm α} {f : α → Sm β}
    (hx : x s = ⟨.error (.error e), s, []⟩) : Agrees ((x >>= f) s) (refuse e d) := by
  rw [run_fail hx]
  exact .refused h e

theorem Agrees.returned {α : Type} (h : Represents s d) (a : α) :
    Agrees ((pure a : Sm α) s) ((pure a : Db α) d) := ⟨rfl, .nil, fun _ => h⟩

theorem Agrees.bind {α β : Type} {x : Sm α} {y : Db α} {f : α → Sm β} {g : α → Db β} (hx : Agrees (x s) (y d))
    (hf : ∀ a, (y d).result = .ok a → Represents (x s).state (y d).state →
      Agrees (f a (x s).state) (g a (y d).state)) :
    Agrees ((x >>= f) s) ((y >>= g) d) := hx.andThen hf

theorem Represents.getTable (h : Represents s d) (n : String) :
    s.db.getTable n = (d.tables.lookup n).map (tabMeta n) := h.db.table n

theorem Represents.files_none (h : Represents s d) {p : String} (hp : p ∉ d.files) :
    s.disk.files p = none := by
  rw [h.mem_files, not_not] at hp
  exact hp

theorem layCols_eq (n : String) (cols : List ColDef) :
    SmManager.layCols n (.ofNat 0) cols = (laid n ⟨cols, []⟩, Table.recordSize ⟨cols, []⟩) :=
  Prod.ext rfl (layCols_size.trans (Int32.zero_add _))

theorem createTable_run (hget : s.db.getTable n = none)
    (hsize : ¬ (Table.recordSize ⟨cols, []⟩ < .ofNat 1 ∨ rmMaxRecordSize < Table.recordSize ⟨cols, []⟩))
    (hfile : s.disk.files n = none) (hopen : s.isOpen n = false) (hfh : s.fhs n = none) {s' : SmState}
    (hs' : s' = (((s.setFile n (some (.record (Table.recordSize ⟨cols, []⟩)))).setDb
      (s.db.setTab (tabMeta n ⟨cols, []⟩))).setOpen n true).setFh n (some (Table.recordSize ⟨cols, []⟩))) :
    SmManager.createTable n cols s = ⟨.ok (), s'.setMeta s'.db.write, [(s.setFile n (some .empty)).disk,
      (s.setFile n (some (.record (Table.recordSize ⟨cols, []⟩)))).disk, (s'.setMeta []).disk,
      (s'.setMeta s'.db.write).disk]⟩ := by
  subst hs'
  rw [SmManager.createTable, run_get, DbMeta.isTable, hget, if_neg (by decide), layCols_eq]
  have hnew : (s.setFile n (some (.record (Table.recordSize ⟨cols, []⟩)))).disk.files n =
      some (.record (Table.recordSize ⟨cols, []⟩)) :=
    Function.update_self _ _ _
  have hmod : ∀ s : SmState,
    (modifyGet fun s => ((), s.setDb (s.db.setTab ⟨n, laid n ⟨cols, []⟩, []⟩)) : Sm Unit) s =
      ⟨.ok (), s.setDb (s.db.setTab (tabMeta n ⟨cols, []⟩)), []⟩ := fun _ => rfl
  have hopened :=
    RmManager.openFile_run (s := (s.setFile n (some (.record (Table.recordSize ⟨cols, []⟩)))).setDb
    (s.db.setTab (tabMeta n ⟨cols, []⟩))) hnew hopen
  have hemplaced :=
    SmManager.emplaceFh_run (s := ((s.setFile n (some (.record (Table.recordSize ⟨cols, []⟩)))).setDb
    (s.db.setTab (tabMeta n ⟨cols, []⟩))).setOpen n true) (n := Table.recordSize ⟨cols, []⟩) hfh
  exact run_bind (RmManager.createFile_run hsize hfile hopen) (run_bind (hmod _) (run_bind hopened
    (run_bind hemplaced SmManager.flushMeta_run)))

theorem Represents.fhs_none (h : Represents s d) (hn : d.tables.lookup n = none) : s.fhs n = none := by
  rw [Option.eq_none_iff_forall_ne_some]
  intro size hsize
  generalize hc : FileContent.record size = c at *
  have hw := (h.fhs n size).1 hsize
  rw [hc] at hw
  cases hw with
  | record ht => cases hn.symm.trans ht
  | index => cases hc

theorem shows_setTab {db : DbMeta} {tables : Tables} (h : Shows db tables) (t : Table) :
    Shows (db.setTab (tabMeta n t)) (tables.insert n t) := by
  refine ⟨h.name, fun m => ?_⟩
  have hname : (tabMeta n t).name = n := rfl
  rw [getTable_setTab, hname]
  by_cases hm : n = m
  · subst hm
    rw [Finmap.lookup_insert, if_pos rfl]
    rfl
  · rw [Finmap.lookup_insert_of_ne _ (Ne.symm hm), if_neg hm, h.table]

theorem createTable_agrees (h : Represents s d) (hn : isIdentifier n = true)
    (hcols : ∀ col ∈ cols, isIdentifier col.name = true) :
    Agrees (SmManager.createTable n cols s) (createTable n cols d) := by
  have hget := h.getTable n
  rw [createTable]
  by_cases hmem : n ∈ d.tables
  · obtain ⟨t, ht⟩ := Finmap.mem_iff.1 hmem
    rw [if_pos hmem, SmManager.createTable, run_get, DbMeta.isTable, hget, ht, Option.map_some,
      if_pos Option.isSome_some]
    exact .refused h _
  have hnone := Finmap.lookup_eq_none.2 hmem
  rw [hnone, Option.map_none] at hget
  rw [if_neg hmem]
  by_cases hsize : Table.recordSize ⟨cols, []⟩ < .ofNat 1 ∨ rmMaxRecordSize < Table.recordSize ⟨cols, []⟩
  · rw [if_pos hsize, SmManager.createTable, run_get, DbMeta.isTable, hget, if_neg (by decide), layCols_eq]
    have hfail : RmManager.createFile n (Table.recordSize ⟨cols, []⟩) s =
        ⟨.error (.error (.invalidRecordSize (Table.recordSize ⟨cols, []⟩))), s, []⟩ := by
      rw [RmManager.createFile, if_pos hsize]
      rfl
    exact .failed h hfail
  rw [if_neg hsize]
  by_cases hf : n ∈ d.files
  · rw [if_pos hf, SmManager.createTable, run_get, DbMeta.isTable, hget, if_neg (by decide), layCols_eq]
    have hfail : RmManager.createFile n (Table.recordSize ⟨cols, []⟩) s =
        ⟨.error (.error (.fileExists n)), s, []⟩ := by
      rw [RmManager.createFile, if_neg hsize]
      exact run_fail (createFile_exists (h.mem_files.1 hf))
    exact .failed h hfail
  rw [if_neg hf]
  set s' := (((s.setFile n (some (.record (Table.recordSize ⟨cols, []⟩)))).setDb
    (s.db.setTab (tabMeta n ⟨cols, []⟩))).setOpen n true).setFh n (some (Table.recordSize
      ⟨cols, []⟩)) with hs'
  have hfh := h.fhs_none hnone
  rw [createTable_run hget hsize (h.files_none hf) (h.closed hf) hfh hs']
  have hsound : Sound (d.tables.insert n ⟨cols, []⟩) :=
    h.sound.insert hn hcols (fun _ hc => absurd hc List.not_mem_nil) List.nodup_nil
      (fun _ hc => absurd hc List.not_mem_nil)
      fun _ hc => absurd hc List.not_mem_nil
  have hafter : Represents (s'.setMeta s'.db.write) ⟨d.tables.insert n ⟨cols, []⟩, insert n d.files⟩ := by
    refine h.add hf hsound (shows_setTab h.db _) (wanted_create hnone) rfl rfl rfl
      (fun p size => ?_) fun p hdr => ?_
    · change Function.update s.fhs n _ p = _ ↔ _
      by_cases hp : p = n
      · subst hp
        simp [hfh, eq_comm]
      · simp [hp]
    · change s.ihs p = _ ↔ _
      simp
  refine ⟨rfl, ?_, fun _ => hafter⟩
  exact .cons (h.half hf _) (.cons (h.half hf _) hafter.described)

theorem mem_indexNames {tables : Tables} {p : String} :
    p ∈ (entries tables).flatMap indexNames ↔
    ∃ n t, tables.lookup n = some t ∧ ∃ ix ∈ t.indexes, getIndexName n ix = p := by
  rw [List.mem_flatMap]
  constructor
  · rintro ⟨⟨n, t⟩, he, hp⟩
    obtain ⟨ix, hix, rfl⟩ := List.mem_map.1 hp
    exact ⟨n, t, mem_entries.1 he, ix, hix, rfl⟩
  · rintro ⟨n, t, ht, ix, hix, rfl⟩
    exact ⟨(n, t), mem_entries.2 ht, List.mem_map_of_mem hix⟩

theorem Represents.ihs_none_iff (h : Represents s d) {p : String} :
    s.ihs p = none ↔ p ∉ (entries d.tables).flatMap indexNames := by
  rw [mem_indexNames, Option.eq_none_iff_forall_ne_some]
  constructor
  · rintro hnone ⟨n, t, ht, ix, hix, rfl⟩
    exact hnone _ ((h.ihs _ _).2 (.index ht hix))
  · intro hnone hdr hih
    rcases wanted_iff.1 ((h.ihs p hdr).1 hih) with ⟨_, _, hc⟩ | ⟨n, t, ix, ht, hix, hp, -⟩
    · cases hc
    · exact hnone ⟨n, t, ht, ix, hix, hp.symm⟩

theorem eraseIdx_map_erase {β : Type} (g : List String → β) (ixs : List (List String))
    (ix : List String) {i : Nat} (h : (ixs.findIdx? fun ix' => decide (ix' = ix)) = some i) :
    (ixs.map g).eraseIdx i = (ixs.erase ix).map g := by
  induction ixs generalizing i with
  | nil => cases h
  | cons ix' ixs ih =>
      rw [List.findIdx?_cons] at h
      by_cases heq : ix' = ix
      · rw [if_pos (decide_eq_true heq), Option.some.injEq] at h
        subst h heq
        rw [List.erase_cons_head]
        rfl
      · rw [if_neg (by simpa using heq)] at h
        obtain ⟨j, hj, rfl⟩ := Option.map_eq_some_iff.1 h
        rw [List.erase_cons_tail (by simpa using heq), List.map_cons, List.map_cons,
          List.eraseIdx_cons_succ, ih hj]

theorem dropIndex_run {name : String} {hdr : IndexHdr} {tab : TabMeta} {i : Nat}
    {pinned : List String} {s' : SmState} (hname : getIndexName n ix = name) (hih : s.ihs name = some hdr)
    (hget : s.db.getTable n = some tab) (hidx : tab.getIndexMeta ix = some i)
    (hfile : s.disk.files name = some (.index hdr 3)) (hopen : s.isOpen name = true)
    (hs' : s' = (s.setDb (s.db.setTab { tab with indexes := tab.indexes.eraseIdx i })).setOpen name
      false) :
    SmManager.dropIndex n ix pinned s =
      if name ∈ pinned then ⟨.error .ended, s', [s.disk]⟩
      else ⟨.ok (), ((s'.setFile name none).setIh name none).setMeta s'.db.write,
        [s.disk, (s'.setFile name none).disk, (((s'.setFile name none).setIh name none).setMeta []).disk,
          (((s'.setFile name none).setIh name none).setMeta s'.db.write).disk]⟩ := by
  subst hname hs'
  rw [SmManager.dropIndex, run_get, hih, hget]
  simp only [hidx]
  have hset : ∀ s' : SmState, (set s' : Sm PUnit) s = ⟨.ok ⟨⟩, s', []⟩ := fun _ => rfl
  have hclosed :=
    IxManager.closeIndex_run
      (s := s.setDb (s.db.setTab { tab with indexes := tab.indexes.eraseIdx i })) hfile hopen
  by_cases hpin : getIndexName n ix ∈ pinned
  · have hend : ∀ s, SmManager.clearAndDestroy (getIndexName n ix) pinned s = ⟨.error .ended, s, []⟩ := by
      intro s
      rw [SmManager.clearAndDestroy, if_pos hpin]
      rfl
    rw [if_pos hpin]
    exact run_bind (hset _) (run_bind hclosed (hend _))
  · have hthere : ((s.setDb (s.db.setTab { tab with indexes := tab.indexes.eraseIdx i })).setOpen
      (getIndexName n ix) false).disk.files
        (getIndexName n ix) ≠ none := by
      change s.disk.files _ ≠ none
      rw [hfile]
      exact nofun
    have hmod : ∀ s : SmState, (modifyGet fun s => ((), s.setIh (getIndexName n ix) none) : Sm Unit) s =
      ⟨.ok (), s.setIh (getIndexName n ix) none, []⟩ := fun _ => rfl
    rw [if_neg hpin]
    refine run_bind (hset _) (run_bind hclosed ?_)
    rw [SmManager.clearAndDestroy, if_neg hpin]
    exact run_bind (destroyFile_run hthere) (run_bind (hmod _) SmManager.flushMeta_run)

theorem Represents.withoutIndex {hdr : IndexHdr} (h : Represents s d) (ht : d.tables.lookup n = some t)
    (hmem : ix ∈ t.indexes) (hw : Wanted d.tables (getIndexName n ix) (.index hdr 3)) :
    Represents (((((s.setDb (s.db.setTab (tabMeta n { t with indexes := t.indexes.erase ix }))).setOpen
        (getIndexName n ix) false).setFile (getIndexName n ix) none).setIh (getIndexName n ix) none).setMeta
          (s.db.setTab (tabMeta n { t with indexes := t.indexes.erase ix })).write)
      ⟨d.tables.insert n { t with indexes := t.indexes.erase ix }, d.files.erase (getIndexName n ix)⟩ := by
  refine h.remove (h.sound.dropIndex ht ix) (shows_setTab h.db _)
    (wanted_drop h.sound ht hmem) rfl rfl rfl (fun p size => ?_)
    fun p hdr' => ?_
  · change s.fhs p = _ ↔ _
    refine ⟨fun hp => ⟨hp, ?_⟩, And.left⟩
    rintro rfl
    cases wanted_inj h.sound hw ((h.fhs _ _).1 hp)
  · change Function.update s.ihs (getIndexName n ix) none p = _ ↔ _
    by_cases hp : p = getIndexName n ix
    · subst hp
      simp
    · simp [hp]

theorem dropIndex_agrees (h : Represents s d) (hix : ix.length < 2147483648) (pinned : List String) :
    Agrees (SmManager.dropIndex n ix pinned s) (dropIndex n ix pinned d) := by
  rw [dropIndex]
  by_cases hfile : getIndexName n ix ∉ (entries d.tables).flatMap indexNames
  · rw [if_pos hfile, SmManager.dropIndex, run_get, h.ihs_none_iff.2 hfile]
    exact .refused h _
  rw [if_neg hfile]
  cases hih : s.ihs (getIndexName n ix) with
  | none => exact absurd (h.ihs_none_iff.1 hih) hfile
  | some hdr =>
      have hget := h.getTable n
      cases ht : d.tables.lookup n with
      | none =>
          rw [ht, Option.map_none] at hget
          rw [SmManager.dropIndex, run_get, hih, hget]
          exact .refused h _
      | some t =>
          rw [ht, Option.map_some] at hget
          have hidx := getIndexMeta_laid (n := n) (h.sound.indexes ht) hix
          simp only
          by_cases hmem : ix ∉ t.indexes
          · have hnone : (t.indexes.findIdx? fun ix' => decide (ix' = ix)) = none := by
              rw [List.findIdx?_eq_none_iff]
              intro ix' hix'
              simpa using fun heq : ix' = ix => hmem (heq ▸ hix')
            rw [if_pos hmem, SmManager.dropIndex, run_get, hih, hget]
            simp only [hidx, hnone]
            exact .refused h _
          · rw [if_neg hmem]
            rw [not_not] at hmem
            have hw : Wanted d.tables (getIndexName n ix) (.index hdr 3) := (h.ihs _ _).1 hih
            cases hfind : (t.indexes.findIdx? fun ix' => decide (ix' = ix)) with
            | none => exact absurd (List.findIdx?_eq_none_iff.1 hfind ix hmem) (by simp)
            | some i =>
                rw [hfind] at hidx
                have hold := h.present hw
                rw [dropIndex_run rfl hih hget hidx hold (h.opened hw) rfl]
                by_cases hpin : getIndexName n ix ∈ pinned
                · rw [if_pos hpin, if_pos hpin]
                  exact ⟨rfl, .cons h.stores .nil, fun hc => absurd rfl (hc .ended rfl)⟩
                · rw [if_neg hpin, if_neg hpin]
                  have htab : { tabMeta n t with indexes := (tabMeta n t).indexes.eraseIdx i } =
                      tabMeta n { t with indexes := t.indexes.erase ix } := by
                    have herase := eraseIdx_map_erase (indexMeta n t) t.indexes ix hfind
                    simp only [tabMeta]
                    rw [herase]
                    rfl
                  rw [htab]
                  have hafter := h.withoutIndex ht hmem hw
                  refine ⟨rfl, ?_, fun _ => hafter⟩
                  exact .cons h.stores (.cons (h.missing _) hafter.described)

theorem find_laid_eq_none {col : String} :
    (laid n t).find? (fun c => decide (c.name = col)) = none ↔ col ∉ t.cols.map ColDef.name := by
  rw [← laid_names (n := n), List.find?_eq_none, List.mem_map]
  simp

theorem getCols_found (hix : ∀ col ∈ ix, col ∈ t.cols.map ColDef.name) :
    SmManager.getCols (tabMeta n t) ix s = ⟨.ok (laidKey n t ix), s, []⟩ := by
  induction ix with
  | nil => rfl
  | cons col ix ih =>
      have hcol := hix col List.mem_cons_self
      cases hfind : (laid n t).find? fun c : ColMeta => decide (c.name = col) with
      | none => exact absurd hcol (find_laid_eq_none.1 hfind)
      | some c =>
          have hrest := ih fun c hc => hix c (List.mem_cons_of_mem _ hc)
          have hkey : laidKey n t (col :: ix) = c :: laidKey n t ix := by
            simp only [laidKey, List.filterMap_cons, hfind]
          rw [SmManager.getCols, getCol_laid, hfind, hkey]
          exact run_bind hrest rfl

theorem getCols_missing {col : String}
    (hix : (ix.find? fun col => decide (col ∉ t.cols.map ColDef.name)) = some col) :
    SmManager.getCols (tabMeta n t) ix s = ⟨.error (.error (.columnNotFound col)), s, []⟩ := by
  induction ix with
  | nil => cases hix
  | cons c ix ih =>
      rw [SmManager.getCols, getCol_laid]
      cases hfind : (laid n t).find? fun c' : ColMeta => decide (c'.name = c) with
      | none =>
          have hc := find_laid_eq_none.1 hfind
          rw [List.find?_cons, decide_eq_true hc] at hix
          cases hix
          rfl
      | some c' =>
          have hc : c ∈ t.cols.map ColDef.name := by
            by_contra hc
            rw [find_laid_eq_none.2 hc] at hfind
            cases hfind
          have hrest : (ix.find? fun col => decide (col ∉ t.cols.map ColDef.name)) = some col := by
            rw [List.find?_cons, decide_eq_false (not_not.2 hc)] at hix
            exact hix
          exact run_fail (ih hrest)

theorem createIndex_run {name : String} {fill : Option DdlError} {s' : SmState}
    (hname : getIndexName n ix = name) (hget : s.db.getTable n = some (tabMeta n t))
    (hix : ∀ col ∈ ix, col ∈ t.cols.map ColDef.name) (hlen : ¬ ixMaxColLen < (t.keyHdr ix).colTotLen)
    (horder : IxManager.orderHolds (t.keyHdr ix).colTotLen = true) (hfile : s.disk.files name = none)
    (hopen : s.isOpen name = false) (hih : s.ihs name = none)
    (hs' : s' = (((s.setFile name (some (.index (t.keyHdr ix) 3))).setDb
      (s.db.setTab (tabMeta n { t with indexes := t.indexes ++ [ix] }))).setOpen name true).setIh name
        (some (t.keyHdr ix))) :
    SmManager.createIndex n ix fill s = ⟨fillResult fill, s'.setMeta s'.db.write,
      [(s.setFile name (some .empty)).disk, (s.setFile name (some (.index (t.keyHdr ix) 1))).disk,
        (s.setFile name (some (.index (t.keyHdr ix) 2))).disk,
        (s.setFile name (some (.index (t.keyHdr ix) 3))).disk,
        (s'.setMeta []).disk, (s'.setMeta s'.db.write).disk]⟩ := by
  subst hname hs'
  rw [SmManager.createIndex, run_get, hget]
  have hnames : (laidKey n t ix).map ColMeta.name = ix := laidKey_names hix
  have hnew : (s.setFile (getIndexName n ix) (some (.index (t.keyHdr ix) 3))).disk.files (getIndexName n ix) =
      some (.index (t.keyHdr ix) 3) := Function.update_self _ _ _
  have hname : getIndexName n ((laidKey n t ix).map ColMeta.name) = getIndexName n ix := congrArg _ hnames
  have hcreated := IxManager.createIndex_run (s := s) hname keyHdr_laid hfile hopen hlen horder
  have htab : { tabMeta n t with indexes := (tabMeta n t).indexes ++ [indexMeta n t ix] } =
      tabMeta n { t with indexes := t.indexes ++ [ix] } := by
    simp only [tabMeta, List.map_append]
    rfl
  have hmod : ∀ s : SmState, (modifyGet fun s => ((), s.setDb (s.db.setTab { tabMeta n t with
      indexes := (tabMeta n t).indexes ++ [indexMeta n t ix] })) : Sm Unit) s =
      ⟨.ok (), s.setDb (s.db.setTab (tabMeta n { t with indexes := t.indexes ++ [ix] })), []⟩ := by
    intro s
    rw [← htab]
    rfl
  have hopened :=
    IxManager.openIndex_run (s := (s.setFile (getIndexName n ix) (some (.index (t.keyHdr ix) 3))).setDb
    (s.db.setTab (tabMeta n { t with indexes := t.indexes ++ [ix] }))) hnew hopen
  have hemplaced :=
    SmManager.emplaceIh_run (s := ((s.setFile (getIndexName n ix) (some (.index (t.keyHdr ix) 3))).setDb
    (s.db.setTab (tabMeta n { t with indexes := t.indexes ++ [ix] }))).setOpen (getIndexName n ix) true)
      (i := t.keyHdr ix) hih
  refine run_bind (getCols_found hix)
    (run_bind hcreated (run_bind (hmod _) (run_bind hopened (run_bind hemplaced
    (run_bind SmManager.flushMeta_run ?_)))))
  cases fill <;> rfl

theorem createIndexOn_agrees (h : Represents s d) (ht : d.tables.lookup n = some t)
    (hlen : ix.length < 2147483648) (hix : ∀ col ∈ ix, col ∈ t.cols.map ColDef.name)
    (fill : Option DdlError) :
    Agrees (SmManager.createIndex n ix fill s) (createIndexOn n t ix fill d) := by
  have hget := h.getTable n
  rw [ht, Option.map_some] at hget
  have hnames : (laidKey n t ix).map ColMeta.name = ix := laidKey_names hix
  have hname : getIndexName n ((laidKey n t ix).map ColMeta.name) = getIndexName n ix := congrArg _ hnames
  have hstart : ∀ {e ds s'}, IxManager.createIndex n (laidKey n t ix) s = ⟨.error e, s', ds⟩ →
      SmManager.createIndex n ix fill s = ⟨.error e, s', ds⟩ := by
    intro e ds s' hrun
    rw [SmManager.createIndex, run_get, hget]
    exact run_bind (getCols_found hix) (run_fail hrun)
  rw [createIndexOn]
  by_cases hf : getIndexName n ix ∈ d.files
  · have hthere : s.disk.files (getIndexName n ((laidKey n t ix).map ColMeta.name)) ≠ none := by
      rw [hnames]
      exact h.mem_files.1 hf
    have hexists := IxManager.createIndex_exists hthere
    rw [hnames] at hexists
    rw [if_pos hf, hstart hexists]
    exact .refused h _
  rw [if_neg hf]
  have hfile := h.files_none hf
  have hclosed := h.closed hf
  have hstray : ∀ {e}, (∀ s, IxManager.writePages (getIndexName n ix) (t.keyHdr ix) s =
      ⟨.error e, s, []⟩) → _ :=
    fun he => IxManager.createIndex_stray hname keyHdr_laid hfile hclosed he
  by_cases hlong : ixMaxColLen < (t.keyHdr ix).colTotLen
  · rw [if_pos hlong, hstart (hstray (IxManager.writePages_long hlong))]
    exact ⟨rfl, .cons (h.half hf _) .nil, fun _ => h.stray hf⟩
  rw [if_neg hlong]
  by_cases horder : IxManager.orderHolds (t.keyHdr ix).colTotLen = false
  · rw [if_pos horder, hstart (hstray (IxManager.writePages_ended hlong horder))]
    exact ⟨rfl, .cons (h.half hf _) .nil, fun hc => absurd rfl (hc .ended rfl)⟩
  rw [if_neg horder]
  have hih : s.ihs (getIndexName n ix) = none := by
    rw [h.ihs_none_iff, mem_indexNames]
    rintro ⟨m, u, hu, a, ha, hp⟩
    exact h.ne_of_notMem hf (.index hu ha) hp
  set s' := (((s.setFile (getIndexName n ix) (some (.index (t.keyHdr ix) 3))).setDb
    (s.db.setTab (tabMeta n { t with indexes := t.indexes ++ [ix] }))).setOpen (getIndexName n ix) true).setIh
      (getIndexName n ix) (some (t.keyHdr ix)) with hs'
  rw [createIndex_run rfl hget hix hlong (Bool.eq_true_of_not_eq_false horder) hfile hclosed hih hs']
  have hnew : ∀ {m u}, d.tables.lookup m = some u → ∀ a ∈ u.indexes, getIndexName m a ≠ getIndexName n ix :=
    fun hu a ha => h.ne_of_notMem hf (.index hu ha)
  have hsound := h.sound.createIndex ht hlen hix hnew
  have hafter : Represents (s'.setMeta s'.db.write)
      ⟨d.tables.insert n { t with indexes := t.indexes ++ [ix] }, insert (getIndexName n ix) d.files⟩ := by
    refine h.add hf hsound (shows_setTab h.db _) (wanted_index ht) rfl rfl rfl
      (fun p size => ?_) fun p hdr => ?_
    · change s.fhs p = _ ↔ _
      simp
    · change Function.update s.ihs (getIndexName n ix) _ p = _ ↔ _
      by_cases hp : p = getIndexName n ix
      · subst hp
        simp [hih, eq_comm]
      · simp [hp]
  refine ⟨rfl, ?_, fun _ => hafter⟩
  exact .cons (h.half hf _) (.cons (h.half hf _) (.cons (h.half hf _) (.cons (h.half hf _) hafter.described)))

theorem createIndex_agrees (h : Represents s d) (hlen : ix.length < 2147483648) (fill : Option DdlError) :
    Agrees (SmManager.createIndex n ix fill s) (createIndex n ix fill d) := by
  have hget := h.getTable n
  rw [createIndex]
  cases ht : d.tables.lookup n with
  | none =>
      rw [ht, Option.map_none] at hget
      rw [SmManager.createIndex, run_get, hget]
      exact .refused h _
  | some t =>
      rw [ht, Option.map_some] at hget
      cases hfind : ix.find? fun col => decide (col ∉ t.cols.map ColDef.name) with
      | some col =>
          rw [SmManager.createIndex, run_get, hget]
          simp only [hfind]
          exact .failed h (getCols_missing hfind)
      | none =>
          simp only [hfind]
          refine createIndexOn_agrees h ht hlen (fun col hcol => ?_) fill
          simpa using List.find?_eq_none.1 hfind col hcol

theorem dropIndex_ok {pinned : List String} (ht : d.tables.lookup n = some t)
    (hok : (dropIndex n ix pinned d).result = .ok ()) :
    (dropIndex n ix pinned d).state.tables.lookup n = some { t with indexes := t.indexes.erase ix } := by
  rw [dropIndex] at hok ⊢
  split at hok
  · cases hok
  · rename_i hfile
    rw [if_neg hfile]
    simp only [ht] at hok ⊢
    split at hok
    · cases hok
    · rename_i hmem
      rw [if_neg hmem]
      split at hok
      · cases hok
      · rename_i hpin
        rw [if_neg hpin]
        exact Finmap.lookup_insert _

theorem dropIndexes_ok {pinned : List String} {ixs : List (List String)} (ht : d.tables.lookup n = some t)
    (hixs : t.indexes = ixs) (hok : (dropIndexes n pinned ixs d).result = .ok ()) :
    (dropIndexes n pinned ixs d).state.tables.lookup n = some { t with indexes := [] } := by
  induction ixs generalizing d t with
  | nil =>
      change d.tables.lookup n = _
      rw [ht, ← hixs]
  | cons ix ixs ih =>
      obtain ⟨⟨⟩, hfirst, hrest, hstate⟩ := ok_of_bind hok
      have hleft := dropIndex_ok ht hfirst
      rw [hixs, List.erase_cons_head] at hleft
      rw [dropIndexes, hstate]
      exact ih (t := { t with indexes := ixs }) hleft rfl hrest

theorem dropIndexes_agrees {pinned : List String} {ixs : List (List String)} (h : Represents s d)
    (hixs : ∀ ix ∈ ixs, ix.length < 2147483648 ∧ ∀ col ∈ ix, col ∈ t.cols.map ColDef.name) :
    Agrees (SmManager.dropIndexes n pinned (ixs.map (indexMeta n t)) s) (dropIndexes n pinned ixs d) := by
  induction ixs generalizing s d with
  | nil => exact .returned h ()
  | cons ix ixs ih =>
      obtain ⟨hlen, hcols⟩ := hixs ix List.mem_cons_self
      have hnames : (indexMeta n t ix).cols.map ColMeta.name = ix := laidKey_names hcols
      rw [List.map_cons, SmManager.dropIndexes, dropIndexes]
      refine Agrees.bind ?_ fun _ _ hr => ih hr fun ix' hix' => hixs ix' (List.mem_cons_of_mem _ hix')
      rw [SmManager.dropIndexOf, hnames]
      exact dropIndex_agrees h hlen pinned

theorem shows_erase {db : DbMeta} {tables : Tables} (h : Shows db tables) (n : String) :
    Shows (db.erase n) (tables.erase n) := by
  refine ⟨h.name, fun m => ?_⟩
  rw [getTable_erase]
  by_cases hm : n = m
  · subst hm
    rw [Finmap.lookup_erase, if_pos rfl]
    rfl
  · rw [Finmap.lookup_erase_ne (Ne.symm hm), if_neg hm, h.table]

theorem destroyTable_agrees (h : Represents s d) (ht : d.tables.lookup n = some t) (hix : t.indexes = []) :
    Agrees (SmManager.destroyTable n s) (removeTable n d) := by
  have hw : Wanted d.tables n (.record t.recordSize) := .record ht
  have hold := h.present hw
  have hclosed := RmManager.closeFile_run hold (h.opened hw)
  have hthere : (s.setOpen n false).disk.files n ≠ none := by
    change s.disk.files n ≠ none
    rw [hold]
    exact nofun
  have hmod : ∀ s : SmState, (modifyGet fun s => ((), (s.setDb (s.db.erase n)).setFh n none) : Sm Unit) s =
    ⟨.ok (), (s.setDb (s.db.erase n)).setFh n none, []⟩ := fun _ => rfl
  rw [SmManager.destroyTable, run_get, (h.fhs _ _).2 hw]
  simp only
  rw [run_bind hclosed (run_bind (destroyFile_run hthere) (run_bind (hmod _) SmManager.flushMeta_run))]
  have hafter : Represents
    (((((s.setOpen n false).setFile n none).setDb (s.db.erase n)).setFh n none).setMeta
      (s.db.erase n).write)
      ⟨d.tables.erase n, d.files.erase n⟩ :=
    h.remove (h.sound.erase n) (shows_erase h.db n) (wanted_erase h.sound ht hix) rfl rfl rfl
      (fun p size => by
        change Function.update s.fhs n none p = _ ↔ _
        by_cases hp : p = n
        · subst hp
          simp
        · simp [hp])
      (fun p hdr => by
        change s.ihs p = _ ↔ _
        refine ⟨fun hp => ⟨hp, ?_⟩, And.left⟩
        rintro rfl
        cases wanted_inj h.sound hw ((h.ihs _ _).1 hp))
  exact ⟨rfl, .cons h.stores (.cons (h.missing n) hafter.described), fun _ => hafter⟩

theorem dropTable_agrees (h : Represents s d) (pinned : List String) :
    Agrees (SmManager.dropTable n pinned s) (dropTable n pinned d) := by
  have hget := h.getTable n
  rw [SmManager.dropTable, dropTable, run_get, run_get]
  cases ht : d.tables.lookup n with
  | none =>
      rw [ht, Option.map_none] at hget
      rw [hget]
      exact .refused h _
  | some t =>
      rw [ht, Option.map_some] at hget
      rw [hget]
      refine Agrees.bind (dropIndexes_agrees h (h.sound.indexes ht)) fun _ hok hr => ?_
      exact destroyTable_agrees hr (dropIndexes_ok ht rfl hok) rfl

end Agree

end Rmdb.SmMeta.Schema
