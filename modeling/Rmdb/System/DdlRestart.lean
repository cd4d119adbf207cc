import Rmdb.System.DdlSession

namespace Rmdb.SmMeta.Schema

open Restart

def items (e : String × Table) : List (String × FileContent) :=
  (e.1, .record e.2.recordSize) :: e.2.indexes.map fun ix => (getIndexName e.1 ix, .index (e.2.keyHdr ix) 3)

def openItem (s : SmState) (i : String × FileContent) : SmState :=
  match i.2 with
  | .empty => s.setOpen i.1 true
  | .record size => (s.setOpen i.1 true).setFh i.1 (some size)
  | .index hdr _ => (s.setOpen i.1 true).setIh i.1 (some hdr)

structure Ready (s : SmState) (is : List (String × FileContent)) : Prop where
  nodup : (is.map Prod.fst).Nodup
  closed : ∀ i ∈ is, s.isOpen i.1 = false ∧ s.fhs i.1 = none ∧ s.ihs i.1 = none
  content : ∀ i ∈ is, s.disk.files i.1 = none ∨ s.disk.files i.1 = some i.2

/-- The files are opened one by one, up to the first that is missing. -/
def Opens {α : Type} (o : Outcome Stop α SmState Disk) (a : α) (s : SmState)
    (is : List (String × FileContent)) : Prop :=
  match (is.map Prod.fst).find? fun p => (s.disk.files p).isNone with
  | none => o = ⟨.ok a, is.foldl openItem s, []⟩
  | some p => ∃ s', o = ⟨.error (.error (.fileNotFound p)), s', []⟩

section Opening

variable {s : SmState} {i : String × FileContent} {is js : List (String × FileContent)} {tables : Tables}
  {n p : String} {t : Table}

@[simp] theorem openItem_disk : (openItem s i).disk = s.disk := by
  rw [openItem]
  split <;> rfl

@[simp] theorem openItem_db : (openItem s i).db = s.db := by
  rw [openItem]
  split <;> rfl

@[simp] theorem openItems_disk : (is.foldl openItem s).disk = s.disk := by
  induction is generalizing s with
  | nil => rfl
  | cons i is ih => rw [List.foldl_cons, ih, openItem_disk]

@[simp] theorem openItems_db : (is.foldl openItem s).db = s.db := by
  induction is generalizing s with
  | nil => rfl
  | cons i is ih => rw [List.foldl_cons, ih, openItem_db]

theorem openItem_isOpen : (openItem s i).isOpen = Function.update s.isOpen i.1 true := by
  rw [openItem]
  split <;> rfl

theorem openItem_fhs_of_ne (h : p ≠ i.1) : (openItem s i).fhs p = s.fhs p := by
  rw [openItem]
  split
  · rfl
  · exact Function.update_of_ne h _ _
  · rfl

theorem openItem_ihs_of_ne (h : p ≠ i.1) : (openItem s i).ihs p = s.ihs p := by
  rw [openItem]
  split
  · rfl
  · rfl
  · exact Function.update_of_ne h _ _

theorem Ready.tail (h : Ready s (i :: is)) : Ready (openItem s i) is := by
  obtain ⟨hne, hnodup⟩ := List.nodup_cons.1 (List.map_cons ▸ h.nodup)
  refine ⟨hnodup, fun j hj => ?_, fun j hj =>
    by rw [openItem_disk]; exact h.content j (List.mem_cons_of_mem i hj)⟩
  have hji : j.1 ≠ i.1 := fun heq => hne (heq ▸ List.mem_map_of_mem hj)
  rw [openItem_isOpen, Function.update_of_ne hji, openItem_fhs_of_ne hji, openItem_ihs_of_ne hji]
  exact h.closed j (List.mem_cons_of_mem i hj)

theorem Ready.append (h : Ready s (is ++ js)) : Ready s is ∧ Ready (is.foldl openItem s) js := by
  constructor
  · refine ⟨?_, fun i hi => h.closed i (List.mem_append_left js hi), fun i hi =>
      h.content i (List.mem_append_left js hi)⟩
    have hnodup := h.nodup
    rw [List.map_append] at hnodup
    exact hnodup.of_append_left
  · induction is generalizing s with
    | nil => exact h
    | cons i is ih => exact ih h.tail

theorem Opens.bind {α β : Type} {x : Sm α} {f : α → Sm β} {a : α} {b : β} (hx : Opens (x s) a s is)
    (hf : Opens (f a (is.foldl openItem s)) b (is.foldl openItem s) js) :
    Opens ((x >>= f) s) b s (is ++ js) := by
  rw [Opens] at hx hf ⊢
  rw [List.map_append, List.find?_append]
  cases hfind : (is.map Prod.fst).find? fun p => (s.disk.files p).isNone with
  | some p =>
      rw [hfind] at hx
      obtain ⟨s', hs'⟩ := hx
      exact ⟨s', run_fail hs'⟩
  | none =>
      rw [hfind] at hx
      simp only [openItems_disk] at hf
      rw [Option.none_or]
      cases hfind' : (js.map Prod.fst).find? fun p => (s.disk.files p).isNone with
      | none =>
          rw [hfind'] at hf
          simp only at hx hf ⊢
          rw [run_bind hx hf, List.foldl_append]
          rfl
      | some p =>
          rw [hfind'] at hf
          obtain ⟨s', hs'⟩ := hf
          exact ⟨s', run_bind hx hs'⟩

theorem opens_record {size : Int32} (h : Ready s [(n, .record size)]) :
    Opens ((RmManager.openFile n >>= SmManager.emplaceFh n) s) () s [(n, .record size)] := by
  obtain ⟨hclosed, hfh, -⟩ := h.closed _ List.mem_cons_self
  rw [Opens]
  rcases h.content _ List.mem_cons_self with hnone | hsome
  · simp only [List.map_cons, List.map_nil, List.find?_cons, hnone, Option.isNone_none]
    exact ⟨s, run_fail (RmManager.openFile_missing hnone hclosed)⟩
  · simp only [List.map_cons, List.map_nil, List.find?_cons, hsome, Option.isNone_some, List.find?_nil]
    exact run_bind (RmManager.openFile_run hsome hclosed)
      (SmManager.emplaceFh_run (s := s.setOpen n true) hfh)

theorem opens_index {ix : List String} {hdr : IndexHdr} (h : Ready s [(getIndexName n ix, .index hdr 3)]) :
    Opens ((IxManager.openIndex n ix >>= SmManager.emplaceIh (getIndexName n ix)) s)
      () s [(getIndexName n ix, .index hdr 3)] := by
  obtain ⟨hclosed, -, hih⟩ := h.closed _ List.mem_cons_self
  rw [Opens]
  rcases h.content _ List.mem_cons_self with hnone | hsome
  · simp only [List.map_cons, List.map_nil, List.find?_cons, hnone, Option.isNone_none]
    exact ⟨s, run_fail (IxManager.openIndex_missing hnone hclosed)⟩
  · simp only [List.map_cons, List.map_nil, List.find?_cons, hsome, Option.isNone_some, List.find?_nil]
    exact run_bind (IxManager.openIndex_run hsome hclosed)
      (SmManager.emplaceIh_run (s := s.setOpen (getIndexName n ix) true) hih)

theorem openIndexes_opens {ixs : List (List String)}
    (hixs : ∀ ix ∈ ixs, ∀ col ∈ ix, col ∈ t.cols.map ColDef.name)
    (h : Ready s (ixs.map fun ix => (getIndexName n ix, .index (t.keyHdr ix) 3))) :
    Opens (SmManager.openIndexes n (ixs.map (indexMeta n t)) s) () s
      (ixs.map fun ix => (getIndexName n ix, .index (t.keyHdr ix) 3)) := by
  induction ixs generalizing s with
  | nil => rfl
  | cons ix ixs ih =>
      have hnames : (indexMeta n t ix).cols.map ColMeta.name = ix :=
        laidKey_names (hixs ix List.mem_cons_self)
      rw [List.map_cons, ← List.singleton_append] at h
      obtain ⟨hfirst, hrest⟩ := h.append
      have hopened := ih (fun ix' hix' => hixs ix' (List.mem_cons_of_mem ix hix')) hrest
      have hall :=
        (opens_index hfirst).bind
          (f := fun _ => SmManager.openIndexes n (ixs.map (indexMeta n t))) hopened
      rw [List.map_cons, SmManager.openIndexes, hnames]
      rw [run_assoc] at hall
      exact hall

theorem openTables_opens {es : List (String × Table)} (hs : Sound tables)
    (hes : ∀ e ∈ es, tables.lookup e.1 = some e.2) (h : Ready s (es.flatMap items)) :
    Opens (SmManager.openTables (es.map fun e => tabMeta e.1 e.2) s) () s (es.flatMap items) := by
  induction es generalizing s with
  | nil => rfl
  | cons e es ih =>
      have hitems : (e :: es).flatMap items = [(e.1, .record e.2.recordSize)] ++
          (e.2.indexes.map (fun ix => (getIndexName e.1 ix, .index (e.2.keyHdr ix) 3)) ++
            es.flatMap items) := rfl
      rw [hitems] at h ⊢
      obtain ⟨hfirst, hrest⟩ := h.append
      obtain ⟨hindexes, htables⟩ := hrest.append
      have hopened := ih (fun e' he' => hes e' (List.mem_cons_of_mem e he')) htables
      have hixs : ∀ ix ∈ e.2.indexes, ∀ col ∈ ix, col ∈ e.2.cols.map ColDef.name :=
        fun ix hix => (hs.indexes (hes e List.mem_cons_self) ix hix).2
      have hinner :=
        (openIndexes_opens hixs hindexes).bind
          (f := fun _ => SmManager.openTables (es.map fun e => tabMeta e.1 e.2)) hopened
      have hall :=
        (opens_record hfirst).bind
          (f := fun _ => SmManager.openIndexes e.1 (e.2.indexes.map (indexMeta e.1 e.2)) >>=
        fun _ => SmManager.openTables (es.map fun e => tabMeta e.1 e.2)) hinner
      rw [run_assoc] at hall
      exact hall

theorem map_items (es : List (String × Table)) :
    (es.flatMap items).map Prod.fst = es.flatMap fun e => e.1 :: indexNames e := by
  rw [List.map_flatMap]
  refine List.flatMap_congr fun e _ => ?_
  rw [items, List.map_cons, List.map_map]
  rfl

theorem mem_items {c : FileContent} : (p, c) ∈ (entries tables).flatMap items ↔ Wanted tables p c := by
  rw [List.mem_flatMap, wanted_iff]
  constructor
  · rintro ⟨⟨n, t⟩, he, hi⟩
    have ht := mem_entries.1 he
    rcases List.mem_cons.1 hi with hi | hi
    · cases hi
      exact .inl ⟨t, ht, rfl⟩
    · obtain ⟨ix, hix, heq⟩ := List.mem_map.1 hi
      cases heq
      exact .inr ⟨n, t, ix, ht, hix, rfl, rfl⟩
  · rintro (⟨t, ht, rfl⟩ | ⟨n, t, ix, ht, hix, rfl, rfl⟩)
    · exact ⟨(p, t), mem_entries.2 ht, List.mem_cons_self⟩
    · exact ⟨(n, t), mem_entries.2 ht, List.mem_cons_of_mem _ (List.mem_map_of_mem hix)⟩

theorem fileNames_nodup (hs : Sound tables) : (fileNames tables).Nodup := by
  rw [fileNames, List.nodup_flatMap]
  constructor
  · rintro ⟨n, t⟩ he
    have ht := mem_entries.1 he
    refine List.nodup_cons.2 ⟨fun hc => ?_,
      (hs.nodup ht).map_on fun a ha b hb heq => (hs.ownFile ht ht a ha b hb heq).2⟩
    obtain ⟨ix, -, heq⟩ := List.mem_map.1 hc
    exact getIndexName_ne (hs.name ht) _ _ heq.symm
  · have hpair : (entries tables).Pairwise fun e e' => e.1 ≠ e'.1 :=
      (entries_sorted tables).imp fun hlt => hlt.ne
    refine hpair.imp_of_mem fun {e e'} he he' hne => ?_
    obtain ⟨n, t⟩ := e
    obtain ⟨n', t'⟩ := e'
    have ht := mem_entries.1 he
    have ht' := mem_entries.1 he'
    intro p hp hp'
    rcases List.mem_cons.1 hp with rfl | hp
    · rcases List.mem_cons.1 hp' with heq | hp'
      · exact hne heq
      · obtain ⟨ix, -, heq⟩ := List.mem_map.1 hp'
        exact getIndexName_ne (hs.name ht) _ _ heq.symm
    · obtain ⟨ix, hix, rfl⟩ := List.mem_map.1 hp
      rcases List.mem_cons.1 hp' with heq | hp'
      · exact getIndexName_ne (hs.name ht') _ _ heq.symm
      · obtain ⟨ix', hix', heq⟩ := List.mem_map.1 hp'
        exact hne (hs.ownFile ht ht' ix hix ix' hix' heq.symm).1

theorem openItem_fhs_iff {size : Int32} (h : s.fhs i.1 = none) :
    (openItem s i).fhs p = some size ↔ (p, .record size) = i ∨ s.fhs p = some size := by
  by_cases hp : p = i.1
  · subst hp
    obtain ⟨q, c⟩ := i
    cases c <;> simp [openItem, SmState.setFh, SmState.setOpen, SmState.setIh, h, eq_comm]
  · rw [openItem_fhs_of_ne hp]
    exact ⟨.inr, Or.rec (fun heq => absurd (congrArg Prod.fst heq) hp) id⟩

theorem openItem_ihs_iff {hdr : IndexHdr} (h : s.ihs i.1 = none) :
    (openItem s i).ihs p = some hdr ↔ (∃ pages, (p, .index hdr pages) = i) ∨ s.ihs p = some hdr := by
  by_cases hp : p = i.1
  · subst hp
    obtain ⟨q, c⟩ := i
    cases c <;> simp [openItem, SmState.setFh, SmState.setOpen, SmState.setIh, h, eq_comm]
  · rw [openItem_ihs_of_ne hp]
    refine ⟨.inr, Or.rec (fun heq => ?_) id⟩
    obtain ⟨pages, heq⟩ := heq
    exact absurd (congrArg Prod.fst heq) hp

theorem openItem_isOpen_iff : (openItem s i).isOpen p = true ↔ p = i.1 ∨ s.isOpen p = true := by
  rw [openItem_isOpen]
  by_cases hp : p = i.1
  · subst hp
    simp
  · simp [hp]

theorem openItems_fields (h : Ready s is) :
    (∀ p size, (is.foldl openItem s).fhs p = some size ↔ (p, .record size) ∈ is ∨ s.fhs p = some size) ∧
    (∀ p, (is.foldl openItem s).isOpen p = true ↔ p ∈ is.map Prod.fst ∨ s.isOpen p = true) ∧
    ∀ p hdr, (is.foldl openItem s).ihs p = some hdr ↔ (∃ pages, (p, .index hdr pages) ∈ is) ∨
      s.ihs p = some hdr := by
  induction is generalizing s with
  | nil => simp
  | cons i is ih =>
      obtain ⟨hfhs, hopen, hihs⟩ := ih h.tail
      obtain ⟨-, hfh, hih⟩ := h.closed i List.mem_cons_self
      refine ⟨fun p size => ?_, fun p => ?_, fun p hdr => ?_⟩
      · rw [List.foldl_cons, hfhs, openItem_fhs_iff hfh, List.mem_cons]
        tauto
      · rw [List.foldl_cons, hopen, openItem_isOpen_iff, List.map_cons, List.mem_cons]
        tauto
      · rw [List.foldl_cons, hihs, openItem_ihs_iff hih]
        simp only [List.mem_cons, exists_or]
        tauto

end Opening

section Calls

variable {s : SmState} {d : Database} {disk : Disk} {st : Stored} {tables : Tables}
  {files : Finset String} {db : DbMeta} {n : String}

theorem openDb_cut (h : disk.dbMeta = []) :
    SmManager.openDb (.fresh disk) = ⟨.error .undefined, .fresh disk, []⟩ := by
  rw [SmManager.openDb, run_get, SmState.fresh, h]
  rfl

theorem openDb_eq (hs : Sound tables) (hdb : Shows db tables) (htext : disk.dbMeta = db.write) :
    SmManager.openDb (.fresh disk) = SmManager.openTables db.tabs ((SmState.fresh disk).setDb db) := by
  obtain ⟨left, hread⟩ := hdb.reads hs
  have hset : (set ((SmState.fresh disk).setDb db) : Sm PUnit) (.fresh disk) = ⟨.ok ⟨⟩,
    (SmState.fresh disk).setDb db, []⟩ := rfl
  have htext' : (SmState.fresh disk).disk.dbMeta = db.write := htext
  rw [SmManager.openDb, run_get, htext', hread]
  exact run_bind hset rfl

theorem ready_items (h : Stores disk ⟨some tables, files⟩) (db : DbMeta) :
    Ready ((SmState.fresh disk).setDb db) ((entries tables).flatMap items) := by
  refine ⟨?_, fun _ _ => ⟨rfl, rfl, rfl⟩, fun i hi => h.content _ rfl (mem_items.1 hi)⟩
  rw [map_items]
  exact fileNames_nodup (h.sound _ rfl)

theorem isNone_iff (h : Stores disk st) :
    (fun p => (disk.files p).isNone) = fun p => decide (p ∉ st.files) := by
  funext p
  have hp := h.files p
  by_cases hnone : disk.files p = none
  · simp [hp, hnone]
  · simp [hp, hnone, Option.isSome_iff_ne_none.2 hnone]

theorem openItems_represents (h : Stores disk ⟨some tables, files⟩) (hdb : Shows db tables)
    (hthere : ∀ p ∈ fileNames tables, disk.files p ≠ none) :
    Represents (((entries tables).flatMap items).foldl openItem ((SmState.fresh disk).setDb db))
      ⟨tables, files⟩ := by
  obtain ⟨hfhs, hisOpen, hihs⟩ := openItems_fields (ready_items h db)
  have hname : ∀ {p c}, Wanted tables p c → p ∈ ((entries tables).flatMap items).map Prod.fst :=
    fun hp => List.mem_map_of_mem (f := Prod.fst) (mem_items.2 hp)
  refine ⟨?_, ?_, fun {p c} hp => ?_, fun p size => ?_, fun p hdr => ?_, fun {p c} hp => ?_, fun p hp => ?_⟩
  · rw [openItems_db]
    exact hdb
  · rw [openItems_disk]
    exact h
  · rw [openItems_disk]
    refine (h.content _ rfl hp).resolve_left (hthere p ?_)
    rw [fileNames, ← map_items]
    exact hname hp
  · rw [hfhs, mem_items]
    exact or_iff_left nofun
  · rw [hihs]
    constructor
    · rintro (⟨pages, hp⟩ | hp)
      · have hw := mem_items.1 hp
        rcases wanted_iff.1 hw with ⟨_, _, hc⟩ | ⟨_, _, _, _, _, _, hc⟩
        · cases hc
        · cases hc
          exact hw
      · cases hp
    · exact fun hp => .inl ⟨3, mem_items.2 hp⟩
  · rw [hisOpen]
    exact .inl (hname hp)
  · rw [openItems_disk]
    rcases (hisOpen p).1 hp with hp | hp
    · rw [map_items] at hp
      exact hthere p hp
    · cases hp

theorem start_agrees (h : Stores disk st) : (∃ e, server.start disk = .error e ∧ openDb st = .error e) ∨
    ∃ s d, server.start disk = .ok s ∧ openDb st = .ok d ∧ Represents s d := by
  obtain ⟨tables, files⟩ := st
  cases tables with
  | none =>
      refine .inl ⟨.undefined, ?_, rfl⟩
      change (SmManager.openDb (.fresh disk)).result.map _ = _
      rw [openDb_cut (h.cut rfl)]
      rfl
  | some tables =>
      have hs := h.sound _ rfl
      obtain ⟨db, hdb, htext⟩ := h.text _ rfl
      have hopens := openTables_opens hs (fun e he => mem_entries.1 he) (ready_items h db)
      rw [← hdb.tabs, ← openDb_eq hs hdb htext, Opens, map_items] at hopens
      change (match (fileNames tables).find? fun p => (disk.files p).isNone
        with | none => _ | some p => _) at hopens
      rw [isNone_iff h] at hopens
      cases hfind : (fileNames tables).find? fun file => decide (file ∉ files) with
      | some file =>
          rw [hfind] at hopens
          obtain ⟨s', hrun⟩ := hopens
          refine .inl ⟨.error (.fileNotFound file), ?_, by simp only [openDb, hfind]⟩
          change (SmManager.openDb (.fresh disk)).result.map _ = _
          rw [hrun]
          rfl
      | none =>
          rw [hfind] at hopens
          simp only at hopens
          have hthere : ∀ p ∈ fileNames tables, disk.files p ≠ none := by
            intro p hp hnone
            have hmem : p ∈ files := by simpa using List.find?_eq_none.1 hfind p hp
            exact (h.files p).1 hmem hnone
          refine .inr ⟨_, ⟨tables, files⟩, ?_, by simp only [openDb, hfind],
            openItems_represents h hdb hthere⟩
          change (SmManager.openDb (.fresh disk)).result.map _ = _
          rw [hopens]
          rfl

theorem showTables_agrees (h : Represents s d) : Agrees (SmManager.showTables s) (showTables d) := by
  have hrows : (s.db.tabs.map fun tab => [tab.name]) = (entries d.tables).map fun e => [e.1] := by
    rw [h.db.tabs, List.map_map]
    rfl
  have hrun : SmManager.showTables s = ⟨.ok (["Tables"] :: s.db.tabs.map fun tab => [tab.name]), s, []⟩ := rfl
  rw [hrun, hrows]
  exact ⟨rfl, .nil, fun _ => h⟩

theorem descTable_agrees (h : Represents s d) (n : String) :
    Agrees (SmManager.descTable n s) (descTable n d) := by
  have hget := h.getTable n
  rw [SmManager.descTable, descTable, run_get, run_get]
  cases ht : d.tables.lookup n with
  | none =>
      rw [ht, Option.map_none] at hget
      rw [hget]
      exact .refused h _
  | some t =>
      rw [ht, Option.map_some] at hget
      rw [hget]
      have hrows : ((tabMeta n t).cols.map fun col => [col.name, SmManager.coltype2str col.type,
        if col.index then "YES" else "NO"]) =
          t.cols.map fun col => [col.name, SmManager.coltype2str col.type, "NO"] := by
        rw [← laid_defs (n := n), List.map_map]
        refine List.map_congr_left fun col hcol => ?_
        rw [(layCols_mem hcol).2]
        rfl
      simp only [hrows]
      exact .returned h _

theorem showIndex_agrees (h : Represents s d) (n : String) :
    Agrees (SmManager.showIndex n s) (showIndex n d) := by
  have hget := h.getTable n
  rw [SmManager.showIndex, showIndex, run_get, run_get]
  cases ht : d.tables.lookup n with
  | none =>
      rw [ht, Option.map_none] at hget
      rw [hget]
      exact .refused h _
  | some t =>
      rw [ht, Option.map_some] at hget
      rw [hget]
      have hrows : ((tabMeta n t).indexes.map fun index =>
          [n, "unique", "(" ++ ",".intercalate (index.cols.map ColMeta.name) ++ ")"]) =
          t.indexes.map fun ix => [n, "unique", "(" ++ ",".intercalate ix ++ ")"] := by
        rw [tabMeta, List.map_map]
        refine List.map_congr_left fun ix hix => ?_
        simp only [Function.comp_apply, indexMeta, laidKey_names (h.sound.indexes ht ix hix).2]
      simp only [hrows]
      exact .returned h _

theorem closeTables_run {l : List (String × Int32)} (hnodup : (l.map Prod.fst).Nodup)
    (h : ∀ e ∈ l, s.disk.files e.1 = some (.record e.2) ∧ s.isOpen e.1 = true) :
    ∃ s', SmManager.closeTables l s = ⟨.ok (), s', l.map fun _ => s.disk⟩ ∧ s'.disk = s.disk ∧
      s'.ihs = s.ihs ∧ s'.db = s.db ∧
      ∀ p, p ∉ l.map Prod.fst → s'.isOpen p = s.isOpen p := by
  induction l generalizing s with
  | nil => exact ⟨s, rfl, rfl, rfl, rfl, fun _ _ => rfl⟩
  | cons e l ih =>
      obtain ⟨hne, hnodup⟩ := List.nodup_cons.1 (List.map_cons ▸ hnodup)
      obtain ⟨hfile, hopen⟩ := h e List.mem_cons_self
      have hother : ∀ p, p ≠ e.1 →
        (s.setOpen e.1 false).isOpen p = s.isOpen p := fun p hp => Function.update_of_ne hp _ _
      have hrest : ∀ e' ∈ l, (s.setOpen e.1 false).disk.files e'.1 = some (.record e'.2) ∧
          (s.setOpen e.1 false).isOpen e'.1 = true := by
        intro e' he'
        rw [hother e'.1 fun heq => hne (heq ▸ List.mem_map_of_mem he')]
        exact h e' (List.mem_cons_of_mem e he')
      obtain ⟨s', hrun, hdisk, hihs, hdb, hopens⟩ := ih hnodup hrest
      refine ⟨s', run_bind (RmManager.closeFile_run hfile hopen) hrun, hdisk, hihs, hdb, fun p hp => ?_⟩
      rw [List.map_cons, List.mem_cons, not_or] at hp
      rw [hopens p hp.2, hother p hp.1]

theorem closeIndexes_run {l : List (String × IndexHdr)} (hnodup : (l.map Prod.fst).Nodup)
    (h : ∀ e ∈ l, s.disk.files e.1 = some (.index e.2 3) ∧ s.isOpen e.1 = true) :
    ∃ s', SmManager.closeIndexes l s = ⟨.ok (), s', l.map fun _ => s.disk⟩ := by
  induction l generalizing s with
  | nil => exact ⟨s, rfl⟩
  | cons e l ih =>
      obtain ⟨hne, hnodup⟩ := List.nodup_cons.1 (List.map_cons ▸ hnodup)
      obtain ⟨hfile, hopen⟩ := h e List.mem_cons_self
      have hrest : ∀ e' ∈ l, (s.setOpen e.1 false).disk.files e'.1 = some (.index e'.2 3) ∧
          (s.setOpen e.1 false).isOpen e'.1 = true := by
        intro e' he'
        have hne' : e'.1 ≠ e.1 := fun heq => hne (heq ▸ List.mem_map_of_mem he')
        have hother : (s.setOpen e.1 false).isOpen e'.1 = s.isOpen e'.1 := Function.update_of_ne hne' _ _
        rw [hother]
        exact h e' (List.mem_cons_of_mem e he')
      obtain ⟨s', hrun⟩ := ih hnodup hrest
      exact ⟨s', run_bind (IxManager.closeIndex_run hfile hopen) hrun⟩

theorem names_of_entries {β : Type} (g : String → Option β) {names : List String}
    (h : ∀ p ∈ names, g p ≠ none) :
    ((names.filterMap fun p => (g p).map fun x => (p, x)).map Prod.fst) = names := by
  induction names with
  | nil => rfl
  | cons p names ih =>
      obtain ⟨x, hx⟩ := Option.ne_none_iff_exists'.1 (h p List.mem_cons_self)
      simp only [List.filterMap_cons, hx, Option.map_some, List.map_cons]
      exact congrArg _ (ih fun q hq => h q (List.mem_cons_of_mem p hq))

theorem forall₂_const {α β γ δ : Type} {R : γ → δ → Prop} {a : γ} {b : δ} (h : R a b)
    {l : List α} {l' : List β} (hlen : l.length = l'.length) :
    List.Forall₂ R (l.map fun _ => a) (l'.map fun _ => b) := by
  induction l generalizing l' with
  | nil =>
      rw [List.length_eq_zero_iff.1 hlen.symm]
      exact .nil
  | cons x l ih =>
      cases l' with
      | nil => cases hlen
      | cons y l' => exact .cons h (ih (Nat.succ.inj hlen))

theorem Represents.flushed (h : Represents s d) : Represents (s.setMeta s.db.write) d :=
  ⟨h.db, ⟨h.stores.files, nofun, h.stores.sound, fun _ heq => ⟨s.db, by cases heq; exact h.db, rfl⟩,
    h.stores.content⟩, h.present, h.fhs, h.ihs, h.opened, h.exist⟩

theorem length_fileNames (tables : Tables) :
    ((entries tables).map Prod.fst).length + ((entries tables).flatMap indexNames).length =
      (fileNames tables).length := by
  rw [fileNames]
  induction entries tables with
  | nil => rfl
  | cons e es ih =>
      simp only [List.map_cons, List.flatMap_cons, List.length_cons, List.length_append] at ih ⊢
      omega

theorem tableNames_nodup (tables : Tables) : ((entries tables).map Prod.fst).Nodup := by
  have hsorted := entries_sorted tables
  rw [List.nodup_iff_pairwise_ne, List.pairwise_map]
  exact hsorted.imp fun hlt => hlt.ne

theorem indexNames_nodup (hs : Sound tables) : ((entries tables).flatMap indexNames).Nodup := by
  have hnodup := fileNames_nodup hs
  rw [fileNames, List.nodup_flatMap] at hnodup
  rw [List.nodup_flatMap]
  refine ⟨fun e he => (List.nodup_cons.1 (hnodup.1 e he)).2, hnodup.2.imp fun hdis p hp hp' => ?_⟩
  exact hdis (List.mem_cons_of_mem _ hp) (List.mem_cons_of_mem _ hp')

theorem notMem_tableNames (hs : Sound tables) {p : String} (hp : p ∈ (entries tables).flatMap indexNames) :
    p ∉ (entries tables).map Prod.fst := by
  intro hc
  obtain ⟨⟨n, t⟩, hn, rfl⟩ := List.mem_map.1 hc
  obtain ⟨m, u, hu, ix, hix, heq⟩ := mem_indexNames.1 hp
  exact getIndexName_ne (hs.name (mem_entries.1 hn)) _ _ heq.symm

theorem Represents.tableNames (h : Represents s d) :
    s.db.tabs.map TabMeta.name = (entries d.tables).map Prod.fst := by
  rw [h.db.tabs, List.map_map]
  rfl

theorem Represents.indexNames (h : Represents s d) :
    s.db.tabs.flatMap TabMeta.indexNames = (entries d.tables).flatMap indexNames := by
  rw [h.db.tabs, List.flatMap_map]
  exact List.flatMap_congr fun e he => indexNames_tabMeta h.sound (mem_entries.1 he)

theorem Represents.fhs_ne_none (h : Represents s d) :
    ∀ p ∈ (entries d.tables).map Prod.fst, s.fhs p ≠ none := by
  intro p hp
  obtain ⟨⟨n, t⟩, he, rfl⟩ := List.mem_map.1 hp
  rw [(h.fhs n t.recordSize).2 (.record (mem_entries.1 he))]
  exact nofun

theorem Represents.table_ready (h : Represents s d) {l : List String} :
    ∀ e ∈ l.filterMap fun p => (s.fhs p).map fun x => (p, x),
      s.disk.files e.1 = some (.record e.2) ∧ s.isOpen e.1 = true := by
  intro e he
  obtain ⟨p, -, hp⟩ := List.mem_filterMap.1 he
  obtain ⟨size, hsize, rfl⟩ := Option.map_eq_some_iff.1 hp
  have hw := (h.fhs p size).1 hsize
  exact ⟨h.present hw, h.opened hw⟩

theorem Represents.index_ready (h : Represents s d) {l : List String} :
    ∀ e ∈ l.filterMap fun p => (s.ihs p).map fun x => (p, x),
      s.disk.files e.1 = some (.index e.2 3) ∧ s.isOpen e.1 = true := by
  intro e he
  obtain ⟨p, -, hp⟩ := List.mem_filterMap.1 he
  obtain ⟨hdr, hhdr, rfl⟩ := Option.map_eq_some_iff.1 hp
  have hw := (h.ihs p hdr).1 hhdr
  exact ⟨h.present hw, h.opened hw⟩

theorem closeDb_run (h : Represents s d) :
    ∃ s' ds, SmManager.closeDb s = ⟨.ok (), s', ds⟩ ∧
      List.Forall₂ Stores ds (d.described ++ (fileNames d.tables).map fun _ => d.stored) := by
  have hf := h.flushed
  set s₁ := s.setMeta s.db.write
  have hnames := names_of_entries s₁.fhs hf.fhs_ne_none
  have hnamesIx := names_of_entries s₁.ihs fun p hp hnone => hf.ihs_none_iff.1 hnone hp
  have htabsReady := hf.table_ready (l := (entries d.tables).map Prod.fst)
  have hixsReady := hf.index_ready (l := (entries d.tables).flatMap indexNames)
  set tabs := ((entries d.tables).map Prod.fst).filterMap fun p => (s₁.fhs p).map fun x => (p, x) with htabs
  set ixs :=
    ((entries d.tables).flatMap indexNames).filterMap fun p => (s₁.ihs p).map fun x => (p, x) with hixs
  obtain ⟨s₂, hrun, hdisk, hihs, hdb, hopens⟩ :=
    closeTables_run (hnames ▸ tableNames_nodup d.tables) htabsReady
  have hixsOpen : ∀ e ∈ ixs, s₂.disk.files e.1 = some (.index e.2 3) ∧ s₂.isOpen e.1 = true := by
    intro e he
    have hmem : e.1 ∈ (entries d.tables).flatMap indexNames := hnamesIx ▸ List.mem_map_of_mem he
    rw [hdisk, hopens e.1 (hnames ▸ notMem_tableNames h.sound hmem)]
    exact hixsReady e he
  obtain ⟨s₃, hrun'⟩ := closeIndexes_run (hnamesIx ▸ indexNames_nodup h.sound) hixsOpen
  have htabsEq : (s₁.db.tabs.filterMap fun tab => (s₁.fhs tab.name).map fun fh => (tab.name, fh)) = tabs := by
    rw [htabs, ← hf.tableNames, List.filterMap_map]
    rfl
  have hixsEq : ((s₂.db.tabs.flatMap TabMeta.indexNames).filterMap fun name => (s₂.ihs name).map fun ih =>
      (name, ih)) = ixs := by
    rw [hdb, hihs, hf.indexNames]
  have hclose : SmManager.closeDb s = ⟨.ok (), s₃,
      [(s.setMeta []).disk, s₁.disk] ++ (tabs.map (fun _ => s₁.disk) ++ ixs.map fun _ => s₂.disk)⟩ := by
    rw [SmManager.closeDb]
    refine run_bind SmManager.flushMeta_run ?_
    rw [run_get, htabsEq]
    refine run_bind hrun ?_
    rw [run_get, hixsEq]
    exact hrun'
  refine ⟨s₃, _, hclose, List.rel_append hf.described ?_⟩
  have hlen : (tabs.map Prod.fst ++ ixs.map Prod.fst).length = (fileNames d.tables).length := by
    rw [List.length_append, hnames, hnamesIx, length_fileNames]
  have hall := forall₂_const hf.stores hlen
  rw [hdisk]
  rw [List.map_append, List.map_map, List.map_map] at hall
  exact hall

/-- What the lexer and the length of a statement give for the names in it. -/
def Lexed : DdlCall → Prop
  | .createTable name cols => isIdentifier name = true ∧ ∀ col ∈ cols, isIdentifier col.name = true
  | .createIndex _ ix _ => ix.length < 2147483648
  | .dropIndex _ ix _ => ix.length < 2147483648
  | _ => True

theorem exec_agrees {c : DdlCall} (hc : Lexed c) (h : Represents s d) : Agrees (c.exec s) (exec c d) := by
  cases c with
  | createTable name cols => exact (createTable_agrees h hc.1 hc.2).bind fun _ _ hr => .returned hr _
  | dropTable name pinned => exact (dropTable_agrees h pinned).bind fun _ _ hr => .returned hr _
  | createIndex name ix fill => exact (createIndex_agrees h hc fill).bind fun _ _ hr => .returned hr _
  | dropIndex name ix pinned => exact (dropIndex_agrees h hc pinned).bind fun _ _ hr => .returned hr _
  | showTables => exact showTables_agrees h
  | descTable name => exact descTable_agrees h name
  | showIndex name => exact showIndex_agrees h name
  | closeDb =>
      obtain ⟨s', ds, hrun, hwrites⟩ := closeDb_run h
      have hexec : DdlCall.closeDb.exec s = ⟨.error .ended, s', ds ++ []⟩ := run_bind hrun rfl
      rw [hexec, List.append_nil]
      refine ⟨rfl, ?_, fun hc => absurd rfl (hc .ended rfl)⟩
      have hspec : exec .closeDb d = ⟨.error .ended, d,
        (d.described ++ (fileNames d.tables).map fun _ => d.stored) ++ []⟩ := rfl
      rw [hspec, List.append_nil]
      exact hwrites

theorem server_refines : Refines server spec Lexed Represents Stores where
  ends := rfl
  disk h := h.stores
  call hc h := exec_agrees hc h
  refused h e := by
    rcases start_agrees h with ⟨e', hs, hd⟩ | ⟨s, d, hs, hd, -⟩
    · change server.start _ = _ ↔ openDb _ = _
      rw [hs, hd]
      constructor <;> rintro ⟨⟩ <;> rfl
    · change server.start _ = _ ↔ openDb _ = _
      rw [hs, hd]
      exact iff_of_false nofun nofun
  start h hs hd := by
    rcases start_agrees h with ⟨e', hs', -⟩ | ⟨s', d', hs', hd', hr⟩
    · cases hs.symm.trans hs'
    · cases hs.symm.trans hs'
      cases hd.symm.trans hd'
      exact hr

theorem createDb_stores {dbName : String} (h : IsWord dbName) : Stores (SmManager.createDb dbName) empty := by
  have hnone : ∀ n, (∅ : Tables).lookup n = none := fun n => Finmap.lookup_empty n
  have hno : ∀ {n t}, ¬ (∅ : Tables).lookup n = some t := by
    intro n t ht
    cases (hnone n).symm.trans ht
  refine ⟨fun p => ?_, nofun, ?_, ?_, ?_⟩
  · by_cases hp : p = "db.log" ∨ p = "restart.log" <;> simp [empty, SmManager.createDb, hp]
  · rintro _ ⟨⟩
    exact ⟨fun h => absurd h hno, fun h => absurd h hno, fun h => absurd h hno, fun h =>
      absurd h hno, fun h => absurd h hno⟩
  · rintro _ ⟨⟩
    exact ⟨{ DbMeta.fresh with name := dbName }, ⟨h, fun n => by rw [hnone]; rfl⟩, rfl⟩
  · rintro _ ⟨⟩ p c hp
    cases hp with
    | record ht => exact absurd ht hno
    | index ht => exact absurd ht hno

theorem openDb_stored (h : Represents s d) : openDb d.stored = .ok d := by
  obtain ⟨tables, files⟩ := d
  have hthere : (fileNames tables).find? (fun file => decide (file ∉ files)) = none := by
    rw [List.find?_eq_none]
    intro p hp
    rw [fileNames, ← map_items] at hp
    obtain ⟨⟨q, c⟩, hi, rfl⟩ := List.mem_map.1 hp
    have hmem : q ∈ files := by
      rw [h.mem_files, h.present (mem_items.1 hi)]
      exact Option.some_ne_none c
    simpa using hmem
  change openDb ⟨some tables, files⟩ = _
  simp only [openDb, hthere]

theorem restart_represents (h : Represents s d) : ∃ s', server.start s.disk = .ok s' ∧ Represents s' d := by
  rcases start_agrees h.stores with ⟨e, -, he⟩ | ⟨s', d', hs', hd', hr⟩
  · cases (openDb_stored h).symm.trans he
  · cases (openDb_stored h).symm.trans hd'
    exact ⟨s', hs', hr⟩

theorem boot_empty : spec.boot empty = (.up ⟨∅, empty.files⟩, .started) := by
  have hentries : entries ∅ = [] := by
    rw [List.eq_nil_iff_forall_not_mem]
    intro e he
    cases (Finmap.lookup_empty e.1).symm.trans (mem_entries.1 he)
  have hopen : openDb empty = .ok ⟨∅, empty.files⟩ := by
    simp only [openDb, empty, fileNames, hentries, List.flatMap_nil, List.find?_nil]
  rw [Machine.boot]
  simp only [spec, hopen]

end Calls

/-- Whatever statements run, and wherever the process is killed or told to end, the clients see
the database of tables and file names: the same rows and errors, and the same starts, refused or
not. -/
theorem ddl_session_agrees (dbName : String) (hname : IsWord dbName) (events : List (Restart.Event DdlCall))
    (hevents : ∀ e ∈ events, Lexed e.input) :
    server.session (SmManager.createDb dbName) events = spec.session empty events :=
  server_refines.session (createDb_stores hname) hevents

def killedDrop : List (Restart.Event DdlCall) :=
  [.call (.createTable "t" [⟨"a", .int, .ofNat 4⟩]), .call (.createIndex "t" ["a"] none),
    .kill (.dropTable "t" []) 2, .call .showTables]

theorem killedDrop_agrees :
    server.session (SmManager.createDb "db") killedDrop = spec.session empty killedDrop := by
  refine ddl_session_agrees "db" (isWord_of_isIdentifier rfl) killedDrop fun e he => ?_
  simp only [killedDrop, List.mem_cons, List.not_mem_nil, or_false] at he
  rcases he with rfl | rfl | rfl | rfl
  · exact ⟨rfl, fun col hcol => List.mem_singleton.1 hcol ▸ rfl⟩
  · exact Nat.lt_of_lt_of_le (Nat.lt_succ_self _) (by decide)
  · trivial
  · trivial

/-- What has been answered is on the disk: from every state that a session comes to, a process that is started
in place of the old one answers as the old one would have. -/
theorem ddl_survives_restart (dbName : String) (hname : IsWord dbName) (events : List (Restart.Event DdlCall))
    (hevents : ∀ e ∈ events, Lexed e.input) (s : SmState)
    (hup : server.run (server.boot (SmManager.createDb dbName)).1 events = .up s) :
    ∃ s', server.start s.disk = .ok s' ∧
      ∀ later : List (Restart.Event DdlCall), (∀ e ∈ later, Lexed e.input) →
        server.replies (.up s') later = server.replies (.up s) later := by
  have hrun := server_refines.run (server_refines.boot (createDb_stores hname)).1 hevents
  rw [hup] at hrun
  cases hspec : spec.run (spec.boot empty).1 events with
  | down st =>
      rw [hspec] at hrun
      exact hrun.elim
  | up d =>
      rw [hspec] at hrun
      obtain ⟨s', hs', hr⟩ := restart_represents hrun
      refine ⟨s', hs', fun later hlater => ?_⟩
      have hold : server.replies (.up s) later = spec.replies (.up d) later :=
        server_refines.replies hrun hlater
      have hnew : server.replies (.up s') later = spec.replies (.up d) later :=
        server_refines.replies (show Status.Matches Represents Stores (.up s') (.up d) from hr) hlater
      rw [hold, hnew]

def createdTwice : List (Restart.Event DdlCall) :=
  [.call (.createTable "t" [⟨"a", .int, .ofNat 4⟩]), .call (.createTable "t" [])]

theorem createdTwice_survives :
    ∃ s, server.run (server.boot (SmManager.createDb "db")).1 createdTwice = .up s ∧
    ∃ s', server.start s.disk = .ok s' ∧ ∀ later :
    List (Restart.Event DdlCall), (∀ e ∈ later, Lexed e.input) →
      server.replies (.up s') later = server.replies (.up s) later := by
  have hname : IsWord "db" := isWord_of_isIdentifier rfl
  have hevents : ∀ e ∈ createdTwice, Lexed e.input := by
    intro e he
    simp only [createdTwice, List.mem_cons, List.not_mem_nil, or_false] at he
    rcases he with rfl | rfl
    · exact ⟨rfl, fun col hcol => List.mem_singleton.1 hcol ▸ rfl⟩
    · exact ⟨rfl, fun col hcol => absurd hcol List.not_mem_nil⟩
  have hrun := server_refines.run (server_refines.boot (createDb_stores hname)).1 hevents
  obtain ⟨d, hd⟩ : ∃ d, spec.run (spec.boot empty).1 createdTwice = .up d := by
    rw [boot_empty]
    exact ⟨_, rfl⟩
  rw [hd] at hrun
  cases hs : server.run (server.boot (SmManager.createDb "db")).1 createdTwice with
  | down disk =>
      rw [hs] at hrun
      exact hrun.elim
  | up s => exact ⟨s, rfl, ddl_survives_restart "db" hname createdTwice hevents s hs⟩

end Rmdb.SmMeta.Schema
