import Rmdb.System.DdlRuns

namespace Rmdb.SmMeta.Schema

open Restart

inductive Wanted (tables : Tables) : String → FileContent → Prop
  | record {n t} : tables.lookup n = some t → Wanted tables n (.record t.recordSize)
  | index {n t ix} : tables.lookup n = some t → ix ∈ t.indexes →
      Wanted tables (getIndexName n ix) (.index (t.keyHdr ix) 3)

structure Stores (disk : Disk) (st : Stored) : Prop where
  files : ∀ p, p ∈ st.files ↔ disk.files p ≠ none
  cut : st.tables = none → disk.dbMeta = []
  sound : ∀ tables, st.tables = some tables → Sound tables
  text : ∀ tables, st.tables = some tables → ∃ db, Shows db tables ∧ disk.dbMeta = db.write
  content : ∀ tables, st.tables = some tables → ∀ {p c}, Wanted tables p c → disk.files p = none ∨
    disk.files p = some c

/-- The process has every file of its tables open. -/
structure Represents (s : SmState) (d : Database) : Prop where
  db : Shows s.db d.tables
  stores : Stores s.disk d.stored
  present : ∀ {p c}, Wanted d.tables p c → s.disk.files p = some c
  fhs : ∀ p size, s.fhs p = some size ↔ Wanted d.tables p (.record size)
  ihs : ∀ p hdr, s.ihs p = some hdr ↔ Wanted d.tables p (.index hdr 3)
  opened : ∀ {p c}, Wanted d.tables p c → s.isOpen p = true
  exist : ∀ p, s.isOpen p = true → s.disk.files p ≠ none

section Names

variable {tables : Tables} {n n' p : String} {t t' : Table} {ix : List String} {c c' : FileContent}

/-- The name of an index file has a dot in it. -/
theorem getIndexName_ne (h : isIdentifier n = true) (n' : String) (ix : List String) :
    n ≠ getIndexName n' ix := by
  rintro rfl
  have hmem : '.' ∈ (getIndexName n' ix).toList := by simp [getIndexName]
  rw [isIdentifier] at h
  split at h
  · rename_i heq
    rw [heq] at hmem
    cases hmem
  · rename_i a as heq
    rw [heq] at hmem
    simp only [Bool.and_eq_true, List.all_eq_true, Bool.or_eq_true, decide_eq_true_eq] at h
    rcases List.mem_cons.1 hmem with rfl | hmem
    · exact absurd h.1 (by decide)
    · exact absurd (h.2 _ hmem) (by decide)

theorem wanted_inj (hs : Sound tables) (h : Wanted tables p c) (h' : Wanted tables p c') : c = c' := by
  cases h with
  | record ht =>
      generalize hp : p = p' at h'
      cases h' with
      | record ht' =>
          subst hp
          cases ht.symm.trans ht'
          rfl
      | index ht' hix => exact absurd hp (getIndexName_ne (hs.name ht) _ _)
  | @index n t ix ht hix =>
      generalize hp : getIndexName n ix = p' at h'
      cases h' with
      | record ht' => exact absurd hp.symm (getIndexName_ne (hs.name ht') _ _)
      | index ht' hix' =>
          obtain ⟨rfl, rfl⟩ := hs.ownFile ht ht' _ hix _ hix' hp
          cases ht.symm.trans ht'
          rfl

theorem lookup_insert_iff :
    (tables.insert n t).lookup n' = some t' ↔ n' = n ∧ t' = t ∨ n' ≠ n ∧ tables.lookup n' = some t' := by
  by_cases h : n' = n
  · subst h
    rw [Finmap.lookup_insert]
    simp [eq_comm]
  · rw [Finmap.lookup_insert_of_ne _ h]
    simp [h]

theorem lookup_erase_iff : (tables.erase n).lookup n' = some t' ↔ n' ≠ n ∧ tables.lookup n' = some t' := by
  by_cases h : n' = n
  · subst h
    rw [Finmap.lookup_erase]
    simp
  · rw [Finmap.lookup_erase_ne h]
    simp [h]

theorem wanted_iff : Wanted tables p c ↔ (∃ t, tables.lookup p = some t ∧ c = .record t.recordSize) ∨
    ∃ n t ix, tables.lookup n = some t ∧ ix ∈ t.indexes ∧ p = getIndexName n ix ∧
      c = .index (t.keyHdr ix) 3 := by
  constructor
  · intro h
    cases h with
    | record ht => exact .inl ⟨_, ht, rfl⟩
    | index ht hix => exact .inr ⟨_, _, _, ht, hix, rfl, rfl⟩
  · rintro (⟨t, ht, rfl⟩ | ⟨n, t, ix, ht, hix, rfl, rfl⟩)
    · exact .record ht
    · exact .index ht hix

theorem wanted_create {cols : List ColDef} (hn : tables.lookup n = none) :
    Wanted (tables.insert n ⟨cols, []⟩) p c ↔
    Wanted tables p c ∨ p = n ∧ c = .record (Table.recordSize ⟨cols, []⟩) := by
  have hother : ∀ {m u}, tables.lookup m = some u → m ≠ n := by
    rintro m u hm rfl
    cases hn.symm.trans hm
  constructor
  · intro h
    cases h with
    | record ht =>
        rcases lookup_insert_iff.1 ht with ⟨rfl, rfl⟩ | ⟨-, ht⟩
        · exact .inr ⟨rfl, rfl⟩
        · exact .inl (.record ht)
    | index ht hix =>
        rcases lookup_insert_iff.1 ht with ⟨rfl, rfl⟩ | ⟨-, ht⟩
        · cases hix
        · exact .inl (.index ht hix)
  · rintro (h | ⟨rfl, rfl⟩)
    · cases h with
      | record ht => exact .record (lookup_insert_iff.2 (.inr ⟨hother ht, ht⟩))
      | index ht hix => exact .index (lookup_insert_iff.2 (.inr ⟨hother ht, ht⟩)) hix
    · exact .record (lookup_insert_iff.2 (.inl ⟨rfl, rfl⟩))

theorem wanted_reindex {ixs : List (List String)} (ht : tables.lookup n = some t) :
    Wanted (tables.insert n { t with indexes := ixs }) p c ↔
      (∃ u, tables.lookup p = some u ∧ c = .record u.recordSize) ∨
      (∃ m u ix, m ≠ n ∧ tables.lookup m = some u ∧ ix ∈ u.indexes ∧ p = getIndexName m ix ∧
        c = .index (u.keyHdr ix) 3) ∨
      ∃ ix ∈ ixs, p = getIndexName n ix ∧ c = .index (t.keyHdr ix) 3 := by
  constructor
  · intro h
    cases h with
    | record hu =>
        rcases lookup_insert_iff.1 hu with ⟨rfl, rfl⟩ | ⟨-, hu⟩
        · exact .inl ⟨t, ht, rfl⟩
        · exact .inl ⟨_, hu, rfl⟩
    | index hu hix =>
        rcases lookup_insert_iff.1 hu with ⟨rfl, rfl⟩ | ⟨hm, hu⟩
        · exact .inr (.inr ⟨_, hix, rfl, rfl⟩)
        · exact .inr (.inl ⟨_, _, _, hm, hu, hix, rfl, rfl⟩)
  · rintro (⟨u, hu, rfl⟩ | ⟨m, u, ix, hm, hu, hix, rfl, rfl⟩ | ⟨ix, hix, rfl, rfl⟩)
    · by_cases hp : p = n
      · subst hp
        cases ht.symm.trans hu
        exact .record (t := { t with indexes := ixs }) (lookup_insert_iff.2 (.inl ⟨rfl, rfl⟩))
      · exact .record (lookup_insert_iff.2 (.inr ⟨hp, hu⟩))
    · exact .index (lookup_insert_iff.2 (.inr ⟨hm, hu⟩)) hix
    · exact .index (t := { t with indexes := ixs }) (lookup_insert_iff.2 (.inl ⟨rfl, rfl⟩)) hix

theorem wanted_index (ht : tables.lookup n = some t) :
    Wanted (tables.insert n { t with indexes := t.indexes ++ [ix] }) p c ↔
      Wanted tables p c ∨ p = getIndexName n ix ∧ c = .index (t.keyHdr ix) 3 := by
  rw [wanted_reindex ht, wanted_iff]
  constructor
  · rintro (h | ⟨m, u, ix', -, h⟩ | ⟨ix', hix', hp, hc⟩)
    · exact .inl (.inl h)
    · exact .inl (.inr ⟨m, u, ix', h⟩)
    · rcases List.mem_append.1 hix' with hix' | hix'
      · exact .inl (.inr ⟨n, t, ix', ht, hix', hp, hc⟩)
      · rw [List.mem_singleton.1 hix'] at hp hc
        exact .inr ⟨hp, hc⟩
  · rintro ((h | ⟨m, u, ix', hu, hix', hp, hc⟩) | ⟨hp, hc⟩)
    · exact .inl h
    · by_cases hm : m = n
      · subst hm
        cases ht.symm.trans hu
        exact .inr (.inr ⟨ix', List.mem_append_left _ hix', hp, hc⟩)
      · exact .inr (.inl ⟨m, u, ix', hm, hu, hix', hp, hc⟩)
    · exact .inr (.inr ⟨ix, List.mem_append_right _ List.mem_cons_self, hp, hc⟩)

theorem wanted_drop (hs : Sound tables) (ht : tables.lookup n = some t) (hix : ix ∈ t.indexes) :
    Wanted (tables.insert n { t with indexes := t.indexes.erase ix }) p c ↔
    Wanted tables p c ∧ p ≠ getIndexName n ix := by
  have hmem : ∀ ix', ix' ∈ t.indexes.erase ix ↔
    ix' ≠ ix ∧ ix' ∈ t.indexes := fun ix' => (hs.nodup ht).mem_erase_iff
  rw [wanted_reindex ht, wanted_iff]
  constructor
  · rintro (⟨u, hu, hc⟩ | ⟨m, u, ix', hm, hu, hix', hp, hc⟩ | ⟨ix', hix', hp, hc⟩)
    · exact ⟨.inl ⟨u, hu, hc⟩, getIndexName_ne (hs.name hu) _ _⟩
    · refine ⟨.inr ⟨m, u, ix', hu, hix', hp, hc⟩, fun heq => hm ?_⟩
      exact (hs.ownFile hu ht _ hix' _ hix (hp.symm.trans heq)).1
    · obtain ⟨hne, hix'⟩ := (hmem ix').1 hix'
      refine ⟨.inr ⟨n, t, ix', ht, hix', hp, hc⟩, fun heq => hne ?_⟩
      exact (hs.ownFile ht ht _ hix' _ hix (hp.symm.trans heq)).2
  · rintro ⟨h | ⟨m, u, ix', hu, hix', hp, hc⟩, hne⟩
    · exact .inl h
    · by_cases hm : m = n
      · subst hm
        cases ht.symm.trans hu
        exact .inr (.inr ⟨ix', (hmem ix').2 ⟨fun heq => hne (heq ▸ hp), hix'⟩, hp, hc⟩)
      · exact .inr (.inl ⟨m, u, ix', hm, hu, hix', hp, hc⟩)

theorem wanted_erase (hs : Sound tables) (ht : tables.lookup n = some t) (hix : t.indexes = []) :
    Wanted (tables.erase n) p c ↔ Wanted tables p c ∧ p ≠ n := by
  constructor
  · intro h
    cases h with
    | record hu =>
        obtain ⟨hp, hu⟩ := lookup_erase_iff.1 hu
        exact ⟨.record hu, hp⟩
    | index hu hix' => 
        obtain ⟨-, hu⟩ := lookup_erase_iff.1 hu
        exact ⟨.index hu hix', (getIndexName_ne (hs.name ht) _ _).symm⟩
  · rintro ⟨h, hp⟩
    cases h with
    | record hu => exact .record (lookup_erase_iff.2 ⟨hp, hu⟩)
    | @index m u ix hu hix' =>
        refine .index (lookup_erase_iff.2 ⟨?_, hu⟩) hix'
        rintro rfl
        cases ht.symm.trans hu
        rw [hix] at hix'
        cases hix'

end Names

section Steps

variable {s s' : SmState} {d : Database} {tables tables' : Tables} {n f : String} {t : Table}
  {ix : List String} {c : FileContent} {db' : DbMeta}

theorem Sound.insert (h : Sound tables) (hn : isIdentifier n = true)
    (hcols : ∀ col ∈ t.cols, isIdentifier col.name = true)
    (hixs : ∀ ix ∈ t.indexes, ix.length < 2147483648 ∧ ∀ col ∈ ix, col ∈ t.cols.map ColDef.name)
    (hnodup : t.indexes.Nodup)
    (hown : ∀ ix ∈ t.indexes, ∀ ix' ∈ t.indexes, getIndexName n ix = getIndexName n ix' → ix = ix')
    (hother : ∀ ix ∈ t.indexes, ∀ m u, m ≠ n → tables.lookup m = some u →
      ∀ ix' ∈ u.indexes, getIndexName n ix ≠ getIndexName m ix') :
    Sound (tables.insert n t) := by
  refine ⟨fun hm => ?_, fun hm => ?_, fun hm => ?_, fun hm => ?_, fun hm hm' ix hix ix' hix' heq => ?_⟩
  · rcases lookup_insert_iff.1 hm with ⟨rfl, -⟩ | ⟨-, hm⟩
    · exact hn
    · exact h.name hm
  · rcases lookup_insert_iff.1 hm with ⟨-, rfl⟩ | ⟨-, hm⟩
    · exact hcols
    · exact h.cols hm
  · rcases lookup_insert_iff.1 hm with ⟨-, rfl⟩ | ⟨-, hm⟩
    · exact hixs
    · exact h.indexes hm
  · rcases lookup_insert_iff.1 hm with ⟨-, rfl⟩ | ⟨-, hm⟩
    · exact hnodup
    · exact h.nodup hm
  · rcases lookup_insert_iff.1 hm with ⟨rfl, rfl⟩ | ⟨hne, hold⟩
    · rcases lookup_insert_iff.1 hm' with ⟨rfl, rfl⟩ | ⟨hne', hold'⟩
      · exact ⟨rfl, hown ix hix ix' hix' heq⟩
      · exact absurd heq (hother ix hix _ _ hne' hold' ix' hix')
    · rcases lookup_insert_iff.1 hm' with ⟨rfl, rfl⟩ | ⟨-, hold'⟩
      · exact absurd heq.symm (hother ix' hix' _ _ hne hold ix hix)
      · exact h.ownFile hold hold' ix hix ix' hix' heq

theorem Sound.createIndex (h : Sound tables) (ht : tables.lookup n = some t) (hlen : ix.length < 2147483648)
    (hix : ∀ col ∈ ix, col ∈ t.cols.map ColDef.name)
    (hnew : ∀ {m u}, tables.lookup m = some u → ∀ a ∈ u.indexes, getIndexName m a ≠ getIndexName n ix) :
    Sound (tables.insert n { t with indexes := t.indexes ++ [ix] }) := by
  refine h.insert (h.name ht) (fun col => h.cols ht col) (fun a ha => ?_) ?_ (fun a ha b hb heq => ?_)
    fun a ha m u hm hu b hb heq => ?_
  · rcases List.mem_append.1 ha with ha | ha
    · exact h.indexes ht a ha
    · rw [List.mem_singleton.1 ha]
      exact ⟨hlen, hix⟩
  · refine List.nodup_append.2 ⟨h.nodup ht, List.nodup_singleton ix, fun a ha b hb heq => ?_⟩
    rw [List.mem_singleton.1 hb] at heq
    exact hnew ht a ha (heq ▸ rfl)
  · rcases List.mem_append.1 ha with ha | ha
    · rcases List.mem_append.1 hb with hb | hb
      · exact (h.ownFile ht ht a ha b hb heq).2
      · rw [List.mem_singleton.1 hb] at heq
        exact absurd heq (hnew ht a ha)
    · rcases List.mem_append.1 hb with hb | hb
      · rw [List.mem_singleton.1 ha] at heq
        exact absurd heq.symm (hnew ht b hb)
      · rw [List.mem_singleton.1 ha, List.mem_singleton.1 hb]
  · rcases List.mem_append.1 ha with ha | ha
    · exact hm (h.ownFile ht hu a ha b hb heq).1.symm
    · rw [List.mem_singleton.1 ha] at heq
      exact hnew hu b hb heq.symm

theorem Sound.dropIndex (h : Sound tables) (ht : tables.lookup n = some t) (ix : List String) :
    Sound (tables.insert n { t with indexes := t.indexes.erase ix }) := by
  have hsub : ∀ a, a ∈ t.indexes.erase ix → a ∈ t.indexes := fun a => List.mem_of_mem_erase
  refine h.insert (h.name ht) (fun col => h.cols ht col) (fun a ha => h.indexes ht a (hsub a ha))
    ((h.nodup ht).erase ix)
    (fun a ha b hb heq => (h.ownFile ht ht a (hsub a ha) b (hsub b hb) heq).2) ?_
  intro a ha m u hm hu b hb heq
  exact hm (h.ownFile ht hu a (hsub a ha) b hb heq).1.symm

theorem Sound.erase (h : Sound tables) (n : String) : Sound (tables.erase n) := by
  have hold : ∀ {m u}, (tables.erase n).lookup m = some u →
    tables.lookup m = some u := fun hm => (lookup_erase_iff.1 hm).2
  exact ⟨fun hm => h.name (hold hm), fun hm => h.cols (hold hm), fun hm => h.indexes (hold hm), fun hm =>
    h.nodup (hold hm),
    fun hm hm' => h.ownFile (hold hm) (hold hm')⟩

theorem Represents.sound (h : Represents s d) : Sound d.tables := h.stores.sound _ rfl

theorem Represents.mem_files (h : Represents s d) {p : String} :
    p ∈ d.files ↔ s.disk.files p ≠ none := h.stores.files p

theorem Represents.ne_of_notMem (h : Represents s d) (hf : f ∉ d.files) {p : String} {c : FileContent}
    (hp : Wanted d.tables p c) :
    p ≠ f := by
  rintro rfl
  exact hf (h.mem_files.2 (by rw [h.present hp]; exact nofun))

theorem Represents.closed (h : Represents s d) (hf : f ∉ d.files) : s.isOpen f = false := by
  rw [← Bool.not_eq_true]
  exact fun hopen => hf (h.mem_files.2 (h.exist f hopen))

/-- The file of a new table or index is there and open, and the tables with it are written down. -/
theorem Represents.add (h : Represents s d) (hf : f ∉ d.files) (hsound : Sound tables')
    (hdb : Shows s'.db tables')
    (hwanted : ∀ {p c'}, Wanted tables' p c' ↔ Wanted d.tables p c' ∨ p = f ∧ c' = c)
    (hmeta : s'.disk.dbMeta = s'.db.write)
    (hfiles : s'.disk.files = Function.update s.disk.files f (some c))
    (hopen : s'.isOpen = Function.update s.isOpen f true)
    (hfhs : ∀ p size, s'.fhs p = some size ↔ s.fhs p = some size ∨ p = f ∧ .record size = c)
    (hihs : ∀ p hdr, s'.ihs p = some hdr ↔ s.ihs p = some hdr ∨ p = f ∧ .index hdr 3 = c) :
    Represents s' ⟨tables', insert f d.files⟩ := by
  have hpresent : ∀ {p c'}, Wanted tables' p c' → s'.disk.files p = some c' := by
    intro p c' hp
    rw [hfiles]
    rcases hwanted.1 hp with hp | ⟨rfl, rfl⟩
    · rw [Function.update_of_ne (h.ne_of_notMem hf hp)]
      exact h.present hp
    · exact Function.update_self _ _ _
  refine ⟨hdb, ⟨fun p => ?_, nofun, ?_, ?_, ?_⟩,
    hpresent, fun p size => ?_, fun p hdr => ?_, fun {p c'} hp => ?_, fun p hp => ?_⟩
  · rw [hfiles]
    by_cases hp : p = f
    · subst hp
      simp [Database.stored]
    · rw [Function.update_of_ne hp, ← h.mem_files]
      simp [Database.stored, hp]
  · rintro _ ⟨⟩
    exact hsound
  · rintro _ ⟨⟩
    exact ⟨s'.db, hdb, hmeta⟩
  · rintro _ ⟨⟩ p c' hp
    exact .inr (hpresent hp)
  · rw [hfhs, h.fhs, hwanted]
  · rw [hihs, h.ihs, hwanted]
  · rw [hopen]
    rcases hwanted.1 hp with hp | ⟨rfl, -⟩
    · rw [Function.update_of_ne (h.ne_of_notMem hf hp)]
      exact h.opened hp
    · exact Function.update_self _ _ _
  · rw [hopen] at hp
    rw [hfiles]
    by_cases hpf : p = f
    · subst hpf
      simp
    · rw [Function.update_of_ne hpf] at hp ⊢
      exact h.exist p hp

/-- The file of a table or index is closed and gone, and the tables that are left are written down. -/
theorem Represents.remove (h : Represents s d) (hsound : Sound tables') (hdb : Shows s'.db tables')
    (hwanted : ∀ {p c'}, Wanted tables' p c' ↔ Wanted d.tables p c' ∧ p ≠ f)
    (hmeta : s'.disk.dbMeta = s'.db.write) (hfiles : s'.disk.files = Function.update s.disk.files f none)
    (hopen : s'.isOpen = Function.update s.isOpen f false)
    (hfhs : ∀ p size, s'.fhs p = some size ↔ s.fhs p = some size ∧ p ≠ f)
    (hihs : ∀ p hdr, s'.ihs p = some hdr ↔ s.ihs p = some hdr ∧ p ≠ f) :
    Represents s' ⟨tables', d.files.erase f⟩ := by
  have hpresent : ∀ {p c'}, Wanted tables' p c' → s'.disk.files p = some c' := by
    intro p c' hp
    obtain ⟨hp, hne⟩ := hwanted.1 hp
    rw [hfiles, Function.update_of_ne hne]
    exact h.present hp
  refine ⟨hdb, ⟨fun p => ?_, nofun, ?_, ?_, ?_⟩,
    hpresent, fun p size => ?_, fun p hdr => ?_, fun {p c'} hp => ?_, fun p hp => ?_⟩
  · rw [hfiles]
    by_cases hp : p = f
    · subst hp
      simp [Database.stored]
    · rw [Function.update_of_ne hp, ← h.mem_files]
      simp [Database.stored, hp]
  · rintro _ ⟨⟩
    exact hsound
  · rintro _ ⟨⟩
    exact ⟨s'.db, hdb, hmeta⟩
  · rintro _ ⟨⟩ p c' hp
    exact .inr (hpresent hp)
  · rw [hfhs, h.fhs, hwanted]
  · rw [hihs, h.ihs, hwanted]
  · obtain ⟨hp, hne⟩ := hwanted.1 hp
    rw [hopen, Function.update_of_ne hne]
    exact h.opened hp
  · rw [hopen] at hp
    have hpf : p ≠ f := by
      rintro rfl
      rw [Function.update_self] at hp
      cases hp
    rw [Function.update_of_ne hpf] at hp
    rw [hfiles, Function.update_of_ne hpf]
    exact h.exist p hp

theorem Represents.half (h : Represents s d) (hf : f ∉ d.files) (c : FileContent) :
    Stores (s.setFile f (some c)).disk ⟨some d.tables, insert f d.files⟩ := by
  refine ⟨fun p => ?_, nofun, h.stores.sound, h.stores.text, ?_⟩
  · by_cases hp : p = f
    · subst hp
      simp [SmState.setFile]
    · rw [Finset.mem_insert, h.mem_files]
      simp [SmState.setFile, hp]
  · rintro _ ⟨⟩ p c' hp
    have hne := h.ne_of_notMem hf hp
    right
    simp only [SmState.setFile, Function.update_of_ne hne]
    exact h.present hp

theorem Represents.missing (h : Represents s d) (f : String) :
    Stores (s.setFile f none).disk ⟨some d.tables, d.files.erase f⟩ := by
  refine ⟨fun p => ?_, nofun, h.stores.sound, h.stores.text, ?_⟩
  · by_cases hp : p = f
    · subst hp
      simp [SmState.setFile]
    · rw [Finset.mem_erase, h.mem_files]
      simp [SmState.setFile, hp]
  · rintro _ ⟨⟩ p c' hp
    by_cases hpf : p = f
    · subst hpf
      exact .inl (Function.update_self _ _ _)
    · right
      simp only [SmState.setFile, Function.update_of_ne hpf]
      exact h.present hp

theorem Represents.stray (h : Represents s d) (hf : f ∉ d.files) :
    Represents ((s.setFile f (some .empty)).setOpen f true) ⟨d.tables, insert f d.files⟩ := by
  refine ⟨h.db, h.half hf .empty, fun {p c'} hp => ?_, h.fhs, h.ihs, fun {p c'} hp => ?_, fun p hp => ?_⟩
  · exact (Function.update_of_ne (h.ne_of_notMem hf hp) _ _).trans (h.present hp)
  · exact (Function.update_of_ne (h.ne_of_notMem hf hp) _ _).trans (h.opened hp)
  · change Function.update s.disk.files f (some .empty) p ≠ none
    change Function.update s.isOpen f true p = true at hp
    by_cases hpf : p = f
    · subst hpf
      simp
    · rw [Function.update_of_ne hpf] at hp ⊢
      exact h.exist p hp

/-- `flush_meta` has emptied `db.meta`. -/
theorem Represents.cut (h : Represents s d) : Stores (s.setMeta []).disk ⟨none, d.files⟩ :=
  ⟨h.stores.files, fun _ => rfl, nofun, nofun, nofun⟩

theorem Represents.described (h : Represents s d) :
    List.Forall₂ Stores [(s.setMeta []).disk, s.disk] d.described :=
  .cons h.cut (.cons h.stores .nil)

end Steps

end Rmdb.SmMeta.Schema
