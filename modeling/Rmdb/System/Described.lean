import Mathlib.Data.Int.Cast.Lemmas
import Rmdb.System.Schema

namespace Rmdb.SmMeta

section Tables

variable {db : DbMeta} {tab : TabMeta} {name : String}

theorem find_putTab (tab : TabMeta) (name : String) (tabs : List TabMeta) :
    (putTab tab tabs).find? (fun t => decide (t.name = name)) =
      if tab.name = name then some tab else tabs.find? fun t => decide (t.name = name) := by
  induction tabs with
  | nil =>
      by_cases h : tab.name = name
      · simp [putTab, h]
      · simp [putTab, h]
  | cons t tabs ih =>
      rw [putTab]
      by_cases h : tab.name = name
      · rw [if_pos h] at ih ⊢
        split
        · simp [h]
        · split
          · rename_i hlt
            have ht : t.name ≠ name := fun hc => absurd hlt (by rw [h, hc]; exact lt_irrefl _)
            simpa [ht] using ih
          · simp [h]
      · rw [if_neg h] at ih ⊢
        split
        · simp [h]
        · split
          · by_cases ht : t.name = name
            · simp [ht]
            · simpa [ht] using ih
          · rename_i hlt hgt
            have heq : tab.name = t.name := le_antisymm (not_lt.1 hgt) (not_lt.1 hlt)
            have ht : t.name ≠ name := fun hc => h (heq.trans hc)
            simp [h, ht]

theorem getTable_setTab : (db.setTab tab).getTable name = if tab.name = name then some tab
    else db.getTable name :=
  find_putTab tab name db.tabs

theorem getTable_erase {name' : String} : (db.erase name').getTable name = if name' = name then none
    else db.getTable name := by
  rw [DbMeta.getTable, DbMeta.erase, List.find?_filter]
  by_cases h : name' = name
  · rw [if_pos h, List.find?_eq_none]
    intro t _
    simp [← h]
  · rw [if_neg h, DbMeta.getTable]
    congr 1
    funext t
    by_cases ht : t.name = name
    · simp [ht, Ne.symm h]
    · simp [ht]

theorem mem_of_getTable (h : db.getTable name = some tab) : tab ∈ db.tabs ∧ tab.name = name := by
  rw [DbMeta.getTable] at h
  exact ⟨List.mem_of_find?_eq_some h, by simpa using List.find?_some h⟩

theorem getTable_of_mem (h : tab ∈ db.tabs) : db.getTable tab.name = some tab := by
  obtain ⟨_, tabs, hsorted⟩ := db
  rw [DbMeta.getTable]
  dsimp only at h ⊢
  induction hsorted with
  | nil => cases h
  | @cons t tabs ht _ ih =>
      rcases List.mem_cons.1 h with rfl | h
      · simp
      · have hne : t.name ≠ tab.name := (ht tab h).ne
        simpa [hne] using ih h

end Tables

end Rmdb.SmMeta

namespace Rmdb.SmMeta.Schema

open Restart

def laid (name : String) (t : Table) : List ColMeta := (SmManager.layCols name (.ofNat 0) t.cols).1

def laidKey (name : String) (t : Table) (ix : List String) : List ColMeta :=
  ix.filterMap fun col => (laid name t).find? fun c => c.name = col

def indexMeta (name : String) (t : Table) (ix : List String) : IndexMeta :=
  ⟨name, ((laidKey name t ix).map ColMeta.len).sum, .ofNat (laidKey name t ix).length, laidKey name t ix⟩

def tabMeta (name : String) (t : Table) : TabMeta := ⟨name, laid name t, t.indexes.map (indexMeta name t)⟩

def colDef (col : ColMeta) : ColDef := ⟨col.name, col.type, col.len⟩

section Layout

variable {n : String} {t : Table} {ix : List String} {off : Int32} {cols : List ColDef}

theorem layCols_defs : (SmManager.layCols n off cols).1.map colDef = cols := by
  induction cols generalizing off with
  | nil => rfl
  | cons c cols ih =>
      rw [SmManager.layCols, List.map_cons, ih]
      rfl

theorem layCols_size : (SmManager.layCols n off cols).2 = off + (cols.map ColDef.len).sum := by
  induction cols generalizing off with
  | nil => exact (Int32.add_zero off).symm
  | cons c cols ih =>
      rw [SmManager.layCols, List.map_cons, List.sum_cons, ← Int32.add_assoc]
      exact ih

theorem layCols_mem {col : ColMeta} (h : col ∈ (SmManager.layCols n off cols).1) :
    col.tabName = n ∧ col.index = false := by
  induction cols generalizing off with
  | nil => cases h
  | cons c cols ih =>
      rw [SmManager.layCols] at h
      rcases List.mem_cons.1 h with rfl | h
      · exact ⟨rfl, rfl⟩
      · exact ih h

theorem laid_defs : (laid n t).map colDef = t.cols := layCols_defs

theorem laid_names : (laid n t).map ColMeta.name = t.cols.map ColDef.name := by
  rw [← laid_defs (n := n), List.map_map]
  rfl

theorem find_laid (col : String) :
    ((laid n t).find? fun c => c.name = col).map colDef = t.cols.find? fun c => c.name = col := by
  rw [← laid_defs (n := n), List.find?_map]
  rfl

theorem laidKey_defs : (laidKey n t ix).map colDef = t.keyCols ix := by
  rw [laidKey, List.map_filterMap]
  exact List.filterMap_congr fun col _ => find_laid col

theorem laidKey_names (h : ∀ col ∈ ix, col ∈ t.cols.map ColDef.name) :
    (laidKey n t ix).map ColMeta.name = ix := by
  induction ix with
  | nil => rfl
  | cons col ix ih =>
      have hcol := h col List.mem_cons_self
      rw [← laid_names (n := n)] at hcol
      obtain ⟨c, hc, hname⟩ := List.mem_map.1 hcol
      cases hfind : (laid n t).find? fun c : ColMeta => decide (c.name = col) with
      | none => exact absurd hname (by simpa using List.find?_eq_none.1 hfind c hc)
      | some c' =>
          have hname' : c'.name = col := by simpa using List.find?_some hfind
          have hrest := ih fun c hc => h c (List.mem_cons_of_mem _ hc)
          rw [laidKey] at hrest ⊢
          simp only [List.filterMap_cons, hfind, List.map_cons, hname', hrest]

theorem keyHdr_laid : IxManager.indexHdr (laidKey n t ix) = t.keyHdr ix := by
  rw [Table.keyHdr, ← laidKey_defs (n := n), IxManager.indexHdr]
  simp only [List.map_map]
  rfl

theorem getCol_laid (col : String) : (tabMeta n t).getCol col = (laid n t).find? fun c => c.name = col := rfl

theorem findIdx?_eq_of_forall {α : Type} {p q : α → Bool} {l : List α} (h : ∀ a ∈ l, p a = q a) :
    l.findIdx? p = l.findIdx? q := by
  induction l with
  | nil => rfl
  | cons a l ih =>
      rw [List.findIdx?_cons, List.findIdx?_cons, h a List.mem_cons_self,
        ih fun b hb => h b (List.mem_cons_of_mem a hb)]

theorem getIndexMeta_laid
    (h : ∀ ix ∈ t.indexes, ix.length < 2147483648 ∧ ∀ col ∈ ix, col ∈ t.cols.map ColDef.name)
    (hix : ix.length < 2147483648) :
    (tabMeta n t).getIndexMeta ix = t.indexes.findIdx? fun ix' => decide (ix' = ix) := by
  rw [TabMeta.getIndexMeta, tabMeta, List.findIdx?_map]
  refine findIdx?_eq_of_forall fun ix' hix' => ?_
  obtain ⟨hlen, hcols⟩ := h ix' hix'
  have hnames := laidKey_names (n := n) hcols
  have hlength : (laidKey n t ix').length = ix'.length := by rw [← List.length_map ColMeta.name, hnames]
  simp only [Function.comp_apply, indexMeta, hnames, hlength, decide_eq_decide]
  constructor
  · exact And.right
  · rintro rfl
    exact ⟨rfl, rfl⟩

end Layout

/-- Names that the lexer makes, indexes over columns of their table, and a file of its own for each index. -/
structure Sound (tables : Tables) : Prop where
  name : ∀ {n t}, tables.lookup n = some t → isIdentifier n = true
  cols : ∀ {n t}, tables.lookup n = some t → ∀ col ∈ t.cols, isIdentifier col.name = true
  indexes : ∀ {n t}, tables.lookup n = some t →
    ∀ ix ∈ t.indexes, ix.length < 2147483648 ∧ ∀ col ∈ ix, col ∈ t.cols.map ColDef.name
  nodup : ∀ {n t}, tables.lookup n = some t → t.indexes.Nodup
  ownFile : ∀ {n t n' t'}, tables.lookup n = some t → tables.lookup n' = some t' →
    ∀ ix ∈ t.indexes, ∀ ix' ∈ t'.indexes, getIndexName n ix = getIndexName n' ix' → n = n' ∧ ix = ix'

structure Shows (db : DbMeta) (tables : Tables) : Prop where
  name : IsWord db.name
  table : ∀ n, db.getTable n = (tables.lookup n).map (tabMeta n)

section Entries

variable {db : DbMeta} {tables : Tables} {n : String} {t : Table}

theorem mem_entries : (n, t) ∈ entries tables ↔ tables.lookup n = some t := by
  rw [entries, List.mem_filterMap]
  constructor
  · rintro ⟨n', -, h⟩
    obtain ⟨t', ht', heq⟩ := Option.map_eq_some_iff.1 h
    cases heq
    exact ht'
  · intro h
    refine ⟨n, ?_, by rw [h]; rfl⟩
    rw [Finset.mem_sort, Finmap.mem_keys]
    exact Finmap.mem_of_lookup_eq_some h

theorem entries_sorted (tables : Tables) : (entries tables).Pairwise fun e e' => e.1 < e'.1 := by
  rw [entries, List.pairwise_filterMap]
  refine (Finset.sortedLT_sort tables.keys).pairwise.imp ?_
  intro a b hab e he e' he'
  obtain ⟨_, _, rfl⟩ := Option.map_eq_some_iff.1 he
  obtain ⟨_, _, rfl⟩ := Option.map_eq_some_iff.1 he'
  exact hab

theorem eq_of_sorted {l l' : List TabMeta} (h : l.Pairwise fun a b => a.name < b.name)
    (h' : l'.Pairwise fun a b => a.name < b.name) (hmem : ∀ a, a ∈ l ↔ a ∈ l') : l = l' := by
  have hnodup : ∀ {l : List TabMeta}, (l.Pairwise fun a b => a.name < b.name) → l.Nodup :=
    fun h => h.imp fun hlt heq => hlt.ne (congrArg TabMeta.name heq)
  refine List.Perm.eq_of_pairwise ?_ h h' ((List.perm_ext_iff_of_nodup (hnodup h) (hnodup h')).2 hmem)
  intro a b _ _ hab hba
  exact absurd (hab.trans hba) (lt_irrefl _)

theorem Shows.tabs (h : Shows db tables) : db.tabs = (entries tables).map fun e => tabMeta e.1 e.2 := by
  refine eq_of_sorted db.sorted ?_ fun tab => ?_
  · rw [List.pairwise_map]
    exact entries_sorted tables
  · rw [List.mem_map]
    constructor
    · intro htab
      have hget := getTable_of_mem htab
      rw [h.table] at hget
      obtain ⟨t, ht, heq⟩ := Option.map_eq_some_iff.1 hget
      exact ⟨(tab.name, t), mem_entries.2 ht, heq⟩
    · rintro ⟨⟨n, t⟩, he, rfl⟩
      have hget := h.table n
      rw [mem_entries.1 he] at hget
      exact (mem_of_getTable hget).1

theorem Shows.named (h : Shows db tables) (hs : Sound tables) : db.Named := by
  refine ⟨h.name, fun tab htab => ?_⟩
  rw [h.tabs] at htab
  obtain ⟨⟨n, t⟩, he, rfl⟩ := List.mem_map.1 htab
  have ht := mem_entries.1 he
  have hn := isWord_of_isIdentifier (hs.name ht)
  have hcol : ∀ col ∈ laid n t, col.Named := by
    intro col hcol
    refine ⟨(layCols_mem hcol).1 ▸ hn, ?_⟩
    have hdef : colDef col ∈ t.cols := by
      rw [← laid_defs (n := n)]
      exact List.mem_map_of_mem hcol
    exact isWord_of_isIdentifier (hs.cols ht _ hdef)
  refine ⟨hn, hcol, fun index hindex => ?_⟩
  obtain ⟨ix, hix, rfl⟩ := List.mem_map.1 hindex
  obtain ⟨hlen, hcols⟩ := hs.indexes ht ix hix
  have hlength : (laidKey n t ix).length = ix.length := by
    rw [← List.length_map ColMeta.name, laidKey_names hcols]
  refine ⟨hn, ?_, fun col hc => ?_⟩
  · simp only [indexMeta, hlength]
    exact Int32.toInt_ofNat_of_lt hlen
  · obtain ⟨_, _, hfind⟩ := List.mem_filterMap.1 hc
    exact hcol col (List.mem_of_find?_eq_some hfind)

theorem Shows.reads (h : Shows db tables) (hs : Sound tables) :
    ∃ left, DbMeta.fresh.read db.write = some (db, left) := by
  obtain ⟨left, -, hrun⟩ := (h.named hs).reads [] [] (fun _ hc => absurd hc List.not_mem_nil)
  simp only [List.nil_append, List.append_nil] at hrun
  exact ⟨left, hrun⟩

theorem indexNames_tabMeta (hs : Sound tables) (ht : tables.lookup n = some t) :
    (tabMeta n t).indexNames = indexNames (n, t) := by
  rw [TabMeta.indexNames, tabMeta, indexNames, List.map_map]
  refine List.map_congr_left fun ix hix => ?_
  simp only [Function.comp_apply, indexMeta, laidKey_names (hs.indexes ht ix hix).2]

end Entries

end Rmdb.SmMeta.Schema
