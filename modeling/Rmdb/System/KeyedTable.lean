import Rmdb.Recovery.Log

namespace Rmdb

structure TableIndex (κ : Type) where
  key : Bytes → κ
  entries : κ → Option Rid

namespace TableIndex

variable {κ : Type} [DecidableEq κ] (ix : TableIndex κ)

/-- `insert_entry`: a key that is there keeps its rid. -/
def insertEntry (k : κ) (rid : Rid) : TableIndex κ :=
  if ix.entries k = none then { ix with entries := Function.update ix.entries k (some rid) } else ix

def deleteEntry (k : κ) : TableIndex κ := { ix with entries := Function.update ix.entries k none }

variable {ix} {k k' : κ} {rid : Rid}

@[simp] theorem key_insertEntry : (ix.insertEntry k rid).key = ix.key := by
  rw [insertEntry]
  split <;> rfl

@[simp] theorem key_deleteEntry : (ix.deleteEntry k).key = ix.key := rfl

theorem entries_deleteEntry : (ix.deleteEntry k).entries = Function.update ix.entries k none := rfl

theorem entries_insertEntry (hk : ix.entries k = none) :
    (ix.insertEntry k rid).entries = Function.update ix.entries k (some rid) := by rw [insertEntry, if_pos hk]

theorem entries_insertEntry_of_some (hk : ix.entries k' ≠ none) :
    (ix.insertEntry k rid).entries k' = ix.entries k' := by
  rw [insertEntry]
  split
  · rename_i hnone
    refine Function.update_of_ne ?_ ..
    rintro rfl
    exact hk hnone
  · rfl

end TableIndex

structure KeyedTable (κ : Type) where
  slots : List Rid
  nodup : slots.Nodup
  rows : Rid → Option Bytes
  indexes : List (TableIndex κ)

inductive RowChange
  | insert (rid : Rid) (v : Bytes) (grown : List Rid)
  | delete (rid : Rid)
  | update (rid : Rid) (v : Bytes)

def RowChange.rid : RowChange → Rid
  | .insert rid _ _ | .delete rid | .update rid _ => rid

namespace KeyedTable

variable {κ : Type}

def empty : KeyedTable κ := ⟨[], List.nodup_nil, fun _ => none, []⟩

def grow (T : KeyedTable κ) (grown : List Rid) : Option (KeyedTable κ) :=
  if h : (T.slots ++ grown).Nodup then some { T with slots := T.slots ++ grown, nodup := h } else none

variable [DecidableEq κ] (T : KeyedTable κ)

/-- A row goes into a slot, and into the indexes that do not have its key. -/
def put (rid : Rid) (v : Bytes) : KeyedTable κ :=
  { T with
    rows := Function.update T.rows rid (some v)
    indexes := T.indexes.map fun ix => ix.insertEntry (ix.key v) rid }

def remove (rid : Rid) (old : Bytes) : KeyedTable κ :=
  { T with
    rows := Function.update T.rows rid none
    indexes := T.indexes.map fun ix => ix.deleteEntry (ix.key old) }

/-- Where an UPDATE keeps the key of an index, it does not set the columns of that index. -/
def replace (rid : Rid) (old v : Bytes) : KeyedTable κ :=
  { T with
    rows := Function.update T.rows rid (some v)
    indexes := T.indexes.map fun ix =>
      if ix.key v = ix.key old then ix else (ix.insertEntry (ix.key v) rid).deleteEntry (ix.key old) }

def change : RowChange → Option (Slot.Op Bytes × KeyedTable κ)
  | .insert rid v grown =>
      (T.grow grown).bind fun T =>
        if rid ∈ T.slots ∧ T.rows rid = none ∧ ∀ ix ∈ T.indexes, ix.entries (ix.key v) = none then
          some (.put v, T.put rid v)
        else none
  | .delete rid => (T.rows rid).map fun old => (.erase old, T.remove rid old)
  | .update rid v =>
      (T.rows rid).bind fun old =>
        if ∀ ix ∈ T.indexes, ix.key v = ix.key old ∨ ix.entries (ix.key v) = none then
          some (.set old v, T.replace rid old v)
        else none

/-- The rows of a file, without a log record. A key that an index has already is passed over. -/
def load : List (Rid × Bytes × List Rid) → KeyedTable κ → Option (KeyedTable κ)
  | [], T => some T
  | (rid, v, grown) :: rows, T =>
      (T.grow grown).bind fun T => if rid ∈ T.slots ∧ T.rows rid = none then load rows (T.put rid v) else none

/-- One round of the scan of `create_index`: a row whose key is taken is deleted, without a log record. -/
def indexRow (acc : TableIndex κ × (Rid → Option Bytes)) (rid : Rid) : TableIndex κ × (Rid → Option Bytes) :=
  match acc.2 rid with
  | none => acc
  | some row =>
      if acc.1.entries (acc.1.key row) = none then (acc.1.insertEntry (acc.1.key row) rid, acc.2)
      else (acc.1, Function.update acc.2 rid none)

def createIndex (key : Bytes → κ) : KeyedTable κ :=
  let acc := T.slots.foldl indexRow (⟨key, fun _ => none⟩, T.rows)
  { T with rows := acc.2, indexes := T.indexes ++ [acc.1] }

/-- Every row has a slot of the file, and every index has it under its key. -/
structure Covered : Prop where
  slot : ∀ rid, T.rows rid ≠ none → rid ∈ T.slots
  entry : ∀ rid row, T.rows rid = some row → ∀ ix ∈ T.indexes, ix.entries (ix.key row) = some rid

section Lemmas

variable {T T' : KeyedTable κ} {rid : Rid} {v row : Bytes} {grown : List Rid} {c : RowChange}
  {op : Slot.Op Bytes} {key : Bytes → κ} {rows : List (Rid × Bytes × List Rid)}

omit [DecidableEq κ] in
theorem grow_spec (h : T.grow grown = some T') :
    T'.slots = T.slots ++ grown ∧ T'.rows = T.rows ∧ T'.indexes = T.indexes := by
  rw [grow] at h
  split at h
  · cases h
    exact ⟨rfl, rfl, rfl⟩
  · cases h

omit [DecidableEq κ] in
theorem Covered.grow (h : T.Covered) (hg : T.grow grown = some T') : T'.Covered := by
  obtain ⟨hslots, hrows, hix⟩ := grow_spec hg
  refine ⟨fun rid hrid => ?_, ?_⟩
  · rw [hslots]
    rw [hrows] at hrid
    exact List.mem_append_left _ (h.slot rid hrid)
  · rw [hrows, hix]
    exact h.entry

omit [DecidableEq κ] in
theorem Covered.mem (h : T.Covered) {r : Rid} {row : Bytes} (hrow : T.rows r = some row) : r ∈ T.slots :=
  h.slot r (by rw [hrow]; simp)

omit [DecidableEq κ] in
theorem Covered.unique (h : T.Covered) {ix : TableIndex κ} (hix : ix ∈ T.indexes) {r r' : Rid}
    {row row' : Bytes} (hr : T.rows r = some row) (hr' : T.rows r' = some row')
    (hkey : ix.key row = ix.key row') : r = r' := by
  have hentry := h.entry r row hr ix hix
  rw [hkey, h.entry r' row' hr' ix hix] at hentry
  exact (Option.some.inj hentry).symm

theorem rows_put : (T.put rid v).rows = Function.update T.rows rid (some v) := rfl

theorem Covered.put (h : T.Covered) (hslot : rid ∈ T.slots) (hfree : T.rows rid = none)
    (hfresh : ∀ ix ∈ T.indexes, ix.entries (ix.key v) = none) : (T.put rid v).Covered := by
  constructor
  · intro r hr
    by_cases hrr : r = rid
    · rw [hrr]
      exact hslot
    · refine h.slot r ?_
      rwa [rows_put, Function.update_of_ne hrr] at hr
  · intro r row hrow ix hix
    obtain ⟨ix, hmem, rfl⟩ := List.mem_map.1 hix
    rw [TableIndex.key_insertEntry]
    by_cases hrr : r = rid
    · subst hrr
      rw [rows_put, Function.update_self] at hrow
      cases hrow
      rw [TableIndex.entries_insertEntry (hfresh ix hmem), Function.update_self]
    · rw [rows_put, Function.update_of_ne hrr] at hrow
      have hold := h.entry r row hrow ix hmem
      rw [TableIndex.entries_insertEntry_of_some (by rw [hold]; simp), hold]

theorem rows_remove : (T.remove rid v).rows = Function.update T.rows rid none := rfl

theorem rows_replace : (T.replace rid row v).rows = Function.update T.rows rid (some v) := rfl

theorem Covered.remove (h : T.Covered) (hold : T.rows rid = some v) : (T.remove rid v).Covered := by
  have hother : ∀ r row, (T.remove rid v).rows r = some row → r ≠ rid ∧ T.rows r = some row := by
    intro r row hrow
    rw [rows_remove] at hrow
    by_cases hr : r = rid
    · subst hr
      rw [Function.update_self] at hrow
      cases hrow
    · rw [Function.update_of_ne hr] at hrow
      exact ⟨hr, hrow⟩
  constructor
  · intro r hr
    obtain ⟨row, hrow⟩ := Option.ne_none_iff_exists'.1 hr
    exact h.mem (hother r row hrow).2
  · intro r row hrow ix hix
    obtain ⟨ix, hmem, rfl⟩ := List.mem_map.1 hix
    obtain ⟨hr, hrow⟩ := hother r row hrow
    have hkey : ix.key row ≠ ix.key v := fun hc => hr (h.unique hmem hrow hold hc)
    rw [TableIndex.entries_deleteEntry, TableIndex.key_deleteEntry, Function.update_of_ne hkey]
    exact h.entry r row hrow ix hmem

theorem Covered.replace {old : Bytes} (h : T.Covered) (hold : T.rows rid = some old)
    (hfresh : ∀ ix ∈ T.indexes, ix.key v = ix.key old ∨ ix.entries (ix.key v) = none) :
    (T.replace rid old v).Covered := by
  constructor
  · intro r hr
    by_cases hrr : r = rid
    · rw [hrr]
      exact h.mem hold
    · rw [rows_replace, Function.update_of_ne hrr] at hr
      exact h.slot r hr
  · intro r row hrow ix hix
    obtain ⟨ix, hmem, rfl⟩ := List.mem_map.1 hix
    have hentry := h.entry rid old hold ix hmem
    rw [rows_replace] at hrow
    by_cases hkey : ix.key v = ix.key old
    · rw [if_pos hkey]
      by_cases hrr : r = rid
      · subst hrr
        rw [Function.update_self] at hrow
        cases hrow
        rw [hkey]
        exact hentry
      · rw [Function.update_of_ne hrr] at hrow
        exact h.entry r row hrow ix hmem
    · rw [if_neg hkey]
      have hnone := (hfresh ix hmem).resolve_left hkey
      rw [TableIndex.key_deleteEntry, TableIndex.key_insertEntry, TableIndex.entries_deleteEntry,
        TableIndex.entries_insertEntry hnone]
      by_cases hrr : r = rid
      · subst hrr
        rw [Function.update_self] at hrow
        cases hrow
        rw [Function.update_of_ne hkey, Function.update_self]
      · rw [Function.update_of_ne hrr] at hrow
        have hr := h.entry r row hrow ix hmem
        have hne : ix.key row ≠ ix.key old := fun hc => hrr (h.unique hmem hrow hold hc)
        have hne' : ix.key row ≠ ix.key v := by
          intro hc
          rw [hc, hnone] at hr
          cases hr
        rw [Function.update_of_ne hne, Function.update_of_ne hne']
        exact hr

/-- What a change does to the slots is its logged operation. -/
theorem change_spec (h : T.change c = some (op, T')) :
    op.Legal (T.rows c.rid) ∧ T'.rows = Function.update T.rows c.rid (op.redo (T.rows c.rid)) ∧
      (∀ r ∈ T.slots, r ∈ T'.slots) ∧ (T.Covered → c.rid ∈ T'.slots ∧ T'.Covered) := by
  cases c with
  | insert rid v grown =>
      obtain ⟨T₀, hgrow, h⟩ := Option.bind_eq_some_iff.1 h
      obtain ⟨hslots, hrows, hix⟩ := grow_spec hgrow
      split at h
      · rename_i hok
        obtain ⟨hslot, hfree, hfresh⟩ := hok
        cases h
        refine ⟨by rw [← hrows]; exact hfree, by rw [← hrows]; rfl, fun r hr => ?_,
          fun hcov => ⟨hslot, (hcov.grow hgrow).put hslot hfree hfresh⟩⟩
        change r ∈ T₀.slots
        rw [hslots]
        exact List.mem_append_left _ hr
      · cases h
  | delete rid =>
      obtain ⟨old, hold, h⟩ := Option.map_eq_some_iff.1 h
      cases h
      exact ⟨hold, rfl, fun r hr => hr, fun hcov => ⟨hcov.mem hold, hcov.remove hold⟩⟩
  | update rid v =>
      obtain ⟨old, hold, h⟩ := Option.bind_eq_some_iff.1 h
      split at h
      · rename_i hfresh
        cases h
        refine ⟨hold, by rw [RowChange.rid, hold]; rfl, fun r hr => hr,
          fun hcov => ⟨hcov.mem hold, hcov.replace hold hfresh⟩⟩
      · cases h

theorem load_slots (h : load rows T = some T') : ∀ r ∈ T.slots, r ∈ T'.slots := by
  induction rows generalizing T with
  | nil =>
      cases h
      exact fun r hr => hr
  | cons x rows ih =>
      obtain ⟨rid, v, grown⟩ := x
      obtain ⟨T₀, hgrow, h⟩ := Option.bind_eq_some_iff.1 h
      obtain ⟨hslots, -, -⟩ := grow_spec hgrow
      split at h
      · intro r hr
        refine ih h r ?_
        change r ∈ T₀.slots
        rw [hslots]
        exact List.mem_append_left _ hr
      · cases h

theorem indexRow_spec (acc : TableIndex κ × (Rid → Option Bytes)) (rid : Rid) :
    (indexRow acc rid).1.key = acc.1.key ∧
      (∀ k r, acc.1.entries k = some r → (indexRow acc rid).1.entries k = some r) ∧
      ∀ r row, (indexRow acc rid).2 r = some row →
        acc.2 r = some row ∧ (r = rid → (indexRow acc rid).1.entries (acc.1.key row) = some r) := by
  cases hrow : acc.2 rid with
  | none =>
      have heq : indexRow acc rid = acc := by simp only [indexRow, hrow]
      rw [heq]
      refine ⟨rfl, fun _ _ hk => hk, fun r row hr => ⟨hr, ?_⟩⟩
      rintro rfl
      rw [hrow] at hr
      cases hr
  | some row₀ =>
      by_cases hfree : acc.1.entries (acc.1.key row₀) = none
      · have heq : indexRow acc rid = (acc.1.insertEntry (acc.1.key row₀) rid, acc.2) := by
          simp only [indexRow, hrow, if_pos hfree]
        rw [heq]
        refine ⟨TableIndex.key_insertEntry, fun k r hk => ?_, fun r row hr => ⟨hr, ?_⟩⟩
        · rw [TableIndex.entries_insertEntry_of_some (by rw [hk]; simp), hk]
        · rintro rfl
          cases hrow.symm.trans hr
          rw [TableIndex.entries_insertEntry hfree, Function.update_self]
      · have heq : indexRow acc rid = (acc.1, Function.update acc.2 rid none) := by
          simp only [indexRow, hrow, if_neg hfree]
        rw [heq]
        refine ⟨rfl, fun _ _ hk => hk, fun r row hr => ?_⟩
        change Function.update acc.2 rid none r = some row at hr
        by_cases hrr : r = rid
        · subst hrr
          rw [Function.update_self] at hr
          cases hr
        · rw [Function.update_of_ne hrr] at hr
          exact ⟨hr, fun hc => absurd hc hrr⟩

theorem createIndex_covered (h : T.Covered) (key : Bytes → κ) : (T.createIndex key).Covered := by
  have hfold : ∀ (l : List Rid) (acc : TableIndex κ × (Rid → Option Bytes)), acc.1.key = key →
      (∀ r row, acc.2 r = some row → r ∈ l ∨ acc.1.entries (key row) = some r) →
      (l.foldl indexRow acc).1.key = key ∧ ∀ r row, (l.foldl indexRow acc).2 r = some row →
        (l.foldl indexRow acc).1.entries (key row) = some r ∧ acc.2 r = some row := by
    intro l
    induction l with
    | nil =>
        intro acc hk hentry
        exact ⟨hk, fun r row hrow => ⟨(hentry r row hrow).resolve_left List.not_mem_nil, hrow⟩⟩
    | cons rid l ih =>
        intro acc hk hentry
        obtain ⟨hk', hold, hrows⟩ := indexRow_spec acc rid
        have hentry' : ∀ r row, (indexRow acc rid).2 r = some row →
            r ∈ l ∨ (indexRow acc rid).1.entries (key row) = some r := by
          intro r row hrow
          obtain ⟨hrow, hself⟩ := hrows r row hrow
          rw [hk] at hself
          rcases hentry r row hrow with hr | hr
          · exact (List.mem_cons.1 hr).symm.imp_right hself
          · exact .inr (hold _ _ hr)
        obtain ⟨hkey, hall⟩ := ih (indexRow acc rid) (hk'.trans hk) hentry'
        exact ⟨hkey, fun r row hrow => ⟨(hall r row hrow).1, (hrows r row (hall r row hrow).2).1⟩⟩
  obtain ⟨hk, hall⟩ := hfold T.slots (⟨key, fun _ => none⟩, T.rows) rfl
    fun r row hrow => .inl (h.mem hrow)
  refine ⟨fun rid hrid => ?_, fun r row hrow ix hix => ?_⟩
  · obtain ⟨row, hrow⟩ := Option.ne_none_iff_exists'.1 hrid
    exact h.mem (hall rid row hrow).2
  · rcases List.mem_append.1 hix with hix | hix
    · exact h.entry r row (hall r row hrow).2 ix hix
    · rw [List.mem_singleton.1 hix, hk]
      exact (hall r row hrow).1

end Lemmas

end KeyedTable

end Rmdb
