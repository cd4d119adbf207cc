import Rmdb.Index.Emptied
import Rmdb.Recovery.CleanRestart
import Rmdb.Recovery.IndexBuild

namespace Rmdb

open IxManager RecoveryManager

/-- `flushed` and `marking` are the two halves of a checkpoint. -/
inductive SqlPhase
  | idle
  | running
  | flushed
  | marking
deriving DecidableEq, Repr

abbrev SlotList : Type := { l : List Rid // l.Nodup }

/-- One client, and the files: the rows, trees and log of the running server behind the restart offset, how
many of these records are in the log file, and what is on disk of the table and index files. -/
structure IndexSession where
  tables : List String
  slots : String → SlotList
  indexes : String → List IndexMeta
  rows : Store
  ihs : Handles
  log : List LogRecord
  durable : Nat
  lsn : Lsn
  txn : TxnId
  prevLsn : Lsn
  phase : SqlPhase
  disk : Store
  hdrs : IndexMeta → IxFileHdr
  nodes : ∀ ix : IndexMeta, Int → Option (IxNode (Key ix.layout))
  checkpointed : Bool

/-- A statement is the list of the rows it changes. `writeLog` puts records of the buffer into the log file,
`writePage` and `writeNode` write back a page; a node that a statement is at work on may be half changed. -/
inductive IndexStep
  | begin
  | change (t : String) (c : RowChange)
  | load (t : String) (rows : List (Rid × Bytes × List Rid))
  | createTable (t : String)
  | dropTable (t : String)
  | createIndex (ix : IndexMeta)
  | dropIndex (ix : IndexMeta)
  | commit
  | writeLog (n : Nat)
  | writePage (page : String × Int)
  | writeNode (ix : IndexMeta) (p : Int) (half : Option (IxNode (Key ix.layout)))
  | flushAllPages
  | staticCheckpoint
  | setRestartLog

section Indexes

def onIndexes (f : ∀ ix : IndexMeta, ix.Handle → Option ix.Handle) : List IndexMeta → Handles → Option Handles
  | [], ihs => some ihs
  | ix :: ixs, ihs => (f ix (ihs ix)).bind fun ih => onIndexes f ixs (Function.update ihs ix ih)

variable (old v : Bytes) (rid : Rid) (ix : IndexMeta) (ih : ix.Handle)

def insertUnique : Option ix.Handle :=
  match ih.insertEntry (ix.key v) rid with
  | .ok (_, true, ih) => some ih
  | _ => none

/-- LOAD does not look at `success`. -/
def insertAny : Option ix.Handle :=
  match ih.insertEntry (ix.key v) rid with
  | .ok (_, _, ih) => some ih
  | .error _ => none

def deleteOld : Option ix.Handle :=
  match ih.deleteEntry (ix.key old) none with
  | .ok (_, ih) => some ih
  | .error _ => none

/-- An UPDATE leaves an index alone when it sets none of its columns. -/
def moveEntry : Option ix.Handle :=
  if ix.key v = ix.key old then some ih else (insertUnique v rid ix ih).bind fun ih => deleteOld old ix ih

end Indexes

namespace IndexSession

def start : IndexSession where
  tables := []
  slots _ := ⟨[], List.nodup_nil⟩
  indexes _ := []
  rows _ := none
  ihs ix := createIndex ix.layout
  log := []
  durable := 0
  lsn := 0
  txn := -1
  prevLsn := invalidLsn
  phase := .idle
  disk _ := none
  hdrs ix := (createIndex ix.layout).fileHdr
  nodes ix := (createIndex ix.layout).pages
  checkpointed := false

variable (s : IndexSession)

def cat : Catalog EntryKey where
  tables := s.tables
  slots t := (s.slots t).1
  nodup t := (s.slots t).2
  indexes t := (s.indexes t).map IndexMeta.entryKey

def durableLog : List LogRecord := s.log.take s.durable

def addLog (body : LogBody) : IndexSession :=
  { s with log := s.log ++ [⟨s.lsn, s.txn, s.prevLsn, body⟩], lsn := s.lsn + 1, prevLsn := s.lsn }

def grow (t : String) (grown : List Rid) : Option IndexSession :=
  if h : ((s.slots t).1 ++ grown).Nodup
    then some { s with slots := Function.update s.slots t ⟨_, h⟩ } else none

def clear (t : String) : IndexSession :=
  { s with
    slots := Function.update s.slots t ⟨[], List.nodup_nil⟩
    indexes := Function.update s.indexes t []
    rows := fun loc => if loc.table = t then none else s.rows loc
    disk := fun loc => if loc.table = t then none else s.disk loc }

def change (t : String) : RowChange → Option (Slot.Op Bytes × IndexSession)
  | .insert rid v grown =>
      (s.grow t grown).bind fun s =>
        if rid ∈ (s.slots t).1 ∧ s.rows ⟨t, rid⟩ = none then
          (onIndexes (insertUnique v rid) (s.indexes t) s.ihs).map fun ihs =>
            (.put v, { s with rows := insertRecord s.rows ⟨t, rid⟩ v, ihs := ihs })
        else none
  | .delete rid =>
      (s.rows ⟨t, rid⟩).bind fun old =>
        (onIndexes (deleteOld old) (s.indexes t) s.ihs).map fun ihs =>
          (.erase old, { s with rows := deleteRecord s.rows ⟨t, rid⟩, ihs := ihs })
  | .update rid v =>
      (s.rows ⟨t, rid⟩).bind fun old =>
        (onIndexes (moveEntry old v rid) (s.indexes t) s.ihs).map fun ihs =>
          (.set old v, { s with rows := updateRecord s.rows ⟨t, rid⟩ v, ihs := ihs })

def load (t : String) : List (Rid × Bytes × List Rid) → IndexSession → Option IndexSession
  | [], s => some s
  | (rid, v, grown) :: rows, s =>
      (s.grow t grown).bind fun s =>
        if rid ∈ (s.slots t).1 ∧ s.rows ⟨t, rid⟩ = none then
          (onIndexes (insertAny v rid) (s.indexes t) s.ihs).bind fun ihs =>
            load t rows { s with rows := insertRecord s.rows ⟨t, rid⟩ v, ihs := ihs }
        else none

/-- The header and the first pages of a new index are written at once, its entries are not. -/
def createIndex (ix : IndexMeta) : Option IndexSession :=
  match buildIndex ix.tabName ix.key (s.slots ix.tabName).1 (IxManager.createIndex ix.layout) s.rows with
  | .error _ => none
  | .ok (ih, rows) =>
      some { s with
        indexes := Function.update s.indexes ix.tabName (s.indexes ix.tabName ++ [ix])
        rows := rows
        ihs := Function.update s.ihs ix ih
        hdrs := Function.update s.hdrs ix (IxManager.createIndex ix.layout).fileHdr
        nodes := Function.update s.nodes ix (IxManager.createIndex ix.layout).pages }

def writePage (page : String × Int) : IndexSession :=
  { s with disk := fun loc => if loc.page = page then s.rows loc else s.disk loc }

def frame (ix : IndexMeta) (p : Int) (half : Option (IxNode (Key ix.layout))) :
    Option (IxNode (Key ix.layout)) :=
  if s.phase = .running then half.or ((s.ihs ix).pages p) else (s.ihs ix).pages p

def writeNode (ix : IndexMeta) (p : Int) (half : Option (IxNode (Key ix.layout))) : IndexSession :=
  { s with nodes := Function.update s.nodes ix (Function.update (s.nodes ix) p (s.frame ix p half)) }

def flushAllPages : IndexSession :=
  { s with phase := .flushed, disk := s.rows, nodes := fun ix => (s.ihs ix).pages }

/-- `commit` flushes the log before it returns. The transaction of the checkpoint command has been committed
when the pages are flushed. -/
def step : IndexStep → Option IndexSession
  | .begin =>
      if s.phase = .idle ∧ s.durable = s.log.length then
        some ({ s with phase := .running, txn := s.txn + 1, prevLsn := invalidLsn }.addLog .begin)
      else none
  | .change t c =>
      if s.phase = .running ∧ t ∈ s.tables then
        (s.change t c).map fun r => r.2.addLog (.write ⟨⟨t, c.rid⟩, r.1⟩)
      else none
  | .load t rows => if s.phase = .running ∧ t ∈ s.tables then load t rows s else none
  | .createTable t =>
      if s.phase = .running ∧ t ∉ s.tables then some { s.clear t with tables := s.tables ++ [t] } else none
  | .dropTable t =>
      if s.phase = .running ∧ t ∈ s.tables
        then some { s.clear t with tables := s.tables.filter fun u => u ≠ t } else none
  | .createIndex ix =>
      if s.phase = .running ∧ ix.tabName ∈ s.tables ∧ ix ∉ s.indexes ix.tabName
        then s.createIndex ix else none
  | .dropIndex ix =>
      if s.phase = .running ∧ ix ∈ s.indexes ix.tabName then
        some { s with indexes := Function.update s.indexes ix.tabName ((s.indexes ix.tabName).erase ix) }
      else none
  | .commit => if s.phase = .running then some { s.addLog .commit with phase := .idle } else none
  | .writeLog n => if s.durable ≤ n ∧ n ≤ s.log.length then some { s with durable := n } else none
  | .writePage page => some (s.writePage page)
  | .writeNode ix p half => some (s.writeNode ix p half)
  | .flushAllPages =>
      if s.phase = .idle ∧ s.durable = s.log.length ∧ 0 < s.durable then some s.flushAllPages else none
  | .staticCheckpoint =>
      if s.phase = .flushed then
        some { s with
          phase := .marking, log := s.log ++ [⟨s.lsn, -1, invalidLsn, .staticCheckpoint⟩], lsn := s.lsn + 1 }
      else none
  | .setRestartLog =>
      if s.phase = .marking ∧ s.durable = s.log.length then
        some { s with phase := .idle, log := [], durable := 0, checkpointed := true }
      else none

inductive RestartError
  | startup (e : StartupError)
  | index (e : IxError)

/-- The indexes as `open_db` finds them: the constructor reads the header, and counts pages from 1 on. -/
def opened : Handles := fun ix => ⟨s.hdrs ix, s.nodes ix, 1⟩

/-- `open_db`, `analyze`, `redo` and `undo` after a crash in this state. -/
def restart (order : List (String × Int)) : Except RestartError (Store × Handles) :=
  match analyze s.cat s.durableLog with
  | .error e => .error (.startup (.recovery e))
  | .ok a =>
      match (a.logRecords.filterMap LogRecord.write?).find?
        (fun w => w.loc.rid ∉ s.cat.slots w.loc.table) with
      | some w => .error (.startup (.readPage w.loc))
      | none =>
          match a.undoAll a.undoTxnList (a.redo order s.disk) with
          | .error e => .error (.startup (.recovery e))
          | .ok st =>
              if a.redoTxn = [] ∧ a.undoTxn = [] then .ok (st, s.opened)
              else match rebuildTables s.cat.slots s.indexes s.tables s.opened st with
                | .error e => .error (.index e)
                | .ok (ihs, st) => .ok (st, ihs)

/-- Every index has exactly the entries of the live rows when the server is up again. -/
def IndexesExact : Prop :=
  ∀ order, (readLog s.durableLog).RedoOrder order → ∃ st ihs, s.restart order = .ok (st, ihs) ∧
    ∀ t ∈ s.tables, ∀ ix ∈ s.indexes t, HoldsExactly (ihs ix) ix.key fun r => st ⟨t, r⟩

variable {s}

end IndexSession

section Trees

variable {L : Rid → Option Bytes} {rid : Rid} {old v : Bytes} {ix : IndexMeta} {ih ih' : ix.Handle}

theorem Indexed.unique (h : Indexed ih ix.key L) {r r' : Rid} {row row' : Bytes} (hr : L r = some row)
    (hr' : L r' = some row') (hkey : ix.key row = ix.key row') : r = r' := by
  rcases h with ⟨-, m, -, hm⟩ | ⟨-, hnone⟩
  · exact hm.unique hr hr' hkey
  · rw [hnone r] at hr
    cases hr

theorem Indexed.insertUnique (h : Indexed ih ix.key L) (hr : L rid = none)
    (hrun : insertUnique v rid ix ih = some ih') :
    Indexed ih' ix.key (Function.update L rid (some v)) := by
  rw [Rmdb.insertUnique] at hrun
  rcases h with h | ⟨h, -⟩
  · by_cases hnew : ∀ q row, L q = some row → ix.key row ≠ ix.key v
    · obtain ⟨p, ih1, hins, h1⟩ := h.insert hr hnew
      rw [hins] at hrun
      cases hrun
      exact .inl h1
    · -- a key that is there already is refused
      push Not at hnew
      obtain ⟨q, row, hq, hkey⟩ := hnew
      obtain ⟨p, ih1, hins, -⟩ := h.insert_dup hq hkey rid
      rw [hins] at hrun
      cases hrun
  · obtain ⟨e, he⟩ := h.insertEntry (ix.key v) rid
    rw [he] at hrun
    cases hrun

theorem Indexed.insertAny (h : Indexed ih ix.key L) (hr : L rid = none)
    (hnew : ∀ q row, L q = some row → ix.key row ≠ ix.key v) (hrun : insertAny v rid ix ih = some ih') :
    Indexed ih' ix.key (Function.update L rid (some v)) := by
  rw [Rmdb.insertAny] at hrun
  rcases h with h | ⟨h, -⟩
  · obtain ⟨p, ih1, hins, h1⟩ := h.insert hr hnew
    rw [hins] at hrun
    cases hrun
    exact .inl h1
  · obtain ⟨e, he⟩ := h.insertEntry (ix.key v) rid
    rw [he] at hrun
    cases hrun

theorem Indexed.deleteOld (h : Indexed ih ix.key L) (hr : L rid = some old)
    (hrun : deleteOld old ix ih = some ih') :
    Indexed ih' ix.key (Function.update L rid none) := by
  rw [Rmdb.deleteOld] at hrun
  rcases h with h | ⟨-, hnone⟩
  · by_cases hother : ∃ q, q ≠ rid ∧ L q ≠ none
    · obtain ⟨ih1, hdel, h1⟩ := h.delete hr hother (.inl rfl)
      rw [hdel] at hrun
      cases hrun
      exact .inl h1
    · push Not at hother
      obtain ⟨ih1, hdel, h1⟩ := h.delete_last hr hother (.inl rfl)
      rw [hdel] at hrun
      cases hrun
      refine .inr ⟨h1, fun r => ?_⟩
      by_cases hrr : r = rid
      · rw [hrr, Function.update_self]
      · rw [Function.update_of_ne hrr, hother r hrr]
  · rw [hnone rid] at hr
    cases hr

theorem Indexed.moveEntry (h : Indexed ih ix.key L) (hr : L rid = some old)
    (hrun : moveEntry old v rid ix ih = some ih') :
    Indexed ih' ix.key (Function.update L rid (some v)) := by
  rw [Rmdb.moveEntry] at hrun
  rcases h with h | ⟨-, hnone⟩
  · split at hrun
    · rename_i hkey
      cases hrun
      exact .inl (h.congr hr hkey)
    · rename_i hkey
      obtain ⟨ih1, hins, hdel⟩ := Option.bind_eq_some_iff.1 hrun
      rw [Rmdb.insertUnique] at hins
      rw [Rmdb.deleteOld] at hdel
      by_cases hnew : ∀ q row, L q = some row → ix.key row ≠ ix.key v
      · obtain ⟨p, ih2, ih3, hins', hdel', h3⟩ := h.move hr hnew
        rw [hins'] at hins
        cases hins
        rw [hdel'] at hdel
        cases hdel
        exact .inl h3
      · push Not at hnew
        obtain ⟨q, row, hq, hkey⟩ := hnew
        obtain ⟨p, ih2, hins', -⟩ := h.insert_dup hq hkey rid
        rw [hins'] at hins
        cases hins
  · rw [hnone rid] at hr
    cases hr

theorem onIndexes_spec {f : ∀ ix : IndexMeta, ix.Handle → Option ix.Handle}
    {P Q : ∀ ix : IndexMeta, ix.Handle → Prop} {ixs : List IndexMeta} {ihs ihs' : Handles} (hnd : ixs.Nodup)
    (hf : ∀ ix ∈ ixs, ∀ ih ih', P ix ih → f ix ih = some ih' → Q ix ih') (hP : ∀ ix ∈ ixs, P ix (ihs ix))
    (hrun : onIndexes f ixs ihs = some ihs') :
    (∀ ix ∈ ixs, Q ix (ihs' ix)) ∧ ∀ ix, ix ∉ ixs → ihs' ix = ihs ix := by
  induction ixs generalizing ihs with
  | nil =>
      cases hrun
      exact ⟨nofun, fun _ _ => rfl⟩
  | cons ix ixs iht =>
      obtain ⟨hnot, hnd⟩ := List.nodup_cons.1 hnd
      obtain ⟨ih, hih, hrun⟩ := Option.bind_eq_some_iff.1 hrun
      have hP' : ∀ ix' ∈ ixs, P ix' (Function.update ihs ix ih ix') := by
        intro ix' hix'
        have hne : ix' ≠ ix := by
          rintro rfl
          exact hnot hix'
        rw [Function.update_of_ne hne]
        exact hP ix' (List.mem_cons_of_mem _ hix')
      obtain ⟨hall, hold⟩ := iht hnd (fun ix' hix' => hf ix' (List.mem_cons_of_mem _ hix')) hP' hrun
      refine ⟨fun ix' hix' => ?_, fun ix' hix' => ?_⟩
      · rcases List.mem_cons.1 hix' with rfl | hix'
        · rw [hold _ hnot, Function.update_self]
          exact hf _ List.mem_cons_self _ _ (hP _ List.mem_cons_self) hih
        · exact hall ix' hix'
      · rw [List.mem_cons, not_or] at hix'
        rw [hold ix' hix'.2, Function.update_of_ne hix'.1]

structure TreesOk (indexes : String → List IndexMeta) (ihs : Handles) (rows : Store) : Prop where
  tab : ∀ t, ∀ ix ∈ indexes t, ix.tabName = t
  nodup : ∀ t, (indexes t).Nodup
  tree : ∀ t, ∀ ix ∈ indexes t, Indexed (ihs ix) ix.key fun r => rows ⟨t, r⟩

variable {indexes : String → List IndexMeta} {ihs ihs' : Handles} {rows : Store} {t : String}

theorem update_row {x : Option Bytes} (u : String) : (fun r => Function.update rows ⟨t, rid⟩ x ⟨u, r⟩) =
    if u = t then Function.update (fun r => rows ⟨t, r⟩) rid x else fun r => rows ⟨u, r⟩ := by
  funext r
  by_cases hu : u = t
  · subst hu
    rw [if_pos rfl]
    by_cases hr : r = rid
    · rw [hr, Function.update_self, Function.update_self]
    · rw [Function.update_of_ne hr, Function.update_of_ne fun hc => hr (congrArg Loc.rid hc)]
  · rw [if_neg hu, Function.update_of_ne fun hc => hu (congrArg Loc.table hc)]

theorem TreesOk.update (h : TreesOk indexes ihs rows) {x : Option Bytes}
    {f : ∀ ix : IndexMeta, ix.Handle → Option ix.Handle}
    (hf : ∀ ix ∈ indexes t, ∀ ih ih', Indexed ih ix.key (fun r => rows ⟨t, r⟩) → f ix ih = some ih' →
      Indexed ih' ix.key (Function.update (fun r => rows ⟨t, r⟩) rid x))
    (hrun : onIndexes f (indexes t) ihs = some ihs') :
    TreesOk indexes ihs' (Function.update rows ⟨t, rid⟩ x) := by
  obtain ⟨hall, hold⟩ := onIndexes_spec (h.nodup t) hf (h.tree t) hrun
  refine ⟨h.tab, h.nodup, fun u ix hix => ?_⟩
  rw [update_row]
  by_cases hu : u = t
  · subst hu
    rw [if_pos rfl]
    exact hall ix hix
  · have hnot : ix ∉ indexes t := fun hc => hu ((h.tab u ix hix).symm.trans (h.tab t ix hc))
    rw [if_neg hu, hold ix hnot]
    exact h.tree u ix hix

end Trees

end Rmdb
