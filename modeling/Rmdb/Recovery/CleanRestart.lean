import Rmdb.Recovery.Restart
import Rmdb.System.KeyedTable
import Rmdb.Lib.Trace

namespace Rmdb

open RecoveryManager

inductive StartupError
  | recovery (e : RecoveryError)
  | readPage (loc : Loc)

/-- `analyze`, `redo` and `undo` behind `open_db`. A page that the file of the table does not have cannot be
read when its records are redone. -/
def startup {κ : Type} [DecidableEq κ] (cat : Catalog κ) (order : List (String × Int)) (log : List LogRecord)
    (disk : Store) : Except StartupError Store :=
  match analyze cat log with
  | .error e => .error (.recovery e)
  | .ok a =>
      match (a.logRecords.filterMap LogRecord.write?).find? (fun w => w.loc.rid ∉ cat.slots w.loc.table) with
      | some w => .error (.readPage w.loc)
      | none =>
          match a.undo cat (a.redo order disk) with
          | .error e => .error (.recovery e)
          | .ok st => .ok st

/-- The database in a session of one client without explicit transactions; `txn` is the last transaction. -/
structure SqlSession (κ : Type) where
  tables : List String
  tab : String → KeyedTable κ
  log : List LogRecord
  txn : TxnId

/-- A statement that goes through; a DML statement is the list of the rows it changes. -/
inductive SqlStatement (κ : Type)
  | dml (t : String) (changes : List RowChange)
  | load (t : String) (rows : List (Rid × Bytes × List Rid))
  | createIndex (t : String) (key : Bytes → κ)
  | createTable (t : String)
  | dropTable (t : String)

namespace SqlSession

variable {κ : Type}

def start : SqlSession κ := ⟨[], fun _ => .empty, [], -1⟩

section State

variable (s : SqlSession κ) (t : String) (T : KeyedTable κ)

def store : Store := fun loc => (s.tab loc.table).rows loc.rid

/-- What `open_db` reads of the tables after `close_db`. -/
def cat : Catalog κ where
  tables := s.tables
  slots t := (s.tab t).slots
  nodup t := (s.tab t).nodup
  indexes t := (s.tab t).indexes.map TableIndex.key

def setTab : SqlSession κ := { s with tab := Function.update s.tab t T }

def addLog (prevLsn : Lsn) (body : LogBody) : SqlSession κ :=
  { s with log := s.log ++ [⟨s.log.length, s.txn, prevLsn, body⟩] }

def begin : SqlSession κ := { s with txn := s.txn + 1 }.addLog invalidLsn .begin

def commit : SqlSession κ := s.addLog (s.log.length - 1) .commit

end State

variable [DecidableEq κ]

/-- The rows of a DML statement: each is logged, and then changed. -/
def changeAll (t : String) : List RowChange → SqlSession κ → Option (SqlSession κ)
  | [], s => some s
  | c :: cs, s => ((s.tab t).change c).bind fun r =>
      changeAll t cs ((s.addLog (s.log.length - 1) (.write ⟨⟨t, c.rid⟩, r.1⟩)).setTab t r.2)

def exec (s : SqlSession κ) : SqlStatement κ → Option (SqlSession κ)
  | .dml t changes => if t ∈ s.tables then changeAll t changes s else none
  | .load t rows => if t ∈ s.tables then (KeyedTable.load rows (s.tab t)).map (s.setTab t) else none
  | .createIndex t key => if t ∈ s.tables then some (s.setTab t ((s.tab t).createIndex key)) else none
  | .createTable t => if t ∈ s.tables then none else some { s.setTab t .empty with tables := s.tables ++ [t] }
  | .dropTable t =>
      if t ∈ s.tables then some { s.setTab t .empty with tables := s.tables.filter fun u => u ≠ t } else none

def step (s : SqlSession κ) (a : SqlStatement κ) : Option (SqlSession κ) := (s.begin.exec a).map commit

/-- After `close_db` the server starts again, and all tables have their rows. -/
def RestartsSame (s : SqlSession κ) : Prop :=
  ∀ order, (readLog s.log).RedoOrder order → ∃ st, startup s.cat order s.log s.store = .ok st ∧
    ∀ t ∈ s.tables, ∀ rid, st ⟨t, rid⟩ = s.store ⟨t, rid⟩

def logged (s : SqlSession κ) (loc : Loc) : List (Slot.Op Bytes) := (slotLog loc s.log).map Prod.snd

/-- Where the statement changes a slot of the table without a record, the records of that slot leave the new
value alone. -/
def Settles (s : SqlSession κ) (t : String) (T : KeyedTable κ) : Prop :=
  ∀ rid, T.rows rid ≠ (s.tab t).rows rid → Slot.redoAll (s.logged ⟨t, rid⟩) (T.rows rid) = T.rows rid

/-- LOAD gives no row a key that is taken, LOAD and CREATE INDEX leave slots alone that the log
would set back, and DROP TABLE finds no record of a row of the table in the log. -/
def KeepsLog (s : SqlSession κ) : SqlStatement κ → Prop
  | .dml _ _ | .createTable _ => True
  | .load t rows => ∀ T, KeyedTable.load rows (s.tab t) = some T → s.Settles t T ∧ T.Covered
  | .createIndex t key => s.Settles t ((s.tab t).createIndex key)
  | .dropTable t => ∀ r ∈ s.log, ∀ w, r.write? = some w → w.loc.table ≠ t

structure Inv (s : SqlSession κ) : Prop where
  sorted : s.log.Pairwise fun r r' => r.lsn < r'.lsn
  below : ∀ r ∈ s.log, r.lsn < s.log.length
  plain : ∀ r ∈ s.log, r.body ≠ .staticCheckpoint
  places : ∀ r ∈ s.log, ∀ w, r.write? = some w → w.loc.table ∈ s.tables ∧
    w.loc.rid ∈ (s.tab w.loc.table).slots
  settled : ∀ loc, Slot.redoAll (s.logged loc) (s.store loc) = s.store loc
  covered : ∀ t, (s.tab t).Covered
  closed : ∀ u, u ≠ s.txn → (readLog s.log).undoTxn.lookup u = none

def Committed (s : SqlSession κ) : Prop := ∀ u, (readLog s.log).undoTxn.lookup u = none

section Restart

variable {s s' : SqlSession κ} {a : SqlStatement κ} {t : String} {T : KeyedTable κ}
  {body : LogBody} {prevLsn : Lsn}

omit [DecidableEq κ] in
theorem Inv.uniqueKeys (h : Inv s) (t : String) : UniqueKeys s.cat t s.store := by
  intro key hkey r r' row row' hr hr' heq
  obtain ⟨ix, hix, rfl⟩ := List.mem_map.1 hkey
  exact (h.covered t).unique hix hr hr' heq

theorem Inv.restartsSame (h : Inv s) (hc : Committed s) : s.RestartsSame := by
  intro order horder
  have hrecs := logRecords_sorted h.sorted
  have htables : checkTables s.cat s.log = .ok () := checkTables_ok fun r hr =>
    ⟨fun w hw => (h.places r hr w (by rw [LogRecord.write?, hw])).1, h.plain r hr⟩
  have hanalyze : analyze s.cat s.log = .ok (readLog s.log) := by
    rw [analyze, hrecs, htables]
    rfl
  have hpages : ((readLog s.log).logRecords.filterMap LogRecord.write?).find?
      (fun w => w.loc.rid ∉ s.cat.slots w.loc.table) = none := by
    rw [List.find?_eq_none]
    intro w hw
    rw [hrecs] at hw
    obtain ⟨r, hr, hw⟩ := List.mem_filterMap.1 hw
    have hslot : w.loc.rid ∈ s.cat.slots w.loc.table := (h.places r hr w hw).2
    simpa using hslot
  have hredo : (readLog s.log).redo order s.store = s.store := by
    funext loc
    rw [redo_slot horder, hrecs]
    exact h.settled loc
  have hlosers : (readLog s.log).undoTxnList = [] := by
    rw [undoTxnList, List.reverse_eq_nil_iff, List.filter_eq_nil_iff]
    intro u _
    rw [hc u]
    simp
  have hundo : (readLog s.log).undo s.cat s.store = .ok s.store := by
    rw [RecoveryManager.undo, hlosers]
    change (if _ then _ else _) = _
    split
    · rfl
    · rw [rebuildIndexes_unique h.uniqueKeys]
      rfl
  refine ⟨s.store, ?_, fun t _ rid => rfl⟩
  rw [startup, hanalyze]
  simp only [hpages, hredo, hundo]

end Restart

section Statements

variable {s s' : SqlSession κ} {a : SqlStatement κ} {t : String} {T : KeyedTable κ}
  {body : LogBody} {prevLsn : Lsn} {w : Write} {loc : Loc}

omit [DecidableEq κ] in
theorem tab_setTab_self : (s.setTab t T).tab t = T := Function.update_self ..

omit [DecidableEq κ] in
theorem tab_setTab_of_ne {u : String} (hu : u ≠ t) : (s.setTab t T).tab u = s.tab u :=
  Function.update_of_ne hu ..

omit [DecidableEq κ] in
theorem store_setTab : (s.setTab t T).store loc = if loc.table = t then T.rows loc.rid else s.store loc := by
  rw [store, store]
  by_cases ht : loc.table = t
  · rw [if_pos ht, ht, tab_setTab_self]
  · rw [if_neg ht, tab_setTab_of_ne ht]

omit [DecidableEq κ] in
theorem slotLog_addLog : slotLog loc (s.addLog prevLsn body).log =
    slotLog loc s.log ++ slotLog loc [⟨s.log.length, s.txn, prevLsn, body⟩] := slotLog_append _ _

omit [DecidableEq κ] in
theorem logged_addLog_write (w : Write) :
    (s.addLog prevLsn (.write w)).logged loc = s.logged loc ++ if w.loc = loc then [w.op] else [] := by
  rw [logged, slotLog_addLog, List.map_append, logged]
  by_cases hw : w.loc = loc <;> simp [slotLog, LogRecord.write?, hw]

omit [DecidableEq κ] in
theorem logged_addLog (hb : ∀ w, body ≠ .write w) : (s.addLog prevLsn body).logged loc = s.logged loc := by
  rw [logged, slotLog_addLog, List.map_append, logged]
  cases body with
  | write w => exact absurd rfl (hb w)
  | begin | commit | abort | staticCheckpoint => exact List.append_nil _

omit [DecidableEq κ] in
theorem logged_eq_nil (h : ∀ r ∈ s.log, ∀ w, r.write? = some w → w.loc ≠ loc) : s.logged loc = [] := by
  rw [logged, List.map_eq_nil_iff, List.eq_nil_iff_forall_not_mem]
  intro e he
  obtain ⟨r, hr, w, hw, hloc, -⟩ := mem_slotLog.1 he
  exact h r hr w hw hloc

omit [DecidableEq κ] in
theorem Inv.order_addLog (h : Inv s) :
    ((s.addLog prevLsn body).log.Pairwise fun r r' => r.lsn < r'.lsn) ∧
      ∀ r ∈ (s.addLog prevLsn body).log, r.lsn < (s.addLog prevLsn body).log.length := by
  have hlen : ((s.addLog prevLsn body).log.length : Int) = s.log.length + 1 := by simp [addLog]
  constructor
  · refine List.pairwise_append.2 ⟨h.sorted, List.pairwise_singleton _ _, fun r hr r' hr' => ?_⟩
    rw [List.mem_singleton.1 hr']
    exact h.below r hr
  · intro r hr
    rw [hlen]
    rcases List.mem_append.1 hr with hr | hr
    · exact (h.below r hr).trans (lt_add_one _)
    · rw [List.mem_singleton.1 hr]
      exact lt_add_one _

omit [DecidableEq κ] in
theorem undoTxn_addLog : (readLog (s.addLog prevLsn body).log).undoTxn =
    ((readLog s.log).readRecord ⟨s.log.length, s.txn, prevLsn, body⟩).undoTxn := by
  rw [addLog, readLog_append]

omit [DecidableEq κ] in
theorem Inv.addLog (h : Inv s) (hb : ∀ w, body ≠ .write w) (hck : body ≠ .staticCheckpoint)
    (hclosed : ∀ u, u ≠ s.txn → (readLog (s.addLog prevLsn body).log).undoTxn.lookup u = none) :
    Inv (s.addLog prevLsn body) := by
  obtain ⟨hsorted, hbelow⟩ := h.order_addLog
  refine ⟨hsorted, hbelow, fun r hr => ?_, fun r hr w hw => ?_, fun loc => ?_, h.covered, hclosed⟩
  · rcases List.mem_append.1 hr with hr | hr
    · exact h.plain r hr
    · rw [List.mem_singleton.1 hr]
      exact hck
  · rcases List.mem_append.1 hr with hr | hr
    · exact h.places r hr w hw
    · rw [List.mem_singleton.1 hr, LogRecord.write?] at hw
      cases body with
      | write w => exact absurd rfl (hb w)
      | begin | commit | abort | staticCheckpoint => cases hw
  · rw [logged_addLog hb]
    exact h.settled loc

omit [DecidableEq κ] in
theorem Inv.begin (h : Inv s) (hc : Committed s) : Inv s.begin := by
  have hnew : Inv { s with txn := s.txn + 1 } :=
    ⟨h.sorted, h.below, h.plain, h.places, h.settled, h.covered, fun u _ => hc u⟩
  refine hnew.addLog nofun nofun fun u hu => ?_
  rw [undoTxn_addLog]
  change (emplaceTxn _ _ _).lookup u = none
  rw [lookup_emplaceTxn (hc _), if_neg hu]
  exact hc u

omit [DecidableEq κ] in
theorem Inv.commit (h : Inv s) : Inv s.commit ∧ Committed s.commit := by
  have hall : Committed s.commit := by
    intro u
    rw [SqlSession.commit, undoTxn_addLog]
    change (eraseTxn _ _).lookup u = none
    rw [lookup_eraseTxn]
    split
    · rfl
    · rename_i hu
      exact h.closed u hu
  exact ⟨h.addLog nofun nofun fun u _ => hall u, hall⟩

omit [DecidableEq κ] in
theorem Inv.setTab (h : Inv s) (hslots : ∀ r ∈ (s.tab t).slots, r ∈ T.slots) (hsettles : s.Settles t T)
    (hcov : T.Covered) :
    Inv (s.setTab t T) := by
  refine ⟨h.sorted, h.below, h.plain, fun r hr w hw => ?_, fun loc => ?_, fun u => ?_, h.closed⟩
  · obtain ⟨htab, hrid⟩ := h.places r hr w hw
    refine ⟨htab, ?_⟩
    by_cases ht : w.loc.table = t
    · rw [ht, tab_setTab_self]
      rw [ht] at hrid
      exact hslots _ hrid
    · rw [tab_setTab_of_ne ht]
      exact hrid
  · rw [store_setTab]
    by_cases ht : loc.table = t
    · subst ht
      rw [if_pos rfl]
      by_cases hsame : T.rows loc.rid = (s.tab loc.table).rows loc.rid
      · rw [hsame]
        exact h.settled loc
      · exact hsettles loc.rid hsame
    · rw [if_neg ht]
      exact h.settled loc
  · by_cases ht : u = t
    · rw [ht, tab_setTab_self]
      exact hcov
    · rw [tab_setTab_of_ne ht]
      exact h.covered u

theorem Inv.change (h : Inv s) (ht : t ∈ s.tables) {c : RowChange} {op : Slot.Op Bytes}
    (hchange : (s.tab t).change c = some (op, T)) :
    Inv ((s.addLog prevLsn (.write ⟨⟨t, c.rid⟩, op⟩)).setTab t T) := by
  obtain ⟨hlegal, hrows, hslots, hcov⟩ := KeyedTable.change_spec hchange
  obtain ⟨hin, hcov⟩ := hcov (h.covered t)
  obtain ⟨hsorted, hbelow⟩ := h.order_addLog
  refine ⟨hsorted, hbelow, fun r hr => ?_, fun r hr w hw => ?_, fun loc => ?_, fun u => ?_, fun u hu => ?_⟩
  · rcases List.mem_append.1 hr with hr | hr
    · exact h.plain r hr
    · rw [List.mem_singleton.1 hr]
      nofun
  · have hplace : w.loc.table ∈ s.tables ∧ (w.loc.rid ∈ (s.tab w.loc.table).slots ∨ w.loc = ⟨t, c.rid⟩) := by
      rcases List.mem_append.1 hr with hr | hr
      · exact (h.places r hr w hw).imp_right .inl
      · rw [List.mem_singleton.1 hr] at hw
        cases hw
        exact ⟨ht, .inr rfl⟩
    refine ⟨hplace.1, ?_⟩
    by_cases hw : w.loc.table = t
    · rw [hw, tab_setTab_self]
      rcases hplace.2 with hr | hr
      · rw [hw] at hr
        exact hslots _ hr
      · rw [hr]
        exact hin
    · rw [tab_setTab_of_ne hw]
      refine hplace.2.resolve_right fun hc => hw ?_
      rw [hc]
  · rw [store_setTab]
    change Slot.redoAll ((s.addLog prevLsn (.write ⟨⟨t, c.rid⟩, op⟩)).logged loc) _ = _
    rw [logged_addLog_write]
    by_cases hloc : (⟨t, c.rid⟩ : Loc) = loc
    · subst hloc
      rw [if_pos rfl, if_pos rfl, hrows, Function.update_self]
      exact Slot.redoAll_settled (h.settled ⟨t, c.rid⟩) hlegal
    · rw [if_neg hloc, List.append_nil]
      by_cases htab : loc.table = t
      · have hrid : loc.rid ≠ c.rid := by
          intro hc
          apply hloc
          rw [← htab, ← hc]
        rw [if_pos htab, hrows, Function.update_of_ne hrid, ← htab]
        exact h.settled loc
      · rw [if_neg htab]
        exact h.settled loc
  · by_cases hu : u = t
    · rw [hu, tab_setTab_self]
      exact hcov
    · rw [tab_setTab_of_ne hu]
      exact h.covered u
  · change (readLog (s.addLog prevLsn (.write ⟨⟨t, c.rid⟩, op⟩)).log).undoTxn.lookup u = none
    rw [undoTxn_addLog]
    have hne : u ≠ s.txn := hu
    change (Rmdb.setTxn (readLog s.log).undoTxn s.txn _).lookup u = none
    rw [lookup_setTxn, if_neg hne]
    exact h.closed u hne

theorem Inv.changeAll {cs : List RowChange} (h : Inv s) (ht : t ∈ s.tables)
    (hrun : changeAll t cs s = some s') : Inv s' := by
  induction cs generalizing s with
  | nil =>
      cases hrun
      exact h
  | cons c cs ih =>
      obtain ⟨⟨op, T⟩, hchange, hrun⟩ := Option.bind_eq_some_iff.1 hrun
      exact ih (h.change ht hchange) ht hrun

omit [DecidableEq κ] in
theorem Inv.clear (h : Inv s) (hnone : ∀ r ∈ s.log, ∀ w, r.write? = some w → w.loc.table ≠ t)
    {tables : List String} (htables : ∀ u, u ≠ t → u ∈ s.tables → u ∈ tables) :
    Inv { s.setTab t .empty with tables := tables } := by
  refine ⟨h.sorted, h.below, h.plain, fun r hr w hw => ?_, fun loc => ?_, fun u => ?_, h.closed⟩
  · obtain ⟨htab, hrid⟩ := h.places r hr w hw
    have hne := hnone r hr w hw
    refine ⟨htables _ hne htab, ?_⟩
    change w.loc.rid ∈ ((s.setTab t .empty).tab w.loc.table).slots
    rw [tab_setTab_of_ne hne]
    exact hrid
  · change Slot.redoAll (s.logged loc) ((s.setTab t .empty).store loc) = (s.setTab t .empty).store loc
    rw [store_setTab]
    by_cases ht : loc.table = t
    · have hnil : s.logged loc = [] := logged_eq_nil fun r hr w hw hc => hnone r hr w hw (by rw [hc, ht])
      rw [hnil]
      rfl
    · rw [if_neg ht]
      exact h.settled loc
  · change ((s.setTab t .empty).tab u).Covered
    by_cases hu : u = t
    · rw [hu, tab_setTab_self]
      exact ⟨fun _ hr => absurd rfl hr, nofun⟩
    · rw [tab_setTab_of_ne hu]
      exact h.covered u

theorem Inv.exec (h : Inv s) (hkeeps : s.KeepsLog a) (hrun : s.exec a = some s') : Inv s' := by
  cases a with
  | dml t changes =>
      rw [SqlSession.exec] at hrun
      split at hrun
      · rename_i ht
        exact h.changeAll ht hrun
      · cases hrun
  | load t rows =>
      rw [SqlSession.exec] at hrun
      split at hrun
      · obtain ⟨T, hload, rfl⟩ := Option.map_eq_some_iff.1 hrun
        obtain ⟨hsettles, hcov⟩ := hkeeps T hload
        exact h.setTab (KeyedTable.load_slots hload) hsettles hcov
      · cases hrun
  | createIndex t key =>
      rw [SqlSession.exec] at hrun
      split at hrun
      · cases hrun
        exact h.setTab (fun r hr => hr) hkeeps (KeyedTable.createIndex_covered (h.covered t) key)
      · cases hrun
  | createTable t =>
      rw [SqlSession.exec] at hrun
      split at hrun
      · cases hrun
      · rename_i ht
        cases hrun
        refine h.clear (fun r hr w hw hc => ht ?_) fun u _ hu => List.mem_append_left _ hu
        rw [← hc]
        exact (h.places r hr w hw).1
  | dropTable t =>
      rw [SqlSession.exec] at hrun
      split at hrun
      · cases hrun
        exact h.clear hkeeps fun u hne hu => List.mem_filter.2 ⟨hu, by simpa using hne⟩
      · cases hrun

theorem step_inv (h : Inv s) (hc : Committed s) (hk : s.KeepsLog a) (hstep : step s a = some s') :
    Inv s' ∧ Committed s' := by
  obtain ⟨s₁, hexec, rfl⟩ := Option.map_eq_some_iff.1 hstep
  have hkeeps : s.begin.KeepsLog a := by
    have hlogged : ∀ loc, s.begin.logged loc = s.logged loc := fun loc => logged_addLog nofun
    cases a with
    | dml | createTable => trivial
    | load t rows =>
        intro T hT
        refine ⟨fun rid hrid => ?_, (hk T hT).2⟩
        rw [hlogged]
        exact (hk T hT).1 rid hrid
    | createIndex t key =>
        intro rid hrid
        rw [hlogged]
        exact hk rid hrid
    | dropTable t =>
        intro r hr w hw
        rcases List.mem_append.1 hr with hr | hr
        · exact hk r hr w hw
        · rw [List.mem_singleton.1 hr] at hw
          cases hw
  exact ((h.begin hc).exec hkeeps hexec).commit

end Statements

def indexedRows : List (SqlStatement Bytes) :=
  [.createTable "t", .createIndex "t" id, .dml "t" [.insert ⟨1, 0⟩ [7] [⟨1, 0⟩, ⟨1, 1⟩]],
    .load "t" [(⟨1, 1⟩, [8], [])], .dml "t" [.update ⟨1, 1⟩ [9]], .dml "t" [.delete ⟨1, 0⟩]]

def droppedTable : List (SqlStatement Bytes) :=
  [.createTable "t", .dml "t" [.insert ⟨1, 0⟩ [7] [⟨1, 0⟩]], .dropTable "t"]

end SqlSession

end Rmdb
