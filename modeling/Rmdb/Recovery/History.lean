import Rmdb.Recovery.Replay

namespace Rmdb

inductive TxnPhase
  | running
  | aborting
  | aborted
  | committed
deriving DecidableEq, Repr

/-- A transaction of the session: `prev_lsn_`, and `write_set_` with the latest write first. -/
structure TxnLife where
  prevLsn : Lsn
  writeSet : List Write
  phase : TxnPhase

/-- The database in memory during a session: the live records, the log since the restart
offset, the transactions, and who holds each table's exclusive lock. -/
structure Db where
  store : Store
  log : List LogRecord
  txns : TxnId → Option TxnLife
  owner : String → Option TxnId

/-- The steps of a history. `abort` appends the ABORT record; the undo of the writes that
follows is not logged, and each round of its loop is a step; `release` ends it. -/
inductive Event
  | begin (t : TxnId)
  | write (t : TxnId) (w : Write)
  | commit (t : TxnId)
  | abort (t : TxnId)
  | undo (t : TxnId)
  | release (t : TxnId)

/-- No two live rows of the table share a key of one of its indexes. -/
def UniqueKeys {κ : Type} (cat : Catalog κ) (tab : String) (st : Store) : Prop :=
  ∀ key ∈ cat.indexes tab, ∀ r r' row row', st ⟨tab, r⟩ = some row → st ⟨tab, r'⟩ = some row' →
    key row = key row' → r = r'

namespace Db

def start (base : Store) : Db := ⟨base, [], fun _ => none, fun _ => none⟩

/-- `add_log_to_buffer` for a record of `t`, whose lsn becomes the transaction's `prev_lsn_`. -/
def addLog (first : Lsn) (db : Db) (t : TxnId) (x : TxnLife) (body : LogBody) : Db :=
  { db with
    log := db.log ++ [⟨first + db.log.length, t, x.prevLsn, body⟩]
    txns := Function.update db.txns t (some { x with prevLsn := first + db.log.length }) }

def unlockAll (db : Db) (t : TxnId) : Db :=
  { db with owner := fun tab => if db.owner tab = some t then none else db.owner tab }

/-- The session hands out lsns from `first` on. -/
def apply (first : Lsn) (db : Db) : Event → Db
  | .begin t => db.addLog first t ⟨invalidLsn, [], .running⟩ .begin
  | .write t w =>
      match db.txns t with
      | none => db
      | some x =>
          { (db.addLog first t { x with writeSet := w :: x.writeSet } (.write w)) with
            store := w.redo db.store
            owner := Function.update db.owner w.loc.table (some t) }
  | .commit t =>
      match db.txns t with
      | none => db
      | some x => (db.addLog first t { x with writeSet := [], phase := .committed } .commit).unlockAll t
  | .abort t =>
      match db.txns t with
      | none => db
      | some x => db.addLog first t { x with phase := .aborting } .abort
  | .undo t =>
      match db.txns t with
      | some ⟨prevLsn, w :: ws, phase⟩ =>
          { db with
            store := w.undo db.store
            txns := Function.update db.txns t (some ⟨prevLsn, ws, phase⟩) }
      | _ => db
  | .release t =>
      match db.txns t with
      | none => db
      | some x =>
          ({ db with txns := Function.update db.txns t (some { x with phase := .aborted }) }).unlockAll t

variable {κ : Type} (cat : Catalog κ)

/-- A step that the code can take. A write holds the table's exclusive lock, meets the
record it logs, and leaves the keys of the unique indexes unique, or the statement would
have failed. A transaction that has been aborted may still be committed: the request loop
does that to a single statement. -/
def Legal (db : Db) : Event → Prop
  | .begin t => db.txns t = none
  | .write t w => (∃ x, db.txns t = some x ∧ x.phase = .running) ∧
      (db.owner w.loc.table = none ∨ db.owner w.loc.table = some t) ∧ w.op.Legal (db.store w.loc) ∧
      w.loc.table ∈ cat.tables ∧ UniqueKeys cat w.loc.table (w.redo db.store)
  | .commit t => ∃ x, db.txns t = some x ∧ (x.phase = .running ∨ x.phase = .aborted)
  | .abort t => ∃ x, db.txns t = some x ∧ x.phase = .running
  | .undo t => ∃ x, db.txns t = some x ∧ x.phase = .aborting ∧ x.writeSet ≠ []
  | .release t => ∃ x, db.txns t = some x ∧ x.phase = .aborting ∧ x.writeSet = []

def applyAll (first : Lsn) (db : Db) (es : List Event) : Db := es.foldl (apply first) db

def LegalRun (first : Lsn) : Db → List Event → Prop
  | _, [] => True
  | db, e :: es => Legal cat db e ∧ LegalRun first (db.apply first e) es

end Db

section Outcome

def LogBody.isCommit : LogBody → Bool
  | .commit => true
  | _ => false

def LogBody.isAbort : LogBody → Bool
  | .abort => true
  | _ => false

/-- The log holds a COMMIT, respectively an ABORT record of `t`. -/
def committed (log : List LogRecord) (t : TxnId) : Bool := log.any fun r => r.logTid = t ∧ r.body.isCommit

def aborted (log : List LogRecord) (t : TxnId) : Bool := log.any fun r => r.logTid = t ∧ r.body.isAbort

def winner (log : List LogRecord) (t : TxnId) : Bool := committed log t && !aborted log t

def effects (W : TxnId → Bool) (base : Store) (log : List LogRecord) : Store :=
  ((log.filter fun r => W r.logTid).filterMap LogRecord.write?).foldl (fun st w => w.redo st) base

end Outcome

end Rmdb
