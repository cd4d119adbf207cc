import Rmdb.Execution.TableScan
import Rmdb.Transaction.LockManager

namespace Rmdb

/-- A scan executor between two steps: `lowered` has made the first of the two searches of an
index scan, `standing` is before `is_end`, `reading` has a rid whose record it has not read,
`passing` goes on to the next one. With `begun` the scan has read a record. -/
inductive ScanPhase (n : Nat) (K : Fin n → Type)
  | closed
  | lowered (plan : ScanQuery n K) (first : Iid)
  | standing (plan : ScanQuery n K) (pos : OpenScan n) (rows : List (Rid × Row)) (begun : Bool)
  | reading (plan : ScanQuery n K) (pos : OpenScan n) (rows : List (Rid × Row)) (begun : Bool) (rid : Rid)
  | passing (plan : ScanQuery n K) (pos : OpenScan n) (rows : List (Rid × Row))

/-- The thread of a transaction: `locking` sleeps in `get_record`, `blocked` in
`lock_exclusive_on_table`, and `dying` has thrown `TransactionAbortException`. -/
inductive TxnThread
  | running
  | locking (scan : Nat)
  | blocked (st : DmlPlan)
  | dying
  | ended

structure ScanResult (n : Nat) (K : Fin n → Type) where
  txn : TxnId
  plan : ScanQuery n K
  rows : List (Rid × Row)
  committed : Rows
  own : List DmlPlan

/-- A table and the transactions that work on it. The last three fields are the history: the
statements of each transaction, the rows that are committed, and what the scans have returned. -/
structure TableServer (n : Nat) (K : Fin n → Type) where
  table : TableState n K
  numPages : Nat
  locks : LockState
  threads : TxnId → TxnThread
  scans : TxnId × Nat → ScanPhase n K
  writes : TxnId → List WriteRecord
  own : TxnId → List DmlPlan
  committed : Rows
  results : List (ScanResult n K)

inductive ServerAction (n : Nat) (K : Fin n → Type)
  | construct (txn : TxnId) (scan : Nat) (plan : ScanQuery n K)
  | upperBound (txn : TxnId) (scan : Nat)
  | rid (txn : TxnId) (scan : Nat)
  | getRecord (txn : TxnId) (scan : Nat)
  | next (txn : TxnId) (scan : Nat)
  | finish (txn : TxnId) (scan : Nat)
  | giveUp (txn : TxnId) (scan : Nat)
  | wake (txn : TxnId)
  | newPage
  | statement (txn : TxnId) (st : DmlPlan)
  | commit (txn : TxnId)
  | abort (txn : TxnId)

/-- What `get_free_record` has found for the rows of an insert. -/
def DmlPlan.freeRecords : DmlPlan → List Rid
  | .insert values => values.map Prod.snd
  | .update _ _ | .delete _ => []

def DmlPlan.asksLock : DmlPlan → Bool
  | .insert values => (values.head?.bind Prod.fst).isSome
  | .update _ rids | .delete rids => !rids.isEmpty

def DmlPlan.scanned : DmlPlan → List Rid
  | .insert _ => []
  | .update _ rids | .delete rids => rids

namespace TableServer

variable {n : Nat} {K : Fin n → Type} (tab : TabMeta n K) (fd : Int) (perPage : Nat)

section Model

variable (s : TableServer n K) (txn : TxnId) (scan : Nat) (locks : LockState)

def init (table : TableState n K) (numPages : Nat) : TableServer n K :=
  ⟨table, numPages, .init, fun _ => .running, fun _ => .closed, fun _ => [], fun _ => [], table.rows, []⟩

def slots : List Rid := fileSlots s.numPages perPage

def setScan (phase : ScanPhase n K) : TableServer n K :=
  { s with scans := Function.update s.scans (txn, scan) phase }

def setThread (thread : TxnThread) : TableServer n K :=
  { s with locks := locks, threads := Function.update s.threads txn thread }

def closeScans : TxnId × Nat → ScanPhase n K := fun x => if x.1 = txn then .closed else s.scans x

def takeRecord : Option (TableServer n K) :=
  match s.scans (txn, scan) with
  | .reading plan pos rows _ rid =>
      let row := s.table.slots rid
      some ((s.setThread txn locks .running).setScan txn scan
        (.passing plan pos (if plan.conds row then rows ++ [(rid, row)] else rows)))
  | _ => none

def release : LockState := if .table fd ∈ s.locks.lockSet txn then s.locks.unlock txn (.table fd) else s.locks

def leave (table : TableState n K) (committed : Rows) : TableServer n K :=
  { s with
    table := table
    locks := s.release fd txn
    threads := Function.update s.threads txn .ended
    scans := s.closeScans txn
    writes := Function.update s.writes txn []
    own := Function.update s.own txn []
    committed := committed }

def commit : TableServer n K :=
  s.leave fd txn s.table (if (s.writes txn).isEmpty then s.committed else s.table.rows)

def whenRunning (call : Option (TableServer n K)) : Option (TableServer n K) :=
  match s.threads txn with
  | .running => call
  | _ => none

variable [∀ i, IxKey (K i)]

/-- The constructor of `RmScan`, or `lower_bound`. -/
def construct (plan : ScanQuery n K) : TableServer n K :=
  s.setScan txn scan <| match plan with
    | .seq _ => .standing plan (.seq ((s.slots perPage).find? s.table.bitmap)) [] false
    | .index i lower _ _ =>
        match (s.table.ihs i).lowerBound lower with
        | .ok first => .lowered plan first
        | .error _ => .closed

/-- `upper_bound` and the constructor of `IxScan`. -/
def upperBound : Option (TableServer n K) :=
  match s.scans (txn, scan) with
  | .lowered (.index i lower upper conds) first =>
      some <| s.setScan txn scan <| match (s.table.ihs i).upperBound upper with
        | .ok last => .standing (.index i lower upper conds) (.index i last first) [] false
        | .error _ => .closed
  | _ => none

def cursor : Cursor (OpenScan n) IxError Rid := OpenScan.cursor (s.slots perPage) s.table

def rid : Option (TableServer n K) :=
  match s.scans (txn, scan) with
  | .standing plan pos rows begun =>
      if (s.cursor perPage).isEnd pos then none
      else some <| s.setScan txn scan <| match (s.cursor perPage).get pos with
        | .ok rid => .reading plan pos rows begun rid
        | .error _ => .closed
  | _ => none

def getRecord : Option (TableServer n K) :=
  match s.locks.lockSharedOnTable txn fd with
  | (.returned, locks) => s.takeRecord txn scan locks
  | (.waits, locks) => some (s.setThread txn locks (.locking scan))
  | (.dies, locks) => some (s.setThread txn locks .dying)
  | (.nullRequest, _) => none

def next : Option (TableServer n K) :=
  match s.scans (txn, scan) with
  | .passing plan pos rows =>
      some <| s.setScan txn scan <| match (s.cursor perPage).next pos with
        | .ok pos => .standing plan pos rows true
        | .error _ => .closed
  | _ => none

def finish : Option (TableServer n K) :=
  match s.scans (txn, scan) with
  | .standing plan pos rows _ =>
      if (s.cursor perPage).isEnd pos then
        some { s.setScan txn scan .closed with
          results := ⟨txn, plan, rows, s.committed, s.own txn⟩ :: s.results }
      else none
  | _ => none

def execute (st : DmlPlan) : Option (TableServer n K) :=
  let res := st.after tab { s.table with writeSet := s.writes txn }
  if ∀ r ∈ st.freeRecords, r ∈ s.slots perPage then
    some { s with
      table := res.2
      locks := locks
      threads := Function.update s.threads txn (if res.1 then .running else .dying)
      scans := s.closeScans txn
      writes := Function.update s.writes txn res.2.writeSet
      own := Function.update s.own txn (s.own txn ++ [st]) }
  else none

/-- The records of an update or a delete have been read under the lock before. -/
def statement (st : DmlPlan) : Option (TableServer n K) :=
  if st.asksLock = false then some { s with scans := s.closeScans txn }
  else if st.scanned ≠ [] ∧ .table fd ∉ s.locks.lockSet txn then none
  else
    match s.locks.lockExclusiveOnTable txn fd with
    | (.returned, locks) => s.execute tab perPage txn locks st
    | (.waits, locks) => some (s.setThread txn locks (.blocked st))
    | (.dies, locks) => some (s.setThread txn locks .dying)
    | (.nullRequest, _) => none

def wake : Option (TableServer n K) :=
  match s.locks.wakeUp txn with
  | none => none
  | some (_, locks) =>
      match s.threads txn with
      | .locking scan => s.takeRecord txn scan locks
      | .blocked st => s.execute tab perPage txn locks st
      | _ => none

/-- An exception out of `abort` ends the server. -/
def abort : Option (TableServer n K) :=
  match (Exec.abort tab).run { s.table with writeSet := s.writes txn } with
  | .ok _ table => some (s.leave fd txn table s.committed)
  | .error _ _ => none

def step (s : TableServer n K) : ServerAction n K → Option (TableServer n K)
  | .construct txn scan plan => s.whenRunning txn (some (s.construct perPage txn scan plan))
  | .upperBound txn scan => s.whenRunning txn (s.upperBound txn scan)
  | .rid txn scan => s.whenRunning txn (s.rid perPage txn scan)
  | .getRecord txn scan => s.whenRunning txn (s.getRecord fd txn scan)
  | .next txn scan => s.whenRunning txn (s.next perPage txn scan)
  | .finish txn scan => s.whenRunning txn (s.finish perPage txn scan)
  | .giveUp txn scan => s.whenRunning txn (some (s.setScan txn scan .closed))
  | .wake txn => s.wake tab perPage txn
  | .newPage => some { s with numPages := s.numPages + 1 }
  | .statement txn st => s.whenRunning txn (s.statement tab fd perPage txn st)
  | .commit txn => s.whenRunning txn (some (s.commit fd txn))
  | .abort txn =>
      match s.threads txn with
      | .running | .dying => s.abort tab fd txn
      | _ => none

end Model

section Fields

variable {s : TableServer n K} {txn other : TxnId} {scan : Nat} {locks : LockState}
  {phase : ScanPhase n K} {thread : TxnThread}

theorem setScan_self : (s.setScan txn scan phase).scans (txn, scan) = phase := Function.update_self ..

theorem setScan_of_ne {x : TxnId × Nat} (hx : x ≠ (txn, scan)) :
    (s.setScan txn scan phase).scans x = s.scans x :=
  Function.update_of_ne hx ..

theorem setThread_self : (s.setThread txn locks thread).threads txn = thread := Function.update_self ..

theorem setThread_of_ne (ho : other ≠ txn) : (s.setThread txn locks thread).threads other = s.threads other :=
  Function.update_of_ne ho ..

theorem whenRunning_eq_some {call : Option (TableServer n K)} {s' : TableServer n K}
    (h : s.whenRunning txn call = some s') :
    s.threads txn = .running ∧ call = some s' := by
  unfold whenRunning at h
  split at h
  · rename_i hrun
    exact ⟨hrun, h⟩
  · cases h

theorem closeScans_self : s.closeScans txn (txn, scan) = .closed := if_pos rfl

theorem closeScans_of_ne (ho : other ≠ txn) :
    s.closeScans txn (other, scan) = s.scans (other, scan) := if_neg ho

theorem release_waiting (s : TableServer n K) (fd : Int) (txn : TxnId) :
    (s.release fd txn).waiting = s.locks.waiting := by
  unfold release
  split
  · exact LockState.unlock_waiting _
  · rfl

theorem slots_before (s : TableServer n K) (perPage : Nat) :
    (s.slots perPage).Pairwise Rid.Before := fileSlots_before

end Fields

end TableServer

end Rmdb
